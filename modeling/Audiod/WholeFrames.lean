import Audiod.Server

/-!
# Whole frames in the stream rings (`server/src/mixer.rs:212-257`)

The dry scan looks for a byte, the mixing step takes frames. Whatever a reader pushes and
the mixer pops is whole frames, so the ring that the scan has found is one that the same
tick takes from: nothing else empties it in between.
-/

namespace Audiod.Mixer

/-! ### The mixer -/

/-- The rings hold whole frames, those of no stream yet nothing. -/
structure Aligned (m : Mix) : Prop where
  rings : ∀ id, 4 ∣ (m.streams id).ring.filled
  live : ∀ id, (m.streams id).ring.raw.interrupted = false
  fresh : ∀ id, m.registered ≤ id → (m.streams id).ring.filled = 0

/-- What the tick has seen in the rings is there, and it has taken some of it by the end
of the slots. -/
def Pc.Backed (m : Mix) : Pc → Prop
  | .dryScan todo => ∀ s ∈ todo, s ∈ m.slots
  | .pace => ∃ s ∈ m.slots, 0 < (m.streams s).ring.filled
  | .mixFilled todo w _ had => 0 < w ∧ (had = false → ∃ s ∈ todo, 0 < (m.streams s).ring.filled)
  | .mixPop s want _ w _ => 0 < w ∧ 0 < want ∧ 4 ∣ want ∧ want ≤ (m.streams s).ring.filled
  | _ => True

structure Whole (m : Mix) : Prop extends Aligned m where
  backed : m.pc.Backed m

theorem whole_init (volume : F32) : Whole (Mix.init volume) :=
  ⟨⟨fun _ => dvd_zero 4, fun _ => rfl, fun _ _ => rfl⟩, trivial⟩

theorem Aligned.same {m m' : Mix} (h : Aligned m) (hs : m'.streams = m.streams)
    (hr : m'.registered = m.registered) : Aligned m' := by
  constructor
  · rw [hs]
    exact h.rings
  · rw [hs]
    exact h.live
  · rw [hs, hr]
    exact h.fresh

theorem Aligned.update {m m' : Mix} {s : ℕ} {x : MixerStream} (h : Aligned m)
    (hs : m'.streams = Function.update m.streams s x) (hr : m.registered ≤ m'.registered)
    (hring : 4 ∣ x.ring.filled) (hlive : x.ring.raw.interrupted = false)
    (hfresh : m'.registered ≤ s → x.ring.filled = 0) : Aligned m' := by
  constructor <;> intro id <;> rw [hs] <;> by_cases hid : id = s
  · rw [hid, Function.update_self]
    exact hring
  · rw [Function.update_of_ne hid]
    exact h.rings id
  · rw [hid, Function.update_self]
    exact hlive
  · rw [Function.update_of_ne hid]
    exact h.live id
  · rw [hid, Function.update_self]
    exact hfresh
  · rw [Function.update_of_ne hid]
    exact fun hle => h.fresh id (hr.trans hle)

theorem tryPop_filled {α : Type*} {r : Ring α} {n : ℕ} (hi : r.raw.interrupted = false) :
    (r.tryPop n).1.length = min n r.filled ∧ (r.tryPop n).2.filled = r.filled - n := by
  obtain ⟨hd, hc, -, -⟩ := Ring.tryPop_spec n hi
  rw [hd, List.length_take, ← Ring.contents_length, ← Ring.contents_length, hc, List.length_drop]
  exact ⟨rfl, rfl⟩

theorem Whole.mix_aligned {m : Mix} (h : Whole m) (delay : ℤ) : Aligned (m.mix delay).1 := by
  rcases mix_cases m delay with ⟨hs, hr, -, -⟩ | ⟨s, todo, flushed, -, -, heq⟩ |
    ⟨s, todo, -, heq⟩ | ⟨s, want, todo, w, acc, hpc, heq⟩
  · exact h.toAligned.same hs hr
  · rw [heq]
    exact h.toAligned.update rfl le_rfl (h.rings s) (h.live s) (h.fresh s)
  · rw [heq]
    exact h.toAligned.update rfl le_rfl (dvd_zero 4) (h.live s) fun _ => rfl
  · rw [heq]
    have hbacked := h.backed
    rw [hpc] at hbacked
    obtain ⟨-, -, hdvd, -⟩ := hbacked
    obtain ⟨-, hleft⟩ := tryPop_filled (n := want) (h.live s)
    obtain ⟨-, -, -, hi⟩ := Ring.tryPop_spec want (h.live s)
    refine h.toAligned.update rfl le_rfl ?_ hi fun hid => ?_
    · rw [hleft]
      exact Nat.dvd_sub (h.rings s) hdvd
    · rw [hleft, h.fresh s hid, Nat.zero_sub]

/- Nothing to take in a ring of whole frames means nothing in it. -/
theorem filled_of_want_eq_zero {w filled : ℕ} (hw : 0 < w) (hdvd : 4 ∣ filled)
    (h : min (w * 4) (filled / 4 * 4) = 0) : filled = 0 := by
  rw [Nat.div_mul_cancel hdvd] at h
  omega

/- A ring passed over is empty, and a ring taken from has whole frames. -/
theorem Whole.backed_mixFilled {m : Mix} (h : Whole m) {todo : List ℕ} {w : ℕ} {acc : ℕ → ℤ}
    {had : Bool} (hpc : m.pc = .mixFilled todo w acc had) (delay : ℤ) :
    (m.mix delay).1.pc.Backed (m.mix delay).1 := by
  have hb := h.backed
  rw [hpc] at hb
  obtain ⟨hw, hfound⟩ := hb
  simp only [Mix.mix, hpc]
  cases todo with
  | nil =>
    dsimp only
    split <;> trivial
  | cons s todo =>
    dsimp only
    split
    · rename_i hwant
      have hempty := filled_of_want_eq_zero hw (h.rings s) hwant
      refine ⟨hw, fun hhad => ?_⟩
      obtain ⟨i, hi, hpos⟩ := hfound hhad
      rcases List.mem_cons.mp hi with rfl | hi
      · omega
      · exact ⟨i, hi, hpos⟩
    · have hle : (m.streams s).ring.filled / 4 * 4 ≤ (m.streams s).ring.filled :=
        Nat.div_mul_le_self _ _
      refine ⟨hw, by omega, ?_, (Nat.min_le_right _ _).trans hle⟩
      rcases Nat.le_total (w * 4) ((m.streams s).ring.filled / 4 * 4) with hmin | hmin
      · rw [Nat.min_eq_left hmin]
        exact Nat.dvd_mul_left 4 w
      · rw [Nat.min_eq_right hmin]
        exact Nat.dvd_mul_left 4 _

theorem Whole.mix_backed {m : Mix} (h : Whole m) (delay : ℤ) :
    (m.mix delay).1.pc.Backed (m.mix delay).1 := by
  have hb := h.backed
  cases hpc : m.pc with
  | retain todo kept =>
    simp only [Mix.mix, hpc]
    cases todo with
    | nil =>
      dsimp only
      split
      · trivial
      · exact fun s hs => hs
    | cons s todo =>
      dsimp only
      split <;> trivial
  | dryScan todo =>
    rw [hpc] at hb
    simp only [Mix.mix, hpc]
    cases todo with
    | nil => trivial
    | cons s todo =>
      dsimp only
      split
      · rename_i hpos
        exact ⟨s, hb s List.mem_cons_self, hpos⟩
      · exact fun i hi => hb i (List.mem_cons_of_mem _ hi)
  | pace =>
    rw [hpc] at hb
    simp only [Mix.mix, hpc]
    split
    · trivial
    · rename_i hw
      exact ⟨Nat.pos_of_ne_zero hw, fun _ => hb⟩
  | mixFilled todo w acc had => exact h.backed_mixFilled hpc delay
  | mixPop s want todo w acc =>
    rw [hpc] at hb
    simp only [Mix.mix, hpc]
    exact ⟨hb.1, fun hhad => Bool.noConfusion hhad⟩
  | _ =>
    simp only [Mix.mix, hpc]
    repeat' split
    all_goals trivial

theorem Whole.mix {m : Mix} (h : Whole m) (delay : ℤ) : Whole (m.mix delay).1 :=
  ⟨h.mix_aligned delay, h.mix_backed delay⟩

theorem Pc.Backed.mono {m m' : Mix} {pc : Pc} (h : pc.Backed m) (hslots : m'.slots = m.slots)
    (hgrow : ∀ s, (m.streams s).ring.filled ≤ (m'.streams s).ring.filled) : pc.Backed m' := by
  cases pc with
  | dryScan todo =>
    intro s hs
    rw [hslots]
    exact h s hs
  | pace =>
    obtain ⟨s, hs, hpos⟩ := h
    exact ⟨s, hslots ▸ hs, hpos.trans_le (hgrow s)⟩
  | mixFilled todo w acc had =>
    refine ⟨h.1, fun hhad => ?_⟩
    obtain ⟨s, hs, hpos⟩ := h.2 hhad
    exact ⟨s, hs, hpos.trans_le (hgrow s)⟩
  | mixPop s want todo w acc => exact ⟨h.1, h.2.1, h.2.2.1, h.2.2.2.trans (hgrow s)⟩
  | _ => trivial

/-- What a reader may push. -/
def Input.Whole : Input → Prop
  | .push _ data => 4 ∣ data.length
  | _ => True

theorem Whole.update {m m' : Mix} {s : ℕ} {x : MixerStream} (h : Whole m)
    (hs : m'.streams = Function.update m.streams s x) (hr : m.registered ≤ m'.registered)
    (hring : 4 ∣ x.ring.filled) (hlive : x.ring.raw.interrupted = false)
    (hfresh : m'.registered ≤ s → x.ring.filled = 0)
    (hgrow : (m.streams s).ring.filled ≤ x.ring.filled) (hpc : m'.pc = m.pc)
    (hslots : m'.slots = m.slots) : Whole m' := by
  refine ⟨h.toAligned.update hs hr hring hlive hfresh, ?_⟩
  rw [hpc]
  refine h.backed.mono hslots fun id => ?_
  rw [hs]
  by_cases hid : id = s
  · rw [hid, Function.update_self]
    exact hgrow
  · rw [Function.update_of_ne hid]

theorem Whole.step {m m' : Mix} {i : Input} {es : List Event} (h : Whole m) (hi : i.Whole)
    (hs : step m i = some (m', es)) : Whole m' := by
  cases i with
  | mix delay =>
    obtain rfl : (m.mix delay).1 = m' := congrArg Prod.fst (Option.some.inj hs)
    exact h.mix delay
  | register ringBytes =>
    cases hs
    refine h.update (x := MixerStream.new ringBytes) rfl (Nat.le_succ _) (dvd_zero 4) rfl
      (fun _ => rfl) ?_ rfl rfl
    rw [h.fresh _ le_rfl]
    exact Nat.zero_le _
  | push id data =>
    obtain ⟨⟨hlt, -⟩, ring, cells, rfl, hring, rfl, -⟩ := step_push hs
    obtain ⟨-, hc, -, hlive⟩ := Ring.push_spec hring
    have hlen : ring.filled = (m.streams id).ring.filled + data.length := by
      rw [← Ring.contents_length, hc, List.length_append, List.length_map, Ring.contents_length]
    refine h.update rfl le_rfl ?_ (hlive.trans (h.live id))
      (fun hid => absurd hlt (Nat.not_lt.mpr hid)) ?_ rfl rfl
    · rw [hlen]
      exact Nat.dvd_add (h.rings id) hi
    · rw [hlen]
      exact Nat.le_add_right _ _
  | requestFlush id =>
    obtain ⟨-, rfl, -⟩ := step_requestFlush hs
    exact h.update rfl le_rfl (h.rings id) (h.live id) (h.fresh id) le_rfl rfl rfl
  | finish id =>
    obtain ⟨-, rfl, -⟩ := step_finish hs
    exact h.update rfl le_rfl (h.rings id) (h.live id) (h.fresh id) le_rfl rfl rfl
  | elapse ns | setMuted b | setVolume percent =>
    cases hs
    exact ⟨h.toAligned.same rfl rfl, h.backed.mono rfl fun _ => le_rfl⟩

/-! ### What a tick owes -/

/-- The tick is to write something and has taken nothing. -/
def Pc.owes : Pc → Bool
  | .mixFilled _ _ _ had => !had
  | .mixPop .. => true
  | _ => false

/-- Whether a frame is owed, from the events. -/
def Event.settle (owed : Bool) : Event → Bool
  | .paced delay => owed || decide (0 < writable delay)
  | .took _ cells => owed && decide (cells.length < 4)
  | _ => owed

theorem Whole.mix_owes {m : Mix} (h : Whole m) (delay : ℤ) {owed : Bool}
    (ho : owed = true → m.pc.owes = true)
    (hnew : (m.mix delay).2.foldl Event.settle owed = true) :
    (m.mix delay).1.pc.owes = true := by
  have hb := h.backed
  cases hpc : m.pc with
  | pace =>
    rw [hpc] at ho
    simp only [Mix.mix, hpc] at hnew ⊢
    split at hnew
    · rename_i hw
      simp only [List.foldl_cons, List.foldl_nil, Event.settle, hw, Nat.lt_irrefl, decide_false,
        Bool.or_false] at hnew
      exact Bool.noConfusion (ho hnew)
    · rename_i hw
      rw [if_neg hw]
      rfl
  | mixFilled todo w acc had =>
    rw [hpc] at ho hb
    cases todo with
    | nil =>
      cases had with
      | false =>
        obtain ⟨s, hs, -⟩ := hb.2 rfl
        exact absurd hs List.not_mem_nil
      | true =>
        simp only [Mix.mix, hpc, if_true] at hnew
        exact Bool.noConfusion (ho hnew)
    | cons s todo =>
      simp only [Mix.mix, hpc] at hnew ⊢
      split at hnew
      · rename_i hwant
        rw [if_pos hwant]
        exact ho hnew
      · rename_i hwant
        rw [if_neg hwant]
        rfl
  | mixPop s want todo w acc =>
    rw [hpc] at hb
    obtain ⟨-, hpos, hdvd, hle⟩ := hb
    obtain ⟨htook, -⟩ := tryPop_filled (n := want) (h.live s)
    have hframe : ¬ (((m.streams s).ring.tryPop want).1.length < 4) := by
      rw [htook, Nat.min_eq_left hle]
      exact Nat.not_lt.mpr (Nat.le_of_dvd hpos hdvd)
    simp only [Mix.mix, hpc, List.foldl_cons, List.foldl_nil, Event.settle, hframe, decide_false,
      Bool.and_false] at hnew
    exact Bool.noConfusion hnew
  | _ =>
    -- nothing was owed, and nothing of this is about owing
    exfalso
    rw [hpc] at ho
    refine Bool.noConfusion (ho ?_)
    revert hnew
    simp only [Mix.mix, hpc]
    repeat' split
    all_goals simp [Event.settle]

theorem mix_tick {m : Mix} {delay : ℤ} (h : .tick ∈ (m.mix delay).2) : m.pc = .top := by
  revert h
  cases hpc : m.pc with
  | top => exact fun _ => rfl
  | _ =>
    simp only [Mix.mix, hpc]
    repeat' split
    all_goals simp

end Audiod.Mixer

namespace Audiod.Daemon

open Mixer (writable)

/-! ### The readers -/

/-- What is pushed is whole frames. -/
def Thread.Whole {σ : Type*} : Thread σ → Prop
  | .push _ data => 4 ∣ data.length
  | _ => True

section

variable {σ : Type*} [PackArith σ] {δ : Type*} [WideArith δ] [FloatCasts δ σ] {u : Setup}

theorem packed_dvd {samples : List σ} {d : Bytes} (hpairs : 2 ∣ samples.length)
    (h : Reader.packed samples = some d) : 4 ∣ d.length := by
  simp only [Reader.packed] at h
  split at h
  · cases h
  · cases h
    rw [f32StereoToS16_length]
    exact Nat.mul_dvd_mul_left 2 hpairs

theorem chunk_dvd {r r' : Reader σ} {data d : Bytes} (h : r.chunk data = some (r', some d)) :
    4 ∣ d.length := by
  unfold Reader.chunk at h
  split at h
  · obtain ⟨-, h⟩ := Prod.mk.inj (Option.some.inj h)
    split at h
    · rename_i hdvd
      cases h
      exact hdvd
    · cases h
  · dsimp only at h
    split at h
    · obtain ⟨-, h⟩ := Prod.mk.inj (Option.some.inj h)
      refine packed_dvd ?_ h
      rw [foldToStereo_length]
      exact Nat.dvd_mul_right 2 _
    · obtain ⟨⟨rs, out, n⟩, -, h⟩ := Option.map_eq_some_iff.mp h
      obtain ⟨-, h⟩ := Prod.mk.inj h
      refine packed_dvd ?_ h
      simp [List.length_flatMap]

theorem decode_whole {s : Option (Stream σ)} {f : Field} {d : Bytes} {th : Thread σ}
    (h : Thread.decode s f d = some th) : th.Whole := by
  cases f with
  | data n =>
    cases s with
    | none =>
      cases h
      trivial
    | some s =>
      obtain ⟨⟨r, out⟩, hchunk, h⟩ := Option.map_eq_some_iff.mp h
      cases out with
      | none =>
        cases h
        trivial
      | some data =>
        cases h
        exact chunk_dvd hchunk
  | volume =>
    cases h
    trivial
  | len | op =>
    simp only [Thread.decode] at h
    repeat' split at h
    all_goals
      cases h
      first | trivial | (cases s <;> trivial)

theorem Thread.step_whole {allowed : Bool} {g g' : Shared} {p p' : Peer} {a : Answer}
    {th th' : Thread σ} {fs : List ThreadEvent}
    (hs : Thread.step δ u allowed g p a th = some (g', p', th', fs)) : th'.Whole := by
  cases th with
  | read s f got =>
    obtain ⟨⟨r, q⟩, -, hs⟩ := Option.bind_eq_some_iff.mp hs
    dsimp only at hs
    split at hs
    · cases hs
      trivial
    · obtain ⟨th, hth, hs⟩ := Option.map_eq_some_iff.mp hs
      cases hs
      exact decode_whole hth
    · cases hs
      cases s <;> trivial
  | apply s cmd =>
    simp only [Thread.step] at hs
    split at hs
    · cases hs
      split
      · trivial
      · cases s <;> trivial
    · obtain ⟨_, -, hs⟩ := Option.map_eq_some_iff.mp hs
      cases hs
      cases s <;> trivial
  | status s todo st =>
    cases todo with
    | nil =>
      cases hs
      cases s <;> trivial
    | cons l todo =>
      cases hs
      trivial
  | push s data =>
    obtain ⟨_, -, hs⟩ := Option.map_eq_some_iff.mp hs
    cases hs
    trivial
  | finish id =>
    obtain ⟨_, -, hs⟩ := Option.map_eq_some_iff.mp hs
    cases hs
    trivial
  | start _ | limit _ | register _ | poll _ | count _ _ | done =>
    simp only [Thread.step] at hs
    repeat' split at hs
    all_goals first | (cases hs; trivial) | cases hs

/-! ### The run -/

/-- Whether the tick owes a frame. -/
def Event.settle (owed : Bool) : Event → Bool
  | .mixer e => e.settle owed
  | _ => owed

def owed (tr : List Event) : Bool := tr.foldl Event.settle false

/-- A tick does not begin while the last one owes a frame. -/
def Settled (pre : List Event) (e : Event) : Prop := e = .mixer .tick → owed pre = false

/-- Rings and pushes are whole frames, and ticks pay what they owe. -/
structure WholeRun (s : Server σ) (tr : List Event) : Prop where
  mixer : Mixer.Whole s.shared.mixer
  threads : ∀ c th, s.threads c = some th → th.Whole
  owes : owed tr = true → s.shared.mixer.pc.owes = true
  settled : Always Settled tr

variable {s s' : Server σ} {tr es : List Event}

/- Threads ask the mixer for whole frames, and never for a step of its own. -/
omit [PackArith σ] in
theorem Thread.Asks.whole {th : Thread σ} {j : Mixer.Input} (h : th.Asks u j) (hth : th.Whole) :
    j.Whole ∧ ∀ delay, j ≠ .mix delay := by
  cases th with
  | register cfg =>
    rw [show j = .register u.clientRingBytes from h]
    exact ⟨trivial, fun _ hj => by cases hj⟩
  | push s data =>
    rw [show j = .push s.id data from h]
    exact ⟨hth, fun _ hj => by cases hj⟩
  | finish id =>
    rw [show j = .finish id from h]
    exact ⟨trivial, fun _ hj => by cases hj⟩
  | apply s cmd =>
    change applyInput _ cmd = some j at h
    cases cmd with
    | flush =>
      obtain ⟨id, -, rfl⟩ := Option.map_eq_some_iff.mp h
      exact ⟨trivial, fun _ hj => by cases hj⟩
    | status => cases h
    | mute | unmute | volume _ =>
      cases h
      exact ⟨trivial, fun _ hj => by cases hj⟩
  | start _ | limit _ | poll _ | read _ _ _ | status _ _ _ | count _ _ | done => exact h.elim

/- Only the mixer's own steps show as its events. -/
theorem step_events_of_not_mix {i : Input} (hi : ∀ delay, i ≠ .mix delay)
    (hs : s.step δ u i = some (s', es)) : ∀ e ∈ es, ∀ m, e ≠ .mixer m := by
  cases i with
  | mix delay => exact absurd rfl (hi delay)
  | connect c =>
    simp only [Server.step] at hs
    split at hs <;> cases hs
    exact List.forall_mem_nil _
  | send c data =>
    obtain ⟨p, -, hs⟩ := Option.bind_eq_some_iff.mp hs
    split at hs <;> cases hs
    exact List.forall_mem_nil _
  | hangup c =>
    obtain ⟨p, -, hs⟩ := Option.map_eq_some_iff.mp hs
    cases hs
    exact List.forall_mem_nil _
  | loop a =>
    intro e he m hm
    have hloop := loopStep_ofLoop hs e he
    rw [hm] at hloop
    exact hloop
  | thread c a =>
    obtain ⟨p, th, g, q, th', fs, -, -, -, -, rfl⟩ := threadStep_cases hs
    intro e he m
    obtain ⟨f, -, rfl⟩ := List.mem_map.mp he
    exact fun h => by cases h
  | elapse ns | signal =>
    cases hs
    exact List.forall_mem_nil _

theorem owed_append (tr es : List Event) : owed (tr ++ es) = es.foldl Event.settle (owed tr) :=
  List.foldl_append ..

theorem foldl_settle_of_not_mixer {es : List Event} (h : ∀ e ∈ es, ∀ m, e ≠ .mixer m) (b : Bool) :
    es.foldl Event.settle b = b := by
  induction es generalizing b with
  | nil => rfl
  | cons e es ih =>
    have he : e.settle b = b := by
      cases e with
      | mixer m => exact absurd rfl (h _ List.mem_cons_self m)
      | _ => rfl
    rw [List.foldl_cons, he]
    exact ih (fun d hd => h d (List.mem_cons_of_mem _ hd)) b

theorem foldl_settle_mixer (es : List Mixer.Event) (b : Bool) :
    (es.map Event.mixer).foldl Event.settle b = es.foldl Mixer.Event.settle b := by
  rw [List.foldl_map]
  rfl

theorem WholeRun.step_other (h : WholeRun s tr) {i : Input} (hi : ∀ delay, i ≠ .mix delay)
    (hs : s.step δ u i = some (s', es)) :
    Mixer.Whole s'.shared.mixer ∧ s'.shared.mixer.pc = s.shared.mixer.pc := by
  rcases Server.step_mixer hs with hm | ⟨j, fs, hj, hm⟩
  · rw [hm]
    exact ⟨h.mixer, rfl⟩
  · have hwhole : j.Whole ∧ ∀ delay, j ≠ .mix delay := by
      cases i with
      | mix delay => exact absurd rfl (hi delay)
      | thread c a =>
        obtain ⟨th, hth, hasks⟩ := hj
        exact hasks.whole (h.threads c th hth)
      | elapse ns =>
        rw [show j = .elapse ns from hj]
        exact ⟨trivial, fun _ hd => by cases hd⟩
      | connect _ | send _ _ | hangup _ | loop _ | signal => exact hj.elim
    exact ⟨h.mixer.step hwhole.1 hm, (Mixer.step_pc hwhole.2 hm).1⟩

theorem step_threads_whole (h : ∀ c th, s.threads c = some th → th.Whole) {i : Input}
    (hs : s.step δ u i = some (s', es)) : ∀ c th, s'.threads c = some th → th.Whole := by
  cases i with
  | connect c =>
    simp only [Server.step] at hs
    split at hs <;> cases hs
    exact h
  | send c data =>
    obtain ⟨p, -, hs⟩ := Option.bind_eq_some_iff.mp hs
    split at hs <;> cases hs
    exact h
  | hangup c =>
    obtain ⟨p, -, hs⟩ := Option.map_eq_some_iff.mp hs
    cases hs
    exact h
  | loop a =>
    intro c th hth
    rcases (loopStep_starts hs).2 c th hth with hold | ⟨cfg, rfl⟩
    · exact h c th hold
    · trivial
  | thread c a =>
    obtain ⟨p, th, g, q, th', fs, -, -, hstep, rfl, -⟩ := threadStep_cases hs
    intro d x hx
    by_cases hd : d = c
    · subst hd
      have hnew : some th' = some x := (Function.update_self d _ s.threads).symm.trans hx
      rw [← Option.some.inj hnew]
      exact Thread.step_whole hstep
    · exact h d x ((Function.update_of_ne hd _ s.threads).symm.trans hx)
  | mix delay =>
    obtain ⟨rfl, -⟩ := Prod.mk.inj (Option.some.inj hs)
    exact h
  | elapse ns | signal =>
    cases hs
    exact h

theorem WholeRun.step (h : WholeRun s tr) {i : Input} (hs : s.step δ u i = some (s', es)) :
    WholeRun s' (tr ++ es) := by
  have hthreads := step_threads_whole h.threads hs
  by_cases hi : ∃ delay, i = .mix delay
  · obtain ⟨delay, rfl⟩ := hi
    obtain ⟨rfl, rfl⟩ := Prod.mk.inj (Option.some.inj hs)
    refine ⟨h.mixer.mix delay, hthreads, fun ho => ?_, ?_⟩
    · rw [owed_append, foldl_settle_mixer] at ho
      exact h.mixer.mix_owes delay h.owes ho
    · refine h.settled.append_le_one ?_ fun e he => ?_
      · rw [List.length_map]
        exact Mixer.mix_events_length _ _
      · obtain ⟨f, hf, rfl⟩ := List.mem_map.mp he
        intro htick
        obtain rfl : f = .tick := by
          cases htick
          rfl
        have htop := Mixer.mix_tick hf
        refine Bool.eq_false_iff.mpr fun ho => ?_
        have hpc := h.owes ho
        rw [htop] at hpc
        exact Bool.noConfusion hpc
  · have hi : ∀ delay, i ≠ .mix delay := fun delay hd => hi ⟨delay, hd⟩
    have hquiet := step_events_of_not_mix hi hs
    obtain ⟨hwhole, hpc⟩ := h.step_other hi hs
    refine ⟨hwhole, hthreads, fun ho => ?_, ?_⟩
    · rw [owed_append, foldl_settle_of_not_mixer hquiet] at ho
      rw [hpc]
      exact h.owes ho
    · refine h.settled.append_of_forall fun pre e post he => ?_
      have hmem : e ∈ es := by
        rw [he]
        simp
      exact fun htick => absurd htick (hquiet e hmem _)

omit [PackArith σ] in
theorem wholeRun_init (volume : F32) : WholeRun (Server.init volume : Server σ) [] where
  mixer := Mixer.whole_init volume
  threads := fun _ _ h => by cases h
  owes := fun h => by cases h
  settled := always_nil

theorem took_of_settled {es : List Event} (h : es.foldl Event.settle true = false) :
    ∃ id cells, .mixer (.took id cells) ∈ es ∧ 4 ≤ cells.length := by
  induction es with
  | nil => cases h
  | cons e es ih =>
    rw [List.foldl_cons] at h
    cases he : e.settle true with
    | true =>
      rw [he] at h
      obtain ⟨id, cells, hmem, hlen⟩ := ih h
      exact ⟨id, cells, List.mem_cons_of_mem _ hmem, hlen⟩
    | false =>
      cases e with
      | mixer m =>
        cases m with
        | took id cells =>
          refine ⟨id, cells, List.mem_cons_self, ?_⟩
          simpa [Event.settle, Mixer.Event.settle] using he
        | paced delay => simp [Event.settle, Mixer.Event.settle] at he
        | _ => cases he
      | _ => cases he

/-- In every run of the server the stream rings hold whole frames, and a tick that has
found data and may write takes a frame before the next begins. -/
theorem run_whole_frames (δ : Type*) [WideArith δ] [FloatCasts δ σ] (u : Setup) (volume : F32)
    (is : List Input) {t : Server σ} {tr : List Event}
    (hrun : (Server.machine δ u).run (Server.init volume) is = some (t, tr)) :
    (∀ id, 4 ∣ (t.shared.mixer.streams id).ring.filled) ∧
      ∀ pre mid post delay,
        tr = pre ++ .mixer (.paced delay) :: (mid ++ .mixer .tick :: post) →
          0 < writable delay → ∃ id cells, .mixer (.took id cells) ∈ mid ∧ 4 ≤ cells.length := by
  have hinv : WholeRun t tr :=
    (Server.machine δ u).run_inv (I := WholeRun) (fun _ _ _ _ _ h hs => h.step hs)
      (wholeRun_init volume) hrun
  refine ⟨hinv.mixer.rings, fun pre mid post delay htr hw => ?_⟩
  have hsettled := hinv.settled (pre ++ .mixer (.paced delay) :: mid) (.mixer .tick) post
    (by rw [htr, List.append_assoc]; rfl) rfl
  rw [owed_append, List.foldl_cons] at hsettled
  have howed : Event.settle (owed pre) (.mixer (.paced delay)) = true := by
    simp [Event.settle, Mixer.Event.settle, hw]
  rw [howed] at hsettled
  exact took_of_settled hsettled

/-- A client at the mixer's rate sends one frame, and the mixer goes once around. -/
def oneFrame : List Input :=
  [.connect 0, .send 0 (headerBytes 48000 2 2 ++ sendFrame [1, 0, 2, 0])] ++
    [.bytes 1, .bytes 1, .bytes 12].map .loop ++
    [.bytes 0, .bytes 0, .bytes 0, .bytes 0, .bytes 4, .bytes 4, .bytes 0].map (.thread 0) ++
    List.replicate 17 (.mix 4095)

def oneUser : Setup := ⟨none, 0, fun _ => some 0, 4, 65536, 48000, "sinc"⟩

theorem run_whole_frames_oneFrame : ∃ t tr,
    (Server.machine ℝ oneUser).run (Server.init (.fin 100) : Server ℝ) oneFrame = some (t, tr) ∧
      .mixer (.took 0 [⟨1, 0⟩, ⟨0, 0⟩, ⟨2, 0⟩, ⟨0, 0⟩]) ∈ tr ∧
      (∀ id, 4 ∣ (t.shared.mixer.streams id).ring.filled) ∧
      ∀ pre mid post delay,
        tr = pre ++ .mixer (.paced delay) :: (mid ++ .mixer .tick :: post) →
          0 < writable delay → ∃ id cells, .mixer (.took id cells) ∈ mid ∧ 4 ≤ cells.length :=
  ⟨_, _, rfl, List.mem_of_getElem? (i := 9) rfl, run_whole_frames ℝ oneUser (.fin 100) oneFrame rfl⟩

end

end Audiod.Daemon
