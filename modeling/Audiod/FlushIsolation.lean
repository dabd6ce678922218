import Audiod.MixerSlots
import Audiod.Occupancy

/-!
# What a FLUSH does to the other streams

A FLUSH clears the ring of its stream and, when every ring is empty then, stops the DMA
engine and zeroes the DMA ring. The audio of a stream is followed from its ring to the
position it is mixed at and on to the fetch.
-/

namespace Audiod.Paced

open Mixer (Cell)

/-- How a cell has left the DMA ring: the engine has fetched it, or the idle watchdog
has stopped the engine first. -/
inductive Fate
  | fetched
  | idled
  deriving DecidableEq

/-- One stream behind its ring: the cells that have left the DMA ring, those in it with
their positions among the bytes pushed since the last restart, the bytes fetched since
then, and the streams whose FLUSH the running tick has handled. -/
structure Voice where
  left : List (Fate × Cell)
  mixed : List (ℕ × Cell)
  clock : ℕ
  handled : List ℕ

namespace Voice

def silent : Voice := ⟨[], [], 0, []⟩

/-- The cells a tick has popped, in the write it makes at `pos`. -/
def placed (pos : ℕ) (cells : List Cell) : List (ℕ × Cell) :=
  (List.range' pos cells.length).zip cells

/-- The engine fetches `k` bytes. -/
def fetch (v : Voice) (k : ℕ) : Voice :=
  { v with
    left := v.left ++ (v.mixed.filter (·.1 < v.clock + k)).map (.fetched, ·.2)
    mixed := v.mixed.filter (v.clock + k ≤ ·.1)
    clock := v.clock + k }

/-- The engine is stopped and the ring zeroed, in a tick that has handled a FLUSH or by
the idle watchdog. -/
def stop (v : Voice) : Voice :=
  { v with
    left := if v.handled = [] then v.left ++ v.mixed.map (.idled, ·.2) else v.left
    mixed := []
    clock := 0 }

/-- What an event does to stream `id`. -/
def after (id : ℕ) (v : Voice) : Event → Voice
  | .mixer .tick _ _ => { v with handled := [] }
  | .mixer (.consumed i _) _ _ => { v with handled := i :: v.handled }
  | .mixer (.took i cells) pos _ =>
    if i = id then { v with mixed := v.mixed ++ placed pos cells } else v
  | .mixer .stopped _ _ => v.stop
  | .fetched k => v.fetch k
  | _ => v

/-- Everything the stream has left behind in its ring, oldest first. -/
def cells (v : Voice) : List Cell := v.left.map (·.2) ++ v.mixed.map (·.2)

/-- What has been heard of it. -/
def heard (v : Voice) : List Cell := (v.left.filter (·.1 = .fetched)).map (·.2)

def idled (v : Voice) : List Cell := (v.left.filter (·.1 = .idled)).map (·.2)

/-- What is mixed lies between the bytes fetched and the end of the writes, in order. -/
structure Sound (v : Voice) (fetched reach : ℕ) : Prop where
  clock : v.clock = fetched
  ahead : ∀ x ∈ v.mixed, fetched ≤ x.1
  behind : ∀ x ∈ v.mixed, x.1 < reach
  sorted : v.mixed.Pairwise (·.1 < ·.1)

variable {v : Voice} {fetched reach : ℕ}

theorem placed_map_snd (pos : ℕ) (cells : List Cell) : (placed pos cells).map (·.2) = cells :=
  List.map_snd_zip (by rw [List.length_range'])

theorem mem_placed {pos : ℕ} {cells : List Cell} {x : ℕ × Cell} (h : x ∈ placed pos cells) :
    pos ≤ x.1 ∧ x.1 < pos + cells.length :=
  List.mem_range'_1.mp (List.of_mem_zip h).1

theorem placed_sorted (pos : ℕ) (cells : List Cell) :
    (placed pos cells).Pairwise (·.1 < ·.1) := by
  have hfst : ((placed pos cells).map Prod.fst).Pairwise (· < ·) := by
    rw [placed, List.map_fst_zip (by rw [List.length_range'])]
    exact List.pairwise_lt_range'
  exact List.pairwise_map.mp hfst

theorem Sound.mono {reach' : ℕ} (h : v.Sound fetched reach) (hle : reach ≤ reach') :
    v.Sound fetched reach' :=
  ⟨h.clock, h.ahead, fun x hx => (h.behind x hx).trans_le hle, h.sorted⟩

theorem Sound.took {pos : ℕ} {cells : List Cell} (h : v.Sound fetched pos) (hpos : fetched ≤ pos)
    (hreach : pos + cells.length ≤ reach) :
    Sound { v with mixed := v.mixed ++ placed pos cells } fetched reach := by
  refine ⟨h.clock, fun x hx => ?_, fun x hx => ?_, ?_⟩
  · rcases List.mem_append.mp hx with hold | hnew
    · exact h.ahead x hold
    · exact hpos.trans (mem_placed hnew).1
  · rcases List.mem_append.mp hx with hold | hnew
    · exact (h.behind x hold).trans_le (by omega)
    · exact (mem_placed hnew).2.trans_le hreach
  · refine List.pairwise_append.mpr ⟨h.sorted, placed_sorted pos cells, fun x hx y hy => ?_⟩
    exact (h.behind x hx).trans_le (mem_placed hy).1

theorem Sound.fetch (h : v.Sound fetched reach) (k : ℕ) :
    (v.fetch k).Sound (fetched + k) reach := by
  refine ⟨congrArg (· + k) h.clock, fun x hx => ?_, fun x hx => ?_, h.sorted.filter _⟩
  · have hle := (List.mem_filter.mp hx).2
    rw [h.clock] at hle
    simpa using hle
  · exact h.behind x (List.mem_filter.mp hx).1

theorem sound_stop (v : Voice) (reach : ℕ) : v.stop.Sound 0 reach :=
  ⟨rfl, nofun, nofun, List.Pairwise.nil⟩

theorem filter_append_filter {l : List (ℕ × Cell)} (h : l.Pairwise (·.1 < ·.1)) (n : ℕ) :
    l.filter (·.1 < n) ++ l.filter (n ≤ ·.1) = l := by
  induction l with
  | nil => rfl
  | cons x l ih =>
    obtain ⟨hx, hl⟩ := List.pairwise_cons.mp h
    by_cases hlt : x.1 < n
    · rw [List.filter_cons_of_pos (by simpa using hlt),
        List.filter_cons_of_neg (by simpa using hlt), List.cons_append, ih hl]
    · -- nothing behind `x` has been fetched either
      have hnone : l.filter (·.1 < n) = [] := by
        refine List.filter_eq_nil_iff.mpr fun y hy => ?_
        have hxy := hx y hy
        simp only [decide_eq_true_eq]
        omega
      have hall : l.filter (n ≤ ·.1) = l := by
        refine List.filter_eq_self.mpr fun y hy => ?_
        have hxy := hx y hy
        simp only [decide_eq_true_eq]
        omega
      rw [List.filter_cons_of_neg (by simpa using hlt),
        List.filter_cons_of_pos (by simpa using hlt), hnone, hall, List.nil_append]

theorem cells_took (v : Voice) (pos : ℕ) (cells : List Cell) :
    Voice.cells { v with mixed := v.mixed ++ placed pos cells } = v.cells ++ cells := by
  simp only [Voice.cells, List.map_append, placed_map_snd, List.append_assoc]

theorem cells_fetch (h : v.Sound fetched reach) (k : ℕ) : (v.fetch k).cells = v.cells := by
  have hsplit := congrArg (List.map (·.2)) (filter_append_filter h.sorted (v.clock + k))
  rw [List.map_append] at hsplit
  simp only [Voice.cells, Voice.fetch, List.map_append, List.map_map, Function.comp_def,
    List.append_assoc, hsplit]

/- A stop takes audio away only if it finds some, and only after a FLUSH. -/
theorem cells_stop (h : v.handled = [] ∨ v.mixed = []) : v.stop.cells = v.cells := by
  by_cases hidle : v.handled = []
  · simp [Voice.cells, Voice.stop, hidle]
  · have hnil := h.resolve_left hidle
    simp [Voice.cells, Voice.stop, hnil]

theorem cells_stop_prefix (v : Voice) : v.stop.cells <+: v.cells := by
  by_cases hidle : v.handled = []
  · rw [cells_stop (.inl hidle)]
  · simp [Voice.cells, Voice.stop, hidle]

end Voice

/-! ### Following a stream through a run -/

def voice (id : ℕ) (tr : List Event) : Voice := tr.foldl (Voice.after id) Voice.silent

theorem voice_append (id : ℕ) (tr es : List Event) :
    voice id (tr ++ es) = es.foldl (Voice.after id) (voice id tr) := List.foldl_append

/-- What the reader of a stream has put into its ring. -/
def offered (id : ℕ) (tr : List Event) : List Cell :=
  tr.flatMap fun | .mixer e _ _ => e.cellsIn id | _ => []

theorem offered_append (id : ℕ) (a b : List Event) :
    offered id (a ++ b) = offered id a ++ offered id b := List.flatMap_append

theorem offered_stamp (id : ℕ) (s : State) (es : List Mixer.Event) :
    offered id (stamp s es) = Mixer.cellsIn id es := by
  simp only [offered, stamp, List.flatMap_map, Mixer.cellsIn]

/-- What of a stream is in its ring, or mixed and still in the DMA ring. -/
def outstanding (id : ℕ) (s : State) (tr : List Event) : List Cell :=
  (voice id tr).mixed.map (·.2) ++ (s.mix.streams id).ring.contents

/-- All of a stream that has not been discarded. -/
def account (id : ℕ) (s : State) (tr : List Event) : List Cell :=
  (voice id tr).cells ++ (s.mix.streams id).ring.contents

theorem account_eq (id : ℕ) (s : State) (tr : List Event) :
    account id s tr = (voice id tr).left.map (·.2) ++ outstanding id s tr :=
  List.append_assoc _ _ _

/-- The next step of the mixer stops the engine, after a FLUSH or when idle. -/
def Stops (m : Mixer.Mix) : Prop :=
  match m.pc with
  | .haltScan [] => m.stopped = false
  | .idleCheck => Mixer.idleNs ≤ m.now - m.drySince.getD m.now
  | _ => False

instance (m : Mixer.Mix) : Decidable (Stops m) := by
  unfold Stops
  split <;> infer_instance

/-- The DMA engine stays behind the writes, and where the mixer stops it in a tick that
has handled a FLUSH, what is mixed of every stream without a FLUSH of its own in that
tick has been fetched. -/
def Spares (s : State) (tr : List Event) : Input → Prop
  | .mixer => s.push = none → Stops s.mix → ∀ id < s.mix.registered,
      (voice id tr).handled = [] ∨ id ∈ (voice id tr).handled ∨ (voice id tr).mixed = []
  | .dma k => k ≤ s.hda.pushed.length - s.hda.fetched.length
  | .other _ => True

instance (s : State) (tr : List Event) (i : Input) : Decidable (Spares s tr i) :=
  match i with
  | .mixer => inferInstanceAs (Decidable (_ → _ → ∀ id < _, _))
  | .dma _ => inferInstanceAs (Decidable (_ ≤ _))
  | .other _ => isTrue trivial

theorem Spares.dmaLimited {s : State} {tr : List Event} {i : Input} (h : Spares s tr i) :
    DmaLimited s i := by
  cases i with
  | dma k => exact h
  | mixer | other i => trivial

theorem stops_of_stopped {m : Mixer.Mix} {delay : ℤ} (h : .stopped ∈ (m.mix delay).2) :
    Stops m := by
  revert h
  cases hpc : m.pc with
  | haltScan todo =>
    cases todo with
    | nil =>
      simp only [Mixer.Mix.mix, hpc, Stops]
      split
      · exact (absurd · List.not_mem_nil)
      · intro _
        simpa using ‹¬m.stopped = true›
    | cons s todo =>
      simp only [Mixer.Mix.mix, hpc]
      split <;> exact (absurd · List.not_mem_nil)
  | idleCheck =>
    simp only [Mixer.Mix.mix, hpc, Stops]
    split
    · exact (absurd · List.not_mem_nil)
    · intro _
      omega
  | _ =>
    simp only [Mixer.Mix.mix, hpc]
    repeat' split
    all_goals simp

/- A step of the mixer is about one stream, or it leaves the streams alone. -/
theorem mixer_cases (m : Mixer.Mix) (delay : ℤ) :
    (m.mix delay).1.registered = m.registered ∧
    (((m.mix delay).1.streams = m.streams ∧
        (∀ s todo, (m.mix delay).1.pc ≠ .flushClear s todo) ∧
        ((m.mix delay).2 = [.stopped] ∧ Stops m ∨
          .stopped ∉ (m.mix delay).2 ∧ ∀ e ∈ (m.mix delay).2, e.isLocal)) ∨
      (∃ s todo, (m.mix delay).1 = { m.setStream s { m.streams s with flush := false } with
        pc := .flushClear s todo } ∧ (m.mix delay).2 = [.consumed s (m.streams s).flushesRead]) ∨
      (∃ s todo, m.pc = .flushClear s todo ∧
        (m.mix delay).1 = { m.setStream s { m.streams s with ring := (m.streams s).ring.clear }
          with pc := .flushScan todo true } ∧
        (m.mix delay).2 = [.dropped s (m.streams s).ring.contents]) ∨
      ∃ s want todo w acc, m.pc = .mixPop s want todo w acc ∧
        (m.mix delay).1.streams = Function.update m.streams s
          { m.streams s with ring := ((m.streams s).ring.tryPop want).2 } ∧
        (∀ s todo, (m.mix delay).1.pc ≠ .flushClear s todo) ∧
        (m.mix delay).2 = [.took s ((m.streams s).ring.tryPop want).1]) := by
  rcases Mixer.mix_cases m delay with ⟨hs, hr, he, hclear⟩ | ⟨s, todo, flushed, -, -, heq⟩ |
    ⟨s, todo, hpc, heq⟩ | ⟨s, want, todo, w, acc, hpc, heq⟩
  · refine ⟨hr, .inl ⟨hs, fun s todo => (hclear s todo).2, ?_⟩⟩
    by_cases hstop : .stopped ∈ (m.mix delay).2
    · have hlen := Mixer.mix_events_length m delay
      refine .inl ⟨?_, stops_of_stopped hstop⟩
      match hes : (m.mix delay).2, hlen with
      | [], _ => rw [hes] at hstop; cases hstop
      | [e], _ => rw [hes] at hstop; rw [List.mem_singleton.mp hstop]
    · exact .inr ⟨hstop, he⟩
  · rw [heq]
    exact ⟨rfl, .inr (.inl ⟨s, todo, rfl, rfl⟩)⟩
  · rw [heq]
    exact ⟨rfl, .inr (.inr (.inl ⟨s, todo, hpc, rfl, rfl⟩))⟩
  · rw [heq]
    exact ⟨rfl, .inr (.inr (.inr ⟨s, want, todo, w, acc, hpc, rfl, nofun, rfl⟩))⟩

/-! ### The invariant -/

def PushPc.rest : PushPc → Bytes
  | .play rest | .write rest | .copy rest _ => rest

/-- The end of what is written and of what the running tick has taken from stream `id`
to be written. -/
def reach (id : ℕ) (s : State) : ℕ :=
  s.hda.pushed.length + s.mix.pc.reach id + s.push.elim 0 (·.rest.length)

theorem pushing_rest (rest : Bytes) : (pushing rest).elim 0 (·.rest.length) = rest.length := by
  unfold pushing
  split
  · rename_i hnil
    rw [List.isEmpty_iff.mp hnil]
    rfl
  · rfl

structure Isolated (s : State) (tr : List Event) : Prop where
  base : Base s
  occupancy : OccupancyInv s tr
  slots : Mixer.SlotsInv s.mix
  clearing : ∀ id todo, s.mix.pc = .flushClear id todo → id ∈ (voice id tr).handled
  sound : ∀ id, (voice id tr).Sound s.hda.fetched.length (reach id s)
  registered : ∀ id, (voice id tr).mixed ≠ [] → id < s.mix.registered

theorem isolated_init (volume : F32) : Isolated (init volume) [] :=
  ⟨base_init volume, ⟨Hda.faithful_of_reset Hda.positions_init rfl rfl, Nat.zero_le _, nofun⟩,
    Mixer.slotsInv_init volume, nofun, fun _ => ⟨rfl, nofun, nofun, List.Pairwise.nil⟩,
    fun _ h => absurd rfl h⟩

/- Of the mixer's events only four matter to a stream behind its ring. -/
theorem voice_local (id : ℕ) (s : State) (tr : List Event) {es : List Mixer.Event}
    (hlen : es.length ≤ 1) (hstop : .stopped ∉ es) (hlocal : ∀ e ∈ es, e.isLocal) :
    ∃ handled, voice id (tr ++ stamp s es) = { voice id tr with handled := handled } := by
  match es, hlen with
  | [], _ => exact ⟨_, by rw [stamp, List.map_nil, List.append_nil]⟩
  | [e], _ =>
    rw [voice_append]
    have hloc := hlocal e (List.mem_singleton_self e)
    cases e with
    | stopped => exact absurd (List.mem_singleton_self _) hstop
    | tick => exact ⟨[], rfl⟩
    | removed i | paced delay | wrote gain muted out => exact ⟨_, rfl⟩
    | pushed i cells | flushRead i | finished i | consumed i n | dropped i cells | took i cells =>
      exact hloc.elim

/- As long as the engine is not stopped, the end of the writes only moves on. -/
theorem reach_mixer {s : State} {m : Mixer.Mix} {es : List Mixer.Event} {id : ℕ}
    (hpush : s.push = none) (hstop : .stopped ∉ es) (hm : s.mix.pc.reach id ≤ m.pc.reach id ∨
      ∃ gain muted out, es = [.wrote gain muted out] ∧ s.mix.pc.reach id = out.length) :
    (backend s m es).hda = s.hda ∧ (backend s m es).mix = m ∧
      reach id s ≤ reach id (backend s m es) := by
  have hnone : s.push.elim 0 (·.rest.length) = 0 := by rw [hpush]; rfl
  rcases hm with hle | ⟨gain, muted, out, rfl, hlen⟩
  · rcases backend_cases s m es with ⟨rfl, -⟩ | ⟨gain, muted, out, -, heq⟩ | heq
    · exact absurd (List.mem_singleton_self _) hstop
    · rw [heq]
      refine ⟨rfl, rfl, ?_⟩
      simp only [reach, hnone]
      omega
    · rw [heq]
      refine ⟨rfl, rfl, ?_⟩
      simp only [reach, hnone]
      omega
  · -- the write is as long as what was mixed for it
    refine ⟨rfl, rfl, ?_⟩
    simp only [reach, hnone, backend, pushing_rest]
    omega

theorem Voice.Sound.handle {v : Voice} {fetched reach : ℕ} (h : v.Sound fetched reach)
    (handled : List ℕ) : Voice.Sound { v with handled := handled } fetched reach :=
  ⟨h.clock, h.ahead, h.behind, h.sorted⟩

theorem sound_mixer {s : State} {tr : List Event} (h : Isolated s tr) (hpush : s.push = none)
    (id : ℕ) : (voice id (tr ++ stamp s (s.mix.mix s.hda.delayFrames).2)).Sound
      (backend s (s.mix.mix s.hda.delayFrames).1 (s.mix.mix s.hda.delayFrames).2).hda.fetched.length
      (reach id
        (backend s (s.mix.mix s.hda.delayFrames).1 (s.mix.mix s.hda.delayFrames).2)) := by
  have hsound := h.sound id
  obtain ⟨hreach, htook⟩ := Mixer.mix_reach h.slots id s.hda.delayFrames
  have hlen := Mixer.mix_events_length s.mix s.hda.delayFrames
  obtain ⟨-, hcases⟩ := mixer_cases s.mix s.hda.delayFrames
  generalize (s.mix.mix s.hda.delayFrames).1 = m, (s.mix.mix s.hda.delayFrames).2 = es at *
  rcases hcases with ⟨-, -, ⟨rfl, -⟩ | ⟨hstop, hlocal⟩⟩ | ⟨i, todo, -, rfl⟩ |
    ⟨i, todo, -, -, rfl⟩ | ⟨i, want, todo, w, acc, -, -, -, rfl⟩
  · rw [voice_append]
    exact Voice.sound_stop _ _
  · obtain ⟨hhda, -, hle⟩ := reach_mixer hpush hstop hreach
    obtain ⟨handled, hv⟩ := voice_local id s tr hlen hstop hlocal
    rw [hv, hhda]
    exact (hsound.mono hle).handle handled
  · obtain ⟨hhda, -, hle⟩ := reach_mixer hpush (by simp) hreach
    rw [voice_append, hhda]
    exact (hsound.mono hle).handle _
  · obtain ⟨hhda, -, hle⟩ := reach_mixer hpush (by simp) hreach
    rw [voice_append, hhda]
    exact hsound.mono hle
  · obtain ⟨hhda, hmix, hle⟩ := reach_mixer hpush (by simp) hreach
    rw [voice_append, hhda]
    simp only [stamp, List.map_cons, List.map_nil, List.foldl_cons, List.foldl_nil, Voice.after]
    by_cases hid : i = id
    · subst hid
      obtain ⟨hzero, hfit⟩ := htook _ rfl
      have hend : reach i s = s.hda.pushed.length := by
        simp only [reach, hzero, hpush, Option.elim]
        omega
      rw [if_pos rfl]
      apply Voice.Sound.took (hend ▸ hsound) h.occupancy.faithful.behind
      simp only [reach, hhda, hmix]
      omega
    · rw [if_neg hid]
      exact hsound.mono hle

theorem Isolated.mixer {s : State} {tr : List Event} (h : Isolated s tr) :
    (∀ id todo, (s.mix.mix s.hda.delayFrames).1.pc = .flushClear id todo →
      id ∈ (voice id (tr ++ stamp s (s.mix.mix s.hda.delayFrames).2)).handled) ∧
    ∀ id, (voice id (tr ++ stamp s (s.mix.mix s.hda.delayFrames).2)).mixed ≠ [] →
      id < (s.mix.mix s.hda.delayFrames).1.registered := by
  have hslots := h.slots
  have hregistered := h.registered
  have hlen := Mixer.mix_events_length s.mix s.hda.delayFrames
  obtain ⟨hreg, hcases⟩ := mixer_cases s.mix s.hda.delayFrames
  generalize (s.mix.mix s.hda.delayFrames).1 = m, (s.mix.mix s.hda.delayFrames).2 = es at *
  rw [hreg]
  rcases hcases with ⟨-, hclear, ⟨rfl, -⟩ | ⟨hstop, hlocal⟩⟩ | ⟨i, todo, rfl, rfl⟩ |
    ⟨i, todo, -, rfl, rfl⟩ | ⟨i, want, todo, w, acc, hpc, -, hclear, rfl⟩
  · refine ⟨fun id todo hpc => absurd hpc (hclear id todo), fun id hne => ?_⟩
    rw [voice_append] at hne
    exact absurd rfl hne
  · refine ⟨fun id todo hpc => absurd hpc (hclear id todo), fun id hne => ?_⟩
    obtain ⟨handled, hv⟩ := voice_local id s tr hlen hstop hlocal
    rw [hv] at hne
    exact hregistered id hne
  · refine ⟨fun id todo' hpc => ?_, fun id hne => ?_⟩
    · cases hpc
      rw [voice_append]
      exact List.mem_cons_self ..
    · rw [voice_append] at hne
      exact hregistered id hne
  · refine ⟨nofun, fun id hne => ?_⟩
    rw [voice_append] at hne
    exact hregistered id hne
  · refine ⟨fun id todo hpc => absurd hpc (hclear id todo), fun id hne => ?_⟩
    rw [voice_append] at hne
    by_cases hid : i = id
    · subst hid
      -- only a stream with a slot is popped
      have hloop := hslots.loop
      rw [hpc] at hloop
      exact hslots.registered i
        (List.mem_append_left _ (hloop.1.subset (List.mem_cons_self ..)))
    · simp only [stamp, List.map_cons, List.map_nil, List.foldl_cons, List.foldl_nil,
        Voice.after, if_neg hid] at hne
      exact hregistered id hne

theorem voice_env {s s' : State} {tr es : List Event} {i : Mixer.Input}
    (hs : step s (.other i) = some (s', es)) (id : ℕ) : voice id (tr ++ es) = voice id tr := by
  obtain ⟨hi, m, es', hm, -, rfl⟩ := step_other hs
  rw [voice_append]
  rcases Mixer.step_events hi hm with rfl | ⟨id', cells, rfl⟩ | ⟨id', rfl⟩ | ⟨id', rfl⟩ <;> rfl

theorem step_pushing {s s' : State} {tr es : List Event} (h : Isolated s tr) {pc : PushPc}
    (hpush : s.push = some pc) (hs : step s .mixer = some (s', es)) :
    s'.mix = s.mix ∧ s'.hda.fetched = s.hda.fetched ∧ (∀ id, reach id s' = reach id s) ∧
      ∀ id, voice id (tr ++ es) = voice id tr := by
  cases pc with
  | play rest =>
    simp only [step, hpush, Option.some.injEq, Prod.mk.injEq] at hs
    obtain ⟨rfl, rfl⟩ := hs
    refine ⟨rfl, Hda.start_fetched h.base.positions, fun id => ?_, fun id => by simp⟩
    simp only [reach, hpush, Hda.start_pushed h.base.positions]
    rfl
  | write rest =>
    simp only [step, hpush, Option.some.injEq, Prod.mk.injEq] at hs
    obtain ⟨rfl, rfl⟩ := hs
    refine ⟨rfl, rfl, fun id => ?_, fun id => by simp⟩
    simp only [reach, hpush]
    rfl
  | copy rest rd =>
    simp only [step, hpush, Option.some.injEq, Prod.mk.injEq] at hs
    obtain ⟨rfl, rfl⟩ := hs
    obtain ⟨-, hn, hpu, hfe⟩ := h.occupancy.budget.copy h.occupancy.faithful hpush
    refine ⟨rfl, hfe, fun id => ?_, fun id => by rw [voice_append]; rfl⟩
    have hrest : (some (PushPc.copy rest rd)).elim 0 (·.rest.length) = rest.length := rfl
    simp only [reach, hpush, hn, hpu, hrest, pushing_rest, List.drop_length, List.length_append,
      List.length_nil]
    omega

theorem Isolated.step {s s' : State} {tr es : List Event} {i : Input} (h : Isolated s tr)
    (hok : Spares s tr i) (hs : step s i = some (s', es)) : Isolated s' (tr ++ es) := by
  have hbase := h.base.step hs
  have hocc := h.occupancy.step hok.dmaLimited hs
  cases i with
  | mixer =>
    cases hpush : s.push with
    | none =>
      simp only [Paced.step, hpush, Option.some.injEq, Prod.mk.injEq] at hs
      obtain ⟨rfl, rfl⟩ := hs
      have hmix := backend_mix s (s.mix.mix s.hda.delayFrames).1 (s.mix.mix s.hda.delayFrames).2
      obtain ⟨hclear, hreg⟩ := h.mixer
      refine ⟨hbase, hocc, ?_, ?_, fun id => sound_mixer h hpush id, ?_⟩ <;> rw [hmix]
      · exact h.slots.mix _
      · exact hclear
      · exact hreg
    | some pc =>
      obtain ⟨hmix, hfe, hreach, hv⟩ := step_pushing h hpush hs
      refine ⟨hbase, hocc, by rw [hmix]; exact h.slots, fun id todo hpc => ?_, fun id => ?_,
        fun id hne => ?_⟩
      · rw [hmix] at hpc
        rw [hv id]
        exact h.clearing id todo hpc
      · rw [hv id, hfe, hreach id]
        exact h.sound id
      · rw [hv id] at hne
        rw [hmix]
        exact h.registered id hne
  | other i =>
    have hv (id : ℕ) : voice id (tr ++ es) = voice id tr := voice_env hs id
    obtain ⟨hi, m, es', hm, rfl, -⟩ := step_other hs
    have hpc := (Mixer.step_pc hi hm).1
    refine ⟨hbase, hocc, h.slots.step hm, fun id todo hclear => ?_, fun id => ?_, fun id hne => ?_⟩
    · rw [hv id]
      exact h.clearing id todo (hpc ▸ hclear)
    · rw [hv id, reach, hpc]
      exact h.sound id
    · rw [hv id] at hne
      exact (h.registered id hne).trans_le (Mixer.step_pc hi hm).2.2.2
  | dma k =>
    obtain ⟨hrun, rfl, rfl⟩ := step_dma hs
    have hlen : (s.hda.dma k).fetched.length = s.hda.fetched.length + k := by
      simp [Hda.dma, ringLoad_length]
    refine ⟨hbase, hocc, h.slots, fun id todo hpc => ?_, fun id => ?_, fun id hne => ?_⟩
    · rw [voice_append]
      exact h.clearing id todo hpc
    · rw [voice_append]
      change (Voice.fetch _ k).Sound (s.hda.dma k).fetched.length _
      rw [hlen]
      exact (h.sound id).fetch k
    · rw [voice_append] at hne
      refine h.registered id fun hnil => hne ?_
      change (voice id tr).mixed.filter _ = []
      rw [hnil, List.filter_nil]

/-! ### Nothing is discarded on behalf of another stream -/

theorem account_mixer {s : State} {tr : List Event} (h : Isolated s tr) (hpush : s.push = none)
    (hok : Spares s tr .mixer) (id : ℕ) {s' : State}
    (hmix : s'.mix = (s.mix.mix s.hda.delayFrames).1) :
    account id s' (tr ++ stamp s (s.mix.mix s.hda.delayFrames).2) = account id s tr ∨
      id ∈ (voice id (tr ++ stamp s (s.mix.mix s.hda.delayFrames).2)).handled ∧
        (account id s' (tr ++ stamp s (s.mix.mix s.hda.delayFrames).2)).Sublist
          (account id s tr) := by
  have hlen := Mixer.mix_events_length s.mix s.hda.delayFrames
  obtain ⟨-, hcases⟩ := mixer_cases s.mix s.hda.delayFrames
  obtain ⟨⟨trm, hledger⟩, -, -⟩ := h.base
  simp only [account, hmix]
  generalize (s.mix.mix s.hda.delayFrames).1 = m, (s.mix.mix s.hda.delayFrames).2 = es at *
  rcases hcases with ⟨hstreams, -, ⟨rfl, hstops⟩ | ⟨hstop, hlocal⟩⟩ | ⟨i, todo, rfl, rfl⟩ |
    ⟨i, todo, hpc, rfl, rfl⟩ | ⟨i, want, todo, w, acc, -, hstreams, -, rfl⟩
  · have hstop : voice id (tr ++ stamp s [.stopped]) = (voice id tr).stop := by
      rw [voice_append]
      rfl
    have hfetched : (voice id tr).handled = [] ∨ id ∈ (voice id tr).handled ∨
        (voice id tr).mixed = [] := by
      by_cases hne : (voice id tr).mixed = []
      · exact .inr (.inr hne)
      · exact hok hpush hstops id (h.registered id hne)
    rw [hstop, hstreams]
    rcases hfetched with hidle | hown | hnil
    · exact .inl (by rw [Voice.cells_stop (.inl hidle)])
    · exact .inr ⟨hown, (Voice.cells_stop_prefix _).sublist.append_right _⟩
    · exact .inl (by rw [Voice.cells_stop (.inr hnil)])
  · obtain ⟨handled, hv⟩ := voice_local id s tr hlen hstop hlocal
    rw [hv, hstreams]
    exact .inl rfl
  · rw [voice_append]
    left
    by_cases hid : id = i
    · subst hid
      simp only [Mixer.Mix.setStream, Function.update_self]
      rfl
    · simp only [Mixer.Mix.setStream, Function.update_of_ne hid]
      rfl
  · rw [voice_append]
    by_cases hid : id = i
    · subst hid
      refine .inr ⟨h.clearing id todo hpc, ?_⟩
      simp only [Mixer.Mix.setStream, Function.update_self, Ring.contents_clear, List.append_nil]
      exact List.sublist_append_left _ _
    · simp only [Mixer.Mix.setStream, Function.update_of_ne hid]
      exact .inl rfl
  · rw [voice_append, hstreams]
    simp only [stamp, List.map_cons, List.map_nil, List.foldl_cons, List.foldl_nil, Voice.after]
    left
    by_cases hid : i = id
    · subst hid
      obtain ⟨htaken, hrest, -, -⟩ := Ring.tryPop_spec want (hledger.live i)
      rw [if_pos rfl, Voice.cells_took, Function.update_self, List.append_assoc, hrest, htaken,
        List.take_append_drop]
    · rw [if_neg hid, Function.update_of_ne (Ne.symm hid)]

theorem cellsIn_mix (m : Mixer.Mix) (id : ℕ) (delay : ℤ) :
    Mixer.cellsIn id (m.mix delay).2 = [] := by
  rcases Mixer.mix_cases m delay with ⟨-, -, hlocal, -⟩ | ⟨s, todo, flushed, -, -, heq⟩ |
    ⟨s, todo, -, heq⟩ | ⟨s, want, todo, w, acc, -, heq⟩
  · exact Mixer.cellsIn_of_isLocal id hlocal
  · rw [heq]
    rfl
  · rw [heq]
    rfl
  · rw [heq]
    rfl

theorem contents_env {m m' : Mixer.Mix} {tr es : List Mixer.Event} {i : Mixer.Input}
    (hl : Mixer.Ledger m tr) (hi : ∀ delay, i ≠ .mix delay)
    (hs : Mixer.step m i = some (m', es)) (id : ℕ) :
    (m'.streams id).ring.contents = (m.streams id).ring.contents ++ Mixer.cellsIn id es := by
  have hout : Mixer.cellsOut id es = [] := by
    rcases Mixer.step_events hi hs with rfl | ⟨id', cells, rfl⟩ | ⟨id', rfl⟩ | ⟨id', rfl⟩ <;> rfl
  have hbalance := (hl.step hs).balance id
  rw [Mixer.cellsIn_append, Mixer.cellsOut_append, hl.balance id, hout, List.append_nil,
    List.append_assoc] at hbalance
  exact (List.append_cancel_left hbalance).symm

/- One step adds what the reader has pushed; it takes something away only in a tick
that has handled a FLUSH of the stream itself. -/
theorem account_step {s s' : State} {tr es : List Event} {i : Input} (h : Isolated s tr)
    (hok : Spares s tr i) (hs : step s i = some (s', es)) (id : ℕ) :
    account id s' (tr ++ es) = account id s tr ++ offered id es ∨
      id ∈ (voice id (tr ++ es)).handled ∧
        (account id s' (tr ++ es)).Sublist (account id s tr ++ offered id es) := by
  obtain ⟨⟨trm, hledger⟩, -, -⟩ := h.base
  cases i with
  | mixer =>
    cases hpush : s.push with
    | none =>
      simp only [step, hpush, Option.some.injEq, Prod.mk.injEq] at hs
      obtain ⟨rfl, rfl⟩ := hs
      have hnone : offered id (stamp s (s.mix.mix s.hda.delayFrames).2) = [] := by
        rw [offered_stamp]
        exact cellsIn_mix s.mix id s.hda.delayFrames
      rw [hnone, List.append_nil]
      exact account_mixer h hpush hok id (backend_mix s _ _)
    | some pc =>
      obtain ⟨hmix, -, -, hv⟩ := step_pushing h hpush hs
      have hnone : offered id es = [] := by
        cases pc <;> simp only [step, hpush, Option.some.injEq, Prod.mk.injEq] at hs <;>
          obtain ⟨-, rfl⟩ := hs <;> rfl
      rw [account, hv id, hmix, hnone, List.append_nil]
      exact .inl rfl
  | other i =>
    have hv : voice id (tr ++ es) = voice id tr := voice_env hs id
    obtain ⟨hi, m, es', hm, rfl, rfl⟩ := step_other hs
    rw [account, hv, contents_env hledger hi hm id, offered_stamp, ← List.append_assoc]
    exact .inl rfl
  | dma k =>
    obtain ⟨-, rfl, rfl⟩ := step_dma hs
    have hfetch : voice id (tr ++ [.fetched k]) = (voice id tr).fetch k := by
      rw [voice_append]
      rfl
    rw [account, hfetch, Voice.cells_fetch (h.sound id)]
    exact .inl (List.append_nil _).symm

/-- The mixer finds the flush flag of the stream set. -/
def Event.handles (id : ℕ) : Event → Prop
  | .mixer (.consumed i _) _ _ => i = id
  | _ => False

instance (id : ℕ) (e : Event) : Decidable (e.handles id) := by
  unfold Event.handles
  split <;> infer_instance

/-- No FLUSH of the stream is handled. -/
def Unflushed (id : ℕ) (es : List Event) : Prop := ∀ e ∈ es, ¬e.handles id

instance (id : ℕ) (es : List Event) : Decidable (Unflushed id es) :=
  inferInstanceAs (Decidable (∀ e ∈ es, _))

theorem handled_append {id j : ℕ} {tr : List Event} (h : j ∉ (voice id tr).handled)
    {es : List Event} (hes : Unflushed j es) : j ∉ (voice id (tr ++ es)).handled := by
  induction es using List.reverseRecOn with
  | nil => simpa using h
  | append_singleton es e ih =>
    have hbefore := ih fun x hx => hes x (List.mem_append_left _ hx)
    have hlast := hes e (List.mem_append_right _ (List.mem_singleton_self e))
    rw [← List.append_assoc, voice_append]
    cases e with
    | mixer e p f =>
      cases e with
      | tick => exact List.not_mem_nil
      | consumed i n =>
        intro hm
        rcases List.mem_cons.mp hm with heq | hold
        · exact hlast heq.symm
        · exact hbefore hold
      | took i cells =>
        simp only [List.foldl_cons, List.foldl_nil, Voice.after]
        split <;> exact hbefore
      | _ => exact hbefore
    | accepted asked n | fetched k => exact hbefore

theorem Voice.left_after (id : ℕ) (v : Voice) (e : Event) : v.left <+: (v.after id e).left := by
  cases e with
  | mixer e p f =>
    cases e with
    | took i cells =>
      simp only [Voice.after]
      split <;> exact List.prefix_rfl
    | stopped =>
      simp only [Voice.after, Voice.stop]
      split
      · exact List.prefix_append _ _
      · exact List.prefix_rfl
    | _ => exact List.prefix_rfl
  | accepted asked n => exact List.prefix_rfl
  | fetched k => exact List.prefix_append _ _

theorem left_append (id : ℕ) (tr es : List Event) :
    (voice id tr).left <+: (voice id (tr ++ es)).left := by
  induction es using List.reverseRecOn with
  | nil => rw [List.append_nil]
  | append_singleton es e ih =>
    rw [← List.append_assoc, voice_append id (tr ++ es) [e]]
    exact ih.trans (Voice.left_after id _ e)

theorem run_account {s t : State} {tr es : List Event} {js : List Input} (h : Isolated s tr)
    (hok : machine.Heeds Spares s tr js) (hrun : machine.run s js = some (t, es)) (id : ℕ) :
    Isolated t (tr ++ es) ∧
      (account id t (tr ++ es)).Sublist (account id s tr ++ offered id es) ∧
      (id ∉ (voice id tr).handled → Unflushed id es →
        account id t (tr ++ es) = account id s tr ++ offered id es) := by
  let I (t : State) (tr' : List Event) : Prop := ∃ es, tr' = tr ++ es ∧ Isolated t tr' ∧
    (account id t tr').Sublist (account id s tr ++ offered id es) ∧
    (id ∉ (voice id tr).handled → Unflushed id es →
      account id t tr' = account id s tr ++ offered id es)
  have hstart : I s tr := by
    refine ⟨[], (List.append_nil tr).symm, h, ?_, fun _ _ => ?_⟩
    · exact List.sublist_append_left _ _
    · exact (List.append_nil _).symm
  have hstep (s₁ : State) (tr₁ : List Event) (i : Input) (s₂ : State) (e : List Event)
      (hi : Spares s₁ tr₁ i) (hI : I s₁ tr₁) (hs : machine.step s₁ i = some (s₂, e)) :
      I s₂ (tr₁ ++ e) := by
    obtain ⟨es₁, rfl, hiso, hsub, heq⟩ := hI
    refine ⟨es₁ ++ e, List.append_assoc _ _ _, hiso.step hi hs, ?_, fun hown hun => ?_⟩
    · rw [offered_append, ← List.append_assoc]
      rcases account_step hiso hi hs id with hkeep | ⟨-, hlose⟩
      · rw [hkeep]
        exact hsub.append_right _
      · exact hlose.trans (hsub.append_right _)
    · have hun₁ : Unflushed id es₁ := fun x hx => hun x (List.mem_append_left _ hx)
      rcases account_step hiso hi hs id with hkeep | ⟨hmem, -⟩
      · rw [hkeep, heq hown hun₁, offered_append, List.append_assoc]
      · rw [List.append_assoc] at hmem
        exact absurd hmem (handled_append hown hun)
  obtain ⟨es', htr, hiso, hsub, heq⟩ := machine.run_inv_of_heeds hstep hstart hok hrun
  cases List.append_cancel_left htr
  exact ⟨hiso, hsub, heq⟩

theorem Voice.heard_of_idled {v : Voice} (h : v.idled = []) : v.heard = v.left.map (·.2) := by
  have hall : v.left.filter (·.1 = .fetched) = v.left := by
    refine List.filter_eq_self.mpr fun x hx => ?_
    have hnone := List.filter_eq_nil_iff.mp (List.map_eq_nil_iff.mp h) x hx
    match hfate : x.1 with
    | .fetched => rfl
    | .idled => simp [hfate] at hnone
  rw [Voice.heard, hall]

/-- If every stop of the engine after a FLUSH spares the streams that have not been
flushed: what a stream has not lost is in the order of its pushes, nothing of it is lost
while no FLUSH of its own is handled, and without one it is heard alike in all runs. -/
theorem run_flush_isolated (volume : F32) (is : List Input) {s : State} {tr : List Event}
    (hok : machine.Heeds Spares (init volume) [] is)
    (hrun : machine.run (init volume) is = some (s, tr)) (id : ℕ) :
    ((voice id tr).left.map (·.2) ++ outstanding id s tr).Sublist (offered id tr) ∧
    (id ∉ (voice id tr).handled → ∀ js t es, machine.Heeds Spares s tr js →
      machine.run s js = some (t, es) → Unflushed id es →
        ∃ gone, (voice id (tr ++ es)).left = (voice id tr).left ++ gone ∧
          gone.map (·.2) ++ outstanding id t (tr ++ es) =
            outstanding id s tr ++ offered id es) ∧
    ∀ volume' is' s' tr', machine.Heeds Spares (init volume') [] is' →
      machine.run (init volume') is' = some (s', tr') → Unflushed id tr → Unflushed id tr' →
        (voice id tr).idled = [] → (voice id tr').idled = [] → offered id tr <+: offered id tr' →
          (voice id tr).heard <+: (voice id tr').heard ∨
            (voice id tr').heard <+: (voice id tr).heard := by
  obtain ⟨hiso, hsub, hwhole⟩ := run_account (isolated_init volume) hok hrun id
  rw [List.nil_append] at hiso hsub hwhole
  refine ⟨?_, fun hown js t es hok' hrun' hun => ?_,
    fun volume' is' s' tr' hok' hrun' hun hun' hidle hidle' hoffered => ?_⟩
  · rw [← account_eq]
    exact hsub
  · obtain ⟨-, -, hkeep⟩ := run_account hiso hok' hrun' id
    obtain ⟨gone, hgone⟩ := left_append id tr es
    have hall := hkeep hown hun
    rw [account_eq, account_eq, ← hgone, List.map_append, List.append_assoc,
      List.append_assoc] at hall
    exact ⟨gone, hgone.symm, List.append_cancel_left hall⟩
  · obtain ⟨-, -, hwhole'⟩ := run_account (isolated_init volume') hok' hrun' id
    rw [List.nil_append] at hwhole'
    have hall : (voice id tr).left.map (·.2) ++ outstanding id s tr = offered id tr := by
      rw [← account_eq]
      exact hwhole List.not_mem_nil hun
    have hall' : (voice id tr').left.map (·.2) ++ outstanding id s' tr' = offered id tr' := by
      rw [← account_eq]
      exact hwhole' List.not_mem_nil hun'
    rw [Voice.heard_of_idled hidle, Voice.heard_of_idled hidle']
    have hle := (List.prefix_append _ (outstanding id s tr)).trans (hall ▸ hoffered)
    have hle' := List.prefix_append ((voice id tr').left.map (·.2)) (outstanding id s' tr')
    rw [hall'] at hle'
    exact List.prefix_or_prefix_of_prefix hle hle'

/-- Stream 1 has a frame in the DMA ring. -/
def mixedFrame : List Input :=
  [.other (.register 8), .other (.register 8), .other (.push 1 [1, 0, 2, 0])] ++
    List.replicate 24 .mixer

/-- A FLUSH of stream 0 and the tick that handles it. -/
def flushTick : List Input := .other (.requestFlush 0) :: List.replicate 9 .mixer

/- The frame is fetched before the FLUSH is handled. -/
theorem run_flush_isolated_fetched :
    ∃ s tr, machine.run (init (.fin 100)) (mixedFrame ++ .dma 4096 :: flushTick) = some (s, tr) ∧
      (voice 1 tr).heard = [⟨1, 0⟩, ⟨0, 0⟩, ⟨2, 0⟩, ⟨0, 0⟩] ∧
      ((voice 1 tr).left.map (·.2) ++ outstanding 1 s tr).Sublist (offered 1 tr) := by
  have hcheck : (machine.run (init (.fin 100)) (mixedFrame ++ .dma 4096 :: flushTick)).any
      (fun p => (voice 1 p.2).heard = [⟨1, 0⟩, ⟨0, 0⟩, ⟨2, 0⟩, ⟨0, 0⟩]) = true := by decide +kernel
  obtain ⟨⟨s, tr⟩, hrun, hheard⟩ := (Option.any_eq_true _ _).mp hcheck
  have hall := run_flush_isolated (.fin 100) _ (by decide +kernel) hrun 1
  exact ⟨s, tr, hrun, of_decide_eq_true hheard, hall.1⟩

/- Stream 0 is flushed while the frame is in the DMA ring and all stream rings are empty:
the engine is stopped and the frame is gone. -/
theorem flush_discards_mixed :
    ¬ ∀ (volume : F32) (is : List Input) (s : State) (tr : List Event) (id : ℕ),
      machine.Meets DmaLimited (init volume) is → machine.run (init volume) is = some (s, tr) →
        Unflushed id tr →
          (voice id tr).left.map (·.2) ++ outstanding id s tr = offered id tr := by
  intro hall
  have hcheck : (machine.run (init (.fin 100)) (mixedFrame ++ flushTick)).any (fun p =>
      Unflushed 1 p.2 ∧
        (voice 1 p.2).left.map (·.2) ++ outstanding 1 p.1 p.2 ≠ offered 1 p.2) = true := by
    decide +kernel
  obtain ⟨⟨s, tr⟩, hrun, hlost⟩ := (Option.any_eq_true _ _).mp hcheck
  obtain ⟨hun, hne⟩ := of_decide_eq_true hlost
  exact hne (hall (.fin 100) _ s tr 1 (by decide +kernel) hrun hun)

end Audiod.Paced
