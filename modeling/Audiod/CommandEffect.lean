import Audiod.Streams
import Audiod.Volume

/-!
# What commands and the signal come to (`server/src/main.rs:345-387`, `617-693`, `mixer.rs:257-289`)

MUTE, UNMUTE and VOLUME are heard in the next write of the mixer that has not loaded the flag
or the gain yet, whoever sent them. After the signal the connections that play do one thing
more at the most.
-/

namespace Audiod.Daemon

open Mixer (Mix Pc)

/-! ### The commands of a run -/

/-- The mute flag after an event. -/
def Event.muted (b : Bool) : Event → Bool
  | .thread _ (.applied .mute) => true
  | .thread _ (.applied .unmute) => false
  | _ => b

/-- The volume after an event. -/
def Event.volume (v : F32) : Event → F32
  | .thread _ (.applied (.volume bits)) => setStateVolume (F32.ofBits bits)
  | _ => v

/-- What the last MUTE or UNMUTE of any connection has said. -/
def mutedAfter (tr : List Event) : Bool := tr.foldl Event.muted false

/-- What the last VOLUME of any connection has said. -/
def volumeAfter (volume : F32) (tr : List Event) : F32 := tr.foldl Event.volume volume

/-- What is no command. -/
def Event.Uncommanded (e : Event) : Prop := ∀ c cmd, e ≠ .thread c (.applied cmd)

theorem foldl_muted {es : List Event} (h : ∀ e ∈ es, e.Uncommanded) (b : Bool) :
    es.foldl Event.muted b = b := by
  induction es with
  | nil => rfl
  | cons e es ih =>
    have hrest := ih fun e he => h e (List.mem_cons_of_mem _ he)
    have hhead : e.muted b = b := by
      cases e with
      | thread c f =>
        cases f with
        | applied cmd => exact absurd rfl (h _ (List.mem_cons_self ..) c cmd)
        | _ => rfl
      | _ => rfl
    rw [List.foldl_cons, hhead, hrest]

theorem foldl_volume {es : List Event} {v : F32} (h : ∀ e ∈ es, e.Keeps) :
    es.foldl Event.volume v = v := by
  induction es with
  | nil => rfl
  | cons e es ih =>
    have hrest := ih fun e he => h e (List.mem_cons_of_mem _ he)
    have hkeeps := h e (List.mem_cons_self ..)
    have hhead : e.volume v = v := by
      cases e with
      | thread c f =>
        cases f with
        | applied cmd => cases cmd <;> first | rfl | exact hkeeps.elim
        | _ => rfl
      | _ => rfl
    rw [List.foldl_cons, hhead, hrest]

theorem uncommanded_thread {fs : List ThreadEvent} (h : ∀ e ∈ fs, e.Quiet) (c : ℕ) :
    ∀ e ∈ fs.map (Event.thread c), e.Uncommanded := by
  intro e he d cmd heq
  obtain ⟨f, hf, rfl⟩ := List.mem_map.mp he
  cases heq
  exact h _ hf

theorem uncommanded_mixer (es : List Mixer.Event) :
    ∀ e ∈ es.map Event.mixer, e.Uncommanded := by
  intro e he c cmd heq
  obtain ⟨f, -, rfl⟩ := List.mem_map.mp he
  cases heq

theorem uncommanded_ofLoop {es : List Event} (h : ∀ e ∈ es, e.OfLoop) :
    ∀ e ∈ es, e.Uncommanded := by
  intro e he c cmd heq
  have hof := h e he
  rw [heq] at hof
  exact hof

/-! ### The mute flag -/

theorem mix_muted (m : Mix) (delay : ℤ) : (m.mix delay).1.muted = m.muted := by
  unfold Mixer.Mix.mix
  dsimp only
  repeat' split
  all_goals rfl

theorem mixer_step_muted {m m' : Mix} {j : Mixer.Input} {es : List Mixer.Event}
    (hs : Mixer.step m j = some (m', es)) (hj : ∀ b, j ≠ .setMuted b) : m'.muted = m.muted := by
  cases j with
  | mix delay =>
    have hmix : m.mix delay = (m', es) := Option.some.inj hs
    have hkeep := mix_muted m delay
    rwa [hmix] at hkeep
  | setMuted b => exact absurd rfl (hj b)
  | register _ | elapse _ | setVolume _ =>
    cases hs
    rfl
  | requestFlush _ =>
    obtain ⟨-, rfl, -⟩ := Mixer.step_requestFlush hs
    rfl
  | finish _ =>
    obtain ⟨-, rfl, -⟩ := Mixer.step_finish hs
    rfl
  | push _ _ =>
    obtain ⟨-, ring, cells, -, -, rfl, -⟩ := Mixer.step_push hs
    rfl

section

variable {σ : Type*} [PackArith σ] {δ : Type*} [WideArith δ] [FloatCasts δ σ] {u : Setup}
  {s s' : Server σ} {es tr : List Event}

theorem Thread.step_muted {allowed : Bool} {g g' : Shared} {p p' : Peer} {a : Answer}
    {th th' : Thread σ} {fs : List ThreadEvent}
    (hs : Thread.step δ u allowed g p a th = some (g', p', th', fs)) (c : ℕ) :
    g'.mixer.muted = (fs.map (Event.thread c)).foldl Event.muted g.mixer.muted := by
  rcases Thread.step_effect hs with ⟨hkeep, hfs⟩ | ⟨s, cmd, rfl, hcmd⟩ |
    ⟨j, es, hj, hne, hstep, hfs⟩
  · rw [hkeep, foldl_muted (uncommanded_thread hfs c)]
  · rcases hcmd with ⟨hnone, rfl, rfl⟩ | ⟨j, es, hj, hstep, rfl⟩
    · cases cmd with
      | status | flush => rfl
      | mute | unmute | volume _ => cases hnone
    · have hquiet := uncommanded_thread (quiet_mixer es) c
      rw [List.map_cons, List.foldl_cons, foldl_muted hquiet]
      cases cmd with
      | mute | unmute =>
        cases hj
        obtain ⟨hset, -⟩ := Prod.mk.inj (Option.some.inj hstep)
        exact congrArg Mix.muted hset.symm
      | volume bits =>
        cases hj
        exact mixer_step_muted hstep fun b h => by cases h
      | flush =>
        obtain ⟨id, -, rfl⟩ := Option.map_eq_some_iff.mp hj
        exact mixer_step_muted hstep fun b h => by cases h
      | status => cases hj
  · rw [foldl_muted (uncommanded_thread hfs c)]
    refine mixer_step_muted hstep fun b hset => ?_
    rw [hset] at hj
    cases th with
    | apply s cmd => exact hne s cmd rfl
    | register _ | push _ _ | finish _ => cases hj
    | start _ | limit _ | poll _ | read _ _ _ | status _ _ _ | count _ _ | done => exact hj

theorem Server.step_muted {i : Input} (hs : s.step δ u i = some (s', es)) :
    s'.shared.mixer.muted = es.foldl Event.muted s.shared.mixer.muted := by
  cases i with
  | thread c a =>
    obtain ⟨p, th, g, q, th', fs, -, -, hstep, rfl, rfl⟩ := threadStep_cases hs
    exact Thread.step_muted hstep c
  | loop a =>
    rw [foldl_muted (uncommanded_ofLoop (loopStep_ofLoop hs))]
    exact congrArg (fun g : Shared => g.mixer.muted) (loopStep_starts hs).1
  | mix delay =>
    obtain ⟨rfl, rfl⟩ := Prod.mk.inj (Option.some.inj hs)
    rw [foldl_muted (uncommanded_mixer _)]
    exact mix_muted _ delay
  | connect c =>
    simp only [Server.step] at hs
    split at hs <;> cases hs
    rfl
  | send c data =>
    obtain ⟨p, -, hs⟩ := Option.bind_eq_some_iff.mp hs
    split at hs <;> cases hs
    rfl
  | hangup c =>
    obtain ⟨p, -, hs⟩ := Option.map_eq_some_iff.mp hs
    cases hs
    rfl
  | elapse ns | signal =>
    cases hs
    rfl

theorem Server.step_volumeAfter {i : Input} (hs : s.step δ u i = some (s', es)) :
    s'.shared.mixer.volume = es.foldl Event.volume s.shared.mixer.volume := by
  rcases Server.step_volume hs with ⟨hkeep, hes⟩ | ⟨c, bits, rfl, hset⟩
  · rw [hkeep, foldl_volume hes]
  · rw [hset]
    rfl

/-! ### Writes -/

theorem mix_muteLoad {m : Mix} {delay : ℤ} {w : ℕ} {acc : ℕ → ℤ} {gain : F32}
    (h : (m.mix delay).1.pc = .muteLoad w acc gain) :
    gain = Mixer.gainOf m.volume ∧ (m.mix delay).2 = [] := by
  cases hpc : m.pc with
  | gainLoad w' acc' =>
    simp only [Mixer.Mix.mix, hpc] at h
    cases h
    exact ⟨rfl, by simp only [Mixer.Mix.mix, hpc]⟩
  | _ =>
    simp only [Mixer.Mix.mix, hpc] at h
    repeat' split at h
    all_goals cases h

theorem mix_push {m : Mix} {delay : ℤ} {w : ℕ} {acc : ℕ → ℤ} {gain : F32} {muted : Bool}
    (h : (m.mix delay).1.pc = .push w acc gain muted) :
    m.pc = .muteLoad w acc gain ∧ muted = m.muted ∧ (m.mix delay).2 = [] := by
  cases hpc : m.pc with
  | muteLoad w' acc' gain' =>
    simp only [Mixer.Mix.mix, hpc] at h
    cases h
    exact ⟨rfl, rfl, by simp only [Mixer.Mix.mix, hpc]⟩
  | _ =>
    simp only [Mixer.Mix.mix, hpc] at h
    repeat' split at h
    all_goals cases h

theorem mix_wrote_push {m : Mix} {delay : ℤ} {gain : F32} {muted : Bool} {out : Bytes}
    (h : .wrote gain muted out ∈ (m.mix delay).2) :
    ∃ w acc, m.pc = .push w acc gain muted ∧ out = Mixer.render gain muted acc (w * 2) := by
  cases hpc : m.pc with
  | push w acc g b =>
    simp only [Mixer.Mix.mix, hpc, List.mem_singleton, Mixer.Event.wrote.injEq] at h
    obtain ⟨rfl, rfl, rfl⟩ := h
    exact ⟨w, acc, rfl, rfl⟩
  | _ =>
    simp only [Mixer.Mix.mix, hpc] at h
    repeat' split at h
    all_goals simp at h

theorem render_muted (gain : F32) (acc : ℕ → ℤ) (n : ℕ) :
    ∀ b ∈ Mixer.render gain true acc n, b = 0 := by
  intro b hb
  obtain ⟨i, -, hi⟩ := List.mem_flatMap.mp hb
  rw [renderSample_muted] at hi
  have hzero : Mixer.leI16 0 = [0, 0] := by decide
  rw [hzero] at hi
  simp only [List.mem_cons, List.not_mem_nil, or_false, or_self] at hi
  exact hi

/-- At some moment since the mixer last showed itself. -/
def Recent (P : List Event → Prop) (tr : List Event) : Prop :=
  ∃ pre mid, tr = pre ++ mid ∧ (∀ e ∈ mid, ∀ m, e ≠ .mixer m) ∧ P pre

theorem recent_now {P : List Event → Prop} {tr : List Event} (h : P tr) : Recent P tr :=
  ⟨tr, [], (List.append_nil tr).symm, List.forall_mem_nil _, h⟩

theorem Recent.append {P : List Event → Prop} {tr es : List Event} (h : Recent P tr)
    (hes : ∀ e ∈ es, ∀ m, e ≠ .mixer m) : Recent P (tr ++ es) := by
  obtain ⟨pre, mid, rfl, hmid, hP⟩ := h
  refine ⟨pre, mid ++ es, List.append_assoc .., fun e he => ?_, hP⟩
  rcases List.mem_append.mp he with he | he
  · exact hmid e he
  · exact hes e he

/- What was so at such a moment was so after the mixer's last event, if nothing has changed
it since. -/
theorem Recent.since {pre mid : List Event} {f : Mixer.Event} {muted : Bool}
    (h : Recent (fun p => muted = mutedAfter p) (pre ++ .mixer f :: mid))
    (hmid : ∀ e ∈ mid, ∀ b, e.muted b = b) : muted = mutedAfter pre := by
  obtain ⟨p, q, heq, hq, rfl⟩ := h
  have hkeep : ∀ {es : List Event}, (∀ e ∈ es, ∀ b, e.muted b = b) → ∀ b,
      es.foldl Event.muted b = b := by
    intro es hes
    induction es with
    | nil => exact fun _ => rfl
    | cons e es ih =>
      intro b
      rw [List.foldl_cons, hes e (List.mem_cons_self ..), ih fun e he =>
        hes e (List.mem_cons_of_mem _ he)]
  rcases List.append_eq_append_iff.mp heq with ⟨a, rfl, hcut⟩ | ⟨a, rfl, rfl⟩
  · cases a with
    | nil =>
      rw [List.nil_append] at hcut
      exact absurd rfl (hq (.mixer f) (hcut ▸ List.mem_cons_self ..) f)
    | cons x a =>
      obtain ⟨rfl, rfl⟩ := List.cons.inj hcut
      rw [mutedAfter, List.foldl_append, List.foldl_cons]
      exact hkeep (fun e he => hmid e (List.mem_append_left _ he)) _
  · exact absurd rfl (hq (.mixer f) (List.mem_append_right _ (List.mem_cons_self ..)) f)

/-- A write of the mixer is by what the commands say that were applied before it loaded the
gain and the flag. -/
def Written (volume : F32) (pre : List Event) : Event → Prop
  | .mixer (.wrote gain muted out) =>
    Recent (fun p => muted = mutedAfter p) pre ∧ (muted = true → ∀ b ∈ out, b = 0) ∧
      Recent (fun p => gain = Mixer.gainOf (volumeAfter volume p)) pre
  | _ => True

theorem step_pc_of_not_mix {i : Input} (hi : ∀ delay, i ≠ .mix delay)
    (hs : s.step δ u i = some (s', es)) : s'.shared.mixer.pc = s.shared.mixer.pc := by
  rcases Server.step_mixer hs with hm | ⟨j, fs, hj, hm⟩
  · rw [hm]
  · refine (Mixer.step_pc (fun delay hd => ?_) hm).1
    subst hd
    cases i with
    | mix delay => exact hi delay rfl
    | elapse ns => cases hj
    | connect _ | send _ _ | hangup _ | loop _ | signal => exact hj
    | thread c a =>
      obtain ⟨th, -, hasks⟩ := hj
      cases th with
      | apply s cmd => exact applyInput_aside hasks
      | register _ | push _ _ | finish _ => cases hasks
      | start _ | limit _ | poll _ | read _ _ _ | status _ _ _ | count _ _ | done => exact hasks

/-- The state is what the commands say, and what is loaded is recent. -/
structure Obeys (volume : F32) (s : Server σ) (tr : List Event) : Prop where
  mute : s.shared.mixer.muted = mutedAfter tr
  level : s.shared.mixer.volume = volumeAfter volume tr
  gain : ∀ w acc gain, (s.shared.mixer.pc = .muteLoad w acc gain ∨
    ∃ muted, s.shared.mixer.pc = .push w acc gain muted) →
      Recent (fun p => gain = Mixer.gainOf (volumeAfter volume p)) tr
  flag : ∀ w acc gain muted, s.shared.mixer.pc = .push w acc gain muted →
    Recent (fun p => muted = mutedAfter p) tr

omit [PackArith σ] in
theorem obeys_init (volume : F32) : Obeys volume (Server.init volume : Server σ) [] :=
  ⟨rfl, rfl, fun _ _ _ h => (by rcases h with h | ⟨_, h⟩ <;> cases h), fun _ _ _ _ h => by cases h⟩

theorem Obeys.step {volume : F32} (h : Obeys volume s tr) {i : Input}
    (hs : s.step δ u i = some (s', es)) : Obeys volume s' (tr ++ es) := by
  have hmute : s'.shared.mixer.muted = mutedAfter (tr ++ es) := by
    rw [Server.step_muted hs, h.mute, mutedAfter, mutedAfter, List.foldl_append]
  have hlevel : s'.shared.mixer.volume = volumeAfter volume (tr ++ es) := by
    rw [Server.step_volumeAfter hs, h.level, volumeAfter, volumeAfter, List.foldl_append]
  by_cases hi : ∃ delay, i = .mix delay
  · obtain ⟨delay, rfl⟩ := hi
    obtain ⟨rfl, rfl⟩ := Prod.mk.inj (Option.some.inj hs)
    refine ⟨hmute, hlevel, fun w acc gain hpc => ?_, fun w acc gain muted hpc => ?_⟩
    · rcases hpc with hpc | ⟨muted, hpc⟩
      · obtain ⟨hgain, hnone⟩ := mix_muteLoad hpc
        rw [hnone, List.map_nil, List.append_nil]
        exact recent_now (hgain.trans (h.level ▸ rfl))
      · obtain ⟨hbefore, -, hnone⟩ := mix_push hpc
        rw [hnone, List.map_nil, List.append_nil]
        exact h.gain w acc gain (.inl hbefore)
    · obtain ⟨-, hflag, hnone⟩ := mix_push hpc
      rw [hnone, List.map_nil, List.append_nil]
      exact recent_now (hflag.trans h.mute)
  · have hi : ∀ delay, i ≠ .mix delay := fun delay hd => hi ⟨delay, hd⟩
    have hsame := step_pc_of_not_mix hi hs
    have hquiet := step_events_of_not_mix hi hs
    refine ⟨hmute, hlevel, fun w acc gain hpc => ?_, fun w acc gain muted hpc => ?_⟩
    · exact (h.gain w acc gain (by rwa [hsame] at hpc)).append hquiet
    · exact (h.flag w acc gain muted (hsame ▸ hpc)).append hquiet

theorem Obeys.written {volume : F32} (h : Obeys volume s tr) (hall : Always (Written volume) tr)
    {i : Input} (hs : s.step δ u i = some (s', es)) : Always (Written volume) (tr ++ es) := by
  by_cases hi : ∃ delay, i = .mix delay
  · obtain ⟨delay, rfl⟩ := hi
    obtain ⟨-, rfl⟩ := Prod.mk.inj (Option.some.inj hs)
    refine hall.append_le_one ?_ fun e he => ?_
    · rw [List.length_map]
      exact Mixer.mix_events_length ..
    · obtain ⟨f, hf, rfl⟩ := List.mem_map.mp he
      cases f with
      | wrote gain muted out =>
        obtain ⟨w, acc, hpc, rfl⟩ := mix_wrote_push hf
        refine ⟨h.flag w acc gain muted hpc, fun hm => ?_, h.gain w acc gain (.inr ⟨muted, hpc⟩)⟩
        rw [hm]
        exact render_muted gain acc (w * 2)
      | _ => trivial
  · have hquiet := step_events_of_not_mix (fun delay hd => hi ⟨delay, hd⟩) hs
    refine hall.append_of_forall fun pre e post heq => ?_
    cases e with
    | mixer f =>
      have hmem : .mixer f ∈ es := by
        rw [heq]
        simp
      exact absurd rfl (hquiet _ hmem f)
    | _ => trivial

/-- In every run of the server, whoever sends the commands: each write of the mixer is silent
or not, and has the gain, as the state was at some moment since the mixer's last event before
it, which is when it loads the two; silent ones are all zeros. So of the writes after a MUTE
or UNMUTE only the one that was on its way can be by the one before. -/
theorem run_obeys (δ : Type*) [WideArith δ] [FloatCasts δ σ] (u : Setup) (volume : F32)
    (is : List Input) {t : Server σ} {tr : List Event}
    (hrun : (Server.machine δ u).run (Server.init volume : Server σ) is = some (t, tr)) :
    t.shared.mixer.muted = mutedAfter tr ∧ t.shared.mixer.volume = volumeAfter volume tr ∧
      Always (Written volume) tr ∧
      ∀ pre f mid gain muted out post,
        tr = (pre ++ .mixer f :: mid) ++ .mixer (.wrote gain muted out) :: post →
          (∀ e ∈ mid, ∀ b, e.muted b = b) → muted = mutedAfter pre := by
  have hstart : Obeys volume (Server.init volume : Server σ) [] ∧ Always (Written volume) [] :=
    ⟨obeys_init volume, always_nil⟩
  have hinv : Obeys volume t tr ∧ Always (Written volume) tr :=
    (Server.machine δ u).run_inv (I := fun s tr => Obeys volume s tr ∧ Always (Written volume) tr)
      (fun s tr i s' es h hs => ⟨h.1.step hs, h.1.written h.2 hs⟩) hstart hrun
  refine ⟨hinv.1.mute, hinv.1.level, hinv.2, fun pre f mid gain muted out post heq hmid => ?_⟩
  exact (hinv.2 _ _ _ heq).1.since hmid

/-- A control connection mutes, then a client plays a frame. -/
def mutedFrame : List Input :=
  [.connect 1, .send 1 (List.replicate 12 0 ++ [0, 0, 0, 0, msgMute])] ++
    [.bytes 1, .bytes 1, .bytes 12].map .loop ++
    [.bytes 0, .bytes 4, .bytes 1, .bytes 0].map (.thread 1) ++ oneFrame

theorem run_obeys_mutedFrame : ∃ t tr,
    (Server.machine ℝ oneUser).run (Server.init (.fin 100) : Server ℝ) mutedFrame = some (t, tr) ∧
      (∃ gain out, .mixer (.wrote gain true out) ∈ tr) ∧ mutedAfter tr = true ∧
      t.shared.mixer.muted = mutedAfter tr ∧ Always (Written (.fin 100)) tr := by
  obtain ⟨t, tr, hrun, hwrote, hmuted⟩ : ∃ t tr,
      (Server.machine ℝ oneUser).run (Server.init (.fin 100) : Server ℝ) mutedFrame =
        some (t, tr) ∧ (∃ gain out, .mixer (.wrote gain true out) ∈ tr) ∧ mutedAfter tr = true :=
    ⟨_, _, rfl, ⟨_, _, List.mem_of_getElem? (i := 16) rfl⟩, rfl⟩
  obtain ⟨hmute, -, hwritten, -⟩ := run_obeys ℝ oneUser (.fin 100) mutedFrame hrun
  exact ⟨t, tr, hrun, hwrote, hmuted, hmute, hwritten⟩

/-! ### After the signal -/

end

section

variable {σ : Type*}

/-- `handle_control`. -/
def Thread.Controls : Thread σ → Prop
  | .start none | .read none _ _ | .apply none _ | .status none _ _ => True
  | _ => False

/-- `reader_client`, at work. -/
def Thread.Plays : Thread σ → Prop
  | .start (some _) | .limit _ | .register _ | .poll _ | .read (some _) _ _ => True
  | .apply (some _) _ | .status (some _) _ _ | .push _ _ | .count _ _ | .finish _ => True
  | _ => False

/-- What a client thread may still do before it is back at the flag. -/
def Thread.left : Thread σ → ℕ
  | .read (some _) _ _ | .apply (some _) _ | .push _ _ => 1
  | _ => 0

theorem Thread.kinds (th : Thread σ) : th.Controls ∨ th.Plays ∨ th = .done := by
  cases th with
  | start cfg => cases cfg <;> simp [Thread.Controls, Thread.Plays]
  | read s f got => cases s <;> simp [Thread.Controls, Thread.Plays]
  | apply s cmd => cases s <;> simp [Thread.Controls, Thread.Plays]
  | status s todo st => cases s <;> simp [Thread.Controls, Thread.Plays]
  | _ => simp [Thread.Controls, Thread.Plays]

theorem Thread.Plays.not_controls {th : Thread σ} (h : th.Plays) : ¬ th.Controls := by
  cases th with
  | start cfg => cases cfg <;> first | exact h.elim | exact id
  | read s f got => cases s <;> first | exact h.elim | exact id
  | apply s cmd => cases s <;> first | exact h.elim | exact id
  | status s todo st => cases s <;> first | exact h.elim | exact id
  | _ => exact id

variable [PackArith σ] {δ : Type*} [WideArith δ] [FloatCasts δ σ] {u : Setup}

theorem mixed_shutdown {g g' : Shared} {j : Mixer.Input} {fs : List ThreadEvent}
    (h : g.mixed j = some (g', fs)) : g'.shutdown = g.shutdown := by
  obtain ⟨⟨m, es⟩, -, heq⟩ := Option.map_eq_some_iff.mp h
  cases heq
  rfl

theorem decode_left {s : Stream σ} {f : Field} {d : Bytes} {th : Thread σ}
    (h : Thread.decode (some s) f d = some th) : th.Plays ∧ th.left ≤ 1 := by
  cases f with
  | len =>
    simp only [Thread.decode] at h
    split at h <;> cases h <;> exact ⟨trivial, le_refl 1⟩
  | op =>
    simp only [Thread.decode] at h
    split at h
    · cases h
      exact ⟨trivial, le_refl 1⟩
    · split at h <;> cases h
      · exact ⟨trivial, Nat.zero_le 1⟩
      · exact ⟨trivial, le_refl 1⟩
  | volume =>
    cases h
    exact ⟨trivial, le_refl 1⟩
  | data n =>
    obtain ⟨⟨r, out⟩, -, rfl⟩ := Option.map_eq_some_iff.mp h
    cases out
    · exact ⟨trivial, Nat.zero_le 1⟩
    · exact ⟨trivial, le_refl 1⟩

theorem decode_controls {f : Field} {d : Bytes} {th : Thread σ}
    (h : Thread.decode none f d = some th) : th.Controls ∨ th = .done := by
  cases f with
  | len =>
    simp only [Thread.decode] at h
    split at h <;> cases h
    · exact .inl trivial
    · exact .inr rfl
  | op =>
    simp only [Thread.decode] at h
    split at h
    · cases h
      exact .inl trivial
    · split at h <;> cases h
      · exact .inr rfl
      · exact .inl trivial
  | volume =>
    cases h
    exact .inl trivial
  | data n =>
    cases h
    exact .inr rfl

section

variable {allowed : Bool} {g g' : Shared} {p p' : Peer} {a : Answer} {th' : Thread σ}
  {fs : List ThreadEvent}

/-- What a step leaves to a client thread: the flag as it was, and, once it is set, no more
than before. -/
def StepLeft (g g' : Shared) (th th' : Thread σ) (fs : List ThreadEvent) : Prop :=
  g'.shutdown = g.shutdown ∧ (th'.Plays ∨ th' = .done) ∧
    (g.shutdown = true → (fs.flatMap ThreadEvent.acts).length + th'.left ≤ th.left)

theorem start_left {cfg : Option AudioCfg} (hplays : (Thread.start cfg : Thread σ).Plays)
    (hs : Thread.step δ u allowed g p a (.start cfg) = some (g', p', th', fs)) :
    StepLeft g g' (.start cfg) th' fs := by
  simp only [Thread.step] at hs
  split at hs
  · split at hs <;> cases hs
    · exact hplays.elim
    · exact ⟨rfl, .inl trivial, fun _ => le_refl 0⟩
  · cases hs
    exact ⟨rfl, .inr rfl, fun _ => Nat.zero_le _⟩

theorem limit_left {cfg : AudioCfg}
    (hs : Thread.step δ u allowed g p a (.limit cfg) = some (g', p', th', fs)) :
    StepLeft g g' (.limit cfg) th' fs := by
  simp only [Thread.step] at hs
  split at hs <;> cases hs
  · exact ⟨rfl, .inr rfl, fun _ => le_refl 0⟩
  · exact ⟨rfl, .inl trivial, fun _ => le_refl 0⟩

/- The look at the flag: a turn begins only while it is down. -/
theorem poll_left {s : Stream σ}
    (hs : Thread.step δ u allowed g p a (.poll s) = some (g', p', th', fs)) :
    StepLeft g g' (.poll s) th' fs := by
  simp only [Thread.step] at hs
  split at hs
  · cases hs
    exact ⟨rfl, .inl trivial, fun _ => le_refl 0⟩
  · rename_i hon
    repeat' split at hs
    all_goals
      cases hs
      exact ⟨rfl, .inl trivial, fun hoff => absurd hoff hon⟩

theorem read_left {s : Stream σ} {f : Field} {got : Bytes}
    (hs : Thread.step δ u allowed g p a (.read (some s) f got) = some (g', p', th', fs)) :
    StepLeft g g' (.read (some s) f got) th' fs := by
  obtain ⟨⟨r, q⟩, -, hs⟩ := Option.bind_eq_some_iff.mp hs
  dsimp only at hs
  split at hs
  · cases hs
    refine ⟨rfl, .inl trivial, fun _ => ?_⟩
    rw [received_acts]
    exact le_refl 1
  · obtain ⟨th₁, hdecode, hs⟩ := Option.map_eq_some_iff.mp hs
    cases hs
    obtain ⟨hth, hle⟩ := decode_left hdecode
    refine ⟨rfl, .inl hth, fun _ => ?_⟩
    rw [received_acts, List.length_nil, Nat.zero_add]
    exact hle
  · cases hs
    exact ⟨rfl, .inl trivial, fun _ => Nat.zero_le _⟩

theorem apply_left {s : Stream σ} {cmd : Cmd}
    (hs : Thread.step δ u allowed g p a (.apply (some s) cmd) = some (g', p', th', fs)) :
    StepLeft g g' (.apply (some s) cmd) th' fs := by
  simp only [Thread.step] at hs
  split at hs
  · cases hs
    split <;> exact ⟨rfl, .inl trivial, fun _ => le_refl 1⟩
  · rename_i j hj
    obtain ⟨⟨g₁, fs₁⟩, hm, hs⟩ := Option.map_eq_some_iff.mp hs
    have hoff := mixed_shutdown hm
    have hnone := mixed_aside (applyInput_aside hj) hm
    cases hs
    refine ⟨hoff, .inl trivial, fun _ => ?_⟩
    rw [List.flatMap_cons, hnone]
    exact le_refl 1

theorem push_left {s : Stream σ} {data : Bytes}
    (hs : Thread.step δ u allowed g p a (.push s data) = some (g', p', th', fs)) :
    StepLeft g g' (.push s data) th' fs := by
  obtain ⟨⟨g₁, fs₁⟩, hm, hs⟩ := Option.map_eq_some_iff.mp hs
  have hoff := mixed_shutdown hm
  have hone := mixed_push hm
  cases hs
  refine ⟨hoff, .inl trivial, fun _ => ?_⟩
  rw [hone]
  exact le_refl 1

theorem finish_left {id : ℕ}
    (hs : Thread.step δ u allowed g p a (.finish id) = some (g', p', th', fs)) :
    StepLeft g g' (.finish id) th' fs := by
  obtain ⟨⟨g₁, fs₁⟩, hm, hs⟩ := Option.map_eq_some_iff.mp hs
  have hoff := mixed_shutdown hm
  have haside : Aside (.finish id) := trivial
  have hnone := mixed_aside haside hm
  cases hs
  refine ⟨hoff, .inr rfl, fun _ => ?_⟩
  rw [hnone]
  exact le_refl 0

/-- A client that finds the flag set leaves; a frame it is in is its last. -/
theorem Thread.step_left {th : Thread σ} (hplays : th.Plays)
    (hs : Thread.step δ u allowed g p a th = some (g', p', th', fs)) :
    StepLeft g g' th th' fs := by
  cases th with
  | start cfg => exact start_left hplays hs
  | limit cfg => exact limit_left hs
  | register cfg =>
    cases hs
    exact ⟨rfl, .inl trivial, fun _ => le_refl 0⟩
  | poll s => exact poll_left hs
  | read s f got =>
    cases s with
    | none => exact hplays.elim
    | some s => exact read_left hs
  | apply s cmd =>
    cases s with
    | none => exact hplays.elim
    | some s => exact apply_left hs
  | status s todo st =>
    cases s with
    | none => exact hplays.elim
    | some s =>
      cases todo <;> cases hs <;> exact ⟨rfl, .inl trivial, fun _ => Nat.zero_le _⟩
  | push s data => exact push_left hs
  | count s n =>
    cases hs
    exact ⟨rfl, .inl trivial, fun _ => le_refl 0⟩
  | finish id => exact finish_left hs
  | done => exact hplays.elim

end

theorem Thread.step_controls {allowed : Bool} {g g' : Shared} {p p' : Peer} {a : Answer}
    {th th' : Thread σ} {fs : List ThreadEvent} (hcontrols : th.Controls)
    (hs : Thread.step δ u allowed g p a th = some (g', p', th', fs)) :
    g'.shutdown = g.shutdown ∧ (th'.Controls ∨ th' = .done) := by
  cases th with
  | start cfg =>
    cases cfg with
    | some cfg => exact hcontrols.elim
    | none =>
      simp only [Thread.step] at hs
      split at hs <;> cases hs
      · exact ⟨rfl, .inl trivial⟩
      · exact ⟨rfl, .inr rfl⟩
  | read s f got =>
    cases s with
    | some s => exact hcontrols.elim
    | none =>
      obtain ⟨⟨r, q⟩, -, hs⟩ := Option.bind_eq_some_iff.mp hs
      dsimp only at hs
      split at hs
      · cases hs
        exact ⟨rfl, .inl trivial⟩
      · obtain ⟨th₁, hdecode, hs⟩ := Option.map_eq_some_iff.mp hs
        cases hs
        exact ⟨rfl, decode_controls hdecode⟩
      · cases hs
        exact ⟨rfl, .inr rfl⟩
  | apply s cmd =>
    cases s with
    | some s => exact hcontrols.elim
    | none =>
      simp only [Thread.step] at hs
      split at hs
      · cases hs
        split <;> exact ⟨rfl, .inl trivial⟩
      · obtain ⟨⟨g₁, fs₁⟩, hm, hs⟩ := Option.map_eq_some_iff.mp hs
        have hoff := mixed_shutdown hm
        cases hs
        exact ⟨hoff, .inl trivial⟩
  | status s todo st =>
    cases s with
    | some s => exact hcontrols.elim
    | none => cases todo <;> cases hs <;> exact ⟨rfl, .inl trivial⟩
  | limit _ | register _ | poll _ | push _ _ | count _ _ | finish _ | done => exact hcontrols.elim

variable {s s' : Server σ} {tr es : List Event}

theorem step_threads_aside (h : Placed s) {i : Input} (hi : ∀ c a, i ≠ .thread c a)
    (hs : s.step δ u i = some (s', es)) :
    (∀ c, s'.threads c = s.threads c ∨
      s.threads c = none ∧ ∃ cfg, s'.threads c = some (.start cfg)) ∧
      ∀ e ∈ es, ∀ c f, e ≠ .thread c f := by
  cases i with
  | thread c a => exact absurd rfl (hi c a)
  | loop a =>
    refine ⟨loop_threads h hs, fun e he c f heq => ?_⟩
    have hof := loopStep_ofLoop hs e he
    rw [heq] at hof
    exact hof
  | mix delay =>
    obtain ⟨rfl, rfl⟩ := Prod.mk.inj (Option.some.inj hs)
    refine ⟨fun _ => .inl rfl, fun e he c f heq => ?_⟩
    obtain ⟨m, -, rfl⟩ := List.mem_map.mp he
    cases heq
  | connect c =>
    simp only [Server.step] at hs
    split at hs <;> cases hs
    exact ⟨fun _ => .inl rfl, fun _ he => (List.not_mem_nil he).elim⟩
  | send c data =>
    obtain ⟨p, -, hs⟩ := Option.bind_eq_some_iff.mp hs
    split at hs <;> cases hs
    exact ⟨fun _ => .inl rfl, fun _ he => (List.not_mem_nil he).elim⟩
  | hangup c =>
    obtain ⟨p, -, hs⟩ := Option.map_eq_some_iff.mp hs
    cases hs
    exact ⟨fun _ => .inl rfl, fun _ he => (List.not_mem_nil he).elim⟩
  | elapse ns | signal =>
    cases hs
    exact ⟨fun _ => .inl rfl, fun _ he => (List.not_mem_nil he).elim⟩

/-- A control connection has no stream. -/
def Apart (s : Server σ) (tr : List Event) : Prop :=
  ∀ c th, s.threads c = some th → th.Controls → registered c tr = []

theorem Apart.step (h : Apart s tr) (howned : Owned s tr) (hplaced : Placed s) {i : Input}
    (hs : s.step δ u i = some (s', es)) : Apart s' (tr ++ es) := by
  intro c th hth hcontrols
  rw [registered_append]
  by_cases hi : ∃ d a, i = .thread d a
  · obtain ⟨d, a, rfl⟩ := hi
    obtain ⟨p, th₀, g, q, th', fs, hp, hth₀, hstep, rfl, rfl⟩ := threadStep_cases hs
    rw [registered_thread]
    by_cases hd : d = c
    · subst hd
      have hself : Function.update s.threads d (some th') d = some th' := Function.update_self ..
      cases hself.symm.trans hth
      have hwas : th₀.Controls := by
        rcases th₀.kinds with hc | hp | rfl
        · exact hc
        · rcases (Thread.step_left hp hstep).2.1 with hp' | rfl
          · exact absurd hcontrols hp'.not_controls
          · exact hcontrols.elim
        · cases hstep
      rw [h d th₀ hth₀ hwas, if_pos rfl, List.nil_append]
      rcases Thread.step_keeps hstep with hkeeps | ⟨cfg, rfl, -⟩
      · exact hkeeps.registers
      · exact hwas.elim
    · rw [if_neg hd, List.append_nil]
      have hother : Function.update s.threads d (some th') c = s.threads c :=
        Function.update_of_ne (Ne.symm hd) ..
      exact h c th (hother.symm.trans hth) hcontrols
  · obtain ⟨hthreads, hes⟩ :=
      step_threads_aside hplaced (fun d a heq => hi ⟨d, a, heq⟩) hs
    rw [registered_aside hes, List.append_nil]
    rcases hthreads c with hsame | ⟨hnone, -⟩
    · exact h c th (hsame.symm.trans hth) hcontrols
    · refine (howned.early c fun th₁ hth₁ => ?_).1
      rw [hnone] at hth₁
      cases hth₁

def Event.accepts : Event → Bool
  | .accepted _ => true
  | _ => false

/-- The connections the loop may still accept. -/
def LoopPc.left : LoopPc → ℕ
  | .accept => 1
  | _ => 0

theorem countP_accepts_thread (c : ℕ) (fs : List ThreadEvent) :
    (fs.map (Event.thread c)).countP Event.accepts = 0 := by
  rw [List.countP_eq_zero]
  intro e he
  obtain ⟨f, -, rfl⟩ := List.mem_map.mp he
  exact Bool.false_ne_true

omit [PackArith σ] in
/- With the flag set the loop is at its end when it is back at the top. -/
theorem loop_accepts {a : Answer} (hoff : s.shared.shutdown = true)
    (hs : s.loopStep a = some (s', es)) :
    es.countP Event.accepts + s'.loop.left ≤ s.loop.left := by
  cases hl : s.loop with
  | top =>
    simp only [Server.loopStep, hl, hoff] at hs
    cases hs
    exact le_refl 0
  | accept =>
    simp only [Server.loopStep, hl] at hs
    split at hs <;> cases hs
    · exact le_refl 1
    · exact Nat.zero_le 1
  | header c got deadline =>
    obtain ⟨p, q, r, hp, hr, rfl, rfl⟩ := loopStep_header hl hs
    have hloop := headerRead_loop s.shared.mixer.now c got deadline r
    have hleft : (headerRead s.shared.mixer.now c got deadline r).loop.left = 0 := by
      rcases hloop with htop | ⟨got', hsame⟩
      · rw [htop]
        rfl
      · rw [hsame]
        rfl
    have hnone : (headerRead s.shared.mixer.now c got deadline r).events.countP
        Event.accepts = 0 := by
      unfold headerRead
      dsimp only
      repeat' split
      all_goals rfl
    rw [hnone]
    exact Nat.le_of_eq ((Nat.zero_add _).trans hleft)
  | stopped =>
    simp only [Server.loopStep, hl] at hs
    cases hs

theorem Server.step_accepts {i : Input} (hoff : s.shared.shutdown = true)
    (hs : s.step δ u i = some (s', es)) :
    s'.shared.shutdown = true ∧ es.countP Event.accepts + s'.loop.left ≤ s.loop.left := by
  cases i with
  | loop a =>
    exact ⟨(congrArg Shared.shutdown (loopStep_starts hs).1).trans hoff, loop_accepts hoff hs⟩
  | thread c a =>
    obtain ⟨p, th, g, q, th', fs, -, -, hstep, rfl, rfl⟩ := threadStep_cases hs
    rw [countP_accepts_thread, Nat.zero_add]
    have hshutdown : g.shutdown = s.shared.shutdown := by
      rcases th.kinds with hc | hp | rfl
      · exact (Thread.step_controls hc hstep).1
      · exact (Thread.step_left hp hstep).1
      · cases hstep
    exact ⟨hshutdown.trans hoff, le_refl _⟩
  | mix delay =>
    obtain ⟨rfl, rfl⟩ := Prod.mk.inj (Option.some.inj hs)
    have hnone : ((s.shared.mixer.mix delay).2.map Event.mixer).countP Event.accepts = 0 := by
      rw [List.countP_eq_zero]
      intro e he
      obtain ⟨f, -, rfl⟩ := List.mem_map.mp he
      exact Bool.false_ne_true
    rw [hnone, Nat.zero_add]
    exact ⟨hoff, le_refl _⟩
  | connect c =>
    simp only [Server.step] at hs
    split at hs <;> cases hs
    exact ⟨hoff, Nat.le_of_eq (Nat.zero_add _)⟩
  | send c data =>
    obtain ⟨p, -, hs⟩ := Option.bind_eq_some_iff.mp hs
    split at hs <;> cases hs
    exact ⟨hoff, Nat.le_of_eq (Nat.zero_add _)⟩
  | hangup c =>
    obtain ⟨p, -, hs⟩ := Option.map_eq_some_iff.mp hs
    cases hs
    exact ⟨hoff, Nat.le_of_eq (Nat.zero_add _)⟩
  | elapse ns =>
    cases hs
    exact ⟨hoff, Nat.le_of_eq (Nat.zero_add _)⟩
  | signal =>
    cases hs
    exact ⟨rfl, Nat.le_of_eq (Nat.zero_add _)⟩

/-- The server between the signal and its end; `tr` is what came before. -/
structure Winding (tr : List Event) (s : Server σ) (new : List Event) : Prop where
  off : s.shared.shutdown = true
  loop : new.countP Event.accepts + s.loop.left ≤ 1
  absent : ∀ c, s.threads c = none → acts c new = []
  plays : ∀ c th, s.threads c = some th → th.Plays → (acts c new).length + th.left ≤ 1
  done : ∀ c, s.threads c = some .done →
    registered c (tr ++ new) = [] ∨ (acts c new).length ≤ 1

omit [PackArith σ] in
theorem Thread.left_le (th : Thread σ) : th.left ≤ 1 := by
  cases th with
  | read s f got => cases s <;> first | exact Nat.zero_le 1 | exact le_refl 1
  | apply s cmd => cases s <;> first | exact Nat.zero_le 1 | exact le_refl 1
  | push s data => exact le_refl 1
  | _ => exact Nat.zero_le 1

omit [PackArith σ] in
theorem winding_signal {tr : List Event} (hoff : s.shared.shutdown = true) : Winding tr s [] := by
  refine ⟨hoff, ?_, fun _ _ => rfl, fun c th _ _ => ?_, fun _ _ => .inr (Nat.zero_le 1)⟩
  · rw [List.countP_nil, Nat.zero_add]
    cases s.loop <;> first | exact Nat.zero_le 1 | exact le_refl 1
  · exact (Nat.zero_add _).trans_le th.left_le

theorem Winding.thread {new : List Event} (h : Winding tr s new) (hapart : Apart s (tr ++ new))
    {d : ℕ} {a : Answer} (hs : s.step δ u (.thread d a) = some (s', es)) :
    Winding tr s' (new ++ es) := by
  obtain ⟨hoff, haccepts⟩ := Server.step_accepts h.off hs
  have hloop : (new ++ es).countP Event.accepts + s'.loop.left ≤ 1 := by
    rw [List.countP_append]
    have hle := h.loop
    omega
  obtain ⟨p, th, g, q, th', fs, hp, hth, hstep, rfl, rfl⟩ := threadStep_cases hs
  have hself : Function.update s.threads d (some th') d = some th' := Function.update_self ..
  have hother : ∀ c, c ≠ d → Function.update s.threads d (some th') c = s.threads c :=
    fun c hc => Function.update_of_ne hc ..
  have hacts : ∀ c, c ≠ d → acts c (new ++ fs.map (.thread d)) = acts c new := fun c hc => by
    rw [acts_append, acts_thread, if_neg (Ne.symm hc), List.append_nil]
  -- a client that plays
  have hbound : th.Plays → (acts d (new ++ fs.map (.thread d))).length + th'.left ≤ 1 := by
    intro hplays
    have hold := h.plays d th hth hplays
    have hnew := (Thread.step_left hplays hstep).2.2 h.off
    rw [acts_append, acts_thread, if_pos rfl, List.length_append]
    omega
  refine ⟨hoff, hloop, fun c hc => ?_, fun c th₁ hth₁ hplays => ?_, fun c hc => ?_⟩
  · by_cases hcd : c = d
    · subst hcd
      cases hself.symm.trans hc
    · rw [hacts c hcd]
      exact h.absent c ((hother c hcd).symm.trans hc)
  · by_cases hcd : c = d
    · subst hcd
      cases hself.symm.trans hth₁
      rcases th.kinds with hc | hp' | rfl
      · rcases (Thread.step_controls hc hstep).2 with hc' | rfl
        · exact absurd hc' hplays.not_controls
        · exact hplays.elim
      · exact hbound hp'
      · cases hstep
    · rw [hacts c hcd]
      exact h.plays c th₁ ((hother c hcd).symm.trans hth₁) hplays
  · by_cases hcd : c = d
    · subst hcd
      cases hself.symm.trans hc
      rcases th.kinds with hctl | hp' | rfl
      · left
        rw [← List.append_assoc, registered_append, registered_thread, if_pos rfl,
          hapart c th hth hctl, List.nil_append]
        rcases Thread.step_keeps hstep with hkeeps | ⟨cfg, rfl, -⟩
        · exact hkeeps.registers
        · exact hctl.elim
      · exact .inr (hbound hp')
      · cases hstep
    · rw [hacts c hcd, ← List.append_assoc, registered_append, registered_thread,
        if_neg (Ne.symm hcd), List.append_nil]
      exact h.done c ((hother c hcd).symm.trans hc)

theorem Winding.aside {new : List Event} (h : Winding tr s new) (hplaced : Placed s)
    {i : Input} (hi : ∀ d a, i ≠ .thread d a) (hs : s.step δ u i = some (s', es)) :
    Winding tr s' (new ++ es) := by
  obtain ⟨hoff, haccepts⟩ := Server.step_accepts h.off hs
  obtain ⟨hthreads, hes⟩ := step_threads_aside hplaced hi hs
  have hacts : ∀ c, acts c (new ++ es) = acts c new := fun c => by
    rw [acts_append, acts_aside hes, List.append_nil]
  refine ⟨hoff, ?_, fun c hc => ?_, fun c th hth hplays => ?_, fun c hc => ?_⟩
  · rw [List.countP_append]
    have hle := h.loop
    omega
  · rw [hacts]
    rcases hthreads c with hsame | ⟨hnone, -⟩
    · exact h.absent c (hsame.symm.trans hc)
    · exact h.absent c hnone
  · rw [hacts]
    rcases hthreads c with hsame | ⟨hnone, cfg, hstart⟩
    · exact h.plays c th (hsame.symm.trans hth) hplays
    · rw [hstart] at hth
      cases hth
      rw [h.absent c hnone]
      exact Nat.zero_le 1
  · rw [hacts, ← List.append_assoc, registered_append, registered_aside hes, List.append_nil]
    rcases hthreads c with hsame | ⟨-, cfg, hstart⟩
    · exact h.done c (hsame.symm.trans hc)
    · rw [hstart] at hc
      cases hc

theorem Winding.step {new : List Event} (h : Winding tr s new) (hplaced : Placed s)
    (hapart : Apart s (tr ++ new)) {i : Input} (hs : s.step δ u i = some (s', es)) :
    Winding tr s' (new ++ es) := by
  by_cases hi : ∃ d a, i = .thread d a
  · obtain ⟨d, a, rfl⟩ := hi
    exact h.thread hapart hs
  · exact h.aside hplaced (fun d a heq => hi ⟨d, a, heq⟩) hs

/-- After the signal: every connection that has a stream does one thing more at the most, a
command or a chunk, and the loop accepts one connection more at the most. -/
theorem run_shutdown (δ : Type*) [WideArith δ] [FloatCasts δ σ] (u : Setup) (volume : F32)
    (js ks : List Input) {s t : Server σ} {tr new : List Event}
    (hjs : (Server.machine δ u).run (Server.init volume : Server σ) js = some (s, tr))
    (hks : (Server.machine δ u).run s (.signal :: ks) = some (t, new)) :
    (∀ c, registered c (tr ++ new) ≠ [] → (acts c new).length ≤ 1) ∧
      new.countP Event.accepts ≤ 1 := by
  have hstep : ∀ (s : Server σ) js tr i s' es,
      Heard δ u s js tr ∧ Owned s tr ∧ Apart s tr →
      (Server.machine δ u).step s i = some (s', es) →
      Heard δ u s' (js ++ [i]) (tr ++ es) ∧ Owned s' (tr ++ es) ∧ Apart s' (tr ++ es) :=
    fun s js tr i s' es h hs =>
      ⟨h.1.step hs, h.2.1.step h.1.1 hs, h.2.2.step h.2.1 h.1.1 hs⟩
  have hstart : Heard δ u (Server.init volume : Server σ) [] [] ∧
      Owned (Server.init volume : Server σ) [] ∧ Apart (Server.init volume : Server σ) [] :=
    ⟨heard_init volume, owned_init volume, fun _ _ h => (by cases h)⟩
  have hbefore := (Server.machine δ u).run_inv_inputs
    (I := fun s js tr => Heard δ u s js tr ∧ Owned s tr ∧ Apart s tr) hstep hstart hjs
  obtain ⟨mid, e, es, hsignal, hrest, rfl⟩ := (Server.machine δ u).run_cons.mp hks
  have hmid := hstep _ _ _ _ _ _ hbefore hsignal
  cases hsignal
  have hafter := (Server.machine δ u).run_inv_inputs
    (I := fun s js full => (Heard δ u s js full ∧ Owned s full ∧ Apart s full) ∧
      ∃ new, full = tr ++ new ∧ Winding tr s new)
    (fun s js full i s' es h hs => by
      obtain ⟨hold, new, rfl, hw⟩ := h
      exact ⟨hstep _ _ _ _ _ _ hold hs, new ++ es, List.append_assoc ..,
        hw.step hold.1.1 hold.2.2 hs⟩)
    ⟨hmid, [], rfl, winding_signal rfl⟩ hrest
  obtain ⟨⟨-, -, hapart⟩, new, heq, hwinding⟩ := hafter
  rw [List.nil_append, List.append_nil] at heq
  obtain rfl : es = new := List.append_cancel_left heq
  rw [List.nil_append, List.append_nil, heq] at hapart
  refine ⟨fun c hc => ?_, (Nat.le_add_right ..).trans hwinding.loop⟩
  rw [List.nil_append] at hc ⊢
  cases hth : t.threads c with
  | none =>
    rw [hwinding.absent c hth]
    exact Nat.zero_le 1
  | some th =>
    rcases th.kinds with hctl | hplays | rfl
    · exact absurd (hapart c th hth hctl) hc
    · exact (Nat.le_add_right ..).trans (hwinding.plays c th hth hplays)
    · exact (hwinding.done c hth).resolve_left hc

/- The signal comes when the client of one frame has its frame before it. -/
theorem run_shutdown_oneFrame : ∃ s t tr new,
    (Server.machine ℝ oneUser).run (Server.init (.fin 100) : Server ℝ) (oneFrame.take 9) =
        some (s, tr) ∧
      (Server.machine ℝ oneUser).run s (.signal ::
        [.bytes 4, .bytes 4, .bytes 0, .bytes 0, .bytes 0, .bytes 0].map (.thread 0)) =
          some (t, new) ∧ acts 0 new = [.push [1, 0, 2, 0]] ∧ t.threads 0 = some .done ∧
      (acts 0 new).length ≤ 1 ∧ new.countP Event.accepts ≤ 1 := by
  obtain ⟨s, t, tr, new, hjs, hks, hid, hacts, hdone⟩ : ∃ s t tr new,
      (Server.machine ℝ oneUser).run (Server.init (.fin 100) : Server ℝ) (oneFrame.take 9) =
          some (s, tr) ∧
        (Server.machine ℝ oneUser).run s (.signal ::
          [.bytes 4, .bytes 4, .bytes 0, .bytes 0, .bytes 0, .bytes 0].map (.thread 0)) =
            some (t, new) ∧ registered 0 (tr ++ new) = [0] ∧
              acts 0 new = [.push [1, 0, 2, 0]] ∧ t.threads 0 = some .done :=
    ⟨_, _, _, _, rfl, rfl, rfl, rfl, rfl⟩
  obtain ⟨hone, haccepts⟩ := run_shutdown ℝ oneUser (.fin 100) _ _ hjs hks
  exact ⟨s, t, tr, new, hjs, hks, hacts, hdone, hone 0 (by rw [hid]; exact List.cons_ne_nil 0 []),
    haccepts⟩

end

end Audiod.Daemon
