import Audiod.Hda
import Audiod.Mixer

/-!
# The mixer on the HDA backend

`mix_loop` with the backend it owns: `delay_frames` reads the position registers
of the stream, `stop_immediate` is `drop_all`, and a write goes through the
retry loop of `Backend::push` (`server/src/backend.rs:101-119`), one `play` at a
time. The DMA engine and the other threads step in between.
-/

namespace Audiod.Paced

/-- Where the mixer thread is inside `Backend::push`; `rest` is `data[off..]`. -/
inductive PushPc
  | play (rest : Bytes)
  | write (rest : Bytes)
  | copy (rest : Bytes) (rd : ℕ)

structure State where
  mix : Mixer.Mix
  hda : Hda
  push : Option PushPc

def init (volume : F32) : State := ⟨Mixer.Mix.init volume, Hda.init, none⟩

/-- `mixer` carries the bytes pushed and fetched since the last restart. -/
inductive Event
  | mixer (e : Mixer.Event) (pushed fetched : ℕ)
  | accepted (asked n : ℕ)
  | fetched (k : ℕ)
  deriving DecidableEq

inductive Input
  | mixer
  | other (i : Mixer.Input)
  | dma (k : ℕ)

/-- The loop of `Backend::push`: at its head, or done. -/
def pushing (rest : Bytes) : Option PushPc := if rest.isEmpty then none else some (.play rest)

/-- What the backend does at an event of the mixer. -/
def backend (s : State) (m : Mixer.Mix) : List Mixer.Event → State
  | [.stopped] => { s with mix := m, hda := s.hda.dropAll }
  | [.wrote _ _ out] => { s with mix := m, push := pushing out }
  | _ => { s with mix := m }

def stamp (s : State) (es : List Mixer.Event) : List Event :=
  es.map fun e => .mixer e s.hda.pushed.length s.hda.fetched.length

def step (s : State) : Input → Option (State × List Event)
  | .mixer =>
    match s.push with
    | none =>
      let p := s.mix.mix s.hda.delayFrames
      some (backend s p.1 p.2, stamp s p.2)
    | some (.play rest) => some ({ s with hda := s.hda.start, push := some (.write rest) }, [])
    | some (.write rest) => some ({ s with push := some (.copy rest s.hda.readLpib) }, [])
    | some (.copy rest rd) =>
      let p := s.hda.write rd rest
      some ({ s with hda := p.1, push := pushing (rest.drop p.2) }, [.accepted rest.length p.2])
  | .other (.mix _) => none
  | .other i => (Mixer.step s.mix i).map fun p => ({ s with mix := p.1 }, stamp s p.2)
  | .dma k => if s.hda.running then some ({ s with hda := s.hda.dma k }, [.fetched k]) else none

def machine : Machine State Input Event := ⟨step⟩

theorem pushing_cases (rest : Bytes) : pushing rest = none ∨ pushing rest = some (.play rest) := by
  unfold pushing
  split
  · exact Or.inl rfl
  · exact Or.inr rfl

theorem backend_cases (s : State) (m : Mixer.Mix) (es : List Mixer.Event) :
    (es = [.stopped] ∧ backend s m es = { s with mix := m, hda := s.hda.dropAll }) ∨
    (∃ gain muted out, es = [.wrote gain muted out] ∧
      backend s m es = { s with mix := m, push := pushing out }) ∨
    backend s m es = { s with mix := m } := by
  unfold backend
  split
  · exact Or.inl ⟨rfl, rfl⟩
  · exact Or.inr (Or.inl ⟨_, _, _, rfl, rfl⟩)
  · exact Or.inr (Or.inr rfl)

@[simp] theorem backend_mix (s : State) (m : Mixer.Mix) (es : List Mixer.Event) :
    (backend s m es).mix = m := by
  unfold backend
  split <;> rfl

theorem step_mixer {s s' : State} {es : List Event} (hpush : s.push = none)
    (hs : step s .mixer = some (s', es)) :
    s' = backend s (s.mix.mix s.hda.delayFrames).1 (s.mix.mix s.hda.delayFrames).2 ∧
      es = stamp s (s.mix.mix s.hda.delayFrames).2 := by
  simp only [step, hpush, Option.some.injEq, Prod.mk.injEq] at hs
  exact ⟨hs.1.symm, hs.2.symm⟩

theorem step_other {s s' : State} {es : List Event} {i : Mixer.Input}
    (hs : step s (.other i) = some (s', es)) :
    (∀ delay, i ≠ .mix delay) ∧ ∃ m es', Mixer.step s.mix i = some (m, es') ∧
      s' = { s with mix := m } ∧ es = stamp s es' := by
  cases i with
  | mix delay => cases hs
  | _ =>
    simp only [step] at hs
    obtain ⟨⟨m, es'⟩, hm, heq⟩ := Option.map_eq_some_iff.mp hs
    cases heq
    exact ⟨nofun, m, es', hm, rfl, rfl⟩

theorem step_dma {s s' : State} {es : List Event} {k : ℕ} (hs : step s (.dma k) = some (s', es)) :
    s.hda.running = true ∧ s' = { s with hda := s.hda.dma k } ∧ es = [.fetched k] := by
  simp only [step] at hs
  split at hs
  · rename_i hrun
    simp only [Option.some.injEq, Prod.mk.injEq] at hs
    exact ⟨hrun, hs.1.symm, hs.2.symm⟩
  · cases hs

/-! ### What holds in every reachable state -/

/-- The ring positions follow the byte counts, and a push under way belongs to a
tick that has mixed. -/
structure Base (s : State) : Prop where
  ledger : ∃ tr, Mixer.Ledger s.mix tr
  positions : s.hda.Positions
  push : match s.push with
    | none => True
    | some (.play _) => s.mix.pc = .report
    | some (.write _) | some (.copy _ _) => s.mix.pc = .report ∧ s.hda.running = true

theorem base_init (volume : F32) : Base (init volume) :=
  ⟨⟨[], Mixer.ledger_init volume⟩, Hda.positions_init, trivial⟩

theorem Base.step {s s' : State} {es : List Event} {i : Input} (h : Base s)
    (hs : step s i = some (s', es)) : Base s' := by
  obtain ⟨⟨trm, hl⟩, hp, hpush⟩ := h
  cases i with
  | mixer =>
    simp only [Paced.step] at hs
    cases hpc : s.push with
    | none =>
      simp only [hpc, Option.some.injEq, Prod.mk.injEq] at hs
      obtain ⟨rfl, -⟩ := hs
      have hl' := hl.mix s.hda.delayFrames
      rcases backend_cases s (s.mix.mix s.hda.delayFrames).1 (s.mix.mix s.hda.delayFrames).2 with
        ⟨-, heq⟩ | ⟨gain, muted, out, hes, heq⟩ | heq
      · rw [heq]
        refine ⟨⟨_, hl'⟩, Hda.positions_dropAll _, ?_⟩
        simp only [hpc]
      · rw [heq]
        refine ⟨⟨_, hl'⟩, hp, ?_⟩
        rcases pushing_cases out with hp | hp <;> simp only [hp]
        exact (Mixer.mix_wrote hes).2
      · rw [heq]
        refine ⟨⟨_, hl'⟩, hp, ?_⟩
        simp only [hpc]
    | some pc =>
      simp only [hpc] at hpush
      cases pc with
      | play rest =>
        simp only [hpc, Option.some.injEq, Prod.mk.injEq] at hs
        obtain ⟨rfl, -⟩ := hs
        exact ⟨⟨_, hl⟩, hp.start, hpush, Hda.start_running _⟩
      | write rest =>
        simp only [hpc, Option.some.injEq, Prod.mk.injEq] at hs
        obtain ⟨rfl, -⟩ := hs
        exact ⟨⟨_, hl⟩, hp, hpush⟩
      | copy rest rd =>
        simp only [hpc, Option.some.injEq, Prod.mk.injEq] at hs
        obtain ⟨rfl, -⟩ := hs
        refine ⟨⟨_, hl⟩, hp.write hpush.2 rd rest, ?_⟩
        rcases pushing_cases (rest.drop (s.hda.write rd rest).2) with hp | hp <;> simp only [hp]
        exact hpush.1
  | other i =>
    obtain ⟨hi, m, es', hm, rfl, -⟩ := step_other hs
    refine ⟨⟨_, hl.step hm⟩, hp, ?_⟩
    simp only [(Mixer.step_pc hi hm).1]
    exact hpush
  | dma k =>
    obtain ⟨hrun, rfl, -⟩ := step_dma hs
    exact ⟨⟨_, hl⟩, hp.dma hrun k, hpush⟩

/- A push is under way only where the mixer reports after it. -/
theorem Base.push_none {s : State} (h : Base s) (hpc : s.mix.pc ≠ .report) : s.push = none := by
  have hp := h.push
  cases hpush : s.push with
  | none => rfl
  | some pc =>
    exfalso
    rw [hpush] at hp
    cases pc with
    | play rest => exact hpc hp
    | write rest | copy rest rd => exact hpc hp.1

theorem base_run {volume : F32} {is : List Input} {s : State} {tr : List Event}
    (hrun : machine.run (init volume) is = some (s, tr)) : Base s :=
  machine.run_state_inv (fun _ _ _ _ h hs => h.step hs) (base_init volume) hrun

end Audiod.Paced
