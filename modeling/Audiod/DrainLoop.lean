import Audiod.Session

/-!
# Waiting for the end of the audio (`server/src/backend.rs:140-146`)

`Backend::drain` polls the delay until it is no whole frame and then stops the
stream. The DMA engine keeps running: it may pass the last written byte between two
polls, and then reads on through the ring.
-/

namespace Audiod

inductive DrainPc
  | feeding
  | polling
  | stopped
  deriving DecidableEq

/-- The player: a session it has fed, and where it is in `drain`. -/
structure Player where
  session : Session
  pc : DrainPc

namespace Player

def init : Player := ⟨Session.init, .feeding⟩

inductive Input
  | play (data : Bytes)
  | go
  | dropAll
  | drain
  | poll
  | dma (k : ℕ)

/-- A poll of the loop: whether everything written since the last restart had been
fetched, and whether the loop exits. -/
structure Poll where
  played : Bool
  exits : Bool
  deriving DecidableEq

def feed (p : Player) (x : Session.Input) : Option (Player × List Poll) :=
  if p.pc = .feeding then (p.session.act x).map fun s => ({ p with session := s }, []) else none

/-- `while delay_frames() > 0 { .. } stop()` -/
def poll (p : Player) : Player × List Poll :=
  let h := p.session.hda
  let exits := decide (¬0 < h.delayFrames)
  (if exits then ⟨{ p.session with hda := h.stop }, .stopped⟩ else p,
    [⟨decide (h.pushed.length ≤ h.fetched.length), exits⟩])

def step (p : Player) : Input → Option (Player × List Poll)
  | .play data => p.feed (.play data)
  | .go => p.feed .go
  | .dropAll => p.feed .dropAll
  | .drain =>
    if p.pc = .feeding ∧ p.session.pc = none then some ({ p with pc := .polling }, []) else none
  | .poll => if p.pc = .polling then some p.poll else none
  | .dma k => (p.session.act (.dma k)).map fun s => ({ p with session := s }, [])

def machine : Machine Player Input Poll := ⟨step⟩

/-- Where a poll finds the DMA engine: short of the last written byte by whole frames
and less than the ring, or past it by whole rings and up to three bytes less. -/
def InTime (p : Player) : Input → Prop
  | .poll =>
    let unfetched : ℤ := (p.session.hda.pushed.length : ℤ) - p.session.hda.fetched.length
    if 0 < unfetched then frameSize ≤ unfetched % ringSize else unfetched % ringSize < frameSize
  | _ => True

instance decidableInTime (p : Player) : ∀ x, Decidable (InTime p x)
  | .poll =>
    if h : 0 < (p.session.hda.pushed.length : ℤ) - p.session.hda.fetched.length then
      decidable_of_iff _ (if_pos h).symm.to_iff
    else decidable_of_iff _ (if_neg h).symm.to_iff
  | .play _ => isTrue trivial
  | .go => isTrue trivial
  | .dropAll => isTrue trivial
  | .drain => isTrue trivial
  | .dma _ => isTrue trivial

/-! ### The positions while the stream is fed and polled -/

/-- The positions follow the counts until `drain` has stopped the stream. -/
structure Inv (p : Player) : Prop where
  positions : p.pc ≠ .stopped → p.session.hda.Positions
  running : p.session.pc ≠ none → p.session.hda.running = true
  idle : p.pc ≠ .feeding → p.session.pc = none
  stopped : p.pc = .stopped → p.session.hda.running = false

theorem inv_init : Inv init :=
  ⟨fun _ => Hda.positions_init, fun h => absurd rfl h, fun h => absurd rfl h,
    DrainPc.noConfusion⟩

/- What a poll does is decided by the two counts. -/
theorem not_delayed_iff {h : Hda} (hp : h.Positions) :
    ¬0 < h.delayFrames ↔ ((h.pushed.length : ℤ) - h.fetched.length) % ringSize < frameSize := by
  have hd := Hda.delayBytes_eq hp
  have hs : frameSize = 4 := rfl
  rw [← hd, Hda.delayFrames, hs]
  omega

theorem Inv.feed {p p' : Player} {e : List Poll} (h : Inv p) {x : Session.Input} (hstop : x ≠ .stop)
    (hdma : ∀ k, x ≠ .dma k) (hs : p.feed x = some (p', e)) :
    Inv p' ∧ p'.pc = .feeding ∧ e = [] := by
  unfold Player.feed at hs
  split at hs
  next hpc =>
    obtain ⟨s, hact, heq⟩ := Option.map_eq_some_iff.mp hs
    cases heq
    have hp := h.positions (by rw [hpc]; exact DrainPc.noConfusion)
    suffices hside : s.hda.Positions ∧ (s.pc ≠ none → s.hda.running = true) by
      refine ⟨⟨fun _ => hside.1, hside.2, fun hne => absurd hpc hne, fun hst => ?_⟩, hpc, rfl⟩
      rw [hpc] at hst
      cases hst
    cases x with
    | play data =>
      obtain ⟨-, rfl⟩ := Session.call_eq_some hact
      exact ⟨hp.start, fun _ => Hda.start_running _⟩
    | go =>
      simp only [Session.act] at hact
      split at hact
      next => cases hact
      next data hwrite =>
        cases hact
        exact ⟨hp, fun _ => h.running (by rw [hwrite]; exact Option.some_ne_none _)⟩
      next data rd hcopy =>
        cases hact
        have hr := h.running (by rw [hcopy]; exact Option.some_ne_none _)
        exact ⟨hp.write hr rd data, fun hne => absurd rfl hne⟩
    | dropAll =>
      obtain ⟨hnone, rfl⟩ := Session.call_eq_some hact
      exact ⟨Hda.positions_dropAll _, fun hne => absurd hnone hne⟩
    | stop => exact absurd rfl hstop
    | dma k => exact absurd rfl (hdma k)
  next => cases hs

theorem Inv.dma {p : Player} (h : Inv p) {k : ℕ} {s : Session}
    (hs : p.session.act (.dma k) = some s) : Inv { p with session := s } := by
  simp only [Session.act] at hs
  split at hs
  · rename_i hr
    cases hs
    refine ⟨fun hpc => (h.positions hpc).dma hr k, fun _ => hr, h.idle, fun hst => ?_⟩
    rw [h.stopped hst] at hr
    cases hr
  · cases hs

/- A poll exits when it should exactly if it finds the DMA engine in time. -/
theorem poll_on_time_iff {p : Player} (hp : p.session.hda.Positions) :
    (∀ e ∈ p.poll.2, e.exits = e.played) ↔ InTime p .poll := by
  have hexit := not_delayed_iff hp
  have hevent : (∀ e ∈ p.poll.2, e.exits = e.played) ↔
      decide (¬0 < p.session.hda.delayFrames) =
        decide (p.session.hda.pushed.length ≤ p.session.hda.fetched.length) :=
    List.forall_mem_singleton
  rw [hevent, decide_eq_decide, hexit]
  simp only [InTime]
  split <;> omega

theorem Inv.poll {p : Player} (h : Inv p) (hpc : p.pc = .polling) :
    Inv p.poll.1 ∧ ((∃ e ∈ p.poll.2, e.exits = true) ↔ p.poll.1.pc = .stopped) := by
  have hidle := h.idle (by rw [hpc]; exact DrainPc.noConfusion)
  have hevent : (∃ e ∈ p.poll.2, e.exits = true) ↔
      decide (¬0 < p.session.hda.delayFrames) = true := by
    simp only [Player.poll, List.mem_singleton, exists_eq_left]
  rw [hevent]
  simp only [Player.poll]
  split
  next hdone =>
    have hinv : Inv ⟨{ p.session with hda := p.session.hda.stop }, .stopped⟩ :=
      ⟨fun hne => absurd rfl hne, fun hne => absurd hidle hne, fun _ => hidle, fun _ => rfl⟩
    exact ⟨hinv, iff_of_true hdone rfl⟩
  next hmore =>
    rw [hpc]
    exact ⟨h, iff_of_false hmore DrainPc.noConfusion⟩

/- A step keeps the invariant; its polls are on time as `InTime` says, and the
stream is stopped by the one that exits. -/
theorem step_spec {p p' : Player} {x : Input} {e : List Poll} (h : Inv p)
    (hs : step p x = some (p', e)) :
    Inv p' ∧ ((∀ y ∈ e, y.exits = y.played) ↔ InTime p x) ∧
      (p.pc = .stopped ∨ (∃ y ∈ e, y.exits = true) ↔ p'.pc = .stopped) := by
  have hnone {q : Player} (hq : q.pc = .feeding) (hp : p.pc = .feeding) :
      p.pc = .stopped ∨ (∃ y ∈ ([] : List Poll), y.exits = true) ↔ q.pc = .stopped := by
    simp [hq, hp]
  have hfeeding {y : Session.Input} (hy : p.feed y = some (p', e)) : p.pc = .feeding := by
    unfold Player.feed at hy
    split at hy
    · assumption
    · cases hy
  cases x with
  | play data =>
    obtain ⟨hinv, hpc, rfl⟩ := h.feed Session.Input.noConfusion
      (fun _ => Session.Input.noConfusion) hs
    exact ⟨hinv, iff_of_true (List.forall_mem_nil _) trivial, hnone hpc (hfeeding hs)⟩
  | go =>
    obtain ⟨hinv, hpc, rfl⟩ := h.feed Session.Input.noConfusion
      (fun _ => Session.Input.noConfusion) hs
    exact ⟨hinv, iff_of_true (List.forall_mem_nil _) trivial, hnone hpc (hfeeding hs)⟩
  | dropAll =>
    obtain ⟨hinv, hpc, rfl⟩ := h.feed Session.Input.noConfusion
      (fun _ => Session.Input.noConfusion) hs
    exact ⟨hinv, iff_of_true (List.forall_mem_nil _) trivial, hnone hpc (hfeeding hs)⟩
  | drain =>
    simp only [step] at hs
    split at hs
    · rename_i hready
      cases hs
      have hp := h.positions (by rw [hready.1]; exact DrainPc.noConfusion)
      refine ⟨⟨fun _ => hp, h.running, fun _ => hready.2, DrainPc.noConfusion⟩,
        iff_of_true (List.forall_mem_nil _) trivial, ?_⟩
      simp [hready.1]
    · cases hs
  | poll =>
    simp only [step] at hs
    split at hs
    · rename_i hpc
      obtain ⟨hinv, hstop⟩ := h.poll hpc
      have hon := poll_on_time_iff (h.positions (by rw [hpc]; exact DrainPc.noConfusion))
      simp only [Option.some.injEq] at hs
      rw [hs] at hinv hon hstop
      refine ⟨hinv, hon, ?_⟩
      rw [hpc, ← hstop]
      simp
    · cases hs
  | dma k =>
    obtain ⟨s, hact, heq⟩ := Option.map_eq_some_iff.mp hs
    cases heq
    refine ⟨h.dma hact, iff_of_true (List.forall_mem_nil _) trivial, ?_⟩
    simp

/-- Whatever the DMA engine does between two polls, `drain` exits and stops the stream
at the first poll that finds everything fetched exactly if every poll finds the
engine short of the end by whole frames and less than the ring, or not past the end
by more than whole rings and up to three bytes less. -/
theorem run_drain_on_time_iff {xs : List Input} {p : Player} {tr : List Poll}
    (hrun : machine.run init xs = some (p, tr)) :
    ((∀ e ∈ tr, e.exits = e.played) ↔ machine.Meets InTime init xs) ∧
      ((∃ e ∈ tr, e.exits = true) ↔ p.pc = .stopped) ∧
      (p.pc = .stopped → p.session.hda.running = false) := by
  have hinv : Inv p :=
    machine.run_state_inv (fun _ _ _ _ hI hs => (step_spec hI hs).1) inv_init hrun
  have hexit : Inv p ∧ ((∃ e ∈ tr, e.exits = true) ↔ p.pc = .stopped) := by
    have hstart : Inv init ∧ ((∃ e ∈ ([] : List Poll), e.exits = true) ↔ init.pc = .stopped) :=
      ⟨inv_init, by simp [init]⟩
    have hall := machine.run_inv
      (I := fun p tr => Inv p ∧ ((∃ e ∈ tr, e.exits = true) ↔ p.pc = .stopped))
      (fun s tr x s' e hI hs => by
        obtain ⟨hI', -, hstop⟩ := step_spec hI.1 hs
        refine ⟨hI', ?_⟩
        rw [← hstop, ← hI.2]
        simp only [List.mem_append, or_and_right, exists_or]) hstart hrun
    simpa using hall
  exact ⟨machine.forall_events_iff_meets (fun _ _ _ _ hI hs => (step_spec hI hs).1)
    (fun _ _ _ _ hI hs => (step_spec hI hs).2.1) inv_init hrun, hexit.2, hinv.stopped⟩

/-- Eight bytes are fed and `drain` is called. -/
def fed (rest : List Input) : List Input :=
  .play [1, 2, 3, 4, 5, 6, 7, 8] :: .go :: .go :: .drain :: rest

/- The engine fetches twelve bytes before the second poll, and the loop goes on. At
six it stops, two bytes before the end. -/
theorem drain_polls_on :
    (∃ p, machine.run init (fed [.poll, .dma 12, .poll]) =
      some (p, [⟨false, false⟩, ⟨true, false⟩])) ∧
    ∃ p, machine.run init (fed [.dma 6, .poll]) = some (p, [⟨false, true⟩]) :=
  ⟨⟨_, rfl⟩, ⟨_, rfl⟩⟩

theorem run_drain_on_time_iff_frames : ∃ p tr,
    machine.run init (fed [.dma 4, .poll, .dma 4, .poll]) = some (p, tr) ∧
      (∀ e ∈ tr, e.exits = e.played) ∧ p.session.hda.running = false := by
  have hrun : machine.run init (fed [.dma 4, .poll, .dma 4, .poll]) = some (_, _) := rfl
  have hok : machine.Meets InTime init (fed [.dma 4, .poll, .dma 4, .poll]) := by decide
  obtain ⟨hon, -, hstopped⟩ := run_drain_on_time_iff hrun
  exact ⟨_, _, hrun, hon.mpr hok, hstopped rfl⟩

end Player

end Audiod
