import Audiod.Shim

/-!
# Whose FLUSH it is

`FLUSH_CMD` belongs to the process: a drop or a pause of any handle sets it, and the
drain thread of any handle takes it, whichever looks first, and sends FLUSH on its
own connection. Over any number of handles and any interleaving of their calls and
drain threads, with the handles that have set the flag since it was last taken kept
as a history variable.
-/

namespace Audiod.Shim

variable {p p' : Process} {h h' : Handle} {es : List Event}

/-- A step that neither sets the flag nor takes it. -/
def FlagKept (p p' : Process) (es : List Event) : Prop :=
  p'.flushCmd = p.flushCmd ∧ ∀ e ∈ es, e ≠ .raised ∧ e ≠ .sending .flush

theorem flagKept_nil (hf : p'.flushCmd = p.flushCmd) : FlagKept p p' [] := ⟨hf, nofun⟩

theorem flagKept_one (hf : p'.flushCmd = p.flushCmd) {e : Event} (hr : e ≠ .raised)
    (hs : e ≠ .sending .flush) : FlagKept p p' [e] :=
  ⟨hf, List.forall_mem_singleton.mpr ⟨hr, hs⟩⟩

/-- A store to the flag. -/
def Raises (p' : Process) (es : List Event) : Prop := p'.flushCmd = true ∧ es = [.raised]

theorem call_flag (c : Call) (hs : h.call p c = ((p', h'), es)) :
    FlagKept p p' es ∨ Raises p' es := by
  cases c with
  | setFormat fmt | setChannels n | setRate rate | hwParams | setParams fmt channels rate
  | prepare | drain | drop | start | close =>
    cases hs
    exact .inl (flagKept_nil rfl)
  | writei data =>
    simp only [Handle.call] at hs
    split at hs <;> cases hs
    · exact .inl (flagKept_nil rfl)
    · exact .inl (flagKept_nil rfl)
  | pause on =>
    simp only [Handle.call] at hs
    split at hs <;> cases hs
    · exact .inr ⟨rfl, rfl⟩
    · exact .inl (flagKept_nil rfl)

theorem app_flag {a : Answer} (hs : h.appStep p a = some ((p', h'), es)) :
    FlagKept p p' es ∨ Raises p' es := by
  unfold Handle.appStep at hs
  cases hpc : h.app <;> rw [hpc] at hs <;> dsimp only at hs
  case idle | closed => cases hs
  case commitStash fd | writeAnchor data | writeSilent data | writeAdd n | dropClear | dropPushed |
    dropWritten | dropPlay | closeStop | closeInterrupt =>
    cases hs
    exact .inl (flagKept_nil rfl)
  case commitLoad =>
    split at hs <;> cases hs <;> exact .inl (flagKept_nil rfl)
  case commitSend fd =>
    split at hs
    · split at hs
      · cases hs
      · split at hs <;> cases hs <;> exact .inl (flagKept_nil rfl)
    · cases hs
      exact .inl (flagKept_nil rfl)
    · cases hs
  case writeMute cmd data =>
    cases hs
    exact .inl (flagKept_one rfl nofun nofun)
  case writePush data =>
    split at hs <;> cases hs
    exact .inl (flagKept_one rfl nofun nofun)
  case dropFlush =>
    split at hs <;> cases hs
    · exact .inr ⟨rfl, rfl⟩
    · exact .inl (flagKept_nil rfl)
  case closeJoin =>
    split at hs <;> cases hs
    exact .inl (flagKept_nil rfl)
  case closeFd =>
    split at hs <;> cases hs
    · exact .inl (flagKept_one rfl nofun nofun)
    · exact .inl (flagKept_one rfl nofun nofun)

/-- The drain thread at its look at the flag, the flag set. -/
def Takes (p : Process) (h : Handle) : Prop := h.drain = .flush ∧ p.flushCmd = true

theorem trySend_flag {f : Frame} {skip : DrainPc} {q : Process}
    (hs : h.trySend q f skip = ((p', h'), es)) (hf : f ≠ .flush)
    (hq : q.flushCmd = p.flushCmd) : FlagKept p p' es := by
  unfold Handle.trySend at hs
  split at hs <;> cases hs
  · exact flagKept_nil hq
  · exact flagKept_one hq nofun fun heq => hf (Event.sending.inj heq)

theorem drain_takes {a : Answer} (ht : Takes p h) (hs : h.drainStep p a = some ((p', h'), es)) :
    p'.flushCmd = false ∧ es = if h.sock = none then [] else [.sending .flush] := by
  obtain ⟨hpc, hset⟩ := ht
  simp only [Handle.drainStep, hpc, hset, if_true, Handle.trySend] at hs
  split at hs
  · rename_i hsock
    cases hs
    exact ⟨rfl, (if_pos hsock).symm⟩
  · rename_i fd hsock
    cases hs
    exact ⟨rfl, (if_neg (by rw [hsock]; nofun)).symm⟩

theorem drain_keeps {a : Answer} (ht : ¬Takes p h)
    (hs : h.drainStep p a = some ((p', h'), es)) : FlagKept p p' es := by
  unfold Handle.drainStep at hs
  cases hpc : h.drain <;> rw [hpc] at hs <;> dsimp only at hs
  case top | written n | reClose old f | reStop f | reWritten f | rePushed f =>
    cases hs
    exact flagKept_nil rfl
  case mute =>
    split at hs
    · cases hs
      exact flagKept_nil rfl
    · exact trySend_flag (Option.some.inj hs) nofun rfl
  case flush =>
    split at hs
    · rename_i hset
      exact absurd ⟨hpc, hset⟩ ht
    · cases hs
      exact flagKept_nil rfl
  case pop =>
    split at hs
    · cases hs
    · cases hs
      exact flagKept_nil rfl
    · exact trySend_flag (Option.some.inj hs) nofun rfl
  case send fd rest f =>
    split at hs
    · split at hs
      · cases hs
      · split at hs <;> cases hs
        · exact flagKept_one rfl nofun nofun
        · exact flagKept_nil rfl
    · cases hs
      exact flagKept_one rfl nofun nofun
    · cases hs
  case reSwap f =>
    split at hs <;> cases hs <;> exact flagKept_nil rfl
  case reConnect f =>
    split at hs
    · split at hs <;> cases hs
      exact flagKept_nil rfl
    · cases hs
      exact flagKept_nil rfl
    · cases hs
  case reHeader fd f =>
    split at hs
    · cases hs
      exact flagKept_nil rfl
    · split at hs
      · split at hs <;> cases hs
        exact flagKept_nil rfl
      · cases hs
        exact flagKept_nil rfl
      · cases hs
  case rePlay f =>
    cases hs
    exact flagKept_one rfl nofun nofun
  case done => cases hs

/-- What a step of the process does with the flag. -/
inductive FlagStep (w w' : World) (x : Action) (es : List (ℕ × Event)) : Prop
  | kept (hflag : w'.proc.flushCmd = w.proc.flushCmd)
      (hes : ∀ e ∈ es, e.2 ≠ .raised ∧ e.2 ≠ .sending .flush)
      (hx : ∀ i a, x = .handle i (.drain a) → ∀ h ∈ w.handles i, ¬Takes w.proc h)
  | raised (i : ℕ) (hflag : w'.proc.flushCmd = true) (hes : es = [(i, .raised)])
      (hx : ∀ j a, x ≠ .handle j (.drain a))
  | taken (i : ℕ) (a : Answer) (h : Handle) (hx : x = .handle i (.drain a))
      (hh : w.handles i = some h) (htake : Takes w.proc h) (hflag : w'.proc.flushCmd = false)
      (hes : es = if h.sock = none then [] else [(i, .sending .flush)])

theorem flagStep_of_flagKept {w w' : World} {i : ℕ} {y : Input} (hflag : FlagKept w.proc w'.proc es)
    (hx : ∀ a, y = .drain a → ∀ h ∈ w.handles i, ¬Takes w.proc h) :
    FlagStep w w' (.handle i y) (es.map (i, ·)) := by
  refine .kept hflag.1 (fun e he => ?_) fun j a heq => ?_
  · obtain ⟨x, hx, rfl⟩ := List.mem_map.mp he
    exact hflag.2 x hx
  · cases heq
    exact hx a rfl

theorem flagStep_of_raises {w w' : World} {i : ℕ} {y : Input} (hr : Raises w'.proc es)
    (hx : ∀ a, y ≠ .drain a) : FlagStep w w' (.handle i y) (es.map (i, ·)) := by
  obtain ⟨hflag, rfl⟩ := hr
  refine .raised i hflag rfl fun j a heq => ?_
  cases heq
  exact hx a rfl

theorem flagStep_of_world {w w' : World} {x : Action} (hflag : w'.proc.flushCmd = w.proc.flushCmd)
    (hx : ∀ i y, x ≠ .handle i y) : FlagStep w w' x [] :=
  .kept hflag (List.forall_mem_nil _) fun i a heq => absurd heq (hx i (.drain a))

theorem flagStep_of_step {w w' : World} {x : Action} {es : List (ℕ × Event)}
    (hs : w.step x = some (w', es)) : FlagStep w w' x es := by
  cases x with
  | «open» ringBytes fd =>
    simp only [World.step] at hs
    split at hs <;> cases hs
    exact flagStep_of_world rfl fun _ _ heq => by cases heq
  | handle i y =>
    simp only [World.step] at hs
    split at hs
    · cases hs
    · rename_i h hh
      split at hs
      · cases hs
      · rename_i p' h' es hstep
        cases hs
        cases y with
        | call c =>
          simp only [Shim.step] at hstep
          split at hstep
          · have hcall (a : Answer) : Input.call c ≠ .drain a := fun heq => by cases heq
            rcases call_flag c (Option.some.inj hstep) with hkept | hraise
            · exact flagStep_of_flagKept hkept fun a heq => absurd heq (hcall a)
            · exact flagStep_of_raises hraise hcall
          · cases hstep
        | app a =>
          have happ (b : Answer) : Input.app a ≠ .drain b := fun heq => by cases heq
          rcases app_flag hstep with hkept | hraise
          · exact flagStep_of_flagKept hkept fun b heq => absurd heq (happ b)
          · exact flagStep_of_raises hraise happ
        | drain a =>
          by_cases ht : Takes w.proc h
          · obtain ⟨hflag, hes⟩ := drain_takes ht hstep
            refine .taken i a h rfl hh ht hflag ?_
            rw [hes]
            split <;> rfl
          · refine flagStep_of_flagKept (drain_keeps ht hstep) fun a _ x hx => ?_
            rw [hh] at hx
            cases hx
            exact ht
  | hangup c =>
    cases hs
    exact flagStep_of_world rfl fun _ _ heq => by cases heq
  | elapse dt =>
    simp only [World.step] at hs
    split at hs <;> cases hs
    exact flagStep_of_world rfl fun _ _ heq => by cases heq

/-! ### The handles that have set the flag -/

/-- With the history variable. A FLUSH frame is recorded with the handle that sends
it and those that had set the flag. -/
def raisedBy (es : List (ℕ × Event)) : List ℕ :=
  es.filterMap fun e => if e.2 = .raised then some e.1 else none

def flushesOf (callers : List ℕ) (es : List (ℕ × Event)) : List (ℕ × List ℕ) :=
  es.filterMap fun e => if e.2 = .sending .flush then some (e.1, callers) else none

def flushStep (s : World × List ℕ) (x : Action) :
    Option ((World × List ℕ) × List (ℕ × List ℕ)) :=
  (s.1.step x).map fun (w, es) =>
    ((w, if w.proc.flushCmd then s.2 ++ raisedBy es else []), flushesOf s.2 es)

def flushes : Machine (World × List ℕ) Action (ℕ × List ℕ) := ⟨flushStep⟩

/-- A FLUSH frame that a drop or pause of its own handle has caused, and that no drop
or pause of another handle has caused. -/
def Scoped (f : ℕ × List ℕ) : Prop := f.1 ∈ f.2 ∧ ∀ i ∈ f.2, i = f.1

/-- A drain thread that has a connection finds the flag set only if no other handle
has set it since it was last taken. -/
def TakesOwn (s : World × List ℕ) : Action → Prop
  | .handle i (.drain _) =>
    ∀ h ∈ s.1.handles i, Takes s.1.proc h → h.sock ≠ none → ∀ j ∈ s.2, j = i
  | _ => True

instance (p : Process) (h : Handle) : Decidable (Takes p h) := inferInstanceAs (Decidable (_ ∧ _))

instance (s : World × List ℕ) (x : Action) : Decidable (TakesOwn s x) := by
  unfold TakesOwn
  split <;> infer_instance

/-- Somebody has set a flag that is set. -/
def Tracked (s : World × List ℕ) : Prop := s.1.proc.flushCmd = true → s.2 ≠ []

theorem flushesOf_eq_nil {es : List (ℕ × Event)} (h : ∀ e ∈ es, e.2 ≠ .sending .flush)
    (callers : List ℕ) : flushesOf callers es = [] :=
  List.filterMap_eq_nil_iff.mpr fun e he => if_neg (h e he)

theorem flushStep_eq {s s' : World × List ℕ} {x : Action} {fs : List (ℕ × List ℕ)}
    (hs : flushStep s x = some (s', fs)) : ∃ es, s.1.step x = some (s'.1, es) ∧
      s'.2 = (if s'.1.proc.flushCmd then s.2 ++ raisedBy es else []) ∧ fs = flushesOf s.2 es := by
  obtain ⟨⟨w, es⟩, hw, heq⟩ := Option.map_eq_some_iff.mp hs
  cases heq
  exact ⟨es, hw, rfl, rfl⟩

theorem Tracked.step {s s' : World × List ℕ} {x : Action} {fs : List (ℕ × List ℕ)}
    (hi : Tracked s) (hs : flushStep s x = some (s', fs)) : Tracked s' := by
  obtain ⟨es, hw, hcallers, -⟩ := flushStep_eq hs
  intro hset
  rw [hcallers, if_pos hset]
  rcases flagStep_of_step hw with ⟨hflag, -, -⟩ | ⟨i, -, rfl, -⟩ | ⟨i, a, h, -, -, -, hflag, -⟩
  · exact List.append_ne_nil_of_left_ne_nil (hi (hflag ▸ hset)) _
  · exact List.append_ne_nil_of_right_ne_nil _ (List.cons_ne_nil i [])
  · rw [hflag] at hset
    cases hset

theorem scoped_iff_takesOwn {s s' : World × List ℕ} {x : Action} {fs : List (ℕ × List ℕ)}
    (hi : Tracked s) (hs : flushStep s x = some (s', fs)) :
    (∀ f ∈ fs, Scoped f) ↔ TakesOwn s x := by
  obtain ⟨es, hw, -, rfl⟩ := flushStep_eq hs
  rcases flagStep_of_step hw with ⟨-, hes, hx⟩ | ⟨i, -, rfl, hx⟩ | ⟨i, a, h, rfl, hh, ht, -, rfl⟩
  · rw [flushesOf_eq_nil fun e he => (hes e he).2]
    refine iff_of_true nofun ?_
    unfold TakesOwn
    split
    · exact fun h hh ht => absurd ht (hx _ _ rfl h hh)
    · trivial
  · refine iff_of_true nofun ?_
    unfold TakesOwn
    split
    · exact absurd rfl (hx _ _)
    · trivial
  · simp only [TakesOwn, hh, Option.mem_some_iff, forall_eq']
    by_cases hsock : h.sock = none
    · rw [if_pos hsock]
      exact iff_of_true nofun fun _ hne => absurd hsock hne
    · rw [if_neg hsock]
      have hf : flushesOf s.2 [(i, Event.sending .flush)] = [(i, s.2)] := rfl
      rw [hf, List.forall_mem_singleton]
      constructor
      · exact fun hsc _ _ => hsc.2
      · intro hown
        have hall := hown ht hsock
        obtain ⟨j, hj⟩ := List.exists_mem_of_ne_nil s.2 (hi ht.2)
        exact ⟨hall j hj ▸ hj, hall⟩

/-- In every run, every FLUSH frame belongs to the stream of the handle it was asked
for exactly if no drain thread ever takes a flag another handle has set. -/
theorem run_flush_scoped_iff (xs : List Action) {s : World × List ℕ} {fs : List (ℕ × List ℕ)}
    (hrun : flushes.run (World.init, []) xs = some (s, fs)) :
    (∀ f ∈ fs, Scoped f) ↔ flushes.Meets TakesOwn (World.init, []) xs := by
  have hkeep : ∀ s x s' fs, Tracked s → flushes.step s x = some (s', fs) → Tracked s' :=
    fun s x s' fs hi hs => hi.step hs
  have hiff : ∀ s x s' fs, Tracked s → flushes.step s x = some (s', fs) →
      ((∀ f ∈ fs, Scoped f) ↔ TakesOwn s x) := fun s x s' fs hi hs => scoped_iff_takesOwn hi hs
  exact flushes.forall_events_iff_meets hkeep hiff nofun hrun

/-- Two handles are open. The first is paused and its own drain thread looks first. -/
def pauseRun : List Action :=
  [.open 4096 3, .open 4096 4, .handle 0 (.call (.pause true)), .handle 0 (.drain .go),
    .handle 0 (.drain .go), .handle 0 (.drain .go), .handle 1 (.drain .go),
    .handle 1 (.drain .go), .handle 1 (.drain .go)]

theorem run_flush_scoped_iff_pause : ∃ s fs, flushes.run (World.init, []) pauseRun = some (s, fs) ∧
    fs = [(0, [0])] ∧ ((∀ f ∈ fs, Scoped f) ↔ flushes.Meets TakesOwn (World.init, []) pauseRun) :=
  ⟨_, _, rfl, rfl, run_flush_scoped_iff pauseRun rfl⟩

/- The drain thread of the second handle looks first: the paused stream plays on and
the other one is flushed. -/
theorem flush_on_other_stream :
    ¬ ∀ (xs : List Action) (s : World × List ℕ) (fs : List (ℕ × List ℕ)),
      flushes.run (World.init, []) xs = some (s, fs) → ∀ f ∈ fs, Scoped f := by
  intro h
  have hsc := h [.open 4096 3, .open 4096 4, .handle 1 (.drain .go), .handle 1 (.drain .go),
    .handle 0 (.call (.pause true)), .handle 1 (.drain .go)] _ _ rfl (1, [0])
    (List.mem_singleton_self _)
  revert hsc
  unfold Scoped
  decide

end Audiod.Shim
