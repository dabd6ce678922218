import Audiod.Machine
import Audiod.Ring

/-!
# The ring buffer among threads (`common/src/ring.rs`)

`push`, `pop`, `clear` and `interrupt`, called by any number of threads, one step at a
time: a lock, a test of what the lock does not protect, the release of the lock
together with falling asleep, a wake-up, a notification. `interrupt` takes no lock.

Two history variables: how often the flag has been cleared, and whether an interrupt
whose store is still in effect has returned.
-/

namespace Audiod.RingSync

variable {α : Type*}

/-- Where a thread is; the arguments of its call stay with it. -/
inductive Pc (α : Type*)
  | idle
  | pushLock (data : List α)
  | pushTest (data : List α)
  | pushWait (data : List α)
  | pushAsleep (data : List α)
  | pushCopy (data : List α)
  | pushUnlock
  | pushNotify
  | popLock (len : ℕ)
  | popSwap (len : ℕ)
  | popTest (len : ℕ)
  | popWait (len : ℕ)
  | popAsleep (len : ℕ)
  | popCopy (len : ℕ)
  | popEmpty
  | popUnlock (d : List α)
  | popNotify (d : List α)
  | clearLock
  | clearReset
  | clearSpace
  | clearData
  | clearUnlock
  | interruptStore
  | interruptNotify (stored : ℕ)

inductive Call (α : Type*)
  | push (data : List α)
  | pop (len : ℕ)
  | clear
  | interrupt

/-- The waiters of a condition variable are those no notification is pending for. -/
structure State (α : Type*) where
  ring : Ring α
  holder : Option ℕ
  spaceWaiters : List ℕ
  dataWaiters : List ℕ
  pcs : ℕ → Pc α
  cleared : ℕ
  served : Bool

/-- `pick` is the thread a `notify_one` wakes. Threads wake up without being notified,
too. -/
inductive Input (α : Type*)
  | call (t : ℕ) (c : Call α)
  | step (t pick : ℕ)
  | spurious (t : ℕ)

def State.init (ring : Ring α) : State α := ⟨ring, none, [], [], fun _ => .idle, 0, false⟩

namespace State

def goto (s : State α) (t : ℕ) (pc : Pc α) : State α :=
  { s with pcs := Function.update s.pcs t pc }

/-- The mutex is free, and is taken. -/
def lock (s : State α) (t : ℕ) (pc : Pc α) : Option (State α) :=
  if s.holder = none then some { s.goto t pc with holder := some t } else none

def unlock (s : State α) (t : ℕ) (pc : Pc α) : State α := { s.goto t pc with holder := none }

end State

def Call.start : Call α → Pc α
  | .push data => if data.isEmpty then .idle else .pushLock data
  | .pop len => .popLock len
  | .clear => .clearLock
  | .interrupt => .interruptStore

/-- Who is left after a `notify_one`. -/
def notifyOne (waiters : List ℕ) (pick : ℕ) : Option (List ℕ) :=
  if pick ∈ waiters ∨ waiters = [] then some (waiters.erase pick) else none

/-- The next step of a call. -/
def stepThread (s : State α) (t pick : ℕ) : Option (State α) :=
  match s.pcs t with
  | .idle => none
  | .pushLock data => s.lock t (.pushTest data)
  | .pushTest data =>
    if s.ring.capacity < s.ring.filled + data.length then some (s.goto t (.pushWait data))
    else some (s.goto t (.pushCopy data))
  | .pushWait data =>
    some { s.unlock t (.pushAsleep data) with spaceWaiters := t :: s.spaceWaiters }
  | .pushAsleep data =>
    if t ∈ s.spaceWaiters then none else some (s.goto t (.pushLock data))
  | .pushCopy data =>
    match s.ring.push data with
    | none => none
    | some ring => some { s.goto t .pushUnlock with ring := ring }
  | .pushUnlock => some (s.unlock t .pushNotify)
  | .pushNotify =>
    match notifyOne s.dataWaiters pick with
    | none => none
    | some ws => some { s.goto t .idle with dataWaiters := ws }
  | .popLock len => s.lock t (.popSwap len)
  | .popSwap len =>
    if s.ring.raw.interrupted = true then
      some { s.goto t .popEmpty with
        ring := s.ring.setInterrupted false
        cleared := s.cleared + 1
        served := false }
    else some (s.goto t (.popTest len))
  | .popTest len =>
    if 0 < s.ring.filled then some (s.goto t (.popCopy len)) else some (s.goto t (.popWait len))
  | .popWait len =>
    some { s.unlock t (.popAsleep len) with dataWaiters := t :: s.dataWaiters }
  | .popAsleep len => if t ∈ s.dataWaiters then none else some (s.goto t (.popLock len))
  | .popCopy len =>
    some { s.goto t (.popUnlock (s.ring.take len).1) with ring := (s.ring.take len).2 }
  | .popEmpty => some (s.unlock t .idle)
  | .popUnlock d => some (s.unlock t (.popNotify d))
  | .popNotify _ =>
    match notifyOne s.spaceWaiters pick with
    | none => none
    | some ws => some { s.goto t .idle with spaceWaiters := ws }
  | .clearLock => s.lock t .clearReset
  | .clearReset => some { s.goto t .clearSpace with ring := s.ring.clear }
  | .clearSpace => some { s.goto t .clearData with spaceWaiters := [] }
  | .clearData => some { s.goto t .clearUnlock with dataWaiters := [] }
  | .clearUnlock => some (s.unlock t .idle)
  | .interruptStore =>
    some { s.goto t (.interruptNotify s.cleared) with ring := s.ring.interrupt }
  | .interruptNotify stored =>
    some { s.goto t .idle with
      dataWaiters := []
      served := s.served || stored == s.cleared }

/-- What a `pop` returns is put on the trace. -/
def returned (s : State α) : Input α → List (ℕ × List α)
  | .step t _ =>
    match s.pcs t with
    | .popEmpty => [(t, [])]
    | .popNotify d => [(t, d)]
    | _ => []
  | _ => []

def step (s : State α) : Input α → Option (State α)
  | .call t c =>
    match s.pcs t with
    | .idle => some (s.goto t c.start)
    | _ => none
  | .step t pick => stepThread s t pick
  | .spurious t =>
    some { s with
      spaceWaiters := s.spaceWaiters.erase t
      dataWaiters := s.dataWaiters.erase t }

def machine : Machine (State α) (Input α) (ℕ × List α) :=
  ⟨fun s i => (step s i).map (·, returned s i)⟩

end Audiod.RingSync
