import Audiod.Machine
import Audiod.Ring

/-!
# The ring buffer is a bounded queue

`AudioRingBuffer` as its callers see it: any sequence of `push`, `pop`, `try_pop`,
`clear` and `interrupt`, each one step, against a queue of bounded length with an
interrupt flag. A step that would have to wait is not taken, in both; the slice
accesses of the buffer never fail.
-/

namespace Audiod.RingQueue

variable {α : Type*}

inductive Op (α : Type*)
  | push (data : List α)
  | pop (len : ℕ)
  | tryPop (len : ℕ)
  | clear
  | interrupt

/-- One call on the buffer. `pop` and `try_pop` put what they return on the trace. -/
def step (r : RawRing α) : Op α → Option (RawRing α × List (List α))
  | .push data =>
    if data.isEmpty ∨ r.CanPush data then (r.push data).map fun r => (r, []) else none
  | .pop len => if r.CanPop then (r.pop len).map fun (d, r) => (r, [d]) else none
  | .tryPop len => (r.tryPop len).map fun (d, r) => (r, [d])
  | .clear => some (r.clear, [])
  | .interrupt => some (r.interrupt, [])

def machine : Machine (RawRing α) (Op α) (List α) := ⟨step⟩

/-! ### The queue -/

/-- What the buffer is for. -/
structure Fifo (α : Type*) where
  queue : List α
  interrupted : Bool

def Fifo.empty : Fifo α := ⟨[], false⟩

/-- An interrupt is taken by the next read, which then returns nothing. -/
def Fifo.step (cap : ℕ) (q : Fifo α) : Op α → Option (Fifo α × List (List α))
  | .push data =>
    if q.queue.length + data.length ≤ cap then some ({ q with queue := q.queue ++ data }, [])
    else none
  | .pop len =>
    if q.interrupted then some ({ q with interrupted := false }, [[]])
    else if q.queue = [] then none
    else some ({ q with queue := q.queue.drop len }, [q.queue.take len])
  | .tryPop len =>
    if q.interrupted then some ({ q with interrupted := false }, [[]])
    else some ({ q with queue := q.queue.drop len }, [q.queue.take len])
  | .clear => some ({ q with queue := [] }, [])
  | .interrupt => some ({ q with interrupted := true }, [])

def Fifo.machine (cap : ℕ) : Machine (Fifo α) (Op α) (List α) := ⟨Fifo.step cap⟩

/-- The buffer spells the queue. -/
structure Spells (cap : ℕ) (r : RawRing α) (q : Fifo α) : Prop where
  capacity : r.cap = cap
  filled : r.filled = q.queue.length
  bounded : q.queue.length ≤ cap
  available : r.available = cap - q.queue.length
  read_lt : r.readPos < cap
  write_lt : r.writePos < cap
  write_eq : r.writePos = (r.readPos + q.queue.length) % cap
  spells : ringLoad cap r.buf r.readPos q.queue.length = q.queue
  interrupted : r.interrupted = q.interrupted

theorem spells_of_wf {cap : ℕ} {r : RawRing α} {q : Fifo α} (hcap : r.cap = cap) (h : r.WF)
    (hq : r.contents = q.queue) (hi : r.interrupted = q.interrupted) : Spells cap r q := by
  have hlen : r.filled = q.queue.length := by
    rw [← hq, RawRing.contents_length]
  subst hcap
  refine ⟨rfl, hlen, hlen ▸ h.filled_le, ?_, h.read_lt, h.write_lt, ?_, ?_, hi⟩
  · rw [RawRing.available, hlen]
  · rw [h.write_eq, hlen]
  · rw [← hlen]
    exact hq

theorem Spells.wf {cap : ℕ} {r : RawRing α} {q : Fifo α} (h : Spells cap r q) : r.WF := by
  refine ⟨?_, ?_, ?_⟩
  · rw [h.capacity]
    exact h.read_lt
  · rw [h.filled, h.capacity]
    exact h.bounded
  · rw [h.filled, h.capacity]
    exact h.write_eq

theorem Spells.contents {cap : ℕ} {r : RawRing α} {q : Fifo α} (h : Spells cap r q) :
    r.contents = q.queue := by
  rw [RawRing.contents, h.capacity, h.filled]
  exact h.spells

/-! ### One step -/

/-- Agreement of the two steps: both stuck, or both done with the same result. -/
abbrev Agrees (cap : ℕ) (x : Option (RawRing α × List (List α)))
    (y : Option (Fifo α × List (List α))) : Prop :=
  Option.Rel (fun p q => Spells cap p.1 q.1 ∧ p.2 = q.2) x y

variable {cap : ℕ} {r : RawRing α} {q : Fifo α}

theorem Spells.push (h : Spells cap r q) (data : List α) :
    Agrees cap (step r (.push data)) (q.step cap (.push data)) := by
  have hfits : r.CanPush data ↔ q.queue.length + data.length ≤ cap := by
    rw [RawRing.CanPush, h.filled, h.capacity]
  have hempty : data.isEmpty = true → r.CanPush data := by
    intro hnil
    rw [List.isEmpty_iff] at hnil
    rw [hfits, hnil, List.length_nil]
    exact h.bounded
  simp only [step, Fifo.step]
  by_cases hfit : r.CanPush data
  · have hp := RawRing.push_eq h.wf hfit
    rw [if_pos (.inr hfit), if_pos (hfits.mp hfit), hp]
    refine .some ⟨spells_of_wf h.capacity (RawRing.push_wf h.wf hfit hp) ?_ h.interrupted, rfl⟩
    rw [RawRing.push_contents h.wf hfit hp, h.contents]
  · rw [if_neg (not_or.mpr ⟨mt hempty hfit, hfit⟩), if_neg (mt hfits.mpr hfit)]
    exact .none

theorem Spells.copyOut (h : Spells cap r q) (len : ℕ) :
    Agrees cap ((r.copyOut len).map fun (d, r) => (r, [d]))
      (some ({ q with queue := q.queue.drop len }, [q.queue.take len])) := by
  have hc := RawRing.copyOut_eq h.wf len
  obtain ⟨hd, hrest⟩ := RawRing.copyOut_contents h.wf hc
  have hwf := RawRing.copyOut_wf h.wf hc
  rw [hc]
  refine .some ⟨spells_of_wf h.capacity hwf ?_ h.interrupted, ?_⟩
  · rw [hrest, h.contents]
  · rw [h.contents]

theorem Spells.pop (h : Spells cap r q) (len : ℕ) :
    Agrees cap (step r (.pop len)) (q.step cap (.pop len)) := by
  cases hi : q.interrupted with
  | true =>
    have hr : r.interrupted = true := h.interrupted.trans hi
    have hpop : r.CanPop := .inl hr
    simp only [step, Fifo.step, if_pos hpop, RawRing.pop, hr, hi, if_true]
    exact .some ⟨spells_of_wf h.capacity ⟨h.wf.read_lt, h.wf.filled_le, h.wf.write_eq⟩
      h.contents rfl, rfl⟩
  | false =>
    have hr : r.interrupted = false := h.interrupted.trans hi
    have hpop : r.CanPop ↔ q.queue ≠ [] := by
      rw [RawRing.CanPop, hr, h.filled, List.length_pos_iff]
      simp
    simp only [step, Fifo.step, RawRing.pop, hr, hi, Bool.false_eq_true, if_false]
    by_cases hne : q.queue = []
    · rw [if_neg (fun hcan => hpop.mp hcan hne), if_pos hne]
      exact .none
    · rw [if_pos (hpop.mpr hne), if_neg hne, ← hi]
      exact h.copyOut len

theorem Spells.tryPop (h : Spells cap r q) (len : ℕ) :
    Agrees cap (step r (.tryPop len)) (q.step cap (.tryPop len)) := by
  cases hi : q.interrupted with
  | true =>
    have hr : r.interrupted = true := h.interrupted.trans hi
    simp only [step, Fifo.step, RawRing.tryPop, hr, hi, if_true]
    exact .some ⟨spells_of_wf h.capacity ⟨h.wf.read_lt, h.wf.filled_le, h.wf.write_eq⟩
      h.contents rfl, rfl⟩
  | false =>
    have hr : r.interrupted = false := h.interrupted.trans hi
    simp only [step, Fifo.step, RawRing.tryPop, hr, hi, Bool.false_eq_true, if_false]
    by_cases h0 : r.filled = 0
    · -- nothing there: the queue has nothing to give either
      have hnil : q.queue = [] := List.length_eq_zero_iff.mp (h.filled ▸ h0)
      rw [if_pos h0]
      refine .some ⟨spells_of_wf h.capacity h.wf ?_ hr, ?_⟩
      · rw [h.contents, hnil, List.drop_nil]
      · rw [hnil, List.take_nil]
    · rw [if_neg h0, ← hi]
      exact h.copyOut len

theorem Spells.step (h : Spells cap r q) (op : Op α) :
    Agrees cap (RingQueue.step r op) (q.step cap op) := by
  cases op with
  | push data => exact h.push data
  | pop len => exact h.pop len
  | tryPop len => exact h.tryPop len
  | clear => exact .some ⟨spells_of_wf h.capacity (RawRing.clear_wf h.wf) rfl h.interrupted, rfl⟩
  | interrupt =>
    exact .some ⟨spells_of_wf h.capacity ⟨h.wf.read_lt, h.wf.filled_le, h.wf.write_eq⟩
      h.contents rfl, rfl⟩

theorem spells_new [Inhabited α] (capacity : ℕ) :
    Spells (nextPowerOfTwo capacity) (RawRing.new capacity : RawRing α) Fifo.empty :=
  spells_of_wf rfl (RawRing.new_wf capacity) rfl rfl

/-- A buffer of any requested capacity and the queue of that capacity, rounded up to
a power of two, go through the same runs: they wait together, return the same data,
and after every step the buffer spells the queue. -/
theorem run_refines_fifo [Inhabited α] (capacity : ℕ) (ops : List (Op α)) :
    (∃ k, nextPowerOfTwo capacity = 2 ^ k ∧ capacity ≤ 2 ^ k ∧ ∀ j, capacity ≤ 2 ^ j → k ≤ j) ∧
      Agrees (nextPowerOfTwo capacity) (machine.run (RawRing.new capacity) ops)
        ((Fifo.machine (nextPowerOfTwo capacity)).run Fifo.empty ops) := by
  refine ⟨nextPowerOfTwo_least capacity, ?_⟩
  have hstep (r : RawRing α) (q : Fifo α) (op : Op α) (h : Spells (nextPowerOfTwo capacity) r q) :
      Agrees (nextPowerOfTwo capacity) (machine.step r op)
        ((Fifo.machine (nextPowerOfTwo capacity)).step q op) :=
    h.step op
  exact machine.run_refines hstep (spells_new capacity) ops

end Audiod.RingQueue
