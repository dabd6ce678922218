import Mathlib.Algebra.Order.Floor.Ring
import Mathlib.Data.Rat.Floor
import Mathlib.Tactic.Linarith

/-!
# A playhead against a real queue

A device of `size` frames reports as its delay what has been pushed, less what a
playhead has passed, on top of a baseline of `base` frames. The playhead runs with
time; a real queue plays at the same rate and stops when it is empty. What the
playhead has gained on the queue never comes back.
-/

namespace Audiod

structure Backlog where
  pushed : ℤ
  played : ℚ
  queue : ℚ

namespace Backlog

def delay (base size : ℤ) (b : Backlog) : ℤ :=
  min (max (b.pushed - ⌊b.played⌋) 0 + base) size

def write (b : Backlog) (n : ℕ) : Backlog :=
  { b with pushed := b.pushed + n, queue := b.queue + n }

/-- Time for `x` frames. -/
def elapse (b : Backlog) (x : ℚ) : Backlog :=
  { b with played := b.played + x, queue := b.queue - min b.queue x }

/-- How far the playhead is ahead of the queue. -/
def drift (b : Backlog) : ℚ := b.played - b.pushed + b.queue

/-- A write of `n` frames is within the room there is. -/
def Room (base size : ℤ) (b : Backlog) (n : ℕ) : Prop :=
  b.pushed + n - ⌊b.played⌋ ≤ size - base

structure Bounded (base size : ℤ) (b : Backlog) : Prop where
  room : b.Room base size 0
  nonneg : 0 ≤ b.queue
  behind : b.queue ≤ base ∨ b.drift ≤ base

variable {base size : ℤ} {b : Backlog}

theorem bounded_empty (hbase : 0 ≤ base) (hsize : base ≤ size) :
    (⟨0, 0, 0⟩ : Backlog).Bounded base size := by
  have hq : (0 : ℚ) ≤ base := by exact_mod_cast hbase
  refine ⟨?_, le_refl 0, .inl hq⟩
  simp only [Room, Int.floor_zero]
  omega

theorem Bounded.delay_eq (h : b.Bounded base size) (hbase : base ≤ size) :
    b.delay base size = max (b.pushed - ⌊b.played⌋) 0 + base := by
  have hroom := h.room
  unfold Room at hroom
  unfold delay
  omega

/-- The delay covers the queue. -/
theorem Bounded.queue_le_delay (h : b.Bounded base size) (hbase : base ≤ size) :
    b.queue ≤ b.delay base size := by
  rw [h.delay_eq hbase]
  push_cast
  have hmax := le_max_left ((b.pushed - ⌊b.played⌋ : ℤ) : ℚ) 0
  have hmax0 := le_max_right ((b.pushed - ⌊b.played⌋ : ℤ) : ℚ) 0
  push_cast at hmax hmax0
  rcases h.behind with hq | hd
  · linarith
  · have hfloor := Int.floor_le b.played
    unfold drift at hd
    linarith

theorem Bounded.queue_le_size (h : b.Bounded base size) (hbase : base ≤ size) :
    b.queue ≤ size := by
  have hdelay : b.delay base size ≤ size := min_le_right _ _
  calc b.queue ≤ b.delay base size := h.queue_le_delay hbase
    _ ≤ size := by exact_mod_cast hdelay

theorem Bounded.room_of_le (h : b.Bounded base size) (hbase : base ≤ size) {n : ℕ}
    (hn : (n : ℤ) ≤ size - b.delay base size) : b.Room base size n := by
  rw [h.delay_eq hbase] at hn
  unfold Room
  omega

theorem Room.elapse {n : ℕ} (h : b.Room base size n) {x : ℚ} (hx : 0 ≤ x) :
    (b.elapse x).Room base size n := by
  have hmono : ⌊b.played⌋ ≤ ⌊b.played + x⌋ := Int.floor_le_floor (by linarith)
  unfold Room at h ⊢
  show b.pushed + n - ⌊b.played + x⌋ ≤ size - base
  omega

/-- Time passes: the queue shrinks, and the playhead gains only on an empty queue. -/
theorem Bounded.elapse (h : b.Bounded base size) (hbase : 0 ≤ base) {x : ℚ} (hx : 0 ≤ x) :
    (b.elapse x).Bounded base size := by
  have hq := h.nonneg
  refine ⟨h.room.elapse hx, ?_, ?_⟩
  · show 0 ≤ b.queue - min b.queue x
    linarith [min_le_left b.queue x]
  · show b.queue - min b.queue x ≤ base ∨
      b.played + x - b.pushed + (b.queue - min b.queue x) ≤ base
    rcases le_total b.queue x with hle | hle
    · rw [min_eq_left hle, sub_self]
      exact .inl (by exact_mod_cast hbase)
    · rw [min_eq_right hle]
      rcases h.behind with hlow | hd
      · exact .inl (by linarith)
      · unfold drift at hd
        exact .inr (by linarith)

/-- A write within the room: all is well if the playhead is not too far ahead, or if
the queue stays short. -/
theorem Bounded.write (h : b.Bounded base size) {n : ℕ} (hroom : b.Room base size n)
    (hd : b.drift ≤ base ∨ b.queue + n ≤ base) : (b.write n).Bounded base size := by
  have hq := h.nonneg
  refine ⟨?_, ?_, ?_⟩
  · unfold Room at hroom ⊢
    show b.pushed + n + (0 : ℕ) - ⌊b.played⌋ ≤ size - base
    omega
  · show 0 ≤ b.queue + n
    have hn : (0 : ℚ) ≤ n := Nat.cast_nonneg n
    linarith
  · rcases hd with hdrift | hlow
    · unfold drift at hdrift
      right
      show b.played - ((b.pushed + n : ℤ) : ℚ) + (b.queue + n) ≤ base
      push_cast
      linarith
    · exact .inl hlow

end Backlog

end Audiod
