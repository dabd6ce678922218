import Audiod.Circular
import Mathlib.Tactic.Ring

/-!
# The bounded byte ring (`common/src/ring.rs`)

`AudioRingBuffer` is modelled at the granularity of its mutex: one `push`,
`pop`, `try_pop` or `clear` is one step, taken when its wait condition lets it
through. Slice accesses are checked, an access past the end of the buffer
gives `none` (the source panics there). `Ring` is the buffer together with its
position invariant; its `contents` is the queue it stands for. The element
type is a parameter: no operation looks at an element.
-/

namespace Audiod

/-- `usize::next_power_of_two`: the least power of two that is at least `n`. -/
def nextPowerOfTwo (n : ℕ) : ℕ := if n ≤ 1 then 1 else 2 ^ (Nat.log2 (n - 1) + 1)

theorem nextPowerOfTwo_pos (n : ℕ) : 0 < nextPowerOfTwo n := by
  unfold nextPowerOfTwo
  split
  · exact Nat.one_pos
  · exact Nat.two_pow_pos _

theorem le_nextPowerOfTwo (n : ℕ) : n ≤ nextPowerOfTwo n := by
  unfold nextPowerOfTwo
  split
  · assumption
  · have h : n - 1 < 2 ^ (Nat.log2 (n - 1) + 1) := Nat.lt_log2_self
    omega

theorem nextPowerOfTwo_least (n : ℕ) :
    ∃ k, nextPowerOfTwo n = 2 ^ k ∧ n ≤ 2 ^ k ∧ ∀ j, n ≤ 2 ^ j → k ≤ j := by
  have hle := le_nextPowerOfTwo n
  unfold nextPowerOfTwo at hle ⊢
  split
  · exact ⟨0, rfl, by omega, fun j _ => Nat.zero_le j⟩
  · rename_i hn
    rw [if_neg hn] at hle
    refine ⟨_, rfl, hle, fun j hj => ?_⟩
    have hlog : Nat.log2 (n - 1) < j := (Nat.log2_lt (by omega)).mpr (by omega)
    omega

/-- The fields of `AudioRingBuffer` and its `Inner`. -/
structure RawRing (α : Type*) where
  cap : ℕ
  buf : ℕ → α
  readPos : ℕ
  writePos : ℕ
  filled : ℕ
  interrupted : Bool

namespace RawRing

variable {α : Type*}

/-- `buf[off..off + d.len()].copy_from_slice(d)`. -/
def copyIn (cap : ℕ) (buf : ℕ → α) (off : ℕ) (d : List α) : Option (ℕ → α) :=
  if off + d.length ≤ cap then some (store buf off d) else none

/-- `buf[off..off + len]`, read out. -/
def copyFrom (cap : ℕ) (buf : ℕ → α) (off len : ℕ) : Option (List α) :=
  if off + len ≤ cap then some (load buf off len) else none

/-- `if pos >= cap { pos -= cap }`. -/
def wrapPos (cap pos : ℕ) : ℕ := if cap ≤ pos then pos - cap else pos

def new [Inhabited α] (capacity : ℕ) : RawRing α :=
  ⟨nextPowerOfTwo capacity, fun _ => default, 0, 0, 0, false⟩

def available (r : RawRing α) : ℕ := r.cap - r.filled

/-- The loop condition of `push` is false: the producer is let through. -/
def CanPush (r : RawRing α) (data : List α) : Prop := r.filled + data.length ≤ r.cap

instance (r : RawRing α) (data : List α) : Decidable (r.CanPush data) :=
  inferInstanceAs (Decidable (_ ≤ _))

/-- `push` once its wait is over (`ring.rs:55-84`). -/
def push (r : RawRing α) (data : List α) : Option (RawRing α) :=
  if data.isEmpty then some r
  else
    let first := min data.length (r.cap - r.writePos)
    (copyIn r.cap r.buf r.writePos (data.take first)).bind fun buf =>
      if first < data.length then
        let remaining := data.drop first
        (copyIn r.cap buf 0 remaining).map fun buf =>
          { r with
            buf := buf
            writePos := wrapPos r.cap remaining.length
            filled := r.filled + data.length }
      else
        some { r with
          buf := buf
          writePos := wrapPos r.cap (r.writePos + first)
          filled := r.filled + data.length }

/-- `interrupt` (`ring.rs:88-91`). -/
def interrupt (r : RawRing α) : RawRing α := { r with interrupted := true }

/-- `copy_out` into a buffer of `len` cells (`ring.rs:95-113`). -/
def copyOut (r : RawRing α) (len : ℕ) : Option (List α × RawRing α) :=
  let toRead := min len r.filled
  let first := min toRead (r.cap - r.readPos)
  (copyFrom r.cap r.buf r.readPos first).bind fun a =>
    if first < toRead then
      (copyFrom r.cap r.buf 0 (toRead - first)).map fun b =>
        (a ++ b, { r with
          readPos := wrapPos r.cap (toRead - first)
          filled := r.filled - toRead })
    else
      some (a, { r with
        readPos := wrapPos r.cap (r.readPos + first)
        filled := r.filled - toRead })

/-- The wait of `pop` is over: an interrupt is pending or there is data. -/
def CanPop (r : RawRing α) : Prop := r.interrupted = true ∨ 0 < r.filled

instance (r : RawRing α) : Decidable r.CanPop := inferInstanceAs (Decidable (_ ∨ _))

/-- `pop` once its wait is over (`ring.rs:117-135`); an interrupt wins over
data and is consumed. -/
def pop (r : RawRing α) (len : ℕ) : Option (List α × RawRing α) :=
  if r.interrupted then some ([], { r with interrupted := false }) else r.copyOut len

/-- `try_pop` (`ring.rs:139-154`). -/
def tryPop (r : RawRing α) (len : ℕ) : Option (List α × RawRing α) :=
  if r.interrupted then some ([], { r with interrupted := false })
  else if r.filled = 0 then some ([], r)
  else r.copyOut len

/-- `clear` (`ring.rs:156-163`). -/
def clear (r : RawRing α) : RawRing α := { r with readPos := 0, writePos := 0, filled := 0 }

/-- The position invariant: the write position is `filled` cells behind the
read position, modulo the capacity. -/
structure WF (r : RawRing α) : Prop where
  read_lt : r.readPos < r.cap
  filled_le : r.filled ≤ r.cap
  write_eq : r.writePos = (r.readPos + r.filled) % r.cap

/-- The queue the buffer stands for, oldest cell first. -/
def contents (r : RawRing α) : List α := ringLoad r.cap r.buf r.readPos r.filled

theorem contents_length (r : RawRing α) : r.contents.length = r.filled :=
  ringLoad_length _ _ _ _

theorem WF.cap_pos {r : RawRing α} (h : r.WF) : 0 < r.cap := by
  have := h.read_lt
  omega

theorem WF.write_lt {r : RawRing α} (h : r.WF) : r.writePos < r.cap := by
  rw [h.write_eq]
  exact Nat.mod_lt _ h.cap_pos

theorem wrapPos_eq_mod {cap pos : ℕ} (h : pos < 2 * cap) :
    wrapPos cap pos = pos % cap := by
  unfold wrapPos
  split
  · rw [Nat.mod_eq_sub_mod (by omega), Nat.mod_eq_of_lt (by omega)]
  · rw [Nat.mod_eq_of_lt (by omega)]

theorem new_wf [Inhabited α] (capacity : ℕ) : (new capacity : RawRing α).WF := by
  have h := nextPowerOfTwo_pos capacity
  exact ⟨h, Nat.zero_le _, (Nat.zero_mod _).symm⟩

/- What `push` leaves behind, with both of its branches folded into one. -/
theorem push_eq {r : RawRing α} (h : r.WF) {data : List α} (hfit : r.CanPush data) :
    r.push data = some { r with
      buf := if data.isEmpty then r.buf else ringStore r.cap r.buf r.writePos data
      writePos := (r.writePos + data.length) % r.cap
      filled := r.filled + data.length } := by
  have hw := h.write_lt
  have hc := h.cap_pos
  have hle : data.length ≤ r.cap := by unfold CanPush at hfit; omega
  unfold push
  cases data with
  | nil =>
    simp only [List.isEmpty_nil, ite_true, List.length_nil, Nat.add_zero]
    rw [Nat.mod_eq_of_lt hw]
  | cons x xs =>
    generalize hd : x :: xs = d at *
    have hne : d.isEmpty = false := by rw [← hd]; rfl
    simp only [hne, Bool.false_eq_true, ite_false]
    have hin : r.writePos + (d.take (min d.length (r.cap - r.writePos))).length ≤ r.cap := by
      simp only [List.length_take]
      omega
    simp only [copyIn, hin, ite_true, Option.bind_some]
    by_cases hlt : min d.length (r.cap - r.writePos) < d.length
    · have hmin : min d.length (r.cap - r.writePos) = r.cap - r.writePos := by omega
      have hrem : 0 + (d.drop (min d.length (r.cap - r.writePos))).length ≤ r.cap := by
        simp only [List.length_drop]
        omega
      simp only [hlt, ite_true, hrem, Option.map_some, ringStore, Option.some.injEq]
      have hpos : wrapPos r.cap (d.drop (min d.length (r.cap - r.writePos))).length =
          (r.writePos + d.length) % r.cap := by
        rw [wrapPos_eq_mod (by simp only [List.length_drop]; omega), List.length_drop, hmin,
          Nat.mod_eq_sub_mod (by omega : r.writePos + d.length ≥ r.cap)]
        congr 1
        omega
      rw [hpos]
    · have hmin : min d.length (r.cap - r.writePos) = d.length := by omega
      simp only [hlt, ite_false, ringStore, Option.some.injEq]
      rw [wrapPos_eq_mod (by omega), hmin]

theorem push_wf {r r' : RawRing α} (h : r.WF) {data : List α} (hfit : r.CanPush data)
    (hp : r.push data = some r') : r'.WF := by
  rw [push_eq h hfit, Option.some.injEq] at hp
  subst hp
  refine ⟨h.read_lt, hfit, ?_⟩
  show (r.writePos + data.length) % r.cap = (r.readPos + (r.filled + data.length)) % r.cap
  rw [h.write_eq, Nat.mod_add_mod, Nat.add_assoc]

theorem push_contents {r r' : RawRing α} (h : r.WF) {data : List α} (hfit : r.CanPush data)
    (hp : r.push data = some r') : r'.contents = r.contents ++ data := by
  rw [push_eq h hfit, Option.some.injEq] at hp
  subst hp
  cases data with
  | nil => simp [contents]
  | cons x xs =>
    show ringLoad r.cap (ringStore r.cap r.buf r.writePos (x :: xs)) r.readPos
      (r.filled + (x :: xs).length) = _
    rw [h.write_eq]
    exact ringLoad_ringStore r.cap r.buf r.readPos r.filled (x :: xs) h.read_lt hfit

theorem copyOut_eq {r : RawRing α} (h : r.WF) (len : ℕ) :
    r.copyOut len = some (r.contents.take len, { r with
      readPos := (r.readPos + min len r.filled) % r.cap
      filled := r.filled - min len r.filled }) := by
  have hr := h.read_lt
  have hc := h.cap_pos
  have hf := h.filled_le
  have htake : r.contents.take len = ringLoad r.cap r.buf r.readPos (min len r.filled) := by
    have h1 : r.contents.take len = r.contents.take (min len r.filled) := by
      rw [← contents_length r, List.take_eq_take_min]
    rw [h1]
    exact ringLoad_take _ _ _ _ _ (Nat.min_le_right _ _)
  rw [htake]
  unfold copyOut
  generalize ht : min len r.filled = t
  have htc : t ≤ r.cap := by omega
  have hin : r.readPos + min t (r.cap - r.readPos) ≤ r.cap := by omega
  rw [← load_split r.cap r.buf r.readPos t hr htc]
  simp only [copyFrom, hin, ite_true, Option.bind_some]
  by_cases hlt : min t (r.cap - r.readPos) < t
  · have hmin : min t (r.cap - r.readPos) = r.cap - r.readPos := by omega
    have hrem : 0 + (t - min t (r.cap - r.readPos)) ≤ r.cap := by omega
    simp only [hlt, ite_true, hrem, Option.map_some, Option.some.injEq]
    have hpos : wrapPos r.cap (t - min t (r.cap - r.readPos)) = (r.readPos + t) % r.cap := by
      rw [wrapPos_eq_mod (by omega), Nat.mod_eq_sub_mod (by omega : r.readPos + t ≥ r.cap)]
      congr 1
      omega
    rw [hpos]
  · have hmin : min t (r.cap - r.readPos) = t := by omega
    simp only [hmin, lt_irrefl, ite_false, Nat.sub_self]
    rw [wrapPos_eq_mod (by omega)]
    simp [load]

theorem copyOut_wf {r r' : RawRing α} (h : r.WF) {len : ℕ} {d : List α}
    (hp : r.copyOut len = some (d, r')) : r'.WF := by
  rw [copyOut_eq h, Option.some.injEq, Prod.mk.injEq] at hp
  obtain ⟨-, rfl⟩ := hp
  have hf := h.filled_le
  refine ⟨Nat.mod_lt _ h.cap_pos, by simp only; omega, ?_⟩
  show r.writePos = ((r.readPos + min len r.filled) % r.cap + (r.filled - min len r.filled)) % r.cap
  rw [h.write_eq, Nat.mod_add_mod]
  congr 1
  omega

theorem copyOut_contents {r r' : RawRing α} (h : r.WF) {len : ℕ} {d : List α}
    (hp : r.copyOut len = some (d, r')) :
    d = r.contents.take len ∧ r'.contents = r.contents.drop len := by
  rw [copyOut_eq h, Option.some.injEq, Prod.mk.injEq] at hp
  obtain ⟨rfl, rfl⟩ := hp
  refine ⟨rfl, ?_⟩
  have h1 : r.contents.drop len = r.contents.drop (min len r.filled) := by
    by_cases hl : len ≤ r.filled
    · rw [Nat.min_eq_left hl]
    · rw [List.drop_eq_nil_of_le (by rw [contents_length]; omega),
        List.drop_eq_nil_of_le (by rw [contents_length]; omega)]
  rw [h1]
  exact (ringLoad_drop _ _ _ _ _ (Nat.min_le_right _ _)).symm

theorem clear_wf {r : RawRing α} (h : r.WF) : r.clear.WF :=
  ⟨h.cap_pos, Nat.zero_le _, (Nat.zero_mod _).symm⟩

end RawRing

/-! ### The ring with its invariant -/

/-- A ring whose positions are consistent: no other ring can be built. -/
structure Ring (α : Type*) where
  raw : RawRing α
  wf : raw.WF

namespace Ring

variable {α : Type*}

def new [Inhabited α] (capacity : ℕ) : Ring α := ⟨RawRing.new capacity, RawRing.new_wf capacity⟩

def capacity (r : Ring α) : ℕ := r.raw.cap

def filled (r : Ring α) : ℕ := r.raw.filled

def contents (r : Ring α) : List α := r.raw.contents

/-- `push`, blocked (`none`) as long as the data does not fit. -/
def push (r : Ring α) (data : List α) : Option (Ring α) :=
  if hfit : r.raw.CanPush data then
    match hp : r.raw.push data with
    | none => none
    | some raw => some ⟨raw, RawRing.push_wf r.wf hfit hp⟩
  else none

/-- `copy_out`, which the invariant keeps inside the buffer. -/
def take (r : Ring α) (len : ℕ) : List α × Ring α :=
  match hp : r.raw.copyOut len with
  | none => ([], r)
  | some (d, raw) => (d, ⟨raw, RawRing.copyOut_wf r.wf hp⟩)

def setInterrupted (r : Ring α) (b : Bool) : Ring α :=
  ⟨{ r.raw with interrupted := b }, ⟨r.wf.read_lt, r.wf.filled_le, r.wf.write_eq⟩⟩

def interrupt (r : Ring α) : Ring α := ⟨r.raw.interrupt, (r.setInterrupted true).wf⟩

/-- `pop`, blocked (`none`) on an empty ring that is not interrupted. -/
def pop (r : Ring α) (len : ℕ) : Option (List α × Ring α) :=
  if r.raw.interrupted then some ([], r.setInterrupted false)
  else if r.raw.filled = 0 then none
  else some (r.take len)

def tryPop (r : Ring α) (len : ℕ) : List α × Ring α :=
  if r.raw.interrupted then ([], r.setInterrupted false)
  else if r.raw.filled = 0 then ([], r)
  else r.take len

def clear (r : Ring α) : Ring α := ⟨r.raw.clear, RawRing.clear_wf r.wf⟩

theorem contents_length (r : Ring α) : r.contents.length = r.filled := r.raw.contents_length

@[simp] theorem contents_new [Inhabited α] (capacity : ℕ) :
    (new capacity : Ring α).contents = [] := rfl

@[simp] theorem filled_new [Inhabited α] (capacity : ℕ) : (new capacity : Ring α).filled = 0 := rfl

theorem contents_eq_nil {r : Ring α} : r.contents = [] ↔ r.filled = 0 := by
  rw [← contents_length, List.length_eq_zero_iff]

@[simp] theorem contents_clear (r : Ring α) : r.clear.contents = [] := rfl

@[simp] theorem filled_clear (r : Ring α) : r.clear.filled = 0 := rfl

/-- A push is let through exactly when it fits, and then appends its data. -/
theorem push_spec {r r' : Ring α} {data : List α} (h : r.push data = some r') :
    r.filled + data.length ≤ r.capacity ∧ r'.contents = r.contents ++ data ∧
      r'.capacity = r.capacity ∧ r'.raw.interrupted = r.raw.interrupted := by
  unfold push at h
  split at h
  · rename_i hfit
    split at h
    · cases h
    · rename_i raw hp
      simp only [Option.some.injEq] at h
      subst h
      refine ⟨hfit, RawRing.push_contents r.wf hfit hp, ?_⟩
      rw [RawRing.push_eq r.wf hfit, Option.some.injEq] at hp
      subst hp
      exact ⟨rfl, rfl⟩
  · cases h

theorem push_isSome {r : Ring α} {data : List α} (h : r.filled + data.length ≤ r.capacity) :
    ∃ r', r.push data = some r' := by
  have hfit : r.raw.CanPush data := h
  unfold push
  rw [dif_pos hfit]
  split
  · rename_i hp
    rw [RawRing.push_eq r.wf hfit] at hp
    cases hp
  · exact ⟨_, rfl⟩

theorem take_spec (r : Ring α) (len : ℕ) :
    (r.take len).1 = r.contents.take len ∧ (r.take len).2.contents = r.contents.drop len ∧
      (r.take len).2.capacity = r.capacity ∧
      (r.take len).2.raw.interrupted = r.raw.interrupted := by
  unfold take
  split
  · rename_i hp
    rw [RawRing.copyOut_eq r.wf] at hp
    cases hp
  · rename_i d raw hp
    have hc := RawRing.copyOut_contents r.wf hp
    refine ⟨hc.1, hc.2, ?_⟩
    rw [RawRing.copyOut_eq r.wf, Option.some.injEq, Prod.mk.injEq] at hp
    obtain ⟨-, rfl⟩ := hp
    exact ⟨rfl, rfl⟩

theorem pop_cases {r r' : Ring α} {len : ℕ} {d : List α} (h : r.pop len = some (d, r')) :
    d = [] ∧ r'.contents = r.contents ∨
      d = r.contents.take len ∧ r'.contents = r.contents.drop len := by
  unfold pop at h
  split at h
  · cases h
    exact .inl ⟨rfl, rfl⟩
  · split at h
    · cases h
    · obtain ⟨hd, hrest, -, -⟩ := take_spec r len
      rw [Option.some.inj h] at hd hrest
      exact .inr ⟨hd, hrest⟩

theorem pop_append {r r' : Ring α} {len : ℕ} {d : List α} (h : r.pop len = some (d, r')) :
    d ++ r'.contents = r.contents := by
  rcases pop_cases h with ⟨hd, hrest⟩ | ⟨hd, hrest⟩
  · rw [hd, hrest, List.nil_append]
  · rw [hd, hrest, List.take_append_drop]

theorem pop_capacity {r r' : Ring α} {len : ℕ} {d : List α} (h : r.pop len = some (d, r')) :
    r'.capacity = r.capacity := by
  unfold pop at h
  split at h
  · cases h
    rfl
  · split at h
    · cases h
    · obtain ⟨-, -, hcap, -⟩ := take_spec r len
      rw [Option.some.inj h] at hcap
      exact hcap

/- `pop` on a ring nobody interrupts: it waits for data and removes a prefix. -/
theorem pop_spec {r r' : Ring α} {len : ℕ} {d : List α} (hi : r.raw.interrupted = false)
    (h : r.pop len = some (d, r')) :
    r.contents ≠ [] ∧ d = r.contents.take len ∧ r'.contents = r.contents.drop len ∧
      r'.capacity = r.capacity ∧ r'.raw.interrupted = false := by
  have ht := take_spec r len
  simp only [pop, hi, Bool.false_eq_true, ite_false] at h
  split at h
  · cases h
  · rename_i hne
    simp only [Option.some.injEq] at h
    rw [h] at ht
    refine ⟨fun hc => hne (contents_eq_nil.mp hc), ht.1, ht.2.1, ht.2.2.1, ?_⟩
    rw [ht.2.2.2, hi]

theorem pop_isSome {r : Ring α} (len : ℕ) (hi : r.raw.interrupted = false)
    (hne : r.contents ≠ []) : ∃ p, r.pop len = some p := by
  have h0 : ¬r.raw.filled = 0 := fun h => hne (contents_eq_nil.mpr h)
  simp only [pop, hi, Bool.false_eq_true, ite_false, if_neg h0]
  exact ⟨_, rfl⟩

theorem tryPop_length_le (r : Ring α) (len : ℕ) : (r.tryPop len).1.length ≤ len := by
  unfold tryPop
  split
  · exact Nat.zero_le len
  · split
    · exact Nat.zero_le len
    · rw [(take_spec r len).1]
      exact List.length_take_le len _

theorem tryPop_spec {r : Ring α} (len : ℕ) (hi : r.raw.interrupted = false) :
    (r.tryPop len).1 = r.contents.take len ∧ (r.tryPop len).2.contents = r.contents.drop len ∧
      (r.tryPop len).2.capacity = r.capacity ∧ (r.tryPop len).2.raw.interrupted = false := by
  have ht := take_spec r len
  unfold tryPop
  simp only [hi, Bool.false_eq_true, ite_false]
  split
  · rename_i h0
    have hnil : r.contents = [] := contents_eq_nil.mpr h0
    simp [hnil, hi]
  · exact ⟨ht.1, ht.2.1, ht.2.2.1, ht.2.2.2.trans hi⟩

end Ring

end Audiod
