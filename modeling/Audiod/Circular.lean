import Mathlib.Data.List.Basic
import Mathlib.Data.List.Range
import Mathlib.Logic.Function.Basic
import Mathlib.Tactic.Common

/-!
# Circular memories

A memory of `n` cells is a function on indices, read and written below `n`
only. `ringStore` writes a block in at most two pieces, as code that wraps at
the end of a buffer does, and `ringLoad` reads a block of consecutive cells
modulo `n`. The lemmas say that a block written right behind a loaded one
extends it, and that a load may be shortened at either end.
-/

namespace Audiod

variable {α : Type*}

/-- Overwrite the cells from `off` on by `d`. -/
def store (m : ℕ → α) (off : ℕ) (d : List α) : ℕ → α := fun i =>
  if off ≤ i then (d[i - off]?).getD (m i) else m i

/-- The `len` cells from `off` on. -/
def load (m : ℕ → α) (off len : ℕ) : List α := (List.range len).map fun j => m (off + j)

/-- Write `d` from `pos` on, the part past the end of the memory at its start. -/
def ringStore (n : ℕ) (m : ℕ → α) (pos : ℕ) (d : List α) : ℕ → α :=
  let first := min d.length (n - pos)
  let m' := store m pos (d.take first)
  if first < d.length then store m' 0 (d.drop first) else m'

/-- The `len` cells from `pos` on, wrapping at `n`. -/
def ringLoad (n : ℕ) (m : ℕ → α) (pos len : ℕ) : List α :=
  (List.range len).map fun j => m ((pos + j) % n)

theorem load_length (m : ℕ → α) (off len : ℕ) : (load m off len).length = len := by
  simp [load]

theorem ringLoad_length (n : ℕ) (m : ℕ → α) (pos len : ℕ) :
    (ringLoad n m pos len).length = len := by
  simp [ringLoad]

theorem ringLoad_zero (n : ℕ) (m : ℕ → α) (pos : ℕ) : ringLoad n m pos 0 = [] := rfl

theorem ringLoad_getElem? (n : ℕ) (m : ℕ → α) (pos len j : ℕ) (hj : j < len) :
    (ringLoad n m pos len)[j]? = some (m ((pos + j) % n)) := by
  simp [ringLoad, hj]

theorem ringLoad_congr {n : ℕ} {m m' : ℕ → α} {pos len : ℕ}
    (h : ∀ j < len, m ((pos + j) % n) = m' ((pos + j) % n)) :
    ringLoad n m pos len = ringLoad n m' pos len := by
  simp only [ringLoad]
  exact List.map_congr_left fun j hj => h j (List.mem_range.mp hj)

theorem ringLoad_add (n : ℕ) (m : ℕ → α) (pos a b : ℕ) :
    ringLoad n m pos (a + b) = ringLoad n m pos a ++ ringLoad n m ((pos + a) % n) b := by
  simp only [ringLoad, List.range_add, List.map_append, List.map_map]
  congr 1
  apply List.map_congr_left
  intro j _
  simp only [Function.comp_apply, Nat.mod_add_mod, Nat.add_assoc]

theorem ringLoad_succ (n : ℕ) (m : ℕ → α) (pos len : ℕ) (hp : pos < n) :
    ringLoad n m pos (len + 1) = m pos :: ringLoad n m ((pos + 1) % n) len := by
  rw [Nat.add_comm, ringLoad_add]
  simp [ringLoad, Nat.mod_eq_of_lt hp]

theorem ringLoad_take (n : ℕ) (m : ℕ → α) (pos len k : ℕ) (hk : k ≤ len) :
    (ringLoad n m pos len).take k = ringLoad n m pos k := by
  obtain ⟨r, rfl⟩ := Nat.exists_eq_add_of_le hk
  rw [ringLoad_add]
  exact List.take_left' (ringLoad_length n m pos k)

theorem ringLoad_drop (n : ℕ) (m : ℕ → α) (pos len k : ℕ) (hk : k ≤ len) :
    (ringLoad n m pos len).drop k = ringLoad n m ((pos + k) % n) (len - k) := by
  obtain ⟨r, rfl⟩ := Nat.exists_eq_add_of_le hk
  rw [ringLoad_add, Nat.add_sub_cancel_left]
  exact List.drop_left' (ringLoad_length n m pos k)

theorem load_congr {m m' : ℕ → α} {off len : ℕ} (h : ∀ j < len, m (off + j) = m' (off + j)) :
    load m off len = load m' off len :=
  List.map_congr_left fun j hj => h j (List.mem_range.mp hj)

theorem store_congr {m m' : ℕ → α} {i : ℕ} (h : m i = m' i) (off : ℕ) (d : List α) :
    store m off d i = store m' off d i := by
  rw [store, store, h]

theorem load_store_self (m : ℕ → α) (off : ℕ) (d : List α) :
    load (store m off d) off d.length = d := by
  apply List.ext_getElem?
  intro j
  by_cases hj : j < d.length
  · have hcell : store m off d (off + j) = d[j] := by
      rw [store, if_pos (Nat.le_add_right off j), Nat.add_sub_cancel_left,
        List.getElem?_eq_getElem hj, Option.getD_some]
    simp only [load, List.getElem?_map, List.getElem?_range hj, Option.map_some]
    rw [hcell, List.getElem?_eq_getElem hj]
  · rw [List.getElem?_eq_none (by rw [load_length]; omega), List.getElem?_eq_none (by omega)]

theorem load_store_of_disjoint (m : ℕ → α) {off pos len : ℕ} {d : List α}
    (h : pos + len ≤ off ∨ off + d.length ≤ pos) :
    load (store m off d) pos len = load m pos len := by
  apply List.map_congr_left
  intro j hj
  have hlt : j < len := List.mem_range.mp hj
  rw [store]
  split
  · rw [List.getElem?_eq_none (by omega), Option.getD_none]
  · rfl

/- Reading in two pieces, up to the end of the memory and from its start. -/
theorem load_split (n : ℕ) (m : ℕ → α) (pos len : ℕ) (hp : pos < n) (hl : len ≤ n) :
    load m pos (min len (n - pos)) ++ load m 0 (len - min len (n - pos)) =
      ringLoad n m pos len := by
  apply List.ext_getElem?
  intro j
  by_cases hj : j < len
  · rw [ringLoad_getElem? n m pos len j hj]
    by_cases hf : j < min len (n - pos)
    · rw [List.getElem?_append_left (by rw [load_length]; exact hf)]
      simp only [load, List.getElem?_map, List.getElem?_range hf, Option.map_some]
      rw [Nat.mod_eq_of_lt (by omega)]
    · rw [List.getElem?_append_right (by rw [load_length]; omega), load_length]
      have hr : j - min len (n - pos) < len - min len (n - pos) := by omega
      simp only [load, List.getElem?_map, List.getElem?_range hr, Option.map_some]
      have hw : (pos + j) % n = 0 + (j - min len (n - pos)) := by
        rw [Nat.mod_eq_sub_mod (by omega), Nat.mod_eq_of_lt (by omega)]
        omega
      rw [hw]
  · have h1 : len ≤ j := by omega
    rw [List.getElem?_eq_none (by simp only [List.length_append, load_length]; omega),
      List.getElem?_eq_none (by rw [ringLoad_length]; exact h1)]

theorem ringStore_apply (n : ℕ) (m : ℕ → α) (pos : ℕ) (d : List α) (i : ℕ)
    (hp : pos < n) (hd : d.length ≤ n) (hi : i < n) :
    ringStore n m pos d i = (d[(i + n - pos) % n]?).getD (m i) := by
  have hidx : (i + n - pos) % n = if pos ≤ i then i - pos else i + n - pos := by
    split
    · rw [show i + n - pos = i - pos + n by omega, Nat.add_mod_right, Nat.mod_eq_of_lt (by omega)]
    · rw [Nat.mod_eq_of_lt (by omega)]
  rw [hidx]
  by_cases hw : d.length ≤ n - pos
  · have hf : min d.length (n - pos) = d.length := by omega
    simp only [ringStore, hf, lt_irrefl, ite_false, List.take_length, store]
    split
    · rfl
    · rw [List.getElem?_eq_none (by omega), Option.getD_none]
  · have hf : min d.length (n - pos) = n - pos := by omega
    have hlt : n - pos < d.length := by omega
    simp only [ringStore, hf, hlt, ite_true, store, Nat.zero_le, Nat.sub_zero, List.getElem?_drop,
      List.getElem?_take]
    by_cases hpi : pos ≤ i
    · have h1 : d[n - pos + i]? = none := List.getElem?_eq_none (by omega)
      have h2 : i - pos < n - pos := by omega
      simp only [h1, Option.getD_none, hpi, ite_true, h2]
    · have h3 : i + n - pos = n - pos + i := by omega
      simp only [hpi, ite_false, h3]

/-- Bytes written right behind a loaded block extend the block. -/
theorem ringLoad_ringStore (n : ℕ) (m : ℕ → α) (pos len : ℕ) (d : List α)
    (hp : pos < n) (hfit : len + d.length ≤ n) :
    ringLoad n (ringStore n m ((pos + len) % n) d) pos (len + d.length) =
      ringLoad n m pos len ++ d := by
  have hn : 0 < n := by omega
  rw [ringLoad_add]
  congr 1
  · apply ringLoad_congr
    intro j hj
    rw [ringStore_apply n m _ d _ (Nat.mod_lt _ hn) (by omega) (Nat.mod_lt _ hn)]
    -- `j` cells behind `pos` is `n + j - len` cells behind the write position.
    have hidx : ((pos + j) % n + n - (pos + len) % n) % n = n + j - len := by
      have e1 : (pos + j) % n = if pos + j < n then pos + j else pos + j - n := by
        split
        · exact Nat.mod_eq_of_lt ‹_›
        · rw [Nat.mod_eq_sub_mod (by omega), Nat.mod_eq_of_lt (by omega)]
      have e2 : (pos + len) % n = if pos + len < n then pos + len else pos + len - n := by
        split
        · exact Nat.mod_eq_of_lt ‹_›
        · rw [Nat.mod_eq_sub_mod (by omega), Nat.mod_eq_of_lt (by omega)]
      rw [e1, e2]
      split <;> split
      · rw [Nat.mod_eq_of_lt (by omega)]; omega
      · rw [Nat.mod_eq_sub_mod (by omega), Nat.mod_eq_of_lt (by omega)]; omega
      · omega
      · rw [Nat.mod_eq_of_lt (by omega)]; omega
    rw [hidx, List.getElem?_eq_none (by omega), Option.getD_none]
  · apply List.ext_getElem?
    intro j
    by_cases hj : j < d.length
    · rw [ringLoad_getElem? _ _ _ _ _ hj,
        ringStore_apply n m _ d _ (Nat.mod_lt _ hn) (by omega) (Nat.mod_lt _ hn)]
      have hidx : (((pos + len) % n + j) % n + n - (pos + len) % n) % n = j := by
        have hb : (pos + len) % n < n := Nat.mod_lt _ hn
        generalize (pos + len) % n = b at hb
        by_cases hw : b + j < n
        · rw [Nat.mod_eq_of_lt hw, Nat.mod_eq_sub_mod (by omega), Nat.mod_eq_of_lt (by omega)]
          omega
        · rw [Nat.mod_eq_sub_mod (by omega : b + j ≥ n),
            Nat.mod_eq_of_lt (by omega : b + j - n < n), Nat.mod_eq_of_lt (by omega)]
          omega
      rw [hidx, List.getElem?_eq_getElem hj, Option.getD_some]
    · rw [List.getElem?_eq_none (by rw [ringLoad_length]; omega),
        List.getElem?_eq_none (by omega)]

/-! ### Pointer pairs -/

/-- The cells behind the read pointer up to and with the one at the write
pointer, for two pointers that move one cell ahead before they access it. -/
def between (n : ℕ) (m : ℕ → α) (rp wp : ℕ) : List α :=
  ringLoad n m ((rp + 1) % n) ((wp + n - rp) % n)

theorem between_length {n : ℕ} {m : ℕ → α} {rp wp : ℕ} :
    (between n m rp wp).length = (wp + n - rp) % n := ringLoad_length _ _ _ _

theorem between_congr {n : ℕ} {m m' : ℕ → α} {rp wp : ℕ} (hn : 0 < n) (h : ∀ i < n, m i = m' i) :
    between n m rp wp = between n m' rp wp :=
  ringLoad_congr fun _ _ => h _ (Nat.mod_lt _ hn)

theorem between_self {n : ℕ} (m : ℕ → α) (p : ℕ) : between n m p p = [] := by
  have hz : (p + n - p) % n = 0 := by rw [Nat.add_sub_cancel_left, Nat.mod_self]
  rw [between, hz, ringLoad_zero]

theorem ahead_eq {n rp wp : ℕ} (hr : rp < n) (hw : wp < n) :
    (wp + n - rp) % n = if rp ≤ wp then wp - rp else wp + n - rp := by
  split
  · rw [Nat.mod_eq_sub_mod (by omega), Nat.mod_eq_of_lt (by omega)]
    omega
  · exact Nat.mod_eq_of_lt (by omega)

theorem next_eq {n p : ℕ} (hp : p < n) : (p + 1) % n = if p + 1 < n then p + 1 else 0 := by
  split
  · exact Nat.mod_eq_of_lt ‹_›
  · rw [show p + 1 = n by omega, Nat.mod_self]

theorem between_of_ne {n : ℕ} (m : ℕ → α) {rp wp : ℕ} (hr : rp < n) (hw : wp < n) (hne : rp ≠ wp) :
    between n m rp wp = m ((rp + 1) % n) :: between n m ((rp + 1) % n) wp := by
  have hn : 0 < n := by omega
  have hnext : (rp + 1) % n < n := Nat.mod_lt _ hn
  have hlen : (wp + n - rp) % n = (wp + n - (rp + 1) % n) % n + 1 := by
    rw [ahead_eq hr hw, ahead_eq hnext hw, next_eq hr]
    split <;> split <;> split <;> omega
  rw [between, hlen, ringLoad_succ n m _ _ hnext, between]

theorem between_eq_nil {n : ℕ} {m : ℕ → α} {rp wp : ℕ} (hr : rp < n) (hw : wp < n) :
    between n m rp wp = [] ↔ rp = wp := by
  constructor
  · intro h
    by_contra hne
    rw [between_of_ne m hr hw hne] at h
    cases h
  · intro h
    rw [h, between_self]

theorem mem_between {n : ℕ} {m : ℕ → α} {rp wp : ℕ} {e : α} :
    e ∈ between n m rp wp ↔ ∃ j < (wp + n - rp) % n, m (((rp + 1) % n + j) % n) = e := by
  simp [between, ringLoad]

theorem cell_eq {n rp j : ℕ} (hr : rp < n) (hj : j < n) :
    ((rp + 1) % n + j) % n = if rp + 1 + j < n then rp + 1 + j else rp + 1 + j - n := by
  rw [Nat.mod_add_mod]
  split
  · exact Nat.mod_eq_of_lt ‹_›
  · rw [Nat.mod_eq_sub_mod (by omega), Nat.mod_eq_of_lt (by omega)]

/- What a write to one cell adds to the cells between two pointers. -/
theorem mem_between_update {n : ℕ} {m : ℕ → α} {rp wp i : ℕ} {x e : α}
    (h : e ∈ between n (Function.update m i x) rp wp) : e = x ∨ e ∈ between n m rp wp := by
  obtain ⟨j, hj, he⟩ := mem_between.mp h
  rw [Function.update_apply] at he
  split at he
  · exact .inl he.symm
  · exact .inr (mem_between.mpr ⟨j, hj, he⟩)

/- The writer advances. When it catches up with the reader, nothing is left to
read. -/
theorem mem_between_advance {n : ℕ} {m : ℕ → α} {rp wp : ℕ} {x e : α} (hr : rp < n) (hw : wp < n)
    (h : e ∈ between n (Function.update m ((wp + 1) % n) x) rp ((wp + 1) % n)) :
    e = x ∨ e ∈ between n m rp wp := by
  have hnext : (wp + 1) % n < n := Nat.mod_lt _ (by omega)
  obtain ⟨j, hj, he⟩ := mem_between.mp h
  have hjn : j < n := Nat.lt_trans hj (Nat.mod_lt _ (by omega))
  rw [Function.update_apply] at he
  split at he
  · exact .inl he.symm
  · rename_i hne
    refine .inr (mem_between.mpr ⟨j, ?_, he⟩)
    -- Only the last cell of the longer range is not in the old one.
    rw [ahead_eq hr hnext, next_eq hw] at hj
    rw [cell_eq hr hjn, next_eq hw] at hne
    rw [ahead_eq hr hw]
    split at hj <;> split at hj <;> split at hne <;> split <;> omega

/- The writer is one cell short of the reader when all cells but one are taken. -/
theorem next_eq_iff {n : ℕ} (m : ℕ → α) {rp wp : ℕ} (hr : rp < n) (hw : wp < n) :
    (wp + 1) % n = rp ↔ (between n m rp wp).length + 1 = n := by
  rw [between_length, ahead_eq hr hw, next_eq hw]
  split <;> split <;> omega

theorem ahead_ne_next {n rp wp j : ℕ} (hr : rp < n) (hw : wp < n) (hj : j < (wp + n - rp) % n) :
    ((rp + 1) % n + j) % n ≠ (wp + 1) % n := by
  have hjn : j < n := Nat.lt_trans hj (Nat.mod_lt _ (by omega))
  rw [ahead_eq hr hw] at hj
  rw [cell_eq hr hjn, next_eq hw]
  split at hj <;> split <;> split <;> omega

/- The cell the writer takes next may be written before it is published. -/
theorem between_update_next {n : ℕ} {m : ℕ → α} {rp wp : ℕ} (hr : rp < n) (hw : wp < n) (x : α) :
    between n (Function.update m ((wp + 1) % n) x) rp wp = between n m rp wp :=
  ringLoad_congr fun _ hj => Function.update_of_ne (ahead_ne_next hr hw hj) _ _

theorem next_not_mem_between {n : ℕ} {f : ℕ → α} (hf : Function.Injective f) {rp wp : ℕ}
    (hr : rp < n) (hw : wp < n) : f ((wp + 1) % n) ∉ between n f rp wp := by
  intro h
  obtain ⟨j, hj, he⟩ := mem_between.mp h
  exact ahead_ne_next hr hw hj (hf he)

/-- A cell written behind the others, while there is room, is the last one. -/
theorem between_push {n : ℕ} {m : ℕ → α} {rp wp : ℕ} (hr : rp < n) (hw : wp < n)
    (hroom : (between n m rp wp).length + 1 < n) (x : α) :
    between n (Function.update m ((wp + 1) % n) x) rp ((wp + 1) % n) =
      between n m rp wp ++ [x] := by
  have hnext : (wp + 1) % n < n := Nat.mod_lt _ (by omega)
  rw [between_length] at hroom
  have hlen : ((wp + 1) % n + n - rp) % n = (wp + n - rp) % n + 1 := by
    rw [ahead_eq hr hw] at hroom ⊢
    rw [ahead_eq hr hnext, next_eq hw]
    split at hroom <;> split <;> split <;> omega
  have hlast : ((rp + 1) % n + (wp + n - rp) % n) % n = (wp + 1) % n := by
    rw [Nat.mod_add_mod, Nat.add_mod_mod, show rp + 1 + (wp + n - rp) = wp + 1 + n by omega,
      Nat.add_mod_right]
  rw [between, hlen, ringLoad_add, hlast]
  congr 1
  · apply ringLoad_congr
    intro j hj
    exact Function.update_of_ne (ahead_ne_next hr hw hj) _ _
  · simp [ringLoad]

end Audiod
