import Audiod.Circular
import Mathlib.Data.List.GetD
import Mathlib.Data.List.Nodup

/-!
# Buffers in scattered pages

A buffer of consecutive cells whose pages of `n` cells lie anywhere in a memory. Its
`view` is what it looks like from inside: there a write is a `store`, and a write to one
buffer does not show in the view of another that shares no page with it.
-/

namespace Audiod

variable {α : Type*} {n : ℕ}

/-- The places of the pages, each used once. -/
structure Pages (n : ℕ) where
  starts : List ℕ
  aligned : ∀ p ∈ starts, p % n = 0
  nodup : starts.Nodup

namespace Pages

def size (b : Pages n) : ℕ := b.starts.length * n

/-- The cell behind an index. -/
def cell (b : Pages n) (i : ℕ) : ℕ := b.starts.getD (i / n) 0 + i % n

def view (b : Pages n) (m : ℕ → α) : ℕ → α := fun i => m (b.cell i)

/-- Cell by cell, from the index `off` on. -/
def poke (b : Pages n) (m : ℕ → α) : ℕ → List α → ℕ → α
  | _, [] => m
  | off, d :: ds => b.poke (Function.update m (b.cell off) d) (off + 1) ds

/-- No page belongs to both. -/
def Apart (b c : Pages n) : Prop := ∀ p ∈ b.starts, p ∉ c.starts

/-! ### The page of an index -/

theorem div_lt_of_lt_size {b : Pages n} {i : ℕ} (h : i < b.size) : i / n < b.starts.length :=
  Nat.div_lt_of_lt_mul (by rwa [Nat.mul_comm])

theorem pos_of_lt_size {b : Pages n} {i : ℕ} (h : i < b.size) : 0 < n := by
  rcases Nat.eq_zero_or_pos n with rfl | hn
  · simp [size] at h
  · exact hn

theorem start_mem {b : Pages n} {i : ℕ} (h : i < b.size) : b.starts.getD (i / n) 0 ∈ b.starts := by
  rw [List.getD_eq_getElem _ _ (div_lt_of_lt_size h)]
  exact List.getElem_mem _

theorem start_eq_of_cell_eq {b c : Pages n} {i j : ℕ} (hi : i < b.size) (hj : j < c.size)
    (h : b.cell i = c.cell j) :
    b.starts.getD (i / n) 0 = c.starts.getD (j / n) 0 ∧ i % n = j % n := by
  have hn := pos_of_lt_size hi
  have hb := b.aligned _ (start_mem hi)
  have hc := c.aligned _ (start_mem hj)
  have hmod : i % n = j % n := by
    have hsum := congrArg (· % n) h
    simp only [cell, Nat.add_mod, hb, hc, Nat.zero_add, Nat.mod_mod] at hsum
    exact hsum
  simp only [cell, hmod] at h
  exact ⟨Nat.add_right_cancel h, hmod⟩

theorem cell_inj {b : Pages n} {i j : ℕ} (hi : i < b.size) (hj : j < b.size)
    (h : b.cell i = b.cell j) : i = j := by
  obtain ⟨hstart, hmod⟩ := start_eq_of_cell_eq hi hj h
  rw [List.getD_eq_getElem _ _ (div_lt_of_lt_size hi),
    List.getD_eq_getElem _ _ (div_lt_of_lt_size hj)] at hstart
  have hdiv : i / n = j / n := (List.Nodup.getElem_inj_iff b.nodup).mp hstart
  calc i = n * (i / n) + i % n := (Nat.div_add_mod i n).symm
    _ = n * (j / n) + j % n := by rw [hdiv, hmod]
    _ = j := Nat.div_add_mod j n

theorem Apart.cell_ne {b c : Pages n} (h : Apart b c) {i j : ℕ} (hi : i < b.size)
    (hj : j < c.size) : b.cell i ≠ c.cell j := by
  intro heq
  have hstart := (start_eq_of_cell_eq hi hj heq).1
  exact h _ (start_mem hi) (hstart ▸ start_mem hj)

theorem cell_add (b : Pages n) {i k : ℕ} (h : i % n + k < n) : b.cell (i + k) = b.cell i + k := by
  have hn : 0 < n := by omega
  have hsum : i + k = n * (i / n) + (i % n + k) := by
    have hdm := Nat.div_add_mod i n
    omega
  have hdiv : (i + k) / n = i / n := by
    rw [hsum, Nat.mul_add_div hn, Nat.div_eq_of_lt h, Nat.add_zero]
  have hmod : (i + k) % n = i % n + k := by
    rw [hsum, Nat.mul_add_mod, Nat.mod_eq_of_lt h]
  rw [cell, cell, hdiv, hmod, Nat.add_assoc]

theorem load_view (b : Pages n) (m : ℕ → α) {off len : ℕ} (h : off % n + len ≤ n) :
    load (b.view m) off len = load m (b.cell off) len := by
  refine List.map_congr_left fun j hj => ?_
  have hj : j < len := List.mem_range.mp hj
  rw [view, b.cell_add (by omega)]

/-! ### Writes in the view -/

theorem poke_of_ne (b : Pages n) {d : List α} {a : ℕ} :
    ∀ (m : ℕ → α) (off : ℕ), (∀ i, off ≤ i → i < off + d.length → a ≠ b.cell i) →
      b.poke m off d a = m a := by
  induction d with
  | nil => exact fun _ _ _ => rfl
  | cons x d ih =>
    intro m off h
    have hhead : a ≠ b.cell off := h off le_rfl (by simp)
    rw [poke, ih _ _ fun i hlo hhi => h i (by omega) (by rw [List.length_cons]; omega),
      Function.update_of_ne hhead]

theorem view_poke (b : Pages n) {d : List α} :
    ∀ (m : ℕ → α) (off : ℕ), off + d.length ≤ b.size →
      ∀ i < b.size, b.view (b.poke m off d) i = store (b.view m) off d i := by
  induction d with
  | nil =>
    intro m off _ i _
    simp [poke, store]
  | cons x d ih =>
    intro m off hle i hi
    rw [List.length_cons] at hle
    rw [poke, ih _ _ (by omega) i hi, store, store]
    rcases Nat.lt_trichotomy i off with hlt | rfl | hgt
    · have hne : b.cell i ≠ b.cell off := fun h => by
        have := cell_inj hi (by omega) h
        omega
      rw [if_neg (by omega), if_neg (by omega), view, Function.update_of_ne hne, view]
    · rw [if_neg (by omega), if_pos le_rfl, view, Function.update_self, Nat.sub_self]
      rfl
    · have hne : b.cell i ≠ b.cell off := fun h => by
        have := cell_inj hi (by omega) h
        omega
      have hsub : i - off = i - (off + 1) + 1 := by omega
      rw [if_pos (by omega), if_pos (by omega), hsub, List.getElem?_cons_succ, view,
        Function.update_of_ne hne, view]

end Pages

end Audiod
