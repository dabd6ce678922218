import Mathlib.Data.Nat.Basic
import Mathlib.Tactic.Ring
import Mathlib.Tactic.Common

/-!
# Bytes, little-endian words and split byte streams

Fixed-width little-endian encoding of a natural number (`to_le_bytes` after the
cast to the width), its value, and the reading side of a byte stream that
arrives in pieces: `read` is one `read(2)`, `fill` the loop that reads until it
has what it wants. What a `fill` returns does not depend on the pieces.
-/

namespace Audiod

abbrev Byte := Fin 256
abbrev Bytes := List Byte

instance byte_neZero : NeZero (256 : ℕ) := ⟨by decide⟩

/-- The low `w` bytes of `v`, least significant first. -/
def leBytes : ℕ → ℕ → Bytes
  | 0, _ => []
  | w + 1, v => ⟨v % 256, Nat.mod_lt _ (by decide)⟩ :: leBytes w (v / 256)

/-- The value of a little-endian byte string. -/
def leVal : Bytes → ℕ
  | [] => 0
  | b :: bs => b.val + 256 * leVal bs

theorem leBytes_length (w v : ℕ) : (leBytes w v).length = w := by
  induction w generalizing v with
  | zero => rfl
  | succ w ih => simp [leBytes, ih]

theorem leVal_leBytes_mod (w v : ℕ) : leVal (leBytes w v) = v % 256 ^ w := by
  induction w generalizing v with
  | zero => simp [leBytes, leVal, Nat.mod_one]
  | succ w ih => rw [leBytes, leVal, ih, pow_succ', Nat.mod_mul]

theorem leVal_leBytes {w v : ℕ} (h : v < 256 ^ w) : leVal (leBytes w v) = v := by
  rw [leVal_leBytes_mod, Nat.mod_eq_of_lt h]

/-! ### Reading a stream that arrives in pieces -/

/-- A byte stream as the segments in which it becomes readable. A read takes a
prefix of the first non-empty segment, so the cuts are the places where some
read comes back short. -/
abbrev Segments := List Bytes

/-- One read of at most `max` bytes; empty only at the end of the stream. -/
def read (max : ℕ) : Segments → Bytes × Segments
  | [] => ([], [])
  | [] :: rest => read max rest
  | (b :: bs) :: rest => ((b :: bs).take max, (b :: bs).drop max :: rest)

/-- Read until `want` bytes are there, at most `chunk` at a time; stops early at
the end of the stream. `fuel` bounds the number of reads. -/
def fill (chunk : ℕ) : ℕ → ℕ → Segments → Bytes × Segments
  | 0, _, s => ([], s)
  | fuel + 1, want, s =>
    if want = 0 then ([], s)
    else
      let (d, s₁) := read (min want chunk) s
      if d.isEmpty then ([], s₁)
      else
        let (r, s₂) := fill chunk fuel (want - d.length) s₁
        (d ++ r, s₂)

theorem read_flatten (max : ℕ) (s : Segments) :
    (read max s).1 ++ (read max s).2.flatten = s.flatten := by
  induction s with
  | nil => rfl
  | cons seg rest ih =>
    cases seg with
    | nil => simpa [read] using ih
    | cons b bs =>
      simp only [read, List.flatten_cons]
      rw [← List.append_assoc, List.take_append_drop]

theorem read_length_le (max : ℕ) (s : Segments) : (read max s).1.length ≤ max := by
  induction s with
  | nil => simp [read]
  | cons seg rest ih =>
    cases seg with
    | nil => simpa [read] using ih
    | cons b bs =>
      simp only [read, List.length_take]
      omega

theorem read_eq_nil {max : ℕ} (hm : 0 < max) {s : Segments} (h : (read max s).1 = []) :
    s.flatten = [] := by
  induction s with
  | nil => rfl
  | cons seg rest ih =>
    cases seg with
    | nil => simpa [read] using ih (by simpa [read] using h)
    | cons b bs =>
      obtain ⟨k, rfl⟩ := Nat.exists_eq_succ_of_ne_zero (Nat.pos_iff_ne_zero.mp hm)
      simp [read] at h

/-- The pieces do not matter: a fill takes the next `want` bytes of the stream. -/
theorem fill_spec {chunk : ℕ} (hc : 0 < chunk) :
    ∀ (fuel want : ℕ) (s : Segments), want ≤ fuel →
      (fill chunk fuel want s).1 = s.flatten.take want ∧
      (fill chunk fuel want s).2.flatten = s.flatten.drop want := by
  intro fuel
  induction fuel with
  | zero =>
    intro want s hw
    have h0 : want = 0 := by omega
    simp [fill, h0]
  | succ fuel ih =>
    intro want s hw
    by_cases h0 : want = 0
    · simp [fill, h0]
    · have hflat := read_flatten (min want chunk) s
      have hlen := read_length_le (min want chunk) s
      have hnil := @read_eq_nil (min want chunk) (by omega) s
      rcases hr : read (min want chunk) s with ⟨d, s₁⟩
      rw [hr] at hflat hlen hnil
      simp only at hflat hlen hnil
      simp only [fill, h0, ite_false, hr]
      by_cases hd : d = []
      · subst hd
        have hs := hnil rfl
        rw [hs] at hflat
        simp only [List.isEmpty_nil, ite_true, hs]
        simpa using hflat
      · have hdpos : 0 < d.length := List.length_pos_iff.mpr hd
        have hde : d.isEmpty = false := by simpa [List.isEmpty_iff] using hd
        have hrec := ih (want - d.length) s₁ (by omega)
        simp only [hde, Bool.false_eq_true, ite_false]
        rw [hrec.1, hrec.2, ← hflat]
        have hdw : d.length ≤ want := by omega
        constructor
        · rw [List.take_append, List.take_of_length_le hdw]
        · rw [List.drop_append, List.drop_of_length_le hdw, List.nil_append]

/-- `read_exact` into a buffer of `n` bytes: all of them or an error. -/
def readExact (n : ℕ) (s : Segments) : Option (Bytes × Segments) :=
  let (d, s') := fill n n n s
  if d.length = n then some (d, s') else none

theorem readExact_append {n : ℕ} (hn : 0 < n) {s : Segments} {d rest : Bytes}
    (hd : d.length = n) (hs : s.flatten = d ++ rest) :
    ∃ s', readExact n s = some (d, s') ∧ s'.flatten = rest := by
  have h := fill_spec hn n n s (le_refl n)
  rw [hs, List.take_left' hd, List.drop_left' hd] at h
  rcases hf : fill n n n s with ⟨d', s'⟩
  rw [hf] at h
  simp only at h
  refine ⟨s', ?_, h.2⟩
  simp only [readExact, hf]
  rw [h.1, if_pos hd]

theorem readExact_eof {n : ℕ} (hn : 0 < n) {s : Segments} (hs : s.flatten = []) :
    readExact n s = none := by
  have h := fill_spec hn n n s (le_refl n)
  rw [hs] at h
  rcases hf : fill n n n s with ⟨d', s'⟩
  rw [hf] at h
  have hd' : d' = [] := by simpa using h.1
  simp only [readExact, hf, hd', List.length_nil]
  rw [if_neg (by omega)]

end Audiod
