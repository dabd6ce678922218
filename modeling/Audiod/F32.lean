import Mathlib.Data.Int.Log
import Mathlib.Data.Rat.Floor
import Mathlib.Tactic.Linarith
import Mathlib.Tactic.NormNum
import Mathlib.Tactic.Positivity

/-!
# Single precision arithmetic

Values of the binary32 format with round to nearest, ties to even, and gradual
underflow. The two zeros are one value here; nothing below divides by a zero
whose sign matters.
-/

namespace Audiod

inductive F32
  | nan
  | inf (neg : Bool)
  | fin (q : ℚ)
  deriving DecidableEq

def roundHalfEven (t : ℚ) : ℤ :=
  let d := 2 * (t - ⌊t⌋)
  if 1 < d ∨ (d = 1 ∧ ⌊t⌋ % 2 = 1) then ⌊t⌋ + 1 else ⌊t⌋

/-- Exponent of the spacing of the values around a magnitude. -/
def ulpExp (a : ℚ) : ℤ := max (Int.log 2 a) (-126) - 23

namespace F32

def round (q : ℚ) : F32 :=
  let u : ℚ := 2 ^ ulpExp |q|
  let r := roundHalfEven (q / u) * u
  if 2 ^ 128 ≤ |r| then .inf (decide (q < 0)) else .fin r

def ofInt (n : ℤ) : F32 := round n

/-- Sign, eight exponent bits, 23 fraction bits. -/
def ofBits (b : ℕ) : F32 :=
  let neg := b / 2 ^ 31 % 2 = 1
  let e : ℕ := b / 2 ^ 23 % 256
  let m : ℕ := b % 2 ^ 23
  let mag : ℚ := if e = 0 then m * 2 ^ (-149 : ℤ) else (2 ^ 23 + m) * 2 ^ ((e : ℤ) - 150)
  if e = 255 then if m = 0 then .inf neg else .nan
  else .fin (if neg then -mag else mag)

def neg : F32 → F32
  | nan => nan
  | inf s => inf (!s)
  | fin q => fin (-q)

def add : F32 → F32 → F32
  | fin a, fin b => round (a + b)
  | inf s, inf t => if s = t then inf s else nan
  | inf s, fin _ => inf s
  | fin _, inf s => inf s
  | _, _ => nan

def sub (a b : F32) : F32 := add a b.neg

def mul : F32 → F32 → F32
  | fin a, fin b => round (a * b)
  | inf s, inf t => inf (s != t)
  | inf s, fin b => if b = 0 then nan else inf (s != decide (b < 0))
  | fin a, inf s => if a = 0 then nan else inf (s != decide (a < 0))
  | _, _ => nan

def div : F32 → F32 → F32
  | fin a, fin b =>
    if b = 0 then if a = 0 then nan else inf (decide (a < 0)) else round (a / b)
  | inf s, fin b => inf (s != decide (b < 0))
  | fin _, inf _ => fin 0
  | _, _ => nan

def clamp (lo hi : ℚ) : F32 → F32
  | nan => nan
  | inf s => fin (if s then lo else hi)
  | fin q => fin (if q < lo then lo else if hi < q then hi else q)

/-- Towards zero, as the casts do. -/
def trunc (q : ℚ) : ℤ := if q < 0 then ⌈q⌉ else ⌊q⌋

/-- To the nearest integer, halves away from zero. -/
def nearest (q : ℚ) : ℤ := if q < 0 then ⌈q - 1 / 2⌉ else ⌊q + 1 / 2⌋

/-- `f32::round`; the result is a value again. -/
def roundAway : F32 → F32
  | nan => nan
  | inf s => inf s
  | fin q => fin (nearest q)

/-- `f32::max` and `f32::min` with a number, which is what NaN gives. -/
def maxNum (b : ℚ) : F32 → F32
  | nan => fin b
  | inf s => if s then fin b else inf s
  | fin q => fin (max q b)

def minNum (b : ℚ) : F32 → F32
  | nan => fin b
  | inf s => if s then inf s else fin b
  | fin q => fin (min q b)

/-- The saturating cast to an integer type with the given bounds. -/
def toInt (lo hi : ℤ) : F32 → ℤ
  | nan => 0
  | inf s => if s then lo else hi
  | fin q => max lo (min hi (trunc q))

/-! ### Integers up to `2 ^ 24` are exact -/

theorem roundHalfEven_intCast (n : ℤ) : roundHalfEven (n : ℚ) = n := by
  have hd : 2 * ((n : ℚ) - ⌊(n : ℚ)⌋) = 0 := by simp
  simp only [roundHalfEven, hd]
  norm_num

theorem round_of_multiple {q : ℚ} (m : ℤ) (hm : q = m * 2 ^ ulpExp |q|) (hlt : |q| < 2 ^ 128) :
    round q = fin q := by
  have hu : (2 : ℚ) ^ ulpExp |q| ≠ 0 := zpow_ne_zero _ two_ne_zero
  have hdiv : q / 2 ^ ulpExp |q| = m := by
    rw [div_eq_iff hu]
    exact hm
  simp only [round, hdiv, roundHalfEven_intCast]
  rw [← hm, if_neg (not_le.mpr hlt)]

theorem ulpExp_le {q : ℚ} {j : ℕ} (hj : j ≤ 149) (h : |q| < 2 ^ (24 - j : ℤ)) (hq : q ≠ 0) :
    ulpExp |q| ≤ -j := by
  have hlog : Int.log 2 |q| < 24 - j :=
    (Int.lt_zpow_iff_log_lt (by norm_num) (abs_pos.mpr hq)).mp (by exact_mod_cast h)
  unfold ulpExp
  omega

theorem ulpExp_nonpos {q : ℚ} (h : |q| < 2 ^ 24) : ulpExp |q| ≤ 0 := by
  rcases eq_or_ne q 0 with rfl | hq
  · simp [ulpExp]
  · exact ulpExp_le (j := 0) (by decide) (by exact_mod_cast h) hq

theorem round_intCast {n : ℤ} (h : |n| ≤ 2 ^ 24) : round (n : ℚ) = fin n := by
  have hlt : |(n : ℚ)| < 2 ^ 128 := by
    have hq : |(n : ℚ)| ≤ 2 ^ 24 := by exact_mod_cast h
    exact lt_of_le_of_lt hq (by norm_num)
  rcases lt_or_eq_of_le h with hlt24 | heq
  · -- the spacing is a power of two below one, so it divides every integer
    have hnonpos : ulpExp |(n : ℚ)| ≤ 0 := ulpExp_nonpos (by exact_mod_cast hlt24)
    obtain ⟨k, hk⟩ := Int.eq_ofNat_of_zero_le (neg_nonneg.mpr hnonpos)
    refine round_of_multiple (n * 2 ^ k) ?_ hlt
    have he : ulpExp |(n : ℚ)| = -(k : ℤ) := by omega
    rw [he]
    push_cast
    have hpow : (2 : ℚ) ^ k ≠ 0 := pow_ne_zero _ two_ne_zero
    rw [zpow_neg, zpow_natCast, mul_assoc, mul_inv_cancel₀ hpow, mul_one]
  · have hlog : Int.log 2 |(n : ℚ)| = 24 := by
      have hq : |(n : ℚ)| = ((2 : ℕ) : ℚ) ^ (24 : ℤ) := by exact_mod_cast heq
      rw [hq, Int.log_zpow (by norm_num)]
    have he : ulpExp |(n : ℚ)| = 1 := by
      unfold ulpExp
      omega
    have hdvd : n = n / 2 * 2 := by
      rcases abs_eq (by norm_num : (0 : ℤ) ≤ 2 ^ 24) |>.mp heq with h | h <;> omega
    refine round_of_multiple (n / 2) ?_ hlt
    rw [he, zpow_one]
    exact_mod_cast hdvd

theorem ofInt_exact {n : ℤ} (h : |n| ≤ 2 ^ 24) : ofInt n = fin n := round_intCast h

theorem mul_one_of_exact {n : ℤ} (h : |n| ≤ 2 ^ 24) : mul (ofInt n) (fin 1) = fin n := by
  rw [ofInt_exact h, mul, mul_one]
  exact round_intCast h

/-! ### Bounds by integers -/

theorem roundHalfEven_between {t : ℚ} {m n : ℤ} (hm : m ≤ t) (hn : t ≤ n) :
    m ≤ roundHalfEven t ∧ roundHalfEven t ≤ n := by
  have hfloor : m ≤ ⌊t⌋ := Int.le_floor.mpr hm
  simp only [roundHalfEven]
  split
  · rename_i hup
    -- rounded up, so not an integer
    have hlt : ⌊t⌋ < n := by
      refine Int.floor_lt.mpr (lt_of_le_of_ne hn ?_)
      rintro rfl
      rw [Int.floor_intCast] at hup
      norm_num at hup
    omega
  · have hle : ⌊t⌋ ≤ n := Int.floor_le_iff.mpr (by linarith)
    omega

/- Rounding does not pass a value of few enough digits. -/
theorem round_between_dyadic {q : ℚ} {m n : ℤ} {j : ℕ} (hj : j ≤ 149) (hm : m / 2 ^ j ≤ q)
    (hn : q ≤ n / 2 ^ j) (hm' : |m| < 2 ^ 24) (hn' : |n| < 2 ^ 24) :
    ∃ r : ℚ, round q = fin r ∧ m / 2 ^ j ≤ r ∧ r ≤ n / 2 ^ j := by
  rcases eq_or_ne q 0 with rfl | hq0
  · exact ⟨0, round_intCast (n := 0) (by norm_num), hm, hn⟩
  have hmq : |(m : ℚ)| < 2 ^ 24 := by exact_mod_cast hm'
  have hnq : |(n : ℚ)| < 2 ^ 24 := by exact_mod_cast hn'
  rw [abs_lt] at hmq hnq
  have hpowj : (0 : ℚ) < 2 ^ j := pow_pos two_pos j
  have hsize {t : ℚ} (hl : m / 2 ^ j ≤ t) (hr : t ≤ n / 2 ^ j) : |t| < 2 ^ 24 / 2 ^ j := by
    have hlow : -(2 ^ 24 / 2 ^ j : ℚ) < m / 2 ^ j := by
      rw [← neg_div]
      exact div_lt_div_of_pos_right hmq.1 hpowj
    exact abs_lt.mpr ⟨hlow.trans_le hl, hr.trans_lt (div_lt_div_of_pos_right hnq.2 hpowj)⟩
  have hq : |q| < 2 ^ (24 - j : ℤ) := by
    rw [zpow_sub₀ two_ne_zero, zpow_natCast]
    exact hsize hm hn
  -- in units of the spacing the bounds are integers
  obtain ⟨k, hk⟩ := Int.eq_ofNat_of_zero_le (by have := ulpExp_le hj hq hq0; omega :
    0 ≤ -j - ulpExp |q|)
  have he : ulpExp |q| = -((j + k : ℕ) : ℤ) := by omega
  have hu : (2 : ℚ) ^ ulpExp |q| = (2 ^ (j + k))⁻¹ := by rw [he, zpow_neg, zpow_natCast]
  have hpow : (0 : ℚ) < 2 ^ (j + k) := pow_pos two_pos _
  have hscale (i : ℤ) : ((i * 2 ^ k : ℤ) : ℚ) = i / 2 ^ j * 2 ^ (j + k) := by
    push_cast
    rw [pow_add]
    field_simp
  have hlow : ((m * 2 ^ k : ℤ) : ℚ) ≤ q / (2 ^ (j + k))⁻¹ := by
    rw [div_inv_eq_mul, hscale]
    exact mul_le_mul_of_nonneg_right hm hpow.le
  have hhigh : q / (2 ^ (j + k))⁻¹ ≤ ((n * 2 ^ k : ℤ) : ℚ) := by
    rw [div_inv_eq_mul, hscale]
    exact mul_le_mul_of_nonneg_right hn hpow.le
  obtain ⟨hl, hr⟩ := roundHalfEven_between hlow hhigh
  obtain ⟨r, hrdef⟩ :
    ∃ r : ℚ, roundHalfEven (q / (2 ^ (j + k))⁻¹) * (2 ^ (j + k))⁻¹ = r := ⟨_, rfl⟩
  have hrm : m / 2 ^ j ≤ r := by
    rw [← hrdef, ← div_eq_mul_inv, le_div_iff₀ hpow, ← hscale]
    exact_mod_cast hl
  have hrn : r ≤ n / 2 ^ j := by
    rw [← hrdef, ← div_eq_mul_inv, div_le_iff₀ hpow, ← hscale]
    exact_mod_cast hr
  refine ⟨r, ?_, hrm, hrn⟩
  have hfit : |r| < 2 ^ 128 := by
    have hone : (1 : ℚ) ≤ 2 ^ j := one_le_pow₀ one_le_two
    have hle : (2 ^ 24 / 2 ^ j : ℚ) ≤ 2 ^ 24 := div_le_self (by norm_num) hone
    have hlt := hsize hrm hrn
    linarith
  simp only [round, hu, hrdef]
  exact if_neg (not_le.mpr hfit)

theorem round_abs_le {q : ℚ} {n : ℤ} {j : ℕ} (hj : j ≤ 149) (h : |q| ≤ n / 2 ^ j)
    (hn : |n| < 2 ^ 24) : ∃ r : ℚ, round q = fin r ∧ |r| ≤ n / 2 ^ j := by
  rw [abs_le] at h
  have hm : ((-n : ℤ) : ℚ) / 2 ^ j = -(n / 2 ^ j) := by rw [Int.cast_neg, neg_div]
  obtain ⟨r, hr, hlow, hhigh⟩ :=
    round_between_dyadic (m := -n) hj (by rw [hm]; exact h.1) h.2 (by rwa [abs_neg]) hn
  rw [hm] at hlow
  exact ⟨r, hr, abs_le.mpr ⟨hlow, hhigh⟩⟩

theorem round_between {q : ℚ} {m n : ℤ} (hm : m ≤ q) (hn : q ≤ n) (hm' : |m| < 2 ^ 24)
    (hn' : |n| < 2 ^ 24) : ∃ r : ℚ, round q = fin r ∧ m ≤ r ∧ r ≤ n := by
  have h := round_between_dyadic (j := 0) (by decide) (by simpa using hm) (by simpa using hn)
    hm' hn'
  simpa using h

theorem magnitude_dyadic {e m : ℕ} (hm : m < 2 ^ 23)
    (h : (if e = 0 then (m : ℚ) * 2 ^ (-149 : ℤ) else (2 ^ 23 + m) * 2 ^ ((e : ℤ) - 150)) < 1) :
    ∃ n j : ℕ, (if e = 0 then (m : ℚ) * 2 ^ (-149 : ℤ) else (2 ^ 23 + m) * 2 ^ ((e : ℤ) - 150)) =
      n / 2 ^ j ∧ n < 2 ^ 24 ∧ j ≤ 149 := by
  by_cases he : e = 0
  · refine ⟨m, 149, ?_, by omega, le_rfl⟩
    rw [if_pos he, zpow_neg, div_eq_mul_inv]
    rfl
  · rw [if_neg he] at h ⊢
    have hsmall : e < 127 := by
      by_contra hbig
      have hpow : (2 : ℚ) ^ (-23 : ℤ) ≤ 2 ^ ((e : ℤ) - 150) :=
        zpow_le_zpow_right₀ one_le_two (by omega)
      have hlow : (2 : ℚ) ^ 23 * 2 ^ (-23 : ℤ) ≤ (2 ^ 23 + m) * 2 ^ ((e : ℤ) - 150) :=
        mul_le_mul (by simp) hpow (by positivity) (by positivity)
      norm_num at hlow
      linarith
    refine ⟨2 ^ 23 + m, 150 - e, ?_, by omega, by omega⟩
    have hexp : (e : ℤ) - 150 = -((150 - e : ℕ) : ℤ) := by omega
    rw [hexp, zpow_neg, zpow_natCast, div_eq_mul_inv]
    push_cast
    rfl

theorem ofBits_dyadic {b : ℕ} {r : ℚ} (h : ofBits b = fin r) (hr : |r| < 1) :
    ∃ (m : ℤ) (j : ℕ), r = m / 2 ^ j ∧ |m| < 2 ^ 24 ∧ j ≤ 149 := by
  have hm : b % 2 ^ 23 < 2 ^ 23 := Nat.mod_lt _ (by norm_num)
  simp only [ofBits] at h
  generalize b / 2 ^ 23 % 256 = e at h
  generalize b % 2 ^ 23 = m at h hm
  obtain ⟨mag, hmag⟩ : ∃ mag : ℚ, (if e = 0 then (m : ℚ) * 2 ^ (-149 : ℤ)
      else (2 ^ 23 + m) * 2 ^ ((e : ℤ) - 150)) = mag := ⟨_, rfl⟩
  have hpos : 0 ≤ mag := by
    rw [← hmag]
    split
    · exact mul_nonneg (Nat.cast_nonneg m) (zpow_nonneg zero_le_two _)
    · exact mul_nonneg (by linarith [(Nat.cast_nonneg m : (0 : ℚ) ≤ m)]) (zpow_nonneg zero_le_two _)
  rw [hmag] at h
  split at h
  · split at h <;> cases h
  · cases h
    have hlt : mag < 1 := by
      split at hr
      · rwa [abs_neg, abs_of_nonneg hpos] at hr
      · rwa [abs_of_nonneg hpos] at hr
    obtain ⟨n, j, hn, hn24, hj⟩ := magnitude_dyadic hm (hmag ▸ hlt)
    rw [← hmag, hn]
    have habs : |(n : ℤ)| < 2 ^ 24 := by
      rw [Nat.abs_cast]
      exact_mod_cast hn24
    split
    · exact ⟨-n, j, by push_cast; ring, by rwa [abs_neg], hj⟩
    · exact ⟨n, j, by push_cast; ring, habs, hj⟩

theorem abs_trunc_le (q : ℚ) : |(trunc q : ℚ)| ≤ |q| := by
  unfold trunc
  split
  · rename_i hq
    have hceil : (⌈q⌉ : ℚ) ≤ 0 := by exact_mod_cast Int.ceil_le.mpr (by push_cast; exact hq.le)
    rw [abs_of_nonpos hceil, abs_of_neg hq]
    linarith [Int.le_ceil q]
  · rename_i hq
    have hfloor : (0 : ℚ) ≤ ⌊q⌋ := by exact_mod_cast Int.floor_nonneg.mpr (not_lt.mp hq)
    rw [abs_of_nonneg hfloor, abs_of_nonneg (not_lt.mp hq)]
    exact Int.floor_le q

theorem nearest_between {q : ℚ} {m n : ℤ} (hm : m ≤ q) (hn : q ≤ n) :
    m ≤ nearest q ∧ nearest q ≤ n := by
  unfold nearest
  split
  · exact ⟨Int.le_ceil_iff.mpr (by linarith), Int.ceil_le.mpr (by linarith)⟩
  · exact ⟨Int.le_floor.mpr (by linarith), Int.floor_le_iff.mpr (by linarith)⟩

theorem toInt_bounds {lo hi : ℤ} (hlo : lo ≤ 0) (hhi : 0 ≤ hi) (x : F32) :
    lo ≤ toInt lo hi x ∧ toInt lo hi x ≤ hi := by
  cases x with
  | nan => exact ⟨hlo, hhi⟩
  | inf s => cases s <;> simp [toInt] <;> omega
  | fin q =>
    simp only [toInt]
    omega

theorem toInt_clamp_intCast (lo hi n : ℤ) (h : lo ≤ hi) :
    toInt lo hi (clamp lo hi (fin n)) = max lo (min hi n) := by
  have hcast : clamp lo hi (fin n) = fin ((max lo (min hi n) : ℤ) : ℚ) := by
    simp only [clamp, F32.fin.injEq, Int.cast_lt]
    split
    · rw [max_eq_left (by omega)]
    · split
      · rw [max_eq_right (by omega), min_eq_left (by omega)]
      · rw [max_eq_right (by omega), min_eq_right (by omega)]
  have htr (m : ℤ) : trunc (m : ℚ) = m := by simp [trunc]
  rw [hcast, toInt, htr]
  omega

end F32

end Audiod
