import Audiod.Resampler
import Mathlib.Algebra.Order.Floor.Semifield
import Mathlib.Analysis.SpecialFunctions.Trigonometric.Sinc
import Mathlib.Tactic.FieldSimp
import Mathlib.Tactic.Linarith
import Mathlib.Tactic.NormNum
import Mathlib.Tactic.Positivity

/-!
# The phase of the sinc kernel (`server/src/dsp.rs:27-67, 134-153`)

Row `p` of the table is the kernel delayed by `p / PHASES` of an input frame. An
output frame blends two neighbouring rows over one window of taps; past the last
row the index wraps to row 0 and the window stays.
-/

namespace Audiod

section

variable {δ : Type*} (σ : Type*) [WideArith δ] [FloatCasts δ σ]

open WideArith FloatCasts

variable (δ)

/-- The cutoff of `KernelTable::new`. -/
def cutoff (src dst : ℕ) : δ :=
  mul (lit (475 / 1000)) (min (div (lit dst) (lit src)) (lit 1))

/- The rows of a table lie one after the other. -/
theorem KernelTable.row_new (src dst : ℕ) {p : ℕ} (hp : p < phases) :
    (KernelTable.new δ σ src dst).row p =
      some (kernelRowAt σ (cutoff δ src dst) (div (lit p) (lit phases))) := by
  obtain ⟨row, hrow⟩ := (KernelTable.new δ σ src dst).row_isSome hp
  rw [hrow, ← kernelRow]
  unfold KernelTable.row slice at hrow
  split at hrow
  next hfit =>
    simp only [Option.some.injEq] at hrow
    rw [← hrow]
    have hsplit : List.range phases =
        List.range p ++ p :: List.range' (p + 1) (phases - p - 1) := by
      have hall : List.range' 0 p ++ List.range' (0 + p) (phases - p - 1 + 1) =
          List.range' 0 (p + (phases - p - 1 + 1)) := List.range'_append_1
      rw [Nat.zero_add, List.range'_succ, show p + (phases - p - 1 + 1) = phases by omega] at hall
      rw [List.range_eq_range', List.range_eq_range', hall]
    have hlen : ((List.range p).flatMap (kernelRow σ (cutoff δ src dst))).length = p * taps := by
      simp [List.length_flatMap, kernelRow_length]
    have hdrop : (KernelTable.new δ σ src dst).coeffs.drop (p * taps) =
        kernelRow σ (cutoff δ src dst) p ++
          (List.range' (p + 1) (phases - p - 1)).flatMap (kernelRow σ (cutoff δ src dst)) := by
      change ((List.range phases).flatMap (kernelRow σ (cutoff δ src dst))).drop (p * taps) = _
      rw [hsplit, List.flatMap_append, List.flatMap_cons, ← hlen, List.drop_left]
    have hwidth : (p + 1) * taps - p * taps = taps := by
      rw [Nat.succ_mul]
      omega
    rw [hdrop, hwidth, List.take_left' (kernelRow_length σ _ p)]
  next => cases hrow

end

section

variable {σ : Type*} [SampleArith σ]

open SampleArith

/-- The two rows and the weight of the second that the sinc branch blends. -/
structure Blend (σ : Type*) where
  p0 : ℕ
  p1 : ℕ
  t : σ

def blend (den rem : ℕ) : Blend σ :=
  let pf := mul (div (ofInt rem) (ofInt den)) (ofInt phases)
  let p0 := min (toUsize pf) (phases - 1)
  { p0 := p0, p1 := (p0 + 1) % phases, t := sub pf (ofInt p0) }

theorem kernelAt_sinc (tab : KernelTable σ) (den : ℕ) (hist : List σ) (base rem : ℕ) :
    kernelAt (.sinc tab) den hist base rem =
      (tab.row (blend (σ := σ) den rem).p0).bind fun r0 =>
      (tab.row (blend (σ := σ) den rem).p1).bind fun r1 =>
      (slice hist (base * 2) ((base + taps) * 2)).map fun win =>
        ((pairs win).zip (r0.zip r1)).foldl (tapStep (blend den rem).t) (ofInt 0, ofInt 0) := rfl

end

/-! ### Exact arithmetic -/

theorem phase_lt {den rem : ℕ} (hrem : rem < den) : phases * rem / den < phases := by
  apply Nat.div_lt_of_lt_mul
  rw [Nat.mul_comm den]
  exact Nat.mul_lt_mul_of_pos_left hrem (by decide)

theorem blend_real {den rem : ℕ} (hrem : rem < den) :
    blend (σ := ℝ) den rem =
      { p0 := phases * rem / den
        p1 := (phases * rem / den + 1) % phases
        t := (rem : ℝ) / den * phases - (phases * rem / den : ℕ) } := by
  have hp0 := phase_lt hrem
  have hpf : (rem : ℝ) / den * phases = ((phases * rem : ℕ) : ℝ) / den := by
    push_cast
    ring
  have hfloor : ⌊(rem : ℝ) / den * phases⌋₊ = phases * rem / den := by
    rw [hpf, Nat.floor_div_eq_div]
  have hph : phases = 256 := rfl
  have hmin : min (min ⌊(rem : ℝ) / den * phases⌋₊ (2 ^ 64 - 1)) (phases - 1) =
      phases * rem / den := by
    rw [hfloor]
    omega
  change Blend.mk (min (min ⌊(((rem : ℤ) : ℝ)) / ((den : ℤ) : ℝ) * ((phases : ℤ) : ℝ)⌋₊ _) _)
    ((min (min ⌊(((rem : ℤ) : ℝ)) / ((den : ℤ) : ℝ) * ((phases : ℤ) : ℝ)⌋₊ _) _ + 1) % phases)
    (((rem : ℤ) : ℝ) / ((den : ℤ) : ℝ) * ((phases : ℤ) : ℝ) -
      (((min (min ⌊(((rem : ℤ) : ℝ)) / ((den : ℤ) : ℝ) * ((phases : ℤ) : ℝ)⌋₊ _) _ : ℕ) : ℤ) : ℝ))
    = _
  simp only [Int.cast_natCast, hmin]

/-- The kernel as the comments of `KernelTable::new` describe it. -/
noncomputable def sinc (fc t : ℝ) : ℝ :=
  if |2 * Real.pi * fc * t| < 1 / 10 ^ 12 then 2 * fc
  else Real.sin (2 * Real.pi * fc * t) / (2 * Real.pi * fc * t)

noncomputable def blackman (n : ℝ) : ℝ :=
  42 / 100 - 5 / 10 * Real.cos (2 * Real.pi * n / 47) +
    8 / 100 * Real.cos (2 * (2 * Real.pi * n / 47))

/-- That kernel with the sinc of Mathlib, `n` taps into its window. -/
noncomputable def windowedSinc (fc n : ℝ) : ℝ :=
  Real.sinc (2 * Real.pi * fc * (n - 47 / 2)) * blackman n

theorem kernelTapAt_real (fc off : ℝ) (i : ℕ) :
    kernelTapAt fc off i = sinc fc (i - off - 47 / 2) * blackman (i - off) := by
  have ht : (taps : ℝ) - 1 = 47 := by norm_num [taps]
  have hsub : (i : ℝ) - 47 / 2 - off = i - off - 47 / 2 := by ring
  simp only [kernelTapAt, WideArith.lit, WideArith.sub, WideArith.div, WideArith.mul, WideArith.add,
    WideArith.pi, WideArith.abs, WideArith.sin, WideArith.cos, WideArith.lt, sinc, blackman]
  push_cast
  rw [ht, hsub]
  simp only [decide_eq_true_eq]

/- A delay of one whole frame shifts the kernel by one tap. -/
theorem kernelTapAt_shift (fc off : ℝ) (i : ℕ) :
    kernelTapAt fc (off + 1) (i + 1) = kernelTapAt fc off i := by
  have hshift : ((i + 1 : ℕ) : ℝ) - (off + 1) = i - off := by
    push_cast
    ring
  rw [kernelTapAt_real, kernelTapAt_real, hshift]

theorem kernelTapAt_edge (fc : ℝ) : kernelTapAt fc 0 0 = 0 := by
  rw [kernelTapAt_real]
  norm_num [blackman]

theorem kernelTapAt_centre {fc : ℝ} (hpos : 0 < fc) (hlt : fc < 1) : kernelTapAt fc 0 23 ≠ 0 := by
  rw [kernelTapAt_real]
  apply mul_ne_zero
  · have hx : 2 * Real.pi * fc * (((23 : ℕ) : ℝ) - 0 - 47 / 2) = -(Real.pi * fc) := by
      push_cast
      ring
    have hpi : 0 < Real.pi * fc := mul_pos Real.pi_pos hpos
    have hsin : 0 < Real.sin (Real.pi * fc) :=
      Real.sin_pos_of_pos_of_lt_pi hpi (by nlinarith [Real.pi_pos])
    unfold sinc
    rw [hx]
    split
    · positivity
    · rw [Real.sin_neg, neg_div_neg_eq]
      positivity
  · have hcos : Real.cos (2 * Real.pi * (((23 : ℕ) : ℝ) - 0) / 47) ≤ 0 := by
      apply Real.cos_nonpos_of_pi_div_two_le_of_le
      · push_cast
        linarith [Real.pi_pos]
      · push_cast
        linarith [Real.pi_pos]
    have hdouble := Real.neg_one_le_cos (2 * (2 * Real.pi * (((23 : ℕ) : ℝ) - 0) / 47))
    unfold blackman
    apply ne_of_gt
    linarith

theorem kernelRowAt_real (fc off : ℝ) :
    ∃ c : ℝ, c ≠ 0 ∧
      kernelRowAt ℝ fc off = (List.range taps).map fun i => kernelTapAt fc off i / c := by
  simp only [kernelRowAt, List.map_map]
  generalize ((List.range taps).map (kernelTapAt fc off)).foldl WideArith.add
    (WideArith.lit 0) = sum
  split
  next hbig =>
    refine ⟨sum, ?_, rfl⟩
    rintro rfl
    simp only [WideArith.lt, WideArith.lit, WideArith.abs, decide_eq_true_eq] at hbig
    norm_num at hbig
  next =>
    refine ⟨1, one_ne_zero, ?_⟩
    simp only [div_one]
    rfl

theorem kernelRowAt_one_ne {fc : ℝ} (hpos : 0 < fc) (hlt : fc < 1) :
    kernelRowAt ℝ fc 1 ≠ kernelRowAt ℝ fc 0 := by
  intro heq
  obtain ⟨c₁, hc₁, h₁⟩ := kernelRowAt_real fc 1
  obtain ⟨c₀, hc₀, h₀⟩ := kernelRowAt_real fc 0
  rw [h₁, h₀] at heq
  have htap (i : ℕ) (hi : i < taps) : kernelTapAt fc 1 i / c₁ = kernelTapAt fc 0 i / c₀ :=
    List.map_inj_left.mp heq i (List.mem_range.mpr hi)
  -- tap by tap from the edge of the window, the whole kernel would vanish
  have hzero (i : ℕ) : i < taps → kernelTapAt fc 0 i = 0 := by
    induction i with
    | zero => exact fun _ => kernelTapAt_edge fc
    | succ i ih =>
      intro hi
      have hnext := htap (i + 1) hi
      have hshift := kernelTapAt_shift fc 0 i
      rw [zero_add] at hshift
      rw [hshift, ih (by omega), zero_div] at hnext
      exact (div_eq_zero_iff.mp hnext.symm).resolve_right hc₀
  exact kernelTapAt_centre hpos hlt (hzero 23 (by decide))

theorem cutoff_real_pos {src dst : ℕ} (hsrc : 0 < src) (hdst : 0 < dst) :
    0 < cutoff ℝ src dst ∧ cutoff ℝ src dst < 1 := by
  have hratio : (0 : ℝ) < dst / src := by positivity
  have hmin : 0 < min ((dst : ℝ) / src) 1 := lt_min hratio one_pos
  have hle : min ((dst : ℝ) / src) 1 ≤ 1 := min_le_right _ _
  have heq : cutoff ℝ src dst = 475 / 1000 * min ((dst : ℝ) / src) 1 := by
    simp only [cutoff, WideArith.lit, WideArith.mul, WideArith.min, WideArith.div]
    push_cast
    rfl
  rw [heq]
  constructor
  · positivity
  · linarith

/-! ### The two rows of an output frame -/

/-- The position of output frame `k` is `⌊k·num/den⌋` frames and `rem` of `den`
parts. The row below it and the next one are the kernels for the two delays around
`rem / den`, and their weights make that delay. -/
structure PhaseExact (src dst num den rem k : ℕ) (delay : ℝ) : Prop where
  window : k * num / den = k * src / dst
  first : (KernelTable.new ℝ ℝ src dst).row (blend (σ := ℝ) den rem).p0 =
    some (kernelRowAt ℝ (cutoff ℝ src dst) delay)
  second : (KernelTable.new ℝ ℝ src dst).row (blend (σ := ℝ) den rem).p1 =
    some (kernelRowAt ℝ (cutoff ℝ src dst) (delay + 1 / phases))
  weighted : (1 - (blend (σ := ℝ) den rem).t) * delay +
    (blend (σ := ℝ) den rem).t * (delay + 1 / phases) = (rem : ℝ) / den

theorem row_real (src dst : ℕ) {p : ℕ} (hp : p < phases) :
    (KernelTable.new ℝ ℝ src dst).row p =
      some (kernelRowAt ℝ (cutoff ℝ src dst) ((p : ℝ) / phases)) := by
  rw [KernelTable.row_new ℝ ℝ src dst hp]
  simp only [WideArith.lit, WideArith.div]
  push_cast
  rfl

/- The weight of the second row is the way from its delay to the next. -/
theorem blend_weighted {den rem : ℕ} (hrem : rem < den) :
    (1 - (blend (σ := ℝ) den rem).t) * (((phases * rem / den : ℕ) : ℝ) / phases) +
      (blend (σ := ℝ) den rem).t * (((phases * rem / den : ℕ) : ℝ) / phases + 1 / phases) =
        (rem : ℝ) / den := by
  have hph : (phases : ℝ) ≠ 0 := by norm_num [phases]
  rw [blend_real hrem]
  field_simp
  ring

/- In the last interval the second row is row 0, where the delay is a whole frame. -/
theorem PhaseExact.not_last {src dst num den rem k : ℕ} {delay : ℝ} (hsrc : 0 < src)
    (hdst : 0 < dst) (hrem : rem < den) (hlast : phases * rem / den = 255)
    (hdelay : delay = (255 : ℕ) / phases) (h : PhaseExact src dst num den rem k delay) : False := by
  have hsecond := h.second
  rw [blend_real hrem] at hsecond
  dsimp only at hsecond
  rw [hlast, show (255 + 1) % phases = 0 from rfl, row_real src dst (by decide)] at hsecond
  have hone : ((255 : ℕ) : ℝ) / phases + 1 / phases = 1 := by norm_num [phases]
  rw [hdelay, hone, Nat.cast_zero, zero_div, Option.some.injEq] at hsecond
  obtain ⟨hpos, hlt⟩ := cutoff_real_pos hsrc hdst
  exact kernelRowAt_one_ne hpos hlt hsecond.symm

theorem phaseExact_of_lt {src dst num den rem k : ℕ} (hrem : rem < den)
    (hwin : k * num / den = k * src / dst) (hlt : phases * rem / den < phases - 1) :
    PhaseExact src dst num den rem k (((phases * rem / den : ℕ) : ℝ) / phases) := by
  have hb := blend_real hrem
  have hph : phases = 256 := rfl
  have hnext : (phases * rem / den + 1) % phases = phases * rem / den + 1 :=
    Nat.mod_eq_of_lt (by omega)
  have hdelay : ((phases * rem / den + 1 : ℕ) : ℝ) / phases =
      ((phases * rem / den : ℕ) : ℝ) / phases + 1 / phases := by
    push_cast
    ring
  refine ⟨hwin, ?_, ?_, blend_weighted hrem⟩
  · rw [hb]
    exact row_real src dst (phase_lt hrem)
  · rw [hb]
    dsimp only
    rw [hnext, row_real src dst (by omega), hdelay]

/-- The step of the resampler, and the phase of output frame `k`. -/
def stepNum (src dst : ℕ) : ℕ := src / Nat.gcd src dst
def stepDen (src dst : ℕ) : ℕ := dst / Nat.gcd src dst
def phaseRem (src dst k : ℕ) : ℕ := k * stepNum src dst % stepDen src dst

/-- The rows blended for an output frame are the kernels around its position
exactly outside the last phase interval: there the second row is the kernel
without delay, over a window that has not moved. -/
theorem phase_exact_iff (src dst k : ℕ) (hsrc : 0 < src) (hdst : 0 < dst) :
    PhaseExact src dst (stepNum src dst) (stepDen src dst) (phaseRem src dst k) k
        (((phases * phaseRem src dst k / stepDen src dst : ℕ) : ℝ) / phases) ↔
      phases * phaseRem src dst k < (phases - 1) * stepDen src dst := by
  have hg : 0 < Nat.gcd src dst := Nat.gcd_pos_of_pos_left dst hsrc
  have hden : 0 < stepDen src dst := Nat.div_gcd_pos_of_pos_right src hdst
  have hrem : phaseRem src dst k < stepDen src dst := Nat.mod_lt _ hden
  have hp0 : phases * phaseRem src dst k / stepDen src dst < phases := phase_lt hrem
  have hph : phases = 256 := rfl
  rw [← Nat.div_lt_iff_lt_mul hden]
  constructor
  · intro h
    by_contra hge
    have hlast : phases * phaseRem src dst k / stepDen src dst = 255 := by omega
    exact h.not_last hsrc hdst hrem hlast (by rw [hlast])
  · intro hlt
    exact phaseExact_of_lt hrem (Resampler.mul_reduced_div hg k) hlt

/- 22.05 kHz to 48 kHz: output frame 37 lies 319/320 of a frame after its window's
first tap, and rows 255 and 0 are blended. -/
theorem last_interval_wraps :
    37 * (22050 / Nat.gcd 22050 48000) % (48000 / Nat.gcd 22050 48000) = 319 ∧
      (blend (σ := ℝ) 320 319).p0 = 255 ∧ (blend (σ := ℝ) 320 319).p1 = 0 ∧
      ¬PhaseExact 22050 48000 147 320 319 37 (((phases * 319 / 320 : ℕ) : ℝ) / phases) := by
  have hb := blend_real (show 319 < 320 by decide)
  have hlast : phases * 319 / 320 = 255 := by decide
  refine ⟨by decide, ?_, ?_, ?_⟩
  · rw [hb]
    exact hlast
  · rw [hb]
    rfl
  · intro h
    exact h.not_last (by decide) (by decide) (by decide) hlast (by rw [hlast])

/- 44.1 kHz to 48 kHz never reaches it. -/
theorem phase_exact_iff_44100 :
    PhaseExact 44100 48000 147 160 147 1 (((phases * 147 / 160 : ℕ) : ℝ) / phases) ↔
      phases * 147 < (phases - 1) * 160 :=
  phase_exact_iff 44100 48000 1 (by decide) (by decide)

end Audiod
