import Audiod.Convert
import Audiod.DirectPath

/-!
# What a volume does to samples (`server/src/main.rs:80-94`, `server/src/mixer.rs:260-267`)

The stored percentage becomes a gain, and the gain goes into the two output paths. Where it
is a number from 0 to 100 no sample grows on either. A NaN comes through the clamp of
`set_state_volume` and goes on as NaN.
-/

namespace Audiod

open Cli

/-- `set_state_volume`: what is stored. -/
def setStateVolume (percent : F32) : F32 := F32.clamp 0 100 percent

/-- The percentage is a number in its range. -/
def InPercent (volume : F32) : Prop := ∃ q : ℚ, volume = .fin q ∧ 0 ≤ q ∧ q ≤ 100

theorem clamp_between {lo hi q : ℚ} (h : lo ≤ hi) :
    lo ≤ (if q < lo then lo else if hi < q then hi else q) ∧
      (if q < lo then lo else if hi < q then hi else q) ≤ hi := by
  split
  · exact ⟨le_rfl, h⟩
  · split
    · exact ⟨h, le_rfl⟩
    · exact ⟨by linarith, by linarith⟩

theorem setStateVolume_inPercent {percent : F32} :
    InPercent (setStateVolume percent) ↔ percent ≠ .nan := by
  cases percent with
  | nan => exact iff_of_false (fun ⟨q, hq, _⟩ => F32.noConfusion hq) (fun h => h rfl)
  | inf s =>
    refine iff_of_true ?_ F32.noConfusion
    cases s with
    | true => exact ⟨0, rfl, by norm_num, by norm_num⟩
    | false => exact ⟨100, rfl, by norm_num, by norm_num⟩
  | fin q =>
    have hundred : (0 : ℚ) ≤ 100 := by norm_num
    obtain ⟨hlow, hhigh⟩ := clamp_between (q := q) hundred
    exact iff_of_true ⟨_, rfl, hlow, hhigh⟩ F32.noConfusion

theorem gainOf_unit {volume : F32} (h : InPercent volume) :
    ∃ g : ℚ, Mixer.gainOf volume = .fin g ∧ 0 ≤ g ∧ g ≤ 1 := by
  obtain ⟨q, rfl, h0, h100⟩ := h
  have hdiv : Mixer.gainOf (.fin q) = F32.round (q / 100) := by
    rw [Mixer.gainOf, F32.div, if_neg (by norm_num)]
  obtain ⟨g, hg, hg0, hg1⟩ := F32.round_between (q := q / 100) (m := 0) (n := 1)
    (by push_cast; positivity) (by push_cast; linarith) (by norm_num) (by norm_num)
  exact ⟨g, hdiv.trans hg, by exact_mod_cast hg0, by exact_mod_cast hg1⟩

/-! ### The scaled sample -/

theorem abs_toInt_le (y : F32) : |F32.toInt (-32768) 32767 y| ≤ 32768 := by
  obtain ⟨hlow, hhigh⟩ := F32.toInt_bounds (by decide : (-32768 : ℤ) ≤ 0)
    (by decide : (0 : ℤ) ≤ 32767) y
  exact abs_le.mpr ⟨hlow, by omega⟩

theorem abs_mul_gain_le (q : ℚ) {g : ℚ} (hg0 : 0 ≤ g) (hg1 : g ≤ 1) : |q * g| ≤ |q| := by
  rw [abs_mul, abs_of_nonneg hg0]
  exact mul_le_of_le_one_right (abs_nonneg q) hg1

theorem mul_gain_le {x : ℤ} {g : ℚ} (hx : |x| ≤ 32768) (hg0 : 0 ≤ g) (hg1 : g ≤ 1) :
    ∃ r : ℚ, F32.mul (F32.ofInt x) (.fin g) = .fin r ∧ |r| ≤ |(x : ℚ)| := by
  have hmul : F32.mul (F32.ofInt x) (.fin g) = F32.round (x * g) := by
    rw [F32.ofInt_exact (hx.trans (by norm_num)), F32.mul]
  have hsmall : |(|x|)| < 2 ^ 24 := by
    rw [abs_abs]
    exact hx.trans_lt (by norm_num)
  have hone : ((|x| : ℤ) : ℚ) / 2 ^ 0 = |(x : ℚ)| := by rw [pow_zero, div_one, Int.cast_abs]
  obtain ⟨r, hr, hle⟩ := F32.round_abs_le (q := x * g) (j := 0) (by decide)
    (by rw [hone]; exact abs_mul_gain_le x hg0 hg1) hsmall
  rw [hone] at hle
  exact ⟨r, hmul.trans hr, hle⟩

theorem abs_toInt_le_trunc (r : ℚ) : |F32.toInt (-32768) 32767 (.fin r)| ≤ |F32.trunc r| := by
  have hlow := neg_abs_le (F32.trunc r)
  have hhigh := le_abs_self (F32.trunc r)
  have hpos := abs_nonneg (F32.trunc r)
  rw [F32.toInt, abs_le]
  omega

theorem toInt_abs_le {r : ℚ} {x : ℤ} (h : |r| ≤ |(x : ℚ)|) :
    |F32.toInt (-32768) 32767 (.fin r)| ≤ |x| := by
  have htrunc : |(F32.trunc r : ℚ)| ≤ |(x : ℚ)| := (F32.abs_trunc_le r).trans h
  exact (abs_toInt_le_trunc r).trans (by exact_mod_cast htrunc)

theorem renderSample_muted (gain : F32) (x : ℤ) : Mixer.renderSample gain true x = 0 := by
  have h : Mixer.renderSample gain true x =
    F32.toInt (-32768) 32767 (F32.clamp (-32768) 32767 (.fin 0)) := rfl
  rw [h]
  decide +kernel

/-- The mixer path. -/
theorem renderSample_le {g : ℚ} (hg0 : 0 ≤ g) (hg1 : g ≤ 1) (muted : Bool) (x : ℤ) :
    |Mixer.renderSample (.fin g) muted x| ≤ |x| := by
  rcases le_or_gt |x| 32768 with hx | hx
  · cases muted with
    | true =>
      rw [renderSample_muted, abs_zero]
      exact abs_nonneg x
    | false =>
      obtain ⟨r, hr, hle⟩ := mul_gain_le hx hg0 hg1
      have hrender : Mixer.renderSample (.fin g) false x =
          F32.toInt (-32768) 32767 (F32.clamp (-32768) 32767 (.fin r)) := by
        rw [← hr]
        rfl
      rw [hrender, F32.clamp]
      apply toInt_abs_le
      -- a sample that is clamped has got smaller
      have h0 : (0 : ℚ) ≤ |(x : ℚ)| := abs_nonneg _
      rw [abs_le] at hle ⊢
      split
      · exact ⟨by linarith, by linarith⟩
      · split
        · exact ⟨by linarith, by linarith⟩
        · exact hle
  · exact (abs_toInt_le _).trans hx.le

/-- The players' path for S16. -/
theorem gainS16_le {g : ℚ} (hg0 : 0 ≤ g) (hg1 : g ≤ 1) (x : ℤ) :
    |gainS16 (.fin g : F32) x| ≤ |x| := by
  rcases le_or_gt |x| 32768 with hx | hx
  · obtain ⟨r, hr, hle⟩ := mul_gain_le hx hg0 hg1
    have hsample : gainS16 (.fin g : F32) x =
        F32.toInt (-32768) 32767 (.fin (min (max (F32.nearest r) (-32768)) 32767)) := by
      have hbound : gainS16 (.fin g : F32) x = F32.toInt (-32768) 32767
        (F32.minNum 32767 (F32.maxNum (-32768) (F32.roundAway
          (F32.mul (F32.ofInt x) (.fin g))))) := rfl
      rw [hbound, hr]
      rfl
    rw [abs_le] at hle
    obtain ⟨hlow, hhigh⟩ := F32.nearest_between (m := -|x|) (n := |x|) (by push_cast; exact hle.1)
      (by push_cast; exact hle.2)
    rw [hsample]
    apply toInt_abs_le
    have hlow' : -|(x : ℚ)| ≤ F32.nearest r := by exact_mod_cast hlow
    have hhigh' : (F32.nearest r : ℚ) ≤ |(x : ℚ)| := by exact_mod_cast hhigh
    have hx' : (0 : ℚ) ≤ |(x : ℚ)| := abs_nonneg _
    rw [abs_le]
    constructor
    · exact le_min (le_max_of_le_left hlow') (by linarith)
    · exact (min_le_left _ _).trans (max_le hhigh' (by linarith))
  · exact (abs_toInt_le _).trans hx.le

/-! ### What a player hands over -/

/-- Sample for sample. -/
def NoLouder (out inp : List ℤ) : Prop := List.Forall₂ (fun y x => |y| ≤ |x|) out inp

theorem NoLouder.refl (l : List ℤ) : NoLouder l l := List.forall₂_same.mpr fun _ _ => le_rfl

theorem NoLouder.bothSides {out inp : List ℤ} (h : NoLouder out inp) :
    NoLouder (Cli.bothSides out) (Cli.bothSides inp) := by
  induction h with
  | nil => exact .nil
  | cons hle _ ih => exact .cons hle (.cons hle ih)

theorem gainS16_bounds (g : F32) (x : ℤ) :
    -32768 ≤ gainS16 g x ∧ gainS16 g x ≤ 32767 :=
  F32.toInt_bounds (by decide) (by decide) _

theorem s16Samples_noLouder {g : ℚ} (hg0 : 0 ≤ g) (hg1 : g ≤ 1) {data : Bytes} {n : ℕ}
    (h : data.length = n * 2) :
    NoLouder (s16Samples (.fin g : F32) data n) (samples data) := by
  rw [samples_eq_map data n h, s16Samples, NoLouder, List.forall₂_map_left_iff,
    List.forall₂_map_right_iff, List.forall₂_same]
  intro i _
  exact gainS16_le hg0 hg1 _

theorem samples_packS16 {l : List ℤ} (h : ∀ v ∈ l, -32768 ≤ v ∧ v ≤ 32767) :
    samples (packS16 l) = l := by
  induction l with
  | nil => rfl
  | cons v l ih =>
    obtain ⟨hv, hl⟩ := List.forall_mem_cons.mp h
    have hcons : packS16 (v :: l) = Mixer.leI16 v ++ packS16 l := by
      rw [packS16, List.flatMap_cons, packS16]
    rw [hcons, samples_leI16 hv.1 hv.2, ih hl]

theorem s16Samples_bounds (g : F32) (data : Bytes) (n : ℕ) :
    ∀ v ∈ s16Samples g data n, -32768 ≤ v ∧ v ≤ 32767 := by
  intro v hv
  obtain ⟨i, -, rfl⟩ := List.mem_map.mp hv
  exact gainS16_bounds g _

/- Unity is near one, so stereo is never left unconverted. -/
theorem nearOne_of_isOne {g : F32} (h : GainArith.isOne g = true) : GainArith.nearOne g = true := by
  obtain rfl : g = .fin 1 := of_decide_eq_true h
  decide +kernel

/-- Whole frames of one or two channels come out of `play` no louder, mono on both sides. -/
theorem play_noLouder {p : Cli.Player} {ch frames : ℕ} {data : Bytes} {g : ℚ}
    (hp : p.For ch) (hch : ch = 1 ∨ ch = 2) (hg0 : 0 ≤ g) (hg1 : g ≤ 1)
    (hlen : data.length = frames * (2 * ch)) :
    ∃ p' out, p.play data frames (.fin g : F32) = some (p', out) ∧
      NoLouder (samples out) (if ch = 1 then bothSides (samples data) else samples data) := by
  rcases hch with rfl | rfl
  · have hlen' : data.length = frames * 2 := by omega
    obtain ⟨buf, hplay⟩ := Cli.Player.play_mono hp (.fin g : F32) hlen'
    refine ⟨_, _, hplay, ?_⟩
    have hbounds : ∀ v ∈ bothSides (s16Samples (.fin g : F32) data frames),
        -32768 ≤ v ∧ v ≤ 32767 := by
      intro v hv
      obtain ⟨w, hw, hv⟩ := List.mem_flatMap.mp hv
      obtain rfl : v = w := by simpa using hv
      exact s16Samples_bounds _ _ _ v hw
    rw [samples_packS16 hbounds, if_pos rfl]
    exact (s16Samples_noLouder hg0 hg1 (by omega)).bothSides
  · rw [if_neg (by decide)]
    cases hone : GainArith.nearOne (.fin g : F32) with
    | true => exact ⟨p, data, Cli.Player.play_stereo hp (by omega) hone, .refl _⟩
    | false =>
      have hnot : GainArith.isOne (.fin g : F32) = false := by
        by_contra h
        rw [nearOne_of_isOne (Bool.eq_true_of_not_eq_false h)] at hone
        cases hone
      rcases Nat.eq_zero_or_pos frames with rfl | hpos
      · rw [List.length_eq_zero_iff.mp (by omega : data.length = 0)]
        exact ⟨p, [], rfl, .refl _⟩
      · have hfs : p.clientFs = 4 := hp.clientFs
        have hsrc : data.take (frames * p.clientFs) = data :=
          List.take_of_length_le (by rw [hfs]; omega)
        have hout : (packS16 (s16Samples (.fin g : F32) data (frames * 2))).length =
            frames * 4 := by
          rw [packS16_length, s16Samples_length]
          omega
        have hplay := Cli.Player.play_convert hp (g := (.fin g : F32)) (by rw [hfs]; omega :
          frames * p.clientFs ≤ data.length) hpos (by rw [hone]; simp)
        rw [hsrc, convertToS16_stereo hnot (by omega) (resize_length _ _), Option.map_some,
          List.take_of_length_le hout.le] at hplay
        refine ⟨_, _, hplay, ?_⟩
        rw [samples_packS16 (s16Samples_bounds _ _ _)]
        exact s16Samples_noLouder hg0 hg1 (by omega)

/-! ### The float samples of a player -/

/- Full scale from below: a value of few enough digits lies between `32767 |s|` and the next
integer above `32768 |s|`. -/
theorem fullScale_le {s : ℚ} (hs : |s| < 1) :
    ∃ y : ℚ, F32.mul (.fin s) (F32.ofInt 32767) = .fin y ∧ |F32.trunc y| ≤ ⌊32768 * |s|⌋ := by
  obtain ⟨M, hM⟩ : ∃ M : ℤ, ⌊32768 * |s|⌋ + 1 = M := ⟨_, rfl⟩
  have hlow : 0 ≤ ⌊32768 * |s|⌋ := Int.floor_nonneg.mpr (by positivity)
  have hhigh : ⌊32768 * |s|⌋ < 32768 := Int.floor_lt.mpr (by push_cast; linarith)
  have hbelow : 32768 * |s| < M := by
    rw [← hM]
    push_cast
    exact Int.lt_floor_add_one _
  obtain ⟨n, j, hj, hn, hscale, hlt⟩ : ∃ (n : ℤ) (j : ℕ), j ≤ 149 ∧ |n| < 2 ^ 24 ∧
      32767 * |s| ≤ n / 2 ^ j ∧ (n : ℚ) / 2 ^ j < M := by
    have hone : (1 : ℚ) ≤ M := by exact_mod_cast (by omega : 1 ≤ M)
    rcases le_or_gt M 512 with hsmall | hbig
    · refine ⟨M * 32768 - 1, 15, by decide, by rw [abs_lt]; omega, ?_, ?_⟩
      · rw [le_div_iff₀ (by norm_num)]
        push_cast
        linarith
      · rw [div_lt_iff₀ (by norm_num)]
        push_cast
        linarith
    · have hbig' : (512 : ℚ) < M := by exact_mod_cast hbig
      refine ⟨M * 64 - 1, 6, by decide, by rw [abs_lt]; omega, ?_, ?_⟩
      · rw [le_div_iff₀ (by norm_num)]
        push_cast
        linarith
      · rw [div_lt_iff₀ (by norm_num)]
        push_cast
        linarith
  have hmul : F32.mul (.fin s) (F32.ofInt 32767) = F32.round (s * 32767) := by
    rw [F32.ofInt_exact (by norm_num), F32.mul]
    push_cast
    rfl
  have habs : |s * 32767| ≤ n / 2 ^ j := by
    rw [abs_mul, abs_of_nonneg (by norm_num : (0 : ℚ) ≤ 32767), mul_comm]
    exact hscale
  obtain ⟨y, hy, hle⟩ := F32.round_abs_le hj habs hn
  have htrunc : |(F32.trunc y : ℚ)| < M := ((F32.abs_trunc_le y).trans hle).trans_lt hlt
  have htrunc' : |F32.trunc y| < M := by exact_mod_cast htrunc
  exact ⟨y, hmul.trans hy, by omega⟩

/-- The players' path for floats; the full scale of the output is `32768`. -/
theorem gainFloat_le {g : ℚ} (hg0 : 0 ≤ g) (hg1 : g ≤ 1) {bits : ℕ} {r : ℚ}
    (hr : F32.ofBits bits = .fin r) :
    |(gainFloat (.fin g : F32) (.fin r) : ℚ)| ≤ 32768 * |r| := by
  have hsample : gainFloat (.fin g : F32) (.fin r) = F32.toInt (-32768) 32767
    (F32.mul (F32.clamp (-1) 1 (F32.mul (.fin r) (.fin g))) (F32.ofInt 32767)) := rfl
  rw [hsample]
  rcases lt_or_ge |r| 1 with hlt | hge
  · obtain ⟨m, j, hm, hm24, hj⟩ := F32.ofBits_dyadic hr hlt
    have hpow : (0 : ℚ) < 2 ^ j := pow_pos two_pos j
    have hbound : |r| = (|m| : ℤ) / 2 ^ j := by
      rw [hm, abs_div, abs_of_pos hpow]
      push_cast
      rfl
    have hsmall : |(|m|)| < 2 ^ 24 := by rwa [abs_abs]
    -- rounding keeps the product below the sample, so it is not clamped
    obtain ⟨s, hs, hsr⟩ := F32.round_abs_le hj
      ((abs_mul_gain_le r hg0 hg1).trans_eq hbound) hsmall
    rw [← hbound] at hsr
    have hsone : |s| < 1 := hsr.trans_lt hlt
    rw [abs_lt] at hsone
    have hclamp : F32.clamp (-1) 1 (F32.mul (.fin r) (.fin g)) = .fin s := by
      rw [F32.mul, hs, F32.clamp, if_neg (not_lt.mpr hsone.1.le), if_neg (not_lt.mpr hsone.2.le)]
    obtain ⟨y, hy, htrunc⟩ := fullScale_le (hsr.trans_lt hlt)
    rw [hclamp, hy]
    have hint : |F32.toInt (-32768) 32767 (.fin y)| ≤ ⌊32768 * |s|⌋ :=
      (abs_toInt_le_trunc y).trans htrunc
    have hfloor : (⌊32768 * |s|⌋ : ℚ) ≤ 32768 * |s| := Int.floor_le _
    have hcast : |(F32.toInt (-32768) 32767 (.fin y) : ℚ)| ≤ ⌊32768 * |s|⌋ := by exact_mod_cast hint
    linarith
  · have hint : |(F32.toInt (-32768) 32767 (F32.mul (F32.clamp (-1) 1
        (F32.mul (.fin r) (.fin g))) (F32.ofInt 32767)) : ℚ)| ≤ 32768 := by
      exact_mod_cast abs_toInt_le _
    linarith

end Audiod
