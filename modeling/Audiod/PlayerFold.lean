import Audiod.Convert
import Audiod.DirectPath

/-!
# The players against the server

`Player::play` and the server's `fold_to_stereo` with `f32_stereo_to_s16`, on the same S16
frames in exact arithmetic and at unity gain as the player sees it. Mono and stereo agree
within one; for more channels the player has no branch.
-/

namespace Audiod.Cli

open SampleArith PackArith GainArith

noncomputable instance : GainArith ℝ where
  round := fun x =>
    ((if x < 0 then ⌈x - ((1 / 2 : ℚ) : ℝ)⌉ else ⌊x + ((1 / 2 : ℚ) : ℝ)⌋ : ℤ) : ℝ)
  boundI16 := fun x => min (max x ((-32768 : ℤ) : ℝ)) ((32767 : ℤ) : ℝ)
  nearOne := fun g => @decide (|g - 1| < ((2 ^ (-23 : ℤ) : ℚ) : ℝ)) (Classical.propDecidable _)
  isOne := fun g => @decide (g = 1) (Classical.propDecidable _)

theorem nearOne_iff {g : ℝ} : nearOne g = true ↔ |g - 1| < 2 ^ (-23 : ℤ) := by
  simp only [nearOne, decide_eq_true_eq]
  push_cast
  rfl

theorem nearOne_one : nearOne (1 : ℝ) = true := by
  rw [nearOne_iff, sub_self, abs_zero]
  exact zpow_pos two_pos _

/-- All that `play` makes of whole frames, whatever its buffer held before, is one stereo
frame for each, within one of what the server makes of them. -/
def Agrees (ch : ℕ) (data : Bytes) (g : ℝ) : Prop :=
  ∃ out, (∀ p : Player, p.For ch → ∃ p', p.play data (data.length / (2 * ch)) g = some (p', out)) ∧
    out.length = 4 * (data.length / (2 * ch)) ∧
    List.Forall₂ (fun a b : ℤ => |a - b| ≤ 1) (samples out)
      (samples (f32StereoToS16 (foldToStereo data formatS16Le ch : List ℝ)))

/-! ### Samples at unity gain -/

/- Rounding takes a gain so close to one back. -/
theorem gainS16_near {g : ℝ} (hg : nearOne g = true) {v : ℤ} (hlo : -32768 ≤ v)
    (hhi : v ≤ 32767) : gainS16 g v = v := by
  have hlo' : (-32768 : ℝ) ≤ v := by exact_mod_cast hlo
  have hhi' : (v : ℝ) ≤ 32767 := by exact_mod_cast hhi
  have hdiff : |(v : ℝ) * g - v| < 1 / 2 := by
    have hv : |(v : ℝ)| ≤ 32768 := abs_le.mpr ⟨hlo', by linarith⟩
    have hfactor : (v : ℝ) * g - v = v * (g - 1) := by ring
    rw [hfactor, abs_mul]
    calc |(v : ℝ)| * |g - 1| ≤ 32768 * 2 ^ (-23 : ℤ) :=
          mul_le_mul hv (nearOne_iff.mp hg).le (abs_nonneg _) (by norm_num)
      _ < 1 / 2 := by norm_num
  rw [abs_lt] at hdiff
  have hround : (if (v : ℝ) * g < 0 then ⌈(v : ℝ) * g - 1 / 2⌉ else ⌊(v : ℝ) * g + 1 / 2⌋) = v := by
    split
    · exact Int.ceil_eq_iff.mpr ⟨by linarith, by linarith⟩
    · exact Int.floor_eq_iff.mpr ⟨by linarith, by linarith⟩
  have hbound : min (max (v : ℝ) (-32768)) 32767 = v := by
    rw [max_eq_left hlo', min_eq_left hhi']
  simp only [gainS16, PackArith.toI16, GainArith.boundI16, GainArith.round, SampleArith.mul,
    SampleArith.ofInt]
  have hhalf : ((1 / 2 : ℚ) : ℝ) = 1 / 2 := by norm_num
  have hleast : ((-32768 : ℤ) : ℝ) = -32768 := by norm_num
  have hmost : ((32767 : ℤ) : ℝ) = 32767 := by norm_num
  rw [hhalf, hleast, hmost, hround, hbound, Int.ceil_intCast, Int.floor_intCast, ite_self,
    min_eq_left hhi, max_eq_right hlo]

theorem s16Samples_near {g : ℝ} (hg : nearOne g = true) {data : Bytes} {n : ℕ}
    (h : data.length = n * 2) : s16Samples g data n = samples data := by
  rw [samples_eq_map data n h, s16Samples]
  apply List.map_congr_left
  intro i _
  have hbounds := Mixer.i16At_bounds data i
  exact gainS16_near hg hbounds.1 hbounds.2

/-! ### Mono -/

theorem packed_fold_mono (a b : Byte) (rest : Bytes) :
    f32StereoToS16 (foldToStereo (a :: b :: rest) formatS16Le 1 : List ℝ) =
      Mixer.leI16 (toI16 (mul (clampUnit (div (ofInt (i16At [a, b] 0)) (ofInt 32768) : ℝ))
        (ofInt 32767))) ++
      (Mixer.leI16 (toI16 (mul (clampUnit (div (ofInt (i16At [a, b] 0)) (ofInt 32768) : ℝ))
        (ofInt 32767))) ++
        f32StereoToS16 (foldToStereo rest formatS16Le 1 : List ℝ)) := by
  have hfirst : (foldToStereo [a, b] formatS16Le 1 : List ℝ) =
      [div (ofInt (i16At [a, b] 0)) (ofInt 32768), div (ofInt (i16At [a, b] 0)) (ofInt 32768)] := by
    have hbytes : frameBytes formatS16Le 1 = 2 := rfl
    have hone : [a, b].length / frameBytes formatS16Le 1 = 1 := by
      simp only [hbytes, List.length_cons, List.length_nil, Nat.zero_add, Nat.reduceAdd,
        Nat.div_self (by decide : 0 < 2)]
    simp only [foldToStereo, hone, List.range_one, List.flatMap_singleton, foldFrame, chanSample,
      if_neg s16_not_float]
    rfl
  have hsplit := foldToStereo_append (σ := ℝ) [a, b] rest formatS16Le 1 (by decide) ⟨1, rfl⟩
  simp only [List.cons_append, List.nil_append] at hsplit
  rw [hsplit, hfirst]
  simp only [f32StereoToS16, List.cons_append, List.nil_append, List.flatMap_cons]

theorem mono_close (data : Bytes) (h : 2 ∣ data.length) :
    List.Forall₂ (fun a b : ℤ => |a - b| ≤ 1) (samples (packS16 (bothSides (samples data))))
      (samples (f32StereoToS16 (foldToStereo data formatS16Le 1 : List ℝ))) := by
  match data, h with
  | [], _ => exact List.Forall₂.nil
  | a :: b :: rest, h =>
    have hrest : 2 ∣ rest.length := by
      simp only [List.length_cons] at h
      omega
    have ih := mono_close rest hrest
    have hbounds := Mixer.i16At_bounds [a, b] 0
    obtain ⟨hw, hw₁, hw₂⟩ := packed_sample_close hbounds.1 hbounds.2
    have hleft : packS16 (bothSides (samples (a :: b :: rest))) =
        Mixer.leI16 (i16At [a, b] 0) ++ (Mixer.leI16 (i16At [a, b] 0) ++
          packS16 (bothSides (samples rest))) := by
      simp only [samples, bothSides, packS16, List.flatMap_cons, List.cons_append, List.nil_append]
    rw [hleft, packed_fold_mono, samples_leI16 hbounds.1 hbounds.2,
      samples_leI16 hbounds.1 hbounds.2, samples_leI16 hw₁ hw₂, samples_leI16 hw₁ hw₂]
    exact .cons hw (.cons hw ih)
  | [x], h => simp at h

/-! ### More than two channels -/

/- The output shows what the buffer held. -/
theorem not_agrees_many {ch : ℕ} {data : Bytes} {g : ℝ} (hch : 3 ≤ ch) (hle : ch ≤ 32767)
    (hframes : 0 < data.length / (2 * ch)) : ¬Agrees ch data g := by
  rintro ⟨out, hplay, -⟩
  let p := Player.open (.new 48000 ch formatS16Le) true
  have hp : p.For ch := Player.open_for 48000 ch true
  have hlen : data.length / (2 * ch) * p.clientFs ≤ data.length := by
    rw [hp.clientFs, Nat.mod_eq_of_lt (by omega)]
    exact Nat.div_mul_le_self _ _
  obtain ⟨p₁, h₁⟩ := hplay p hp
  obtain ⟨p₂, h₂⟩ := hplay _ (hp.outBuf [1])
  rw [Player.play_many hp g hch hframes hlen] at h₁
  rw [Player.play_many (hp.outBuf [1]) g hch hframes hlen] at h₂
  have hsame : resize [] (data.length / (2 * ch) * 4) = resize [1] (data.length / (2 * ch) * 4) :=
    (Prod.mk.inj (Option.some.inj h₁)).2.trans (Prod.mk.inj (Option.some.inj h₂)).2.symm
  obtain ⟨n, hn⟩ := Nat.exists_eq_succ_of_ne_zero (by omega : data.length / (2 * ch) * 4 ≠ 0)
  rw [hn] at hsame
  simp [resize, List.replicate_succ] at hsame

/-- The players agree with the server on whole frames exactly if there are one or two
channels, or no frames. -/
theorem play_agrees_iff {ch : ℕ} {data : Bytes} {g : ℝ} (hpos : 1 ≤ ch) (hle : ch ≤ 8)
    (hwhole : 2 * ch ∣ data.length) (hg : nearOne g = true) :
    Agrees ch data g ↔ ch ≤ 2 ∨ data = [] := by
  obtain ⟨n, hn⟩ := hwhole
  have hframes : data.length / (2 * ch) = n := by
    rw [hn, Nat.mul_div_cancel_left _ (by omega)]
  constructor
  · intro h
    by_contra hnot
    rw [not_or] at hnot
    have hn0 : n ≠ 0 := by
      rintro rfl
      exact hnot.2 (List.length_eq_zero_iff.mp (by rw [hn, Nat.mul_zero]))
    exact not_agrees_many (by omega) (by omega) (by omega) h
  · rintro (hch | rfl)
    · rw [Agrees, hframes]
      obtain rfl | rfl : ch = 1 ∨ ch = 2 := by omega
      · have hlen : data.length = n * 2 := by omega
        refine ⟨packS16 (bothSides (samples data)), fun p hp => ?_, ?_, mono_close data ⟨n, hn⟩⟩
        · obtain ⟨buf, hplay⟩ := Player.play_mono hp g hlen
          rw [s16Samples_near hg hlen] at hplay
          exact ⟨_, hplay⟩
        · rw [packS16_length, bothSides_length, samples_eq_map data n hlen, List.length_map,
            List.length_range]
          omega
      · have hlen : data.length = n * 4 := by omega
        exact ⟨data, fun p hp => ⟨p, Player.play_stereo hp hlen hg⟩, by omega,
          packed_fold_close data ⟨n, hn⟩⟩
    · exact ⟨[], fun p _ => ⟨p, by rw [List.length_nil, Nat.zero_div]; rfl⟩,
        by rw [List.length_nil, Nat.zero_div], by simp [foldToStereo, f32StereoToS16, samples]⟩

theorem play_agrees_mono : Agrees 1 [0, 64] 1 :=
  (play_agrees_iff (by decide) (by decide) (by decide) nearOne_one).mpr (.inl (by decide))

/- One frame of three channels at half scale comes out as silence. -/
theorem three_channels_silent :
    nearOne (1 : ℝ) = true ∧ 2 * 3 ∣ [0, 64, 0, 64, 0, 64].length ∧
      ¬Agrees 3 [0, 64, 0, 64, 0, 64] 1 := by
  refine ⟨nearOne_one, by decide, ?_⟩
  rintro ⟨out, hplay, -, hclose⟩
  have hp : (Player.open (.new 48000 3 formatS16Le) true).For 3 := Player.open_for 48000 3 true
  obtain ⟨p', hout⟩ := hplay _ hp
  rw [Player.play_many hp 1 (by decide) (by decide) (by decide)] at hout
  have hzero : [0, 0, 0, 0] = out := (Prod.mk.inj (Option.some.inj hout)).2
  have hsample (c : ℕ) (hc : c < 3) :
      (chanSample formatS16Le [0, 64, 0, 64, 0, 64] c : ℝ) = 16384 / 32768 := by
    have h : ∀ c < 3, i16At [0, 64, 0, 64, 0, 64] c = 16384 := by decide
    rw [chanSample, if_neg s16_not_float, h c hc]
    norm_num [SampleArith.div, SampleArith.ofInt]
  have hfold : (foldToStereo [0, 64, 0, 64, 0, 64] formatS16Le 3 : List ℝ) =
      [div (ofInt 16384) (ofInt 32768), div (ofInt 16384) (ofInt 32768)] := by
    have hone : foldToStereo [0, 64, 0, 64, 0, 64] formatS16Le 3 =
        (foldFrame formatS16Le 3 [0, 64, 0, 64, 0, 64] : List ℝ) := rfl
    have hrange : List.range (min 3 8) = [0, 1, 2] := rfl
    simp only [hone, foldFrame, hrange, List.map_cons, List.map_nil, hsample, Nat.reduceLT]
    norm_num [foldStep, List.range_succ, SampleArith.div, SampleArith.ofInt, SampleArith.add]
  -- half scale is 16383 or more, and not 0
  have hhalf := packed_sample_close (v := 16384) (by decide) (by decide)
  obtain ⟨hw, hw₁, hw₂⟩ := hhalf
  rw [← hzero, hfold, f32StereoToS16, List.flatMap_cons, samples_leI16 hw₁ hw₂] at hclose
  cases hclose with
  | cons hfirst _ =>
    have hlow : i16At [0, 0] 0 = 0 := by decide
    rw [hlow] at hfirst
    rw [abs_le] at hw hfirst
    omega

end Audiod.Cli
