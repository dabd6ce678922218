import Audiod.Resampler

/-!
# How much history the resampler keeps (`server/src/dsp.rs:168-185`)

Consumed frames stay at the front of `hist` until they outweigh the live tail.
The comparison is between `off` frames, doubled, and a length in samples, and
`off` never passes the frames that are there.
-/

namespace Audiod

namespace Resampler

section

variable {σ : Type*}

/-- After `input`: `Inv`, and the offset is what the last call left consumed. -/
structure Retained (kd : Kind σ) (num den : ℕ) (input : List σ) (K : ℕ) (r : Resampler σ) :
    Prop extends Inv kd num den input K r where
  offset : r.off = min (K * num / den) (input.length / 2 - keep kd)

theorem retained_new (kd : Kind σ) (num den : ℕ) :
    Retained kd num den [] 0
      { kind := kd, stepNum := num, stepDen := den, pos := 0, hist := [], off := 0 } :=
  ⟨inv_new kd num den, by simp⟩

end

variable (δ : Type*) {σ : Type*} [WideArith δ] [FloatCasts δ σ] [SampleArith σ]

/- One call: the offset follows the position, and nothing is erased. -/
theorem resample_retained {kd : Kind σ} {num den K : ℕ} {r : Resampler σ} {input : List σ}
    (hden : 0 < den) (hnum : 0 < num) (h : Retained kd num den input K r) (chunk : List σ) :
    ∃ r' n out, r.resample chunk = some (r', out, n) ∧
      Retained kd num den (input ++ chunk) (K + n) r' := by
  obtain ⟨r', n, out, hcall, -, hinv⟩ := resample_spec hden hnum h.toInv chunk
  refine ⟨r', n, out, hcall, hinv, ?_⟩
  have hmono : input.length / 2 ≤ (input ++ chunk).length / 2 := by
    rw [List.length_append]
    omega
  have hgrow : K * num / den ≤ (K + n) * num / den :=
    Nat.div_le_div_right (Nat.mul_le_mul_right _ (by omega))
  -- the offset of the call, in the terms of the code
  simp only [resample, Option.map_eq_some_iff, Prod.exists] at hcall
  obtain ⟨pos, made, -, hret⟩ := hcall
  rw [h.kind, h.stepDen, h.hist, h.offset] at hret
  have hpos := hinv.pos
  generalize hoff : (if min (K * num / den) (input.length / 2 - keep kd) <
      min (pos / den) ((input ++ chunk).length / 2 - keep kd) then
    min (pos / den) ((input ++ chunk).length / 2 - keep kd)
    else min (K * num / den) (input.length / 2 - keep kd)) = off at hret
  have hofflen : off ≤ (input ++ chunk).length / 2 := by
    rw [← hoff]
    split <;> omega
  rw [if_neg (by omega)] at hret
  simp only [Prod.mk.injEq] at hret
  obtain ⟨rfl, -, -⟩ := hret
  dsimp only at hpos ⊢
  rw [← hoff, hpos]
  split <;> omega

theorem resampleAll_retained {kd : Kind σ} {num den : ℕ} (hden : 0 < den) (hnum : 0 < num)
    (chunks : List (List σ)) :
    ∀ {r : Resampler σ} {input : List σ} {K : ℕ}, Retained kd num den input K r →
      ∃ r' n out, r.resampleAll chunks = some (r', out, n) ∧
        Retained kd num den (input ++ chunks.flatten) (K + n) r' := by
  induction chunks with
  | nil =>
    intro r input K h
    refine ⟨r, 0, [], rfl, ?_⟩
    simpa using h
  | cons c cs ih =>
    intro r input K h
    obtain ⟨r₁, n₁, out₁, hr₁, h₁⟩ := resample_retained hden hnum h c
    obtain ⟨r₂, n₂, out₂, hr₂, h₂⟩ := ih h₁
    refine ⟨r₂, n₁ + n₂, out₁ ++ out₂, ?_, ?_⟩
    · simp only [resampleAll, hr₁, hr₂, Option.bind_some, Option.map_some]
    · rw [List.flatten_cons, ← List.append_assoc, ← Nat.add_assoc]
      exact h₂

theorem resampleAll_new (src dst : ℕ) (kind : String) (hsrc : 0 < src) (hdst : 0 < dst)
    (hne : src ≠ dst) :
    ∃ r : Resampler σ, new δ src dst kind = some r ∧
      r.kind = (if kind = "linear" then .linear else .sinc (KernelTable.new δ σ src dst)) ∧
      ∀ chunks : List (List σ), ∃ r' n out, r.resampleAll chunks = some (r', out, n) ∧
        Retained r.kind (src / Nat.gcd src dst) (dst / Nat.gcd src dst) chunks.flatten n r' := by
  have hnum : 0 < src / Nat.gcd src dst := Nat.div_gcd_pos_of_pos_left dst hsrc
  have hden : 0 < dst / Nat.gcd src dst := Nat.div_gcd_pos_of_pos_right src hdst
  refine ⟨{ kind := if kind = "linear" then .linear else .sinc (KernelTable.new δ σ src dst)
            stepNum := src / Nat.gcd src dst, stepDen := dst / Nat.gcd src dst
            pos := 0, hist := [], off := 0 }, ?_, rfl, ?_⟩
  · rw [new, if_neg (by omega)]
    simp only [gcd_eq]
  · intro chunks
    have hrun := resampleAll_retained hden hnum chunks (retained_new
      (if kind = "linear" then .linear else .sinc (KernelTable.new δ σ src dst)) _ _)
    simpa using hrun

/-- What the comment on the deferred erasure promises: the consumed prefix does
not outweigh the live tail, so that the history stays within a constant and one
chunk. -/
structure Promised (largest : ℕ) (r : Resampler σ) : Prop where
  dead_le_live : r.off ≤ r.hist.length / 2 - r.off
  bounded : r.hist.length ≤ 4 * taps + largest

/-- How early in a stream the consumed prefix is still short. The linear kind has
consumed everything before the next output frame: an output frame past the last
whole window starts in the first half of what was received. -/
def StillShort (src dst : ℕ) (kind : String) (received : ℕ) : Prop :=
  if kind = "linear" then
    ∃ k, received < k * src / dst + taps ∧ 2 * (k * src / dst) ≤ received
  else received + 2 ≤ 2 * taps

omit [SampleArith σ] in
theorem Retained.promised_iff {src dst K largest : ℕ} {kind : String} {kd : Kind σ}
    {input : List σ} {r : Resampler σ} (hsrc : 0 < src)
    (hkd : kd = if kind = "linear" then .linear else .sinc (KernelTable.new δ σ src dst))
    (h : Retained kd (src / Nat.gcd src dst) (dst / Nat.gcd src dst) input K r) :
    Promised largest r ↔ StillShort src dst kind (input.length / 2) := by
  have hratio := mul_reduced_div (Nat.gcd_pos_of_pos_left dst hsrc)
  have hoff := h.offset
  have hnext := h.next
  have hmade := h.made
  simp only [hratio] at hoff hnext hmade
  have ht : taps = 48 := rfl
  unfold StillShort
  split
  next hlin =>
    rw [if_pos hlin] at hkd
    subst hkd
    simp only [keep] at hoff
    constructor
    · intro hp
      have hlive := hp.dead_le_live
      rw [h.hist] at hlive
      refine ⟨K, hnext, ?_⟩
      -- fewer frames than a window have made nothing, and nothing is consumed
      rcases Nat.eq_zero_or_pos K with rfl | hK
      · simp
      · have hfirst := hmade 0 hK
        simp only [Nat.zero_mul, Nat.zero_div, Nat.zero_add] at hfirst
        omega
    · rintro ⟨k, hlate, hearly⟩
      have hle : K ≤ k := by
        by_contra hlt
        have hfit := hmade k (by omega)
        omega
      have hbase : K * src / dst ≤ k * src / dst :=
        Nat.div_le_div_right (Nat.mul_le_mul_right _ hle)
      constructor <;> rw [h.hist] <;> omega
  next hsinc =>
    rw [if_neg hsinc] at hkd
    subst hkd
    simp only [keep] at hoff
    constructor
    · intro hp
      have hlive := hp.dead_le_live
      rw [h.hist] at hlive
      omega
    · intro hshort
      constructor <;> rw [h.hist] <;> omega

/-- The longest chunk of a sequence of calls, in samples. -/
def largest (chunks : List (List σ)) : ℕ := (chunks.map List.length).foldr max 0

/-- Whatever the calls, the erasure keeps its promise after each of them exactly
while the stream is as short as `StillShort` says: the branch that erases is
never taken. -/
theorem history_promised_iff (src dst : ℕ) (kind : String) (hsrc : 0 < src) (hdst : 0 < dst)
    (hne : src ≠ dst) (chunks : List (List σ)) :
    ∃ r, new δ src dst kind = some r ∧
      ((∀ pre, pre <+: chunks → ∃ r' out n, r.resampleAll pre = some (r', out, n) ∧
          Promised (largest chunks) r') ↔
        ∀ pre, pre <+: chunks → StillShort src dst kind (pre.flatten.length / 2)) := by
  obtain ⟨r, hnew, hkind, hrun⟩ := resampleAll_new δ (σ := σ) src dst kind hsrc hdst hne
  refine ⟨r, hnew, ?_⟩
  constructor
  · intro hp pre hpre
    obtain ⟨r', out, n, hcalls, hprom⟩ := hp pre hpre
    obtain ⟨r'', m, out', hcalls', hret⟩ := hrun pre
    rw [hcalls] at hcalls'
    cases hcalls'
    exact (hret.promised_iff δ hsrc hkind).mp hprom
  · intro hs pre hpre
    obtain ⟨r', n, out, hcalls, hret⟩ := hrun pre
    exact ⟨r', out, n, hcalls, (hret.promised_iff δ hsrc hkind).mpr (hs pre hpre)⟩

/- Nothing is erased after the promise is broken either: 95 frames leave 48
consumed ones in front of 47, and a frame a call is kept for ever. -/
theorem history_never_erased :
    ∃ r : Resampler ℝ, new ℝ 44100 48000 "sinc" = some r ∧
      (∃ r' out n, r.resampleAll [List.replicate 190 0] = some (r', out, n) ∧
        r'.hist.length / 2 - r'.off < r'.off) ∧
      ∀ calls, ∃ r' out n, r.resampleAll (List.replicate calls [0, 0]) = some (r', out, n) ∧
        r'.hist.length = 2 * calls := by
  obtain ⟨r, hnew, hkind, hrun⟩ := resampleAll_new ℝ (σ := ℝ) 44100 48000 "sinc"
    (by decide) (by decide) (by decide)
  rw [if_neg (by decide)] at hkind
  refine ⟨r, hnew, ?_, ?_⟩
  · obtain ⟨r', n, out, hcalls, hret⟩ := hrun [List.replicate 190 0]
    refine ⟨r', out, n, hcalls, ?_⟩
    have ht : taps = 48 := rfl
    have hlen : (List.flatten [List.replicate 190 (0 : ℝ)]).length = 190 := by
      rw [List.flatten_singleton, List.length_replicate]
    have hoff := hret.offset
    have hnext := hret.next
    rw [hkind] at hoff
    simp only [keep] at hoff
    rw [hret.hist]
    omega
  · intro calls
    obtain ⟨r', n, out, hcalls, hret⟩ := hrun (List.replicate calls [0, 0])
    refine ⟨r', out, n, hcalls, ?_⟩
    rw [hret.hist]
    simp [Nat.mul_comm]

theorem history_promised_iff_44100 :
    let chunks : List (List ℝ) := [List.replicate 60 1, List.replicate 40 0]
    ∃ r : Resampler ℝ, new ℝ 44100 48000 "sinc" = some r ∧
      ((∀ pre, pre <+: chunks → ∃ r' out n, r.resampleAll pre = some (r', out, n) ∧
          Promised (largest chunks) r') ↔
        ∀ pre, pre <+: chunks → StillShort 44100 48000 "sinc" (pre.flatten.length / 2)) :=
  history_promised_iff ℝ 44100 48000 "sinc" (by decide) (by decide) (by decide) _

end Resampler

end Audiod
