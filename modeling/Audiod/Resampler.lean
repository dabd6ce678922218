import Audiod.Fold
import Mathlib.Algebra.BigOperators.Group.List.Basic
import Mathlib.Analysis.SpecialFunctions.Trigonometric.Basic
import Mathlib.Data.Nat.GCD.Basic
import Mathlib.Tactic.Ring

/-!
# The streaming resampler (`server/src/dsp.rs:13-194`)

Samples and the `f64` arithmetic of the kernel table are parameters. Slices and
indices are checked: an access out of bounds, where the code panics, is `none`.
-/

namespace Audiod

def taps : ℕ := 48
def phases : ℕ := 256

/-- The `f64` operations of `KernelTable::new`; `lit` is a literal or an integer
`as f64`. -/
class WideArith (δ : Type*) where
  lit : ℚ → δ
  pi : δ
  add : δ → δ → δ
  sub : δ → δ → δ
  mul : δ → δ → δ
  div : δ → δ → δ
  min : δ → δ → δ
  abs : δ → δ
  sin : δ → δ
  cos : δ → δ
  lt : δ → δ → Bool

/-- The casts between the two float types. -/
class FloatCasts (δ σ : Type*) where
  narrow : δ → σ
  widen : σ → δ

structure KernelTable (σ : Type*) where
  coeffs : List σ
  size : coeffs.length = phases * taps

section Table

variable {δ : Type*} (σ : Type*) [WideArith δ] [FloatCasts δ σ]

open WideArith FloatCasts

/-- Tap `i` of a row delayed by `off`: the windowed sinc at `i - center - off`. -/
def kernelTapAt (fc off : δ) (i : ℕ) : δ :=
  let center := div (sub (lit taps) (lit 1)) (lit 2)
  let t := sub (sub (lit i) center) off
  let x := mul (mul (mul (lit 2) pi) fc) t
  let s := if lt (abs x) (lit (1 / 10 ^ 12)) then mul (lit 2) fc else div (sin x) x
  let n := sub (lit i) off
  let ph := div (mul (mul (lit 2) pi) n) (sub (lit taps) (lit 1))
  let w := add (sub (lit (42 / 100)) (mul (lit (5 / 10)) (cos ph)))
    (mul (lit (8 / 100)) (cos (mul (lit 2) ph)))
  mul s w

/-- One row, divided by its sum unless that vanishes. -/
def kernelRowAt (fc off : δ) : List σ :=
  let vs := (List.range taps).map (kernelTapAt fc off)
  let sum := vs.foldl add (lit 0)
  let cs : List σ := vs.map narrow
  if lt (lit (1 / 10 ^ 12)) (abs sum) then cs.map fun c => narrow (div (widen c) sum) else cs

/-- Row `p`, with its delay in the code. -/
def kernelRow (fc : δ) (p : ℕ) : List σ := kernelRowAt σ fc (div (lit p) (lit phases))

theorem kernelRow_length (fc : δ) (p : ℕ) : (kernelRow σ fc p).length = taps := by
  simp only [kernelRow, kernelRowAt]
  split <;> simp

variable (δ)

def KernelTable.new (src dst : ℕ) : KernelTable σ :=
  let ratio : δ := div (lit dst) (lit src)
  let fc : δ := mul (lit (475 / 1000)) (min ratio (lit 1))
  { coeffs := (List.range phases).flatMap (kernelRow σ fc)
    size := by simp [List.length_flatMap, kernelRow_length] }

end Table

inductive Kind (σ : Type*)
  | sinc (tab : KernelTable σ)
  | linear

/-- `pos` counts `1 / stepDen` of an input frame from the start of the stream.
It is a `u64` in the code; `resampleAll_spec` bounds it by the stream length. -/
structure Resampler (σ : Type*) where
  kind : Kind σ
  stepNum : ℕ
  stepDen : ℕ
  pos : ℕ
  hist : List σ
  off : ℕ

def gcd (a b : ℕ) : ℕ := if b = 0 then a else gcd b (a % b)
termination_by b
decreasing_by exact Nat.mod_lt _ (by omega)

theorem gcd_eq (a b : ℕ) : gcd a b = Nat.gcd a b := by
  induction a, b using gcd.induct with
  | case1 a => simp [gcd]
  | case2 a b hb ih =>
    rw [gcd, if_neg hb, ih, Nat.gcd_comm b, ← Nat.gcd_rec, Nat.gcd_comm]

/-- `xs[a..b]` -/
def slice {σ : Type*} (xs : List σ) (a b : ℕ) : Option (List σ) :=
  if a ≤ b ∧ b ≤ xs.length then some ((xs.drop a).take (b - a)) else none

/-- `chunks_exact(2)` -/
def pairs {σ : Type*} : List σ → List (σ × σ)
  | a :: b :: rest => (a, b) :: pairs rest
  | _ => []

namespace KernelTable

variable {σ : Type*}

def row (tab : KernelTable σ) (p : ℕ) : Option (List σ) :=
  slice tab.coeffs (p * taps) ((p + 1) * taps)

theorem row_isSome (tab : KernelTable σ) {p : ℕ} (hp : p < phases) : ∃ r, tab.row p = some r := by
  have hle : (p + 1) * taps ≤ tab.coeffs.length := by
    rw [tab.size]
    exact Nat.mul_le_mul_right _ hp
  have hmono : p * taps ≤ (p + 1) * taps := Nat.mul_le_mul_right _ (Nat.le_succ p)
  exact ⟨_, if_pos ⟨hmono, hle⟩⟩

end KernelTable

section Window

variable {σ : Type*}

/-- The `taps` frames of `input` from frame `base`. -/
def window (input : List σ) (base : ℕ) : List σ := (input.drop (base * 2)).take (taps * 2)

theorem slice_eq {xs : List σ} {a b : ℕ} (hab : a ≤ b) (hb : b ≤ xs.length) :
    slice xs a b = some ((xs.drop a).take (b - a)) := if_pos ⟨hab, hb⟩

theorem window_length {hist : List σ} {base : ℕ} (h : base + taps ≤ hist.length / 2) :
    (window hist base).length = taps * 2 := by
  simp only [window, List.length_take, List.length_drop]
  omega

theorem window_append {hist more : List σ} {base : ℕ} (h : base + taps ≤ hist.length / 2) :
    window (hist ++ more) base = window hist base := by
  unfold window
  rw [List.drop_append_of_le_length (by omega),
    List.take_append_of_le_length (by rw [List.length_drop]; omega)]

theorem getElem?_window {hist : List σ} {base i : ℕ} (hi : i < taps * 2) :
    (window hist base)[i]? = hist[base * 2 + i]? := by
  rw [window, List.getElem?_take_of_lt hi, List.getElem?_drop]

end Window

section

variable (δ : Type*) {σ : Type*} [WideArith δ] [FloatCasts δ σ] [SampleArith σ]

open SampleArith

/-- `(l, r)` accumulated over the taps; `c = c0 + (c1 - c0) * t`. -/
def tapStep (t : σ) (acc : σ × σ) (x : (σ × σ) × σ × σ) : σ × σ :=
  let c := add x.2.1 (mul (sub x.2.2 x.2.1) t)
  (add acc.1 (mul c x.1.1), add acc.2 (mul c x.1.2))

/-- One output frame: the kernel over `hist` from frame `base` at phase
`rem / den`. -/
def kernelAt (kind : Kind σ) (den : ℕ) (hist : List σ) (base rem : ℕ) : Option (σ × σ) :=
  match kind with
  | .sinc tab =>
    let pf := mul (div (ofInt rem) (ofInt den)) (ofInt phases)
    let p0 := min (toUsize pf) (phases - 1)
    let p1 := (p0 + 1) % phases
    let t := sub pf (ofInt p0)
    (tab.row p0).bind fun r0 =>
    (tab.row p1).bind fun r1 =>
    (slice hist (base * 2) ((base + taps) * 2)).map fun win =>
      ((pairs win).zip (r0.zip r1)).foldl (tapStep t) (ofInt 0, ofInt 0)
  | .linear =>
    let frac := div (ofInt rem) (ofInt den)
    let s := base * 2
    hist[s]?.bind fun l0 =>
    hist[s + 1]?.bind fun r0 =>
    hist[s + 2]?.bind fun l1 =>
    hist[s + 3]?.map fun r1 =>
      (add l0 (mul (sub l1 l0) frac), add r0 (mul (sub r1 r0) frac))

namespace Resampler

def new (src dst : ℕ) (kind : String) : Option (Resampler σ) :=
  if src = dst ∨ src = 0 ∨ dst = 0 then none
  else
    some
      { kind := if kind = "linear" then .linear else .sinc (KernelTable.new δ σ src dst)
        stepNum := src / gcd src dst
        stepDen := dst / gcd src dst
        pos := 0
        hist := []
        off := 0 }

/-- The `loop` of `resample`: the position it stops at and the frames pushed to
`out`. Running out of fuel is `none` as well. -/
def produce (kind : Kind σ) (num den : ℕ) (hist : List σ) : ℕ → ℕ → Option (ℕ × List (σ × σ))
  | 0, _ => none
  | fuel + 1, pos =>
    let base := pos / den
    if hist.length / 2 < base + taps then some (pos, [])
    else
      (kernelAt kind den hist base (pos % den)).bind fun lr =>
      (produce kind num den hist fuel (pos + num)).map fun (pos, out) => (pos, lr :: out)

def keep : Kind σ → ℕ
  | .sinc _ => taps - 1
  | .linear => 1

/-- `resample`: the state, the output frames and their number. -/
def resample (r : Resampler σ) (input : List σ) : Option (Resampler σ × List (σ × σ) × ℕ) :=
  let hist := r.hist ++ input
  let frames := hist.length / 2
  (produce r.kind r.stepNum r.stepDen hist (frames * r.stepDen + 2) r.pos).map fun (pos, out) =>
    let consumed := min (pos / r.stepDen) (frames - keep r.kind)
    let off := if r.off < consumed then consumed else r.off
    let r := { r with pos := pos }
    if hist.length < off * 2 then
      ({ r with hist := hist.drop (off * 2), off := 0 }, out, out.length)
    else ({ r with hist := hist, off := off }, out, out.length)

def resampleAll : Resampler σ → List (List σ) → Option (Resampler σ × List (σ × σ) × ℕ)
  | r, [] => some (r, [], 0)
  | r, c :: cs =>
    (r.resample c).bind fun (r, out, n) =>
    (resampleAll r cs).map fun (r, outs, m) => (r, out ++ outs, n + m)

end Resampler

/-! ### The kernel reads its window only -/

theorem kernelAt_window (kind : Kind σ) (den rem : ℕ) {hist : List σ} {base : ℕ}
    (h : base + taps ≤ hist.length / 2) :
    kernelAt kind den hist base rem = kernelAt kind den (window hist base) 0 rem := by
  cases kind with
  | sinc tab =>
    have hw := window_length h
    have e₁ : slice hist (base * 2) ((base + taps) * 2) = some (window hist base) := by
      rw [slice_eq (by omega) (by omega), window]
      congr 2
      omega
    have e₂ : slice (window hist base) (0 * 2) ((0 + taps) * 2) = some (window hist base) := by
      rw [slice_eq (by omega) (by omega), List.take_of_length_le]
      · simp
      · rw [List.length_drop, hw]
        omega
    simp only [kernelAt, e₁, e₂]
  | linear =>
    have ht : taps = 48 := rfl
    simp only [kernelAt]
    rw [getElem?_window (by omega), getElem?_window (by omega), getElem?_window (by omega),
      getElem?_window (by omega)]
    rfl

theorem kernelAt_isSome (kind : Kind σ) (den rem : ℕ) {hist : List σ} {base : ℕ}
    (h : base + taps ≤ hist.length / 2) : ∃ lr, kernelAt kind den hist base rem = some lr := by
  have ht : taps = 48 := rfl
  cases kind with
  | sinc tab =>
    have hp : 0 < phases := by decide
    obtain ⟨r0, hr0⟩ := tab.row_isSome
      (p := min (toUsize (mul (div (ofInt (σ := σ) rem) (ofInt den)) (ofInt phases))) (phases - 1))
      (by omega)
    obtain ⟨r1, hr1⟩ := tab.row_isSome (Nat.mod_lt
      (min (toUsize (mul (div (ofInt (σ := σ) rem) (ofInt den)) (ofInt phases)))
        (phases - 1) + 1) hp)
    have hwin : slice hist (base * 2) ((base + taps) * 2) = some _ := slice_eq (by omega) (by omega)
    simp only [kernelAt, hr0, hr1, hwin, Option.bind_some, Option.map_some]
    exact ⟨_, rfl⟩
  | linear =>
    simp only [kernelAt]
    rw [List.getElem?_eq_getElem (show base * 2 < hist.length by omega),
      List.getElem?_eq_getElem (show base * 2 + 1 < hist.length by omega),
      List.getElem?_eq_getElem (show base * 2 + 2 < hist.length by omega),
      List.getElem?_eq_getElem (show base * 2 + 3 < hist.length by omega)]
    exact ⟨_, rfl⟩

/-! ### The batch definition -/

/-- Frame `k` of the whole input: the kernel over the window at `⌊k·num/den⌋`,
at phase `(k·num mod den) / den`. -/
def batchFrame (kind : Kind σ) (num den : ℕ) (input : List σ) (k : ℕ) : Option (σ × σ) :=
  kernelAt kind den (window input (k * num / den)) 0 (k * num % den)

theorem batchFrame_append (kind : Kind σ) {num den : ℕ} {input : List σ} (more : List σ) {k : ℕ}
    (h : k * num / den + taps ≤ input.length / 2) :
    batchFrame kind num den (input ++ more) k = batchFrame kind num den input k := by
  rw [batchFrame, window_append h, batchFrame]

namespace Resampler

/- From output frame `k` on, the loop makes the frames whose window fits. -/
theorem produce_spec (kind : Kind σ) {num den : ℕ} (hden : 0 < den) (hnum : 0 < num)
    (hist : List σ) (fuel : ℕ) :
    ∀ k, hist.length / 2 * den < k * num + fuel →
      ∃ n out, produce kind num den hist (fuel + 1) (k * num) = some ((k + n) * num, out) ∧
        out.map some = (List.range' k n).map (batchFrame kind num den hist) ∧
        (∀ j < k + n, k ≤ j → j * num / den + taps ≤ hist.length / 2) ∧
        hist.length / 2 < (k + n) * num / den + taps := by
  induction fuel with
  | zero =>
    intro k hk
    -- the position is past the last frame, so the loop breaks at once
    have hpast : hist.length / 2 ≤ k * num / den := (Nat.le_div_iff_mul_le hden).mpr (by omega)
    have htaps : 0 < taps := by decide
    have hbreak : hist.length / 2 < k * num / den + taps := by omega
    refine ⟨0, [], ?_, rfl, ?_, hbreak⟩
    · simp only [produce, hbreak, if_true, Nat.add_zero]
    · intro j hj hkj
      omega
  | succ fuel ih =>
    intro k hk
    by_cases hbreak : hist.length / 2 < k * num / den + taps
    · refine ⟨0, [], ?_, rfl, ?_, hbreak⟩
      · rw [produce]
        simp only [hbreak, if_true, Nat.add_zero]
      · intro j hj hkj
        omega
    · have hfit : k * num / den + taps ≤ hist.length / 2 := by omega
      have hnext : (k + 1) * num = k * num + num := Nat.succ_mul k num
      obtain ⟨lr, hlr⟩ := kernelAt_isSome kind den (k * num % den) hfit
      obtain ⟨n, out, hout, hframes, hwin, hstop⟩ := ih (k + 1) (by omega)
      refine ⟨n + 1, lr :: out, ?_, ?_, ?_, ?_⟩
      · rw [produce]
        simp only [hbreak, if_false, hlr, Option.bind_some]
        rw [← hnext, hout, Option.map_some, show k + 1 + n = k + (n + 1) by omega]
      · have hb : batchFrame kind num den hist k = some lr := by
          rw [batchFrame, ← kernelAt_window kind den _ hfit, hlr]
        rw [List.range'_succ, List.map_cons, List.map_cons, hb, hframes]
      · intro j hj hkj
        rcases Nat.eq_or_lt_of_le hkj with rfl | hlt
        · exact hfit
        · exact hwin j (by omega) hlt
      · rw [show k + (n + 1) = k + 1 + n by omega]
        exact hstop

/-- After `input`, the first `K` frames are out: nothing has been drained from
the history, and the position is the one of frame `K`. -/
structure Inv (kd : Kind σ) (num den : ℕ) (input : List σ) (K : ℕ) (r : Resampler σ) : Prop where
  kind : r.kind = kd
  stepNum : r.stepNum = num
  stepDen : r.stepDen = den
  pos : r.pos = K * num
  hist : r.hist = input
  off : r.off ≤ input.length / 2
  made : ∀ k < K, k * num / den + taps ≤ input.length / 2
  next : input.length / 2 < K * num / den + taps

theorem resample_spec {kd : Kind σ} {num den K : ℕ} {r : Resampler σ} {input : List σ}
    (hden : 0 < den) (hnum : 0 < num) (h : Inv kd num den input K r) (chunk : List σ) :
    ∃ r' n out, r.resample chunk = some (r', out, n) ∧
      out.map some = (List.range' K n).map (batchFrame kd num den (input ++ chunk)) ∧
      Inv kd num den (input ++ chunk) (K + n) r' := by
  obtain ⟨hk, hn, hd, hp, hh, ho, hmade, hnext⟩ := h
  have hmono : input.length / 2 ≤ (input ++ chunk).length / 2 := by
    rw [List.length_append]
    omega
  obtain ⟨n, out, hout, hframes, hwin, hstop⟩ := produce_spec kd hden hnum (input ++ chunk)
    ((input ++ chunk).length / 2 * den + 1) K (by omega)
  have hlen : out.length = n := by
    have hl := congrArg List.length hframes
    simpa using hl
  -- the offset never passes the history, so the drain branch is not taken
  generalize hoff : (if r.off < min ((K + n) * num / den) ((input ++ chunk).length / 2 - keep kd)
    then min ((K + n) * num / den) ((input ++ chunk).length / 2 - keep kd) else r.off) = off
  have hofflen : off ≤ (input ++ chunk).length / 2 := by
    rw [← hoff]
    split <;> omega
  have hnodrain : ¬(input ++ chunk).length < off * 2 := by omega
  refine ⟨{ r with pos := (K + n) * num, hist := input ++ chunk, off := off }, n, out, ?_,
    hframes, hk, hn, hd, rfl, rfl, hofflen, ?_, hstop⟩
  · simp only [resample, hk, hn, hd, hp, hh, hout, Option.map_some, hoff, hnodrain, if_false, hlen]
  · intro k hkn
    rcases Nat.lt_or_ge k K with hlt | hge
    · exact le_trans (hmade k hlt) hmono
    · exact hwin k hkn hge

theorem resampleAll_spec {kd : Kind σ} {num den : ℕ} (hden : 0 < den) (hnum : 0 < num)
    (chunks : List (List σ)) :
    ∀ {r : Resampler σ} {input : List σ} {K : ℕ}, Inv kd num den input K r →
      ∃ r' n out, r.resampleAll chunks = some (r', out, n) ∧
        out.map some = (List.range' K n).map (batchFrame kd num den (input ++ chunks.flatten)) ∧
        Inv kd num den (input ++ chunks.flatten) (K + n) r' := by
  induction chunks with
  | nil =>
    intro r input K h
    refine ⟨r, 0, [], rfl, rfl, ?_⟩
    simpa using h
  | cons c cs ih =>
    intro r input K h
    obtain ⟨r₁, n₁, out₁, hr₁, hf₁, h₁⟩ := resample_spec hden hnum h c
    obtain ⟨r₂, n₂, out₂, hr₂, hf₂, h₂⟩ := ih h₁
    rw [List.append_assoc, ← List.flatten_cons] at hf₂ h₂
    refine ⟨r₂, n₁ + n₂, out₁ ++ out₂, ?_, ?_, ?_⟩
    · simp only [resampleAll, hr₁, hr₂, Option.bind_some, Option.map_some]
    · -- the frames of this chunk read input that is already there
      have hkeep : (List.range' K n₁).map (batchFrame kd num den (input ++ (c :: cs).flatten)) =
          (List.range' K n₁).map (batchFrame kd num den (input ++ c)) := by
        refine List.map_congr_left fun k hk => ?_
        have hlt : k < K + n₁ := by
          have := List.mem_range'_1.mp hk
          omega
        rw [List.flatten_cons, ← List.append_assoc, batchFrame_append kd _ (h₁.made k hlt)]
      rw [List.map_append, hf₁, hf₂, ← List.range'_append_1, List.map_append, hkeep]
    · rw [← Nat.add_assoc]
      exact h₂

/- The position stays below the stream length, so the code's `u64` does not
wrap before `2 ^ 64 / stepDen` input frames. -/
omit [SampleArith σ] in
theorem Inv.pos_le {kd : Kind σ} {num den K : ℕ} {input : List σ} {r : Resampler σ}
    (hden : 0 < den) (h : Inv kd num den input K r) : r.pos ≤ input.length / 2 * den + num := by
  rw [h.pos]
  rcases Nat.eq_zero_or_pos K with rfl | hK
  · omega
  · have hfit := h.made (K - 1) (by omega)
    have hlt : (K - 1) * num ≤ input.length / 2 * den := by
      have hq : (K - 1) * num / den < input.length / 2 := by
        have ht : 0 < taps := by decide
        omega
      exact le_of_lt ((Nat.div_lt_iff_lt_mul hden).mp hq)
    have hK' : K * num = (K - 1) * num + num := by
      rw [← Nat.succ_mul]
      congr 1
      omega
    omega

omit [SampleArith σ] in
theorem inv_new (kd : Kind σ) (num den : ℕ) :
    Inv kd num den [] 0
      { kind := kd, stepNum := num, stepDen := den, pos := 0, hist := [], off := 0 } := by
  have ht : 0 < taps := by decide
  refine ⟨rfl, rfl, rfl, by simp, rfl, Nat.zero_le _, fun k hk => absurd hk (Nat.not_lt_zero k), ?_⟩
  simpa using ht

/- The reduced ratio is the ratio of the rates. -/
theorem mul_reduced_div {src dst : ℕ} (hg : 0 < Nat.gcd src dst) (k : ℕ) :
    k * (src / Nat.gcd src dst) / (dst / Nat.gcd src dst) = k * src / dst := by
  rw [← Nat.mul_div_mul_right _ _ hg, Nat.mul_assoc,
    Nat.div_mul_cancel (Nat.gcd_dvd_left src dst), Nat.div_mul_cancel (Nat.gcd_dvd_right src dst)]

/-- The frames that `received` input frames have made: those whose window fits. -/
def framesMade (src dst received : ℕ) : ℕ := ((received + 1 - taps) * dst + src - 1) / src

theorem lt_framesMade_iff {src dst received k : ℕ} (hsrc : 0 < src) (hdst : 0 < dst) :
    k < framesMade src dst received ↔ k * src / dst + taps ≤ received := by
  have hceil : k < framesMade src dst received ↔ k * src < (received + 1 - taps) * dst := by
    rw [framesMade, Nat.lt_iff_add_one_le, Nat.le_div_iff_mul_le hsrc, Nat.succ_mul]
    omega
  rw [hceil, ← Nat.div_lt_iff_lt_mul hdst]
  generalize k * src / dst = base
  omega

omit [SampleArith σ] in
theorem Inv.framesMade_eq {kd : Kind σ} {src dst K : ℕ} {input : List σ} {r : Resampler σ}
    (hsrc : 0 < src) (hdst : 0 < dst)
    (h : Inv kd (src / Nat.gcd src dst) (dst / Nat.gcd src dst) input K r) :
    K = framesMade src dst (input.length / 2) := by
  have hratio := mul_reduced_div (Nat.gcd_pos_of_pos_left dst hsrc)
  apply le_antisymm
  · by_contra hlt
    have hfit := h.made _ (Nat.lt_of_not_le hlt)
    rw [hratio] at hfit
    exact lt_irrefl _ ((lt_framesMade_iff hsrc hdst).mpr hfit)
  · by_contra hlt
    have hfit := (lt_framesMade_iff hsrc hdst).mp (Nat.lt_of_not_le hlt)
    have hnext := h.next
    rw [hratio] at hnext
    omega

/-- Any split of the input into calls gives the frames of the batch definition:
frame `k` is made exactly when its window fits. -/
theorem resampleAll_eq_batch (src dst : ℕ) (kind : String) (hsrc : 0 < src) (hdst : 0 < dst)
    (hne : src ≠ dst) (chunks : List (List σ)) :
    ∃ r r' out K, new δ src dst kind = some r ∧
      r.resampleAll chunks = some (r', out, K) ∧
      (∀ k, k < K ↔ k * src / dst + taps ≤ chunks.flatten.length / 2) ∧
      out.map some = (List.range K).map fun k =>
        kernelAt r.kind (dst / Nat.gcd src dst) (window chunks.flatten (k * src / dst)) 0
          (k * (src / Nat.gcd src dst) % (dst / Nat.gcd src dst)) := by
  have hg : 0 < Nat.gcd src dst := Nat.gcd_pos_of_pos_left dst hsrc
  have hnum : 0 < src / Nat.gcd src dst := Nat.div_gcd_pos_of_pos_left dst hsrc
  have hden : 0 < dst / Nat.gcd src dst := Nat.div_gcd_pos_of_pos_right src hdst
  have hratio := mul_reduced_div hg
  obtain ⟨r', K, out, hrun, hframes, hinv⟩ := resampleAll_spec hden hnum chunks
    (inv_new (if kind = "linear" then .linear else .sinc (KernelTable.new δ σ src dst)) _ _)
  refine ⟨_, r', out, K, ?_, hrun, ?_, ?_⟩
  · rw [new, if_neg (by omega)]
    simp only [gcd_eq]
  · intro k
    rw [← hratio k]
    constructor
    · intro hk
      exact hinv.made k (by omega)
    · intro hfit
      by_contra hk
      have hnext := hinv.next
      have hle : K * (src / Nat.gcd src dst) / (dst / Nat.gcd src dst) ≤
          k * (src / Nat.gcd src dst) / (dst / Nat.gcd src dst) :=
        Nat.div_le_div_right (Nat.mul_le_mul_right _ (by omega))
      simp only [List.nil_append, Nat.zero_add] at hnext
      omega
  · rw [hframes, List.range_eq_range']
    refine List.map_congr_left fun k _ => ?_
    rw [batchFrame, hratio k, List.nil_append]

end Resampler

end

/-! ### Exact arithmetic -/

noncomputable instance : SampleArith ℝ where
  ofBits := fun b => match F32.ofBits b with | .fin q => q | _ => 0
  ofInt := fun n => n
  add := (· + ·)
  sub := (· - ·)
  mul := (· * ·)
  div := (· / ·)
  toUsize := fun x => min ⌊x⌋₊ (2 ^ 64 - 1)

noncomputable instance : WideArith ℝ where
  lit := fun q => q
  pi := Real.pi
  add := (· + ·)
  sub := (· - ·)
  mul := (· * ·)
  div := (· / ·)
  min := min
  abs := abs
  sin := Real.sin
  cos := Real.cos
  lt := fun a b => @decide (a < b) (Classical.propDecidable _)

instance : FloatCasts ℝ ℝ := ⟨id, id⟩

/- 44.1 kHz to 48 kHz, fed in two calls. -/
theorem resampleAll_eq_batch_44100 :
    let chunks : List (List ℝ) := [List.replicate 60 1, List.replicate 40 0]
    ∃ r r' out K, Resampler.new ℝ 44100 48000 "sinc" = some r ∧
      r.resampleAll chunks = some (r', out, K) ∧
      (∀ k, k < K ↔ k * 44100 / 48000 + taps ≤ chunks.flatten.length / 2) ∧
      out.map some = (List.range K).map fun k =>
        kernelAt r.kind (48000 / Nat.gcd 44100 48000) (window chunks.flatten (k * 44100 / 48000)) 0
          (k * (44100 / Nat.gcd 44100 48000) % (48000 / Nat.gcd 44100 48000)) :=
  Resampler.resampleAll_eq_batch ℝ 44100 48000 "sinc" (by decide) (by decide) (by decide) _

end Audiod
