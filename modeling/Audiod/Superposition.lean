import Audiod.KernelPhase
import Mathlib.Analysis.Real.Pi.Bounds

/-!
# The resampler as a filter (`server/src/dsp.rs:27-190`)

Whatever the arithmetic of the samples, the resampler is one filter on either channel, which
a shift of its input by a period shifts. Over the reals the filter is linear, and `linear`
draws straight lines. The kernel is the windowed sinc but for one tap.
-/

namespace Audiod

/-! ### Frames -/

section

variable {σ : Type*}

theorem pairs_length (xs : List σ) : (pairs xs).length = xs.length / 2 := by
  induction xs using pairs.induct with
  | case1 a b rest ih =>
    rw [pairs, List.length_cons, List.length_cons, List.length_cons, ih]
    omega
  | case2 xs h =>
    match xs with
    | [] | [_] => simp [pairs]
    | a :: b :: rest => exact absurd rfl (h a b rest)

theorem pairs_drop (xs : List σ) (n : ℕ) : pairs (xs.drop (n * 2)) = (pairs xs).drop n := by
  induction n generalizing xs with
  | zero => rfl
  | succ n ih =>
    match xs with
    | [] | [_] => simp [pairs, Nat.succ_mul]
    | a :: b :: rest =>
      rw [Nat.succ_mul, List.drop_succ_cons, List.drop_succ_cons, ih]
      rfl

theorem pairs_take (xs : List σ) (n : ℕ) : pairs (xs.take (n * 2)) = (pairs xs).take n := by
  induction n generalizing xs with
  | zero => rfl
  | succ n ih =>
    match xs with
    | [] | [_] => simp [pairs, Nat.succ_mul]
    | a :: b :: rest =>
      rw [Nat.succ_mul, List.take_succ_cons, List.take_succ_cons, pairs, ih]
      rfl

theorem pairs_window (xs : List σ) (base : ℕ) :
    pairs (window xs base) = ((pairs xs).drop base).take taps := by
  rw [window, pairs_take, pairs_drop]

theorem pairs_zipWith (f : σ → σ → σ) (xs ys : List σ) : pairs (List.zipWith f xs ys) =
    List.zipWith (fun p q => (f p.1 q.1, f p.2 q.2)) (pairs xs) (pairs ys) := by
  induction xs using pairs.induct generalizing ys with
  | case1 a b rest ih =>
    match ys with
    | [] | [_] => simp [pairs]
    | c :: d :: more =>
      rw [List.zipWith_cons_cons, List.zipWith_cons_cons, pairs, pairs, pairs,
        List.zipWith_cons_cons, ih]
  | case2 xs h =>
    match xs, ys with
    | [], _ => simp [pairs]
    | [_], [] => simp [pairs]
    | [_], _ :: _ => simp [pairs]
    | a :: b :: rest, _ => exact absurd rfl (h a b rest)

theorem pairs_flatMap {ι : Type*} (f g : ι → σ) (js : List ι) :
    pairs (js.flatMap fun j => [f j, g j]) = js.map fun j => (f j, g j) := by
  induction js with
  | nil => rfl
  | cons j js ih => exact congrArg ((f j, g j) :: ·) ih

end

/-! ### One channel -/

section

variable {σ : Type*} [SampleArith σ]

open SampleArith

/-- `tapStep` for one channel. -/
def monoStep (t : σ) (acc : σ) (x : σ × σ × σ) : σ :=
  add acc (mul (add x.2.1 (mul (sub x.2.2 x.2.1) t)) x.1)

/-- `kernelAt` for the samples of one channel. -/
def monoAt (kind : Kind σ) (den rem : ℕ) (xs : List σ) : Option σ :=
  match kind with
  | .sinc tab =>
    (tab.row (blend (σ := σ) den rem).p0).bind fun r0 =>
    (tab.row (blend (σ := σ) den rem).p1).map fun r1 =>
      (xs.zip (r0.zip r1)).foldl (monoStep (blend den rem).t) (ofInt 0)
  | .linear =>
    xs[0]?.bind fun x0 =>
    xs[1]?.map fun x1 => add x0 (mul (sub x1 x0) (div (ofInt rem) (ofInt den)))

/-- What the resampler makes of the samples of one channel. -/
def mono (kind : Kind σ) (src dst : ℕ) (xs : List σ) : List σ :=
  (List.range (Resampler.framesMade src dst xs.length)).filterMap fun k =>
    monoAt kind (stepDen src dst) (phaseRem src dst k) ((xs.drop (k * src / dst)).take taps)

theorem foldl_tapStep (t : σ) (fs : List (σ × σ)) (cs : List (σ × σ)) (acc : σ × σ) :
    (fs.zip cs).foldl (tapStep t) acc =
      (((fs.map Prod.fst).zip cs).foldl (monoStep t) acc.1,
        ((fs.map Prod.snd).zip cs).foldl (monoStep t) acc.2) := by
  induction fs generalizing cs acc with
  | nil => rfl
  | cons f fs ih =>
    cases cs with
    | nil => rfl
    | cons c cs => exact ih cs _

/- Over a window the two channels go their own ways. -/
theorem kernelAt_mono (kind : Kind σ) (den rem : ℕ) {win : List σ}
    (h : win.length = taps * 2) :
    kernelAt kind den win 0 rem =
      (monoAt kind den rem ((pairs win).map Prod.fst)).bind fun l =>
        (monoAt kind den rem ((pairs win).map Prod.snd)).map fun r => (l, r) := by
  have ht : taps = 48 := rfl
  cases kind with
  | sinc tab =>
    have hwin : slice win (0 * 2) ((0 + taps) * 2) = some win := by
      rw [slice_eq (by omega) (by omega), Nat.zero_mul, List.drop_zero,
        List.take_of_length_le (by omega)]
    rw [kernelAt_sinc, hwin]
    simp only [monoAt]
    cases tab.row (blend (σ := σ) den rem).p0 with
    | none => rfl
    | some r0 =>
      cases tab.row (blend (σ := σ) den rem).p1 with
      | none => rfl
      | some r1 =>
        exact congrArg some (foldl_tapStep (blend den rem).t (pairs win) (r0.zip r1) _)
  | linear =>
    match win, h with
    | a :: b :: c :: d :: rest, _ => rfl

omit [SampleArith σ] in
theorem filterMap_of_pairs {ι : Type*} {f g : ι → Option σ} {ks : List ι} {out : List (σ × σ)}
    (h : out.map some = ks.map fun k => (f k).bind fun l => (g k).map fun r => (l, r)) :
    out.map Prod.fst = ks.filterMap f ∧ out.map Prod.snd = ks.filterMap g := by
  induction ks generalizing out with
  | nil =>
    have hnil : out = [] := List.map_eq_nil_iff.mp h
    rw [hnil]
    exact ⟨rfl, rfl⟩
  | cons k ks ih =>
    cases out with
    | nil => cases h
    | cons p out =>
      rw [List.map_cons, List.map_cons, List.cons.injEq] at h
      obtain ⟨l, hl, hboth⟩ := Option.bind_eq_some_iff.mp h.1.symm
      obtain ⟨r, hr, rfl⟩ := Option.map_eq_some_iff.mp hboth
      obtain ⟨hfst, hsnd⟩ := ih h.2
      rw [List.filterMap_cons_some hl, List.filterMap_cons_some hr, List.map_cons, List.map_cons,
        hfst, hsnd]
      exact ⟨rfl, rfl⟩

section

variable (δ : Type*) [WideArith δ] [FloatCasts δ σ]

/-- The kernel of `Resampler::new`. -/
def Kind.of (src dst : ℕ) (kind : String) : Kind σ :=
  if kind = "linear" then .linear else .sinc (KernelTable.new δ σ src dst)

/-- All that a new resampler puts out for the chunks it is fed. -/
def resampled (src dst : ℕ) (kind : String) (chunks : List (List σ)) : Option (List (σ × σ)) :=
  (Resampler.new δ src dst kind).bind fun r => (r.resampleAll chunks).map fun x => x.2.1

/- However the input is split, both channels are put through one filter. -/
theorem resampled_mono (src dst : ℕ) (kind : String) (hsrc : 0 < src) (hdst : 0 < dst)
    (hne : src ≠ dst) (chunks : List (List σ)) :
    ∃ out, resampled δ src dst kind chunks = some out ∧
      out.map Prod.fst =
        mono (Kind.of δ src dst kind) src dst ((pairs chunks.flatten).map Prod.fst) ∧
      out.map Prod.snd =
        mono (Kind.of δ src dst kind) src dst ((pairs chunks.flatten).map Prod.snd) := by
  have hnum : 0 < src / Nat.gcd src dst := Nat.div_gcd_pos_of_pos_left dst hsrc
  have hden : 0 < dst / Nat.gcd src dst := Nat.div_gcd_pos_of_pos_right src hdst
  have hratio := Resampler.mul_reduced_div (Nat.gcd_pos_of_pos_left dst hsrc)
  have hnew : (Resampler.new δ src dst kind : Option (Resampler σ)) =
      some ⟨Kind.of δ src dst kind, src / Nat.gcd src dst, dst / Nat.gcd src dst, 0, [], 0⟩ := by
    rw [Resampler.new, if_neg (by omega)]
    simp only [gcd_eq]
    rfl
  obtain ⟨r', K, out, hrun, hframes, hinv⟩ := Resampler.resampleAll_spec hden hnum chunks
    (Resampler.inv_new (Kind.of δ src dst kind) (src / Nat.gcd src dst) (dst / Nat.gcd src dst))
  rw [List.nil_append, Nat.zero_add] at hinv
  have hK := hinv.framesMade_eq hsrc hdst
  have hpairs : out.map some = (List.range K).map fun k =>
      (monoAt (Kind.of δ src dst kind) (stepDen src dst) (phaseRem src dst k)
        ((((pairs chunks.flatten).map Prod.fst).drop (k * src / dst)).take taps)).bind fun l =>
      (monoAt (Kind.of δ src dst kind) (stepDen src dst) (phaseRem src dst k)
        ((((pairs chunks.flatten).map Prod.snd).drop (k * src / dst)).take taps)).map fun r =>
          (l, r) := by
    rw [hframes, List.range_eq_range']
    refine List.map_congr_left fun k hk => ?_
    have hlt : k < K := Nat.zero_add K ▸ (List.mem_range'_1.mp hk).2
    have hfit := hinv.made k hlt
    rw [List.nil_append, batchFrame, kernelAt_mono _ _ _ (window_length hfit),
      pairs_window, hratio, List.map_take, List.map_drop, List.map_take, List.map_drop]
    rfl
  obtain ⟨hfst, hsnd⟩ := filterMap_of_pairs hpairs
  refine ⟨out, ?_, ?_, ?_⟩
  · rw [resampled, hnew, Option.bind_some, hrun]
    rfl
  · rw [hfst, mono, List.length_map, pairs_length, hK]
  · rw [hsnd, mono, List.length_map, pairs_length, hK]

end

/-! ### The filter, sample by sample -/

theorem monoAt_isSome (kind : Kind σ) (den rem : ℕ) {xs : List σ} (h : xs.length = taps) :
    ∃ x, monoAt kind den rem xs = some x := by
  have ht : taps = 48 := rfl
  have hp : 0 < phases := by decide
  cases kind with
  | sinc tab =>
    have hp0 : (blend (σ := σ) den rem).p0 < phases := by
      have hmin : (blend (σ := σ) den rem).p0 ≤ phases - 1 := Nat.min_le_right ..
      omega
    obtain ⟨r0, hr0⟩ := tab.row_isSome hp0
    obtain ⟨r1, hr1⟩ := tab.row_isSome (p := (blend (σ := σ) den rem).p1) (Nat.mod_lt _ hp)
    rw [monoAt, hr0, hr1]
    exact ⟨_, rfl⟩
  | linear =>
    match xs, h with
    | a :: b :: rest, _ => exact ⟨_, rfl⟩

omit [SampleArith σ] in
theorem map_some_filterMap {ι : Type*} {f : ι → Option σ} {ks : List ι}
    (h : ∀ k ∈ ks, ∃ x, f k = some x) : (ks.filterMap f).map some = ks.map f := by
  induction ks with
  | nil => rfl
  | cons k ks ih =>
    obtain ⟨x, hx⟩ := h k (List.mem_cons_self ..)
    rw [List.filterMap_cons_some hx, List.map_cons, List.map_cons, hx,
      ih fun j hj => h j (List.mem_cons_of_mem _ hj)]

/-- Sample `k` of the filter, made as soon as its window has come. -/
theorem mono_getElem? (kind : Kind σ) {src dst : ℕ} (hsrc : 0 < src) (hdst : 0 < dst)
    (xs : List σ) (k : ℕ) :
    (mono kind src dst xs)[k]? =
      if k * src / dst + taps ≤ xs.length then
        monoAt kind (stepDen src dst) (phaseRem src dst k) ((xs.drop (k * src / dst)).take taps)
      else none := by
  have hmade : ∀ j ∈ List.range (Resampler.framesMade src dst xs.length),
      ∃ x, monoAt kind (stepDen src dst) (phaseRem src dst j)
        ((xs.drop (j * src / dst)).take taps) = some x := by
    intro j hj
    have hfit := (Resampler.lt_framesMade_iff hsrc hdst).mp (List.mem_range.mp hj)
    apply monoAt_isSome kind
    rw [List.length_take, List.length_drop]
    omega
  have hall := map_some_filterMap hmade
  have hk := congrArg (·[k]?) hall
  simp only [List.getElem?_map] at hk
  rw [mono]
  by_cases hfit : k * src / dst + taps ≤ xs.length
  · have hlt := (Resampler.lt_framesMade_iff hsrc hdst).mpr hfit
    rw [List.getElem?_range hlt, Option.map_some] at hk
    obtain ⟨x, hx, hsome⟩ := Option.map_eq_some_iff.mp hk
    rw [if_pos hfit, hx, hsome]
  · have hge := Nat.le_of_not_lt fun hlt =>
      hfit ((Resampler.lt_framesMade_iff hsrc hdst).mp hlt)
    have hnone : (List.range (Resampler.framesMade src dst xs.length))[k]? = none :=
      List.getElem?_eq_none (by rw [List.length_range]; exact hge)
    rw [hnone, Option.map_none, Option.map_eq_none_iff] at hk
    rw [if_neg hfit, hk]

theorem stepDen_mul (src dst : ℕ) : stepDen src dst * src = stepNum src dst * dst := by
  rw [stepDen, stepNum, Nat.div_mul_right_comm (Nat.gcd_dvd_right src dst),
    Nat.div_mul_right_comm (Nat.gcd_dvd_left src dst), Nat.mul_comm]

/-- A period of the input later is a period of the output later. -/
theorem mono_drop (kind : Kind σ) {src dst : ℕ} (hsrc : 0 < src) (hdst : 0 < dst) (xs : List σ)
    (m : ℕ) : (mono kind src dst xs).drop (stepDen src dst * m) =
      mono kind src dst (xs.drop (stepNum src dst * m)) := by
  refine List.ext_getElem? fun k => ?_
  have htaps : 0 < taps := by decide
  have hbase : (stepDen src dst * m + k) * src / dst = stepNum src dst * m + k * src / dst := by
    have hmul : (stepDen src dst * m + k) * src = k * src + stepNum src dst * m * dst := by
      rw [Nat.add_mul, Nat.mul_right_comm, stepDen_mul, Nat.mul_right_comm, Nat.add_comm]
    rw [hmul, Nat.add_mul_div_right _ _ hdst, Nat.add_comm]
  have hrem : phaseRem src dst (stepDen src dst * m + k) = phaseRem src dst k := by
    rw [phaseRem, phaseRem, Nat.add_mul, Nat.mul_assoc, Nat.mul_add_mod]
  rw [List.getElem?_drop, mono_getElem? kind hsrc hdst, mono_getElem? kind hsrc hdst, hbase, hrem,
    List.length_drop, List.drop_drop]
  generalize stepNum src dst * m = s
  generalize k * src / dst = base
  by_cases hfit : s + base + taps ≤ xs.length
  · rw [if_pos hfit, if_pos (by omega)]
  · rw [if_neg hfit, if_neg (by omega)]

end

/-! ### Over the reals -/

theorem foldl_monoStep (a b t : ℝ) (xs ys : List ℝ) (hlen : xs.length = ys.length)
    (cs : List (ℝ × ℝ)) (u v : ℝ) :
    ((List.zipWith (fun x y => a * x + b * y) xs ys).zip cs).foldl (monoStep t) (a * u + b * v) =
      a * (xs.zip cs).foldl (monoStep t) u + b * (ys.zip cs).foldl (monoStep t) v := by
  induction xs generalizing ys cs u v with
  | nil =>
    rw [List.length_nil] at hlen
    rw [List.length_eq_zero_iff.mp hlen.symm]
    rfl
  | cons x xs ih =>
    match ys, cs with
    | y :: ys, [] => rfl
    | y :: ys, c :: cs =>
      have hstep : monoStep t (a * u + b * v) (a * x + b * y, c) =
          a * monoStep t u (x, c) + b * monoStep t v (y, c) := by
        simp only [monoStep, SampleArith.add, SampleArith.mul, SampleArith.sub]
        ring
      have hrest := ih ys (Nat.succ.inj hlen) cs (monoStep t u (x, c)) (monoStep t v (y, c))
      rw [← hstep] at hrest
      exact hrest

theorem monoAt_zipWith (kind : Kind ℝ) (den rem : ℕ) (a b : ℝ) {xs ys : List ℝ}
    (hlen : xs.length = ys.length) :
    monoAt kind den rem (List.zipWith (fun x y => a * x + b * y) xs ys) =
      (monoAt kind den rem xs).bind fun x =>
        (monoAt kind den rem ys).map fun y => a * x + b * y := by
  cases kind with
  | sinc tab =>
    simp only [monoAt]
    cases tab.row (blend (σ := ℝ) den rem).p0 with
    | none => rfl
    | some r0 =>
      cases tab.row (blend (σ := ℝ) den rem).p1 with
      | none => rfl
      | some r1 =>
        have hsum := foldl_monoStep a b (blend den rem).t xs ys hlen (r0.zip r1)
          (SampleArith.ofInt 0) (SampleArith.ofInt 0)
        have hzero : a * (SampleArith.ofInt 0 : ℝ) + b * SampleArith.ofInt 0 =
            SampleArith.ofInt 0 := by simp [SampleArith.ofInt]
        rw [hzero] at hsum
        exact congrArg some hsum
  | linear =>
    match xs, ys, hlen with
    | [], [], _ => rfl
    | [_], [_], _ => rfl
    | x₀ :: x₁ :: _, y₀ :: y₁ :: _, _ =>
      refine congrArg some ?_
      simp only [SampleArith.add, SampleArith.mul, SampleArith.sub]
      ring

/-- The filter is linear. -/
theorem mono_zipWith (kind : Kind ℝ) {src dst : ℕ} (hsrc : 0 < src) (hdst : 0 < dst) (a b : ℝ)
    {xs ys : List ℝ} (hlen : xs.length = ys.length) :
    mono kind src dst (List.zipWith (fun x y => a * x + b * y) xs ys) =
      List.zipWith (fun x y => a * x + b * y) (mono kind src dst xs) (mono kind src dst ys) := by
  refine List.ext_getElem? fun k => ?_
  have hwin : ((xs.drop (k * src / dst)).take taps).length =
      ((ys.drop (k * src / dst)).take taps).length := by
    rw [List.length_take, List.length_take, List.length_drop, List.length_drop, hlen]
  rw [List.getElem?_zipWith, mono_getElem? kind hsrc hdst, mono_getElem? kind hsrc hdst,
    mono_getElem? kind hsrc hdst, List.length_zipWith, ← hlen, Nat.min_self, List.drop_zipWith,
    List.take_zipWith, monoAt_zipWith kind _ _ a b hwin]
  split
  · cases monoAt kind (stepDen src dst) (phaseRem src dst k)
      ((xs.drop (k * src / dst)).take taps) with
    | none => rfl
    | some x =>
      cases monoAt kind (stepDen src dst) (phaseRem src dst k)
        ((ys.drop (k * src / dst)).take taps) <;> rfl
  · rfl

/- Where an output frame lies between its two input frames. -/
theorem position_real {src dst : ℕ} (hsrc : 0 < src) (hdst : 0 < dst) (k : ℕ) :
    ((k * src / dst : ℕ) : ℝ) + (phaseRem src dst k : ℝ) / stepDen src dst =
      (k : ℝ) * src / dst := by
  have hden : 0 < stepDen src dst := Nat.div_gcd_pos_of_pos_right src hdst
  have hratio := Resampler.mul_reduced_div (Nat.gcd_pos_of_pos_left dst hsrc) k
  have hsplit : stepDen src dst * (k * src / dst) + phaseRem src dst k = k * stepNum src dst := by
    rw [← hratio]
    exact Nat.div_add_mod ..
  have hreal : (stepDen src dst : ℝ) * (k * src / dst : ℕ) + phaseRem src dst k =
      k * stepNum src dst := by exact_mod_cast hsplit
  have hmul : (stepDen src dst : ℝ) * src = stepNum src dst * dst := by
    exact_mod_cast stepDen_mul src dst
  have hden' : (stepDen src dst : ℝ) ≠ 0 := by exact_mod_cast hden.ne'
  have hdst' : (dst : ℝ) ≠ 0 := by exact_mod_cast hdst.ne'
  field_simp
  linear_combination (dst : ℝ) * hreal - (k : ℝ) * hmul

/-- `linear` draws a straight line through the samples of one. -/
theorem mono_linear_affine {src dst : ℕ} (hsrc : 0 < src) (hdst : 0 < dst) (a b : ℝ) (n : ℕ) :
    mono .linear src dst ((List.range n).map fun j : ℕ => a + b * (j : ℝ)) =
      (List.range (Resampler.framesMade src dst n)).map fun k : ℕ =>
        a + b * ((k : ℝ) * src / dst) := by
  refine List.ext_getElem? fun k => ?_
  have ht : taps = 48 := rfl
  rw [mono_getElem? _ hsrc hdst, List.length_map, List.length_range, List.getElem?_map]
  by_cases hfit : k * src / dst + taps ≤ n
  · have hlt := (Resampler.lt_framesMade_iff hsrc hdst).mpr hfit
    rw [if_pos hfit, List.getElem?_range hlt, Option.map_some]
    have hget (i : ℕ) (hi : i < 2) : ((((List.range n).map fun j : ℕ => a + b * (j : ℝ)).drop
        (k * src / dst)).take taps)[i]? = some (a + b * ((k * src / dst : ℕ) + (i : ℝ))) := by
      rw [List.getElem?_take_of_lt (by omega), List.getElem?_drop, List.getElem?_map,
        List.getElem?_range (by omega), Option.map_some]
      push_cast
      rfl
    rw [monoAt, hget 0 (by decide), hget 1 (by decide), Option.bind_some, Option.map_some,
      ← position_real hsrc hdst k]
    refine congrArg some ?_
    simp only [SampleArith.add, SampleArith.mul, SampleArith.sub, SampleArith.div,
      SampleArith.ofInt]
    push_cast
    ring
  · have hge := Nat.le_of_not_lt fun hlt =>
      hfit ((Resampler.lt_framesMade_iff hsrc hdst).mp hlt)
    rw [if_neg hfit, List.getElem?_eq_none (by rw [List.length_range]; exact hge)]
    rfl

/-! ### What comes out -/

section

variable {σ : Type*} [SampleArith σ] (δ : Type*) [WideArith δ] [FloatCasts δ σ]

/-- In every arithmetic, bit by bit: there is one filter that makes either channel of the
output from that channel of the input alone, however the input is split into calls, and what
it makes of the input from period `m` on is what it makes of all of it from period `m` on. -/
theorem resampled_filter (src dst : ℕ) (kind : String) (hsrc : 0 < src) (hdst : 0 < dst)
    (hne : src ≠ dst) :
    ∃ f : List σ → List σ,
      (∀ chunks, ∃ out, resampled δ src dst kind chunks = some out ∧
        out.map Prod.fst = f ((pairs chunks.flatten).map Prod.fst) ∧
        out.map Prod.snd = f ((pairs chunks.flatten).map Prod.snd)) ∧
      ∀ xs m, (f xs).drop (stepDen src dst * m) = f (xs.drop (stepNum src dst * m)) :=
  ⟨mono (Kind.of δ src dst kind) src dst, resampled_mono δ src dst kind hsrc hdst hne,
    mono_drop _ hsrc hdst⟩

end

theorem resampled_filter_44100 : ∃ f : List ℝ → List ℝ,
    (∀ chunks, ∃ out, resampled ℝ 44100 48000 "linear" chunks = some out ∧
      out.map Prod.fst = f ((pairs chunks.flatten).map Prod.fst) ∧
      out.map Prod.snd = f ((pairs chunks.flatten).map Prod.snd)) ∧
    ∀ xs m, (f xs).drop (stepDen 44100 48000 * m) = f (xs.drop (stepNum 44100 48000 * m)) :=
  resampled_filter ℝ 44100 48000 "linear" (by decide) (by decide) (by decide)

/-- Over the reals, however the inputs are split: what comes of a combination of two inputs is
that combination of what comes of each. -/
theorem resampled_superposes (src dst : ℕ) (kind : String) (hsrc : 0 < src) (hdst : 0 < dst)
    (hne : src ≠ dst) (a b : ℝ) {xs ys zs : List (List ℝ)}
    (hlen : xs.flatten.length = ys.flatten.length)
    (hz : zs.flatten = List.zipWith (fun x y => a * x + b * y) xs.flatten ys.flatten) :
    ∃ X Y, resampled ℝ src dst kind xs = some X ∧ resampled ℝ src dst kind ys = some Y ∧
      resampled ℝ src dst kind zs = some (List.zipWith
        (fun p q => (a * p.1 + b * q.1, a * p.2 + b * q.2)) X Y) := by
  obtain ⟨X, hX, hXl, hXr⟩ := resampled_mono ℝ src dst kind hsrc hdst hne xs
  obtain ⟨Y, hY, hYl, hYr⟩ := resampled_mono ℝ src dst kind hsrc hdst hne ys
  obtain ⟨Z, hZ, hZl, hZr⟩ := resampled_mono ℝ src dst kind hsrc hdst hne zs
  have hpairs : (pairs xs.flatten).length = (pairs ys.flatten).length := by
    rw [pairs_length, pairs_length, hlen]
  have hfst : Z.map Prod.fst = List.zipWith (fun x y => a * x + b * y)
      (X.map Prod.fst) (Y.map Prod.fst) := by
    rw [hXl, hYl, hZl, hz, pairs_zipWith, ← mono_zipWith _ hsrc hdst a b (by simpa using hpairs),
      List.map_zipWith, List.zipWith_map]
  have hsnd : Z.map Prod.snd = List.zipWith (fun x y => a * x + b * y)
      (X.map Prod.snd) (Y.map Prod.snd) := by
    rw [hXr, hYr, hZr, hz, pairs_zipWith, ← mono_zipWith _ hsrc hdst a b (by simpa using hpairs),
      List.map_zipWith, List.zipWith_map]
  refine ⟨X, Y, hX, hY, hZ.trans (congrArg some ?_)⟩
  refine List.ext_getElem? fun k => ?_
  have hf := congrArg (·[k]?) hfst
  have hs := congrArg (·[k]?) hsnd
  simp only [List.getElem?_map, List.getElem?_zipWith] at hf hs ⊢
  cases hZk : Z[k]? <;> cases hXk : X[k]? <;> cases hYk : Y[k]? <;>
    simp_all [Prod.ext_iff]

/- An octave down, the sum fed in two calls. -/
theorem resampled_superposes_octave : ∃ X Y : List (ℝ × ℝ),
    resampled ℝ 96000 48000 "sinc" [List.replicate 120 1] = some X ∧
    resampled ℝ 96000 48000 "sinc" [List.replicate 120 2] = some Y ∧
    resampled ℝ 96000 48000 "sinc" [List.replicate 50 8, List.replicate 70 8] =
      some (List.zipWith (fun p q => (2 * p.1 + 3 * q.1, 2 * p.2 + 3 * q.2)) X Y) :=
  resampled_superposes 96000 48000 "sinc" (by decide) (by decide) (by decide) 2 3
    (by rw [List.flatten_singleton, List.flatten_singleton, List.length_replicate,
      List.length_replicate])
    (by
      rw [List.flatten_singleton, List.flatten_singleton, List.zipWith_replicate, List.flatten_cons,
        List.flatten_singleton, List.replicate_append_replicate]
      norm_num)

/-- `linear` is exact on straight lines: frame `k` of the output is the line at
`k * src / dst`. -/
theorem resampled_affine (src dst : ℕ) (hsrc : 0 < src) (hdst : 0 < dst) (hne : src ≠ dst)
    (a b c d : ℝ) (n : ℕ) {chunks : List (List ℝ)}
    (hchunks : chunks.flatten = (List.range n).flatMap fun j : ℕ =>
      [a + b * (j : ℝ), c + d * (j : ℝ)]) :
    resampled ℝ src dst "linear" chunks =
      some ((List.range (Resampler.framesMade src dst n)).map fun k : ℕ =>
        (a + b * ((k : ℝ) * src / dst), c + d * ((k : ℝ) * src / dst))) := by
  obtain ⟨out, hout, hl, hr⟩ := resampled_mono ℝ src dst "linear" hsrc hdst hne chunks
  have hpairs := pairs_flatMap (fun j : ℕ => a + b * (j : ℝ)) (fun j : ℕ => c + d * (j : ℝ))
    (List.range n)
  rw [hchunks, hpairs, List.map_map] at hl hr
  have hfst := hl.trans (mono_linear_affine hsrc hdst a b n)
  have hsnd := hr.trans (mono_linear_affine hsrc hdst c d n)
  rw [hout, List.zip_of_prod hfst hsnd, List.zip_map']

/- Ramps an octave down. -/
theorem resampled_affine_octave : resampled ℝ 96000 48000 "linear"
    [(List.range 100).flatMap fun j : ℕ => [0 + 1 * (j : ℝ), 5 + -2 * (j : ℝ)]] =
      some ((List.range (Resampler.framesMade 96000 48000 100)).map fun k : ℕ =>
        (0 + 1 * ((k : ℝ) * (96000 : ℕ) / (48000 : ℕ)),
          5 + -2 * ((k : ℝ) * (96000 : ℕ) / (48000 : ℕ)))) :=
  resampled_affine 96000 48000 (by decide) (by decide) (by decide) 0 1 5 (-2) 100
    List.flatten_singleton

/-! ### The kernel -/

/- Away from its centre the code has the sinc of Mathlib. -/
theorem sinc_eq {fc t : ℝ} (h : 1 / 10 ^ 12 ≤ |2 * Real.pi * fc * t|) :
    sinc fc t = Real.sinc (2 * Real.pi * fc * t) := by
  have hne : 2 * Real.pi * fc * t ≠ 0 := by
    intro hzero
    rw [hzero, abs_zero] at h
    norm_num at h
  rw [sinc, if_neg (not_lt.mpr h), Real.sinc_of_ne_zero hne]

theorem cutoff_real (src dst : ℕ) :
    cutoff ℝ src dst = 475 / 1000 * min ((dst : ℝ) / src) 1 := by
  simp only [cutoff, WideArith.lit, WideArith.mul, WideArith.min, WideArith.div]
  push_cast
  rfl

theorem cutoff_le (src dst : ℕ) : cutoff ℝ src dst ≤ 475 / 1000 := by
  have hmin : min ((dst : ℝ) / src) 1 ≤ 1 := min_le_right ..
  rw [cutoff_real]
  linarith

theorem le_cutoff {src dst : ℕ} (hsrc : 0 < src) (hsrc32 : src < 2 ^ 32) (hdst : 0 < dst) :
    475 / 1000 / 2 ^ 32 ≤ cutoff ℝ src dst := by
  have hsrc' : (0 : ℝ) < src := by exact_mod_cast hsrc
  have hle : (src : ℝ) ≤ 2 ^ 32 := by exact_mod_cast hsrc32.le
  have hone : (1 : ℝ) ≤ dst := by exact_mod_cast hdst
  have hratio : 1 / 2 ^ 32 ≤ (dst : ℝ) / src := by
    rw [div_le_div_iff₀ (by norm_num) hsrc']
    nlinarith
  have hmin : 1 / 2 ^ 32 ≤ min ((dst : ℝ) / src) 1 := le_min hratio (by norm_num)
  rw [cutoff_real]
  linarith

/- No tap but one lies within `1 / PHASES` of the centre. -/
theorem tap_away {p i : ℕ} (hp : p < phases) (h : ¬(p = 128 ∧ i = 24)) :
    1 / 256 ≤ |(i : ℝ) - (p : ℝ) / phases - 47 / 2| := by
  have hph : phases = 256 := rfl
  have hint : (1 : ℤ) ≤ |256 * (i : ℤ) - p - 6016| := Int.one_le_abs (by omega)
  have hreal : (1 : ℝ) ≤ |256 * (i : ℝ) - p - 6016| := by exact_mod_cast hint
  have hsplit : 256 * (i : ℝ) - p - 6016 = 256 * ((i : ℝ) - (p : ℝ) / phases - 47 / 2) := by
    rw [hph]
    push_cast
    ring
  rw [hsplit, abs_mul, abs_of_pos (by norm_num : (0 : ℝ) < 256)] at hreal
  linarith

theorem kernelTapAt_windowedSinc {src dst p i : ℕ} (hsrc : 0 < src) (hsrc32 : src < 2 ^ 32)
    (hdst : 0 < dst) (hp : p < phases) (h : ¬(p = 128 ∧ i = 24)) :
    kernelTapAt (cutoff ℝ src dst) ((p : ℝ) / phases) i =
      windowedSinc (cutoff ℝ src dst) (i - (p : ℝ) / phases) := by
  have hfc := le_cutoff hsrc hsrc32 hdst
  have hpi := Real.pi_gt_three
  have haway := tap_away hp h
  have hpos : 0 < cutoff ℝ src dst := (cutoff_real_pos hsrc hdst).1
  have hlow : 6 * (475 / 1000 / 2 ^ 32) ≤ 2 * Real.pi * cutoff ℝ src dst := by nlinarith
  rw [kernelTapAt_real, windowedSinc, sinc_eq]
  rw [abs_mul, abs_of_pos (by positivity)]
  calc (1 : ℝ) / 10 ^ 12 ≤ 6 * (475 / 1000 / 2 ^ 32) * (1 / 256) := by norm_num
    _ ≤ _ := mul_le_mul hlow haway (by norm_num) (by positivity)

theorem blackman_pos {n : ℝ} (hlow : 47 / 4 ≤ n) (hhigh : n ≤ 141 / 4) : 0 < blackman n := by
  have hpi := Real.pi_pos
  have hcos : Real.cos (2 * Real.pi * n / 47) ≤ 0 := by
    apply Real.cos_nonpos_of_pi_div_two_le_of_le
    · rw [div_le_div_iff₀ (by norm_num) (by norm_num)]
      nlinarith
    · rw [div_le_iff₀ (by norm_num)]
      nlinarith
  have hdouble := Real.neg_one_le_cos (2 * (2 * Real.pi * n / 47))
  unfold blackman
  linarith

theorem windowedSinc_ne_zero {fc : ℝ} (hpos : 0 < fc) (hlt : fc ≤ 475 / 1000) :
    windowedSinc fc (45 / 2) ≠ 0 := by
  have hx : 2 * Real.pi * fc * (45 / 2 - 47 / 2) = -(2 * Real.pi * fc) := by ring
  have hpi := Real.pi_pos
  have hangle : 0 < 2 * Real.pi * fc := by positivity
  have hsin : 0 < Real.sin (2 * Real.pi * fc) :=
    Real.sin_pos_of_pos_of_lt_pi hangle (by nlinarith)
  rw [windowedSinc, hx, Real.sinc_neg, Real.sinc_of_ne_zero hangle.ne']
  exact mul_ne_zero (div_ne_zero hsin.ne' hangle.ne') (blackman_pos (by norm_num) (by norm_num)).ne'

/- At the centre the code has `2 * fc` for the sinc's 1. -/
theorem kernelTapAt_middle (fc : ℝ) : kernelTapAt fc (1 / 2) 24 = 2 * fc * blackman (47 / 2) := by
  have ht : ((24 : ℕ) : ℝ) - 1 / 2 - 47 / 2 = 0 := by norm_num
  have hn : ((24 : ℕ) : ℝ) - 1 / 2 = 47 / 2 := by norm_num
  rw [kernelTapAt_real, ht, hn, sinc, mul_zero, abs_zero, if_pos (by norm_num)]

theorem windowedSinc_middle (fc : ℝ) : windowedSinc fc (47 / 2) = blackman (47 / 2) := by
  rw [windowedSinc, sub_self, mul_zero, Real.sinc_zero, one_mul]

/-- Row `p` of the table is, scaled by one number, the windowed sinc delayed by `p / PHASES`:
every row but the one in the middle, whose centre tap is off. -/
theorem KernelTable.row_windowedSinc (src dst : ℕ) (hsrc : 0 < src) (hsrc32 : src < 2 ^ 32)
    (hdst : 0 < dst) {p : ℕ} (hp : p < phases) :
    (∃ c : ℝ, c ≠ 0 ∧ (KernelTable.new ℝ ℝ src dst).row p = some ((List.range taps).map fun i =>
        windowedSinc (cutoff ℝ src dst) ((i : ℕ) - (p : ℝ) / phases) / c)) ↔ p ≠ 128 := by
  obtain ⟨c, hc, hrow⟩ := kernelRowAt_real (cutoff ℝ src dst) ((p : ℝ) / phases)
  rw [row_real src dst hp, hrow]
  constructor
  · rintro ⟨c', hc', heq⟩ rfl
    obtain ⟨hpos, -⟩ := cutoff_real_pos hsrc hdst
    have hle := cutoff_le src dst
    have htap (i : ℕ) (hi : i < taps) :=
      List.map_inj_left.mp (Option.some.inj heq) i (List.mem_range.mpr hi)
    have hhalf : ((128 : ℕ) : ℝ) / phases = 1 / 2 := by norm_num [phases]
    -- the tap beside the centre makes the two divisors one
    have hbeside := htap 23 (by decide)
    rw [kernelTapAt_windowedSinc hsrc hsrc32 hdst hp (by decide), hhalf,
      show ((23 : ℕ) : ℝ) - 1 / 2 = 45 / 2 by norm_num] at hbeside
    have hcc : c = c' := by
      have hne := windowedSinc_ne_zero hpos hle
      field_simp at hbeside
      exact hbeside.symm
    have hcentre := htap 24 (by decide)
    rw [hhalf, kernelTapAt_middle, show ((24 : ℕ) : ℝ) - 1 / 2 = 47 / 2 by norm_num,
      windowedSinc_middle, hcc] at hcentre
    have hw : 0 < blackman (47 / 2) := blackman_pos (by norm_num) (by norm_num)
    field_simp at hcentre
    linarith
  · intro hmid
    refine ⟨c, hc, congrArg some (List.map_congr_left fun i _ => ?_)⟩
    rw [kernelTapAt_windowedSinc hsrc hsrc32 hdst hp fun h => hmid h.1]

/- Two octaves down, a row with the centre of the sinc off its taps. -/
theorem row_windowedSinc_192000 : ∃ c : ℝ, c ≠ 0 ∧
    (KernelTable.new ℝ ℝ 192000 48000).row 64 = some ((List.range taps).map fun i =>
      windowedSinc (cutoff ℝ 192000 48000) ((i : ℕ) - ((64 : ℕ) : ℝ) / phases) / c) :=
  (KernelTable.row_windowedSinc 192000 48000 (by decide) (by decide) (by decide)
    (by decide)).mpr (by decide)

end Audiod
