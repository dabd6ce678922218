import Audiod.MixerDelivery
import Audiod.Reader

/-!
# The two paths of a chunk (`server/src/main.rs:554-581`)

S16 stereo at the mix rate is pushed as it comes, but only whole chunks of whole
frames; everything else is folded, which leaves out a trailing partial frame, and
packed again. At the mix rate there is no resampler in between.
-/

namespace Audiod

/-- `i16` samples of a byte string, two bytes each. -/
def samples : Bytes → List ℤ
  | lo :: hi :: rest => i16At [lo, hi] 0 :: samples rest
  | _ => []

theorem samples_leI16 {v : ℤ} (hlo : -32768 ≤ v) (hhi : v ≤ 32767) (rest : Bytes) :
    samples (Mixer.leI16 v ++ rest) = v :: samples rest := by
  have hfirst : i16At (Mixer.leI16 v) 0 = v := by
    have h := Mixer.i16At_leI16 (a := []) (b := []) (v := v) (i := 0) rfl hlo hhi
    simpa using h
  change i16At (Mixer.leI16 v) 0 :: samples rest = _
  rw [hfirst]

theorem samples_append {a : Bytes} (b : Bytes) (h : 2 ∣ a.length) :
    samples (a ++ b) = samples a ++ samples b := by
  induction a using samples.induct with
  | case1 lo hi rest ih =>
    have hrest : 2 ∣ rest.length := by
      simp only [List.length_cons] at h
      omega
    simp only [List.cons_append, samples, ih hrest]
  | case2 a hshort =>
    match a, h with
    | [], _ => rfl
    | [x], h => simp at h
    | lo :: hi :: rest, _ => exact absurd rfl (hshort lo hi rest)

theorem samples_eq_map (data : Bytes) (n : ℕ) (h : data.length = n * 2) :
    samples data = (List.range n).map (i16At data) := by
  induction n generalizing data with
  | zero =>
    rw [List.length_eq_zero_iff.mp (by omega : data.length = 0)]
    rfl
  | succ n ih =>
    match data, h with
    | a :: b :: rest, h =>
      have hrest : rest.length = n * 2 := by
        simp only [List.length_cons] at h
        omega
      rw [List.range_succ_eq_map, List.map_cons, List.map_map, samples, ih rest hrest]
      rfl
    | [], h | [x], h =>
      simp at h
      try omega

section

variable {σ : Type*} [PackArith σ]

open SampleArith PackArith

/-- The direct branch: the data pushed, if any, and the frames added to
`total_frames`. -/
def directChunk (data : Bytes) : Option Bytes × ℕ :=
  if 4 ∣ data.length then (some data, data.length / 4) else (none, 0)

variable (σ) in
/-- The other branch for a stream at the mix rate. -/
def dspChunk (fmt ch : ℕ) (data : Bytes) : Option Bytes × ℕ :=
  let folded : List σ := foldToStereo data fmt ch
  let s16 := f32StereoToS16 folded
  let frames := s16.length / 4
  if frames = 0 then (none, 0) else (some s16, frames)

theorem Reader.chunk_direct {r : Reader σ} (h : r.Direct) (data : Bytes) :
    r.chunk data = some (r, (directChunk data).1) := by
  rw [chunk, if_pos h, directChunk]
  split <;> rfl

/-- What a branch pushes and adds over a sequence of chunks. -/
def pushed (branch : Bytes → Option Bytes × ℕ) (chunks : List Bytes) : Bytes :=
  chunks.flatMap fun data => (branch data).1.getD []

def added (branch : Bytes → Option Bytes × ℕ) (chunks : List Bytes) : ℕ :=
  (chunks.map fun data => (branch data).2).sum

theorem pushed_cons (branch : Bytes → Option Bytes × ℕ) (data : Bytes) (chunks : List Bytes) :
    pushed branch (data :: chunks) = (branch data).1.getD [] ++ pushed branch chunks := rfl

theorem added_cons (branch : Bytes → Option Bytes × ℕ) (data : Bytes) (chunks : List Bytes) :
    added branch (data :: chunks) = (branch data).2 + added branch chunks := by
  simp only [added, List.map_cons, List.sum_cons]

theorem packed_fold_length (data : Bytes) :
    (f32StereoToS16 (foldToStereo data formatS16Le 2 : List σ)).length =
      4 * (data.length / 4) := by
  have hbytes : frameBytes formatS16Le 2 = 4 := rfl
  rw [f32StereoToS16_length, foldToStereo_length, hbytes]
  omega

theorem dspChunk_frames (data : Bytes) : (dspChunk σ formatS16Le 2 data).2 = data.length / 4 := by
  have hlen := packed_fold_length (σ := σ) data
  simp only [dspChunk]
  split
  · dsimp only
    omega
  · dsimp only
    omega

theorem dspChunk_pushed (data : Bytes) :
    (dspChunk σ formatS16Le 2 data).1.getD [] =
      f32StereoToS16 (foldToStereo data formatS16Le 2 : List σ) := by
  have hlen := packed_fold_length (σ := σ) data
  simp only [dspChunk]
  split
  · have hnil : (f32StereoToS16 (foldToStereo data formatS16Le 2 : List σ)).length = 0 := by omega
    rw [List.length_eq_zero_iff.mp hnil]
    rfl
  · rfl

theorem packed_fold_frame (a b c d : Byte) (rest : Bytes) :
    f32StereoToS16 (foldToStereo (a :: b :: c :: d :: rest) formatS16Le 2 : List σ) =
      Mixer.leI16 (toI16 (mul (clampUnit (div (ofInt (i16At [a, b] 0)) (ofInt 32768) : σ))
        (ofInt 32767))) ++
      (Mixer.leI16 (toI16 (mul (clampUnit (div (ofInt (i16At [c, d] 0)) (ofInt 32768) : σ))
        (ofInt 32767))) ++
        f32StereoToS16 (foldToStereo rest formatS16Le 2 : List σ)) := by
  have hfirst : (foldToStereo [a, b, c, d] formatS16Le 2 : List σ) =
      [div (ofInt (i16At [a, b] 0)) (ofInt 32768),
        div (ofInt (i16At [c, d] 0)) (ofInt 32768)] := by
    have hbytes : frameBytes formatS16Le 2 = 4 := rfl
    have hone : [a, b, c, d].length / frameBytes formatS16Le 2 = 1 := by
      simp only [hbytes, List.length_cons, List.length_nil, Nat.zero_add, Nat.reduceAdd,
        Nat.reduceDiv]
    have hfmt : ¬formatS16Le = formatFloatLe := by decide
    simp only [foldToStereo, hone, List.range_one, List.flatMap_singleton, foldFrame, chanSample,
      if_neg hfmt]
    rfl
  have hsplit := foldToStereo_append (σ := σ) [a, b, c, d] rest formatS16Le 2 (by decide) ⟨1, rfl⟩
  simp only [List.cons_append, List.nil_append] at hsplit
  rw [hsplit, hfirst]
  simp only [f32StereoToS16, List.cons_append, List.nil_append, List.flatMap_cons]

end

/-! ### Exact arithmetic -/

/- A sample after the division by 32768, the clamp and the truncated product with
32767. -/
theorem packed_sample_close {v : ℤ} (hlo : -32768 ≤ v) (hhi : v ≤ 32767) :
    let w := PackArith.toI16 (SampleArith.mul (PackArith.clampUnit
      (SampleArith.div (SampleArith.ofInt v) (SampleArith.ofInt 32768) : ℝ))
        (SampleArith.ofInt 32767))
    |v - w| ≤ 1 ∧ -32768 ≤ w ∧ w ≤ 32767 := by
  intro w
  have hlo' : (-32768 : ℝ) ≤ v := by exact_mod_cast hlo
  have hhi' : (v : ℝ) ≤ 32767 := by exact_mod_cast hhi
  -- the clamp leaves the quotient alone
  have hclamp : max (-1) (min ((v : ℝ) / 32768) 1) = v / 32768 := by
    rw [min_eq_left (by linarith), max_eq_right (by linarith)]
  let x : ℝ := v / 32768 * 32767
  have hw : w = max (-32768) (min (if x < 0 then ⌈x⌉ else ⌊x⌋) 32767) := by
    simp only [w, x, PackArith.toI16, PackArith.clampUnit, SampleArith.mul, SampleArith.div,
      SampleArith.ofInt]
    push_cast
    rw [hclamp]
  have hx : x = v - v / 32768 := by
    simp only [x]
    ring
  rw [hw, abs_le]
  rcases lt_or_ge v 0 with hneg | hnonneg
  · have hneg' : (v : ℝ) ≤ -1 := by exact_mod_cast Int.le_sub_one_of_lt hneg
    have hup : v ≤ ⌈x⌉ := by
      apply Int.le_ceil_iff.mpr
      linarith
    have hdown : ⌈x⌉ ≤ v + 1 := by
      apply Int.ceil_le.mpr
      push_cast
      linarith
    rw [if_pos (by linarith)]
    omega
  · have hnonneg' : (0 : ℝ) ≤ v := by exact_mod_cast hnonneg
    have hup : v - 1 ≤ ⌊x⌋ := by
      apply Int.le_floor.mpr
      push_cast
      linarith
    have hdown : ⌊x⌋ ≤ v := by
      apply Int.floor_le_iff.mpr
      linarith
    rw [if_neg (by linarith)]
    omega

/- Whole frames come out of the DSP branch sample by sample within one. -/
theorem packed_fold_close (data : Bytes) (h : 4 ∣ data.length) :
    List.Forall₂ (fun a b : ℤ => |a - b| ≤ 1) (samples data)
      (samples (f32StereoToS16 (foldToStereo data formatS16Le 2 : List ℝ))) := by
  match data, h with
  | [], _ => exact List.Forall₂.nil
  | a :: b :: c :: d :: rest, h =>
    have hrest : 4 ∣ rest.length := by
      simp only [List.length_cons] at h
      omega
    have ih := packed_fold_close rest hrest
    have hleft := Mixer.i16At_bounds [a, b] 0
    have hright := Mixer.i16At_bounds [c, d] 0
    obtain ⟨hl, hl₁, hl₂⟩ := packed_sample_close hleft.1 hleft.2
    obtain ⟨hr, hr₁, hr₂⟩ := packed_sample_close hright.1 hright.2
    rw [packed_fold_frame, samples_leI16 hl₁ hl₂, samples_leI16 hr₁ hr₂]
    exact .cons hl (.cons hr ih)
  | [x], h | [x, y], h | [x, y, z], h => simp at h

/-- The two branches over the same chunks: as many frames in the stream ring, as
many added to `total_frames`, and every sample within one. -/
structure Agree (chunks : List Bytes) : Prop where
  frames : (pushed directChunk chunks).length / 4 =
    (pushed (dspChunk ℝ formatS16Le 2) chunks).length / 4
  total : added directChunk chunks = added (dspChunk ℝ formatS16Le 2) chunks
  close : List.Forall₂ (fun a b : ℤ => |a - b| ≤ 1) (samples (pushed directChunk chunks))
    (samples (pushed (dspChunk ℝ formatS16Le 2) chunks))

theorem directChunk_frames (data : Bytes) :
    (directChunk data).2 = if 4 ∣ data.length then data.length / 4 else 0 := by
  unfold directChunk
  split <;> rfl

/- The direct branch adds no more, and as much only for chunks it does not cut. -/
theorem added_eq_iff (chunks : List Bytes) :
    added directChunk chunks ≤ added (dspChunk ℝ formatS16Le 2) chunks ∧
      (added directChunk chunks = added (dspChunk ℝ formatS16Le 2) chunks ↔
        ∀ data ∈ chunks, 4 ∣ data.length ∨ data.length < 4) := by
  induction chunks with
  | nil => exact ⟨le_rfl, iff_of_true rfl (List.forall_mem_nil _)⟩
  | cons data chunks ih =>
    obtain ⟨hle, hiff⟩ := ih
    rw [added_cons, added_cons, dspChunk_frames, directChunk_frames, List.forall_mem_cons, ← hiff]
    split <;> omega

theorem chunk_close {data : Bytes} (h : 4 ∣ data.length ∨ data.length < 4) :
    ((directChunk data).1.getD []).length = ((dspChunk ℝ formatS16Le 2 data).1.getD []).length ∧
      4 ∣ ((directChunk data).1.getD []).length ∧
      List.Forall₂ (fun a b : ℤ => |a - b| ≤ 1) (samples ((directChunk data).1.getD []))
        (samples ((dspChunk ℝ formatS16Le 2 data).1.getD [])) := by
  rw [dspChunk_pushed]
  have hlen := packed_fold_length (σ := ℝ) data
  unfold directChunk
  split
  next hwhole =>
    refine ⟨?_, hwhole, packed_fold_close data hwhole⟩
    rw [hlen]
    exact (Nat.mul_div_cancel' hwhole).symm
  next hpart =>
    have hshort : data.length < 4 := by omega
    rw [Nat.div_eq_of_lt hshort] at hlen
    rw [List.length_eq_zero_iff.mp hlen]
    exact ⟨rfl, ⟨0, rfl⟩, .nil⟩

theorem pushed_close (chunks : List Bytes)
    (h : ∀ data ∈ chunks, 4 ∣ data.length ∨ data.length < 4) :
    (pushed directChunk chunks).length = (pushed (dspChunk ℝ formatS16Le 2) chunks).length ∧
      List.Forall₂ (fun a b : ℤ => |a - b| ≤ 1) (samples (pushed directChunk chunks))
        (samples (pushed (dspChunk ℝ formatS16Le 2) chunks)) := by
  induction chunks with
  | nil => exact ⟨rfl, .nil⟩
  | cons data chunks ih =>
    rw [List.forall_mem_cons] at h
    obtain ⟨hlen, hclose⟩ := ih h.2
    obtain ⟨hlen₁, hdvd, hclose₁⟩ := chunk_close h.1
    have heven : 2 ∣ ((directChunk data).1.getD []).length := by omega
    rw [pushed_cons, pushed_cons, List.length_append, List.length_append, hlen₁, hlen,
      samples_append _ heven, samples_append _ (hlen₁ ▸ heven)]
    exact ⟨rfl, List.rel_append hclose₁ hclose⟩

/-- The reader of an S16 stereo client at the mix rate takes the direct branch, and
that agrees with the DSP branch exactly on sequences without a chunk that holds
whole frames and a part of one: the fold keeps the whole frames of such a chunk,
and the direct branch drops it. -/
theorem direct_agrees_iff (mixRate : ℕ) (kind : String) (chunks : List Bytes) :
    let r : Reader ℝ := .new ℝ (.new mixRate 2 formatS16Le) mixRate kind
    (∀ data, r.chunk data = some (r, (directChunk data).1)) ∧
      (Agree chunks ↔ ∀ data ∈ chunks, 4 ∣ data.length ∨ data.length < 4) := by
  intro r
  have hdirect : r.Direct := ⟨rfl, rfl, rfl⟩
  constructor
  · exact r.chunk_direct hdirect
  · constructor
    · intro h
      exact (added_eq_iff chunks).2.mp h.total
    · intro h
      obtain ⟨hlen, hclose⟩ := pushed_close chunks h
      exact ⟨by rw [hlen], (added_eq_iff chunks).2.mpr h, hclose⟩

/- A last chunk of a frame and a half. -/
theorem partial_chunk_dropped :
    added directChunk [[1, 0, 2, 0, 3, 0]] = 0 ∧ pushed directChunk [[1, 0, 2, 0, 3, 0]] = [] ∧
      added (dspChunk ℝ formatS16Le 2) [[1, 0, 2, 0, 3, 0]] = 1 ∧
      ¬Agree [[1, 0, 2, 0, 3, 0]] := by
  have hdsp : added (dspChunk ℝ formatS16Le 2) [[1, 0, 2, 0, 3, 0]] = 1 := by
    rw [added_cons, dspChunk_frames]
    rfl
  refine ⟨rfl, rfl, hdsp, fun h => ?_⟩
  have htotal := h.total
  rw [hdsp] at htotal
  exact absurd htotal (by decide)

end Audiod
