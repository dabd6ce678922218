import Audiod.Common
import Audiod.F32
import Mathlib.Data.List.Range

/-!
# Folding client PCM to stereo (`fold_to_stereo`, `server/src/dsp.rs:199-239`)

The sample type is a parameter with the `f32` operations the code applies, and
no law about them: which bytes make which sample does not depend on rounding.
-/

namespace Audiod

/-- The `f32` operations of the DSP code. -/
class SampleArith (σ : Type*) where
  /- `f32::from_bits` -/
  ofBits : ℕ → σ
  /- an integer `as f32` -/
  ofInt : ℤ → σ
  add : σ → σ → σ
  sub : σ → σ → σ
  mul : σ → σ → σ
  div : σ → σ → σ
  /- `as usize` -/
  toUsize : σ → ℕ

instance : SampleArith F32 where
  ofBits := F32.ofBits
  ofInt := F32.ofInt
  add := F32.add
  sub := F32.sub
  mul := F32.mul
  div := F32.div
  toUsize := fun x => (x.toInt 0 (2 ^ 64 - 1)).toNat

/-- `i16::from_le_bytes` of the byte pair at sample index `k`. -/
def i16At (s : Bytes) (k : ℕ) : ℤ :=
  let v := (s.getD (2 * k) 0).val + 256 * (s.getD (2 * k + 1) 0).val
  if v < 32768 then v else (v : ℤ) - 65536

section

variable {σ : Type*} [SampleArith σ]

open SampleArith

/-- Sample of channel `c` in the frame `s`; the format code picks the decoder. -/
def chanSample (fmt : ℕ) (s : Bytes) (c : ℕ) : σ :=
  if fmt = formatFloatLe then ofBits (leVal ((s.drop (c * 4)).take 4))
  else div (ofInt (i16At s c)) (ofInt 32768)

/-- The running sums `(l, nl, r, nr)` of the averaging branch. -/
def foldStep (acc : σ × ℕ × σ × ℕ) (cv : ℕ × σ) : σ × ℕ × σ × ℕ :=
  let (l, nl, r, nr) := acc
  if cv.1 % 2 = 0 then (add l cv.2, nl + 1, r, nr) else (l, nl, add r cv.2, nr + 1)

/-- One frame: mono duplicates, more than two channels average even into left
and odd into right. -/
def foldFrame (fmt ch : ℕ) (s : Bytes) : List σ :=
  let chans := (List.range (min ch 8)).map (chanSample fmt s)
  match ch with
  | 1 => [chanSample fmt s 0, chanSample fmt s 0]
  | 2 => [chanSample fmt s 0, chanSample fmt s 1]
  | _ =>
    let (l, nl, r, nr) :=
      ((List.range chans.length).zip chans).foldl foldStep (ofInt 0, 0, ofInt 0, 0)
    [div l (ofInt nl), div r (ofInt nr)]

def frameBytes (fmt ch : ℕ) : ℕ := pcmFormatBytes fmt * ch

/-- `fold_to_stereo`: every whole frame of `src`, a trailing partial one left out. -/
def foldToStereo (src : Bytes) (fmt ch : ℕ) : List σ :=
  let fsz := frameBytes fmt ch
  (List.range (src.length / fsz)).flatMap fun f => foldFrame fmt ch ((src.drop (f * fsz)).take fsz)

theorem foldFrame_length (fmt ch : ℕ) (s : Bytes) : (foldFrame fmt ch s : List σ).length = 2 := by
  unfold foldFrame
  split <;> rfl

theorem foldToStereo_length (src : Bytes) (fmt ch : ℕ) :
    (foldToStereo src fmt ch : List σ).length = 2 * (src.length / frameBytes fmt ch) := by
  simp only [foldToStereo, List.length_flatMap, foldFrame_length]
  simp [Nat.mul_comm]

theorem foldToStereo_append (a b : Bytes) (fmt ch : ℕ) (hpos : 0 < frameBytes fmt ch)
    (ha : frameBytes fmt ch ∣ a.length) :
    (foldToStereo (a ++ b) fmt ch : List σ) = foldToStereo a fmt ch ++ foldToStereo b fmt ch := by
  obtain ⟨n, hn⟩ := ha
  have hdiv : (a ++ b).length / frameBytes fmt ch =
      a.length / frameBytes fmt ch + b.length / frameBytes fmt ch := by
    rw [List.length_append, hn, Nat.mul_add_div hpos, Nat.mul_div_cancel_left _ hpos]
  simp only [foldToStereo]
  rw [hdiv, List.range_add, List.flatMap_append]
  have hq : a.length / frameBytes fmt ch = n := by rw [hn, Nat.mul_div_cancel_left _ hpos]
  rw [hq]
  congr 1
  · apply List.flatMap_congr
    intro f hf
    have hlt : f < n := List.mem_range.mp hf
    -- frame `f` of `a` ends inside `a`
    have hle : f * frameBytes fmt ch + frameBytes fmt ch ≤ a.length := by
      rw [hn, ← Nat.succ_mul, Nat.mul_comm]
      exact Nat.mul_le_mul_left _ hlt
    rw [List.drop_append_of_le_length (by omega),
      List.take_append_of_le_length (by rw [List.length_drop]; omega)]
  · rw [List.flatMap_map]
    apply List.flatMap_congr
    intro f _
    have hoff : (n + f) * frameBytes fmt ch = a.length + f * frameBytes fmt ch := by
      rw [Nat.add_mul, hn, Nat.mul_comm n]
    rw [hoff, List.drop_append, List.drop_of_length_le (by omega), List.nil_append,
      Nat.add_sub_cancel_left]

end

end Audiod
