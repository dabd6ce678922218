import Audiod.Reader

/-!
# Conversion in the players (`server/src/player.rs`, `server/src/main.rs:150-197`)

`convert_to_s16` is a second implementation of what the server does with `fold_to_stereo`
and `f32_stereo_to_s16`, with the volume applied on the way. It goes through raw pointers; an
access outside the two buffers gives `none`, as does the slice in `Player::play` that would
not fit.
-/

namespace Audiod.Cli

/-- What the players ask of a gain besides the arithmetic of a sample. -/
class GainArith (σ : Type*) extends PackArith σ where
  /- `round()` -/
  round : σ → σ
  /- `max(i16::MIN as f32).min(i16::MAX as f32)` -/
  boundI16 : σ → σ
  /- `(g - 1.0).abs() < f32::EPSILON` -/
  nearOne : σ → Bool
  /- `g == 1.0` -/
  isOne : σ → Bool

instance : GainArith F32 where
  round := F32.roundAway
  boundI16 := fun x => F32.minNum 32767 (F32.maxNum (-32768) x)
  nearOne := fun g =>
    match F32.sub g (.fin 1) with
    | .fin d => decide (|d| < 2 ^ (-23 : ℤ))
    | _ => false
  isOne := fun g => decide (g = .fin 1)

section

variable {σ : Type*} [GainArith σ]

open SampleArith PackArith GainArith

/-- One sample of each format. -/
def gainS16 (g : σ) (v : ℤ) : ℤ := toI16 (boundI16 (round (mul (ofInt v) g)))

def gainFloat (g x : σ) : ℤ := toI16 (mul (clampUnit (mul x g)) (ofInt 32767))

def s16Samples (g : σ) (src : Bytes) (n : ℕ) : List ℤ :=
  (List.range n).map fun i => gainS16 g (i16At src i)

def floatSamples (g : σ) (src : Bytes) (n : ℕ) : List ℤ :=
  (List.range n).map fun i => gainFloat g (ofBits (leVal ((src.drop (4 * i)).take 4)))

/-- The same sample on both sides. -/
def bothSides (l : List ℤ) : List ℤ := l.flatMap fun v => [v, v]

def packS16 (l : List ℤ) : Bytes := l.flatMap Mixer.leI16

/-- What is written from the start of a buffer on. -/
def overwrite (dst out : Bytes) : Option Bytes :=
  if out.length ≤ dst.length then some (out ++ dst.drop out.length) else none

/-- `convert_to_s16`: the contents of `dst` afterwards. -/
def convertToS16 (src dst : Bytes) (frames chIn chOut fmtIn : ℕ) (g : σ) : Option Bytes :=
  if fmtIn = formatS16Le ∧ chIn = 1 ∧ chOut = 2 then
    if 2 * frames ≤ src.length then overwrite dst (packS16 (bothSides (s16Samples g src frames)))
    else none
  else if fmtIn = formatFloatLe ∧ chIn = chOut then
    let n := frames * chIn
    if 4 * n ≤ src.length then overwrite dst (packS16 (floatSamples g src n)) else none
  else if fmtIn = formatFloatLe ∧ chIn = 1 ∧ chOut = 2 then
    if 4 * frames ≤ src.length then
      overwrite dst (packS16 (bothSides (floatSamples g src frames)))
    else none
  else if fmtIn = formatS16Le ∧ chIn = chOut ∧ isOne g = false then
    let n := frames * chIn
    if 2 * n ≤ src.length then overwrite dst (packS16 (s16Samples g src n)) else none
  else some dst

/-! ### The player -/

def hwFormat : ℕ := formatS16Le
def hwChannels : ℕ := 2

/-- `Player`, without the backend. -/
structure Player where
  hwFs : ℕ
  hwFormat : ℕ
  hwChannels : ℕ
  clientFs : ℕ
  clientChannels : ℕ
  clientFormat : ℕ
  hwMute : Bool
  mutedApplied : Bool
  outBuf : Bytes
  deriving DecidableEq

/-- `Player::open`; `hwMute` is what the first `set_mute` comes to. -/
def Player.open (cfg : AudioCfg) (hwMute : Bool) : Player where
  hwFs := formatBytes Cli.hwFormat * Cli.hwChannels
  hwFormat := Cli.hwFormat
  hwChannels := Cli.hwChannels
  clientFs := cfg.frameSize
  clientChannels := cfg.channels
  clientFormat := cfg.format
  hwMute := hwMute
  mutedApplied := false
  outBuf := []

/-- `Vec::resize` with zeros. -/
def resize (l : Bytes) (n : ℕ) : Bytes := l.take n ++ List.replicate (n - l.length) 0

/-- `Player::play`: the bytes handed to the backend. -/
def Player.play (p : Player) (data : Bytes) (frames : ℕ) (gain : σ) : Option (Player × Bytes) :=
  if frames = 0 then some (p, [])
  else
    let cbytes := frames * p.clientFs
    if data.length < cbytes then none
    else if p.clientFormat = p.hwFormat ∧ p.clientChannels = p.hwChannels ∧ nearOne gain = true then
      some (p, data.take cbytes)
    else
      let outSz := frames * p.hwFs
      let src := data.take cbytes
      let dst := resize p.outBuf outSz
      (convertToS16 src dst frames p.clientChannels p.hwChannels p.clientFormat gain).map
        fun out => ({ p with outBuf := out }, out.take outSz)

/-! ### Sizes -/

theorem s16Samples_length (g : σ) (src : Bytes) (n : ℕ) : (s16Samples g src n).length = n := by
  rw [s16Samples, List.length_map, List.length_range]

theorem bothSides_length (l : List ℤ) : (bothSides l).length = 2 * l.length := by
  simp [bothSides, List.length_flatMap, Nat.mul_comm]

theorem packS16_length (l : List ℤ) : (packS16 l).length = 2 * l.length := by
  simp [packS16, List.length_flatMap, Mixer.leI16_length, Nat.mul_comm]

theorem resize_length (l : Bytes) (n : ℕ) : (resize l n).length = n := by
  rw [resize, List.length_append, List.length_take, List.length_replicate]
  omega

theorem overwrite_of_length {dst out : Bytes} (h : out.length = dst.length) :
    overwrite dst out = some out := by
  rw [overwrite, if_pos h.le, List.drop_of_length_le h.ge, List.append_nil]

/-! ### S16, as the two players have it -/

/-- The player is one that was opened for S16 with `ch` channels. -/
structure Player.For (p : Player) (ch : ℕ) : Prop where
  hwFs : p.hwFs = 4
  hwFormat : p.hwFormat = formatS16Le
  hwChannels : p.hwChannels = 2
  clientFs : p.clientFs = 2 * ch % 65536
  clientChannels : p.clientChannels = ch
  clientFormat : p.clientFormat = formatS16Le

theorem Player.open_for (rate ch : ℕ) (hwMute : Bool) :
    (Player.open (.new rate ch formatS16Le) hwMute).For ch := ⟨rfl, rfl, rfl, rfl, rfl, rfl⟩

theorem Player.For.outBuf {p : Player} {ch : ℕ} (h : p.For ch) (buf : Bytes) :
    { p with outBuf := buf }.For ch :=
  ⟨h.hwFs, h.hwFormat, h.hwChannels, h.clientFs, h.clientChannels, h.clientFormat⟩

theorem Player.For.applied {p : Player} {ch : ℕ} (h : p.For ch) (b : Bool) :
    { p with mutedApplied := b }.For ch :=
  ⟨h.hwFs, h.hwFormat, h.hwChannels, h.clientFs, h.clientChannels, h.clientFormat⟩

theorem s16_not_float : ¬formatS16Le = formatFloatLe := by decide

theorem convertToS16_mono {src dst : Bytes} {frames : ℕ} (g : σ) (hsrc : 2 * frames ≤ src.length)
    (hdst : dst.length = frames * 4) :
    convertToS16 src dst frames 1 2 formatS16Le g =
      some (packS16 (bothSides (s16Samples g src frames))) := by
  rw [convertToS16, if_pos ⟨rfl, rfl, rfl⟩, if_pos hsrc]
  apply overwrite_of_length
  rw [packS16_length, bothSides_length, s16Samples_length]
  omega

theorem convertToS16_stereo {src dst : Bytes} {frames : ℕ} {g : σ} (hg : isOne g = false)
    (hsrc : 4 * frames ≤ src.length) (hdst : dst.length = frames * 4) :
    convertToS16 src dst frames 2 2 formatS16Le g =
      some (packS16 (s16Samples g src (frames * 2))) := by
  rw [convertToS16, if_neg (by omega), if_neg (fun h => s16_not_float h.1),
    if_neg (fun h => s16_not_float h.1), if_pos ⟨rfl, rfl, hg⟩, if_pos (by omega)]
  apply overwrite_of_length
  rw [packS16_length, s16Samples_length]
  omega

theorem convertToS16_rest (src dst : Bytes) (frames : ℕ) {ch : ℕ} {g : σ} (h1 : ch ≠ 1)
    (h2 : ch = 2 → isOne g = true) :
    convertToS16 src dst frames ch 2 formatS16Le g = some dst := by
  have hlast : ¬(formatS16Le = formatS16Le ∧ ch = 2 ∧ isOne g = false) := by
    rintro ⟨-, hch, hg⟩
    rw [h2 hch] at hg
    cases hg
  rw [convertToS16, if_neg (fun h => h1 h.2.1), if_neg (fun h => s16_not_float h.1),
    if_neg (fun h => s16_not_float h.1), if_neg hlast]

theorem Player.play_convert {p : Player} {ch : ℕ} (h : p.For ch) {data : Bytes} {frames : ℕ}
    {g : σ} (hlen : frames * p.clientFs ≤ data.length) (hpos : 0 < frames)
    (hpass : ¬(ch = 2 ∧ nearOne g = true)) :
    p.play data frames g =
      (convertToS16 (data.take (frames * p.clientFs)) (resize p.outBuf (frames * 4)) frames ch 2
        formatS16Le g).map fun out => ({ p with outBuf := out }, out.take (frames * 4)) := by
  rw [play, if_neg (by omega)]
  simp only [h.hwFs, h.hwChannels, h.hwFormat, h.clientChannels, h.clientFormat, true_and]
  rw [if_neg (by omega), if_neg hpass]

theorem Player.play_mono {p : Player} (h : p.For 1) {data : Bytes} {frames : ℕ} (g : σ)
    (hlen : data.length = frames * 2) :
    ∃ buf, p.play data frames g =
      some ({ p with outBuf := buf }, packS16 (bothSides (s16Samples g data frames))) := by
  rcases Nat.eq_zero_or_pos frames with rfl | hpos
  · exact ⟨p.outBuf, rfl⟩
  · have hfs : p.clientFs = 2 := h.clientFs
    have hsrc : data.take (frames * 2) = data := List.take_of_length_le hlen.le
    have hout : (packS16 (bothSides (s16Samples g data frames))).length = frames * 4 := by
      rw [packS16_length, bothSides_length, s16Samples_length]
      omega
    refine ⟨packS16 (bothSides (s16Samples g data frames)), ?_⟩
    rw [play_convert h (by rw [hfs, hlen]) hpos (by omega), hfs, hsrc,
      convertToS16_mono g (by omega) (resize_length _ _), Option.map_some,
      List.take_of_length_le hout.le]

theorem Player.play_stereo {p : Player} (h : p.For 2) {data : Bytes} {frames : ℕ} {g : σ}
    (hlen : data.length = frames * 4) (hg : nearOne g = true) :
    p.play data frames g = some (p, data) := by
  rcases Nat.eq_zero_or_pos frames with rfl | hpos
  · rw [List.length_eq_zero_iff.mp (by omega : data.length = 0)]
    rfl
  · have hfs : p.clientFs = 4 := h.clientFs
    rw [play, if_neg (by omega)]
    simp only [hfs, h.hwFormat, h.hwChannels, h.clientChannels, h.clientFormat, true_and]
    rw [if_neg (by omega), if_pos hg, List.take_of_length_le hlen.le]

/- No branch takes more channels than two; the buffer is handed over as it was. -/
theorem Player.play_many {p : Player} {ch : ℕ} (h : p.For ch) {data : Bytes} {frames : ℕ} (g : σ)
    (hch : 3 ≤ ch) (hpos : 0 < frames) (hlen : frames * p.clientFs ≤ data.length) :
    p.play data frames g =
      some ({ p with outBuf := resize p.outBuf (frames * 4) }, resize p.outBuf (frames * 4)) := by
  rw [play_convert h hlen hpos (by omega), convertToS16_rest _ _ _ (by omega) (by omega),
    Option.map_some, List.take_of_length_le (resize_length _ _).le]

/-- Whatever the gain and the channels, as much comes out as the backend wants for the
frames, and nothing is out of range as long as the client's frames are there. -/
theorem Player.play_spec {p : Player} {ch : ℕ} (h : p.For ch) {data : Bytes} {frames : ℕ} (g : σ)
    (hlen : frames * p.clientFs ≤ data.length) :
    ∃ buf out, p.play data frames g = some ({ p with outBuf := buf }, out) ∧
      out.length = frames * 4 := by
  rcases Nat.eq_zero_or_pos frames with rfl | hpos
  · exact ⟨p.outBuf, [], rfl, by rw [List.length_nil, Nat.zero_mul]⟩
  · have hfs := h.clientFs
    have htake : (data.take (frames * p.clientFs)).length = frames * p.clientFs := by
      rw [List.length_take, min_eq_left hlen]
    by_cases hpass : ch = 2 ∧ nearOne g = true
    · obtain ⟨rfl, hg⟩ := hpass
      refine ⟨p.outBuf, data.take (frames * p.clientFs), ?_, by rw [htake, hfs]⟩
      unfold play
      dsimp only
      rw [if_neg (by omega), if_neg (not_lt.mpr hlen),
        if_pos ⟨h.clientFormat.trans h.hwFormat.symm, h.clientChannels.trans h.hwChannels.symm, hg⟩]
    · rw [play_convert h hlen hpos hpass]
      -- which of the branches it is
      have hconv : ∃ out, convertToS16 (data.take (frames * p.clientFs))
          (resize p.outBuf (frames * 4)) frames ch 2 formatS16Le g = some out ∧
            out.length = frames * 4 := by
        by_cases hmono : ch = 1
        · subst hmono
          have hsrc : 2 * frames ≤ (data.take (frames * p.clientFs)).length := by
            rw [htake, hfs, Nat.mul_comm]
          rw [convertToS16_mono g hsrc (resize_length _ _)]
          refine ⟨_, rfl, ?_⟩
          rw [packS16_length, bothSides_length, s16Samples_length]
          omega
        · by_cases hstereo : ch = 2 ∧ isOne g = false
          · obtain ⟨rfl, hg⟩ := hstereo
            have hsrc : 4 * frames ≤ (data.take (frames * p.clientFs)).length := by
              rw [htake, hfs, Nat.mul_comm]
            rw [convertToS16_stereo hg hsrc (resize_length _ _)]
            refine ⟨_, rfl, ?_⟩
            rw [packS16_length, s16Samples_length]
            omega
          · rw [convertToS16_rest _ _ _ hmono
              fun hch => by simpa using fun hg => hstereo ⟨hch, hg⟩]
            exact ⟨_, rfl, resize_length _ _⟩
      obtain ⟨out, hout, hsize⟩ := hconv
      rw [hout]
      refine ⟨out, out.take (frames * 4), rfl, ?_⟩
      rw [List.length_take, hsize, min_self]

end

end Audiod.Cli
