import Audiod.Protocol

/-!
# The header on the server side

`parse_header` (`server/src/main.rs:132-148`) and the configuration it gives
(`common/src/lib.rs:39-60`), against the twelve bytes of `send_header`.
-/

namespace Audiod

def formatBytes (fmt : ℕ) : ℕ :=
  if fmt = formatS16Le then 2 else if fmt = formatFloatLe then 4 else 2

structure AudioCfg where
  rate : ℕ
  channels : ℕ
  frameSize : ℕ
  format : ℕ
  deriving DecidableEq

/-- `AudioCfg::new`; the frame size is cast to `u16`. -/
def AudioCfg.new (rate channels format : ℕ) : AudioCfg :=
  ⟨rate, channels, formatBytes format * channels % 65536, format⟩

/-- Rate, channels and format code. -/
def headerFields (buf : Bytes) : ℕ × ℕ × ℕ :=
  (leVal (buf.take 4), leVal ((buf.drop 4).take 2), leVal ((buf.drop 6).take 2))

def parseHeader (buf : Bytes) : Option AudioCfg :=
  let (rate, ch, fmt) := headerFields buf
  if rate = 0 ∨ ch = 0 ∨ 8 < ch then none
  else if fmt ≠ formatS16Le ∧ fmt ≠ formatFloatLe then none
  else some (.new rate ch fmt)

theorem parseHeader_rate {buf : Bytes} {cfg : AudioCfg} (h : parseHeader buf = some cfg) :
    cfg.rate ≠ 0 := by
  simp only [parseHeader] at h
  split at h
  · cases h
  · rename_i hrange
    split at h <;> cases h
    exact fun h0 => hrange (.inl h0)

theorem headerFields_headerBytes (rate channels format : ℕ) :
    headerFields (headerBytes rate channels format) =
      (rate % 2 ^ 32, channels % 2 ^ 16, format % 2 ^ 16) := by
  have h4 := leBytes_length 4 rate
  have h2 := leBytes_length 2 channels
  have h2' := leBytes_length 2 format
  have hrate : (headerBytes rate channels format).take 4 = leBytes 4 rate := by
    rw [headerBytes, List.append_assoc, List.append_assoc, List.take_left' h4]
  have hch : ((headerBytes rate channels format).drop 4).take 2 = leBytes 2 channels := by
    rw [headerBytes, List.append_assoc, List.append_assoc, List.drop_left' h4, List.take_left' h2]
  have hfmt : ((headerBytes rate channels format).drop 6).take 2 = leBytes 2 format := by
    have h6 : (leBytes 4 rate ++ leBytes 2 channels).length = 6 := by
      rw [List.length_append, h4, h2]
    rw [headerBytes, List.append_assoc, List.drop_left' h6, List.take_left' h2']
  rw [headerFields, hrate, hch, hfmt, leVal_leBytes_mod, leVal_leBytes_mod, leVal_leBytes_mod]
  rfl

theorem formatBytes_eq {fmt : ℕ} (h : fmt = formatS16Le ∨ fmt = formatFloatLe) :
    formatBytes fmt = pcmFormatBytes fmt := by
  rcases h with rfl | rfl <;> rfl

/-- What the header of these parameters is taken for on the other side: the server
has the same parameters exactly if there are at most eight channels and the format is
one of its two. -/
theorem parseHeader_headerBytes_iff {rate channels format : ℕ} (hrate : rate < 2 ^ 32)
    (hformat : format < 2 ^ 16) (hr : rate ≠ 0) (hc : channels ≠ 0) :
    parseHeader (headerBytes rate channels format) =
        some ⟨rate, channels, pcmFormatBytes format * channels, format⟩ ↔
      channels ≤ 8 ∧ (format = formatS16Le ∨ format = formatFloatLe) := by
  simp only [parseHeader, headerFields_headerBytes, Nat.mod_eq_of_lt hrate,
    Nat.mod_eq_of_lt hformat]
  constructor
  · intro h
    split at h
    · cases h
    · rename_i hrange
      split at h
      · cases h
      · rename_i hfmt
        simp only [AudioCfg.new, Option.some.injEq, AudioCfg.mk.injEq] at h
        constructor
        · rw [h.2.1] at hrange
          omega
        · tauto
  · rintro ⟨hle, hfmt⟩
    have hmod : channels % 2 ^ 16 = channels := Nat.mod_eq_of_lt (by omega)
    have hbytes : pcmFormatBytes format ≤ 4 := by rcases hfmt with rfl | rfl <;> decide
    have hsize : pcmFormatBytes format * channels < 65536 :=
      calc pcmFormatBytes format * channels ≤ 4 * 8 := Nat.mul_le_mul hbytes hle
        _ < 65536 := by decide
    rw [hmod, if_neg (by omega), if_neg (by tauto), AudioCfg.new, formatBytes_eq hfmt,
      Nat.mod_eq_of_lt hsize]

end Audiod
