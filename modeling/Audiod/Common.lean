import Audiod.Bytes

/-!
# Shared constants (`common/src/lib.rs`)
-/

namespace Audiod

def hdrSz : ℕ := 12

def msgMute : Byte := 77
def msgUnmute : Byte := 85
def msgStatus : Byte := 83
def msgVolume : Byte := 86
def msgFlush : Byte := 70

def formatS16Le : ℕ := 2
def formatFloatLe : ℕ := 14

/-- Virtual device buffer the shim advertises (frames). -/
def shimBufferFrames : ℤ := 8192
/-- Frames the shim assumes buffered server-side; the server's occupancy target. -/
def shimServerFrames : ℤ := 4096
/-- Most bytes the drain thread pops and sends at a time. -/
def drainChunk : ℕ := 1024

/-- Bytes per sample (`pcm_format_bytes`, `lib.rs:62-69`). -/
def pcmFormatBytes (fmt : ℕ) : ℕ :=
  match fmt with
  | 2 => 2
  | 6 => 4
  | 14 => 4
  | _ => 2

end Audiod
