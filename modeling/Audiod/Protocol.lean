import Audiod.Common

/-!
# The wire protocol

Producer side: `send_header` and `send_frame` of the shim
(`shim/src/lib.rs:263-272`, `514-517`) and what the drain thread passes to
`send_frame`. Consumer side: `Cmd::read` and the framing part of the server's
`reader_client` loop (`server/src/main.rs:321-339`, `507-552`), which reads from
a blocking socket until its end; the 250 ms poll in front of each frame only
looks at the shutdown flag and consumes nothing.
-/

namespace Audiod

/-! ### Shim side -/

/-- The 12 bytes of `send_header`; the fields are cast to their widths. -/
def headerBytes (rate channels format : ℕ) : Bytes :=
  leBytes 4 rate ++ leBytes 2 channels ++ leBytes 2 format ++ [0, 0, 0, 0]

theorem headerBytes_length (rate channels format : ℕ) :
    (headerBytes rate channels format).length = hdrSz := by
  simp [headerBytes, leBytes_length, hdrSz]

/-- `send_frame`: the length as a `u32`, then the payload. -/
def sendFrame (payload : Bytes) : Bytes := leBytes 4 payload.length ++ payload

/-- A chunk the drain thread can send: never empty (it skips those) and within
the length prefix; its buffer holds `drainChunk` bytes, far below the bound. -/
structure PcmChunk where
  bytes : Bytes
  nonempty : bytes ≠ []
  bound : bytes.length < 256 ^ 4

/-- The frames of the drain thread: the command bytes it takes from `MUTE_CMD`
and `FLUSH_CMD`, and the chunks it pops. -/
inductive DrainFrame
  | mute
  | unmute
  | flush
  | pcm (chunk : PcmChunk)

/-- The slice passed to `send_frame` (`shim/src/lib.rs:480-500`). -/
def DrainFrame.payload : DrainFrame → Bytes
  | .mute => [msgMute]
  | .unmute => [msgUnmute]
  | .flush => [msgFlush]
  | .pcm chunk => chunk.bytes

def DrainFrame.isPcm : DrainFrame → Bool
  | .pcm _ => true
  | _ => false

/-! ### Server side -/

/-- `Cmd`; the volume is kept as the bits of its `f32`. -/
inductive Cmd
  | mute
  | unmute
  | flush
  | volume (bits : ℕ)
  | status
  deriving DecidableEq

/-- What one turn of the reader loop has decoded. -/
inductive ReaderEvent
  | cmd (c : Cmd)
  | chunk (data : Bytes)
  deriving DecidableEq

/-- `Cmd::read`, after the opcode. -/
def Cmd.read (op : Byte) (s : Segments) : Option (Cmd × Segments) :=
  if op = msgMute then some (.mute, s)
  else if op = msgUnmute then some (.unmute, s)
  else if op = msgFlush then some (.flush, s)
  else if op = msgVolume then (readExact 4 s).map fun (v, s) => (.volume (leVal v), s)
  else if op = msgStatus then some (.status, s)
  else none

/-- Size of the reader's scratch buffer. -/
def readBufSz : ℕ := 8192

/-- One turn of the loop of `reader_client`; `none` is one of its `break`s. -/
def readerStep (s : Segments) : Option (ReaderEvent × Segments) :=
  (readExact 4 s).bind fun (lenBuf, s) =>
    let len := leVal lenBuf
    if len = 0 then
      (readExact 1 s).bind fun (op, s) =>
        (Cmd.read (op.headD 0) s).map fun (c, s) => (.cmd c, s)
    else
      let (data, s) := fill readBufSz len len s
      if data.length ≠ len then none else some (.chunk data, s)

def readerLoop : ℕ → Segments → List ReaderEvent
  | 0, _ => []
  | fuel + 1, s =>
    match readerStep s with
    | none => []
    | some (e, s) => e :: readerLoop fuel s

/-- Everything `reader_client` decodes from a connection after its header. Each
turn consumes at least four bytes, so the fuel is never used up. -/
def readerClient (s : Segments) : List ReaderEvent := readerLoop (s.flatten.length + 1) s

/-- What a drain frame is meant to be on the other side. -/
def DrainFrame.meaning : DrainFrame → ReaderEvent
  | .mute => .cmd .mute
  | .unmute => .cmd .unmute
  | .flush => .cmd .flush
  | .pcm chunk => .chunk chunk.bytes

/-! ### What the reader makes of the shim's frames -/

theorem DrainFrame.payload_pos (f : DrainFrame) : 0 < f.payload.length := by
  cases f with
  | pcm chunk => exact List.length_pos_iff.mpr chunk.nonempty
  | mute => decide
  | unmute => decide
  | flush => decide

theorem DrainFrame.payload_lt (f : DrainFrame) : f.payload.length < 256 ^ 4 := by
  cases f with
  | pcm chunk => exact chunk.bound
  | mute => decide
  | unmute => decide
  | flush => decide

theorem sendFrame_length (payload : Bytes) : (sendFrame payload).length = 4 + payload.length := by
  simp [sendFrame, leBytes_length]

theorem readerStep_sendFrame {payload rest : Bytes} {s : Segments}
    (hpos : 0 < payload.length) (hlt : payload.length < 256 ^ 4)
    (hs : s.flatten = sendFrame payload ++ rest) :
    ∃ s', readerStep s = some (.chunk payload, s') ∧ s'.flatten = rest := by
  rw [sendFrame, List.append_assoc] at hs
  obtain ⟨s₁, hlen, hs₁⟩ := readExact_append (by decide) (leBytes_length 4 payload.length) hs
  have hfill := fill_spec (by decide : 0 < readBufSz) payload.length payload.length s₁ (le_refl _)
  rw [hs₁, List.take_left' rfl, List.drop_left' rfl] at hfill
  rcases hf : fill readBufSz payload.length payload.length s₁ with ⟨d, s₂⟩
  rw [hf] at hfill
  simp only at hfill
  refine ⟨s₂, ?_, hfill.2⟩
  simp only [readerStep, hlen, Option.bind_some, leVal_leBytes hlt]
  rw [if_neg (by omega), hf]
  simp [hfill.1]

theorem readerStep_eof {s : Segments} (hs : s.flatten = []) : readerStep s = none := by
  simp only [readerStep, readExact_eof (by decide : 0 < 4) hs, Option.bind_none]

theorem readerLoop_frames (frames : List DrainFrame) :
    ∀ (fuel : ℕ) (s : Segments), frames.length < fuel →
      s.flatten = (frames.map fun f => sendFrame f.payload).flatten →
      readerLoop fuel s = frames.map fun f => .chunk f.payload := by
  induction frames with
  | nil =>
    intro fuel s hf hs
    obtain ⟨fuel, rfl⟩ := Nat.exists_eq_succ_of_ne_zero (by omega : fuel ≠ 0)
    simp [readerLoop, readerStep_eof (by simpa using hs)]
  | cons f frames ih =>
    intro fuel s hf hs
    obtain ⟨fuel, rfl⟩ := Nat.exists_eq_succ_of_ne_zero (by omega : fuel ≠ 0)
    rw [List.map_cons, List.flatten_cons] at hs
    obtain ⟨s', hstep, hs'⟩ := readerStep_sendFrame f.payload_pos f.payload_lt hs
    simp only [readerLoop, hstep, List.map_cons]
    rw [ih fuel s' (by simpa using hf) hs']

theorem frames_length_le (frames : List DrainFrame) :
    frames.length ≤ (frames.map fun f => sendFrame f.payload).flatten.length := by
  induction frames with
  | nil => simp
  | cons f frames ih =>
    simp only [List.map_cons, List.flatten_cons, List.length_append, List.length_cons,
      sendFrame_length]
    omega

/- The decoder sees every frame of the drain thread as a chunk, the commands
included: a one-byte payload has a non-zero length prefix. -/
theorem readerClient_frames (frames : List DrainFrame) (s : Segments)
    (hs : s.flatten = (frames.map fun f => sendFrame f.payload).flatten) :
    readerClient s = frames.map fun f => .chunk f.payload := by
  refine readerLoop_frames frames _ s ?_ hs
  rw [hs]
  exact Nat.lt_succ_of_le (frames_length_le frames)

theorem DrainFrame.meaning_eq_chunk (f : DrainFrame) :
    ReaderEvent.chunk f.payload = f.meaning ↔ f.isPcm = true := by
  cases f <;> simp [payload, meaning, isPcm]

/-- Frames survive the wire exactly when none of them is a command. -/
theorem drain_frames_decode_iff (frames : List DrainFrame) (s : Segments)
    (hs : s.flatten = (frames.map fun f => sendFrame f.payload).flatten) :
    readerClient s = frames.map DrainFrame.meaning ↔ ∀ f ∈ frames, f.isPcm = true := by
  rw [readerClient_frames frames s hs, List.map_inj_left]
  exact forall₂_congr fun f _ => f.meaning_eq_chunk

/- A chunk followed by another, the stream cut inside the first length prefix. -/
theorem drain_frames_decode_iff_two_chunks :
    let a : PcmChunk := ⟨[1, 2, 3, 4], by decide, by decide⟩
    let s : Segments := [[4, 0], [0, 0, 1], [2, 3, 4, 4, 0, 0, 0, 1, 2], [3, 4]]
    readerClient s = [DrainFrame.pcm a, .pcm a].map DrainFrame.meaning ↔
      ∀ f ∈ [DrainFrame.pcm a, .pcm a], f.isPcm = true :=
  drain_frames_decode_iff _ _ (by decide)

/- A single mute request, sent as `01 00 00 00 'M'`, arrives as one byte of audio. -/
theorem mute_decodes_as_audio :
    ¬ ∀ (frames : List DrainFrame) (s : Segments),
      s.flatten = (frames.map fun f => sendFrame f.payload).flatten →
      readerClient s = frames.map DrainFrame.meaning := by
  intro h
  have hm := h [.mute] [[1, 0, 0, 0, 77]] (by decide)
  have hd : readerClient [[1, 0, 0, 0, 77]] = [.chunk [77]] := by decide
  rw [hd] at hm
  revert hm
  decide

end Audiod
