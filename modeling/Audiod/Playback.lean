import Audiod.CodecVerbs
import Audiod.Descriptors
import Audiod.Rates

/-!
# The playback session at its registers (`hda/src/stream.rs`, `hda/src/lib.rs`)

`Stream` and `HdaPlayback` with every register access they make. The bytes that `setup`
and `write` put into the DMA pages are those of `Dma`; here a `write` only moves the
position.
-/

namespace Audiod.Driver

open Dialogue

/-- The release build's `format_val`. -/
def formatVal (rate : ℕ) : U16 := BitVec.ofNat 16 ((Rates.formatVal .release rate).getD 0)

/-- Register reads made for a line of the log. -/
def forLog (p : Prog Unit) : Prog Unit := do
  let on ← logged
  if on then p else pure ()

structure Stream where
  ring : DmaBuffer
  bdl : DmaBuffer
  entries : ℕ
  writePos : ℕ
  deriving DecidableEq

namespace Stream

def new : Prog Stream := do
  let ring ← DmaBuffer.new ringSize
  let bdl ← DmaBuffer.new (max (Dma.ringPages * Dma.entrySize) pageSize)
  pure ⟨ring, bdl, 0, 0⟩

/-- The entry count of `bdl::fill`. -/
def fillEntries (s : Stream) (count : ℕ) : ℕ :=
  min (min count (s.bdl.size / Dma.entrySize)) (s.ring.size / pageSize)

def setup (s : Stream) (c : Controller) (rate : ℕ) : Prog Stream := do
  let entries := s.fillEntries Dma.ringPages
  let base := c.sd0Base
  let ctl := (c.sd0Tag <<< streamTagShift) &&& streamTagMask
  writeU32 (base + sdCtl) ctl
  writeU32 (base + sdCbl) (BitVec.ofNat 32 ringSize)
  writeU16 (base + sdFormat) (formatVal rate)
  writeU16 (base + sdLvi) (BitVec.ofNat 16 (entries - 1))
  let pa := s.bdl.toaddr 0
  writeU32 (base + sdBdlpl) (pa.setWidth 32)
  writeU32 (base + sdBdlpu) ((pa >>> 32).setWidth 32)
  writeU32 (base + sdCtl) (ctl ||| intMask)
  pure { s with entries := entries }

/-- For the line `start` logs. -/
def startLine (c : Controller) : Prog Unit := forLog do
  let _ ← readU32 (c.sd0Base + sdCtl)
  let _ ← readU8 (c.sd0Base + sdSts)
  let _ ← readU32 (c.sd0Base + sdLpib)

def start (c : Controller) : Prog Unit := do
  let base := c.sd0Base
  let sie := 1#32 <<< c.sdIndex
  let int ← readU32 intctl
  writeU32 intctl (int ||| sie)
  let ctl ← readU32 (base + sdCtl)
  writeU32 (base + sdCtl) (ctl ||| intMask)
  let low ← readU8 (base + sdCtl)
  writeU8 (base + sdCtl) (low ||| dmaStart.setWidth 8)
  startLine c

def stop (c : Controller) : Prog Unit := do
  let base := c.sd0Base
  let ctl ← readU32 (base + sdCtl)
  writeU32 (base + sdCtl) (ctl &&& ~~~(dmaStart ||| intMask))
  writeU8 (base + sdSts) (intMask.setWidth 8)
  let int ← readU32 intctl
  writeU32 intctl (int &&& ~~~(1#32 <<< c.sdIndex))

/-- The SRST bit of SD_CTL is as wanted. -/
def srstIs (c : Controller) (on : Bool) : Prog Bool := do
  let v ← readU32 (c.sd0Base + sdCtl)
  pure ((v &&& streamReset != 0#32) == on)

/-- The strobe; a bit that does not follow in a hundred polls is passed over. -/
def srst (c : Controller) : Prog Unit := do
  writeU32 (c.sd0Base + sdCtl) streamReset
  let _ ← (srstIs c true).retry 99
  writeU32 (c.sd0Base + sdCtl) 0#32
  let _ ← (srstIs c false).retry 99
  pure ()

def lpib (c : Controller) : Prog ℕ := do
  let v ← readU32 (c.sd0Base + sdLpib)
  pure (v.toNat % ringSize)

def delayBytes (s : Stream) (c : Controller) : Prog ℕ := do
  let rd ← lpib c
  pure (if rd ≤ s.writePos then s.writePos - rd else ringSize - rd + s.writePos)

def freeSpace (s : Stream) (rd : ℕ) : ℕ :=
  if rd ≤ s.writePos then ringSize - (s.writePos - rd) else rd - s.writePos

def freeBytes (s : Stream) (c : Controller) : Prog ℕ := do
  let rd ← lpib c
  pure (s.freeSpace rd)

def status (c : Controller) : Prog U8 := readU8 (c.sd0Base + sdSts)

/-- The stream after a `write` of `len` bytes, and how many it took. -/
def write (s : Stream) (c : Controller) (len : ℕ) : Prog (Stream × ℕ) := do
  let rd ← lpib c
  let n := min len (s.freeSpace rd)
  if n = 0 then pure (s, 0)
  else pure ({ s with writePos := (s.writePos + n) % ringSize }, n)

/-- For the line `play` logs now and then. -/
def ringLine (s : Stream) (c : Controller) : Prog Unit := forLog do
  let _ ← lpib c
  let _ ← s.delayBytes c
  let _ ← s.freeBytes c
  let _ ← status c

end Stream

/-! ### `HdaPlayback` -/

structure HdaPlayback where
  controller : Controller
  codec : Codec
  stream : Stream
  fmt : U16
  rate : ℕ
  running : Bool
  bytesWritten : U64

namespace HdaPlayback

/-- `open` once it has a controller, up to the stream registers. -/
def bringUpFrom (opts : DebugOpts) (rate : ℕ) (c : Controller) :
    Prog (Controller × Codec × Stream) :=
  if c.codecMask = 0#16 then .fail .noCodecOnLink
  else do
    let p ← Codec.probe c
    let c := p.1
    if opts.dumpTopology then Codec.dumpTopology c else pure ()
    let s ← Stream.new
    Stream.srst c
    let s ← s.setup c rate
    pure (c, p.2, s)

def bringUp (opts : DebugOpts) (rate : ℕ) : Prog (Controller × Codec × Stream) := do
  let c ← Controller.open opts
  bringUpFrom opts rate c

/-- What is left of it. -/
def initCodec (opts : DebugOpts) (rate : ℕ) (c : Controller) : Prog Unit :=
  if opts.skipCodecInit then pure ()
  else do
    Codec.initPlayback c (formatVal rate) c.sd0Tag
    if opts.dumpState then Codec.dumpState c else pure ()

def «open» (opts : DebugOpts) (rate : ℕ) : Prog HdaPlayback := do
  let (c, codec, s) ← bringUp opts rate
  initCodec opts rate c
  pure ⟨c, codec, s, formatVal rate, rate, false, 0#64⟩

/-- `setup` does not fail. -/
def start (pb : HdaPlayback) : Prog HdaPlayback :=
  if pb.running then pure pb
  else do
    Stream.srst pb.controller
    let s ← pb.stream.setup pb.controller pb.rate
    Stream.start pb.controller
    pure { pb with stream := s, running := true }

def play (pb : HdaPlayback) (len : ℕ) : Prog HdaPlayback := do
  let pb ← start pb
  let w ← pb.stream.write pb.controller len
  let written := pb.bytesWritten + BitVec.ofNat 64 w.2
  if written.toNat % (32 * 1024) < 4 then w.1.ringLine pb.controller else pure ()
  pure { pb with stream := w.1, bytesWritten := written }

def dropAll (pb : HdaPlayback) : Prog HdaPlayback := do
  Stream.stop pb.controller
  Stream.srst pb.controller
  pure { pb with stream := { pb.stream with writePos := 0 }, running := false }

def stop (pb : HdaPlayback) : Prog HdaPlayback := do
  Stream.stop pb.controller
  pure { pb with running := false }

/-- What the backend calls on an open session; a `set_mute` that fails is logged. -/
inductive Call
  | play (len : ℕ)
  | delayFrames
  | setMute (mute : Bool)
  | outputPath
  | stopImmediate
  | stop

def call (pb : HdaPlayback) : Call → Prog HdaPlayback
  | .play len => pb.play len
  | .delayFrames => do
    let _ ← pb.stream.delayBytes pb.controller
    pure pb
  | .setMute mute => do
    let _ ← (Codec.setMute pb.controller mute).attempt
    pure pb
  | .outputPath => do
    let _ ← Codec.outputPath pb.controller
    pure pb
  | .stopImmediate => pb.dropAll
  | .stop => pb.stop

/-- A whole session, from `open` on. -/
def session (opts : DebugOpts) (rate : ℕ) (calls : List Call) : Prog HdaPlayback := do
  let pb ← «open» opts rate
  calls.foldlM call pb

/-- Everything a session asks, with the answers of the device. -/
def history (env : Env) (opts : DebugOpts) (rate : ℕ) (calls : List Call) : History :=
  (run env (session opts rate calls) []).2

theorem session_run {env : Env} {opts : DebugOpts} {rate : ℕ} {first : HdaPlayback}
    (hopen : (run env («open» opts rate) []).1 = .ok first) (calls : List Call) :
    run env (session opts rate calls) [] =
      run env (calls.foldlM call first) (run env («open» opts rate) []).2 :=
  run_bind_ok hopen _

end HdaPlayback

/-! ### A device to try sessions on -/

/-- The widget type of the nodes of the map. -/
def widgetCaps (nid : U8) : U32 :=
  if nid = 0x0c#8 ∨ nid = 0x0d#8 then 0x200000#32
  else if nid = 0x14#8 ∨ nid = 0x15#8 then 0x400000#32
  else 0#32

/-- A controller with four streams each way and an ALC269 on its link, which answers the
same at any time. -/
def Op.typical : (o : Op) → o.Ans
  | .mapBar | .openConfig | .configWriteU8 _ _ | .configWriteU16 _ _ => .ok ()
  | .readU8 _ => 0#8
  | .readU16 off => if off = gcapReg then 0x4401#16 else 0#16
  | .readU32 _ => 0#32
  | .writeU8 _ _ | .writeU16 _ _ | .writeU32 _ _ => ()
  | .configReadU8 _ => .ok 0#8
  | .configReadU16 off => .ok (if off = pciVendorOff then 0x8086#16 else 0x0006#16)
  | .mmap _ => .ok 0x7f0000000000#64
  | .mlock _ _ => .ok ()
  | .munlock _ _ | .munmap _ _ => ()
  | .pagemap off => .ok (pfnPresent ||| BitVec.ofNat 64 (off / 8 % 0x100000))
  | .verb word => .response
      (if word.extractLsb' 0 20 = 0xf0009#20 then widgetCaps (word.extractLsb' 20 8)
      else 0x10ec0269#32)
  | .polls => 0
  | .logged => false

/-- PIO, without a reset of the link. -/
def DebugOpts.plain : DebugOpts := ⟨true, false, false, false, some .pio⟩

end Audiod.Driver
