import Audiod.Registers

/-!
# Bringing the controller up (`hda/src/controller.rs`, `corb.rs`, `pagemap.rs`, `pcicfg.rs`)

`Controller::open` with what it calls: the configuration file, the link reset, the DMA
page of the command rings and their negotiated size. What is dropped on the way out of a
function that fails is not unmapped here, except where the code does so itself.
-/

namespace Audiod.Driver

open Dialogue

/-! ### The configuration file (`pcicfg.rs`) -/

def tcselOff : ℕ := 0x44
def devcOff : ℕ := 0x78
def devcNosnoopBit : U16 := 0x0800#16
def pciCmdOff : ℕ := 0x04
def pciCmdMemSpace : U16 := 0x0002#16
def pciCmdBusMaster : U16 := 0x0004#16
def pciVendorOff : ℕ := 0x00
def pciDeviceOff : ℕ := 0x02

def vendorDevice : Prog (U16 × U16) := do
  openConfig
  let vendor ← configReadU16 pciVendorOff
  let device ← configReadU16 pciDeviceOff
  pure (vendor, device)

def setSnoop : Prog Unit := do
  openConfig
  let t ← configReadU8 tcselOff
  configWriteU8 tcselOff (t &&& ~~~0x07#8)
  let s ← configReadU16 devcOff
  if s &&& devcNosnoopBit ≠ 0#16 then configWriteU16 devcOff (s &&& ~~~devcNosnoopBit)
  else pure ()

/-- `false`: they were set already. -/
def setMaster : Prog Bool := do
  openConfig
  let cmd ← configReadU16 pciCmdOff
  let enable := pciCmdMemSpace ||| pciCmdBusMaster
  if cmd &&& enable = enable then pure false
  else do
    configWriteU16 pciCmdOff (cmd ||| enable)
    pure true

/-! ### DMA buffers (`pagemap.rs`) -/

def pageSize : ℕ := 4096

def pfnPresent : U64 := 0x8000000000000000#64
def pfnPfnMask : U64 := 0x007fffffffffffff#64
def maxPhys : U64 := 0x0000800000000000#64  -- 128 TiB

/-- `a` is a power of two; the sum wraps as in a release build. -/
def alignUp (v a : ℕ) : ℕ := (v + a - 1) % UInt64.size / a * a

def vaddrToPhys (vaddr : U64) : Prog U64 := do
  let entry ← (.ask (.pagemap ((vaddr >>> 12).toNat * 8)) ofExcept : Prog U64)
  if entry &&& pfnPresent = 0#64 then .fail .notResident else pure ((entry &&& pfnPfnMask) <<< 12)

structure DmaBuffer where
  ptr : U64
  len : ℕ
  phys : List U64
  deriving DecidableEq

namespace DmaBuffer

/-- The address of each page, in order. -/
def resolve (ptr : U64) (pages : ℕ) : Prog (List U64) :=
  (List.range pages).foldlM (fun phys i => do
    let p ← vaddrToPhys (ptr + BitVec.ofNat 64 (i * pageSize))
    pure (phys ++ [p])) []

/-- `munlock`, `munmap` and the error. -/
def giveUp {α : Type} (ptr : U64) (len : ℕ) (e : IoError) : Prog α :=
  .ask (.munlock ptr len) fun _ => .ask (.munmap ptr len) fun _ => .fail e

def new (size : ℕ) : Prog DmaBuffer := do
  let len := alignUp size pageSize
  let ptr ← (.ask (.mmap len) ofExcept : Prog U64)
  match ← (.ask (.mlock ptr len) .done : Prog (Except IoError Unit)) with
  | .error e => .ask (.munmap ptr len) fun _ => .fail e
  | .ok () =>
    match ← (resolve ptr (len / pageSize)).attempt with
    | .error e => giveUp ptr len e
    | .ok phys =>
      match phys.find? (maxPhys ≤ ·) with
      | some bad => giveUp ptr len (.badPhys bad)
      | none => pure ⟨ptr, len, phys⟩

def size (b : DmaBuffer) : ℕ := b.len

/-- Below the length; the code panics above it. -/
def toaddr (b : DmaBuffer) (off : ℕ) : U64 :=
  b.phys.getD (off / pageSize) 0#64 + BitVec.ofNat 64 (off % pageSize)

end DmaBuffer

/-! ### The command rings (`corb.rs`) -/

/-- A live CORB/RIRB pair: its page and the negotiated entry count. -/
structure CorbRing where
  rb : DmaBuffer
  count : ℕ
  deriving DecidableEq

def rirbOff : ℕ := 1024

/-- Capability bit, encoding and entries. -/
structure Choice where
  cap : U8
  enc : U8
  entries : ℕ
  deriving DecidableEq

def choices : List Choice :=
  [⟨0x40#8, 0x02#8, 256⟩, ⟨0x20#8, 0x01#8, 16⟩, ⟨0x10#8, 0x00#8, 2⟩]

/-- The loop of `program_size`. -/
def programFrom (reg : ℕ) (name : String) (caps : U8) : List Choice → Prog ℕ
  | [] => .fail (.noSize name)
  | c :: rest =>
    if caps &&& c.cap = 0#8 then programFrom reg name caps rest
    else do
      writeU8 reg c.enc
      let v ← readU8 reg
      if v &&& 0x03#8 = c.enc then pure c.entries else programFrom reg name caps rest

def programSize (reg : ℕ) (name : String) : Prog ℕ := do
  let caps ← readU8 reg
  programFrom reg name caps choices

def bitSet (off : ℕ) (bit : U16) : Prog Bool := do
  let v ← readU16 off
  pure (v &&& bit != 0#16)

def waitBit (off : ℕ) (bit : U16) : Prog Bool := do
  let n ← polls
  (bitSet off bit).retry n

namespace CorbRing

/-- `init` up to the negotiated size. -/
def prepare : Prog CorbRing := do
  writeU8 corbctl 0#8
  writeU8 rirbctl 0#8
  let rb ← DmaBuffer.new 4096
  let corbPa := rb.toaddr 0
  let rirbPa := rb.toaddr rirbOff
  writeU32 corblbase (corbPa.setWidth 32)
  writeU32 corbubase ((corbPa >>> 32).setWidth 32)
  writeU32 rirblbase (rirbPa.setWidth 32)
  writeU32 rirbubase ((rirbPa >>> 32).setWidth 32)
  let count ← programSize corbsize "CORB"
  let rirbCount ← programSize rirbsize "RIRB"
  if rirbCount ≠ count then .fail (.sizesDiffer count rirbCount) else pure ⟨rb, count⟩

/-- The rest. -/
def launch (ring : CorbRing) : Prog CorbRing := do
  writeU16 corbwp 0#16
  writeU16 corbrp corbrpRst
  -- a reset bit that does not latch is a warning
  let _ ← waitBit corbrp corbrpRst
  writeU16 corbrp 0#16
  writeU16 rirbwp rirbwpRst
  writeU16 rintcnt 1#16
  writeU8 rirbctl (rirbctlDmaEn ||| rirbctlIrqEn)
  writeU8 corbctl corbctlRun
  pure ring

def init : Prog CorbRing := do
  let ring ← prepare
  launch ring

end CorbRing

/-! ### The controller (`controller.rs`) -/

inductive CmdEngineKind
  | corb
  | pio
  deriving DecidableEq

/-- `DebugOpts`, without `dump_ring`, which only logs. -/
structure DebugOpts where
  skipReset : Bool
  skipCodecInit : Bool
  dumpState : Bool
  dumpTopology : Bool
  cmdEngine : Option CmdEngineKind

/-- `engine` is `none` for PIO. -/
structure Controller where
  codecMask : U16
  gcap : U16
  cad : U32
  engine : Option CorbRing
  deriving DecidableEq

namespace Controller

def captureStreams (c : Controller) : ℕ := ((c.gcap >>> 8) &&& 0x0f#16).toNat

def sdIndex (c : Controller) : ℕ := c.captureStreams

def sd0Base (c : Controller) : ℕ := sdStreamBase + sdStreamStride * c.sdIndex

def sd0Tag (c : Controller) : U32 := BitVec.ofNat 32 c.sdIndex + 1#32

/-- The RESET bit of GCTL is as wanted. -/
def resetIs (on : Bool) : Prog Bool := do
  let g ← readU32 gctl
  pure ((g &&& gctlReset != 0#32) == on)

/-- Polls for it. -/
def waitReset (on : Bool) (e : IoError) : Prog Unit := do
  let n ← polls
  let ok ← (resetIs on).retry n
  if ok then pure () else .fail e

def resetLink (c : Controller) : Prog Controller := do
  let g ← readU32 gctl
  if g &&& gctlReset ≠ 0#32 then writeU16 statests statestsIntMask else pure ()
  let g ← readU32 gctl
  writeU32 gctl (g &&& ~~~gctlReset)
  waitReset false .linkResetAssert
  let g ← readU32 gctl
  writeU32 gctl (g ||| gctlReset)
  waitReset true .linkResetRelease
  let mask ← readU16 statests
  pure { c with codecMask := mask }

/-- Without a reset: the immediate command registers made ready. -/
def clearBusy : ℕ → Prog Unit
  | 0 => do
    let v ← readU16 irs
    if v &&& irsBusy = 0#16 then pure () else .fail .icStuckBusy
  | spins + 1 => do
    let v ← readU16 irs
    if v &&& irsBusy = 0#16 then pure ()
    else do
      writeU16 irs irsValid
      clearBusy spins

def initCmdEngine (opts : DebugOpts) (c : Controller) : Prog Controller :=
  match opts.cmdEngine with
  | some .pio => pure c
  | some .corb | none => do
    match ← CorbRing.init.attempt with
    | .ok ring => pure { c with engine := some ring }
    | .error _ => pure c

/-- `Controller::open` once it has a device that looks like one. -/
def start (opts : DebugOpts) (gcap : U16) : Prog Controller := do
  let c : Controller := ⟨0#16, gcap, 0#32, none⟩
  let c ←
    if opts.skipReset then do
      clearBusy 50
      pure { c with codecMask := 0x1#16 }
    else do
      let c ← resetLink c
      let mask ← readU16 statests
      pure { c with codecMask := mask }
  writeU32 intsts (intCtrlEn ||| intAllStream)
  initCmdEngine opts c

def «open» (opts : DebugOpts) : Prog Controller := do
  withContext "map BAR0" (.ask .mapBar ofExcept)
  let ids ← unwrapOr vendorDevice (0#16, 0#16)
  if ids.1 = 0#16 then .fail .noVendor
  else do
    withContext "pci snoop config" setSnoop
    let _ ← withContext "pci bus master" setMaster
    let gcap ← readU16 gcapReg
    if gcap &&& gcapStreams = 0#16 then .fail (.notController gcap) else start opts gcap

end Controller

/-! ### What each of them asks -/

theorem vendorDevice_asks : vendorDevice.Asks Op.Config := by
  simp [vendorDevice, openConfig, configReadU16, Op.Config]

theorem setSnoop_asks : setSnoop.Asks Op.Config := by
  simp [setSnoop, openConfig, configReadU8, configReadU16, configWriteU8, configWriteU16,
    Op.Config]

theorem setMaster_asks : setMaster.Asks Op.Config := by
  simp [setMaster, openConfig, configReadU16, configWriteU16, Op.Config]

namespace DmaBuffer

theorem resolve_asks (ptr : U64) (pages : ℕ) : (resolve ptr pages).Asks Op.Paging := by
  refine Asks.foldlM fun phys i _ => ?_
  simp [vaddrToPhys, Op.Paging]

theorem giveUp_asks {α : Type} (ptr : U64) (len : ℕ) (e : IoError) :
    (giveUp ptr len e : Prog α).Asks Op.Paging := by
  simp [giveUp, Op.Paging]

theorem new_asks (size : ℕ) : (new size).Asks Op.Paging := by
  unfold new
  refine asks_bind.mpr ⟨?_, fun ptr _ => asks_bind.mpr ⟨?_, fun r _ => ?_⟩⟩
  · simp [Op.Paging]
  · simp [Op.Paging]
  · cases r with
    | error e => simp [Op.Paging]
    | ok u =>
      refine asks_bind.mpr ⟨asks_attempt.mpr (resolve_asks _ _), fun r _ => ?_⟩
      cases r with
      | error e => exact giveUp_asks _ _ _
      | ok phys =>
        dsimp only
        split
        · exact giveUp_asks _ _ _
        · trivial

end DmaBuffer

theorem programSize_asks {reg : ℕ} (hreg : reg + 1 ≤ sdStreamBase) (name : String) :
    (programSize reg name).Asks Op.Global := by
  have hfrom : ∀ caps cs, (programFrom reg name caps cs).Asks Op.Global := by
    intro caps cs
    induction cs with
    | nil => trivial
    | cons c cs ih => simp [programFrom, ih, hreg]
  simp [programSize, hreg, hfrom]

theorem waitBit_asks {off : ℕ} (hoff : off % 2 = 0 ∧ off + 2 ≤ sdStreamBase) (bit : U16) :
    (waitBit off bit).Asks Op.Global := by
  have hset : (bitSet off bit).Asks Op.Global := by simp [bitSet, hoff]
  simp [waitBit, hset.retry]

theorem corbsize_lt : corbsize + 1 ≤ sdStreamBase := by decide

theorem rirbsize_lt : rirbsize + 1 ≤ sdStreamBase := by decide

theorem corbrp_even : corbrp % 2 = 0 ∧ corbrp + 2 ≤ sdStreamBase := by decide

theorem control_of_paging {α : Type} {p : Prog α} (hp : p.Asks Op.Paging) : p.Asks Op.Control :=
  hp.mono fun _ => .inl

theorem control_of_global {α : Type} {p : Prog α} (hp : p.Asks Op.Global) : p.Asks Op.Control :=
  hp.mono fun _ => .inr

theorem corbRing_init_asks : CorbRing.init.Asks Op.Control := by
  have hnew := control_of_paging (DmaBuffer.new_asks 4096)
  have hcorb := control_of_global (programSize_asks corbsize_lt "CORB")
  have hrirb := control_of_global (programSize_asks rirbsize_lt "RIRB")
  have hwait := control_of_global (waitBit_asks corbrp_even corbrpRst)
  simp [CorbRing.init, CorbRing.prepare, CorbRing.launch, hnew, hcorb, hrirb, hwait]
  simp [Op.Control, corbctl, rirbctl, corblbase, corbubase, rirblbase, rirbubase, corbwp, corbrp,
    rirbwp, rintcnt, sdStreamBase]

namespace Controller

theorem waitReset_asks (on : Bool) (e : IoError) : (waitReset on e).Asks Op.Global := by
  have hset : (resetIs on).Asks Op.Global := by simp [resetIs, gctl, sdStreamBase]
  simp [waitReset, hset.retry]

theorem resetLink_asks (c : Controller) : (resetLink c).Asks Op.Global := by
  simp [resetLink, waitReset_asks, gctl, statests, sdStreamBase]

theorem clearBusy_asks (spins : ℕ) : (clearBusy spins).Asks Op.Global := by
  induction spins with
  | zero => simp [clearBusy, irs, sdStreamBase]
  | succ spins ih => simp [clearBusy, ih, irs, sdStreamBase]

theorem initCmdEngine_asks (opts : DebugOpts) (c : Controller) :
    (initCmdEngine opts c).Asks Op.Control := by
  have hring : (CorbRing.init.attempt >>= fun r =>
      match r with
      | .ok ring => pure { c with engine := some ring }
      | .error _ => pure c : Prog Controller).Asks Op.Control := by
    refine asks_bind.mpr ⟨asks_attempt.mpr corbRing_init_asks, fun r _ => ?_⟩
    cases r <;> trivial
  unfold initCmdEngine
  split
  · trivial
  · exact hring
  · exact hring

theorem start_asks (opts : DebugOpts) (gcap : U16) : (start opts gcap).Asks Op.Control := by
  have hbusy := control_of_global (clearBusy_asks 50)
  have hreset := fun c => control_of_global (resetLink_asks c)
  have hread : (Op.readU16 statests).Control := .inr (by simp; decide)
  have hwrite : ∀ v, (Op.writeU32 intsts v).Control := fun v => .inr (by simp; decide)
  simp [start, hbusy, hreset, hread, hwrite, initCmdEngine_asks]

end Controller

end Audiod.Driver
