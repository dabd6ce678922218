import Audiod.DmaPages
import Audiod.Footprint
import Mathlib.Tactic.IntervalCases

/-!
# The registers of the stream, over a session (`hda/src/stream.rs:93-190`, `lib.rs:97-115`)

A stream block holds what was last written to it, until SRST or the link reset clears it.
In a session the engine only ever runs on a block that has the ring, the descriptor list,
the format and the tag of the session, and `running` says whether it runs. Where it was found
running, it does so on the block it was found with until `open` resets the stream.
-/

namespace Audiod.Driver

open Dialogue

structure Block where
  ctl : U32
  cbl : U32
  lvi : U16
  format : U16
  bdlpl : U32
  bdlpu : U32
  deriving DecidableEq

namespace Block

def clear : Block := ⟨0#32, 0#32, 0#16, 0#16, 0#32, 0#32⟩

/-- The engine reads the ring. -/
def run (b : Block) : Bool := b.ctl[1]

def tag (b : Block) : BitVec 4 := b.ctl.extractLsb' 20 4

def bdl (b : Block) : U64 := b.bdlpu ++ b.bdlpl

/-- SRST clears the block. -/
def writeCtl (b : Block) (v : U32) : Block :=
  if v[0] then { clear with ctl := streamReset } else { b with ctl := v }

theorem writeCtl_of {b : Block} {v : U32} (h : v[0] = false) :
    b.writeCtl v = { b with ctl := v } := if_neg (by simp [h])

/-- A byte write to SD_CTL keeps the other bytes; the link reset clears all streams. -/
def next (base : ℕ) (b : Block) : (o : Op) → o.Ans → Block
  | .writeU8 off v, _ =>
    if off = base + sdCtl then b.writeCtl (b.ctl &&& 0xffffff00#32 ||| v.setWidth 32)
    else b
  | .writeU16 off v, _ =>
    if off = base + sdLvi then { b with lvi := v }
    else if off = base + sdFormat then { b with format := v }
    else b
  | .writeU32 off v, _ =>
    if off = base + sdCtl then b.writeCtl v
    else if off = base + sdCbl then { b with cbl := v }
    else if off = base + sdBdlpl then { b with bdlpl := v }
    else if off = base + sdBdlpu then { b with bdlpu := v }
    else if off = gctl ∧ v &&& gctlReset = 0#32 then clear
    else b
  | _, _ => b

/-- Out of reset and programmed. -/
def Settled (b : Block) : Prop := b.ctl ≠ 0#32 ∧ b.ctl[0] = false

/-- SD_CTL reads as it was written, without the status byte; not while the stream resets,
and not before it is programmed. -/
def Reads (base : ℕ) (b : Block) : (o : Op) → o.Ans → Prop
  | .readU8 off, v => off = base + sdCtl → b.Settled → v = b.ctl.extractLsb' 0 8
  | .readU32 off, v =>
    off = base + sdCtl → b.Settled → v.extractLsb' 0 24 = b.ctl.extractLsb' 0 24
  | _, _ => True

/-- `b₀` is the block as the session finds it. -/
def after (base : ℕ) (b₀ : Block) (h : History) : Block :=
  h.foldl (fun b e => b.next base e.1 e.2) b₀

/-- Programmed for the session. -/
structure Programmed (c : Controller) (s : Stream) (rate : ℕ) (b : Block) : Prop where
  tag : b.tag = c.sd0Tag.extractLsb' 0 4
  cbl : b.cbl = BitVec.ofNat 32 ringSize
  lvi : b.lvi = BitVec.ofNat 16 (Dma.ringPages - 1)
  format : b.format = formatVal rate
  bdl : b.bdl = s.bdl.toaddr 0

end Block

/-- Follows a block, and asks for `want` while it runs. -/
def streamAt (base : ℕ) (want : Block → Prop) : Monitor Op.Ans Block :=
  Monitor.always (fun b => b.run = true → want b) (Block.Reads base) (Block.next base)

/-! ### What leaves the block as it is -/

def Op.Still (base : ℕ) (o : Op) : Prop := ∀ b x, Block.next base b o x = b

section

variable {base off : ℕ}

@[simp] theorem still_readU8 : (Op.readU8 off).Still base := fun _ _ => rfl

@[simp] theorem still_readU32 : (Op.readU32 off).Still base := fun _ _ => rfl

@[simp] theorem still_logged : Op.logged.Still base := fun _ _ => rfl

theorem Op.IsVerb.still {o : Op} (h : o.IsVerb) : o.Still base := by
  cases o with
  | verb word => exact fun _ _ => rfl
  | _ => exact h.elim

end

theorem still_intctl (c : Controller) (v : U32) : (Op.writeU32 intctl v).Still c.sd0Base := by
  have hne : ∀ k, intctl ≠ c.sd0Base + k := fun k => by
    simp only [intctl, Controller.sd0Base, sdStreamBase]
    omega
  have hgctl : ¬ (intctl = gctl) := by decide
  intro b x
  simp [Block.next, hne, hgctl]

theorem still_sts (c : Controller) (v : U8) :
    (Op.writeU8 (c.sd0Base + sdSts) v).Still c.sd0Base := by
  intro b x
  simp [Block.next, sdSts, sdCtl]

section

variable {c : Controller} {want : Block → Prop} {b : Block}

theorem ensures_still {p : Prog α} (hp : p.Asks (Op.Still c.sd0Base))
    (hb : b.run = true → want b) :
    Ensures (streamAt c.sd0Base want) p b fun _ b' => b' = b := by
  refine hp.ensures (m := streamAt c.sd0Base want) (I := fun b' => b' = b) ?_ ?_ rfl
  · rintro b' o - rfl
    exact hb
  · rintro b' o x ho rfl -
    exact ho b' x

theorem writeU32_ensures (off : ℕ) (v : U32) (hb : b.run = true → want b) :
    Ensures (streamAt c.sd0Base want) (writeU32 off v) b
      (OnOk fun _ b' => b' = b.next c.sd0Base (.writeU32 off v) ()) :=
  ⟨hb, fun _ _ => onOk_ok.mpr rfl⟩

theorem writeU16_ensures (off : ℕ) (v : U16) (hb : b.run = true → want b) :
    Ensures (streamAt c.sd0Base want) (writeU16 off v) b
      (OnOk fun _ b' => b' = b.next c.sd0Base (.writeU16 off v) ()) :=
  ⟨hb, fun _ _ => onOk_ok.mpr rfl⟩

theorem writeU8_ensures (off : ℕ) (v : U8) (hb : b.run = true → want b) :
    Ensures (streamAt c.sd0Base want) (writeU8 off v) b
      (OnOk fun _ b' => b' = b.next c.sd0Base (.writeU8 off v) ()) :=
  ⟨hb, fun _ _ => onOk_ok.mpr rfl⟩

theorem next_ctl (v : U32) : b.next c.sd0Base (.writeU32 (c.sd0Base + sdCtl) v) () = b.writeCtl v :=
  if_pos rfl

theorem next_cbl (v : U32) :
    b.next c.sd0Base (.writeU32 (c.sd0Base + sdCbl) v) () = { b with cbl := v } := by
  simp [Block.next, sdCtl, sdCbl]

theorem next_format (v : U16) :
    b.next c.sd0Base (.writeU16 (c.sd0Base + sdFormat) v) () = { b with format := v } := by
  simp [Block.next, sdLvi, sdFormat]

theorem next_lvi (v : U16) :
    b.next c.sd0Base (.writeU16 (c.sd0Base + sdLvi) v) () = { b with lvi := v } := by
  simp [Block.next]

theorem next_bdlpl (v : U32) :
    b.next c.sd0Base (.writeU32 (c.sd0Base + sdBdlpl) v) () = { b with bdlpl := v } := by
  simp [Block.next, sdCtl, sdCbl, sdBdlpl]

theorem next_bdlpu (v : U32) :
    b.next c.sd0Base (.writeU32 (c.sd0Base + sdBdlpu) v) () = { b with bdlpu := v } := by
  simp [Block.next, sdCtl, sdCbl, sdBdlpl, sdBdlpu]

/-! ### The operations of the stream -/

namespace Stream

theorem srstIs_still (on : Bool) (n : ℕ) : ((srstIs c on).retry n).Asks (Op.Still c.sd0Base) :=
  Asks.retry (by simp [srstIs]) n

theorem srst_ensures (hb : b.run = true → want b) :
    Ensures (streamAt c.sd0Base want) (srst c) b (OnOk fun _ b' => b' = Block.clear) := by
  refine (writeU32_ensures _ _ hb).seqOk fun _ b' hb' => ?_
  have hreset : b' = { Block.clear with ctl := streamReset } := hb'.trans (next_ctl _)
  subst hreset
  refine (ensures_still (srstIs_still true 99) (by simp [Block.run, streamReset])).onOk.seqOk
    fun _ b' hb' => ?_
  subst hb'
  refine (writeU32_ensures _ _ (by simp [Block.run, streamReset])).seqOk fun _ b' hb' => ?_
  have hclear : b' = Block.clear := hb'.trans (next_ctl _)
  subst hclear
  refine (ensures_still (srstIs_still false 99) (by simp [Block.run, Block.clear])).onOk.seqOk
    fun _ b' hb' => ?_
  exact onOk_ok.mpr hb'

/-- The control words `setup` writes, without and with interrupts. -/
def tagCtl (c : Controller) : U32 := (c.sd0Tag <<< streamTagShift) &&& streamTagMask

def setupBlock (s : Stream) (c : Controller) (rate : ℕ) : Block where
  ctl := tagCtl c ||| intMask
  cbl := BitVec.ofNat 32 ringSize
  lvi := BitVec.ofNat 16 (s.fillEntries Dma.ringPages - 1)
  format := formatVal rate
  bdlpl := (s.bdl.toaddr 0).setWidth 32
  bdlpu := (s.bdl.toaddr 0 >>> 32).setWidth 32

theorem tagCtl_bits (c : Controller) : (tagCtl c)[0] = false ∧ (tagCtl c)[1] = false := by
  simp [tagCtl, streamTagMask]

theorem setupBlock_stopped (s : Stream) (c : Controller) (rate : ℕ) :
    (s.setupBlock c rate).run = false := by
  simp [Block.run, setupBlock, (tagCtl_bits c).2, intMask]

theorem tagCtl_ne (c : Controller) : tagCtl c ||| intMask ≠ 0#32 := by
  intro h
  have hbit := congrArg (·.getLsbD 2) h
  simp [intMask] at hbit

theorem setup_ensures (s : Stream) (rate : ℕ) :
    Ensures (streamAt c.sd0Base want) (s.setup c rate) Block.clear
      (OnOk fun s' b' => s' = { s with entries := s.fillEntries Dma.ringPages } ∧
        b' = s.setupBlock c rate) := by
  obtain ⟨hreset, hstopped⟩ := tagCtl_bits c
  have hquiet : ∀ b : Block, b.ctl = tagCtl c → b.run = true → want b := by
    intro b hb hrun
    rw [Block.run, hb, hstopped] at hrun
    cases hrun
  refine (writeU32_ensures _ _ (by simp [Block.run, Block.clear])).seqOk fun _ b' hb' => ?_
  obtain rfl : b' = { Block.clear with ctl := tagCtl c } := (hb'.trans (next_ctl _)).trans
    (Block.writeCtl_of hreset)
  refine (writeU32_ensures _ _ (hquiet _ rfl)).seqOk fun _ b' hb' => ?_
  obtain rfl := hb'.trans (next_cbl _)
  refine (writeU16_ensures _ _ (hquiet _ rfl)).seqOk fun _ b' hb' => ?_
  obtain rfl := hb'.trans (next_format _)
  refine (writeU16_ensures _ _ (hquiet _ rfl)).seqOk fun _ b' hb' => ?_
  obtain rfl := hb'.trans (next_lvi _)
  refine (writeU32_ensures _ _ (hquiet _ rfl)).seqOk fun _ b' hb' => ?_
  obtain rfl := hb'.trans (next_bdlpl _)
  refine (writeU32_ensures _ _ (hquiet _ rfl)).seqOk fun _ b' hb' => ?_
  obtain rfl := hb'.trans (next_bdlpu _)
  refine (writeU32_ensures _ _ (hquiet _ rfl)).seqOk fun _ b' hb' => ?_
  obtain rfl := hb'.trans (next_ctl _)
  refine onOk_ok.mpr ⟨rfl, ?_⟩
  exact Block.writeCtl_of (v := tagCtl c ||| intMask) (by simp [hreset, intMask])

/- The two control words of `start`, from what SD_CTL reads. -/
theorem intCtl_bits {v w : U32} (hv : v.extractLsb' 0 24 = w.extractLsb' 0 24) (hw : w[0] = false) :
    (v ||| intMask)[0] = false ∧ (v ||| intMask).extractLsb' 20 4 = w.extractLsb' 20 4 := by
  have hbit : ∀ i < 24, v.getLsbD i = w.getLsbD i := by
    intro i hi
    have h := congrArg (·.getLsbD i) hv
    simpa [hi] using h
  refine ⟨by simpa [intMask, hw] using hbit 0 (by decide), BitVec.eq_of_getLsbD_eq fun i hi => ?_⟩
  have hmask : intMask.getLsbD (20 + i) = false := by
    interval_cases i <;> rfl
  simp [hi, hmask, hbit (20 + i) (by omega)]

/-- The second is written as a byte. -/
def runCtl (x : U32) (low : U8) : U32 :=
  x &&& 0xffffff00#32 ||| (low ||| dmaStart.setWidth 8).setWidth 32

theorem runCtl_bits {x : U32} {low : U8} (hlow : low = x.extractLsb' 0 8) (hx : x[0] = false) :
    (runCtl x low)[0] = false ∧ (runCtl x low)[1] = true ∧
      (runCtl x low).extractLsb' 20 4 = x.extractLsb' 20 4 := by
  subst hlow
  refine ⟨by simp [runCtl, dmaStart, hx], by simp [runCtl, dmaStart],
    BitVec.eq_of_getLsbD_eq fun i hi => ?_⟩
  interval_cases i <;> simp [runCtl]

theorem start_ensures (hb : b.ctl = tagCtl c ||| intMask)
    (hwant : ∀ ctl : U32, ctl.extractLsb' 20 4 = b.tag → want { b with ctl := ctl }) :
    Ensures (streamAt c.sd0Base want) (start c) b
      (OnOk fun _ b' => b'.run = true ∧ want b') := by
  obtain ⟨hreset, hstopped⟩ := tagCtl_bits c
  have hb0 : b.ctl[0] = false := by simp [hb, hreset, intMask]
  have hwant' : b.run = true → want b := fun _ => hwant b.ctl rfl
  refine (ensures_still (p := readU32 intctl) (by simp) hwant').onOk.seqOk fun int b' hb' => ?_
  obtain rfl := hb'.symm
  have hint : (writeU32 intctl (int ||| 1#32 <<< c.sdIndex)).Asks (Op.Still c.sd0Base) := by
    simp [still_intctl]
  refine (ensures_still hint hwant').onOk.seqOk fun _ b' hb' => ?_
  obtain rfl := hb'.symm
  have hsettled : b.Settled := ⟨by rw [hb]; exact tagCtl_ne c, hb0⟩
  refine Ensures.seqOk (P := fun v b' => b' = b ∧ v.extractLsb' 0 24 = b.ctl.extractLsb' 0 24)
    ⟨hwant', fun v hv => onOk_ok.mpr ⟨rfl, hv rfl hsettled⟩⟩ fun v b' hv => ?_
  obtain ⟨heq, hv⟩ := hv
  obtain rfl := heq.symm
  obtain ⟨hx0, htag⟩ := intCtl_bits hv hb0
  refine (writeU32_ensures _ _ hwant').seqOk fun _ b' hb' => ?_
  obtain rfl := (hb'.trans (next_ctl _)).trans (Block.writeCtl_of hx0)
  have hstill : ({ b with ctl := v ||| intMask } : Block).run = true →
      want { b with ctl := v ||| intMask } := fun _ => hwant _ htag
  have hnext : (v ||| intMask) ≠ 0#32 := by
    intro h
    have hbit := congrArg (·.getLsbD 2) h
    simp [intMask] at hbit
  refine Ensures.seqOk (P := fun low b' =>
      b' = { b with ctl := v ||| intMask } ∧ low = (v ||| intMask).extractLsb' 0 8)
    ⟨hstill, fun low hl => onOk_ok.mpr ⟨rfl, hl rfl ⟨hnext, hx0⟩⟩⟩ fun low b' hl => ?_
  obtain ⟨rfl, hlow⟩ := hl
  obtain ⟨hy0, hy1, hytag⟩ := runCtl_bits hlow hx0
  refine (writeU8_ensures _ _ hstill).seqOk fun _ b' hb' => ?_
  have hlast : b' = { b with ctl := runCtl (v ||| intMask) low } :=
    (hb'.trans (if_pos rfl)).trans (Block.writeCtl_of hy0)
  subst hlast
  have hwanted := hwant _ (hytag.trans htag)
  have hline := ensures_still (c := c) (p := startLine c) (by simp [startLine, asks_forLog])
    fun _ => hwanted
  exact hline.mono fun r b'' heq a ha => by
    rw [heq]
    exact ⟨hy1, hwanted⟩

theorem stop_ensures (hb : b.run = true → want b) :
    Ensures (streamAt c.sd0Base want) (stop c) b (OnOk fun _ b' => b'.run = false) := by
  have hrest : ∀ b' : Block, b'.run = false → Ensures (streamAt c.sd0Base want) (do
      writeU8 (c.sd0Base + sdSts) (intMask.setWidth 8)
      let int ← readU32 intctl
      writeU32 intctl (int &&& ~~~(1#32 <<< c.sdIndex))) b'
        (OnOk fun _ b'' => b''.run = false) := by
    intro b' hb'
    refine (ensures_still ?_ (by simp [hb'])).mono fun r b'' heq a ha => heq ▸ hb'
    simp [still_sts, still_intctl]
  refine (ensures_still (p := readU32 _) (by simp) hb).onOk.seqOk fun v b' hb' => ?_
  obtain rfl := hb'.symm
  refine (writeU32_ensures _ _ hb).seqOk fun _ b' hb' => hrest b' ?_
  rw [hb', next_ctl, Block.writeCtl]
  split
  · simp [Block.run, streamReset]
  · simp [Block.run, dmaStart, intMask]

/-! ### What `setup` programs -/

theorem setup_tag (c : Controller) :
    (tagCtl c ||| intMask).extractLsb' 20 4 = c.sd0Tag.extractLsb' 0 4 := by
  apply BitVec.eq_of_getLsbD_eq
  intro i hi
  interval_cases i <;> simp [tagCtl, streamTagShift, streamTagMask, intMask]

end Stream

end

/-- The two buffers of a stream, as `DmaBuffer::new` made them. -/
structure Stream.Backed (s : Stream) : Prop where
  ring : s.ring.Resolved ringSize
  bdl : s.bdl.Resolved (max (Dma.ringPages * Dma.entrySize) pageSize)

theorem Stream.Backed.entries {s : Stream} (h : s.Backed) : s.fillEntries Dma.ringPages = 64 := by
  simp [fillEntries, DmaBuffer.size, h.ring.len, h.bdl.len, alignUp, ringSize, Dma.ringPages,
    Dma.entrySize, pageSize, UInt64.size]

theorem Stream.Backed.programmed {s : Stream} (h : s.Backed) (c : Controller) (rate : ℕ) :
    (s.setupBlock c rate).Programmed c s rate where
  tag := setup_tag c
  cbl := rfl
  lvi := by
    simp only [setupBlock, h.entries]
    rfl
  format := rfl
  bdl := words_append _

/-! ### The engine under these registers -/

/-- Where the engine reads. -/
def Block.registers (b : Block) : Dma.Registers :=
  ⟨b.cbl.toNat, b.lvi.toNat, b.bdlpl.toNat, b.bdlpu.toNat⟩

/-- The stream over physical memory, where its pages are all different ones. -/
def Stream.Backed.dma {s : Stream} (h : s.Backed) (hdiffer : (s.bdl.phys ++ s.ring.phys).Nodup) :
    Dma.Stream where
  ring := h.ring.pinned (List.nodup_append.mp hdiffer).2.1
  bdl := h.bdl.pinned (List.nodup_append.mp hdiffer).1
  ring_size := by
    rw [h.ring.pinned_size, DmaBuffer.size, h.ring.len]
    decide
  bdl_size := by
    rw [h.bdl.pinned_size, DmaBuffer.size, h.bdl.len]
    decide
  apart := by
    intro p hp hq
    obtain ⟨a, ha, rfl⟩ := List.mem_map.mp hp
    obtain ⟨b, hb, heq⟩ := List.mem_map.mp hq
    exact (List.nodup_append.mp hdiffer).2.2 a ha b hb (BitVec.eq_of_toNat_eq heq.symm)

/-- The program of a session is what the engine has to be told. -/
theorem Block.Programmed.registers {b : Block} {c : Controller} {s : Stream} {rate : ℕ}
    (hb : b.Programmed c s rate) (h : s.Backed) (hdiffer : (s.bdl.phys ++ s.ring.phys).Nodup) :
    (h.dma hdiffer).Programmed b.registers := by
  have hsize : s.bdl.size = Dma.pageSize := by
    rw [DmaBuffer.size, h.bdl.len]
    decide
  have hpos : 0 < s.bdl.size := by
    rw [hsize]
    exact Dma.pageSize_pos
  have hzero : 0 < (h.dma hdiffer).bdl.size := by
    rw [(h.dma hdiffer).bdl_size]
    exact Dma.pageSize_pos
  refine ⟨?_, ?_, ?_⟩
  · have hcell := (Dma.toaddr_eq hzero).symm.trans
      (h.bdl.pinned_toaddr (List.nodup_append.mp hdiffer).1 hpos)
    have hwords : b.bdl.toNat = b.bdlpu.toNat * 2 ^ 32 + b.bdlpl.toNat := by
      rw [Block.bdl, BitVec.toNat_append, ← Nat.shiftLeft_add_eq_or_of_lt b.bdlpl.isLt,
        Nat.shiftLeft_eq]
    rw [Option.some.inj hcell, ← hb.bdl, hwords, Block.registers]
    dsimp only
    omega
  · change b.lvi.toNat + 1 = Dma.ringPages
    rw [hb.lvi]
    decide
  · change b.cbl.toNat = ringSize
    rw [hb.cbl]
    decide

/-! ### Over a session -/

namespace HdaPlayback

/-- A later state of the session and the block it plays from. -/
structure Tracks (first pb : HdaPlayback) (b : Block) : Prop where
  same : Same first pb
  running : b.run = pb.running
  programmed : b.run = true → b.Programmed first.controller first.stream first.rate

/-- Follows the block of a session. -/
def streamOf (first : HdaPlayback) : Monitor Op.Ans Block :=
  streamAt first.controller.sd0Base (Block.Programmed first.controller first.stream first.rate)

variable {first pb : HdaPlayback} {b : Block}

theorem Tracks.setup (h : Tracks first pb b) (hbacked : first.stream.Backed) {ctl : U32}
    (hctl : ctl.extractLsb' 20 4 = (pb.stream.setupBlock first.controller pb.rate).tag) :
    ({ pb.stream.setupBlock first.controller pb.rate with ctl := ctl } : Block).Programmed
      first.controller first.stream first.rate := by
  have hpb : pb.stream.Backed :=
    ⟨by rw [h.same.ring]; exact hbacked.ring, by rw [h.same.bdl]; exact hbacked.bdl⟩
  obtain ⟨htag, hcbl, hlvi, hformat, hbdl⟩ := hpb.programmed first.controller pb.rate
  refine ⟨hctl.trans htag, hcbl, hlvi, hformat.trans (by rw [h.same.rate]), hbdl.trans ?_⟩
  rw [h.same.bdl]

theorem start_tracks (h : Tracks first pb b) (hbacked : first.stream.Backed) :
    Ensures (streamOf first) (start pb) b
      (OnOk fun pb' b' => Tracks first pb' b' ∧ pb'.running = true) := by
  cases hr : pb.running with
  | true =>
    simp only [start, hr, if_true]
    exact onOk_ok.mpr ⟨h, hr⟩
  | false =>
    simp only [start, hr, Bool.false_eq_true, if_false, h.same.controller]
    refine (Stream.srst_ensures h.programmed).seqOk fun _ b' hb' => ?_
    subst hb'
    refine (Stream.setup_ensures pb.stream pb.rate).seqOk fun s b' hb' => ?_
    obtain ⟨rfl, rfl⟩ := hb'
    refine (Stream.start_ensures rfl fun ctl hctl => h.setup hbacked hctl).seqOk fun _ b' hb' => ?_
    refine onOk_ok.mpr ⟨⟨?_, hb'.1, fun _ => hb'.2⟩, rfl⟩
    exact ⟨rfl, h.same.ring, h.same.bdl, h.same.fmt, h.same.rate⟩

theorem Tracks.still {p : Prog α} (h : Tracks first pb b)
    (hp : p.Asks (Op.Still first.controller.sd0Base)) :
    Ensures (streamOf first) p b fun _ b' => Tracks first pb b' :=
  (ensures_still hp h.programmed).mono fun _ _ heq => heq ▸ h

theorem play_tracks (h : Tracks first pb b) (hbacked : first.stream.Backed) (len : ℕ) :
    Ensures (streamOf first) (pb.play len) b (OnOk fun pb' b' => Tracks first pb' b') := by
  refine (start_tracks h hbacked).seqOk fun started b hs => ?_
  have hwrite := (hs.1.still (p := started.stream.write started.controller len)
    (by simp [Stream.write, Stream.lpib])).yields
  refine Ensures.seqOk (P := fun w b => Tracks first started b ∧
    ∃ pos, w.1 = { started.stream with writePos := pos }) (hwrite.mono ?_) fun w b hw => ?_
  · exact fun r b hr w heq => ⟨hr.1, write_yields (hr.2 w heq)⟩
  · obtain ⟨ht, pos, hpos⟩ := hw
    have hline : (w.1.ringLine started.controller).Asks (Op.Still first.controller.sd0Base) := by
      simp [Stream.ringLine, asks_forLog, Stream.lpib, Stream.delayBytes, Stream.freeBytes,
        Stream.status]
    have hlast : ∀ b, Tracks first started b → Tracks first { started with
        stream := w.1, bytesWritten := started.bytesWritten + BitVec.ofNat 64 w.2 } b := by
      intro b hb
      rw [hpos]
      exact ⟨⟨hb.same.controller, hb.same.ring, hb.same.bdl, hb.same.fmt, hb.same.rate⟩,
        hb.running, hb.programmed⟩
    dsimp only
    split
    · exact (ht.still hline).onOk.seqOk fun _ b hb => onOk_ok.mpr (hlast b hb)
    · exact onOk_ok.mpr (hlast b ht)

theorem call_tracks (h : Tracks first pb b) (hbacked : first.stream.Backed) (k : Call) :
    Ensures (streamOf first) (call pb k) b (OnOk fun pb' b' => Tracks first pb' b') := by
  have hlast : ∀ b pb', Same first pb' → b.run = pb'.running → b.run = false →
      Tracks first pb' b := fun b pb' hs hr hf => ⟨hs, hr, fun ht => by rw [hf] at ht; cases ht⟩
  cases k with
  | play len => exact play_tracks h hbacked len
  | delayFrames =>
    have hp : (pb.stream.delayBytes pb.controller).Asks (Op.Still first.controller.sd0Base) := by
      simp [Stream.delayBytes, Stream.lpib]
    exact (h.still hp).onOk.seqOk fun _ b hb => onOk_ok.mpr hb
  | setMute mute =>
    have hp : (Codec.setMute pb.controller mute).attempt.Asks
        (Op.Still first.controller.sd0Base) :=
      asks_attempt.mpr ((Codec.setMute_asks mute).mono fun _ ho => ho.isVerb.still)
    exact (h.still hp).onOk.seqOk fun _ b hb => onOk_ok.mpr hb
  | outputPath =>
    have hp : (Codec.outputPath pb.controller).Asks (Op.Still first.controller.sd0Base) :=
      (Codec.outputPath_asks pb.controller).mono fun _ ho => ho.isVerb.still
    exact (h.still hp).onOk.seqOk fun _ b hb => onOk_ok.mpr hb
  | stopImmediate =>
    simp only [call, dropAll, h.same.controller]
    refine (Stream.stop_ensures h.programmed).seqOk fun _ b hb => ?_
    refine (Stream.srst_ensures (by simp [hb])).seqOk fun _ b hb => ?_
    subst hb
    exact onOk_ok.mpr
      (hlast _ _ ⟨rfl, h.same.ring, h.same.bdl, h.same.fmt, h.same.rate⟩ rfl rfl)
  | stop =>
    simp only [call, stop, h.same.controller]
    refine (Stream.stop_ensures h.programmed).seqOk fun _ b hb => onOk_ok.mpr ?_
    exact hlast _ _ ⟨rfl, h.same.ring, h.same.bdl, h.same.fmt, h.same.rate⟩ hb hb

/- A call cannot fail: registers have no errors, and those of verbs are caught. -/
theorem call_neverFails (pb : HdaPlayback) (k : Call) : (call pb k).NeverFails := by
  have hread : ∀ off, (readU32 off).NeverFails := fun _ _ => trivial
  have hread8 : ∀ off, (readU8 off).NeverFails := fun _ _ => trivial
  have hwrite : ∀ off v, (writeU32 off v).NeverFails := fun _ _ _ => trivial
  have hwrite16 : ∀ off v, (writeU16 off v).NeverFails := fun _ _ _ => trivial
  have hwrite8 : ∀ off v, (writeU8 off v).NeverFails := fun _ _ _ => trivial
  have hlog : ∀ p : Prog Unit, p.NeverFails → (forLog p).NeverFails := fun p hp on => by
    cases on with
    | true => exact hp
    | false => trivial
  have hsrst : ∀ c, (Stream.srst c).NeverFails := fun c => by
    have hpoll : ∀ on n, ((Stream.srstIs c on).retry n).NeverFails := fun on n =>
      NeverFails.retry (by simp [Stream.srstIs, hread]) n
    simp [Stream.srst, hwrite, hpoll]
  have hstop : ∀ c, (Stream.stop c).NeverFails := fun c => by
    simp [Stream.stop, hread, hwrite, hwrite8]
  have hstart : (start pb).NeverFails := by
    have hline : (Stream.startLine pb.controller).NeverFails :=
      hlog _ (by simp [hread, hread8])
    simp [start, hsrst, Stream.setup, Stream.start, hread, hread8, hwrite, hwrite16, hwrite8, hline]
  cases k with
  | play len =>
    have hline : ∀ (s : Stream) c, (s.ringLine c).NeverFails := fun s c => hlog _ (by
      simp [Stream.lpib, Stream.delayBytes, Stream.freeBytes, Stream.status, hread, hread8])
    simp [call, play, hstart, Stream.write, Stream.lpib, hread, hline]
  | delayFrames => simp [call, Stream.delayBytes, Stream.lpib, hread]
  | setMute mute => simp [call]
  | outputPath =>
    refine neverFails_bind.mpr ⟨neverFails_bind.mpr ⟨neverFails_attempt, fun r _ => ?_⟩, by simp⟩
    rcases r with e | b
    · trivial
    · cases b <;> trivial
  | stopImmediate => simp [call, dropAll, hstop, hsrst]
  | stop => simp [call, stop, hstop]

end HdaPlayback

/-! ### While the session is opened -/

/-- Leaves the block alone or clears it. -/
def Op.Calm (base : ℕ) (o : Op) : Prop :=
  ∀ b x, Block.next base b o x = b ∨ Block.next base b o x = Block.clear

theorem Op.Still.calm {base : ℕ} {o : Op} (h : o.Still base) : o.Calm base :=
  fun b x => .inl (h b x)

theorem Op.Global.calm {o : Op} (h : o.Global) (c : Controller) : o.Calm c.sd0Base := by
  have hbase : sdStreamBase ≤ c.sd0Base := Nat.le_add_right _ _
  intro b x
  rcases h with h | rfl
  · cases o with
    | writeU8 off v =>
      have hoff : off ≠ c.sd0Base + sdCtl := by
        simp only [Op.Within, Op.access] at h
        omega
      exact .inl (if_neg hoff)
    | writeU16 off v =>
      have hoff : ∀ k, off ≠ c.sd0Base + k := fun k => by
        simp only [Op.Within, Op.access] at h
        omega
      exact .inl (by simp [Block.next, hoff])
    | writeU32 off v =>
      have hoff : ∀ k, off ≠ c.sd0Base + k := fun k => by
        simp only [Op.Within, Op.access] at h
        omega
      simp only [Block.next, hoff, if_false]
      split
      · exact .inr rfl
      · exact .inl rfl
    | _ => exact .inl rfl
  · exact .inl rfl

theorem Op.Sd.still_of_ne {o : Op} {c c' : Controller} (h : o.Sd c'.sd0Base)
    (hne : c'.sd0Base ≠ c.sd0Base) : o.Still c.sd0Base := by
  have hfar : ∀ {off k : ℕ}, c'.sd0Base ≤ off → off < c'.sd0Base + sdStreamStride →
      k < sdStreamStride → off ≠ c.sd0Base + k := by
    intro off k hlo hhi hk heq
    simp only [Controller.sd0Base, sdStreamStride] at hlo hhi hk heq hne
    omega
  have hgctl : ∀ {off : ℕ}, c'.sd0Base ≤ off → off ≠ gctl := by
    intro off hlo heq
    simp only [Controller.sd0Base, sdStreamBase, gctl] at hlo heq
    omega
  intro b x
  rcases h with h | rfl
  · cases o with
    | writeU8 off v =>
      obtain ⟨-, hlo, hhi⟩ := h
      have hoff := fun k => hfar (k := k) hlo (by omega)
      simp [Block.next, hoff sdCtl (by decide)]
    | writeU16 off v =>
      obtain ⟨-, hlo, hhi⟩ := h
      have hoff := fun k => hfar (k := k) hlo (by omega)
      simp [Block.next, hoff sdLvi (by decide), hoff sdFormat (by decide)]
    | writeU32 off v =>
      obtain ⟨-, hlo, hhi⟩ := h
      have hoff := fun k => hfar (k := k) hlo (by omega)
      simp [Block.next, hoff sdCtl (by decide), hoff sdCbl (by decide), hoff sdBdlpl (by decide),
        hoff sdBdlpu (by decide), hgctl hlo]
    | _ => rfl
  · rfl

theorem Op.Config.calm {base : ℕ} {o : Op} (h : o.Config) : o.Calm base := by
  cases o <;> first | exact h.elim | exact fun _ _ => .inl rfl

theorem Op.Control.calm {o : Op} (h : o.Control) (c : Controller) : o.Calm c.sd0Base := by
  rcases h with h | h
  · cases o <;> first | exact h.elim | exact fun _ _ => .inl rfl
  · exact h.calm c

/-- As it was found, or cleared. -/
def Block.Found (b₀ b : Block) : Prop := b = b₀ ∨ b = Block.clear

theorem Block.Found.runs {b₀ b : Block} (h : Block.Found b₀ b) : b.run = true → b = b₀ := by
  rintro hrun
  rcases h with rfl | rfl
  · rfl
  · cases hrun

section

variable {c : Controller} {b₀ b : Block}

/-- Follows a block that was found as `b₀`, and that runs only so. -/
def foundAt (c : Controller) (b₀ : Block) : Monitor Op.Ans Block :=
  streamAt c.sd0Base fun b => b = b₀

theorem ensures_calm {p : Prog α} (hp : p.Asks (Op.Calm c.sd0Base)) (hb : b₀.Found b) :
    Ensures (foundAt c b₀) p b (OnOk fun _ b' => b₀.Found b') := by
  have hall := hp.ensures (m := foundAt c b₀) (I := fun b => b₀.Found b)
    (fun _ _ _ hb => hb.runs) (fun b o x ho hb _ => ?_) hb
  · exact hall.onOk
  · change b₀.Found (Block.next c.sd0Base b o x)
    rcases ho b x with h | h
    · rw [h]
      exact hb
    · exact .inr h

theorem Controller.open_calm (opts : DebugOpts) :
    (Controller.open opts).Asks (Op.Calm c.sd0Base) := by
  have hconfig : ∀ {α : Type} {p : Prog α}, p.Asks Op.Config → p.Asks (Op.Calm c.sd0Base) :=
    fun hp => hp.mono fun _ ho => ho.calm
  have hmap : (withContext "map BAR0" (.ask .mapBar ofExcept)).Asks (Op.Calm c.sd0Base) :=
    asks_withContext ⟨fun _ _ => .inl rfl, fun r => asks_ofExcept r⟩
  have hids := asks_unwrapOr (d := ((0#16 : U16), (0#16 : U16))) (hconfig vendorDevice_asks)
  have hsnoop := @asks_withContext _ _ "pci snoop config" _ (hconfig setSnoop_asks)
  have hmaster := @asks_withContext _ _ "pci bus master" _ (hconfig setMaster_asks)
  have hgcap : (Op.readU16 gcapReg).Calm c.sd0Base := fun _ _ => .inl rfl
  have hstart := fun gcap => (start_asks opts gcap).mono fun _ ho => Op.Control.calm ho c
  simp [Controller.open, hmap, hids, hsnoop, hmaster, hgcap, hstart]

namespace HdaPlayback

/-- Whatever it found, it leaves its own stream stopped. -/
structure Quiet (c c' : Controller) (b₀ b : Block) : Prop where
  runs : b.run = true → b = b₀
  stopped : c'.sd0Base = c.sd0Base → b.run = false

theorem bringUp_quiet (opts : DebugOpts) (rate : ℕ) :
    Ensures (foundAt c b₀) (bringUp opts rate) b₀ (OnOk fun p b' => Quiet c p.1 b₀ b') := by
  have hverbs : ∀ {α : Type} {p : Prog α}, p.Asks Op.Gets → p.Asks (Op.Calm c.sd0Base) :=
    fun hp => hp.mono fun _ ho => ho.isVerb.still.calm
  refine (ensures_calm (Controller.open_calm opts) (.inl rfl)).seqOk fun c₁ b hb => ?_
  rw [bringUpFrom]
  split
  · exact onOk_error
  refine (ensures_calm (hverbs (Codec.probe_asks c₁)) hb).seqOk fun p b hb => ?_
  have hrest : ∀ b : Block, b₀.Found b → Ensures (foundAt c b₀) (do
      let s ← Stream.new
      Stream.srst p.1
      let s ← s.setup p.1 rate
      pure (p.1, p.2, s)) b (OnOk fun p b' => Quiet c p.1 b₀ b') := by
    intro b hb
    have hnew : Stream.new.Asks (Op.Calm c.sd0Base) :=
      Stream.new_asks.mono fun _ ho => Op.Control.calm (.inl ho) c
    refine (ensures_calm hnew hb).seqOk fun s b hb => ?_
    by_cases hc : p.1.sd0Base = c.sd0Base
    · rw [foundAt, ← hc]
      refine (Stream.srst_ensures hb.runs).seqOk fun _ b hb => ?_
      subst hb
      refine (Stream.setup_ensures s rate).seqOk fun s' b hb => onOk_ok.mpr ?_
      have hstopped : b.run = false := by
        rw [hb.2]
        exact Stream.setupBlock_stopped ..
      exact ⟨fun hrun => absurd hrun (by simp [hstopped]), fun _ => hstopped⟩
    · have hsd : ∀ {α : Type} {q : Prog α}, q.Asks (Op.Sd p.1.sd0Base) →
          q.Asks (Op.Calm c.sd0Base) := fun hq => hq.mono fun _ ho => (ho.still_of_ne hc).calm
      refine (ensures_calm (hsd (Stream.srst_asks p.1)) hb).seqOk fun _ b hb => ?_
      exact (ensures_calm (hsd (Stream.setup_asks s p.1 rate)) hb).seqOk fun s' b hb =>
        onOk_ok.mpr ⟨hb.runs, fun heq => (hc heq).elim⟩
  dsimp only
  split
  · exact (ensures_calm (hverbs (Codec.dumpTopology_asks p.1)) hb).seqOk fun _ b hb => hrest b hb
  · exact hrest b hb

theorem stream_new_yields {s : Stream} (h : Stream.new.Yields s) : s.Backed := by
  simp only [Stream.new, yields_bind, pure_eq, yields_done] at h
  obtain ⟨ring, hring, bdl, hbdl, rfl⟩ := h
  exact ⟨DmaBuffer.new_yields hring, DmaBuffer.new_yields hbdl⟩

theorem open_yields {opts : DebugOpts} {rate : ℕ} {pb : HdaPlayback}
    (h : («open» opts rate).Yields pb) :
    pb.running = false ∧ pb.rate = rate ∧ pb.stream.Backed := by
  simp only [«open», bringUp, bringUpFrom, yields_bind, yields_ite, yields_fail, pure_eq,
    yields_done] at h
  obtain ⟨p, ⟨c, -, h⟩, _, -, rfl⟩ := h
  refine ⟨rfl, rfl, ?_⟩
  have hset : ∀ {s s' : Stream} {c : Controller}, Stream.new.Yields s →
      (s.setup c rate).Yields s' → s'.Backed := fun hs hs' => by
    rw [setup_yields hs']
    exact ⟨(stream_new_yields hs).ring, (stream_new_yields hs).bdl⟩
  split at h
  · exact h.elim
  obtain ⟨q, -, h⟩ := h
  split at h
  · obtain ⟨_, -, s, hs, _, -, s', hs', rfl⟩ := h
    exact hset hs hs'
  · obtain ⟨s, hs, _, -, s', hs', rfl⟩ := h
    exact hset hs hs'

/-- Whatever the device answers, and whatever it was doing. -/
theorem open_quiet (opts : DebugOpts) (rate : ℕ) :
    Ensures (foundAt c b₀) («open» opts rate) b₀
      (OnOk fun first b' => Quiet c first.controller b₀ b') := by
  refine (bringUp_quiet opts rate).seqOk fun p b hb => ?_
  have hinit : (initCodec opts rate p.1).Asks (Op.Still c.sd0Base) :=
    (initCodec_asks opts rate p.1).mono fun _ ho => ho.still
  refine (ensures_still hinit hb.runs).onOk.seqOk fun _ b' hb' => onOk_ok.mpr ?_
  rw [hb']
  exact hb

theorem calls_tracks {first pb : HdaPlayback} (h : Tracks first pb b)
    (hbacked : first.stream.Backed) (calls : List Call) :
    Ensures (streamOf first) (calls.foldlM call pb) b fun r b' =>
      ∃ pb', r = .ok pb' ∧ Tracks first pb' b' := by
  refine (NeverFails.foldlM call_neverFails pb).ensures ?_
  induction calls generalizing pb b with
  | nil => exact onOk_ok.mpr h
  | cons k calls ih =>
    rw [List.foldlM_cons]
    exact (call_tracks h hbacked k).seqOk fun pb' b' h' => ih h'

end HdaPlayback

end

/-- The device, found with `b₀` in the block, reads back the control word of the stream. -/
def ReadsBack (base : ℕ) (b₀ : Block) (env : Env) : Prop :=
  ∀ h o, (Block.after base b₀ h).Reads base o (env h o)

namespace HdaPlayback

section

variable {env : Env} {opts : DebugOpts} {rate : ℕ} {first : HdaPlayback} {b₀ : Block}

theorem open_stopped (hopen : (run env («open» opts rate) []).1 = .ok first)
    (henv : ReadsBack first.controller.sd0Base b₀ env) :
    (Block.after first.controller.sd0Base b₀ (run env («open» opts rate) []).2).run = false := by
  have hheeds : (foundAt first.controller b₀).Heeds b₀ env := henv
  exact (((open_quiet opts rate).run (h := []) hheeds).2 first hopen).stopped rfl

theorem open_runs (hopen : (run env («open» opts rate) []).1 = .ok first)
    (henv : ReadsBack first.controller.sd0Base b₀ env) {pre : History}
    (hpre : pre <+: (run env («open» opts rate) []).2)
    (hrun : (Block.after first.controller.sd0Base b₀ pre).run = true) :
    Block.after first.controller.sd0Base b₀ pre = b₀ := by
  have hheeds : (foundAt first.controller b₀).Heeds b₀ env := henv
  obtain ⟨hrespects, hquiet⟩ := (open_quiet opts rate).run (h := []) hheeds
  obtain ⟨rest, hrest⟩ := hpre
  cases rest with
  | nil =>
    rw [List.append_nil] at hrest
    rw [hrest] at hrun ⊢
    exact (hquiet first hopen).runs hrun
  | cons e rest => exact hrespects pre e rest hrest.symm (Nat.zero_le _) hrun

end

theorem open_tracks {env : Env} {opts : DebugOpts} {rate : ℕ} {first : HdaPlayback}
    (hopen : (run env («open» opts rate) []).1 = .ok first) {b₀ : Block}
    (henv : ReadsBack first.controller.sd0Base b₀ env) : first.rate = rate ∧
      first.stream.Backed ∧ Tracks first first
        (Block.after first.controller.sd0Base b₀ (run env («open» opts rate) []).2) := by
  have hstop := open_stopped hopen henv
  obtain ⟨hrunning, hrate, hbacked⟩ := open_yields (run_yields hopen)
  exact ⟨hrate, hbacked, Same.refl first, hstop.trans hrunning.symm,
    fun ht => by rw [hstop] at ht; cases ht⟩

theorem runs_programmed {env : Env} {opts : DebugOpts} {rate : ℕ} {calls : List Call}
    {first : HdaPlayback} (hopen : (run env («open» opts rate) []).1 = .ok first) {b₀ : Block}
    (henv : ReadsBack first.controller.sd0Base b₀ env) {pre : History}
    (hpre : pre <+: history env opts rate calls)
    (ht : (Block.after first.controller.sd0Base b₀ pre).run = true) :
    (Block.after first.controller.sd0Base b₀ pre).Programmed first.controller first.stream rate ∨
      Block.after first.controller.sd0Base b₀ pre = b₀ ∧
        pre <+: (run env («open» opts rate) []).2 := by
  obtain ⟨rfl, hbacked, htracks⟩ := open_tracks hopen henv
  have hcalls := calls_tracks htracks hbacked calls
  have hheeds : (streamOf first).Heeds b₀ env := henv
  rw [history, session_run hopen] at hpre
  rcases List.prefix_or_prefix_of_prefix hpre (prefix_run env (calls.foldlM call first) _) with
    hbefore | hafter
  · exact .inr ⟨open_runs hopen henv hbefore ht, hbefore⟩
  · exact .inl
      ((hcalls.mono fun r b' hr => hr.choose_spec.2.programmed).always hheeds hafter hpre ht)

/-- In every session that opens, on every device that reads the control word back, at every
moment: the engine runs only on a block with the ring size, the last index, the format, the
tag and the descriptor list of the session, or, as long as `open` is at it, on the block it
was found with; and once the calls are through, `running` is the run bit. -/
theorem session_programmed (env : Env) (opts : DebugOpts) (rate : ℕ) (calls : List Call)
    (first : HdaPlayback) (hopen : (run env («open» opts rate) []).1 = .ok first) (b₀ : Block)
    (henv : ReadsBack first.controller.sd0Base b₀ env) :
    (∀ pre, pre <+: history env opts rate calls →
      (Block.after first.controller.sd0Base b₀ pre).run = true →
        (Block.after first.controller.sd0Base b₀ pre).Programmed first.controller first.stream
          rate ∨
        Block.after first.controller.sd0Base b₀ pre = b₀ ∧
          pre <+: (run env («open» opts rate) []).2) ∧
    ∃ last, (run env (session opts rate calls) []).1 = .ok last ∧
      (Block.after first.controller.sd0Base b₀ (history env opts rate calls)).run =
        last.running := by
  refine ⟨fun pre hpre ht => runs_programmed hopen henv hpre ht, ?_⟩
  obtain ⟨rfl, hbacked, htracks⟩ := open_tracks hopen henv
  have hheeds : (streamOf first).Heeds b₀ env := henv
  rw [history, session_run hopen]
  obtain ⟨-, last, hlast, htracks⟩ := (calls_tracks htracks hbacked calls).run hheeds
  exact ⟨last, hlast, htracks.running⟩

/-- So with the list that `fill` made in memory, and pages that differ, it reads the ring that
`write` fills: every byte from its place, in order, as one ring of `Hda` would be read. -/
theorem session_reads_ring (env : Env) (opts : DebugOpts) (rate : ℕ) (calls : List Call)
    (first : HdaPlayback) (hopen : (run env («open» opts rate) []).1 = .ok first) (b₀ : Block)
    (henv : ReadsBack first.controller.sd0Base b₀ env) : ∃ hbacked : first.stream.Backed,
    ∀ (hdiffer : (first.stream.bdl.phys ++ first.stream.ring.phys).Nodup) (m : Dma.Mem),
      ∃ m' r, (hbacked.dma hdiffer).setup m = some (m', r) ∧
        ∀ pre, pre <+: history env opts rate calls →
          (Block.after first.controller.sd0Base b₀ pre).run = true →
          (Block.after first.controller.sd0Base b₀ pre = b₀ ∧
            pre <+: (run env («open» opts rate) []).2) ∨
          ∀ is, ∃ t h tr, ((hbacked.dma hdiffer).machine
              (Block.after first.controller.sd0Base b₀ pre).registers).run (.start m') is =
                some (t, tr) ∧
            (hbacked.dma hdiffer).ringMachine.run ((hbacked.dma hdiffer).hda m) is =
              some (h, tr) := by
  obtain ⟨-, hbacked, -⟩ := open_tracks hopen henv
  refine ⟨hbacked, fun hdiffer m => ?_⟩
  obtain ⟨m', r, hsetup, -, hlist, hview⟩ := (hbacked.dma hdiffer).setup_eq m
  refine ⟨m', r, hsetup, fun pre hpre ht => ?_⟩
  rcases runs_programmed hopen henv hpre ht with hprogrammed | hfound
  · refine .inr fun is => ?_
    obtain ⟨t, h, tr, hrun, hring, -⟩ :=
      (hprogrammed.registers hbacked hdiffer).run_refines hlist hview is
    exact ⟨t, h, tr, hrun, hring⟩
  · exact .inl hfound

end HdaPlayback

/-- The typical device, which reads the control word back. -/
def steady (base : ℕ) (b₀ : Block) : Env := fun h o =>
  match o with
  | .readU8 off =>
    if off = base + sdCtl then (Block.after base b₀ h).ctl.extractLsb' 0 8 else 0#8
  | .readU32 off => if off = base + sdCtl then (Block.after base b₀ h).ctl else 0#32
  | o => o.typical

theorem steady_readsBack (base : ℕ) (b₀ : Block) : ReadsBack base b₀ (steady base b₀) := by
  intro h o
  cases o with
  | readU8 off => exact fun hoff _ => if_pos hoff
  | readU32 off => exact fun hoff _ => congrArg _ (if_pos hoff)
  | _ => trivial

namespace HdaPlayback

/-- Left by a session that was killed: it plays from a list that is no longer there. -/
def stale : Block := ⟨dmaStart ||| intMask, 0x1000#32, 1#16, 0x11#16, 0x5000#32, 0#32⟩

/- The fifth block, with tag 5. -/
theorem plain_opens :
    ∃ first, (run (steady 0x100 stale) («open» .plain 48000) []).1 = .ok first ∧
      first.controller.captureStreams = 4 := by
  have h : (match (run (steady 0x100 stale) («open» .plain 48000) []).1 with
      | .ok first => first.controller.captureStreams == 4
      | .error _ => false) = true := by
    decide +kernel
  split at h
  · rename_i first hfirst
    exact ⟨first, hfirst, by simpa using h⟩
  · cases h

theorem base_of_streams {c : Controller} (h : c.captureStreams = 4) : c.sd0Base = 0x100 := by
  rw [Controller.sd0Base, Controller.sdIndex, h]
  rfl

/-- Started, dropped and started again. -/
def playDropPlay : List Call := [.play 4096, .stopImmediate, .play 4]

theorem session_programmed_plain : ∃ first : HdaPlayback, stale.run = true ∧
    (Block.after 0x100 stale (history (steady 0x100 stale) .plain 48000 playDropPlay)).run = true ∧
    (Block.after 0x100 stale
      (history (steady 0x100 stale) .plain 48000 playDropPlay)).Programmed
        first.controller first.stream 48000 := by
  obtain ⟨first, hopen, hstreams⟩ := plain_opens
  have hbase := base_of_streams hstreams
  have h := session_programmed (steady 0x100 stale) .plain 48000 playDropPlay first hopen stale
    (by rw [hbase]; exact steady_readsBack 0x100 stale)
  rw [hbase] at h
  have hruns : (Block.after 0x100 stale
      (history (steady 0x100 stale) .plain 48000 playDropPlay)).run = true := by decide +kernel
  have hmoved : Block.after 0x100 stale
      (history (steady 0x100 stale) .plain 48000 playDropPlay) ≠ stale := by decide +kernel
  refine ⟨first, rfl, hruns, ?_⟩
  rcases h.1 _ List.prefix_rfl hruns with hprogrammed | hfound
  · exact hprogrammed
  · exact (hmoved hfound.1).elim

end HdaPlayback

end Audiod.Driver
