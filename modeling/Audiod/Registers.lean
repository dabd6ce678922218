import Audiod.Corb
import Audiod.Dialogue

/-!
# What the driver asks of the machine (`hda/src/mmio.rs`, `regs.rs`, `pcicfg.rs`, `pagemap.rs`)

The driver as a `Dialogue`: the registers behind BAR0, the PCI configuration file, the
calls that make a DMA buffer, and `verb`, one `Controller::verb_raw` (`Corb` has its
transport). A loop that polls until a time limit asks once, by `polls`, how many more
polls the clock allows it. A line that is logged may read registers: `logged` says
whether the level lets it.
-/

namespace Audiod.Driver

abbrev U8 := BitVec 8
abbrev U16 := BitVec 16
abbrev U32 := BitVec 32
abbrev U64 := BitVec 64

/-- The errors, with what their texts name. `os` is one of the system. -/
inductive IoError
  | os
  | context (what : String) (e : IoError)
  | notResident
  | badPhys (addr : U64)
  | noVendor
  | notController (gcap : U16)
  | icStuckBusy
  | linkResetAssert
  | linkResetRelease
  | noSize (name : String)
  | sizesDiffer (count rirbCount : ℕ)
  | noCodecOnLink
  | noCodec
  | verb (e : Corb.Err)
  | notWidget (label : String) (nid t : U32) (expected : List U32)
  deriving DecidableEq

/-- What becomes of a verb: a response, or an error, and then the codec may have
executed it all the same. -/
inductive Reply
  | response (r : U32)
  | error (e : Corb.Err) (executed : Bool)

def Reply.result : Reply → Except IoError U32
  | .response r => .ok r
  | .error e _ => .error (.verb e)

def Reply.executed : Reply → Bool
  | .response _ => true
  | .error _ executed => executed

inductive Op
  | mapBar
  | readU8 (off : ℕ)
  | readU16 (off : ℕ)
  | readU32 (off : ℕ)
  | writeU8 (off : ℕ) (v : U8)
  | writeU16 (off : ℕ) (v : U16)
  | writeU32 (off : ℕ) (v : U32)
  | openConfig
  | configReadU8 (off : ℕ)
  | configReadU16 (off : ℕ)
  | configWriteU8 (off : ℕ) (v : U8)
  | configWriteU16 (off : ℕ) (v : U16)
  | mmap (len : ℕ)
  | mlock (ptr : U64) (len : ℕ)
  | munlock (ptr : U64) (len : ℕ)
  | munmap (ptr : U64) (len : ℕ)
  | pagemap (off : ℕ)
  | verb (word : U32)
  | polls
  | logged
  deriving DecidableEq

@[reducible] def Op.Ans : Op → Type
  | .readU8 _ => U8
  | .readU16 _ => U16
  | .readU32 _ => U32
  | .writeU8 _ _ | .writeU16 _ _ | .writeU32 _ _ => Unit
  | .mapBar | .openConfig | .configWriteU8 _ _ | .configWriteU16 _ _ => Except IoError Unit
  | .configReadU8 _ => Except IoError U8
  | .configReadU16 _ => Except IoError U16
  | .mmap _ => Except IoError U64
  | .mlock _ _ => Except IoError Unit
  | .munlock _ _ | .munmap _ _ => Unit
  | .pagemap _ => Except IoError U64
  | .verb _ => Reply
  | .polls => ℕ
  | .logged => Bool

abbrev Prog := Dialogue Op Op.Ans IoError

abbrev Env := Dialogue.Env Op.Ans

abbrev History := Dialogue.History Op.Ans

open Dialogue

/-! ### Single questions -/

def readU8 (off : ℕ) : Prog U8 := .ask (.readU8 off) .done
def readU16 (off : ℕ) : Prog U16 := .ask (.readU16 off) .done
def readU32 (off : ℕ) : Prog U32 := .ask (.readU32 off) .done
def writeU8 (off : ℕ) (v : U8) : Prog Unit := .ask (.writeU8 off v) .done
def writeU16 (off : ℕ) (v : U16) : Prog Unit := .ask (.writeU16 off v) .done
def writeU32 (off : ℕ) (v : U32) : Prog Unit := .ask (.writeU32 off v) .done
def polls : Prog ℕ := .ask .polls .done
def logged : Prog Bool := .ask .logged .done

/-- `verb_raw` for a command word. -/
def verbWord (word : U32) : Prog U32 := .ask (.verb word) fun r => ofExcept r.result

/-- `read_u16` and its like on the configuration file. -/
def configReadU8 (off : ℕ) : Prog U8 := .ask (.configReadU8 off) ofExcept
def configReadU16 (off : ℕ) : Prog U16 := .ask (.configReadU16 off) ofExcept
def configWriteU8 (off : ℕ) (v : U8) : Prog Unit := .ask (.configWriteU8 off v) ofExcept
def configWriteU16 (off : ℕ) (v : U16) : Prog Unit := .ask (.configWriteU16 off v) ofExcept
def openConfig : Prog Unit := .ask .openConfig ofExcept

/-- `.map_err` with a text put before that of the error. -/
def withContext {α : Type} (what : String) (p : Prog α) : Prog α := do
  match ← p.attempt with
  | .ok a => pure a
  | .error e => .fail (.context what e)

/-- `.unwrap_or(d)` -/
def unwrapOr {α : Type} (p : Prog α) (d : α) : Prog α := do
  match ← p.attempt with
  | .ok a => pure a
  | .error _ => pure d

/-! ### The register map -/

def gcapReg : ℕ := 0x00
def gctl : ℕ := 0x08
def statests : ℕ := 0x0e
def intctl : ℕ := 0x20
def intsts : ℕ := 0x24
def corblbase : ℕ := 0x40
def corbubase : ℕ := 0x44
def corbwp : ℕ := 0x48
def corbrp : ℕ := 0x4a
def corbctl : ℕ := 0x4c
def corbsize : ℕ := 0x4e
def rirblbase : ℕ := 0x50
def rirbubase : ℕ := 0x54
def rirbwp : ℕ := 0x58
def rintcnt : ℕ := 0x5a
def rirbctl : ℕ := 0x5c
def rirbsize : ℕ := 0x5e
def irs : ℕ := 0x68

def gcapStreams : U16 := 0xff00#16  -- GCAP_ISS | GCAP_OSS
def gctlReset : U32 := 0x1#32
def statestsIntMask : U16 := 0x000f#16
def corbrpRst : U16 := 0x8000#16
def corbctlRun : U8 := 0x02#8
def rirbwpRst : U16 := 0x8000#16
def rirbctlIrqEn : U8 := 0x01#8
def rirbctlDmaEn : U8 := 0x02#8
def irsValid : U16 := 0x2#16
def irsBusy : U16 := 0x1#16
def intAllStream : U32 := 0x3fffffff#32
def intCtrlEn : U32 := 0x40000000#32

def sdCtl : ℕ := 0x00
def sdSts : ℕ := 0x03
def sdLpib : ℕ := 0x04
def sdCbl : ℕ := 0x08
def sdLvi : ℕ := 0x0c
def sdFormat : ℕ := 0x12
def sdBdlpl : ℕ := 0x18
def sdBdlpu : ℕ := 0x1c
def sdStreamBase : ℕ := 0x80
def sdStreamStride : ℕ := 0x20

def streamReset : U32 := 0x01#32
def dmaStart : U32 := 0x02#32
def intMask : U32 := 0x1c#32
def streamTagMask : U32 := 0xf00000#32
def streamTagShift : ℕ := 20

/-! ### `Mmio` -/

def barLen : ℕ := 16 * 1024

/-- `Mmio::check` of an access as wide as it is aligned; the panic is `false`. -/
def mmioCheck (off width : ℕ) : Bool := off % width == 0 && off + width ≤ barLen

/-- Offset and width of a register access. -/
def Op.access : Op → Option (ℕ × ℕ)
  | .readU8 off | .writeU8 off _ => some (off, 1)
  | .readU16 off | .writeU16 off _ => some (off, 2)
  | .readU32 off | .writeU32 off _ => some (off, 4)
  | _ => none

/-- The access does not panic. -/
def Op.Mapped (o : Op) : Prop := ∀ a, o.access = some a → mmioCheck a.1 a.2 = true

instance (o : Op) : Decidable o.Mapped :=
  match h : o.access with
  | none => isTrue (fun a ha => by rw [h] at ha; cases ha)
  | some a => decidable_of_iff (mmioCheck a.1 a.2 = true)
      ⟨fun hc b hb => by rw [h] at hb; cases hb; exact hc, fun hm => hm a h⟩

/-! ### Kinds of questions -/

/-- A register access inside `lo`..`hi`, aligned to its width. -/
def Op.Within (lo hi : ℕ) (o : Op) : Prop :=
  match o.access with
  | none => False
  | some (off, width) => off % width = 0 ∧ lo ≤ off ∧ off + width ≤ hi

/-- The registers of the controller itself, below those of its streams, and the clock. -/
def Op.Global (o : Op) : Prop := o.Within 0 sdStreamBase ∨ o = .polls

/-- Those of a stream, and the level of the log. -/
def Op.Sd (base : ℕ) (o : Op) : Prop := o.Within base (base + sdStreamStride) ∨ o = .logged

def Op.Config : Op → Prop
  | .openConfig | .configReadU8 _ | .configReadU16 _ => True
  | .configWriteU8 _ _ | .configWriteU16 _ _ => True
  | _ => False

def Op.Paging : Op → Prop
  | .mmap _ | .mlock _ _ | .munlock _ _ | .munmap _ _ | .pagemap _ => True
  | _ => False

/-- What bringing the controller up takes. -/
def Op.Control (o : Op) : Prop := o.Paging ∨ o.Global

def Op.IsVerb : Op → Prop
  | .verb _ => True
  | _ => False

section

variable {off : ℕ}

@[simp] theorem global_readU8 : (Op.readU8 off).Global ↔ off + 1 ≤ sdStreamBase := by
  simp [Op.Global, Op.Within, Op.access, Nat.mod_one]

@[simp] theorem global_readU16 :
    (Op.readU16 off).Global ↔ off % 2 = 0 ∧ off + 2 ≤ sdStreamBase := by
  simp [Op.Global, Op.Within, Op.access]

@[simp] theorem global_readU32 :
    (Op.readU32 off).Global ↔ off % 4 = 0 ∧ off + 4 ≤ sdStreamBase := by
  simp [Op.Global, Op.Within, Op.access]

@[simp] theorem global_writeU8 {v : U8} :
    (Op.writeU8 off v).Global ↔ off + 1 ≤ sdStreamBase := by
  simp [Op.Global, Op.Within, Op.access, Nat.mod_one]

@[simp] theorem global_writeU16 {v : U16} :
    (Op.writeU16 off v).Global ↔ off % 2 = 0 ∧ off + 2 ≤ sdStreamBase := by
  simp [Op.Global, Op.Within, Op.access]

@[simp] theorem global_writeU32 {v : U32} :
    (Op.writeU32 off v).Global ↔ off % 4 = 0 ∧ off + 4 ≤ sdStreamBase := by
  simp [Op.Global, Op.Within, Op.access]

@[simp] theorem global_polls : Op.polls.Global := .inr rfl

end

theorem Op.Within.mapped {lo hi : ℕ} {o : Op} (h : o.Within lo hi) (hhi : hi ≤ barLen) :
    o.Mapped := by
  intro a ha
  obtain ⟨off, width⟩ := a
  simp only [Within, ha] at h
  simp [mmioCheck, h.1, h.2.2.trans hhi]

theorem Op.Global.mapped {o : Op} (h : o.Global) : o.Mapped := by
  rcases h with h | rfl
  · exact h.mapped (by decide)
  · exact fun a ha => by cases ha

theorem Op.Sd.mapped {base : ℕ} {o : Op} (h : o.Sd base) (hb : base + sdStreamStride ≤ barLen) :
    o.Mapped := by
  rcases h with h | rfl
  · exact h.mapped hb
  · exact fun a ha => by cases ha

theorem Op.Config.mapped {o : Op} (h : o.Config) : o.Mapped := by
  cases o <;> first | exact h.elim | exact fun a ha => by cases ha

theorem Op.Paging.mapped {o : Op} (h : o.Paging) : o.Mapped := by
  cases o <;> first | exact h.elim | exact fun a ha => by cases ha

theorem Op.IsVerb.mapped {o : Op} (h : o.IsVerb) : o.Mapped := by
  cases o <;> first | exact h.elim | exact fun a ha => by cases ha

section

variable {φ : Op → Prop} {off : ℕ}

@[simp] theorem asks_readU8 : (readU8 off).Asks φ ↔ φ (.readU8 off) := by simp [readU8]

@[simp] theorem asks_readU16 : (readU16 off).Asks φ ↔ φ (.readU16 off) := by simp [readU16]

@[simp] theorem asks_readU32 : (readU32 off).Asks φ ↔ φ (.readU32 off) := by simp [readU32]

@[simp] theorem asks_writeU8 {v : U8} : (writeU8 off v).Asks φ ↔ φ (.writeU8 off v) := by
  simp [writeU8]

@[simp] theorem asks_writeU16 {v : U16} : (writeU16 off v).Asks φ ↔ φ (.writeU16 off v) := by
  simp [writeU16]

@[simp] theorem asks_writeU32 {v : U32} : (writeU32 off v).Asks φ ↔ φ (.writeU32 off v) := by
  simp [writeU32]

@[simp] theorem asks_polls : polls.Asks φ ↔ φ .polls := by simp [polls]

@[simp] theorem asks_verbWord {word : U32} : (verbWord word).Asks φ ↔ φ (.verb word) := by
  simp [verbWord]

theorem asks_withContext {α : Type} {what : String} {p : Prog α} (hp : p.Asks φ) :
    (withContext what p).Asks φ := by
  refine asks_bind.mpr ⟨asks_attempt.mpr hp, fun r _ => ?_⟩
  cases r <;> trivial

theorem asks_unwrapOr {α : Type} {p : Prog α} {d : α} (hp : p.Asks φ) :
    (unwrapOr p d).Asks φ := by
  refine asks_bind.mpr ⟨asks_attempt.mpr hp, fun r _ => ?_⟩
  cases r <;> trivial

end

theorem ensures_withContext {σ α : Type} {m : Monitor Op.Ans σ} {what : String} {p : Prog α}
    {s : σ} {P : α → σ → Prop} (hp : Ensures m p s (OnOk P)) :
    Ensures m (withContext what p) s (OnOk P) := by
  refine ensures_bind.mpr (ensures_attempt.mpr (hp.mono fun r s' hr => ?_))
  cases r with
  | ok a => exact hr
  | error e => exact onOk_error

theorem ensures_withContext_keeping {σ α : Type} {m : Monitor Op.Ans σ} {what : String}
    {p : Prog α} {s : σ} {I : σ → Prop} {P : α → σ → Prop} (hp : Ensures m p s (Keeping I P)) :
    Ensures m (withContext what p) s (Keeping I P) := by
  refine ensures_bind.mpr (ensures_attempt.mpr (hp.mono fun r s' hr => ?_))
  cases r with
  | ok a => exact hr
  | error e => exact keeping_error.mpr hr.1

theorem ensures_unwrapOr_keeping {σ α : Type} {m : Monitor Op.Ans σ} {p : Prog α} {d : α} {s : σ}
    {I : σ → Prop} (hp : Ensures m p s fun _ s' => I s') :
    Ensures m (unwrapOr p d) s (Keeping I fun _ _ => True) := by
  refine ensures_bind.mpr (ensures_attempt.mpr (hp.mono fun r s' hr => ?_))
  cases r with
  | ok a => exact keeping_ok.mpr ⟨hr, trivial⟩
  | error e => exact keeping_ok.mpr ⟨hr, trivial⟩

theorem ensures_unwrapOr {σ α : Type} {m : Monitor Op.Ans σ} {p : Prog α} {d : α} {s : σ}
    {P : α → σ → Prop} (hp : Ensures m p s (OnOk P)) (hd : ∀ s', P d s') :
    Ensures m (unwrapOr p d) s (OnOk P) := by
  refine ensures_bind.mpr (ensures_attempt.mpr (hp.mono fun r s' hr => ?_))
  cases r with
  | ok a => exact hr
  | error e => exact onOk_ok.mpr (hd s')

end Audiod.Driver
