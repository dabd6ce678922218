import Audiod.BringUp

/-!
# Codec verbs (`hda/src/codec.rs`)

The programs of `Codec`, and what the verbs they send mean to a codec: a set verb
changes one setting of one node, by the verb set of the HDA specification. The log lines
of the two dumps are left out, their reads are not.
-/

namespace Audiod.Driver

open Dialogue
open Corb (makeVerb)

def nidRoot : U32 := 0x00#32
def nidAfg : U32 := 0x01#32
def nidDacSpk : U32 := 0x02#32
def nidDacHp : U32 := 0x03#32
def nidMuxSpk : U32 := 0x0c#32
def nidMuxHp : U32 := 0x0d#32
def nidPinSpk : U32 := 0x14#32
def nidPinHp : U32 := 0x15#32

def acParVendorId : U32 := 0x00#32
def acParSubsystemId : U32 := 0x01#32
def acParRevId : U32 := 0x02#32
def acParAudioWidgetCap : U32 := 0x09#32
def acParStreamFormats : U32 := 0x0b#32
def acParPinCap : U32 := 0x0c#32
def acParConnlistLen : U32 := 0x0e#32

def acWidAudOut : U32 := 0x0#32
def acWidAudMix : U32 := 0x2#32
def acWidAudSel : U32 := 0x3#32
def acWidPin : U32 := 0x4#32

def verbParam : U32 := 0xf00#32
def verbGetSubsystemId : U32 := 0xf20#32
def verbSetAmpGainMute : U32 := 0x300#32
def verbGetAmpGainMute : U32 := 0xb00#32
def verbGetPinSense : U32 := 0x709#32
def verbGetConnectSel : U32 := 0xf01#32
def verbSetConnectSel : U32 := 0x701#32
def verbGetPowerState : U32 := 0xf05#32
def verbSetPowerState : U32 := 0x705#32
def verbGetChannelStreamid : U32 := 0xf06#32
def verbSetChannelStreamid : U32 := 0x706#32
def verbGetPinWidgetControl : U32 := 0xf07#32
def verbSetPinWidgetControl : U32 := 0x707#32
def verbGetStreamFormat : U32 := 0xa00#32
def verbSetStreamFormat : U32 := 0x200#32
def verbGetEapdBtlenable : U32 := 0xf0c#32
def verbSetEapdBtlenable : U32 := 0x70c#32
def verbGetConnectList : U32 := 0xf02#32

def acPinsensePresence : U32 := 0x80000000#32
def acPwrstD0 : U32 := 0x00#32
def acAmpMute : U32 := 0x80#32
def acAmpIndexShift : ℕ := 8
def acAmpRight : U32 := 0x1000#32
def acAmpLeft : U32 := 0x2000#32
def acAmpOutput : U32 := 0x8000#32
def acAmpGetLeft : U32 := 0x2000#32
def acAmpGetOutput : U32 := 0x8000#32
def acEapd : U32 := 0x2#32
def acPinOut : U32 := 0x40#32
def acPinHp : U32 := 0x80#32
def defaultGain : U32 := 0x44#32

/-- `Controller::cmd` and `cmd_quiet`, which logs less. -/
def cmd (cad nid verb payload : U32) : Prog U32 := verbWord (makeVerb cad nid verb payload)

/-! ### Setting nodes -/

def setPower (c : Controller) (nid state : U32) : Prog Unit := do
  let _ ← cmd c.cad nid verbSetPowerState state
  pure ()

def muteBit (mute : Bool) : U32 := if mute then acAmpMute else 0#32

def outputAmp (gain : U32) (mute : Bool) : U32 :=
  acAmpOutput ||| acAmpLeft ||| acAmpRight ||| ((gain &&& 0x7f#32) ||| muteBit mute)

def setOutputAmp (c : Controller) (nid gain : U32) (mute : Bool) : Prog Unit := do
  let _ ← cmd c.cad nid verbSetAmpGainMute (outputAmp gain mute)
  pure ()

def inputAmp (index gain : U32) (mute : Bool) : U32 :=
  (index &&& 0xf#32) <<< acAmpIndexShift ||| (acAmpLeft ||| acAmpRight) |||
    ((gain &&& 0x7f#32) ||| muteBit mute)

def setInputAmp (c : Controller) (nid index gain : U32) (mute : Bool) : Prog Unit := do
  let _ ← cmd c.cad nid verbSetAmpGainMute (inputAmp index gain mute)
  pure ()

/-! ### `Codec` -/

structure Codec where
  vendorId : U32
  subsystemId : U32
  deriving DecidableEq

namespace Codec

/-- The two candidates of the scan, with their addresses. -/
structure Found where
  fallback : Option (U32 × Codec)
  realtek : Option (U32 × Codec)
  deriving DecidableEq

/-- The body of the scan for an address in the mask. -/
def identify (f : Found) (cad : U32) : Prog Found := do
  match ← (cmd cad nidRoot verbParam acParVendorId).attempt with
  | .error _ => pure f
  | .ok vendorId =>
    if vendorId ≠ 0#32 ∧ vendorId ≠ 0xffffffff#32 then do
      let subsystemId ← unwrapOr (cmd cad nidRoot verbParam acParSubsystemId) 0#32
      let _ ← unwrapOr (cmd cad nidRoot verbParam acParRevId) 0#32
      let subsystemId ←
        if subsystemId = 0#32 then unwrapOr (cmd cad nidAfg verbGetSubsystemId 0#32) 0#32
        else pure subsystemId
      let codec : Codec := ⟨vendorId, subsystemId⟩
      if vendorId >>> 16 = 0x10ec#32 ∧ f.realtek.isNone then
        pure { f with realtek := some (cad, codec) }
      else if f.fallback.isNone then pure { f with fallback := some (cad, codec) }
      else pure f
    else pure f

def scan (mask : U16) (f : Found) (cad : ℕ) : Prog Found :=
  if mask &&& (1#16 <<< cad) = 0#16 then pure f else identify f (BitVec.ofNat 32 cad)

def probe (c : Controller) : Prog (Controller × Codec) := do
  let f ← (List.range 4).foldlM (scan c.codecMask) ⟨none, none⟩
  match f.realtek.or f.fallback with
  | none => .fail .noCodec
  | some (cad, codec) => pure ({ c with cad := cad }, codec)

def checkWidget (c : Controller) (nid : U32) (expected : List U32) (label : String) :
    Prog Unit := do
  let caps ← cmd c.cad nid verbParam acParAudioWidgetCap
  let t := (caps >>> 20) &&& 0xf#32
  if t ∈ expected then pure () else .fail (.notWidget label nid t expected)

/-- What `init_playback` does to a converter, a mux and a pin. -/
def initDac (c : Controller) (nid : U32) (fmt : U16) (streamTag : U32) : Prog Unit := do
  setPower c nid acPwrstD0
  let _ ← cmd c.cad nid verbSetChannelStreamid (streamTag <<< 4)
  let _ ← cmd c.cad nid verbSetStreamFormat (fmt.setWidth 32)
  setOutputAmp c nid defaultGain false

def initMux (c : Controller) (nid conn : U32) : Prog Unit := do
  setPower c nid acPwrstD0
  let _ ← cmd c.cad nid verbSetConnectSel conn
  setInputAmp c nid conn 0#32 false

def initPin (c : Controller) (nid control : U32) : Prog Unit := do
  setPower c nid acPwrstD0
  let _ ← cmd c.cad nid verbSetPinWidgetControl control
  let _ ← cmd c.cad nid verbSetEapdBtlenable acEapd
  setOutputAmp c nid 0#32 false

def checkNodes (c : Controller) : Prog Unit := do
  checkWidget c nidDacSpk [acWidAudOut] "DAC_SPK"
  checkWidget c nidDacHp [acWidAudOut] "DAC_HP"
  checkWidget c nidMuxSpk [acWidAudMix, acWidAudSel] "MUX_SPK"
  checkWidget c nidMuxHp [acWidAudMix, acWidAudSel] "MUX_HP"
  checkWidget c nidPinSpk [acWidPin] "PIN_SPK"
  checkWidget c nidPinHp [acWidPin] "PIN_HP"

def initPlayback (c : Controller) (fmt : U16) (streamTag : U32) : Prog Unit := do
  setPower c nidAfg acPwrstD0
  checkNodes c
  initDac c nidDacSpk fmt streamTag
  initMux c nidMuxSpk 0x00#32
  initPin c nidPinSpk acPinOut
  initDac c nidDacHp fmt streamTag
  initMux c nidMuxHp 0x01#32
  initPin c nidPinHp (acPinOut ||| acPinHp)

def setMute (c : Controller) (mute : Bool) : Prog Unit := do
  setOutputAmp c nidDacSpk defaultGain mute
  setOutputAmp c nidDacHp defaultGain mute

def headphonePresent (c : Controller) : Prog Bool := do
  let sense ← cmd c.cad nidPinHp verbGetPinSense 0#32
  pure (sense &&& acPinsensePresence != 0#32)

/-- The text of the error follows in brackets. -/
def outputPath (c : Controller) : Prog String := do
  match ← (headphonePresent c).attempt with
  | .ok true => pure "headphone"
  | .ok false => pure "speakers"
  | .error _ => pure "unknown"

/-! ### The dumps -/

def dumpNode (c : Controller) (nid : U32) : Prog Unit := do
  let _ ← cmd c.cad nid verbGetChannelStreamid 0#32
  let _ ← cmd c.cad nid verbGetStreamFormat 0#32
  let _ ← cmd c.cad nid verbGetConnectSel 0#32
  let _ ← cmd c.cad nid verbGetPowerState 0#32
  let _ ← cmd c.cad nid verbGetPinWidgetControl 0#32
  let _ ← cmd c.cad nid verbGetEapdBtlenable 0#32
  let _ ← cmd c.cad nid verbGetAmpGainMute (acAmpGetOutput ||| acAmpGetLeft)
  pure ()

def dumpState (c : Controller) : Prog Unit :=
  [nidDacSpk, nidDacHp, nidMuxSpk, nidMuxHp, nidPinSpk, nidPinHp].foldlM
    (fun _ nid => dumpNode c nid) ()

def dumpWidget (c : Controller) (nid : U32) : Prog Unit := do
  match ← (cmd c.cad nid verbParam acParAudioWidgetCap).attempt with
  | .error _ => pure ()
  | .ok caps =>
    if caps ≠ 0#32 ∧ caps ≠ 0xffffffff#32 then do
      let _ ← unwrapOr (cmd c.cad nid verbParam acParStreamFormats) 0#32
      if (caps >>> 20) &&& 0xf#32 = acWidPin then do
        let _ ← unwrapOr (cmd c.cad nid verbParam acParPinCap) 0#32
        let _ ← unwrapOr (cmd c.cad nid verbGetPinWidgetControl 0#32) 0#32
        let _ ← unwrapOr (cmd c.cad nid verbGetPinSense 0#32) 0#32
        pure ()
      else pure ()
      if caps &&& (1#32 <<< 6) ≠ 0#32 then do
        let _ ← unwrapOr (cmd c.cad nid verbParam acParConnlistLen) 0#32
        let _ ← unwrapOr (cmd c.cad nid verbGetConnectSel 0#32) 0xffff#32
        let _ ← unwrapOr (cmd c.cad nid verbGetConnectList 0#32) 0#32
        pure ()
      else pure ()
    else pure ()

def dumpTopology (c : Controller) : Prog Unit :=
  (List.range' 1 0x20).foldlM (fun _ nid => dumpWidget c (BitVec.ofNat 32 nid)) ()

end Codec

/-! ### What a codec makes of a verb -/

structure Amp where
  gain : BitVec 7
  mute : Bool
  deriving DecidableEq

/-- The settings of a node. An amp has a left (`true`) and a right channel, an input amp
one pair for each connection. -/
structure Node where
  power : U8
  channelStream : U8
  format : U16
  connection : U8
  pinControl : U8
  eapd : U8
  outAmp : Bool → Amp
  inAmp : BitVec 4 → Bool → Amp

def Node.reset : Node := ⟨0#8, 0#8, 0#16, 0#8, 0#8, 0#8, fun _ => ⟨0#7, false⟩,
  fun _ _ => ⟨0#7, false⟩⟩

/-- The sixteen bits of a set amp verb: output, input, left, right, index, mute, gain. -/
def Node.setAmp (n : Node) (v : U16) : Node :=
  let amp : Amp := ⟨v.extractLsb' 0 7, v.getLsbD 7⟩
  let chosen (left : Bool) : Bool := if left then v.getLsbD 13 else v.getLsbD 12
  { n with
    outAmp := fun left => if v.getLsbD 15 && chosen left then amp else n.outAmp left
    inAmp := fun i left =>
      if v.getLsbD 14 && (i == v.extractLsb' 8 4) && chosen left then amp else n.inAmp i left }

/-- A verb of the seventh group, by the rest of its id. -/
def Node.set (n : Node) (id v : U8) : Node :=
  if id = 0x01#8 then { n with connection := v }
  else if id = 0x05#8 then { n with power := v }
  else if id = 0x06#8 then { n with channelStream := v }
  else if id = 0x07#8 then { n with pinControl := v }
  else if id = 0x0c#8 then { n with eapd := v }
  else n

/-- Verbs 2 and 3 carry sixteen bits, those of the seventh group eight; the others set
nothing. -/
def Node.exec (n : Node) (word : U32) : Node :=
  let group : BitVec 4 := word.extractLsb' 16 4
  if group = 0x2#4 then { n with format := word.extractLsb' 0 16 }
  else if group = 0x3#4 then n.setAmp (word.extractLsb' 0 16)
  else if group = 0x7#4 then n.set (word.extractLsb' 8 8) (word.extractLsb' 0 8)
  else n

/-- The nodes on the link, by codec address and node id. -/
abbrev Link := BitVec 4 → U8 → Node

def wordCad (word : U32) : BitVec 4 := word.extractLsb' 28 4

def wordNid (word : U32) : U8 := word.extractLsb' 20 8

def Link.change (l : Link) (cad : BitVec 4) (nid : U8) (f : Node → Node) : Link := fun c n =>
  if c = cad ∧ n = nid then f (l c n) else l c n

def Link.exec (l : Link) (word : U32) : Link :=
  l.change (wordCad word) (wordNid word) (·.exec word)

/-- What one answered question leaves of the link. -/
def Link.next (l : Link) : (o : Op) → o.Ans → Link
  | .verb word, r => if r.executed then l.exec word else l
  | _, _ => l

/-- The link after everything the codecs have executed. -/
def Link.after (l : Link) (h : History) : Link := h.foldl (fun l e => l.next e.1 e.2) l

end Audiod.Driver
