import Audiod.CodecVerbs
import Mathlib.Tactic.IntervalCases

/-!
# The playback path in the codec (`hda/src/codec.rs`)

What the programs of `Codec` leave of the nodes on the link. A verb reaches one node and
one setting, read off the bits of its word; `init_playback` comes to `playbackPath`, and
what only looks leaves the link as it was.
-/

namespace Audiod.Driver

open Dialogue
open Corb (makeVerb)

/-! ### The bits of a command word -/

section

variable (cad nid verb payload : U32)

theorem wordCad_makeVerb : wordCad (makeVerb cad nid verb payload) = cad.extractLsb' 0 4 := by
  apply BitVec.eq_of_getLsbD_eq
  intro i hi
  interval_cases i <;> simp [wordCad, makeVerb]

theorem wordNid_makeVerb : wordNid (makeVerb cad nid verb payload) = nid.extractLsb' 0 8 := by
  apply BitVec.eq_of_getLsbD_eq
  intro i hi
  interval_cases i <;> simp [wordNid, makeVerb]

/- The group of the verb is not in the reach of the payload. -/
theorem group_makeVerb :
    (makeVerb cad nid verb payload).extractLsb' 16 4 = verb.extractLsb' 8 4 := by
  apply BitVec.eq_of_getLsbD_eq
  intro i hi
  interval_cases i <;> simp [makeVerb]

/- The rest of its id is, where the payload has more than eight bits. -/
theorem id_makeVerb : (makeVerb cad nid verb payload).extractLsb' 8 8 =
    verb.extractLsb' 0 8 ||| payload.extractLsb' 8 8 := by
  apply BitVec.eq_of_getLsbD_eq
  intro i hi
  interval_cases i <;> simp [makeVerb]

theorem value_makeVerb :
    (makeVerb cad nid verb payload).extractLsb' 0 8 = payload.extractLsb' 0 8 := by
  apply BitVec.eq_of_getLsbD_eq
  intro i hi
  interval_cases i <;> simp [makeVerb]

theorem wide_makeVerb (h : verb.extractLsb' 0 8 = 0#8) :
    (makeVerb cad nid verb payload).extractLsb' 0 16 = payload.extractLsb' 0 16 := by
  have hbit : ∀ i < 8, verb.getLsbD i = false := by
    intro i hi
    have := congrArg (·.getLsbD i) h
    simpa [hi] using this
  apply BitVec.eq_of_getLsbD_eq
  intro i hi
  interval_cases i <;> simp [makeVerb, -BitVec.getLsbD_eq_getElem, hbit]

end

/-! ### What one verb does to its node -/

theorem exec_other (n : Node) (cad nid : U32) {verb payload : U32}
    (h : verb.extractLsb' 8 4 ≠ 0x2#4 ∧ verb.extractLsb' 8 4 ≠ 0x3#4 ∧
      verb.extractLsb' 8 4 ≠ 0x7#4) : n.exec (makeVerb cad nid verb payload) = n := by
  simp [Node.exec, group_makeVerb, h]

theorem exec_set (n : Node) (cad nid : U32) {v p : U32}
    (hg : v.extractLsb' 8 4 = 0x7#4) (hp : p.extractLsb' 8 8 = 0#8) :
    n.exec (makeVerb cad nid v p) = n.set (v.extractLsb' 0 8) (p.extractLsb' 0 8) := by
  simp [Node.exec, group_makeVerb, id_makeVerb, value_makeVerb, hg, hp]

theorem exec_format (n : Node) (cad nid : U32) (fmt : U16) :
    n.exec (makeVerb cad nid verbSetStreamFormat (fmt.setWidth 32)) = { n with format := fmt } := by
  have hgroup : verbSetStreamFormat.extractLsb' 8 4 = 0x2#4 := by decide
  have hlow : verbSetStreamFormat.extractLsb' 0 8 = 0#8 := by decide
  have hfmt : (fmt.setWidth 32).extractLsb' 0 16 = fmt := by
    apply BitVec.eq_of_getLsbD_eq
    intro i hi
    simp [hi]
    omega
  simp [Node.exec, group_makeVerb, hgroup, wide_makeVerb _ _ _ _ hlow, hfmt]

theorem exec_amp (n : Node) (cad nid payload : U32) :
    n.exec (makeVerb cad nid verbSetAmpGainMute payload) = n.setAmp (payload.extractLsb' 0 16) := by
  have hgroup : verbSetAmpGainMute.extractLsb' 8 4 = 0x3#4 := by decide
  have hlow : verbSetAmpGainMute.extractLsb' 0 8 = 0#8 := by decide
  simp [Node.exec, group_makeVerb, hgroup, wide_makeVerb _ _ _ _ hlow]

/-! ### The nodes of the path -/

def powerOn (n : Node) : Node := { n with power := 0x00#8 }

/-- The output amp, both channels, at a gain. -/
def ampOut (gain : BitVec 7) (mute : Bool) (n : Node) : Node :=
  { n with outAmp := fun _ => ⟨gain, mute⟩ }

def dacOn (fmt : U16) (tag : U8) (n : Node) : Node :=
  ampOut 0x44#7 false { powerOn n with channelStream := tag <<< 4, format := fmt }

/-- Its input amps stay as they are: the word of `set_input_amp` selects neither amp. -/
def muxOn (conn : U8) (n : Node) : Node := { powerOn n with connection := conn }

def pinOn (control : U8) (n : Node) : Node :=
  ampOut 0x00#7 false { powerOn n with pinControl := control, eapd := 0x02#8 }

/-- The link with both paths of the codec `cad` on. -/
def Link.playbackPath (l : Link) (cad : BitVec 4) (fmt : U16) (tag : U8) : Link :=
  let l := l.change cad 0x01#8 powerOn
  let l := l.change cad 0x02#8 (dacOn fmt tag)
  let l := l.change cad 0x0c#8 (muxOn 0x00#8)
  let l := l.change cad 0x14#8 (pinOn 0x40#8)
  let l := l.change cad 0x03#8 (dacOn fmt tag)
  let l := l.change cad 0x0d#8 (muxOn 0x01#8)
  l.change cad 0x15#8 (pinOn 0xc0#8)

theorem change_change (l : Link) (cad : BitVec 4) (nid : U8) (f g : Node → Node) :
    (l.change cad nid f).change cad nid g = l.change cad nid fun n => g (f n) := by
  funext c n
  unfold Link.change
  split <;> rfl

theorem change_self (l : Link) (cad : BitVec 4) (nid : U8) : l.change cad nid (fun n => n) = l := by
  funext c n
  exact ite_self _

/-! ### What the programs leave -/

/-- Follows what the codecs execute. -/
def watch : Monitor Op.Ans Link := Monitor.follow Link.next

/-- Unless it fails, `p` leaves the link as `f` makes it. -/
def Leaves {α : Type} (p : Prog α) (f : Link → Link) : Prop :=
  ∀ l, Ensures watch p l (OnOk fun _ l' => l' = f l)

def low4 (cad : U32) : BitVec 4 := cad.extractLsb' 0 4

def low8 (nid : U32) : U8 := nid.extractLsb' 0 8

/-- Unless it fails, `p` changes the node by `f`, and nothing else. -/
def Sets {α : Type} (p : Prog α) (cad nid : U32) (f : Node → Node) : Prop :=
  Leaves p fun l => l.change (low4 cad) (low8 nid) f

theorem Leaves.seq {p : Prog α} {q : α → Prog β} {f g : Link → Link} (hp : Leaves p f)
    (hq : ∀ a, Leaves (q a) g) : Leaves (p >>= q) (g ∘ f) := by
  intro l
  refine (hp l).seqOk fun a l' hl' => ?_
  subst hl'
  exact hq a (f l)

theorem Leaves.nothing {a : α} : Leaves (pure a) id := fun _ => onOk_ok.mpr rfl

theorem Sets.seq {p : Prog α} {q : α → Prog β} {cad nid : U32} {f g : Node → Node}
    (hp : Sets p cad nid f) (hq : ∀ a, Sets (q a) cad nid g) : Sets (p >>= q) cad nid (g ∘ f) := by
  intro l
  have h := Leaves.seq hp hq l
  simp only [Function.comp_def, change_change] at h
  exact h

theorem Sets.andPure {p : Prog α} {cad nid : U32} {f : Node → Node} (hp : Sets p cad nid f)
    (b : β) : Sets (p >>= fun _ => pure b) cad nid f :=
  Leaves.seq hp fun _ => Leaves.nothing

theorem exec_makeVerb (l : Link) (cad nid verb payload : U32) :
    l.exec (makeVerb cad nid verb payload) =
      l.change (low4 cad) (low8 nid) (·.exec (makeVerb cad nid verb payload)) := by
  rw [Link.exec, wordCad_makeVerb, wordNid_makeVerb, low4, low8]

theorem cmd_sets {cad nid verb payload : U32} {f : Node → Node}
    (hf : ∀ n : Node, n.exec (makeVerb cad nid verb payload) = f n) :
    Sets (cmd cad nid verb payload) cad nid f := by
  refine fun l => ⟨trivial, fun r _ => ?_⟩
  cases r with
  | response r =>
    refine onOk_ok.mpr ?_
    change l.exec _ = _
    rw [exec_makeVerb, funext hf]
  | error e executed => exact onOk_error

theorem cmd_looks {i n v p : U32} (h : v.extractLsb' 8 4 ≠ 0x2#4 ∧
    v.extractLsb' 8 4 ≠ 0x3#4 ∧ v.extractLsb' 8 4 ≠ 0x7#4) (l : Link) :
    l.exec (makeVerb i n v p) = l := by
  rw [exec_makeVerb]
  simp only [exec_other _ i n h, change_self]

section

variable {c : Controller} {nid : U32}

theorem setPower_sets : Sets (setPower c nid acPwrstD0) c.cad nid powerOn :=
  (cmd_sets fun n => exec_set n c.cad nid (by decide) (by decide)).andPure ()

theorem setAmp_outputAmp {gain : U32} {g : BitVec 7} (hg : gain.extractLsb' 0 7 = g) (mute : Bool)
    (n : Node) : n.setAmp ((outputAmp gain mute).extractLsb' 0 16) = ampOut g mute n := by
  have hgain : ((outputAmp gain mute).extractLsb' 0 16).extractLsb' 0 7 = g := by
    rw [← hg]
    apply BitVec.eq_of_getLsbD_eq
    intro i hi
    cases mute <;> interval_cases i <;>
      simp [outputAmp, muteBit, acAmpOutput, acAmpLeft, acAmpRight, acAmpMute]
  have hmute : ((outputAmp gain mute).extractLsb' 0 16).getLsbD 7 = mute := by
    cases mute <;> simp [outputAmp, muteBit, acAmpOutput, acAmpLeft, acAmpRight, acAmpMute]
  have hin : ((outputAmp gain mute).extractLsb' 0 16).getLsbD 14 = false := by
    cases mute <;> simp [outputAmp, muteBit, acAmpOutput, acAmpLeft, acAmpRight, acAmpMute]
  have hout : ((outputAmp gain mute).extractLsb' 0 16).getLsbD 15 = true ∧
      ((outputAmp gain mute).extractLsb' 0 16).getLsbD 13 = true ∧
      ((outputAmp gain mute).extractLsb' 0 16).getLsbD 12 = true := by
    cases mute <;> simp [outputAmp, muteBit, acAmpOutput, acAmpLeft, acAmpRight, acAmpMute]
  simp only [Node.setAmp, hgain, hmute, hin, hout, Bool.false_and, ite_self, Bool.and_self, if_true,
    Bool.false_eq_true, if_false]
  rfl

theorem setOutputAmp_sets {gain : U32} {g : BitVec 7} (hg : gain.extractLsb' 0 7 = g)
    (mute : Bool) : Sets (setOutputAmp c nid gain mute) c.cad nid (ampOut g mute) := by
  refine Sets.andPure (cmd_sets fun n => ?_) ()
  rw [exec_amp, setAmp_outputAmp hg]

/- The word of `set_input_amp` selects neither amp. -/
theorem setAmp_inputAmp (index gain : U32) (mute : Bool) (n : Node) :
    n.setAmp ((inputAmp index gain mute).extractLsb' 0 16) = n := by
  have hneither : ((inputAmp index gain mute).extractLsb' 0 16).getLsbD 15 = false ∧
      ((inputAmp index gain mute).extractLsb' 0 16).getLsbD 14 = false := by
    cases mute <;> simp [inputAmp, muteBit, acAmpLeft, acAmpRight, acAmpMute, acAmpIndexShift]
  simp only [Node.setAmp, hneither, Bool.false_and, Bool.false_eq_true, if_false]

theorem setInputAmp_sets (index gain : U32) (mute : Bool) :
    Sets (setInputAmp c nid index gain mute) c.cad nid id := by
  refine Sets.andPure (cmd_sets fun n => ?_) ()
  rw [exec_amp, setAmp_inputAmp]
  rfl

namespace Codec

theorem initDac_sets {fmt : U16} {streamTag : U32} (htag : streamTag.toNat < 16) :
    Sets (initDac c nid fmt streamTag) c.cad nid (dacOn fmt (streamTag.setWidth 8)) := by
  have hhigh : (streamTag <<< 4).extractLsb' 8 8 = 0#8 := by
    apply BitVec.eq_of_toNat_eq
    simp [Nat.shiftLeft_eq]
    omega
  have hvalue : (streamTag <<< 4).extractLsb' 0 8 = streamTag.setWidth 8 <<< 4 := by
    apply BitVec.eq_of_getLsbD_eq
    intro i hi
    interval_cases i <;> simp
  have hstream := cmd_sets (f := fun n =>
      { n with channelStream := streamTag.setWidth 8 <<< 4 }) fun n => by
    rw [exec_set n c.cad nid (v := verbSetChannelStreamid) (by decide) hhigh, hvalue]
    rfl
  have hformat := cmd_sets fun n => exec_format n c.cad nid fmt
  have hamp : Sets (setOutputAmp c nid defaultGain false) c.cad nid (ampOut 0x44#7 false) :=
    setOutputAmp_sets (by decide) false
  have hall := setPower_sets.seq fun _ => hstream.seq fun _ => hformat.seq fun _ => hamp
  exact hall

theorem initMux_sets {conn : U32} (hconn : conn.extractLsb' 8 8 = 0#8) :
    Sets (initMux c nid conn) c.cad nid (muxOn (conn.extractLsb' 0 8)) := by
  have hselect := cmd_sets fun n =>
    exec_set n c.cad nid (v := verbSetConnectSel) (by decide) hconn
  have hall := setPower_sets.seq fun _ => hselect.seq fun _ =>
    setInputAmp_sets (c := c) conn 0#32 false
  exact hall

theorem initPin_sets {control : U32} (hcontrol : control.extractLsb' 8 8 = 0#8) :
    Sets (initPin c nid control) c.cad nid (pinOn (control.extractLsb' 0 8)) := by
  have hpin := cmd_sets fun n =>
    exec_set n c.cad nid (v := verbSetPinWidgetControl) (by decide) hcontrol
  have heapd := cmd_sets fun n =>
    exec_set n c.cad nid (v := verbSetEapdBtlenable) (p := acEapd) (by decide) (by decide)
  have hamp : Sets (setOutputAmp c nid 0#32 false) c.cad nid (ampOut 0x00#7 false) :=
    setOutputAmp_sets (by decide) false
  have hall := setPower_sets.seq fun _ => hpin.seq fun _ => heapd.seq fun _ => hamp
  exact hall

theorem checkWidget_leaves (expected : List U32) (label : String) :
    Leaves (checkWidget c nid expected label) id := by
  intro l
  refine ⟨trivial, fun r _ => ?_⟩
  cases r with
  | error e executed => exact onOk_error
  | response r =>
    have hlook := cmd_looks (i := c.cad) (n := nid) (v := verbParam)
      (p := acParAudioWidgetCap) (by decide) l
    change Ensures watch (if _ then pure () else .fail _) (l.exec _) _
    rw [hlook]
    split
    · exact onOk_ok.mpr rfl
    · exact onOk_error

theorem checkNodes_leaves : Leaves (checkNodes c) id := by
  have hcheck : ∀ nid expected label, Leaves (checkWidget c nid expected label) id :=
    fun nid => checkWidget_leaves
  have hall := (hcheck nidDacSpk [acWidAudOut] "DAC_SPK").seq fun _ =>
    (hcheck nidDacHp [acWidAudOut] "DAC_HP").seq fun _ =>
    (hcheck nidMuxSpk [acWidAudMix, acWidAudSel] "MUX_SPK").seq fun _ =>
    (hcheck nidMuxHp [acWidAudMix, acWidAudSel] "MUX_HP").seq fun _ =>
    (hcheck nidPinSpk [acWidPin] "PIN_SPK").seq fun _ => hcheck nidPinHp [acWidPin] "PIN_HP"
  exact hall

theorem initPlayback_leaves {fmt : U16} {streamTag : U32} (htag : streamTag.toNat < 16) :
    Leaves (initPlayback c fmt streamTag) fun l =>
      l.playbackPath (low4 c.cad) fmt (streamTag.setWidth 8) := by
  have hafg : Sets (setPower c nidAfg acPwrstD0) c.cad nidAfg powerOn := setPower_sets
  have hdac : ∀ nid, Sets (initDac c nid fmt streamTag) c.cad nid _ := fun _ => initDac_sets htag
  have hmuxSpk : Sets (initMux c nidMuxSpk 0x00#32) c.cad nidMuxSpk _ := initMux_sets (by decide)
  have hmuxHp : Sets (initMux c nidMuxHp 0x01#32) c.cad nidMuxHp _ := initMux_sets (by decide)
  have hpinSpk : Sets (initPin c nidPinSpk acPinOut) c.cad nidPinSpk _ := initPin_sets (by decide)
  have hpinHp : Sets (initPin c nidPinHp (acPinOut ||| acPinHp)) c.cad nidPinHp _ :=
    initPin_sets (by decide)
  have hhp := Leaves.seq (hdac nidDacHp) fun _ => Leaves.seq hmuxHp fun _ => hpinHp
  have hspk := Leaves.seq (hdac nidDacSpk) fun _ => Leaves.seq hmuxSpk fun _ =>
    Leaves.seq hpinSpk fun _ => hhp
  have hcheck : Leaves (checkNodes c) id := checkNodes_leaves
  have hall := Leaves.seq hafg fun _ => hcheck.seq fun _ => hspk
  exact hall

end Codec

end

end Audiod.Driver
