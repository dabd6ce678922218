import Audiod.Footprint

/-!
# Before a session writes (`hda/src/controller.rs:115-150`, `codec.rs:181-250`)

Nothing of the device is changed before it has shown a vendor, and nothing behind its
BAR before it has shown the streams of an HDA controller. No node of the codec but the
function group is set before the six nodes of the hard-coded map are of the widgets the
code expects.
-/

namespace Audiod.Driver

open Dialogue
open Corb (makeVerb)

/-! ### The device is what it should be -/

/-- Writes to the configuration file. -/
def Op.Configures : Op → Prop
  | .configWriteU8 _ _ | .configWriteU16 _ _ => True
  | _ => False

/-- Writes to the registers, and verbs. -/
def Op.Drives : Op → Prop
  | .writeU8 _ _ | .writeU16 _ _ | .writeU32 _ _ | .verb _ => True
  | _ => False

def VendorShown (e : Sigma Op.Ans) : Prop :=
  ∃ v ≠ 0#16, e = ⟨.configReadU16 pciVendorOff, .ok v⟩

def StreamsShown (e : Sigma Op.Ans) : Prop :=
  ∃ v, v &&& gcapStreams ≠ 0#16 ∧ e = ⟨.readU16 gcapReg, v⟩

def identified : Monitor Op.Ans History := Monitor.recording fun h o =>
  (o.Configures → Seen VendorShown h) ∧ (o.Drives → Seen VendorShown h ∧ Seen StreamsShown h)

theorem ensures_vendor {p : Prog α} (hp : p.Asks fun o => ¬ o.Drives) {h : History}
    (hv : Seen VendorShown h) :
    Ensures identified p h (OnOk fun _ h' => Seen VendorShown h') := by
  have hall := hp.ensures (m := identified) (I := Seen VendorShown)
    (fun _ _ ho hs => ⟨fun _ => hs, fun hd => (ho hd).elim⟩) (fun _ _ _ _ hs _ => hs.snoc _) hv
  exact hall.mono fun _ _ h _ _ => h

def Shown (h : History) : Prop := Seen VendorShown h ∧ Seen StreamsShown h

theorem ensures_shown (p : Prog α) {h : History} (hs : Shown h) :
    Ensures identified p h (OnOk fun _ => Shown) := by
  have hall := (asks_true p).ensures (m := identified) (I := Shown)
    (fun _ _ _ hs => ⟨fun _ => hs.1, fun _ => hs⟩)
    (fun _ _ _ _ hs _ => ⟨hs.1.snoc _, hs.2.snoc _⟩) hs
  exact hall.mono fun _ _ h _ _ => h

/- Reading the configuration file is allowed from the start. -/
theorem may_read {h : History} {o : Op} (hc : ¬ o.Configures) (hd : ¬ o.Drives) :
    identified.may h o := ⟨fun h => (hc h).elim, fun h => (hd h).elim⟩

theorem vendorDevice_shows (h : History) : Ensures identified vendorDevice h
    (OnOk fun ids h' => ids.1 ≠ 0#16 → Seen VendorShown h') := by
  refine ⟨may_read id id, fun r _ => ?_⟩
  cases r with
  | error e => exact onOk_error
  | ok u =>
    refine ⟨may_read id id, fun r _ => ?_⟩
    cases r with
    | error e => exact onOk_error
    | ok vendor =>
      refine ⟨may_read id id, fun r _ => ?_⟩
      cases r with
      | error e => exact onOk_error
      | ok device => exact onOk_ok.mpr fun hv => (seen_last ⟨vendor, hv, rfl⟩ _).snoc _

theorem Controller.open_identified (opts : DebugOpts) (h : History) :
    Ensures identified (Controller.open opts) h (OnOk fun _ => Shown) := by
  have hconfig : ∀ {o : Op}, o.Config → ¬ o.Drives := by
    intro o hc hd
    cases o <;> first | exact hc.elim | exact hd.elim
  have hkeep : ∀ {α : Type} {p : Prog α} {h : History}, p.Asks Op.Config → Seen VendorShown h →
      Ensures identified p h (OnOk fun _ h' => Seen VendorShown h') := fun hp hv =>
    ensures_vendor (hp.mono fun _ => hconfig) hv
  have hmap : Ensures identified (withContext "map BAR0" (.ask .mapBar ofExcept)) h
      (OnOk fun _ _ => True) := by
    refine ensures_withContext ⟨may_read id id, fun r _ => ?_⟩
    cases r <;> exact fun _ _ => trivial
  refine hmap.seqOk fun _ h _ => ?_
  refine (ensures_unwrapOr (vendorDevice_shows h) fun h' hv => (hv rfl).elim).seqOk
    fun ids h hids => ?_
  split
  · exact onOk_error
  · rename_i hv
    refine (ensures_withContext (hkeep setSnoop_asks (hids hv))).seqOk fun _ h hs => ?_
    refine (ensures_withContext (hkeep setMaster_asks hs)).seqOk fun _ h hs => ?_
    refine ⟨may_read id id, fun gcap _ => ?_⟩
    change Ensures identified (if _ then .fail _ else start opts gcap)
      (h ++ [⟨.readU16 gcapReg, gcap⟩]) _
    split
    · exact onOk_error
    · rename_i hg
      exact ensures_shown _ ⟨hs.snoc _, seen_last ⟨gcap, hg, rfl⟩ _⟩

namespace HdaPlayback

/-- The configuration file is only written once a vendor was read in it, and registers
and codecs only once GCAP has shown streams. -/
theorem session_identified (env : Env) (opts : DebugOpts) (rate : ℕ) (calls : List Call) :
    After (fun o => o.Configures ∨ o.Drives) VendorShown (history env opts rate calls) ∧
      After Op.Drives StreamsShown (history env opts rate calls) := by
  have hbring : Ensures identified (bringUp opts rate) [] (OnOk fun _ => Shown) :=
    (Controller.open_identified opts []).seqOk fun c h hs => ensures_shown _ hs
  have hopen : Ensures identified («open» opts rate) [] (OnOk fun _ => Shown) :=
    hbring.seqOk fun c h hs => ensures_shown _ hs
  have hsession : Ensures identified (session opts rate calls) [] (OnOk fun _ => Shown) :=
    hopen.seqOk fun pb h hs => ensures_shown _ hs
  have hmay := (hsession.record env).1
  refine ⟨fun pre e post heq he => ?_, fun pre e post heq he => ?_⟩
  · exact he.elim (hmay pre e post heq).1 fun hd => ((hmay pre e post heq).2 hd).1
  · exact ((hmay pre e post heq).2 he).2

end HdaPlayback

/-! ### The codec is what it should be -/

/-- The hard-coded nodes, with the widgets expected of them. -/
def nodeMap : List (U32 × List U32) :=
  [(nidDacSpk, [acWidAudOut]), (nidDacHp, [acWidAudOut]),
    (nidMuxSpk, [acWidAudMix, acWidAudSel]), (nidMuxHp, [acWidAudMix, acWidAudSel]),
    (nidPinSpk, [acWidPin]), (nidPinHp, [acWidPin])]

/-- The node has answered that it is a widget of the expected type. -/
def WidgetShown (cad : BitVec 4) (w : U32 × List U32) (e : Sigma Op.Ans) : Prop :=
  ∃ c caps : U32, low4 c = cad ∧ (caps >>> 20) &&& 0xf#32 ∈ w.2 ∧
    e = ⟨.verb (makeVerb c w.1 verbParam acParAudioWidgetCap), .response caps⟩

/-- A verb that sets a node other than the function group. -/
def Op.SetsWidget (cad : BitVec 4) : Op → Prop
  | .verb word => wordCad word = cad ∧ wordNid word ≠ low8 nidAfg ∧ ∃ n : Node, n.exec word ≠ n
  | _ => False

def WidgetsShown (cad : BitVec 4) (ws : List (U32 × List U32)) (h : History) : Prop :=
  ∀ w ∈ ws, Seen (WidgetShown cad w) h

theorem WidgetsShown.snoc {cad : BitVec 4} {ws : List (U32 × List U32)} {h : History}
    (hs : WidgetsShown cad ws h) (e : Sigma Op.Ans) : WidgetsShown cad ws (h ++ [e]) :=
  fun w hw => (hs w hw).snoc e

def checked (cad : BitVec 4) : Monitor Op.Ans History := Monitor.recording fun h o =>
  o.SetsWidget cad → WidgetsShown cad nodeMap h

theorem Op.Gets.not_sets {o : Op} (h : o.Gets) (cad : BitVec 4) : ¬ o.SetsWidget cad := by
  intro hs
  cases o with
  | verb word => exact hs.2.2.elim fun n hn => hn (h n)
  | _ => exact hs

theorem not_global_verb {word : U32} : ¬ (Op.verb word).Global := by
  rintro (h | h)
  · exact h
  · cases h

theorem not_sd_verb {base : ℕ} {word : U32} : ¬ (Op.verb word).Sd base := by
  rintro (h | h)
  · exact h
  · cases h

theorem Op.Streams.not_sets {c : Controller} {o : Op} (h : o.Streams c) (cad : BitVec 4) :
    ¬ o.SetsWidget cad := by
  cases o with
  | verb word => exact (h.elim not_sd_verb not_global_verb).elim
  | _ => exact id

theorem Op.Passive.not_sets {o : Op} (h : o.Passive) (cad : BitVec 4) : ¬ o.SetsWidget cad := by
  rcases h with rfl | h | h | h | ⟨c, h⟩
  · exact id
  · cases o <;> first | exact h.elim | exact id
  · cases o with
    | verb word => exact (h.elim id not_global_verb).elim
    | _ => exact id
  · exact h.not_sets cad
  · exact h.not_sets cad

section

variable {cad : BitVec 4} {h : History} {c : Controller}

/- What sets no widget is allowed, and nothing that was shown is lost. -/
theorem ensures_unset {p : Prog α} (hp : p.Asks fun o => ¬ o.SetsWidget cad) {I : History → Prop}
    (hI : I h) (hsnoc : ∀ h e, I h → I (h ++ [e])) :
    Ensures (checked cad) p h fun _ => I :=
  hp.ensures (m := checked cad) (fun _ _ hn _ hs => (hn hs).elim)
    (fun h o x _ hi _ => hsnoc h ⟨o, x⟩ hi) hI

/- Everything is, once the widgets of the codec in use are shown. -/
theorem ensures_checked {p : Prog α}
    (hp : p.Asks fun o => ¬ o.SetsWidget cad ∨ o.VerbTo c.cad)
    (hs : low4 c.cad = cad → WidgetsShown cad nodeMap h) :
    Ensures (checked cad) p h fun _ h' => low4 c.cad = cad → WidgetsShown cad nodeMap h' := by
  refine hp.ensures (m := checked cad)
    (I := fun h => low4 c.cad = cad → WidgetsShown cad nodeMap h) ?_
    (fun h o x _ hi _ hc => (hi hc).snoc ⟨o, x⟩) hs
  rintro h o (hn | hv) hi hsets
  · exact (hn hsets).elim
  · cases o with
    | verb word => exact hi (hv.symm.trans hsets.1)
    | _ => exact hv.elim

theorem checkWidget_shows {ws : List (U32 × List U32)} (w : U32 × List U32) (label : String)
    (hs : WidgetsShown (low4 c.cad) ws h) :
    Ensures (checked cad) (Codec.checkWidget c w.1 w.2 label) h
      (OnOk fun _ h' => WidgetsShown (low4 c.cad) (w :: ws) h') := by
  have hgets : (Op.verb (makeVerb c.cad w.1 verbParam acParAudioWidgetCap)).Gets :=
    gets_verb (by decide)
  refine ⟨fun hsets => (hgets.not_sets cad hsets).elim, fun r _ => ?_⟩
  cases r with
  | error e executed => exact onOk_error
  | response caps =>
    change Ensures (checked cad) (if _ then pure () else .fail _) (h ++ [⟨.verb _, _⟩]) _
    split
    · rename_i htype
      refine onOk_ok.mpr (List.forall_mem_cons.mpr ⟨?_, hs.snoc _⟩)
      exact seen_last ⟨c.cad, caps, rfl, htype, rfl⟩ h
    · exact onOk_error

theorem checkNodes_shows : Ensures (checked cad) (Codec.checkNodes c) h
    (OnOk fun _ h' => WidgetsShown (low4 c.cad) nodeMap h') := by
  refine (@checkWidget_shows _ _ _ [] (nidDacSpk, _) _ (by simp [WidgetsShown])).seqOk
    fun _ h hs => ?_
  refine (checkWidget_shows (nidDacHp, _) _ hs).seqOk fun _ h hs => ?_
  refine (checkWidget_shows (nidMuxSpk, _) _ hs).seqOk fun _ h hs => ?_
  refine (checkWidget_shows (nidMuxHp, _) _ hs).seqOk fun _ h hs => ?_
  refine (checkWidget_shows (nidPinSpk, _) _ hs).seqOk fun _ h hs => ?_
  refine (checkWidget_shows (nidPinHp, _) _ hs).mono fun r h hs => ?_
  intro u hu w hw
  have hmem : w ∈ nodeMap.reverse := List.mem_reverse.mpr hw
  exact hs u hu w hmem

theorem initPlayback_checks (fmt : U16) (tag : U32) :
    Ensures (checked cad) (Codec.initPlayback c fmt tag) h
      (OnOk fun _ h' => low4 c.cad = cad → WidgetsShown cad nodeMap h') := by
  have hpower : (setPower c nidAfg acPwrstD0).Asks fun o => ¬ o.SetsWidget cad := by
    have hafg : ¬ (Op.verb (makeVerb c.cad nidAfg verbSetPowerState acPwrstD0)).SetsWidget cad :=
      fun hs => hs.2.1 (wordNid_makeVerb _ _ _ _)
    simp [setPower, hafg]
  refine (ensures_unset hpower (I := fun _ => True) trivial fun _ _ => id).onOk.seqOk
    fun _ h _ => ?_
  refine checkNodes_shows.seqOk fun _ h hs => ?_
  have hrest : ∀ {p : Prog Unit}, p.Asks (Op.VerbTo c.cad) → p.Asks fun o =>
      ¬ o.SetsWidget cad ∨ o.VerbTo c.cad := fun hp => hp.mono fun _ => .inr
  refine (ensures_checked (asks_bind.mpr ⟨hrest (Codec.initDac_asks _ _), fun _ _ => ?_⟩)
    fun hc => hc ▸ hs).onOk
  simp [hrest (Codec.initMux_asks _), hrest (Codec.initPin_asks _), hrest (Codec.initDac_asks _ _)]

end

namespace HdaPlayback

variable {cad : BitVec 4} {h : History} {pb : HdaPlayback}

theorem call_checks (k : Call) (hs : low4 pb.controller.cad = cad → WidgetsShown cad nodeMap h) :
    Ensures (checked cad) (call pb k) h fun _ h' =>
      low4 pb.controller.cad = cad → WidgetsShown cad nodeMap h' :=
  ensures_checked ((call_asks pb k).mono fun _ ho => ho.elim (fun ho => .inl (ho.not_sets cad))
    fun ho => ho.elim .inr fun ho => .inl (ho.not_sets cad)) hs

theorem open_checks {opts : DebugOpts} (hskip : opts.skipCodecInit = false) (rate : ℕ) :
    Ensures (checked cad) («open» opts rate) h (OnOk fun pb h' =>
      low4 pb.controller.cad = cad → WidgetsShown cad nodeMap h') := by
  have hpassive : ∀ {α : Type} {p : Prog α}, p.Asks Op.Passive →
      p.Asks fun o => ¬ o.SetsWidget cad := fun hp => hp.mono fun _ ho => ho.not_sets cad
  have hbring := ensures_unset (h := h) (hpassive (bringUp_asks opts rate)) (I := fun _ => True)
    trivial fun _ _ => id
  refine hbring.onOk.seqOk fun p h _ => ?_
  have hdump := (hpassive (passive_of_gets (Codec.dumpState_asks p.1))).mono (ψ := fun o =>
    ¬ o.SetsWidget cad ∨ o.VerbTo p.1.cad) fun _ => .inl
  have hinit : Ensures (checked cad) (initCodec opts rate p.1) h
      (OnOk fun _ h' => low4 p.1.cad = cad → WidgetsShown cad nodeMap h') := by
    simp only [initCodec, hskip, Bool.false_eq_true, if_false]
    refine (initPlayback_checks _ _).seqOk fun _ h hs => ?_
    exact (ensures_checked (by simp [hdump]) hs).onOk
  exact hinit.seqOk fun _ h hs => onOk_ok.mpr hs

/-- No node but the function group is set before the whole map is checked, in a session
that does not skip the codec. -/
theorem session_checks (env : Env) (opts : DebugOpts) (rate : ℕ) (calls : List Call)
    (hskip : opts.skipCodecInit = false) (cad : BitVec 4) :
    ∀ w ∈ nodeMap, After (Op.SetsWidget cad) (WidgetShown cad w) (history env opts rate calls) := by
  have hcalls : ∀ (pb : HdaPlayback) (h : History),
      (low4 pb.controller.cad = cad → WidgetsShown cad nodeMap h) →
      Ensures (checked cad) (calls.foldlM call pb) h fun _ _ => True := fun pb h hs => by
    have hfold := Ensures.foldlM (m := checked cad) (f := call) (l := calls)
      (I := fun h => low4 pb.controller.cad = cad → WidgetsShown cad nodeMap h)
      (P := fun pb' _ => Same pb pb') (fun pb' k h _ hi hsame => ?_) hs (Same.refl pb)
    · exact hfold.mono fun _ _ _ => trivial
    · rw [← hsame.controller] at hi
      refine (call_checks k hi).yields.mono fun r h' hr => ?_
      rw [hsame.controller] at hr
      exact ⟨hr.1, fun pb'' heq => hsame.trans (call_yields (hr.2 pb'' heq))⟩
  have hsession : Ensures (checked cad) (session opts rate calls) [] (OnOk fun _ _ => True) :=
    (open_checks hskip rate).seqOk fun pb h hs => (hcalls pb h hs).onOk
  have hmay := (hsession.record env).1
  exact fun w hw pre e post heq he => hmay pre e post heq he w hw

theorem session_checks_plain : After (Op.SetsWidget 0x0#4)
    (WidgetShown 0x0#4 (nidPinHp, [acWidPin]))
    (history (fun _ o => o.typical) .plain 48000 [.setMute true]) :=
  session_checks (fun _ o => o.typical) .plain 48000 [.setMute true] rfl 0x0#4
    (nidPinHp, [acWidPin]) (by simp [nodeMap])

end HdaPlayback

end Audiod.Driver
