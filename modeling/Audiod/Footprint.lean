import Audiod.CodecPath
import Audiod.Playback
import Mathlib.Tactic.FinCases

/-!
# What a session asks (`hda/src/lib.rs:40-164`, `mmio.rs:76-88`)

The footprint of each function of the driver, and from them that every register a session
touches is inside the BAR and aligned to its width, whatever the device answers.
-/

namespace Audiod.Driver

open Dialogue
open Corb (makeVerb)

/-! ### The registers of the stream -/

theorem captureStreams_lt (c : Controller) : c.captureStreams < 16 := by
  have h : ((c.gcap >>> 8) &&& 0x0f#16).toNat ≤ 15 := by
    rw [BitVec.toNat_and]
    exact Nat.and_le_right
  exact Nat.lt_succ_of_le h

theorem sd0Base_mod (c : Controller) : c.sd0Base % 4 = 0 := by
  simp only [Controller.sd0Base, sdStreamBase, sdStreamStride]
  omega

theorem sd0Base_bound (c : Controller) : c.sd0Base + sdStreamStride ≤ barLen := by
  have h := captureStreams_lt c
  simp only [Controller.sd0Base, Controller.sdIndex, sdStreamBase, sdStreamStride, barLen]
  omega

section

variable {c : Controller} {off : ℕ}

theorem sd_of_access {base addr width : ℕ} {o : Op} (h : o.access = some (addr, width)) :
    o.Sd base ↔ addr % width = 0 ∧ base ≤ addr ∧ addr + width ≤ base + 0x20 := by
  have hlogged : o ≠ .logged := fun ho => by simp [ho, Op.access] at h
  rw [Op.Sd, or_iff_left hlogged, Op.Within, h, sdStreamStride]

@[simp] theorem sd_readU8 : (Op.readU8 (c.sd0Base + off)).Sd c.sd0Base ↔ off + 1 ≤ 0x20 := by
  rw [sd_of_access rfl]
  omega

@[simp] theorem sd_writeU8 {v : U8} :
    (Op.writeU8 (c.sd0Base + off) v).Sd c.sd0Base ↔ off + 1 ≤ 0x20 := by
  rw [sd_of_access rfl]
  omega

@[simp] theorem sd_writeU16 {v : U16} :
    (Op.writeU16 (c.sd0Base + off) v).Sd c.sd0Base ↔ off % 2 = 0 ∧ off + 2 ≤ 0x20 := by
  have h := sd0Base_mod c
  rw [sd_of_access rfl]
  omega

@[simp] theorem sd_readU32 :
    (Op.readU32 (c.sd0Base + off)).Sd c.sd0Base ↔ off % 4 = 0 ∧ off + 4 ≤ 0x20 := by
  have h := sd0Base_mod c
  rw [sd_of_access rfl]
  omega

@[simp] theorem sd_writeU32 {v : U32} :
    (Op.writeU32 (c.sd0Base + off) v).Sd c.sd0Base ↔ off % 4 = 0 ∧ off + 4 ≤ 0x20 := by
  have h := sd0Base_mod c
  rw [sd_of_access rfl]
  omega

@[simp] theorem sd_logged {base : ℕ} : Op.logged.Sd base := .inr rfl

end

/-- The registers `Stream` uses: those of its block, and INTCTL. -/
def Op.Streams (c : Controller) (o : Op) : Prop := o.Sd c.sd0Base ∨ o.Global

theorem Op.Streams.mapped {c : Controller} {o : Op} (h : o.Streams c) : o.Mapped := by
  rcases h with h | h
  · exact h.mapped (sd0Base_bound c)
  · exact h.mapped

theorem streams_of_sd {c : Controller} {p : Prog α} (hp : p.Asks (Op.Sd c.sd0Base)) :
    p.Asks (Op.Streams c) := hp.mono fun _ => .inl

@[simp] theorem asks_logged {φ : Op → Prop} : logged.Asks φ ↔ φ .logged := by simp [logged]

theorem asks_forLog {φ : Op → Prop} {p : Prog Unit} (hlog : φ .logged) (hp : p.Asks φ) :
    (forLog p).Asks φ := by
  simp [forLog, hlog, hp]

namespace Stream

variable (s : Stream) (c : Controller)

theorem new_asks : new.Asks Op.Paging := by
  simp [new, DmaBuffer.new_asks]

theorem setup_asks (rate : ℕ) : (s.setup c rate).Asks (Op.Sd c.sd0Base) := by
  simp +decide [setup]

theorem startLine_asks : (startLine c).Asks (Op.Sd c.sd0Base) :=
  asks_forLog sd_logged (by simp +decide)

theorem start_asks : (start c).Asks (Op.Streams c) := by
  simp +decide [start, Op.Streams, streams_of_sd (startLine_asks c)]

theorem stop_asks : (stop c).Asks (Op.Streams c) := by
  simp +decide [stop, Op.Streams]

theorem srst_asks : (srst c).Asks (Op.Sd c.sd0Base) := by
  have hpoll : ∀ on n, ((srstIs c on).retry n).Asks (Op.Sd c.sd0Base) := fun on n =>
    Asks.retry (by simp +decide [srstIs]) n
  simp +decide [srst, hpoll]

theorem lpib_asks : (lpib c).Asks (Op.Sd c.sd0Base) := by simp +decide [lpib]

theorem delayBytes_asks : (s.delayBytes c).Asks (Op.Sd c.sd0Base) := by
  simp [delayBytes, lpib_asks]

theorem freeBytes_asks : (s.freeBytes c).Asks (Op.Sd c.sd0Base) := by
  simp [freeBytes, lpib_asks]

theorem status_asks : (status c).Asks (Op.Sd c.sd0Base) := by simp +decide [status]

theorem write_asks (len : ℕ) : (s.write c len).Asks (Op.Sd c.sd0Base) := by
  simp [write, lpib_asks]

theorem ringLine_asks : (s.ringLine c).Asks (Op.Sd c.sd0Base) :=
  asks_forLog sd_logged (by simp [lpib_asks, delayBytes_asks, freeBytes_asks, status_asks])

end Stream

/-! ### The verbs -/

/-- A verb that sets nothing, whichever node it goes to. -/
def Op.Gets : Op → Prop
  | .verb word => ∀ n : Node, n.exec word = n
  | _ => False

/-- A verb to the codec in use. -/
def Op.VerbTo (cad : U32) : Op → Prop
  | .verb word => wordCad word = low4 cad
  | _ => False

theorem Op.Gets.isVerb {o : Op} (h : o.Gets) : o.IsVerb := by
  cases o <;> first | exact h.elim | trivial

theorem Op.VerbTo.isVerb {cad : U32} {o : Op} (h : o.VerbTo cad) : o.IsVerb := by
  cases o <;> first | exact h.elim | trivial

@[simp] theorem asks_cmd {φ : Op → Prop} {cad nid verb payload : U32} :
    (cmd cad nid verb payload).Asks φ ↔ φ (.verb (makeVerb cad nid verb payload)) := by
  simp [cmd]

theorem gets_verb {cad nid verb payload : U32} (h : verb.extractLsb' 8 4 ≠ 0x2#4 ∧
    verb.extractLsb' 8 4 ≠ 0x3#4 ∧ verb.extractLsb' 8 4 ≠ 0x7#4) :
    (Op.verb (makeVerb cad nid verb payload)).Gets := fun n => exec_other n cad nid h

/- The verb for the pin sense is in the group of those that set, but is none of them. -/
theorem gets_pinSense {cad nid : U32} :
    (Op.verb (makeVerb cad nid verbGetPinSense 0#32)).Gets := by
  intro n
  rw [exec_set n cad nid (by decide) (by decide)]
  simp [Node.set, verbGetPinSense]

theorem verbTo_makeVerb {cad nid verb payload : U32} :
    (Op.verb (makeVerb cad nid verb payload)).VerbTo cad := wordCad_makeVerb cad nid verb payload

section

variable {c : Controller} {nid : U32} {φ : Op → Prop}

theorem asks_getOr {cad verb payload d : U32} (h : φ (.verb (makeVerb cad nid verb payload))) :
    (unwrapOr (cmd cad nid verb payload) d).Asks φ := asks_unwrapOr (asks_cmd.mpr h)

theorem setPower_asks (state : U32) : (setPower c nid state).Asks (Op.VerbTo c.cad) := by
  simp [setPower, verbTo_makeVerb]

theorem setOutputAmp_asks (gain : U32) (mute : Bool) :
    (setOutputAmp c nid gain mute).Asks (Op.VerbTo c.cad) := by
  simp [setOutputAmp, verbTo_makeVerb]

theorem setInputAmp_asks (index gain : U32) (mute : Bool) :
    (setInputAmp c nid index gain mute).Asks (Op.VerbTo c.cad) := by
  simp [setInputAmp, verbTo_makeVerb]

namespace Codec

theorem identify_asks (f : Found) (cad : U32) : (identify f cad).Asks Op.Gets := by
  have hparam : ∀ nid payload, (Op.verb (makeVerb cad nid verbParam payload)).Gets :=
    fun _ _ => gets_verb (by decide)
  have hsub : (Op.verb (makeVerb cad nidAfg verbGetSubsystemId 0#32)).Gets :=
    gets_verb (by decide)
  unfold identify
  refine asks_bind.mpr ⟨by simp [hparam], fun r _ => ?_⟩
  cases r with
  | error e => trivial
  | ok vendorId => simp [asks_getOr, hparam, hsub]

theorem probe_asks (c : Controller) : (probe c).Asks Op.Gets := by
  refine asks_bind.mpr ⟨Asks.foldlM fun f cad _ => ?_, fun f _ => ?_⟩
  · simp [scan, identify_asks]
  · cases f.realtek.or f.fallback <;> trivial

theorem initDac_asks (fmt : U16) (streamTag : U32) :
    (initDac c nid fmt streamTag).Asks (Op.VerbTo c.cad) := by
  simp [initDac, setPower_asks, setOutputAmp_asks, verbTo_makeVerb]

theorem initMux_asks (conn : U32) : (initMux c nid conn).Asks (Op.VerbTo c.cad) := by
  simp [initMux, setPower_asks, setInputAmp_asks, verbTo_makeVerb]

theorem initPin_asks (control : U32) : (initPin c nid control).Asks (Op.VerbTo c.cad) := by
  simp [initPin, setPower_asks, setOutputAmp_asks, verbTo_makeVerb]

theorem initPlayback_asks (fmt : U16) (streamTag : U32) :
    (initPlayback c fmt streamTag).Asks (Op.VerbTo c.cad) := by
  have hcheck : (checkNodes c).Asks (Op.VerbTo c.cad) := by
    simp [checkNodes, checkWidget, verbTo_makeVerb]
  simp [initPlayback, hcheck, setPower_asks, initDac_asks, initMux_asks, initPin_asks]

theorem setMute_asks (mute : Bool) : (setMute c mute).Asks (Op.VerbTo c.cad) := by
  simp [setMute, setOutputAmp_asks]

theorem outputPath_asks (c : Controller) : (outputPath c).Asks Op.Gets := by
  have hpresent : (headphonePresent c).Asks Op.Gets := by
    simp [headphonePresent, gets_pinSense]
  refine asks_bind.mpr ⟨asks_attempt.mpr hpresent, fun r _ => ?_⟩
  rcases r with e | b
  · trivial
  · cases b <;> trivial

theorem dumpState_asks (c : Controller) : (dumpState c).Asks Op.Gets := by
  refine Asks.foldlM fun _ nid _ => ?_
  have hget : ∀ verb ∈ [verbGetChannelStreamid, verbGetStreamFormat, verbGetConnectSel,
      verbGetPowerState, verbGetPinWidgetControl, verbGetEapdBtlenable, verbGetAmpGainMute],
      ∀ payload, (Op.verb (makeVerb c.cad nid verb payload)).Gets := by
    intro verb hverb payload
    fin_cases hverb <;> exact gets_verb (by decide)
  simp [dumpNode, hget]

theorem dumpTopology_asks (c : Controller) : (dumpTopology c).Asks Op.Gets := by
  refine Asks.foldlM fun _ nid _ => ?_
  have hparam : ∀ nid payload, (Op.verb (makeVerb c.cad nid verbParam payload)).Gets :=
    fun _ _ => gets_verb (by decide)
  have hcontrol : ∀ nid, (Op.verb (makeVerb c.cad nid verbGetPinWidgetControl 0#32)).Gets :=
    fun _ => gets_verb (by decide)
  have hselect : ∀ nid, (Op.verb (makeVerb c.cad nid verbGetConnectSel 0#32)).Gets :=
    fun _ => gets_verb (by decide)
  have hlist : ∀ nid, (Op.verb (makeVerb c.cad nid verbGetConnectList 0#32)).Gets :=
    fun _ => gets_verb (by decide)
  unfold dumpWidget
  refine asks_bind.mpr ⟨by simp [hparam], fun r _ => ?_⟩
  cases r with
  | error e => trivial
  | ok caps =>
    simp [asks_getOr, hparam, hcontrol, hselect, hlist, gets_pinSense]

end Codec

end

/-! ### All but the setting verbs -/

/-- What leaves the codec as it is. -/
def Op.Passive (o : Op) : Prop :=
  o = .mapBar ∨ o.Config ∨ o.Control ∨ o.Gets ∨ ∃ c, o.Streams c

section

variable {p : Prog α}

theorem passive_of_config (hp : p.Asks Op.Config) : p.Asks Op.Passive :=
  hp.mono fun _ h => .inr (.inl h)

theorem passive_of_control (hp : p.Asks Op.Control) : p.Asks Op.Passive :=
  hp.mono fun _ h => .inr (.inr (.inl h))

theorem passive_of_gets (hp : p.Asks Op.Gets) : p.Asks Op.Passive :=
  hp.mono fun _ h => .inr (.inr (.inr (.inl h)))

theorem passive_of_streams {c : Controller} (hp : p.Asks (Op.Streams c)) : p.Asks Op.Passive :=
  hp.mono fun _ h => .inr (.inr (.inr (.inr ⟨c, h⟩)))

theorem passive_of_sd {c : Controller} (hp : p.Asks (Op.Sd c.sd0Base)) : p.Asks Op.Passive :=
  passive_of_streams (streams_of_sd hp)

end

theorem Op.Passive.mapped {o : Op} (h : o.Passive) : o.Mapped := by
  rcases h with rfl | h | h | h | ⟨c, h⟩
  · exact fun a ha => by cases ha
  · exact h.mapped
  · exact h.elim Op.Paging.mapped Op.Global.mapped
  · exact h.isVerb.mapped
  · exact h.mapped

theorem Controller.open_asks (opts : DebugOpts) : (Controller.open opts).Asks Op.Passive := by
  have hmap : (withContext "map BAR0" (.ask .mapBar ofExcept)).Asks Op.Passive :=
    asks_withContext (by simp [Op.Passive])
  have hids := asks_unwrapOr (d := ((0#16 : U16), (0#16 : U16)))
    (passive_of_config vendorDevice_asks)
  have hsnoop := @asks_withContext _ _ "pci snoop config" _ (passive_of_config setSnoop_asks)
  have hmaster := @asks_withContext _ _ "pci bus master" _ (passive_of_config setMaster_asks)
  have hgcap : (Op.readU16 gcapReg).Passive := .inr (.inr (.inl (.inr (by simp; decide))))
  have hstart := fun gcap => passive_of_control (start_asks opts gcap)
  simp [Controller.open, hmap, hids, hsnoop, hmaster, hgcap, hstart]

namespace HdaPlayback

theorem bringUp_asks (opts : DebugOpts) (rate : ℕ) : (bringUp opts rate).Asks Op.Passive := by
  have hprobe := fun c => passive_of_gets (Codec.probe_asks c)
  have htopology := fun c => passive_of_gets (Codec.dumpTopology_asks c)
  have hnew := passive_of_control (control_of_paging Stream.new_asks)
  have hsrst := fun c => passive_of_sd (Stream.srst_asks c)
  have hsetup := fun s c => passive_of_sd (Stream.setup_asks s c rate)
  simp [bringUp, bringUpFrom, Controller.open_asks, hprobe, htopology, hnew, hsrst, hsetup]

theorem initCodec_asks (opts : DebugOpts) (rate : ℕ) (c : Controller) :
    (initCodec opts rate c).Asks Op.IsVerb := by
  have hinit := (Codec.initPlayback_asks (c := c) (formatVal rate) c.sd0Tag).mono
    fun _ ho => ho.isVerb
  have hdump := (Codec.dumpState_asks c).mono fun _ ho => ho.isVerb
  simp [initCodec, hinit, hdump]

/-- The other is a later state of the same session. -/
structure Same (pb pb' : HdaPlayback) : Prop where
  controller : pb'.controller = pb.controller
  ring : pb'.stream.ring = pb.stream.ring
  bdl : pb'.stream.bdl = pb.stream.bdl
  fmt : pb'.fmt = pb.fmt
  rate : pb'.rate = pb.rate

theorem Same.refl (pb : HdaPlayback) : Same pb pb := ⟨rfl, rfl, rfl, rfl, rfl⟩

theorem Same.trans {pb pb' pb'' : HdaPlayback} (h : Same pb pb') (h' : Same pb' pb'') :
    Same pb pb'' :=
  ⟨h'.controller.trans h.controller, h'.ring.trans h.ring, h'.bdl.trans h.bdl,
    h'.fmt.trans h.fmt, h'.rate.trans h.rate⟩

theorem setup_yields {s s' : Stream} {c : Controller} {rate : ℕ} (h : (s.setup c rate).Yields s') :
    s' = { s with entries := s.fillEntries Dma.ringPages } := by
  simp [Stream.setup] at h
  simp [h]

theorem write_yields {s : Stream} {c : Controller} {len : ℕ} {w : Stream × ℕ}
    (h : (s.write c len).Yields w) : ∃ pos, w.1 = { s with writePos := pos } := by
  simp only [Stream.write, yields_bind, yields_ite, pure_eq, yields_done] at h
  obtain ⟨rd, -, h⟩ := h
  split at h
  · exact ⟨s.writePos, by rw [← h]⟩
  · exact ⟨_, by rw [← h]⟩

theorem start_yields {pb pb' : HdaPlayback} (h : (start pb).Yields pb') :
    Same pb pb' ∧ pb'.running = true := by
  simp only [start, yields_ite, yields_bind, pure_eq, yields_done] at h
  split at h
  · rename_i hr
    subst h
    exact ⟨Same.refl pb, hr⟩
  · obtain ⟨_, -, s, hs, _, -, rfl⟩ := h
    rw [setup_yields hs]
    exact ⟨⟨rfl, rfl, rfl, rfl, rfl⟩, rfl⟩

theorem play_yields {pb pb' : HdaPlayback} {len : ℕ} (h : (pb.play len).Yields pb') :
    Same pb pb' ∧ pb'.running = true := by
  simp only [play, yields_bind, yields_ite, pure_eq, yields_done] at h
  obtain ⟨started, hs, w, hw, h⟩ := h
  have hlast : pb' = { started with
      stream := w.1, bytesWritten := started.bytesWritten + BitVec.ofNat 64 w.2 } := by
    split at h
    · obtain ⟨_, -, h⟩ := h
      exact h.symm
    · exact h.symm
  obtain ⟨hsame, hr⟩ := start_yields hs
  obtain ⟨pos, hw⟩ := write_yields hw
  rw [hlast, hw]
  exact ⟨hsame.trans ⟨rfl, rfl, rfl, rfl, rfl⟩, hr⟩

theorem call_yields {pb pb' : HdaPlayback} {k : Call} (h : (call pb k).Yields pb') :
    Same pb pb' := by
  cases k with
  | play len => exact (play_yields h).1
  | delayFrames | setMute mute | outputPath =>
    simp only [call, yields_bind, pure_eq, yields_done] at h
    obtain ⟨_, -, rfl⟩ := h
    exact Same.refl pb
  | stopImmediate =>
    simp only [call, dropAll, yields_bind, pure_eq, yields_done] at h
    obtain ⟨_, -, _, -, rfl⟩ := h
    exact ⟨rfl, rfl, rfl, rfl, rfl⟩
  | stop =>
    simp only [call, stop, yields_bind, pure_eq, yields_done] at h
    obtain ⟨_, -, rfl⟩ := h
    exact ⟨rfl, rfl, rfl, rfl, rfl⟩

theorem calls_yields {calls : List Call} {pb pb' : HdaPlayback}
    (h : (calls.foldlM call pb).Yields pb') : Same pb pb' := by
  induction calls generalizing pb with
  | nil =>
    rw [← show pb = pb' from h]
    exact Same.refl pb
  | cons k calls ih =>
    rw [List.foldlM_cons] at h
    obtain ⟨_, hk, hcalls⟩ := yields_bind.mp h
    exact (call_yields hk).trans (ih hcalls)

theorem start_asks (pb : HdaPlayback) : (start pb).Asks (Op.Streams pb.controller) := by
  have hsrst := streams_of_sd (Stream.srst_asks pb.controller)
  have hsetup := streams_of_sd (Stream.setup_asks pb.stream pb.controller pb.rate)
  simp [start, hsrst, hsetup, Stream.start_asks]

theorem play_asks (pb : HdaPlayback) (len : ℕ) :
    (pb.play len).Asks (Op.Streams pb.controller) := by
  refine asks_bind.mpr ⟨start_asks pb, fun started hs => ?_⟩
  rw [← (start_yields hs).1.controller]
  have hwrite := streams_of_sd (Stream.write_asks started.stream started.controller len)
  have hline := fun s => streams_of_sd (Stream.ringLine_asks s started.controller)
  simp [hwrite, hline]

/- What a call asks: registers of the stream, the two setting verbs of a mute, the verb for
the pin sense. -/
theorem call_asks (pb : HdaPlayback) (k : Call) :
    (call pb k).Asks fun o => o.Streams pb.controller ∨ o.VerbTo pb.controller.cad ∨ o.Gets := by
  have hstream : ∀ {α : Type} {p : Prog α}, p.Asks (Op.Streams pb.controller) →
      p.Asks fun o => o.Streams pb.controller ∨ o.VerbTo pb.controller.cad ∨ o.Gets :=
    fun hp => hp.mono fun _ => .inl
  have hstop := hstream (Stream.stop_asks pb.controller)
  cases k with
  | play len => exact hstream (play_asks pb len)
  | delayFrames =>
    simp [call, hstream (streams_of_sd (Stream.delayBytes_asks pb.stream pb.controller))]
  | setMute mute =>
    have hmute := (Codec.setMute_asks (c := pb.controller) mute).mono (ψ := fun o =>
      o.Streams pb.controller ∨ o.VerbTo pb.controller.cad ∨ o.Gets) fun _ h => .inr (.inl h)
    simp [call, hmute]
  | outputPath =>
    have hpath := (Codec.outputPath_asks pb.controller).mono (ψ := fun o =>
      o.Streams pb.controller ∨ o.VerbTo pb.controller.cad ∨ o.Gets) fun _ h => .inr (.inr h)
    simp [call, hpath]
  | stopImmediate =>
    simp [call, dropAll, hstop, hstream (streams_of_sd (Stream.srst_asks pb.controller))]
  | stop => simp [call, stop, hstop]

/-- No register access of a session is outside the BAR or out of line. -/
theorem session_mapped (env : Env) (opts : DebugOpts) (rate : ℕ) (calls : List Call) :
    Only Op.Mapped (history env opts rate calls) := by
  have hbring : (bringUp opts rate).Asks Op.Mapped :=
    (bringUp_asks opts rate).mono fun _ => Op.Passive.mapped
  have hinit : ∀ c, (initCodec opts rate c).Asks Op.Mapped := fun c =>
    (initCodec_asks opts rate c).mono fun _ => Op.IsVerb.mapped
  have hopen : («open» opts rate).Asks Op.Mapped := by
    simp [«open», hbring, hinit]
  have hcalls : ∀ pb : HdaPlayback, (calls.foldlM call pb).Asks Op.Mapped := fun pb =>
    Asks.foldlM fun pb k _ => (call_asks pb k).mono fun _ h =>
      h.elim Op.Streams.mapped fun h => h.elim (fun h => h.isVerb.mapped) fun h => h.isVerb.mapped
  exact (asks_bind.mpr ⟨hopen, fun pb _ => hcalls pb⟩).run env (List.forall_mem_nil _)

end HdaPlayback

end Audiod.Driver
