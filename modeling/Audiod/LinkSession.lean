import Audiod.OneEngine

/-!
# A session down to its registers (`hda/src/lib.rs:40-164`, `controller.rs`, `corb.rs`)

From `open` to the last call, verbs and all.
-/

namespace Audiod.Driver

open Dialogue

/-! ### What a session asks once it has a controller -/

def Op.Served (o : Op) : Prop :=
  o.IsVerb ∨ o.Paging ∨ (∃ c : Controller, o.Sd c.sd0Base) ∨ o = .readU32 intctl ∨
    ∃ v, o = .writeU32 intctl v

theorem Op.Paging.apart {o : Op} (h : o.Paging) : o.Apart := by
  refine ⟨h.mapped, ?_, ?_, ?_, ?_⟩ <;>
    cases o <;> first | exact h.elim | exact id | rfl | exact fun _ _ => rfl

theorem Op.Sd.apart {c : Controller} {o : Op} (h : o.Sd c.sd0Base) : o.Apart := by
  have hbase : sdStreamBase ≤ c.sd0Base := Nat.le_add_right ..
  have hoff : ∀ {off : ℕ}, c.sd0Base ≤ off → off ≠ ic ∧ corbctl ≠ off ∧ rirbctl ≠ off := by
    intro off hle
    simp only [sdStreamBase, ic, corbctl, rirbctl] at *
    omega
  have hmapped := h.mapped (sd0Base_bound c)
  rcases h with h | rfl
  · cases o with
    | readU8 off | readU16 off | readU32 off =>
      exact ⟨hmapped, id, rfl, fun _ _ => rfl, fun _ _ => rfl⟩
    | writeU8 off v | writeU16 off v =>
      have hne := hoff h.2.1
      exact ⟨hmapped, id, rfl, fun r _ => Function.update_of_ne hne.2.1 _ r,
        fun r _ => Function.update_of_ne hne.2.2 _ r⟩
    | writeU32 off v =>
      have hne := hoff h.2.1
      exact ⟨hmapped, id, if_neg hne.1, fun r _ => Function.update_of_ne hne.2.1 _ r,
        fun r _ => Function.update_of_ne hne.2.2 _ r⟩
    | _ => exact h.elim
  · exact ⟨hmapped, id, rfl, fun _ _ => rfl, fun _ _ => rfl⟩

theorem Op.Served.apart {o : Op} (h : o.Served) : o.IsVerb ∨ o.Apart := by
  rcases h with h | h | ⟨c, h⟩ | rfl | ⟨v, rfl⟩
  · exact .inl h
  · exact .inr h.apart
  · exact .inr h.apart
  · exact .inr ⟨by decide, id, rfl, fun _ _ => rfl, fun _ _ => rfl⟩
  · exact .inr ⟨by simp [Op.Mapped, Op.access, mmioCheck, barLen, intctl], id, rfl,
      fun _ _ => rfl, fun _ _ => rfl⟩

section

variable {p : Prog α}

theorem served_of_verb (hp : p.Asks Op.IsVerb) : p.Asks Op.Served := hp.mono fun _ => .inl

theorem served_of_sd {c : Controller} (hp : p.Asks (Op.Sd c.sd0Base)) : p.Asks Op.Served :=
  hp.mono fun _ h => .inr (.inr (.inl ⟨c, h⟩))

theorem served_of_gets (hp : p.Asks Op.Gets) : p.Asks Op.Served :=
  served_of_verb (hp.mono fun _ h => h.isVerb)

theorem served_of_verbTo {cad : U32} (hp : p.Asks (Op.VerbTo cad)) : p.Asks Op.Served :=
  served_of_verb (hp.mono fun _ h => h.isVerb)

end

@[simp] theorem served_readIntctl : (Op.readU32 intctl).Served := .inr (.inr (.inr (.inl rfl)))

@[simp] theorem served_writeIntctl (v : U32) : (Op.writeU32 intctl v).Served :=
  .inr (.inr (.inr (.inr ⟨v, rfl⟩)))

theorem served_sd {c : Controller} {o : Op} (h : o.Sd c.sd0Base) : o.Served :=
  .inr (.inr (.inl ⟨c, h⟩))

namespace Stream

variable (c : Controller)

theorem start_served : (start c).Asks Op.Served := by
  have hline := served_of_sd (startLine_asks c)
  have hread : (Op.readU32 (c.sd0Base + sdCtl)).Served := served_sd (c := c) (by simp +decide)
  have hwrite : ∀ v, (Op.writeU32 (c.sd0Base + sdCtl) v).Served := fun v =>
    served_sd (c := c) (by simp +decide)
  have hread8 : (Op.readU8 (c.sd0Base + sdCtl)).Served := served_sd (c := c) (by simp +decide)
  have hwrite8 : ∀ v, (Op.writeU8 (c.sd0Base + sdCtl) v).Served := fun v =>
    served_sd (c := c) (by simp +decide)
  simp [start, hline, hread, hwrite, hread8, hwrite8]

theorem stop_served : (stop c).Asks Op.Served := by
  have hread : (Op.readU32 (c.sd0Base + sdCtl)).Served := served_sd (c := c) (by simp +decide)
  have hwrite : ∀ v, (Op.writeU32 (c.sd0Base + sdCtl) v).Served := fun v =>
    served_sd (c := c) (by simp +decide)
  have hwrite8 : ∀ v, (Op.writeU8 (c.sd0Base + sdSts) v).Served := fun v =>
    served_sd (c := c) (by simp +decide)
  simp [stop, hread, hwrite, hwrite8]

end Stream

namespace HdaPlayback

theorem bringUpFrom_served (opts : DebugOpts) (rate : ℕ) (c : Controller) :
    (bringUpFrom opts rate c).Asks Op.Served := by
  have hprobe := served_of_gets (Codec.probe_asks c)
  have htopology := fun c => served_of_gets (Codec.dumpTopology_asks c)
  have hnew : Stream.new.Asks Op.Served := Stream.new_asks.mono fun _ h => .inr (.inl h)
  have hsrst := fun c => served_of_sd (Stream.srst_asks c)
  have hsetup := fun s c => served_of_sd (Stream.setup_asks s c rate)
  simp [bringUpFrom, hprobe, htopology, hnew, hsrst, hsetup]

theorem call_served (pb : HdaPlayback) (k : Call) : (call pb k).Asks Op.Served := by
  have hstart : ∀ pb : HdaPlayback, (start pb).Asks Op.Served := by
    intro pb
    have hsrst := served_of_sd (Stream.srst_asks pb.controller)
    have hsetup := served_of_sd (Stream.setup_asks pb.stream pb.controller pb.rate)
    simp [start, hsrst, hsetup, Stream.start_served]
  have hstop := Stream.stop_served pb.controller
  cases k with
  | play len =>
    have hwrite := fun (s : Stream) c => served_of_sd (Stream.write_asks s c len)
    have hline := fun (s : Stream) c => served_of_sd (Stream.ringLine_asks s c)
    simp [call, play, hstart, hwrite, hline]
  | delayFrames =>
    simp [call, served_of_sd (Stream.delayBytes_asks pb.stream pb.controller)]
  | setMute mute =>
    simp [call, served_of_verbTo (Codec.setMute_asks (c := pb.controller) mute)]
  | outputPath => simp [call, served_of_gets (Codec.outputPath_asks pb.controller)]
  | stopImmediate =>
    simp [call, dropAll, hstop, served_of_sd (Stream.srst_asks pb.controller)]
  | stop => simp [call, stop, hstop]

theorem sessionFrom_served (opts : DebugOpts) (rate : ℕ) (calls : List Call) (c : Controller) :
    (sessionFrom opts rate calls c).Asks Op.Served := by
  have hcalls : ∀ pb : HdaPlayback, (calls.foldlM call pb).Asks Op.Served := fun pb =>
    Asks.foldlM fun pb k _ => call_served pb k
  have hcodec := fun c => served_of_verb (initCodec_asks opts rate c)
  simp [sessionFrom, bringUpFrom_served, hcodec, hcalls]

end HdaPlayback

/-! ### And before -/

/-- Neither a verb nor an immediate command. -/
def Op.Plain : Op → Prop
  | .verb _ => False
  | .writeU32 off _ => off ≠ ic
  | _ => True

theorem Op.Plain.spec {o : Op} (h : o.Plain) : ¬ o.IsVerb ∧ o.immediate = none := by
  cases o with
  | verb word => exact h.elim
  | writeU32 off v => exact ⟨id, if_neg h⟩
  | _ => exact ⟨id, rfl⟩

/-- Nothing of the rings either. -/
def Op.Before : Op → Prop
  | .verb _ => False
  | .writeU8 off _ | .writeU16 off _ | .writeU32 off _ =>
    (off < corblbase ∨ rirbsize < off) ∧ off ≠ ic
  | _ => True

theorem Op.Before.plain {o : Op} (h : o.Before) : o.Plain := by
  cases o with
  | verb word => exact h.elim
  | writeU32 off v => exact h.2
  | _ => trivial

theorem Op.Config.before {o : Op} (h : o.Config) : o.Before := by
  cases o <;> first | exact h.elim | trivial

theorem Op.Paging.plain {o : Op} (h : o.Paging) : o.Plain := by
  cases o <;> first | exact h.elim | trivial

/- Engines that are off, where `P` says so, stay off. -/
theorem before_rings {p : Prog α} (hp : p.Asks Op.Before) {P : Prop} {r : Regs}
    (hoff : P → r.Off) : Ensures rings p r fun _ r' => P → r'.Off := by
  refine hp.ensures (m := rings) (I := fun r' => P → r'.Off) ?_ ?_ hoff
  · intro r o ho _
    refine ⟨fun hring => ?_, fun hs => ?_⟩
    · cases o with
      | writeU8 off v | writeU16 off v | writeU32 off v =>
        have hout := ho.1
        have hin := hring
        simp only [Op.RingWrite] at hin
        omega
      | _ => exact hring.elim
    · cases o <;> first | exact hs.elim | skip
      rename_i off v
      have hlt : corbctl < corblbase ∨ rirbsize < corbctl := hs.1 ▸ ho.1
      exact absurd hlt (by decide)
  · intro r o x ho hoff _ hP
    have hoff := hoff hP
    have hne : ∀ off, off < corblbase ∨ rirbsize < off → off ≠ corbctl ∧ off ≠ rirbctl := by
      intro off hlt
      simp only [corblbase, rirbsize, corbctl, rirbctl] at *
      omega
    cases o with
    | writeU8 off v | writeU16 off v | writeU32 off v => exact hoff.update off (hne off ho.1) _
    | _ => exact hoff

section

variable {off : ℕ}

@[simp] theorem before_readU16 : (Op.readU16 off).Before := trivial

@[simp] theorem before_readU32 : (Op.readU32 off).Before := trivial

@[simp] theorem before_polls : Op.polls.Before := trivial

theorem before_writeU16 (h : off = statests ∨ off = irs) (v : U16) :
    (Op.writeU16 off v).Before := by
  rcases h with rfl | rfl
  · exact (show (statests < corblbase ∨ rirbsize < statests) ∧ statests ≠ ic by decide)
  · exact (show (irs < corblbase ∨ rirbsize < irs) ∧ irs ≠ ic by decide)

theorem before_writeU32 (h : off = gctl ∨ off = intsts) (v : U32) :
    (Op.writeU32 off v).Before := by
  rcases h with rfl | rfl
  · exact (show (gctl < corblbase ∨ rirbsize < gctl) ∧ gctl ≠ ic by decide)
  · exact (show (intsts < corblbase ∨ rirbsize < intsts) ∧ intsts ≠ ic by decide)

end

/-- The engines are as the controller has them. -/
structure Regs.Settled (r : Regs) (c : Controller) : Prop where
  dead : c.engine = none → r.Off
  live : ∀ ring, c.engine = some ring → r.Running ∧
    ∃ size : Corb.RingSize, size.entries = ring.count

theorem Regs.Off.settled {r : Regs} {c : Controller} (h : r.Off) (hc : c.engine = none) :
    r.Settled c := by
  refine ⟨fun _ => h, fun ring hring => ?_⟩
  rw [hc] at hring
  cases hring

theorem corbRing_init_plain : CorbRing.init.Asks Op.Plain := by
  have hnew : (DmaBuffer.new 4096).Asks Op.Plain :=
    (DmaBuffer.new_asks 4096).mono fun _ h => h.plain
  have hfrom : ∀ reg name caps cs, (programFrom reg name caps cs).Asks Op.Plain := by
    intro reg name caps cs
    induction cs with
    | nil => trivial
    | cons c cs ih => simp [programFrom, ih, Op.Plain]
  have hsize : ∀ reg name, (programSize reg name).Asks Op.Plain := fun reg name => by
    simp [programSize, hfrom, Op.Plain]
  have hset : ∀ off bit, (bitSet off bit).Asks Op.Plain := fun off bit => by
    simp [bitSet, Op.Plain]
  have hwait : ∀ off bit, (waitBit off bit).Asks Op.Plain := fun off bit =>
    asks_bind.mpr ⟨by simp [Op.Plain], fun n _ => (hset off bit).retry n⟩
  have hwrite32 : ∀ off ∈ [corblbase, corbubase, rirblbase, rirbubase], ∀ v,
      (Op.writeU32 off v).Plain := by
    intro off hoff v
    simp only [List.mem_cons, List.not_mem_nil, or_false] at hoff
    rcases hoff with rfl | rfl | rfl | rfl <;>
      simp [Op.Plain, corblbase, corbubase, rirblbase, rirbubase, ic]
  have hwrite16 : ∀ off v, (Op.writeU16 off v).Plain := fun _ _ => trivial
  have hwrite8 : ∀ off v, (Op.writeU8 off v).Plain := fun _ _ => trivial
  simp [CorbRing.init, CorbRing.prepare, CorbRing.launch, hnew, hsize, hwait, hwrite32, hwrite16,
    hwrite8]

namespace Controller

theorem waitReset_before (on : Bool) (e : IoError) : (waitReset on e).Asks Op.Before := by
  have hset : (resetIs on).Asks Op.Before := by simp [resetIs]
  simp [waitReset, hset.retry]

theorem resetLink_before (c : Controller) : (resetLink c).Asks Op.Before := by
  simp [resetLink, waitReset_before, before_writeU16 (.inl rfl), before_writeU32 (.inl rfl)]

theorem clearBusy_before (spins : ℕ) : (clearBusy spins).Asks Op.Before := by
  induction spins with
  | zero => simp [clearBusy]
  | succ spins ih => simp [clearBusy, ih, before_writeU16 (.inr rfl)]

theorem resetLink_engine {c c' : Controller} (h : (resetLink c).Yields c') :
    c'.engine = c.engine := by
  obtain ⟨g, -, h⟩ := yields_bind.mp h
  split at h
  · simp only [yields_bind, pure_eq, yields_done] at h
    obtain ⟨_, -, _, -, _, -, _, -, _, -, _, -, _, -, mask, -, rfl⟩ := h
    rfl
  · simp only [yields_bind, pure_eq, yields_done] at h
    obtain ⟨_, -, _, -, _, -, _, -, _, -, _, -, mask, -, rfl⟩ := h
    rfl

theorem initCmdEngine_rings {opts : DebugOpts} {c : Controller} (hc : c.engine = none) {r : Regs}
    (hoff : opts.cmdEngine = some .pio → r.Off) :
    Ensures rings (initCmdEngine opts c) r (OnOk fun c r' => r'.Settled c) := by
  unfold initCmdEngine
  split
  · rename_i hpio
    exact onOk_ok.mpr ((hoff hpio).settled hc)
  -- CORB or nothing asked for
  all_goals
    refine ensures_bind.mpr (ensures_attempt.mpr ((init_rings r).mono fun res r' h => ?_))
    cases res with
    | ok ring =>
      obtain ⟨hready, hrun, -, hsize⟩ := h.1 ring rfl
      refine onOk_ok.mpr ⟨fun hnone => (by cases hnone), fun ring' hring' => ?_⟩
      cases hring'
      exact ⟨⟨hrun, hready.rirbRuns⟩, hsize⟩
    | error e => exact onOk_ok.mpr ((h.2 e rfl).settled hc)

theorem initCmdEngine_plain (opts : DebugOpts) (c : Controller) :
    (initCmdEngine opts c).Asks Op.Plain := by
  unfold initCmdEngine
  split
  · trivial
  all_goals
    refine asks_bind.mpr ⟨asks_attempt.mpr corbRing_init_plain, fun r _ => ?_⟩
    cases r <;> trivial

/-- `start` up to the command engine. -/
def reset (opts : DebugOpts) (gcap : U16) : Prog Controller := do
  let c : Controller := ⟨0#16, gcap, 0#32, none⟩
  let c ←
    if opts.skipReset then do
      clearBusy 50
      pure { c with codecMask := 0x1#16 }
    else do
      let c ← resetLink c
      let mask ← readU16 statests
      pure { c with codecMask := mask }
  writeU32 intsts (intCtrlEn ||| intAllStream)
  pure c

theorem start_eq (opts : DebugOpts) (gcap : U16) :
    start opts gcap = reset opts gcap >>= initCmdEngine opts := by
  cases h : opts.skipReset <;> simp [start, reset, h]

theorem reset_before (opts : DebugOpts) (gcap : U16) : (reset opts gcap).Asks Op.Before := by
  simp [reset, clearBusy_before, resetLink_before, before_writeU32 (.inr rfl)]

theorem reset_engine {opts : DebugOpts} {gcap : U16} {c : Controller}
    (h : (reset opts gcap).Yields c) : c.engine = none := by
  cases hskip : opts.skipReset with
  | true =>
    simp only [reset, hskip, if_true, yields_bind, pure_eq, yields_done] at h
    obtain ⟨_, -, _, rfl, _, -, rfl⟩ := h
    rfl
  | false =>
    simp only [reset, hskip, Bool.false_eq_true, if_false, yields_bind, pure_eq, yields_done] at h
    obtain ⟨c₁, hreset, mask, -, _, rfl, _, -, rfl⟩ := h
    exact resetLink_engine hreset

/- Opened, with its rings running or with both engines off, also where they were found
running: only where no ring is asked for does it leave them as they were. -/
theorem open_rings {opts : DebugOpts} {r : Regs} (hoff : opts.cmdEngine = some .pio → r.Off) :
    Ensures rings (Controller.open opts) r (OnOk fun c r' => r'.Settled c) := by
  have hconfig : ∀ {α : Type} {p : Prog α} {r : Regs}, p.Asks Op.Config →
      (opts.cmdEngine = some .pio → r.Off) →
      Ensures rings p r (OnOk fun _ r' => opts.cmdEngine = some .pio → r'.Off) := fun hp hoff =>
    (before_rings (hp.mono fun _ h => h.before) hoff).onOk
  have hmap : (withContext "map BAR0" (.ask .mapBar ofExcept)).Asks Op.Before :=
    asks_withContext (by simp [Op.Before])
  refine (before_rings hmap hoff).onOk.seqOk fun _ r₁ hoff => ?_
  refine (hconfig (asks_unwrapOr vendorDevice_asks) hoff).seqOk fun ids r₂ hoff => ?_
  split
  · exact onOk_error
  refine (hconfig (asks_withContext setSnoop_asks) hoff).seqOk fun _ r₃ hoff => ?_
  refine (hconfig (asks_withContext setMaster_asks) hoff).seqOk fun _ r₄ hoff => ?_
  have hgcap : (readU16 gcapReg).Asks Op.Before := by simp
  refine (before_rings hgcap hoff).onOk.seqOk fun gcap r₅ hoff => ?_
  split
  · exact onOk_error
  rw [start_eq]
  have hreset : Ensures rings (reset opts gcap) r₅
      (OnOk fun c r' => (opts.cmdEngine = some .pio → r'.Off) ∧ c.engine = none) :=
    (before_rings (reset_before opts gcap) hoff).yields.mono fun res r' h c hc =>
      ⟨h.1, reset_engine (h.2 c hc)⟩
  exact hreset.seqOk fun c r₆ h => initCmdEngine_rings h.2 h.1

theorem open_plain (opts : DebugOpts) :
    (Controller.open opts).Asks fun o => o.Mapped ∧ ¬ o.IsVerb ∧ o.immediate = none := by
  have hconfig : ∀ {α : Type} {p : Prog α}, p.Asks Op.Config → p.Asks Op.Plain := fun hp =>
    hp.mono fun _ h => h.before.plain
  have hmap : (withContext "map BAR0" (.ask .mapBar ofExcept)).Asks Op.Plain :=
    asks_withContext (by simp [Op.Plain])
  have hids := asks_unwrapOr (d := ((0#16 : U16), (0#16 : U16))) (hconfig vendorDevice_asks)
  have hsnoop := @asks_withContext _ _ "pci snoop config" _ (hconfig setSnoop_asks)
  have hmaster := @asks_withContext _ _ "pci bus master" _ (hconfig setMaster_asks)
  have hgcap : (Op.readU16 gcapReg).Plain := trivial
  have hstart : ∀ gcap, (start opts gcap).Asks Op.Plain := fun gcap => by
    rw [start_eq]
    exact asks_bind.mpr ⟨(reset_before opts gcap).mono fun _ h => h.plain,
      fun c _ => initCmdEngine_plain opts c⟩
  have hplain : (Controller.open opts).Asks Op.Plain := by
    simp [Controller.open, hmap, hids, hsnoop, hmaster, hgcap, hstart]
  exact ((Controller.open_asks opts).and hplain).mono fun o h => ⟨h.1.mapped, h.2.spec⟩

end Controller

namespace Transport

variable {opts : DebugOpts} {rate : ℕ} {calls : List HdaPlayback.Call}

/-- Before the first verb. -/
structure Opening (s : Regs × History) (w : Watch) : Prop where
  regs : w.regs = s.1
  ring : w.ring = []
  immediate : w.immediate = []
  other : w.other = ordinary s.2

theorem Opening.sent {s : Regs × History} {w : Watch} (h : Opening s w) : Sent s.2 w := by
  refine Sent.of_ring h.other ?_ h.immediate
  rw [h.ring]
  exact List.nil_sublist _

theorem Opening.holds {r : Regs} {h : History} {w : Watch} {c : Controller}
    (hw : Opening (r, h) w) (hr : r.Settled c) : Holds c.transport h w := by
  refine ⟨hw.sent, fun s hs => ?_, fun hnone => ?_⟩
  · obtain ⟨ring, hring, rfl⟩ := Option.map_eq_some_iff.mp hs
    obtain ⟨hrun, hsize⟩ := hr.live ring hring
    exact ⟨hw.regs ▸ hrun, hw.immediate, hsize⟩
  · exact hw.regs ▸ hr.dead (Option.map_eq_none_iff.mp hnone)

theorem open_watch {r : Regs} (hoff : opts.cmdEngine = some .pio → r.Off) (t : Transport) :
    Ensures linkWatch ((Controller.open opts).handle serve t) (Watch.init r) fun res w =>
      ∃ h, (Controller.open opts).Leads h res ∧ Sent h w ∧
        ∀ c, res = .ok c → Holds c.transport h w := by
  have hopen := (((Controller.open_rings hoff).asking
    (Controller.open_plain opts)).recorded [])
  have hstart : Opening (r, []) (Watch.init r) := ⟨rfl, rfl, rfl, rfl⟩
  refine (hopen.handle (R := fun _ s w => Opening s w) ?_ hstart).mono ?_
  · intro t s w o hw ho
    refine (pass_watch ho.2 t).returns_mono fun x w' hx => ⟨trivial, ?_⟩
    obtain ⟨-, rfl⟩ := hx
    refine ⟨congrArg (fun r => Regs.next r o x.2) hw.regs, hw.ring, ?_, ?_⟩
    · simp [Watch.next, ho.2.2.2, hw.immediate]
    · rw [Watch.next, hw.other]
      exact (ordinary_snoc ..).symm
  · rintro res w ⟨t₁, ⟨r, h⟩, hw, hset, k, rfl, hlead⟩
    exact ⟨h, hlead, hw.sent, fun c hc => hw.holds (hset c hc)⟩

theorem sessionFrom_watch {c : Controller} {h : History} {w : Watch}
    (hholds : Holds c.transport h w) :
    Ensures linkWatch ((HdaPlayback.sessionFrom opts rate calls c).handle serve c.transport) w
      fun res w' => ∃ k, (HdaPlayback.sessionFrom opts rate calls c).Leads k res ∧
        Sent (h ++ k) w' := by
  have hserved := HdaPlayback.sessionFrom_served opts rate calls c
  have hfree : Ensures (Monitor.follow fun _ _ _ => ()) (HdaPlayback.sessionFrom opts rate calls c)
      () fun _ _ => True :=
    hserved.ensures (I := fun _ => True) (fun _ _ _ _ => trivial) (fun _ _ _ _ _ _ => trivial)
      trivial
  have hrecorded := (hfree.asking hserved).recorded []
  refine (hrecorded.handle (R := fun t s w => Holds t (h ++ s.2) w) ?_ ?_).mono ?_
  · intro t s w o hw ho
    refine (serve_watch ho.2.apart hw).returns_mono fun x w' hx => ⟨trivial, ?_⟩
    rw [List.append_assoc] at hx
    exact hx
  · exact (List.append_nil h).symm ▸ hholds
  · rintro res w' ⟨t₁, ⟨⟨⟩, k'⟩, hw, -, k, rfl, hlead⟩
    exact ⟨k', hlead, hw.toSent⟩

theorem session_watch {opts : DebugOpts} (rate : ℕ) (calls : List HdaPlayback.Call) {r : Regs}
    (hoff : opts.cmdEngine = some .pio → r.Off) :
    Ensures linkWatch (session opts rate calls) (Watch.init r) fun res w =>
      ∃ h, (HdaPlayback.session opts rate calls).Leads h res ∧ Sent h w := by
  rw [HdaPlayback.session_eq]
  refine ensures_bind.mpr ((open_watch hoff ⟨none, 0, false⟩).mono fun res w hw => ?_)
  obtain ⟨h, hlead, hsent, hholds⟩ := hw
  cases res with
  | error e => exact ⟨h, hlead.bind_error, hsent⟩
  | ok c =>
    refine (sessionFrom_watch (hholds c rfl)).mono fun res w hw => ?_
    obtain ⟨k, hlead', hsent'⟩ := hw
    exact ⟨h ++ k, hlead.bind_ok hlead', hsent'⟩

/-- Everything a session asks down to its registers. -/
def history (env : LinkEnv) (opts : DebugOpts) (rate : ℕ) (calls : List HdaPlayback.Call) :
    LinkHistory := (run env (session opts rate calls) []).2

/-- What it has done by then, on a device that had `r` in its registers. -/
def done (r : Regs) (h : LinkHistory) : Watch := linkWatch.after (Watch.init r) h

theorem session_run (env : LinkEnv) {opts : DebugOpts} (rate : ℕ)
    (calls : List HdaPlayback.Call) {r : Regs} (hoff : opts.cmdEngine = some .pio → r.Off) :
    linkWatch.Respects (Watch.init r) [] (history env opts rate calls) ∧
      ∃ h, (HdaPlayback.session opts rate calls).Leads h (run env (session opts rate calls) []).1 ∧
        Sent h (done r (history env opts rate calls)) := by
  have henv : linkWatch.Heeds (Watch.init r) env := fun _ _ => trivial
  exact (session_watch rate calls hoff).run (h := []) henv

/- What was sent, and where, does not hang on what the registers held. -/
theorem done_regs (r r' : Regs) (h : LinkHistory) :
    (done r h).ring = (done r' h).ring ∧ (done r h).immediate = (done r' h).immediate ∧
      (done r h).other = (done r' h).other := by
  rw [done, done]
  induction h using List.reverseRecOn with
  | nil => exact ⟨rfl, rfl, rfl⟩
  | append_singleton h e ih =>
    obtain ⟨hring, himm, hother⟩ := ih
    rw [Monitor.after_snoc, Monitor.after_snoc]
    obtain ⟨o, x⟩ := e
    cases o with
    | io o => exact ⟨hring, congrArg (· ++ _) himm, congrArg (· ++ _) hother⟩
    | ringWrite off word => exact ⟨congrArg (· ++ _) hring, himm, hother⟩
    | ringRead off => exact ⟨hring, himm, hother⟩

/-- No register access of a session is outside the BAR or out of line, its verbs' included,
and none to the page of the rings is outside the ring it is for. -/
theorem session_contained (env : LinkEnv) (opts : DebugOpts) (rate : ℕ)
    (calls : List HdaPlayback.Call) : Only LinkOp.Contained (history env opts rate calls) := by
  intro e he
  obtain ⟨pre, post, heq⟩ := List.append_of_mem he
  have hoff : opts.cmdEngine = some .pio → Regs.Off fun _ => 0#32 := fun _ => ⟨rfl, rfl⟩
  exact ((session_run env rate calls hoff).1 pre e post heq (Nat.zero_le _)).1

theorem next_idle {hand : Hand} {o : Op} {x : o.Ans} (h : hand.next o x = .idle) :
    ∃ v : U16, (⟨o, x⟩ : Sigma Op.Ans) = ⟨.readU16 irs, v⟩ ∧ v &&& irsBusy = 0#16 := by
  unfold Hand.next at h
  split at h
  · split at h
    · rename_i v hidle
      exact ⟨v, by rw [hidle.1], hidle.2⟩
    · cases h
  · split at h <;> cases h
  · cases h

theorem next_cleared {hand : Hand} {o : Op} {x : o.Ans} (h : hand.next o x = .cleared) :
    hand = .idle ∧ ∃ u : Unit, (⟨o, x⟩ : Sigma Op.Ans) = ⟨.writeU16 irs irsValid, u⟩ := by
  unfold Hand.next at h
  split at h
  · split at h <;> cases h
  · split at h
    · rename_i u hvalid
      exact ⟨rfl, u, by rw [hvalid.1, hvalid.2]⟩
    · cases h
  · cases h

theorem hand_cleared {r : Regs} {h : LinkHistory} (hhand : (done r h).hand = .cleared) :
    ∃ (h' : LinkHistory) (v : U16) (u : Unit), h = h' ++
      [⟨.io (.readU16 irs), v⟩, ⟨.io (.writeU16 irs irsValid), u⟩] ∧ v &&& irsBusy = 0#16 := by
  rcases List.eq_nil_or_concat h with rfl | ⟨h₁, ⟨o, y⟩, rfl⟩
  · cases hhand
  rw [List.concat_eq_append, done, Monitor.after_snoc] at hhand
  cases o with
  | ringWrite off word => cases hhand
  | ringRead off => cases hhand
  | io o =>
    obtain ⟨hidle, u, hlast⟩ := next_cleared hhand
    cases hlast
    rcases List.eq_nil_or_concat h₁ with rfl | ⟨h₂, ⟨o, x⟩, rfl⟩
    · cases hidle
    rw [List.concat_eq_append, Monitor.after_snoc] at hidle
    cases o with
    | ringWrite off word => cases hidle
    | ringRead off => cases hidle
    | io o =>
      obtain ⟨v, hread, hzero⟩ := next_idle hidle
      cases hread
      exact ⟨h₂, x, y, by simp, hzero⟩

/-- Whenever the page of the rings is touched both engines run, and no immediate command
was given before; whenever one is given both are off, and just before it the interface was
seen idle and its valid bit cleared. -/
def OneEngine (r : Regs) (h : LinkHistory) : Prop :=
  ∀ pre e post, h = pre ++ e :: post →
    (e.1.OnRing → (done r pre).regs.Running ∧ (done r pre).immediate = []) ∧
    (e.1.Commands → (done r pre).regs.Off ∧
      ∃ (pre' : LinkHistory) (v : U16) (u : Unit), pre = pre' ++
        [⟨.io (.readU16 irs), v⟩, ⟨.io (.writeU16 irs irsValid), u⟩] ∧ v &&& irsBusy = 0#16)

/-- Whatever the device answers, whenever it falls back, and also where it was left with its
engines running. Only a session told to use no ring does not stop them, and has to find them
off. -/
theorem session_oneEngine (env : LinkEnv) (opts : DebugOpts) (rate : ℕ)
    (calls : List HdaPlayback.Call) {r : Regs} (hoff : opts.cmdEngine = some .pio → r.Off) :
    OneEngine r (history env opts rate calls) := by
  intro pre e post heq
  obtain ⟨-, hring, hcommand⟩ :=
    (session_run env rate calls hoff).1 pre e post heq (Nat.zero_le _)
  refine ⟨hring, fun hc => ?_⟩
  obtain ⟨hstopped, hhand⟩ := hcommand hc
  exact ⟨hstopped, hand_cleared hhand⟩


instance (o : Op) : Inhabited o.Ans := ⟨o.typical⟩

/-- The typical device, with nothing in its rings. -/
def typical : (o : LinkOp) → o.Ans
  | .io o => o.typical
  | .ringWrite _ _ => ()
  | .ringRead _ => (0#32, 0#32)

/-- What a killed session leaves behind. -/
def left : Regs := fun off =>
  if off = corbctl then corbctlRun.setWidth 32
  else if off = rirbctl then (rirbctlDmaEn ||| rirbctlIrqEn).setWidth 32
  else 0#32

theorem session_oneEngine_left : left.Running ∧
    OneEngine left (history (fun _ o => typical o) { DebugOpts.plain with cmdEngine := none } 48000
      [.setMute true]) :=
  ⟨⟨rfl, rfl⟩, session_oneEngine (fun _ o => typical o)
    { DebugOpts.plain with cmdEngine := none } 48000 [.setMute true] fun hpio => by cases hpio⟩

/-- A session down to its registers is one of `HdaPlayback` in some environment. It ends the
same, asks the same outside the transport, sends no verb that this one does not, each way in
the same order, first by the ring and then by the interface, and both ways at most the one in
between. -/
theorem session_refines (env : LinkEnv) (opts : DebugOpts) (rate : ℕ)
    (calls : List HdaPlayback.Call) (r : Regs) :
    ∃ env' : Env, (run env' (HdaPlayback.session opts rate calls) []).1 =
        (run env (session opts rate calls) []).1 ∧
      Sent (HdaPlayback.history env' opts rate calls) (done r (history env opts rate calls)) := by
  have hoff : opts.cmdEngine = some .pio → Regs.Off fun _ => 0#32 := fun _ => ⟨rfl, rfl⟩
  obtain ⟨h, hlead, hsent⟩ := (session_run env rate calls hoff).2
  obtain ⟨hring, himm, hother⟩ := done_regs r (fun _ => 0#32) (history env opts rate calls)
  refine ⟨replay h, ?_, ?_⟩
  · rw [hlead.run]
  · rw [HdaPlayback.history, hlead.run]
    refine ⟨hother.trans hsent.other, ?_⟩
    rw [hring, himm]
    exact hsent.cut

end Transport

end Audiod.Driver
