import Audiod.Corb
import Audiod.DmaPages
import Mathlib.Logic.Function.Basic

/-!
# The command rings come up (`hda/src/corb.rs:37-99`, `:163-200`)

Over the registers as they were last written, `CorbRing::init` moves nothing of the rings
while an engine runs, and sets the CORB running last, on a page it resolved, with bases,
sizes and pointers that belong together. Where it fails, both engines are off.
-/

namespace Audiod.Driver

open Dialogue

/-- The last value written to each register. -/
abbrev Regs := ℕ → U32

def Regs.next (r : Regs) : (o : Op) → o.Ans → Regs
  | .writeU8 off v, _ => Function.update r off (v.setWidth 32)
  | .writeU16 off v, _ => Function.update r off (v.setWidth 32)
  | .writeU32 off v, _ => Function.update r off v
  | _, _ => r

/-- Neither engine runs. -/
def Regs.Off (r : Regs) : Prop := r corbctl = 0#32 ∧ r rirbctl = 0#32

/-- Everything the CORB needs to run on a ring. -/
structure Regs.Ready (r : Regs) (ring : CorbRing) : Prop where
  corbBase : r corbubase ++ r corblbase = ring.rb.toaddr 0
  rirbBase : r rirbubase ++ r rirblbase = ring.rb.toaddr rirbOff
  sizes : ∃ c ∈ choices, c.entries = ring.count ∧ r corbsize = c.enc.setWidth 32 ∧
    r rirbsize = c.enc.setWidth 32
  corbWp : r corbwp = 0#32
  corbRp : r corbrp = 0#32
  rirbWp : r rirbwp = rirbwpRst.setWidth 32
  rirbRuns : r rirbctl = (rirbctlDmaEn ||| rirbctlIrqEn).setWidth 32

/-- A write to a register of the rings, other than the two that start the engines. -/
def Op.RingWrite : Op → Prop
  | .writeU8 off _ | .writeU16 off _ | .writeU32 off _ =>
    corblbase ≤ off ∧ off ≤ rirbsize ∧ off ≠ corbctl ∧ off ≠ rirbctl
  | _ => False

def Op.StartsCorb : Op → Prop
  | .writeU8 off v => off = corbctl ∧ v &&& corbctlRun ≠ 0#8
  | _ => False

def rings : Monitor Op.Ans Regs where
  may r o := (o.RingWrite → r.Off) ∧
    (o.StartsCorb → ∃ ring, r.Ready ring ∧ ring.rb.Resolved 4096)
  can _ _ _ := True
  next := Regs.next

section

variable {r : Regs}

theorem Regs.Off.update (h : r.Off) (off : ℕ) (hoff : off ≠ corbctl ∧ off ≠ rirbctl) (v : U32) :
    Regs.Off (Function.update r off v) :=
  ⟨(Function.update_of_ne hoff.1.symm v r).trans h.1,
    (Function.update_of_ne hoff.2.symm v r).trans h.2⟩

/-! ### Single writes -/

theorem writeU16_rings (h : r.Off) {off : ℕ} (v : U16) :
    Ensures rings (writeU16 off v) r
      (OnOk fun _ r' => r' = Function.update r off (v.setWidth 32)) :=
  ⟨⟨fun _ => h, fun hs => hs.elim⟩, fun _ _ => onOk_ok.mpr rfl⟩

theorem writeU8_rings {off : ℕ} {v : U8} (hring : (Op.writeU8 off v).RingWrite → r.Off)
    (hcorb : (Op.writeU8 off v).StartsCorb → ∃ ring, r.Ready ring ∧ ring.rb.Resolved 4096) :
    Ensures rings (writeU8 off v) r
      (OnOk fun _ r' => r' = Function.update r off (v.setWidth 32)) :=
  ⟨⟨hring, hcorb⟩, fun _ _ => onOk_ok.mpr rfl⟩

/-- What writes no register. -/
def Op.Looks : Op → Prop
  | .writeU8 _ _ | .writeU16 _ _ | .writeU32 _ _ => False
  | _ => True

theorem looks_rings {p : Prog α} (hp : p.Asks Op.Looks) (r : Regs) :
    Ensures rings p r fun _ r' => r' = r := by
  refine hp.ensures (m := rings) (I := fun r' => r' = r) ?_ ?_ rfl
  · intro r' o ho _
    cases o <;> first | exact ho.elim | exact ⟨fun h => h.elim, fun h => h.elim⟩
  · rintro r' o x ho rfl -
    cases o <;> first | exact ho.elim | rfl

/-! ### The negotiated size -/

theorem programFrom_rings {reg : ℕ} (hreg : reg ≠ corbctl ∧ reg ≠ rirbctl) (name : String)
    (caps : U8) (cs : List Choice) (h : r.Off) :
    Ensures rings (programFrom reg name caps cs) r fun res r' =>
      (∀ off ≠ reg, r' off = r off) ∧
      ∀ n, res = .ok n → ∃ c ∈ cs, c.entries = n ∧ r' reg = c.enc.setWidth 32 := by
  induction cs generalizing r with
  | nil => exact ⟨fun _ _ => rfl, fun n hn => by cases hn⟩
  | cons c cs ih =>
    have hmore : ∀ {res : Except IoError ℕ} {r' : Regs}, (∀ n, res = .ok n →
        ∃ c ∈ cs, c.entries = n ∧ r' reg = c.enc.setWidth 32) →
        ∀ n, res = .ok n → ∃ d ∈ c :: cs, d.entries = n ∧ r' reg = d.enc.setWidth 32 :=
      fun hcs n hn => (hcs n hn).imp fun d hd => ⟨List.mem_cons_of_mem _ hd.1, hd.2⟩
    rw [programFrom]
    split
    · exact (ih h).mono fun res r' hr => ⟨hr.1, hmore hr.2⟩
    · refine ⟨⟨fun _ => h, fun hs => (hreg.1 hs.1).elim⟩, fun _ _ => ?_⟩
      refine ⟨⟨fun hs => hs.elim, fun hs => hs.elim⟩, fun v _ => ?_⟩
      change Ensures rings (if v &&& 0x03#8 = c.enc then pure c.entries
        else programFrom reg name caps cs) (Function.update r reg (c.enc.setWidth 32)) _
      split
      · refine ensures_pure.mpr ⟨fun off hoff => Function.update_of_ne hoff _ _, fun n hn => ?_⟩
        cases hn
        exact ⟨c, List.mem_cons_self .., rfl, Function.update_self ..⟩
      · refine (ih (h.update reg hreg _)).mono fun res r' hr => ⟨fun off hoff => ?_, hmore hr.2⟩
        rw [hr.1 off hoff, Function.update_of_ne hoff]

theorem programSize_rings {reg : ℕ} (hreg : reg ≠ corbctl ∧ reg ≠ rirbctl) (name : String)
    (h : r.Off) :
    Ensures rings (programSize reg name) r fun res r' =>
      (∀ off ≠ reg, r' off = r off) ∧
      ∀ n, res = .ok n → ∃ c ∈ choices, c.entries = n ∧ r' reg = c.enc.setWidth 32 :=
  ⟨⟨fun hs => hs.elim, fun hs => hs.elim⟩, fun caps _ =>
    programFrom_rings hreg name caps choices h⟩

theorem choice_of_entries :
    ∀ c ∈ choices, ∀ d ∈ choices, c.entries = d.entries → c = d := by
  decide

theorem ringSize_of_choice {c : Choice} (hc : c ∈ choices) :
    ∃ size : Corb.RingSize, size.entries = c.entries := by
  simp only [choices, List.mem_cons, List.not_mem_nil, or_false] at hc
  rcases hc with rfl | rfl | rfl
  · exact ⟨.n256, rfl⟩
  · exact ⟨.n16, rfl⟩
  · exact ⟨.n2, rfl⟩

/-! ### The two halves -/

/-- Programmed, with the engines off. -/
structure Regs.Prepared (r : Regs) (ring : CorbRing) : Prop where
  off : r.Off
  corbBase : r corbubase ++ r corblbase = ring.rb.toaddr 0
  rirbBase : r rirbubase ++ r rirblbase = ring.rb.toaddr rirbOff
  sizes : ∃ c ∈ choices, c.entries = ring.count ∧ r corbsize = c.enc.setWidth 32 ∧
    r rirbsize = c.enc.setWidth 32
  resolved : ring.rb.Resolved 4096

/-- After the pointers and the RIRB. -/
def Regs.launched (r : Regs) : Regs :=
  Function.update (Function.update (Function.update (Function.update (Function.update
    (Function.update r corbwp 0#32) corbrp (corbrpRst.setWidth 32)) corbrp 0#32)
    rirbwp (rirbwpRst.setWidth 32)) rintcnt 1#32) rirbctl
    ((rirbctlDmaEn ||| rirbctlIrqEn).setWidth 32)

theorem Regs.Prepared.launched {ring : CorbRing} (h : r.Prepared ring) : r.launched.Ready ring where
  corbBase := h.corbBase
  rirbBase := h.rirbBase
  sizes := h.sizes
  corbWp := rfl
  corbRp := rfl
  rirbWp := rfl
  rirbRuns := rfl

theorem waitBit_looks (off : ℕ) (bit : U16) : (waitBit off bit).Asks Op.Looks := by
  have hset : (bitSet off bit).Asks Op.Looks := by simp [bitSet, Op.Looks]
  simp [waitBit, hset.retry, Op.Looks]

theorem launch_rings {ring : CorbRing} (h : r.Prepared ring) :
    Ensures rings (CorbRing.launch ring) r
      (OnOk fun ring' r' =>
        ring' = ring ∧ r'.Ready ring ∧ r' corbctl = corbctlRun.setWidth 32) := by
  have hoff := h.off
  refine (writeU16_rings hoff _).seqOk fun _ r₁ h₁ => ?_
  subst h₁
  have hoff := hoff.update corbwp (by decide) 0#32
  refine (writeU16_rings hoff _).seqOk fun _ r₁ h₁ => ?_
  subst h₁
  have hoff := hoff.update corbrp (by decide) (corbrpRst.setWidth 32)
  refine (looks_rings (waitBit_looks _ _) _).onOk.seqOk fun _ r₁ h₁ => ?_
  subst h₁
  refine (writeU16_rings hoff _).seqOk fun _ r₁ h₁ => ?_
  subst h₁
  have hoff := hoff.update corbrp (by decide) 0#32
  refine (writeU16_rings hoff _).seqOk fun _ r₁ h₁ => ?_
  subst h₁
  have hoff := hoff.update rirbwp (by decide) (rirbwpRst.setWidth 32)
  refine (writeU16_rings hoff _).seqOk fun _ r₁ h₁ => ?_
  subst h₁
  refine (writeU8_rings (fun hs => (hs.2.2.2 rfl).elim) fun hs => by cases hs.1).seqOk
    fun _ r₁ h₁ => ?_
  have hready : r₁.Ready ring := by
    rw [h₁]
    exact h.launched
  refine (writeU8_rings (fun hs => (hs.2.2.1 rfl).elim)
    fun _ => ⟨ring, hready, h.resolved⟩).seqOk fun _ r₂ h₂ => onOk_ok.mpr ⟨rfl, ?_, ?_⟩
  · subst h₂
    obtain ⟨hcorb, hrirb, hsizes, hwp, hrp, hrwp, hruns⟩ := hready
    exact ⟨hcorb, hrirb, hsizes, hwp, hrp, hrwp, hruns⟩
  · rw [h₂]
    rfl

theorem launch_neverFails (ring : CorbRing) : (CorbRing.launch ring).NeverFails := by
  have hwrite : ∀ off v, (writeU16 off v).NeverFails := fun _ _ _ => trivial
  have hwrite8 : ∀ off v, (writeU8 off v).NeverFails := fun _ _ _ => trivial
  have hwait : ∀ off bit, (waitBit off bit).NeverFails := fun off bit n =>
    NeverFails.retry (p := bitSet off bit) (fun _ => trivial) n
  simp [CorbRing.launch, hwrite, hwrite8, hwait]

/-- With the bases of a page. -/
def Regs.based (r : Regs) (rb : DmaBuffer) : Regs :=
  Function.update (Function.update (Function.update (Function.update r
    corblbase ((rb.toaddr 0).setWidth 32)) corbubase ((rb.toaddr 0 >>> 32).setWidth 32))
    rirblbase ((rb.toaddr rirbOff).setWidth 32)) rirbubase ((rb.toaddr rirbOff >>> 32).setWidth 32)

theorem bases_rings (rb : DmaBuffer) (hoff : r.Off) {p : Prog α}
    {Q : Except IoError α → Regs → Prop} (hp : Ensures rings p (r.based rb) Q) :
    Ensures rings (do
      writeU32 corblbase ((rb.toaddr 0).setWidth 32)
      writeU32 corbubase ((rb.toaddr 0 >>> 32).setWidth 32)
      writeU32 rirblbase ((rb.toaddr rirbOff).setWidth 32)
      writeU32 rirbubase ((rb.toaddr rirbOff >>> 32).setWidth 32)
      p) r Q := by
  refine ⟨⟨fun _ => hoff, fun hs => hs.elim⟩, fun _ _ => ?_⟩
  have hoff := hoff.update corblbase (by decide) ((rb.toaddr 0).setWidth 32)
  refine ⟨⟨fun _ => hoff, fun hs => hs.elim⟩, fun _ _ => ?_⟩
  have hoff := hoff.update corbubase (by decide) ((rb.toaddr 0 >>> 32).setWidth 32)
  refine ⟨⟨fun _ => hoff, fun hs => hs.elim⟩, fun _ _ => ?_⟩
  have hoff := hoff.update rirblbase (by decide) ((rb.toaddr rirbOff).setWidth 32)
  exact ⟨⟨fun _ => hoff, fun hs => hs.elim⟩, fun _ _ => hp⟩

theorem sizes_rings {rb : DmaBuffer} (hoff : r.Off)
    (hcorb : r corbubase ++ r corblbase = rb.toaddr 0)
    (hrirb : r rirbubase ++ r rirblbase = rb.toaddr rirbOff) (hres : rb.Resolved 4096) :
    Ensures rings (do
      let count ← programSize corbsize "CORB"
      let rirbCount ← programSize rirbsize "RIRB"
      if rirbCount ≠ count then .fail (.sizesDiffer count rirbCount)
      else pure (⟨rb, count⟩ : CorbRing)) r (Keeping Regs.Off fun ring r' => r'.Prepared ring) := by
  have hkeep : ∀ {r r' : Regs} {reg : ℕ}, r.Off → reg ≠ corbctl ∧ reg ≠ rirbctl →
      (∀ off ≠ reg, r' off = r off) → r'.Off := fun hoff hreg h =>
    ⟨(h _ hreg.1.symm).trans hoff.1, (h _ hreg.2.symm).trans hoff.2⟩
  refine Ensures.seq (P := fun count r' => (∀ off ≠ corbsize, r' off = r off) ∧
    ∃ c ∈ choices, c.entries = count ∧ r' corbsize = c.enc.setWidth 32)
    ((programSize_rings (by decide) "CORB" hoff).mono fun res r' h =>
      ⟨hkeep hoff (by decide) h.1, fun n hn => ⟨h.1, h.2 n hn⟩⟩) fun count r₁ hoff₁ h₁ => ?_
  refine Ensures.seq (P := fun rirbCount r' => (∀ off ≠ rirbsize, r' off = r₁ off) ∧
    ∃ c ∈ choices, c.entries = rirbCount ∧ r' rirbsize = c.enc.setWidth 32)
    ((programSize_rings (by decide) "RIRB" hoff₁).mono fun res r' h =>
      ⟨hkeep hoff₁ (by decide) h.1, fun n hn => ⟨h.1, h.2 n hn⟩⟩) fun rirbCount r₂ hoff₂ h₂ => ?_
  split
  · exact keeping_error.mpr hoff₂
  · rename_i heq
    obtain ⟨hframe₁, c, hc, hcount, henc⟩ := h₁
    obtain ⟨hframe₂, d, hd, hcount', henc'⟩ := h₂
    have hcd : c = d := choice_of_entries c hc d hd
      (hcount.trans ((not_not.mp heq).symm.trans hcount'.symm))
    subst hcd
    have hsame : ∀ off, off ≠ corbsize → off ≠ rirbsize → r₂ off = r off :=
      fun off h h' => (hframe₂ off h').trans (hframe₁ off h)
    refine keeping_ok.mpr ⟨hoff₂, hoff₂, ?_, ?_, ⟨c, hc, hcount, ?_, henc'⟩, hres⟩
    · rw [hsame corbubase (by decide) (by decide), hsame corblbase (by decide) (by decide), hcorb]
    · rw [hsame rirbubase (by decide) (by decide), hsame rirblbase (by decide) (by decide), hrirb]
    · rw [hframe₂ corbsize (by decide), henc]

theorem prepare_rings (r : Regs) :
    Ensures rings CorbRing.prepare r (Keeping Regs.Off fun ring r' => r'.Prepared ring) := by
  refine ⟨⟨fun hs => (hs.2.2.1 rfl).elim, fun hs => (hs.2 (by decide)).elim⟩, fun _ _ => ?_⟩
  refine ⟨⟨fun hs => (hs.2.2.2 rfl).elim, fun hs => (hs.2 (by decide)).elim⟩, fun _ _ => ?_⟩
  have hoff : Regs.Off (Function.update (Function.update r corbctl 0#32) rirbctl 0#32) :=
    ⟨rfl, rfl⟩
  have hnew : (DmaBuffer.new 4096).Asks Op.Looks := (DmaBuffer.new_asks 4096).mono fun o ho => by
    cases o <;> first | exact ho.elim | trivial
  change Ensures rings (DmaBuffer.new 4096 >>= _)
    (Function.update (Function.update r corbctl 0#32) rirbctl 0#32) _
  have hpage : Ensures rings (DmaBuffer.new 4096)
      (Function.update (Function.update r corbctl 0#32) rirbctl 0#32)
      (Keeping Regs.Off fun rb _ => rb.Resolved 4096) :=
    (looks_rings hnew _).yields.mono fun res r' h =>
      ⟨h.1 ▸ hoff, fun b hb => DmaBuffer.new_yields (h.2 b hb)⟩
  refine hpage.seq fun rb r' hoff hres => bases_rings rb hoff (sizes_rings ?_ ?_ ?_ hres)
  · exact (((hoff.update _ (by decide) _).update _ (by decide) _).update _ (by decide) _).update _
      (by decide) _
  · exact words_append _
  · exact words_append _

/-- Whatever the device answers and whatever its registers held: nothing of the rings is
written while an engine runs, the CORB is set running on a complete ring only, and where it
fails, both engines are off. -/
theorem init_rings (r : Regs) : Ensures rings CorbRing.init r fun res r' =>
    (∀ ring, res = .ok ring → r'.Ready ring ∧ r' corbctl = corbctlRun.setWidth 32 ∧
      ring.rb.Resolved 4096 ∧ ∃ size : Corb.RingSize, size.entries = ring.count) ∧
    ∀ e, res = .error e → r'.Off := by
  refine ensures_bind.mpr ((prepare_rings r).mono fun res r₁ h₁ => ?_)
  cases res with
  | error e => exact ⟨fun ring h => (by cases h), fun _ _ => h₁.1⟩
  | ok ring =>
    have hprepared := (keeping_ok.mp h₁).2
    refine ((launch_neverFails ring).ensures (launch_rings hprepared)).mono fun res r₂ h₂ => ?_
    obtain ⟨ring', rfl, rfl, hready, hrun⟩ := h₂
    refine ⟨fun ring' h => ?_, fun e h => (by cases h)⟩
    cases h
    obtain ⟨c, hc, hcount, -⟩ := hready.sizes
    exact ⟨hready, hrun, hprepared.resolved, hcount ▸ ringSize_of_choice hc⟩

end

/-! ### What the hardware offers -/

def firstNext (reg : ℕ) : Option U8 → (o : Op) → o.Ans → Option U8
  | none, .readU8 off, v => if off = reg then some v else none
  | first, _, _ => first

/-- What `reg` answered first. -/
def firstRead (reg : ℕ) (h : History) : Option U8 :=
  (Monitor.follow (firstNext reg)).after none h

/-- One of the sizes in the capability bits. -/
def Offers (caps : U8) (n : ℕ) : Prop := ∃ c ∈ choices, c.entries = n ∧ caps &&& c.cap ≠ 0#8

section

variable {reg : ℕ}

theorem first_stays (p : Prog α) (v : U8) :
    Ensures (Monitor.follow (firstNext reg)) p (some v) fun _ s => s = some v := by
  refine (asks_true p).ensures (m := Monitor.follow (firstNext reg)) (I := fun s => s = some v)
    (fun _ _ _ _ => trivial) ?_ rfl
  rintro s o x - rfl -
  rfl

theorem first_waits {p : Prog α} (hp : p.Asks fun o => o ≠ .readU8 reg) :
    Ensures (Monitor.follow (firstNext reg)) p none fun _ s => s = none := by
  refine hp.ensures (m := Monitor.follow (firstNext reg)) (I := fun s => s = none)
    (fun _ _ _ _ => trivial) ?_ rfl
  rintro s o x ho rfl -
  cases o <;> first | rfl | skip
  exact if_neg fun heq => ho (congrArg Op.readU8 heq)

theorem programFrom_offers (name : String) (caps : U8) {cs : List Choice}
    (hcs : ∀ c ∈ cs, c ∈ choices) {n : ℕ} (h : (programFrom reg name caps cs).Yields n) :
    Offers caps n := by
  induction cs with
  | nil => exact h.elim
  | cons c cs ih =>
    have hrest := ih fun d hd => hcs d (List.mem_cons_of_mem c hd)
    rw [programFrom] at h
    split at h
    · exact hrest h
    · rename_i hcap
      simp only [yields_bind, yields_ite, pure_eq, yields_done] at h
      obtain ⟨_, -, v, -, h⟩ := h
      split at h
      · exact ⟨c, hcs c (List.mem_cons_self ..), h, hcap⟩
      · exact hrest h

theorem programSize_offers (name : String) :
    Ensures (Monitor.follow (firstNext reg)) (programSize reg name) none
      (OnOk fun n s => ∃ caps, s = some caps ∧ Offers caps n) := by
  refine ⟨trivial, fun caps _ => ?_⟩
  rw [show (Monitor.follow (firstNext reg)).next none (.readU8 reg) caps = some caps from
    if_pos rfl]
  refine (first_stays _ caps).yields.mono fun res s h n hn => ?_
  exact ⟨caps, h.1, programFrom_offers name caps (fun _ hc => hc) (h.2 n hn)⟩

theorem programSize_waits {reg' : ℕ} (hne : reg' ≠ reg) (name : String) :
    (programSize reg' name).Asks fun o => o ≠ .readU8 reg := by
  have hread : Op.readU8 reg' ≠ .readU8 reg := fun h => hne (Op.readU8.inj h)
  have hfrom : ∀ caps cs, (programFrom reg' name caps cs).Asks fun o => o ≠ .readU8 reg := by
    intro caps cs
    induction cs with
    | nil => trivial
    | cons c cs ih => simp [programFrom, ih, hread]
  simp [programSize, hread, hfrom]

theorem new_waits (size : ℕ) : (DmaBuffer.new size).Asks fun o => o ≠ .readU8 reg :=
  (DmaBuffer.new_asks size).mono fun o ho heq => by rw [heq] at ho; exact ho

theorem launch_yields {ring ring' : CorbRing} (h : (CorbRing.launch ring).Yields ring') :
    ring' = ring := by
  simp only [CorbRing.launch, yields_bind, pure_eq, yields_done] at h
  obtain ⟨_, -, _, -, _, -, _, -, _, -, _, -, _, -, _, -, rfl⟩ := h
  rfl

theorem init_first
    (hsizes : ∀ rb, Ensures (Monitor.follow (firstNext reg)) (do
      let count ← programSize corbsize "CORB"
      let rirbCount ← programSize rirbsize "RIRB"
      if rirbCount ≠ count then .fail (.sizesDiffer count rirbCount)
      else pure (⟨rb, count⟩ : CorbRing)) none
        (OnOk fun ring s => ∃ caps, s = some caps ∧ Offers caps ring.count)) :
    Ensures (Monitor.follow (firstNext reg)) CorbRing.init none
      (OnOk fun ring s => ∃ caps, s = some caps ∧ Offers caps ring.count) := by
  have hprepare : Ensures (Monitor.follow (firstNext reg)) CorbRing.prepare none
      (OnOk fun ring s => ∃ caps, s = some caps ∧ Offers caps ring.count) := by
    refine ⟨trivial, fun _ _ => ⟨trivial, fun _ _ => ?_⟩⟩
    refine (first_waits (new_waits 4096)).onOk.seqOk fun rb s hs => ?_
    subst hs
    exact ⟨trivial, fun _ _ => ⟨trivial, fun _ _ => ⟨trivial, fun _ _ =>
      ⟨trivial, fun _ _ => hsizes rb⟩⟩⟩⟩
  refine hprepare.seqOk fun ring s hs => ?_
  obtain ⟨caps, rfl, hoffers⟩ := hs
  refine (first_stays _ caps).yields.mono fun res s h ring' hring' => ⟨caps, h.1, ?_⟩
  rw [launch_yields (h.2 ring' hring')]
  exact hoffers

theorem init_offers_corb :
    Ensures (Monitor.follow (firstNext corbsize)) CorbRing.init none
      (OnOk fun ring s => ∃ caps, s = some caps ∧ Offers caps ring.count) := by
  refine init_first fun rb => (programSize_offers "CORB").seqOk fun count s hs => ?_
  obtain ⟨caps, rfl, hoffers⟩ := hs
  refine (first_stays _ caps).onOk.seqOk fun rirbCount s hs => ?_
  subst hs
  split
  · exact onOk_error
  · exact onOk_ok.mpr ⟨caps, rfl, hoffers⟩

theorem init_offers_rirb :
    Ensures (Monitor.follow (firstNext rirbsize)) CorbRing.init none
      (OnOk fun ring s => ∃ caps, s = some caps ∧ Offers caps ring.count) := by
  refine init_first fun rb =>
    (first_waits (programSize_waits (by decide) "CORB")).onOk.seqOk fun count s hs => ?_
  subst hs
  refine (programSize_offers "RIRB").seqOk fun rirbCount s hs => ?_
  obtain ⟨caps, rfl, hoffers⟩ := hs
  split
  · exact onOk_error
  · rename_i hsame
    exact onOk_ok.mpr ⟨caps, rfl, not_not.mp hsame ▸ hoffers⟩

end

/-- The registers, after whatever was asked. -/
def Regs.after (r : Regs) (h : History) : Regs := rings.after r h

/-- `CorbRing::init` at any point of a run, whatever the registers held. A ring it returns
runs, and its size is one that both registers offered. -/
theorem init_run (env : Env) (h : History) (r : Regs) :
    (∀ pre e post, (run env CorbRing.init h).2 = pre ++ e :: post → h.length ≤ pre.length →
      (e.1.RingWrite → (r.after pre).Off) ∧
      (e.1.StartsCorb → ∃ ring, (r.after pre).Ready ring ∧ ring.rb.Resolved 4096)) ∧
    (∀ ring, (run env CorbRing.init h).1 = .ok ring →
      (r.after (run env CorbRing.init h).2).Ready ring ∧
        r.after (run env CorbRing.init h).2 corbctl = corbctlRun.setWidth 32 ∧
        ring.rb.Resolved 4096 ∧
        ∃ new, (run env CorbRing.init h).2 = h ++ new ∧ ∀ reg ∈ [corbsize, rirbsize],
          ∃ caps, firstRead reg new = some caps ∧ Offers caps ring.count) ∧
    ∀ e, (run env CorbRing.init h).1 = .error e → (r.after (run env CorbRing.init h).2).Off := by
  have henv : rings.Heeds r env := fun _ _ => trivial
  obtain ⟨hmay, hok, herror⟩ := (init_rings (r.after h)).run henv
  refine ⟨hmay, fun ring hring => ?_, herror⟩
  obtain ⟨hready, hrun, hres, -⟩ := hok ring hring
  obtain ⟨new, hnew, hcorb⟩ := init_offers_corb.since env h
  obtain ⟨new', hnew', hrirb⟩ := init_offers_rirb.since env h
  obtain rfl : new' = new := List.append_cancel_left (hnew'.symm.trans hnew)
  refine ⟨hready, hrun, hres, new', hnew, fun reg hreg => ?_⟩
  simp only [List.mem_cons, List.not_mem_nil, or_false] at hreg
  rcases hreg with rfl | rfl
  · exact hcorb ring hring
  · exact hrirb ring hring

end Audiod.Driver
