import Audiod.Transport

/-!
# One engine at a time (`hda/src/controller.rs:238-353`, `corb.rs:98-215`)

What a session does at its registers, verbs and all: where it touches the page of the
rings both engines run and no immediate command was given yet, and an immediate command is
given with both off, to an interface that was seen idle. Seen from above it is a session
that sends the same verbs.
-/

namespace Audiod.Driver

open Dialogue

/-! ### What has been done so far -/

/-- A command word for the immediate interface. -/
def Op.immediate : Op → Option U32
  | .writeU32 off v => if off = ic then some v else none
  | _ => none

def transportRegs : List ℕ := [corbwp, corbrp, corbctl, rirbwp, rirbctl, ic, ir, irs]

/-- What `verb_raw` never asks. -/
def Op.ordinary : Op → Bool
  | .readU8 off | .readU16 off | .readU32 off => !transportRegs.contains off
  | .writeU8 off _ | .writeU16 off _ | .writeU32 off _ => !transportRegs.contains off
  | .verb _ | .polls | .munlock _ _ | .munmap _ _ => false
  | _ => true

def ordinary (h : History) : History := h.filter (·.1.ordinary)

def verbWords (h : History) : List U32 :=
  h.filterMap fun e => match e.1 with
    | .verb word => some word
    | _ => none

/-- How far the last accesses have come with an immediate command. -/
inductive Hand
  | no
  | idle
  | cleared

/-- IRS was read as idle; and then its valid bit was cleared. -/
def Hand.next : Hand → (o : Op) → o.Ans → Hand
  | _, .readU16 off, v => if off = irs ∧ v &&& irsBusy = 0#16 then .idle else .no
  | .idle, .writeU16 off v, _ => if off = irs ∧ v = irsValid then .cleared else .no
  | _, _, _ => .no

/-- The registers as they were last written, the words put into the CORB and those given to
the immediate interface, and what was asked outside the transport. -/
structure Watch where
  regs : Regs
  ring : List U32
  immediate : List U32
  hand : Hand
  other : History

/-- Nothing asked yet, the registers as the device has them. -/
def Watch.init (r : Regs) : Watch := ⟨r, [], [], .no, []⟩

def Watch.next (w : Watch) : (o : LinkOp) → o.Ans → Watch
  | .io o, x =>
    { regs := w.regs.next o x
      ring := w.ring
      immediate := w.immediate ++ o.immediate.toList
      hand := w.hand.next o x
      other := w.other ++ ordinary [⟨o, x⟩] }
  | .ringWrite _ word, _ => { w with ring := w.ring ++ [word], hand := .no }
  | .ringRead _, _ => { w with hand := .no }

/-- Both engines run. -/
def Regs.Running (r : Regs) : Prop :=
  r corbctl = corbctlRun.setWidth 32 ∧
    r rirbctl = (rirbctlDmaEn ||| rirbctlIrqEn).setWidth 32

/-- The CORB is below the RIRB, and both are in their page. No verb is left. -/
def LinkOp.Contained : LinkOp → Prop
  | .io o => o.Mapped ∧ ¬ o.IsVerb
  | .ringWrite off _ => off % 4 = 0 ∧ off + 4 ≤ rirbOff
  | .ringRead off => rirbOff ≤ off ∧ off + 8 ≤ pageSize

def LinkOp.OnRing : LinkOp → Prop
  | .io _ => False
  | .ringWrite _ _ | .ringRead _ => True

def LinkOp.Commands : LinkOp → Prop
  | .io o => o.immediate ≠ none
  | .ringWrite _ _ | .ringRead _ => False

def linkWatch : Monitor LinkOp.Ans Watch where
  may w o := o.Contained ∧ (o.OnRing → w.regs.Running ∧ w.immediate = []) ∧
    (o.Commands → w.regs.Off ∧ w.hand = .cleared)
  can _ _ _ := True
  next := Watch.next

/-- Nothing was done with the engines in between. -/
structure Watch.Kept (w w' : Watch) : Prop where
  corb : w'.regs corbctl = w.regs corbctl
  rirb : w'.regs rirbctl = w.regs rirbctl
  ring : w'.ring = w.ring
  immediate : w'.immediate = w.immediate
  other : w'.other = w.other

namespace Watch

variable {w w' w'' : Watch}

theorem Kept.refl (w : Watch) : w.Kept w := ⟨rfl, rfl, rfl, rfl, rfl⟩

theorem Kept.trans (h : w.Kept w') (h' : w'.Kept w'') : w.Kept w'' :=
  ⟨h'.corb.trans h.corb, h'.rirb.trans h.rirb, h'.ring.trans h.ring,
    h'.immediate.trans h.immediate, h'.other.trans h.other⟩

theorem Kept.running (h : w.Kept w') (hw : w.regs.Running) : w'.regs.Running :=
  ⟨h.corb.trans hw.1, h.rirb.trans hw.2⟩

theorem Kept.off (h : w.Kept w') (hw : w.regs.Off) : w'.regs.Off :=
  ⟨h.corb.trans hw.1, h.rirb.trans hw.2⟩

end Watch

/-! ### Asking without doing -/

/-- An access that neither runs or stops an engine nor gives a command. -/
structure Op.Apart (o : Op) : Prop where
  mapped : o.Mapped
  verb : ¬ o.IsVerb
  immediate : o.immediate = none
  corb : ∀ r x, Regs.next r o x corbctl = r corbctl
  rirb : ∀ r x, Regs.next r o x rirbctl = r rirbctl

/-- One of the transport. -/
structure Op.Quiet (o : Op) : Prop extends o.Apart where
  ordinary : o.ordinary = false

/-- And the RIRB, if it is live. -/
def LinkOp.Looks (live : Prop) : LinkOp → Prop
  | .io o => o.Quiet
  | .ringWrite _ _ => False
  | .ringRead off => live ∧ rirbOff ≤ off ∧ off + 8 ≤ pageSize

theorem quiet_readU16 {off : ℕ} (h : off ∈ [corbwp, corbrp, rirbwp, irs]) :
    (Op.readU16 off).Quiet := by
  simp only [List.mem_cons, List.not_mem_nil, or_false] at h
  rcases h with rfl | rfl | rfl | rfl <;>
    exact ⟨⟨by decide, id, rfl, fun _ _ => rfl, fun _ _ => rfl⟩, rfl⟩

theorem quiet_ir : (Op.readU32 ir).Quiet :=
  ⟨⟨by decide, id, rfl, fun _ _ => rfl, fun _ _ => rfl⟩, rfl⟩

theorem quiet_polls : Op.polls.Quiet :=
  ⟨⟨by decide, id, rfl, fun _ _ => rfl, fun _ _ => rfl⟩, rfl⟩

theorem quiet_writeU16 {off : ℕ} (h : off = corbwp ∨ off = irs) (v : U16) :
    (Op.writeU16 off v).Quiet := by
  rcases h with rfl | rfl <;>
    exact ⟨⟨by simp [Op.Mapped, Op.access, mmioCheck, barLen, corbwp, irs], id, rfl,
      fun _ _ => rfl, fun _ _ => rfl⟩, rfl⟩

theorem quiet_munlock (ptr : U64) (len : ℕ) : (Op.munlock ptr len).Quiet :=
  ⟨⟨fun _ h => (by cases h), id, rfl, fun _ _ => rfl, fun _ _ => rfl⟩, rfl⟩

theorem quiet_munmap (ptr : U64) (len : ℕ) : (Op.munmap ptr len).Quiet :=
  ⟨⟨fun _ h => (by cases h), id, rfl, fun _ _ => rfl, fun _ _ => rfl⟩, rfl⟩

theorem ordinary_false {o : Op} (h : o.ordinary = false) (x : o.Ans) :
    ordinary [⟨o, x⟩] = [] := by
  simp [ordinary, h]

section

variable {w : Watch} {o : Op}

theorem Op.Quiet.kept (h : o.Quiet) (w : Watch) (x : o.Ans) : w.Kept (w.next (.io o) x) where
  corb := h.corb w.regs x
  rirb := h.rirb w.regs x
  ring := rfl
  immediate := by simp [Watch.next, h.immediate]
  other := by simp [Watch.next, ordinary_false h.ordinary]

theorem Op.Apart.may (h : o.Apart) (w : Watch) : linkWatch.may w (.io o) :=
  ⟨⟨h.mapped, h.verb⟩, fun hr => hr.elim, fun hc => (hc h.immediate).elim⟩

theorem looks_kept {live : Prop} {p : LinkProg α} (hp : p.Asks (LinkOp.Looks live))
    (hlive : live → w.regs.Running ∧ w.immediate = []) :
    Ensures linkWatch p w fun _ w' => w.Kept w' := by
  refine hp.ensures (m := linkWatch) (I := fun w' => w.Kept w') ?_ ?_ (Watch.Kept.refl w)
  · intro w' o ho hkept
    cases o with
    | io o => exact Op.Apart.may ho.toApart w'
    | ringWrite off word => exact ho.elim
    | ringRead off =>
      refine ⟨ho.2, fun _ => ?_, fun h => h.elim⟩
      exact ⟨hkept.running (hlive ho.1).1, hkept.immediate.trans (hlive ho.1).2⟩
  · intro w' o x ho hkept _
    cases o with
    | io o => exact hkept.trans (Op.Quiet.kept ho w' x)
    | ringWrite off word => exact ho.elim
    | ringRead off => exact hkept.trans ⟨rfl, rfl, rfl, rfl, rfl⟩

namespace Transport

variable {α : Type} {Q : Except IoError α → Watch → Prop}

theorem quiet_bind (h : o.Quiet) {f : o.Ans → LinkProg α}
    (hf : ∀ x w', w.Kept w' → Ensures linkWatch (f x) w' Q) :
    Ensures linkWatch (io o >>= f) w Q :=
  ⟨h.toApart.may w, fun x _ => hf x _ (h.kept w x)⟩

/-- The watch with a word put into the CORB, and with one given to the interface. -/
def onRing (w : Watch) (word : U32) : Watch := { w with ring := w.ring ++ [word] }

def onPio (w : Watch) (word : U32) : Watch := { w with immediate := w.immediate ++ [word] }

theorem kept_onRing {w w' : Watch} (h : w.Kept w') (word : U32) :
    (onRing w word).Kept (onRing w' word) :=
  ⟨h.corb, h.rirb, congrArg (· ++ [word]) h.ring, h.immediate, h.other⟩

theorem kept_onPio {w w' : Watch} (h : w.Kept w') (word : U32) :
    (onPio w word).Kept (onPio w' word) :=
  ⟨h.corb, h.rirb, h.ring, congrArg (· ++ [word]) h.immediate, h.other⟩

theorem ringWrite_bind {off : ℕ} {word : U32} (hfit : off % 4 = 0 ∧ off + 4 ≤ rirbOff)
    (hrun : w.regs.Running) (himm : w.immediate = []) {f : Unit → LinkProg α}
    (hf : ∀ w', (onRing w word).Kept w' → Ensures linkWatch (f ()) w' Q) :
    Ensures linkWatch ((.ask (.ringWrite off word) .done : LinkProg Unit) >>= f) w Q :=
  ⟨⟨hfit, fun _ => ⟨hrun, himm⟩, fun h => h.elim⟩, fun _ _ => hf _ ⟨rfl, rfl, rfl, rfl, rfl⟩⟩

theorem clear_bind (hidle : w.hand = .idle) {f : Unit → LinkProg α}
    (hf : ∀ w', w.Kept w' → w'.hand = .cleared → Ensures linkWatch (f ()) w' Q) :
    Ensures linkWatch (io (.writeU16 irs irsValid) >>= f) w Q := by
  have hquiet := quiet_writeU16 (.inr rfl) irsValid
  refine ⟨hquiet.toApart.may w, fun x _ => hf _ (hquiet.kept w x) ?_⟩
  change w.hand.next (.writeU16 irs irsValid) x = .cleared
  rw [hidle]
  rfl

theorem command_bind (hoff : w.regs.Off) (hcleared : w.hand = .cleared) {word : U32}
    {f : Unit → LinkProg α}
    (hf : ∀ w', (onPio w word).Kept w' → Ensures linkWatch (f ()) w' Q) :
    Ensures linkWatch (io (.writeU32 ic word) >>= f) w Q := by
  refine ⟨⟨⟨by simp [Op.Mapped, Op.access, mmioCheck, barLen, ic], id⟩, fun h => h.elim,
    fun _ => ⟨hoff, hcleared⟩⟩, fun x _ => hf _ ⟨rfl, rfl, rfl, rfl, ?_⟩⟩
  exact List.append_nil _

theorem engine_bind {off : ℕ} (hoff : off = corbctl ∨ off = rirbctl) {v : U8}
    {f : Unit → LinkProg α}
    (hf : ∀ w', w'.regs = Function.update w.regs off (v.setWidth 32) → w'.ring = w.ring →
      w'.immediate = w.immediate → w'.other = w.other → Ensures linkWatch (f ()) w' Q) :
    Ensures linkWatch (io (.writeU8 off v) >>= f) w Q := by
  have hord : (Op.writeU8 off v).ordinary = false := by
    rcases hoff with rfl | rfl <;> rfl
  have hmapped : (Op.writeU8 off v).Mapped := by
    rcases hoff with rfl | rfl <;>
      simp [Op.Mapped, Op.access, mmioCheck, barLen, corbctl, rirbctl]
  refine ⟨⟨⟨hmapped, id⟩, fun h => h.elim, fun h => (h rfl).elim⟩, fun x _ => ?_⟩
  refine hf _ rfl rfl (List.append_nil _) ?_
  change w.other ++ ordinary [⟨.writeU8 off v, x⟩] = w.other
  rw [ordinary_false hord, List.append_nil]

end Transport

end

namespace Transport

/-! ### The rings -/

theorem collectFrom_lt {hwWp count fuel rp : ℕ} (hc : 0 < count) :
    ∀ i ∈ Corb.collectFrom id hwWp count fuel rp, i < count := by
  induction fuel generalizing rp with
  | zero => exact fun i hi => (List.not_mem_nil hi).elim
  | succ fuel ih =>
    intro i hi
    rw [Corb.collectFrom] at hi
    split at hi
    · exact (List.not_mem_nil hi).elim
    · rcases List.mem_cons.mp hi with rfl | hi
      · exact Nat.mod_lt _ hc
      · exact ih i hi

theorem entries_bound (size : Corb.RingSize) : 0 < size.entries ∧ size.entries ≤ 256 := by
  cases size <;> decide

theorem readEntries_asks {is : List ℕ} (h : ∀ i ∈ is, i < 256) :
    (readEntries is).Asks (LinkOp.Looks True) := by
  induction is with
  | nil => trivial
  | cons i is ih =>
    have hi := h i (List.mem_cons_self ..)
    have hlook : LinkOp.Looks True (.ringRead (rirbOff + i * 8)) := by
      refine ⟨trivial, ?_, ?_⟩
      · exact Nat.le_add_right ..
      · rw [rirbOff, pageSize]
        omega
    simp [readEntries, hlook, ih fun j hj => h j (List.mem_cons_of_mem _ hj)]

theorem readEntries_neverFails (is : List ℕ) : (readEntries is).NeverFails := by
  induction is with
  | nil => trivial
  | cons i is ih => simp [readEntries, ih]

theorem pop_ring (s : RingState) : (pop s).1.ring = s.ring := by
  unfold pop
  split <;> rfl

variable {s : RingState} {size : Corb.RingSize}

theorem poll_asks (hsize : size.entries = s.ring.count) (cad : U32) :
    (poll s cad).Asks (LinkOp.Looks True) := by
  obtain ⟨hpos, hle⟩ := entries_bound size
  have hread : ∀ hwWp, (readEntries (Corb.collectEntries id s.swRp hwWp s.ring.count)).Asks
      (LinkOp.Looks True) := fun hwWp =>
    readEntries_asks fun i hi => by
      have hlt := collectFrom_lt (hsize ▸ hpos) i hi
      omega
  have hlook : LinkOp.Looks True (.io (.readU16 rirbwp)) := quiet_readU16 (by simp)
  simp [poll, drain, io, hread, hlook]

theorem poll_neverFails (s : RingState) (cad : U32) : (poll s cad).NeverFails := by
  simp [poll, drain, io, readEntries_neverFails]

theorem poll_ring {cad : U32} {x : RingState × Option (Except Corb.Err U32)}
    (h : (poll s cad).Yields x) : x.1.ring = s.ring := by
  simp only [poll, drain, yields_bind, yields_ite, pure_eq, yields_done] at h
  obtain ⟨v, -, h⟩ := h
  split at h
  · rw [← h]
  · split at h
    · rw [← h]
    · obtain ⟨s', ⟨_, -, rfl⟩, rfl⟩ := h
      exact pop_ring _

theorem pollFor_looks (hsize : size.entries = s.ring.count) (cad : U32) (n : ℕ) :
    (pollFor cad n s).Asks (LinkOp.Looks True) ∧ (pollFor cad n s).NeverFails ∧
      ∀ x, (pollFor cad n s).Yields x → x.1.ring = s.ring := by
  induction n generalizing s with
  | zero =>
    have hpoll := poll_asks hsize cad
    refine ⟨by simp [pollFor, hpoll], by simp [pollFor, poll_neverFails], fun y hy => ?_⟩
    obtain ⟨x, hx, hy⟩ := yields_bind.mp hy
    cases hy
    exact poll_ring hx
  | succ n ih =>
    have hstep : ∀ x, (poll s cad).Yields x →
        (pollFor cad n x.1).Asks (LinkOp.Looks True) ∧ (pollFor cad n x.1).NeverFails ∧
          ∀ y, (pollFor cad n x.1).Yields y → y.1.ring = x.1.ring := fun x hx =>
      ih (hsize.trans (congrArg CorbRing.count (poll_ring hx)).symm)
    rw [pollFor]
    refine ⟨asks_bind.mpr ⟨poll_asks hsize cad, fun x hx => ?_⟩,
      neverFails_bind.mpr ⟨poll_neverFails s cad, fun x hx => ?_⟩, fun y hy => ?_⟩
    · rcases x with ⟨s', _ | r⟩
      · exact (hstep _ hx).1
      · trivial
    · rcases x with ⟨s', _ | r⟩
      · exact (hstep _ hx).2.1
      · trivial
    · obtain ⟨⟨s', r⟩, hx, hy⟩ := yields_bind.mp hy
      cases r with
      | none => exact ((hstep _ hx).2.2 y hy).trans (poll_ring hx)
      | some r =>
        cases hy
        exact poll_ring hx

theorem waitResponse_looks (hsize : size.entries = s.ring.count) (cad : U32) :
    (waitResponse s cad).Asks (LinkOp.Looks True) ∧ (waitResponse s cad).NeverFails ∧
      ∀ x, (waitResponse s cad).Yields x → x.1.ring = s.ring := by
  have hpop := pop_ring s
  unfold waitResponse
  split
  · rename_i s' r heq
    rw [heq] at hpop
    refine ⟨trivial, trivial, fun x hx => ?_⟩
    cases hx
    exact hpop
  · rename_i s' heq
    rw [heq] at hpop
    have hsize' : size.entries = s'.ring.count := by
      rw [hsize, ← hpop]
    have hpolls : LinkOp.Looks True (.io .polls) := quiet_polls
    refine ⟨?_, ?_, fun x hx => ?_⟩
    · exact asks_bind.mpr ⟨by simp [io, hpolls], fun n _ => (pollFor_looks hsize' cad n).1⟩
    · exact neverFails_bind.mpr ⟨fun _ => trivial, fun n _ => (pollFor_looks hsize' cad n).2.1⟩
    · obtain ⟨n, -, hn⟩ := yields_bind.mp hx
      exact ((pollFor_looks hsize' cad n).2.2 x hn).trans hpop

/-! ### A verb -/

variable {w : Watch} {cmdword : U32}

/- A verb that could not be put into the ring has done nothing. -/
theorem send_watch (hsize : size.entries = s.ring.count) (hrun : w.regs.Running)
    (himm : w.immediate = []) :
    Ensures linkWatch (send s cmdword) w (Returns fun r w' =>
      match r with
      | .error _ => w.Kept w'
      | .ok () => (onRing w cmdword).Kept w') := by
  obtain ⟨hpos, hle⟩ := entries_bound size
  refine quiet_bind (quiet_readU16 (by simp)) fun wp w₁ h₁ => ?_
  refine quiet_bind (quiet_readU16 (by simp)) fun rp w₂ h₂ => ?_
  have hkept := h₁.trans h₂
  have hnext : (pointer wp % s.ring.count + 1) % s.ring.count < s.ring.count :=
    Nat.mod_lt _ (hsize ▸ hpos)
  dsimp only
  split
  · exact ⟨_, rfl, hkept⟩
  · generalize (pointer wp % s.ring.count + 1) % s.ring.count = next at hnext ⊢
    have hfit : next * 4 % 4 = 0 ∧ next * 4 + 4 ≤ rirbOff := by
      rw [rirbOff]
      omega
    refine ringWrite_bind hfit (hkept.running hrun) (hkept.immediate.trans himm) fun w₃ h₃ => ?_
    refine quiet_bind (quiet_writeU16 (.inl rfl) _) fun _ w₄ h₄ => ⟨_, rfl, ?_⟩
    exact (kept_onRing hkept cmdword).trans (h₃.trans h₄)

theorem corbVerb_watch (hsize : size.entries = s.ring.count) (hrun : w.regs.Running)
    (himm : w.immediate = []) :
    Ensures linkWatch (corbVerb s cmdword) w (Returns fun x w' =>
      x.1.ring = s.ring ∧ (w.Kept w' ∨ (onRing w cmdword).Kept w')) := by
  refine (send_watch hsize hrun himm).bindReturns fun r w₁ hsent => ?_
  cases r with
  | error e => exact ⟨_, rfl, rfl, .inl hsent⟩
  | ok u =>
    obtain ⟨hasks, hnever, hring⟩ := waitResponse_looks hsize (cmdword >>> 28)
    have hwait := (looks_kept hasks fun _ =>
      ⟨hsent.running hrun, hsent.immediate.trans himm⟩).yields
    have hreturns := NeverFails.ensures (P := fun x w' => x.1.ring = s.ring ∧ w₁.Kept w') hnever
      (hwait.mono fun r w' h x hx => ⟨hring x (h.2 x hx), h.1⟩)
    refine hreturns.bindReturns fun x w₂ hx => ?_
    rcases x with ⟨s', e | r⟩
    · exact ⟨_, rfl, hx.1, .inr (hsent.trans hx.2)⟩
    · exact ⟨_, rfl, hx.1, .inr (hsent.trans hx.2)⟩

/- Where the wait ends well, the last access was a read of an idle IRS. -/
theorem idle_watch (n : ℕ) :
    Ensures linkWatch ((irsIs irsBusy false).retry n) w (Returns fun b w' =>
      w.Kept w' ∧ (b = true → w'.hand = .idle)) := by
  have hread : ∀ w, Ensures linkWatch (irsIs irsBusy false) w (Returns fun b w' =>
      w.Kept w' ∧ (b = true → w'.hand = .idle)) := by
    intro w
    have hquiet : (Op.readU16 irs).Quiet := quiet_readU16 (by simp)
    refine ⟨hquiet.toApart.may w, fun v _ => ⟨_, rfl, hquiet.kept w v, fun hidle => ?_⟩⟩
    have hzero : v &&& irsBusy = 0#16 := by simpa using hidle
    exact if_pos ⟨rfl, hzero⟩
  induction n generalizing w with
  | zero => exact hread w
  | succ n ih =>
    refine (hread w).bindReturns fun b w₁ hb => ?_
    cases b with
    | true => exact ⟨true, rfl, hb⟩
    | false => exact ih.returns_mono fun b w₂ h => ⟨hb.1.trans h.1, h.2⟩

theorem valid_watch (n : ℕ) :
    Ensures linkWatch ((irsIs irsValid true).retry n) w (Returns fun _ w' => w.Kept w') := by
  have hlook : LinkOp.Looks False (.io (.readU16 irs)) := quiet_readU16 (by simp)
  have hasks : (irsIs irsValid true).Asks (LinkOp.Looks False) := by
    simp [irsIs, io, hlook]
  have hnever : (irsIs irsValid true).NeverFails := fun _ => trivial
  exact (hnever.retry n).ensures (looks_kept (hasks.retry n) fun h => h.elim).onOk

theorem pioVerb_watch (hoff : w.regs.Off) :
    Ensures linkWatch (pioVerb cmdword) w (Returns fun _ w' =>
      w.Kept w' ∨ (onPio w cmdword).Kept w') := by
  refine (idle_watch 50).bindReturns fun b w₁ hb => ?_
  cases b with
  | false => exact ⟨_, rfl, .inl hb.1⟩
  | true =>
    refine clear_bind (hb.2 rfl) fun w₂ h₂ hcleared => ?_
    have hkept := hb.1.trans h₂
    refine command_bind (hkept.off hoff) hcleared fun w₃ h₃ => ?_
    have hgiven := (kept_onPio hkept cmdword).trans h₃
    refine quiet_bind (quiet_readU16 (by simp)) fun v w₄ h₄ => ?_
    refine quiet_bind (quiet_writeU16 (.inr rfl) _) fun _ w₅ h₅ => ?_
    refine quiet_bind quiet_polls fun n w₆ h₆ => ?_
    refine (valid_watch n).bindReturns fun valid w₇ h₇ => ?_
    have hlast := hgiven.trans (h₄.trans (h₅.trans (h₆.trans h₇)))
    cases valid with
    | false => exact ⟨_, rfl, .inr hlast⟩
    | true => exact quiet_bind quiet_ir fun r w₈ h₈ => ⟨_, rfl, .inr (hlast.trans h₈)⟩

theorem degradeToPio_watch :
    Ensures linkWatch (degradeToPio s) w (Returns fun t w' =>
      t.engine = none ∧ w'.regs.Off ∧ w'.ring = w.ring ∧ w'.immediate = w.immediate ∧
        w'.other = w.other) := by
  rw [degradeToPio, shutdown, bind_assoc]
  refine engine_bind (.inl rfl) fun w₁ hregs₁ hring₁ himm₁ hother₁ => ?_
  refine engine_bind (.inr rfl) fun w₂ hregs₂ hring₂ himm₂ hother₂ => ?_
  have hoff : w₂.regs.Off := by
    rw [hregs₂, hregs₁]
    exact ⟨rfl, rfl⟩
  refine quiet_bind (quiet_munlock ..) fun _ w₃ h₃ => ?_
  refine quiet_bind (quiet_munmap ..) fun _ w₄ h₄ => ?_
  have hkept := h₃.trans h₄
  refine ⟨_, rfl, rfl, hkept.off hoff, ?_, ?_, ?_⟩
  · rw [hkept.ring, hring₂, hring₁]
  · rw [hkept.immediate, himm₂, himm₁]
  · rw [hkept.other, hother₂, hother₁]

/-- Between verbs. The verbs of the session above are cut at the one in which the ring was
given up: what the CORB holds is among those up to it, what the interface was given is among
those from it on, both in their order, so that this one alone may have gone both ways. What
is outside the transport is what the session asks there. -/
structure Sent (h : History) (w : Watch) : Prop where
  other : w.other = ordinary h
  cut : ∃ k ≤ (verbWords h).length, w.ring.Sublist ((verbWords h).take (k + 1)) ∧
    w.immediate.Sublist ((verbWords h).drop k)

/-- As long as the ring is live, no command was given. -/
structure Holds (t : Transport) (h : History) (w : Watch) : Prop extends Sent h w where
  live : ∀ s, t.engine = some s → w.regs.Running ∧ w.immediate = [] ∧
    ∃ size : Corb.RingSize, size.entries = s.ring.count
  dead : t.engine = none → w.regs.Off

theorem verbWords_snoc (h : History) (word : U32) (x : Reply) :
    verbWords (h ++ [⟨.verb word, x⟩]) = verbWords h ++ [word] := by
  simp [verbWords]

theorem ordinary_snoc_verb (h : History) (word : U32) (x : Reply) :
    ordinary (h ++ [⟨.verb word, x⟩]) = ordinary h := by
  have hnone : ordinary [⟨.verb word, x⟩] = [] := ordinary_false (o := .verb word) rfl x
  rw [ordinary, List.filter_append, ← ordinary, ← ordinary, hnone, List.append_nil]

variable {t t' : Transport} {h : History} {w' : Watch}

/- Nothing given to the interface: the ring has had none but verbs of the session. -/
theorem Sent.of_ring (hother : w.other = ordinary h) (hring : w.ring.Sublist (verbWords h))
    (himm : w.immediate = []) : Sent h w := by
  refine ⟨hother, (verbWords h).length, le_rfl, ?_, ?_⟩
  · rw [List.take_of_length_le (Nat.le_succ _)]
    exact hring
  · rw [himm]
    exact List.nil_sublist _

theorem Sent.ring (hsent : Sent h w) : w.ring.Sublist (verbWords h) := by
  obtain ⟨k, -, hring, -⟩ := hsent.cut
  exact hring.trans (List.take_sublist ..)

theorem Sent.kept (hsent : Sent h w) (hw : w.Kept w') : Sent h w' where
  other := hw.other.trans hsent.other
  cut := by
    rw [hw.ring, hw.immediate]
    exact hsent.cut

theorem take_sublist_append (l m : List α) (k : ℕ) : (l.take k).Sublist ((l ++ m).take k) := by
  rw [List.take_append]
  exact List.sublist_append_left ..

theorem Sent.skip (hsent : Sent h w) (word : U32) (x : Reply) :
    Sent (h ++ [⟨.verb word, x⟩]) w := by
  obtain ⟨k, hk, hring, himm⟩ := hsent.cut
  refine ⟨by rw [ordinary_snoc_verb, hsent.other], k, ?_⟩
  rw [verbWords_snoc, List.drop_append_of_le_length hk]
  refine ⟨?_, ?_, himm.trans (List.sublist_append_left ..)⟩
  · rw [List.length_append]
    exact hk.trans (Nat.le_add_right ..)
  · exact hring.trans (take_sublist_append ..)

theorem Sent.give (hsent : Sent h w) (word : U32) (x : Reply) :
    Sent (h ++ [⟨.verb word, x⟩]) (onPio w word) := by
  obtain ⟨k, hk, hring, himm⟩ := hsent.cut
  refine ⟨by rw [ordinary_snoc_verb]; exact hsent.other, k, ?_⟩
  rw [verbWords_snoc, List.drop_append_of_le_length hk]
  refine ⟨?_, ?_, himm.append (List.Sublist.refl [word])⟩
  · rw [List.length_append]
    exact hk.trans (Nat.le_add_right ..)
  · exact hring.trans (take_sublist_append ..)

/- A verb given to the interface after the ring was tried: the cut is here. -/
theorem Sent.turn (hother : w.other = ordinary h) {word : U32}
    (hring : w.ring.Sublist (verbWords h ++ [word])) (himm : w.immediate = []) (x : Reply) :
    Sent (h ++ [⟨.verb word, x⟩]) (onPio w word) := by
  refine ⟨by rw [ordinary_snoc_verb]; exact hother, (verbWords h).length, ?_⟩
  rw [verbWords_snoc, List.drop_left, List.take_of_length_le (by simp)]
  refine ⟨by simp, hring, ?_⟩
  rw [onPio, himm]
  exact List.Sublist.refl [word]

theorem Holds.kept (hholds : Holds t h w) (hw : w.Kept w') : Holds t h w' where
  toSent := hholds.toSent.kept hw
  live s hs := by
    obtain ⟨hrun, himm, hsize⟩ := hholds.live s hs
    exact ⟨hw.running hrun, hw.immediate.trans himm, hsize⟩
  dead hnone := hw.off (hholds.dead hnone)

theorem Holds.skip (hholds : Holds t h w) (word : U32) (x : Reply) :
    Holds t (h ++ [⟨.verb word, x⟩]) w :=
  ⟨hholds.toSent.skip word x, hholds.live, hholds.dead⟩

theorem Holds.put (hholds : Holds t h w) {s : RingState} (hs : t.engine = some s) (word : U32)
    (x : Reply) : Holds t (h ++ [⟨.verb word, x⟩]) (onRing w word) := by
  obtain ⟨-, himm, -⟩ := hholds.live s hs
  refine ⟨Sent.of_ring ?_ ?_ himm, hholds.live, hholds.dead⟩
  · rw [ordinary_snoc_verb]
    exact hholds.other
  · rw [verbWords_snoc]
    exact hholds.ring.append (List.Sublist.refl [word])

theorem Holds.give (hholds : Holds t h w) (hnone : t.engine = none) (word : U32) (x : Reply) :
    Holds t (h ++ [⟨.verb word, x⟩]) (onPio w word) := by
  refine ⟨hholds.toSent.give word x, fun s hs => ?_, hholds.dead⟩
  rw [hnone] at hs
  cases hs

theorem Holds.advance (hholds : Holds t h w) {s s' : RingState} (hs : t.engine = some s)
    (hs' : t'.engine = some s') (hsame : s'.ring = s.ring) : Holds t' h w := by
  obtain ⟨hrun, himm, size, hsize⟩ := hholds.live s hs
  refine ⟨hholds.toSent, fun s'' hs'' => ?_, fun hnone => ?_⟩
  · rw [hs'] at hs''
    cases hs''
    exact ⟨hrun, himm, size, by rw [hsize, hsame]⟩
  · rw [hs'] at hnone
    cases hnone

/- The ring goes, and the interface takes over in the middle of a verb. -/
theorem fallBack_watch (hholds : Holds t h w) {s s' : RingState} (hs : t.engine = some s)
    (hw : w.Kept w' ∨ (onRing w cmdword).Kept w') (sent : Bool) :
    Ensures linkWatch (fallBack s' cmdword sent) w' (Returns fun x w'' =>
      Holds x.1 (h ++ [⟨.verb cmdword, x.2⟩]) w'') := by
  obtain ⟨-, himm, -⟩ := hholds.live s hs
  -- at this moment the verb may be in the ring, and the interface has had none
  have hnow : w'.other = ordinary h ∧ w'.ring.Sublist (verbWords h ++ [cmdword]) ∧
      w'.immediate = [] := by
    rcases hw with hw | hw
    · refine ⟨hw.other.trans hholds.other, ?_, hw.immediate.trans himm⟩
      exact hw.ring ▸ hholds.ring.trans (List.sublist_append_left ..)
    · refine ⟨hw.other.trans hholds.other, ?_, hw.immediate.trans himm⟩
      exact hw.ring ▸ hholds.ring.append (List.Sublist.refl [cmdword])
  obtain ⟨hother, hring, himm⟩ := hnow
  refine degradeToPio_watch.bindReturns fun t₁ w₁ h₁ => ?_
  obtain ⟨hnone, hoff, hring₁, himm₁, hother₁⟩ := h₁
  have hlive : ∀ s, t₁.engine = some s → ∀ P : Prop, P := by
    intro s hs
    rw [hnone] at hs
    cases hs
  refine (pioVerb_watch hoff).bindReturns fun r w₂ h₂ => ?_
  have hend : ∀ x, Holds t₁ (h ++ [⟨.verb cmdword, x⟩]) w₂ := by
    intro x
    have hother : w₁.other = ordinary h := hother₁.trans hother
    have hring : w₁.ring.Sublist (verbWords h ++ [cmdword]) := hring₁ ▸ hring
    have himm : w₁.immediate = [] := himm₁.trans himm
    rcases h₂ with h₂ | h₂
    · have hsent : Sent (h ++ [⟨.verb cmdword, x⟩]) w₁ :=
        Sent.of_ring (by rw [ordinary_snoc_verb, hother]) (by rw [verbWords_snoc]; exact hring)
          himm
      exact Holds.kept ⟨hsent, fun s hs => hlive s hs _, fun _ => hoff⟩ h₂
    · exact Holds.kept (w := onPio w₁ cmdword)
        ⟨Sent.turn hother hring himm x, fun s hs => hlive s hs _, fun _ => hoff⟩ h₂
  cases r with
  | response r => exact ⟨_, rfl, hend _⟩
  | error e executed => exact ⟨_, rfl, hend _⟩

theorem verbRaw_watch (hholds : Holds t h w) :
    Ensures linkWatch (verbRaw t cmdword) w (Returns fun x w' =>
      Holds x.1 (h ++ [⟨.verb cmdword, x.2⟩]) w') := by
  unfold verbRaw
  split
  · rename_i hnone
    refine (pioVerb_watch (hholds.dead hnone)).bindReturns fun r w₁ h₁ => ⟨_, rfl, ?_⟩
    rcases h₁ with h₁ | h₁
    · exact (hholds.skip cmdword r).kept h₁
    · exact (hholds.give hnone cmdword r).kept h₁
  · rename_i s hs
    obtain ⟨hrun, himm, size, hsize⟩ := hholds.live s hs
    refine (corbVerb_watch hsize hrun himm).bindReturns fun x w₁ h₁ => ?_
    obtain ⟨hsame, hw⟩ := h₁
    have hstay : ∀ (t' : Transport) r, t'.engine = some x.1 →
        Holds t' (h ++ [⟨.verb cmdword, r⟩]) w₁ := by
      intro t' r hs'
      rcases hw with hw | hw
      · exact ((hholds.skip cmdword r).advance hs hs' hsame).kept hw
      · exact ((hholds.put hs cmdword r).advance hs hs' hsame).kept hw
    rcases x with ⟨s', r | ⟨e, sent⟩⟩
    · exact ⟨_, rfl, hstay _ _ rfl⟩
    · cases e with
      | timedOut =>
        dsimp only
        split
        · exact fallBack_watch hholds hs hw sent
        · exact ⟨_, rfl, hstay _ _ rfl⟩
      | wouldBlock | wpOutside =>
        dsimp only
        split
        · exact fallBack_watch hholds hs hw sent
        · exact ⟨_, rfl, hstay _ _ rfl⟩

theorem pass_watch {o : Op} (ho : o.Mapped ∧ ¬ o.IsVerb ∧ o.immediate = none) (t : Transport) :
    Ensures linkWatch (serve t o) w (Returns fun x w' => x.1 = t ∧ w' = w.next (.io o) x.2) := by
  have hpass : serve t o = io o >>= fun x => pure (t, x) := by
    cases o <;> first | rfl | exact absurd trivial ho.2.1
  rw [hpass]
  exact ⟨⟨⟨ho.1, ho.2.1⟩, fun h => h.elim, fun h => (h ho.2.2).elim⟩,
    fun x _ => ⟨(t, x), rfl, rfl, rfl⟩⟩

theorem ordinary_snoc (h : History) (e : Sigma Op.Ans) :
    ordinary (h ++ [e]) = ordinary h ++ ordinary [e] := List.filter_append ..

theorem verbWords_snoc_other (h : History) {o : Op} (ho : ¬ o.IsVerb) (x : o.Ans) :
    verbWords (h ++ [⟨o, x⟩]) = verbWords h := by
  cases o <;> first | exact absurd trivial ho | simp [verbWords]

theorem serve_watch {o : Op} (ho : o.IsVerb ∨ o.Apart) (hholds : Holds t h w) :
    Ensures linkWatch (serve t o) w (Returns fun x w' => Holds x.1 (h ++ [⟨o, x.2⟩]) w') := by
  rcases ho with ho | ho
  · cases o with
    | verb word => exact verbRaw_watch hholds
    | _ => exact ho.elim
  · refine (pass_watch ⟨ho.mapped, ho.verb, ho.immediate⟩ t).returns_mono fun x w' hx => ?_
    obtain ⟨ht, hw⟩ := hx
    have hverbs := verbWords_snoc_other h ho.verb x.2
    have himm : w'.immediate = w.immediate := by
      rw [hw]
      simp [Watch.next, ho.immediate]
    have hring : w'.ring = w.ring := by rw [hw]; rfl
    have hcorb : w'.regs corbctl = w.regs corbctl := by rw [hw]; exact ho.corb w.regs x.2
    have hrirb : w'.regs rirbctl = w.regs rirbctl := by rw [hw]; exact ho.rirb w.regs x.2
    rw [ht]
    refine ⟨⟨?_, ?_⟩, fun s hs => ?_, fun hnone => ?_⟩
    · rw [ordinary_snoc, ← hholds.other, hw]
      rfl
    · rw [hverbs, hring, himm]
      exact hholds.cut
    · obtain ⟨hrun, hnil, hsize⟩ := hholds.live s hs
      exact ⟨⟨hcorb.trans hrun.1, hrirb.trans hrun.2⟩, himm.trans hnil, hsize⟩
    · exact ⟨hcorb.trans (hholds.dead hnone).1, hrirb.trans (hholds.dead hnone).2⟩

end Transport

end Audiod.Driver
