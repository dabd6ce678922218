import Audiod.CorbFifo
import Audiod.Transport

/-!
# One pair of rings, seen three ways (`hda/src/corb.rs`)

`Corb` has the rings as two memories and a `send` or a drain in one step, `CorbFifo` as the
bytes of one page and access by access, `Transport` as what the driver asks of a device.
Every run of the first is one of the second, and every access of the third is a step of it.
-/

namespace Audiod.CorbRing

open Corb (U32 RingSize Controller)

/-! ### The controller's rings in the page -/

/-- The driver is outside the rings, or has read RIRBWP for a drain. -/
def Awaits (c : CorbRing) : Corb.Phase → Prop
  | .drain hwWp => hwWp < c.count ∧ c.phase = .collect hwWp c.swRp []
  | _ => c.phase = .idle

/-- The rings of `k` lie in the page of `c`. -/
structure Holds (size : RingSize) (c : CorbRing) (k : Controller) : Prop where
  bounds : Bounds size c
  count : k.count = c.count
  corb : ∀ i < c.count, corbEntry c.rb i = (k.hw.corb i).word
  corbwp : k.hw.corbWp = c.corbwp
  corbrp : k.hw.corbRp = c.corbrp
  rirb : rirbEntry c.rb = k.hw.rirb
  rirbwp : k.hw.rirbWp = c.rirbwp
  swRp : k.swRp = c.swRp
  phase : c.Awaits k.phase

/-- The rings of `k` and `k'` are the same, and `k'` is not in a drain. -/
structure Leaves (k k' : Controller) : Prop where
  count : k'.count = k.count
  corb : k'.hw.corb = k.hw.corb
  corbWp : k'.hw.corbWp = k.hw.corbWp
  corbRp : k'.hw.corbRp = k.hw.corbRp
  rirb : k'.hw.rirb = k.hw.rirb
  rirbWp : k'.hw.rirbWp = k.hw.rirbWp
  swRp : k'.swRp = k.swRp
  phase : ∀ c : CorbRing, c.phase = .idle → c.Awaits k'.phase

theorem corbErr_leaves (k : Controller) (e : Corb.Err) : Leaves k (k.corbErr e).1 := by
  unfold Controller.corbErr
  split
  · dsimp only
    split <;> exact ⟨rfl, rfl, rfl, rfl, rfl, rfl, rfl, fun _ h => h⟩
  · split <;> exact ⟨rfl, rfl, rfl, rfl, rfl, rfl, rfl, fun _ h => h⟩

variable {size : RingSize} {c : CorbRing} {k k' : Controller}

theorem Holds.leaves (h : Holds size c k) (hidle : c.phase = .idle) (hk : Leaves k k') :
    Holds size c k' :=
  ⟨h.bounds, hk.count.trans h.count, hk.corb ▸ h.corb, hk.corbWp.trans h.corbwp,
    hk.corbRp.trans h.corbrp, h.rirb.trans hk.rirb.symm, hk.rirbWp.trans h.rirbwp,
    hk.swRp.trans h.swRp, hk.phase c hidle⟩

theorem Holds.popPending (h : Holds size c { k with phase := .idle }) (next : Corb.Phase)
    (hnext : c.Awaits next) : Holds size c (k.popPending next).1 := by
  unfold Controller.popPending
  split
  · exact ⟨h.bounds, h.count, h.corb, h.corbwp, h.corbrp, h.rirb, h.rirbwp, h.swRp, h.phase⟩
  · exact ⟨h.bounds, h.count, h.corb, h.corbwp, h.corbrp, h.rirb, h.rirbwp, h.swRp, hnext⟩

/- A call of `send` that nothing interrupts. -/
theorem run_send (hb : Bounds size c) (hidle : c.phase = .idle) (cmdword : U32) :
    ∃ es, machine.run c [.send cmdword, .drive, .drive, .drive, .drive] = some
      (if (c.corbwp + 1) % c.count = c.corbrp then c
        else { c with
          rb := store c.rb ((c.corbwp + 1) % c.count * 4) (toLe cmdword)
          corbwp := (c.corbwp + 1) % c.count }, es) := by
  have hle := hb.count_le
  have hwp := hb.corbwp_lt
  have hrp := hb.corbrp_lt
  have hwpMod : c.corbwp % 256 % c.count = c.corbwp := by
    rw [Nat.mod_eq_of_lt (by omega : c.corbwp < 256), Nat.mod_eq_of_lt hwp]
  have hrpMod : c.corbrp % 256 % c.count = c.corbrp := by
    rw [Nat.mod_eq_of_lt (by omega : c.corbrp < 256), Nat.mod_eq_of_lt hrp]
  have hnext : (c.corbwp + 1) % c.count % 65536 = (c.corbwp + 1) % c.count := by
    have hlt : (c.corbwp + 1) % c.count < c.count := Nat.mod_lt _ (by omega)
    exact Nat.mod_eq_of_lt (by omega)
  obtain ⟨rb, count, swRp, corbwp, corbrp, rirbwp, phase⟩ := c
  dsimp only at hidle hwpMod hrpMod hnext ⊢
  subst hidle
  split
  · rename_i hfull
    exact ⟨[.wouldBlock cmdword], by
      simp [Machine.run, machine, CorbRing.step, call, drive, hwpMod, hrpMod, hfull]⟩
  · rename_i hroom
    refine ⟨[.room cmdword, .access ⟨.corb, true, (corbwp + 1) % count * 4, 4⟩, .sent cmdword], ?_⟩
    simp [Machine.run, machine, CorbRing.step, call, drive, hwpMod, hrpMod, hroom, hnext]

/- The loop of a drain, which takes the entries one by one. -/
theorem run_collect (entries : List (U32 × U32)) {hwWp rp : ℕ} {out : List (U32 × U32)}
    (hphase : c.phase = .collect hwWp rp out) (hw : hwWp < c.count) (hr : rp < c.count)
    (hentries : between c.count (rirbEntry c.rb) rp hwWp = entries) :
    ∃ es, machine.run c (List.replicate (entries.length + 1) .drive) =
      some ({ c with swRp := hwWp, phase := .idle }, es) ∧ drained es = out ++ entries := by
  induction entries generalizing c rp out with
  | nil =>
    have heq := (between_eq_nil hr hw).mp hentries
    refine ⟨[.drained out], ?_, by simp [drained]⟩
    simp [Machine.run, machine, CorbRing.step, drive, hphase, heq]
  | cons e entries ih =>
    have hne : rp ≠ hwWp := by
      rintro rfl
      rw [between_self] at hentries
      cases hentries
    rw [between_of_ne _ hr hw hne] at hentries
    obtain ⟨rfl, hrest⟩ := List.cons.inj hentries
    have hnext : (rp + 1) % c.count < c.count := Nat.mod_lt _ (by omega)
    obtain ⟨es, hrun, hdrained⟩ := ih (c := { c with
      phase := .collect hwWp ((rp + 1) % c.count) (out ++ [rirbEntry c.rb ((rp + 1) % c.count)]) })
      rfl hw hnext hrest
    refine ⟨[.access ⟨.rirb, false, rirbOff + (rp + 1) % c.count * 8, 8⟩] ++ es, ?_, ?_⟩
    · rw [List.length_cons, List.replicate_succ]
      refine (machine.run_cons).mpr ⟨_, _, es, ?_, hrun, rfl⟩
      simp only [machine, CorbRing.step, drive, hphase, if_neg hne]
    · rw [drained_append, hdrained, List.append_assoc]
      rfl

/-- Some steps in the page lead to the rings of `k`. -/
def Follows (size : RingSize) (c : CorbRing) (k : Controller) : Prop :=
  ∃ is c' es, machine.run c is = some (c', es) ∧ Holds size c' k

theorem Holds.follows (h : Holds size c k) : Follows size c k := ⟨[], c, [], rfl, h⟩

theorem Holds.send (h : Holds size c k) (hidle : c.phase = .idle) : Follows size c k.send.1 := by
  obtain ⟨es, hrun⟩ := run_send h.bounds hidle k.cmdword.word
  refine ⟨_, _, es, hrun, ?_⟩
  unfold Controller.send
  dsimp only
  rw [h.corbwp, h.corbrp, h.count]
  split
  · exact h.leaves hidle (corbErr_leaves k .wouldBlock)
  · have hnext : (c.corbwp + 1) % c.count < c.count :=
      Nat.mod_lt _ (by have := h.bounds.two_le; omega)
    have hle := h.bounds.count_le
    refine Holds.popPending ?_ .poll hidle
    refine ⟨⟨h.bounds.count_eq, h.bounds.corbrp_lt, hnext, h.bounds.swRp_lt, h.bounds.rirbwp_lt⟩,
      rfl, fun i hi => ?_, rfl, rfl, ?_, h.rirbwp, h.swRp, hidle⟩
    · rw [corbEntry_store]
      dsimp only
      by_cases hi' : i = (c.corbwp + 1) % c.count
      · rw [hi', Function.update_self, Function.update_self]
      · rw [Function.update_of_ne hi', Function.update_of_ne hi']
        exact h.corb i hi
    · rw [← h.rirb]
      exact rirbEntry_store_corb c.rb (by omega) k.cmdword.word

theorem Holds.drain (h : Holds size c k) {hwWp : ℕ} (hw : hwWp < c.count)
    (hphase : c.phase = .collect hwWp c.swRp []) : Follows size c (k.drain hwWp).1 := by
  obtain ⟨es, hrun, -⟩ := run_collect _ hphase hw h.bounds.swRp_lt rfl
  refine ⟨_, _, es, hrun, ?_⟩
  refine Holds.popPending ?_ .deadline rfl
  exact ⟨⟨h.bounds.count_eq, h.bounds.corbrp_lt, h.bounds.corbwp_lt, hw, h.bounds.rirbwp_lt⟩,
    h.count, h.corb, h.corbwp, h.corbrp, h.rirb, h.rirbwp, rfl, rfl⟩

theorem drive_leaves (expired : Bool) (hsend : k.phase ≠ .send) (hpoll : k.phase ≠ .poll)
    (hdrain : ∀ hwWp, k.phase ≠ .drain hwWp) : Leaves k (k.drive expired).1 := by
  cases hph : k.phase with
  | send => exact absurd hph hsend
  | poll => exact absurd hph hpoll
  | drain hwWp => exact absurd hph (hdrain hwWp)
  | deadline =>
    simp only [Controller.drive, hph]
    split
    · exact corbErr_leaves k .timedOut
    · exact ⟨rfl, rfl, rfl, rfl, rfl, rfl, rfl, fun _ h => h⟩
  | idle =>
    simp only [Controller.drive, hph]
    exact ⟨rfl, rfl, rfl, rfl, rfl, rfl, rfl, fun _ h => hph ▸ h⟩
  | _ =>
    simp only [Controller.drive, hph]
    repeat' split
    all_goals exact ⟨rfl, rfl, rfl, rfl, rfl, rfl, rfl, fun _ h => h⟩

theorem Holds.drive (h : Holds size c k) (expired : Bool) :
    Follows size c (k.drive expired).1 := by
  have hphase := h.phase
  cases hph : k.phase with
  | send =>
    rw [hph] at hphase
    have hdrive : k.drive expired = k.send := by simp only [Controller.drive, hph]
    rw [hdrive]
    exact h.send hphase
  | poll =>
    rw [hph] at hphase
    simp only [Controller.drive, hph]
    split
    · refine Holds.follows (h.leaves hphase ?_)
      exact ⟨rfl, rfl, rfl, rfl, rfl, rfl, rfl, fun _ hc => hc⟩
    · rename_i hne
      rw [h.rirbwp, h.swRp] at hne
      -- RIRBWP is read now, and the entries up to it are taken in the step after.
      have hlt : c.rirbwp < 256 := by
        have hle := h.bounds.count_le
        have hrirb := h.bounds.rirbwp_lt
        omega
      refine ⟨[.drain, .drive], { c with phase := .collect c.rirbwp c.swRp [] }, [], ?_, ?_⟩
      · obtain ⟨rb, count, swRp, corbwp, corbrp, rirbwp, phase⟩ := c
        cases hphase
        have hin := h.bounds.rirbwp_lt
        dsimp only at hlt hne hin
        simp [Machine.run, machine, CorbRing.step, call, CorbRing.drive, Nat.mod_eq_of_lt hlt, hne,
          Nat.not_le.mpr hin]
      · exact ⟨⟨h.bounds.count_eq, h.bounds.corbrp_lt, h.bounds.corbwp_lt, h.bounds.swRp_lt,
          h.bounds.rirbwp_lt⟩, h.count, h.corb, h.corbwp, h.corbrp, h.rirb, h.rirbwp, h.swRp,
          h.rirbwp ▸ h.bounds.rirbwp_lt, by rw [h.rirbwp]⟩
  | drain hwWp =>
    rw [hph] at hphase
    have hdrive : k.drive expired = k.drain hwWp := by simp only [Controller.drive, hph]
    rw [hdrive]
    exact h.drain hphase.1 hphase.2
  | _ =>
    rw [hph] at hphase
    exact (h.leaves hphase (drive_leaves expired (by simp [hph]) (by simp [hph])
      (by simp [hph]))).follows

theorem Holds.respond (h : Holds size c k) (e : U32 × U32) : Follows size c (k.writeEntry e) := by
  have hnext : (c.rirbwp + 1) % c.count < c.count :=
    Nat.mod_lt _ (by have := h.bounds.two_le; omega)
  refine ⟨[.respond e], _, _, rfl, ?_⟩
  refine ⟨⟨h.bounds.count_eq, h.bounds.corbrp_lt, h.bounds.corbwp_lt, h.bounds.swRp_lt, hnext⟩,
    h.count, fun i hi => ?_, h.corbwp, h.corbrp, ?_, ?_, h.swRp, h.phase⟩
  · have hle := h.bounds.count_le
    rw [corbEntry_store_rirb c.rb _ _ (by dsimp only at hi; omega)]
    exact h.corb i hi
  · rw [rirbEntry_store, h.rirb]
    simp only [Controller.writeEntry, h.rirbwp, h.count]
  · simp only [Controller.writeEntry, h.rirbwp, h.count]

theorem Holds.cmd (h : Holds size c k) {cad nid verb payload : U32} {es : List Corb.Event}
    (hs : Corb.step k (.cmd cad nid verb payload) = some (k', es)) : Follows size c k' := by
  simp only [Corb.step, Controller.cmd] at hs
  split at hs
  · rename_i hidle
    cases hs
    have hphase := h.phase
    rw [hidle] at hphase
    refine Holds.follows (h.leaves hphase ?_)
    refine ⟨rfl, rfl, rfl, rfl, rfl, rfl, rfl, fun _ hc => ?_⟩
    dsimp only
    split <;> exact hc
  · cases hs

/- The controller takes a verb: the same step here, one entry on. -/
theorem Holds.fetch (h : Holds size c k) {es : List Corb.Event}
    (hs : Corb.step k .fetch = some (k', es)) : Follows size c k' := by
  simp only [Corb.step] at hs
  split at hs
  · rename_i hrun
    cases hs
    have hne : c.corbrp ≠ c.corbwp := by
      rw [← h.corbrp, ← h.corbwp]
      exact hrun.2
    have hnext : (c.corbrp + 1) % c.count < c.count :=
      Nat.mod_lt _ (by have := h.bounds.two_le; omega)
    have hfetch : ∃ fs, machine.run c [.fetch] =
        some ({ c with corbrp := (c.corbrp + 1) % c.count }, fs) := by
      simp [Machine.run, machine, CorbRing.step, hne]
    obtain ⟨fs, hfetch⟩ := hfetch
    refine ⟨_, _, fs, hfetch, ?_⟩
    refine ⟨⟨h.bounds.count_eq, hnext, h.bounds.corbwp_lt, h.bounds.swRp_lt,
      h.bounds.rirbwp_lt⟩, h.count, h.corb, h.corbwp, ?_, h.rirb, h.rirbwp, h.swRp, h.phase⟩
    dsimp only
    rw [h.corbrp, h.count]
  · cases hs

theorem Holds.answer (h : Holds size c k) {r ex : U32} {es : List Corb.Event}
    (hs : Corb.step k (.answer r ex) = some (k', es)) : Follows size c k' := by
  simp only [Corb.step, Controller.answer] at hs
  split at hs
  · cases hs
  · rename_i v rest hlink
    have hrest : Holds size c { k with hw.link := rest } :=
      ⟨h.bounds, h.count, h.corb, h.corbwp, h.corbrp, h.rirb, h.rirbwp, h.swRp, h.phase⟩
    split at hs
    · split at hs
      · cases hs
        exact hrest.respond (r, ex)
      · cases hs
    · cases hs
      exact Holds.follows ⟨h.bounds, h.count, h.corb, h.corbwp, h.corbrp, h.rirb, h.rirbwp,
        h.swRp, h.phase⟩

/-- A step with the rings in one go is some steps access by access. -/
theorem Holds.step {i : Corb.Input} {es : List Corb.Event} (h : Holds size c k)
    (hs : Corb.step k i = some (k', es)) : Follows size c k' := by
  cases i with
  | cmd cad nid verb payload => exact h.cmd hs
  | drive expired =>
    have hd := h.drive expired
    have hk : (k.drive expired).1 = k' := congrArg Prod.fst (Option.some.inj hs)
    rwa [hk] at hd
  | wpOutside reg =>
    simp only [Corb.step] at hs
    split at hs
    · rename_i hpoll
      split at hs
      · have hphase := h.phase
        rw [hpoll] at hphase
        have hk : (k.corbErr .wpOutside).1 = k' := congrArg Prod.fst (Option.some.inj hs)
        rw [← hk]
        exact (h.leaves hphase (corbErr_leaves k .wpOutside)).follows
      · cases hs
    · cases hs
  | fetch => exact h.fetch hs
  | answer r ex => exact h.answer hs
  | lose =>
    simp only [Corb.step] at hs
    split at hs
    · cases hs
      exact Holds.follows ⟨h.bounds, h.count, h.corb, h.corbwp, h.corbrp, h.rirb, h.rirbwp,
        h.swRp, h.phase⟩
    · cases hs
  | unsolicited r ex =>
    simp only [Corb.step] at hs
    split at hs
    · cases hs
      exact h.respond (r, ex)
    · cases hs

theorem holds_init (size : RingSize) (engine : Corb.Engine) :
    Holds size (init size) (Corb.init size engine) := by
  have hpos : 0 < size.entries := by cases size <;> decide
  have hcorb : ∀ i, corbEntry (fun _ => 0) i = 0#32 := fun i => by
    simp [corbEntry, load, fromLe, leVal]
  have hrirb : rirbEntry (fun _ => 0) = fun _ => (0#32, 0#32) := by
    funext i
    simp [rirbEntry, load, fromLe, leVal]
  cases engine <;>
    exact ⟨⟨rfl, hpos, hpos, hpos, hpos⟩, rfl, fun i _ => hcorb i, rfl, rfl, hrirb, rfl, rfl, rfl⟩

/-- Every run of the controller is one of its rings in their page: the same verbs and responses
lie in them, with the same pointers. -/
theorem run_holds (size : RingSize) (engine : Corb.Engine) {is : List Corb.Input} {k : Controller}
    {tr : List Corb.Event} (hrun : Corb.machine.run (Corb.init size engine) is = some (k, tr)) :
    Follows size (init size) k := by
  refine Corb.machine.run_state_inv (J := Follows size (init size)) (fun k i k' es hf hs => ?_)
    (holds_init size engine).follows hrun
  obtain ⟨js, c, fs, hc, hholds⟩ := hf
  obtain ⟨js', c', fs', hc', hholds'⟩ := hholds.step hs
  exact ⟨js ++ js', c', fs ++ fs', machine.run_append hc hc', hholds'⟩

end Audiod.CorbRing

/-! ### The driver's accesses as steps in the page -/

namespace Audiod.Driver.Transport

open Dialogue
open Audiod.CorbRing (Phase)

/-- What the rings in their page make of an access. -/
def access (c : Audiod.CorbRing) : (o : LinkOp) → Option (o.Ans × Audiod.CorbRing)
  | .io (.readU16 off) =>
    if off = corbwp then some (BitVec.ofNat 16 c.corbwp, c)
    else if off = corbrp then some (BitVec.ofNat 16 c.corbrp, c)
    else if off = rirbwp then some (BitVec.ofNat 16 c.rirbwp, c)
    else none
  | .io (.writeU16 off v) =>
    if off = corbwp then some ((), { c with corbwp := v.toNat }) else none
  | .ringWrite off word => some ((), { c with rb := store c.rb off (CorbRing.toLe word) })
  | .ringRead off =>
    let b := load c.rb off 8
    some ((CorbRing.fromLe (b.take 4), CorbRing.fromLe (b.drop 4)), c)
  | _ => none

/-- `send` once it has found room, and once it has read both pointers. -/
def sendRoom (cmdword : U32) (next : ℕ) : LinkProg (Except Corb.Err Unit) := do
  .ask (.ringWrite (next * 4) cmdword) .done
  io (.writeU16 corbwp (BitVec.ofNat 16 next))
  pure (.ok ())

def sendVerdict (s : RingState) (cmdword : U32) (wp : ℕ) (rp : U16) :
    LinkProg (Except Corb.Err Unit) :=
  let next := (wp + 1) % s.ring.count
  if next = pointer rp % s.ring.count then pure (.error .wouldBlock) else sendRoom cmdword next

/-- What is left of `send` where the page's model is in it. -/
def sendFrom (s : RingState) : Phase → Option (LinkProg (Except Corb.Err Unit))
  | .send cmdword => some (send s cmdword)
  | .sendRp cmdword wp => some (io (.readU16 corbrp) >>= sendVerdict s cmdword wp)
  | .sendWrite cmdword next => some (sendRoom cmdword next)
  | .sendWp _ next => some do
    io (.writeU16 corbwp (BitVec.ofNat 16 next))
    pure (.ok ())
  | .idle | .drain | .collect _ _ _ => none

variable {c : Audiod.CorbRing} {s : RingState}

theorem pointer_ofNat (n : ℕ) : pointer (BitVec.ofNat 16 n) = n % 256 := by
  rw [pointer, BitVec.toNat_and, BitVec.toNat_ofNat]
  have h := Nat.and_two_pow_sub_one_eq_mod (n % 2 ^ 16) 8
  have hmask : (0xff#16).toNat = 2 ^ 8 - 1 := rfl
  rw [hmask, h]
  omega

/-- Each access of a `send` is the step of the page's model, which comes to the same verdict;
steps of the controller may come in between, as they leave its phase alone. -/
theorem drive_send (hcount : s.ring.count = c.count) {p : LinkProg (Except Corb.Err Unit)}
    (hp : sendFrom s c.phase = some p) : ∃ o next x c', p = .ask o next ∧
      access c o = some (x, c') ∧ c.drive.1 = { c' with phase := c.drive.1.phase } ∧
      (sendFrom s c.drive.1.phase = some (next x) ∨ c.drive.1.phase = .idle ∧ ∃ cmdword,
        (next x = .done (.ok ()) ∧ c.drive.2 = [.sent cmdword]) ∨
          (next x = .done (.error .wouldBlock) ∧ c.drive.2 = [.wouldBlock cmdword])) := by
  cases hph : c.phase with
  | send cmdword =>
    rw [hph] at hp
    obtain rfl := Option.some.inj hp
    let next (wp : U16) : LinkProg (Except Corb.Err Unit) :=
      io (.readU16 corbrp) >>= sendVerdict s cmdword (pointer wp % s.ring.count)
    refine ⟨.io (.readU16 corbwp), next, BitVec.ofNat 16 c.corbwp, c, rfl, rfl, ?_, .inl ?_⟩
    · simp only [CorbRing.drive, hph]
    · simp only [CorbRing.drive, hph, sendFrom, next, pointer_ofNat, hcount]
  | sendRp cmdword wp =>
    rw [hph] at hp
    obtain rfl := Option.some.inj hp
    have hdrive : c.drive = if (wp + 1) % c.count = c.corbrp % 256 % c.count then
        ({ c with phase := .idle }, [.wouldBlock cmdword])
      else ({ c with phase := .sendWrite cmdword ((wp + 1) % c.count) }, [.room cmdword]) := by
      simp only [CorbRing.drive, hph]
    have hverdict : sendVerdict s cmdword wp (BitVec.ofNat 16 c.corbrp) =
        if (wp + 1) % c.count = c.corbrp % 256 % c.count then pure (.error .wouldBlock)
        else sendRoom cmdword ((wp + 1) % c.count) := by
      rw [sendVerdict, pointer_ofNat, hcount]
    refine ⟨.io (.readU16 corbrp), sendVerdict s cmdword wp, BitVec.ofNat 16 c.corbrp, c, rfl, rfl,
      ?_, ?_⟩
    · rw [hdrive]
      split <;> rfl
    · rw [hdrive, hverdict]
      split
      · exact .inr ⟨rfl, cmdword, .inr ⟨rfl, rfl⟩⟩
      · exact .inl rfl
  | sendWrite cmdword next =>
    rw [hph] at hp
    obtain rfl := Option.some.inj hp
    refine ⟨_, _, _, _, rfl, rfl, ?_, .inl ?_⟩
    · simp only [CorbRing.drive, hph]
    · simp only [CorbRing.drive, hph, sendFrom]
      rfl
  | sendWp cmdword next =>
    rw [hph] at hp
    obtain rfl := Option.some.inj hp
    refine ⟨_, _, _, _, rfl, rfl, ?_, .inr ⟨?_, cmdword, .inl ⟨rfl, ?_⟩⟩⟩
    · simp only [CorbRing.drive, hph, BitVec.toNat_ofNat]
    · simp only [CorbRing.drive, hph]
    · simp only [CorbRing.drive, hph]
  | idle | drain | collect _ _ _ =>
    rw [hph] at hp
    cases hp

/-- What a drain of `entries` leaves, and the answer it comes to. -/
def drained (s : RingState) (cad : U32) (hwWp : ℕ) (entries : List (U32 × U32)) :
    RingState × Option (Except Corb.Err U32) :=
  pop { s with
    swRp := hwWp
    pending := s.pending ++ entries.filterMap fun e => (Corb.routeEntry e.1 e.2 cad).answer }

/-- A round of `wait_response` once it has read RIRBWP. -/
def pollVerdict (s : RingState) (cad : U32) (hwWp : ℕ) :
    LinkProg (RingState × Option (Except Corb.Err U32)) :=
  if s.ring.count ≤ hwWp then pure (s, some (.error .wpOutside))
  else if hwWp = s.swRp then pure (s, none)
  else do
    let s ← drain s cad hwWp
    pure (pop s)

/-- And once it has taken `out` of the entries up to `hwWp`. -/
def collecting (s : RingState) (cad : U32) (hwWp rp : ℕ) (out : List (U32 × U32)) :
    LinkProg (RingState × Option (Except Corb.Err U32)) := do
  let entries ← readEntries (Corb.collectEntries id rp hwWp s.ring.count)
  pure (drained s cad hwWp (out ++ entries))

/-- What is left of a round of `wait_response`. -/
def drainFrom (s : RingState) (cad : U32) :
    Phase → Option (LinkProg (RingState × Option (Except Corb.Err U32)))
  | .drain => some (poll s cad)
  | .collect hwWp rp out => some (collecting s cad hwWp rp out)
  | .idle | .send _ | .sendRp _ _ | .sendWrite _ _ | .sendWp _ _ => none

/-- An access of a round, and where it leaves the round: with its accesses to come, with none, or
with the error. -/
def Asks (c : Audiod.CorbRing) (s : RingState) (cad : U32)
    (p : LinkProg (RingState × Option (Except Corb.Err U32))) : Prop :=
  ∃ o next x, p = .ask o next ∧ access c o = some (x, c) ∧
    c.drive.1 = { c with phase := c.drive.1.phase } ∧
    (drainFrom s cad c.drive.1.phase = some (next x) ∨ c.drive.1.phase = .idle ∧
      (next x = .done (s, none) ∧ c.drive.2 = [] ∨
        ∃ hwWp, next x = .done (s, some (.error .wpOutside)) ∧
          c.drive.2 = [.wpOutside hwWp]))

theorem asks_poll (hcount : s.ring.count = c.count) (hsw : s.swRp = c.swRp) (cad : U32)
    (hph : c.phase = .drain) : Asks c s cad (poll s cad) := by
  have hdrive : c.drive =
      if c.count ≤ c.rirbwp % 256 then ({ c with phase := .idle }, [.wpOutside (c.rirbwp % 256)])
      else if c.rirbwp % 256 = c.swRp then ({ c with phase := .idle }, [])
      else ({ c with phase := .collect (c.rirbwp % 256) c.swRp [] }, []) := by
    simp only [CorbRing.drive, hph]
  have hverdict : pollVerdict s cad (pointer (BitVec.ofNat 16 c.rirbwp)) =
      if c.count ≤ c.rirbwp % 256 then pure (s, some (.error .wpOutside))
      else if c.rirbwp % 256 = c.swRp then pure (s, none)
      else collecting s cad (c.rirbwp % 256) c.swRp [] := by
    rw [pollVerdict, pointer_ofNat, hcount, hsw]
    simp only [drain, collecting, drained, bind_assoc, pure_bind, List.nil_append, hsw]
  let next (v : U16) := pollVerdict s cad (pointer v)
  refine ⟨.io (.readU16 rirbwp), next, BitVec.ofNat 16 c.rirbwp, rfl, rfl, ?_, ?_⟩
  · rw [hdrive]
    split
    · rfl
    · split <;> rfl
  · dsimp only [next]
    rw [hdrive, hverdict]
    split
    · exact .inr ⟨rfl, .inr ⟨_, rfl, rfl⟩⟩
    · split
      · exact .inr ⟨rfl, .inl ⟨rfl, rfl⟩⟩
      · exact .inl rfl

theorem asks_collect (hcount : s.ring.count = c.count) (cad : U32) {hwWp rp : ℕ}
    {out : List (U32 × U32)} (hph : c.phase = .collect hwWp rp out) (hw : hwWp < c.count)
    (hr : rp < c.count) (hend : rp ≠ hwWp) : Asks c s cad (collecting s cad hwWp rp out) := by
  have hnext : (rp + 1) % c.count < c.count := Nat.mod_lt _ (by omega)
  have hentry : CorbRing.rirbEntry c.rb ((rp + 1) % c.count) =
      (CorbRing.fromLe ((load c.rb (rirbOff + (rp + 1) % c.count * 8) 8).take 4),
        CorbRing.fromLe ((load c.rb (rirbOff + (rp + 1) % c.count * 8) 8).drop 4)) := rfl
  rw [Asks, collecting, hcount, Corb.collectEntries_eq id hr hw, between_of_ne id hr hw hend]
  refine ⟨.ringRead (rirbOff + (rp + 1) % c.count * 8), _, _, rfl, rfl, ?_, .inl ?_⟩
  · simp only [CorbRing.drive, hph, if_neg hend]
  · simp only [CorbRing.drive, hph, if_neg hend, drainFrom, collecting, hcount,
      Corb.collectEntries_eq id hnext hw, hentry, List.append_assoc]
    refine congrArg some ?_
    change _ = (readEntries _ >>= fun es => pure (_ :: es)) >>= _
    rw [bind_assoc]
    rfl

/-- And each access of such a round, up to the step that ends it with no access left. -/
theorem drive_drain (hinv : CorbRing.PhaseInv c) (hcount : s.ring.count = c.count)
    (hsw : s.swRp = c.swRp) {cad : U32} {p : LinkProg (RingState × Option (Except Corb.Err U32))}
    (hp : drainFrom s cad c.phase = some p) :
    Asks c s cad p ∨
      ∃ hwWp out, c.drive = ({ c with swRp := hwWp, phase := .idle }, [.drained out]) ∧
        p = .done (drained s cad hwWp out) := by
  cases hph : c.phase with
  | drain =>
    rw [hph] at hp
    obtain rfl := Option.some.inj hp
    exact .inl (asks_poll hcount hsw cad hph)
  | collect hwWp rp out =>
    rw [hph] at hp
    obtain rfl := Option.some.inj hp
    simp only [CorbRing.PhaseInv, hph] at hinv
    obtain ⟨hw, hr, -, -⟩ := hinv
    by_cases hend : rp = hwWp
    · right
      refine ⟨hwWp, out, by simp only [CorbRing.drive, hph, if_pos hend], ?_⟩
      rw [collecting, hcount, Corb.collectEntries_eq id hr hw, hend, between_self]
      simp [readEntries]
    · exact .inl (asks_collect hcount cad hph hw hr hend)
  | idle | send _ | sendRp _ _ | sendWrite _ _ | sendWp _ _ =>
    rw [hph] at hp
    cases hp

end Audiod.Driver.Transport
