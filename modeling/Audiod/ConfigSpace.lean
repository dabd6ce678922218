import Audiod.Footprint
import Mathlib.Logic.Function.Basic
import Mathlib.Tactic.IntervalCases

/-!
# The configuration space of the device (`hda/src/pcicfg.rs`)

Over a configuration space that reads as it was written, a session changes five bits in
three registers at most, whichever of its reads and writes fail, and has put them where it
wants them once it is open.
-/

namespace Audiod.Driver

open Dialogue

/-- The bytes of the configuration space. -/
abbrev Space := ℕ → U8

namespace Space

def word (s : Space) (off : ℕ) : U16 := (s (off + 1)).setWidth 16 <<< 8 ||| (s off).setWidth 16

def put (s : Space) (off : ℕ) (v : U16) : Space :=
  Function.update (Function.update s off (v.extractLsb' 0 8)) (off + 1) (v.extractLsb' 8 8)

/-- A write that fails has written nothing. -/
def next (s : Space) : (o : Op) → o.Ans → Space
  | .configWriteU8 off v, .ok _ => Function.update s off v
  | .configWriteU16 off v, .ok _ => s.put off v
  | _, _ => s

/-- What a read that does not fail gives. -/
def Reads (s : Space) : (o : Op) → o.Ans → Prop
  | .configReadU8 off, .ok v => v = s off
  | .configReadU16 off, .ok v => v = s.word off
  | _, _ => True

def after (s : Space) (h : History) : Space := h.foldl (fun s e => s.next e.1 e.2) s

/-- The bits a session may change: the traffic class, no-snoop, memory space and bus master. -/
def mask (off : ℕ) : U8 :=
  if off = tcselOff then 0x07#8
  else if off = devcOff + 1 then 0x08#8
  else if off = pciCmdOff then 0x06#8
  else 0x00#8

/-- Everything else is as it was. -/
def Frame (s s' : Space) : Prop := ∀ off, s' off &&& ~~~mask off = s off &&& ~~~mask off

theorem Frame.refl (s : Space) : Frame s s := fun _ => rfl

theorem Frame.update {s s' : Space} (h : Frame s s') {off : ℕ} {v : U8}
    (hv : v &&& ~~~mask off = s' off &&& ~~~mask off) :
    Frame s (Function.update s' off v) := by
  intro i
  by_cases hi : i = off
  · subst hi
    rw [Function.update_self, hv, h i]
  · rw [Function.update_of_ne hi, h i]

theorem Frame.put {s s' : Space} (h : Frame s s') {off : ℕ} {v : U16}
    (hlo : v.extractLsb' 0 8 &&& ~~~mask off = s' off &&& ~~~mask off)
    (hhi : v.extractLsb' 8 8 &&& ~~~mask (off + 1) = s' (off + 1) &&& ~~~mask (off + 1)) :
    Frame s (s'.put off v) := by
  refine (h.update hlo).update ?_
  rwa [Function.update_of_ne (Nat.succ_ne_self off)]

theorem word_put (s : Space) (off : ℕ) (v : U16) : (s.put off v).word off = v := by
  have hlo : s.put off v off = v.extractLsb' 0 8 := by
    rw [put, Function.update_of_ne (Nat.succ_ne_self off).symm, Function.update_self]
  have hhi : s.put off v (off + 1) = v.extractLsb' 8 8 := Function.update_self ..
  rw [word, hlo, hhi]
  apply BitVec.eq_of_getLsbD_eq
  intro i hi
  interval_cases i <;> simp

theorem and_low (s : Space) (off : ℕ) (c : U16) :
    (s.word off &&& c).extractLsb' 0 8 = s off &&& c.extractLsb' 0 8 := by
  apply BitVec.eq_of_getLsbD_eq
  intro i hi
  interval_cases i <;> simp [word]

theorem and_high (s : Space) (off : ℕ) (c : U16) :
    (s.word off &&& c).extractLsb' 8 8 = s (off + 1) &&& c.extractLsb' 8 8 := by
  apply BitVec.eq_of_getLsbD_eq
  intro i hi
  interval_cases i <;> simp [word]

theorem or_low (s : Space) (off : ℕ) (c : U16) :
    (s.word off ||| c).extractLsb' 0 8 = s off ||| c.extractLsb' 0 8 := by
  apply BitVec.eq_of_getLsbD_eq
  intro i hi
  interval_cases i <;> simp [word]

theorem or_high (s : Space) (off : ℕ) (c : U16) :
    (s.word off ||| c).extractLsb' 8 8 = s (off + 1) ||| c.extractLsb' 8 8 := by
  apply BitVec.eq_of_getLsbD_eq
  intro i hi
  interval_cases i <;> simp [word]

theorem put_of_ne {s : Space} {off i : ℕ} (v : U16) (h : i ≠ off ∧ i ≠ off + 1) :
    s.put off v i = s i := by
  rw [put, Function.update_of_ne h.2, Function.update_of_ne h.1]

/-- No-snoop off in both registers, and the device a bus master. -/
structure Snooped (s : Space) : Prop where
  traffic : s tcselOff &&& 0x07#8 = 0x00#8
  snoop : s.word devcOff &&& devcNosnoopBit = 0#16

def Master (s : Space) : Prop :=
  s.word pciCmdOff &&& (pciCmdMemSpace ||| pciCmdBusMaster) = pciCmdMemSpace ||| pciCmdBusMaster

end Space

/-- Follows the configuration space, and asks for the frame at every moment. -/
def configOf (s₀ : Space) : Monitor Op.Ans Space :=
  Monitor.always (Space.Frame s₀) Space.Reads Space.next

section

variable {s₀ s : Space}

theorem and_masked (x c : U8) : x &&& ~~~c &&& ~~~c = x &&& ~~~c := by
  rw [BitVec.and_assoc, BitVec.and_self]

theorem or_masked (x c : U8) : (x ||| c) &&& ~~~c = x &&& ~~~c := by
  apply BitVec.eq_of_getLsbD_eq
  intro i hi
  simp only [BitVec.getLsbD_and, BitVec.getLsbD_or, BitVec.getLsbD_not, hi]
  cases x.getLsbD i <;> cases c.getLsbD i <;> rfl

theorem frame_traffic (h : s₀.Frame s) :
    s₀.Frame (Function.update s tcselOff (s tcselOff &&& ~~~0x07#8)) :=
  h.update (and_masked _ _)

theorem frame_snoop (h : s₀.Frame s) :
    s₀.Frame (s.put devcOff (s.word devcOff &&& ~~~devcNosnoopBit)) := by
  have hlow : (~~~devcNosnoopBit).extractLsb' 0 8 = ~~~Space.mask devcOff := by decide
  have hhigh : (~~~devcNosnoopBit).extractLsb' 8 8 = ~~~Space.mask (devcOff + 1) := by decide
  refine h.put ?_ ?_
  · rw [Space.and_low, hlow, and_masked]
  · rw [Space.and_high, hhigh, and_masked]

theorem frame_master (h : s₀.Frame s) :
    s₀.Frame (s.put pciCmdOff (s.word pciCmdOff ||| (pciCmdMemSpace ||| pciCmdBusMaster))) := by
  have hlow : (pciCmdMemSpace ||| pciCmdBusMaster).extractLsb' 0 8 = Space.mask pciCmdOff := by
    decide
  have hhigh : (pciCmdMemSpace ||| pciCmdBusMaster).extractLsb' 8 8 =
      Space.mask (pciCmdOff + 1) := by
    decide
  refine h.put ?_ ?_
  · rw [Space.or_low, hlow, or_masked]
  · rw [Space.or_high, hhigh, or_masked]

theorem vendorDevice_config (h : s₀.Frame s) :
    Ensures (configOf s₀) vendorDevice s fun _ s' => s₀.Frame s' := by
  refine ⟨h, fun r _ => ?_⟩
  cases r with
  | error e => exact h
  | ok u =>
    refine ⟨h, fun r _ => ?_⟩
    cases r with
    | error e => exact h
    | ok vendor =>
      refine ⟨h, fun r _ => ?_⟩
      cases r with
      | error e => exact h
      | ok device => exact h

theorem and_not_and {n : ℕ} (x c : BitVec n) : x &&& ~~~c &&& c = 0#n := by
  apply BitVec.eq_of_getLsbD_eq
  intro i hi
  simp [hi]

theorem or_and_self {n : ℕ} (x c : BitVec n) : (x ||| c) &&& c = c := by
  apply BitVec.eq_of_getLsbD_eq
  intro i hi
  simp only [BitVec.getLsbD_and, BitVec.getLsbD_or]
  cases x.getLsbD i <;> cases c.getLsbD i <;> rfl

theorem snoop_config (h : s₀.Frame s) (htraffic : s tcselOff &&& 0x07#8 = 0x00#8) :
    Ensures (configOf s₀) (if s.word devcOff &&& devcNosnoopBit ≠ 0#16
      then configWriteU16 devcOff (s.word devcOff &&& ~~~devcNosnoopBit) else pure ()) s
      (Keeping s₀.Frame fun _ s' => s'.Snooped) := by
  split
  · refine ⟨h, fun r _ => ?_⟩
    cases r with
    | error e => exact keeping_error.mpr h
    | ok u =>
      refine keeping_ok.mpr ⟨frame_snoop h, ?_, ?_⟩
      · exact (congrArg (· &&& 0x07#8) (Space.put_of_ne _ (by decide))).trans htraffic
      · exact (congrArg (· &&& _) (Space.word_put s devcOff _)).trans (and_not_and _ _)
  · exact keeping_ok.mpr ⟨h, htraffic, not_not.mp ‹_›⟩

theorem setSnoop_config (h : s₀.Frame s) : Ensures (configOf s₀) setSnoop s
    (Keeping s₀.Frame fun _ s' => s'.Snooped) := by
  refine ⟨h, fun r _ => ?_⟩
  cases r with
  | error e => exact keeping_error.mpr h
  | ok u =>
    refine ⟨h, fun r hr => ?_⟩
    cases r with
    | error e => exact keeping_error.mpr h
    | ok t =>
      obtain rfl : t = s tcselOff := hr
      refine ⟨h, fun r _ => ?_⟩
      cases r with
      | error e => exact keeping_error.mpr h
      | ok u =>
        have h₁ := frame_traffic h
        have htraffic : Function.update s tcselOff (s tcselOff &&& ~~~0x07#8) tcselOff &&& 0x07#8 =
            0x00#8 := by
          rw [Function.update_self, and_not_and]
        refine ⟨h₁, fun r hr => ?_⟩
        cases r with
        | error e => exact keeping_error.mpr h₁
        | ok w =>
          obtain rfl : w = Space.word _ devcOff := hr
          exact snoop_config h₁ htraffic

theorem setMaster_config (h : s₀.Frame s) (hs : s.Snooped) : Ensures (configOf s₀) setMaster s
    (Keeping s₀.Frame fun _ s' => s'.Snooped ∧ s'.Master) := by
  refine ⟨h, fun r _ => ?_⟩
  cases r with
  | error e => exact keeping_error.mpr h
  | ok u =>
    refine ⟨h, fun r hr => ?_⟩
    cases r with
    | error e => exact keeping_error.mpr h
    | ok cmd =>
      obtain rfl : cmd = s.word pciCmdOff := hr
      change Ensures (configOf s₀) (if s.word pciCmdOff &&& (pciCmdMemSpace ||| pciCmdBusMaster) =
        pciCmdMemSpace ||| pciCmdBusMaster then pure false else _) s _
      split
      · exact keeping_ok.mpr ⟨h, hs, ‹_›⟩
      · refine ⟨h, fun r _ => ?_⟩
        cases r with
        | error e => exact keeping_error.mpr h
        | ok u =>
          refine keeping_ok.mpr ⟨frame_master h, ⟨?_, ?_⟩, ?_⟩
          · exact (congrArg (· &&& 0x07#8) (Space.put_of_ne _ (by decide))).trans hs.traffic
          · have hword : (s.put pciCmdOff (s.word pciCmdOff |||
                (pciCmdMemSpace ||| pciCmdBusMaster))).word devcOff = s.word devcOff := by
              rw [Space.word, Space.put_of_ne _ (by decide), Space.put_of_ne _ (by decide)]
              rfl
            exact (congrArg (· &&& devcNosnoopBit) hword).trans hs.snoop
          · exact (congrArg (· &&& _) (Space.word_put s pciCmdOff _)).trans (or_and_self _ _)

end

theorem Op.Global.not_config {o : Op} (h : o.Global) : ¬ o.Config := by
  intro hc
  cases o <;> first | exact hc.elim | exact h.elim id fun heq => by cases heq

theorem Op.Sd.not_config {base : ℕ} {o : Op} (h : o.Sd base) : ¬ o.Config := by
  intro hc
  cases o <;> first | exact hc.elim | exact h.elim id fun heq => by cases heq

theorem Op.Control.not_config {o : Op} (h : o.Control) : ¬ o.Config := by
  rcases h with h | h
  · cases o <;> first | exact h.elim | exact id
  · exact h.not_config

theorem Op.Streams.not_config {c : Controller} {o : Op} (h : o.Streams c) : ¬ o.Config :=
  h.elim Op.Sd.not_config Op.Global.not_config

theorem Op.IsVerb.not_config {o : Op} (h : o.IsVerb) : ¬ o.Config := by
  cases o <;> first | exact h.elim | exact id

section

variable {s₀ s : Space}

theorem ensures_elsewhere {p : Prog α} (hp : p.Asks fun o => ¬ o.Config) {P : Space → Prop}
    (h : s₀.Frame s) (hP : P s) :
    Ensures (configOf s₀) p s (Keeping s₀.Frame fun _ s' => P s') := by
  have hall := hp.ensures (m := configOf s₀) (I := fun s' => s' = s) (fun _ _ _ heq => heq ▸ h) ?_
    rfl
  · exact hall.mono fun r s' heq => ⟨heq ▸ h, fun _ _ => heq ▸ hP⟩
  · rintro s' o x ho rfl -
    cases o <;> first | rfl | exact (ho trivial).elim

theorem Controller.open_config (opts : DebugOpts) (h : s₀.Frame s) :
    Ensures (configOf s₀) (Controller.open opts) s
      (Keeping s₀.Frame fun _ s' => s'.Snooped ∧ s'.Master) := by
  have hmap : (withContext "map BAR0" (.ask .mapBar ofExcept)).Asks fun o => ¬ o.Config :=
    asks_withContext ⟨id, fun r => asks_ofExcept r⟩
  refine (ensures_elsewhere hmap h (P := fun _ => True) trivial).seq fun _ s h _ => ?_
  refine (ensures_unwrapOr_keeping (vendorDevice_config h)).seq fun ids s h _ => ?_
  split
  · exact keeping_error.mpr h
  refine (ensures_withContext_keeping (setSnoop_config h)).seq fun _ s h hs => ?_
  refine (ensures_withContext_keeping (setMaster_config h hs)).seq fun _ s h hm => ?_
  have hrest : (do
      let gcap ← readU16 gcapReg
      if gcap &&& gcapStreams = 0#16 then .fail (.notController gcap) else start opts gcap :
        Prog Controller).Asks fun o => ¬ o.Config := by
    have hstart := fun gcap => (start_asks opts gcap).mono fun _ ho => ho.not_config
    have hgcap : ¬ (Op.readU16 gcapReg).Config := id
    simp [hstart, hgcap]
  exact ensures_elsewhere hrest h hm

namespace HdaPlayback

theorem bringUp_config (opts : DebugOpts) (rate : ℕ) (h : s₀.Frame s) :
    Ensures (configOf s₀) (bringUp opts rate) s
      (Keeping s₀.Frame fun _ s' => s'.Snooped ∧ s'.Master) := by
  refine (Controller.open_config opts h).seq fun c s h hm => ?_
  have hprobe := (Codec.probe_asks c).mono fun _ ho => ho.isVerb.not_config
  have htopology := fun c => (Codec.dumpTopology_asks c).mono fun _ ho => ho.isVerb.not_config
  have hnew := (control_of_paging Stream.new_asks).mono fun _ ho => ho.not_config
  have hsrst := fun c => (Stream.srst_asks c).mono fun _ ho => ho.not_config
  have hsetup := fun s c => (Stream.setup_asks s c rate).mono fun _ ho => ho.not_config
  refine ensures_elsewhere ?_ h hm
  simp [bringUpFrom, hprobe, htopology, hnew, hsrst, hsetup]

theorem open_config (opts : DebugOpts) (rate : ℕ) (h : s₀.Frame s) :
    Ensures (configOf s₀) («open» opts rate) s
      (Keeping s₀.Frame fun _ s' => s'.Snooped ∧ s'.Master) := by
  refine (bringUp_config opts rate h).seq fun p s h hm => ?_
  have hinit := (initCodec_asks opts rate p.1).mono fun _ ho => ho.not_config
  exact ensures_elsewhere (by simp [hinit]) h hm

theorem session_config_ensures (opts : DebugOpts) (rate : ℕ) (calls : List Call)
    (h : s₀.Frame s) : Ensures (configOf s₀) (session opts rate calls) s
      (Keeping s₀.Frame fun _ s' => s'.Snooped ∧ s'.Master) := by
  refine (open_config opts rate h).seq fun pb s h hm => ensures_elsewhere ?_ h hm
  exact Asks.foldlM fun pb k _ => (call_asks pb k).mono fun o ho =>
    ho.elim Op.Streams.not_config fun ho =>
      ho.elim (fun ho => ho.isVerb.not_config) fun ho => ho.isVerb.not_config

/-- In every session on a configuration space that reads as it was written, whichever of
the reads and writes fail: no bit outside the traffic class, no-snoop, memory space and
bus master ever changes, and once the session is open these are as they should be. -/
theorem session_config (env : Env) (opts : DebugOpts) (rate : ℕ) (calls : List Call) (s₀ : Space)
    (henv : ∀ h o, (s₀.after h).Reads o (env h o)) :
    (∀ pre, pre <+: history env opts rate calls → s₀.Frame (s₀.after pre)) ∧
    ∀ last, (run env (session opts rate calls) []).1 = .ok last →
      (s₀.after (history env opts rate calls)).Snooped ∧
      (s₀.after (history env opts rate calls)).Master := by
  have hall := session_config_ensures opts rate calls (Space.Frame.refl s₀)
  have hheeds : (configOf s₀).Heeds s₀ env := henv
  refine ⟨fun pre hpre => ?_, ?_⟩
  · exact (hall.mono fun _ _ h => h.1).always (h := []) hheeds (List.nil_prefix) hpre
  · exact (hall.run (h := []) hheeds).2.2

/-- A device that starts with no-snoop on and is no bus master. -/
def freshSpace : Space := fun off =>
  if off = 0 then 0x86#8 else if off = 1 then 0x80#8 else if off = devcOff + 1 then 0x28#8 else 0#8

/-- The typical device over it. -/
def spaced : Env := fun h o =>
  match o with
  | .configReadU8 off => .ok (freshSpace.after h off)
  | .configReadU16 off => .ok ((freshSpace.after h).word off)
  | o => o.typical

theorem spaced_reads : ∀ h o, (freshSpace.after h).Reads o (spaced h o) := by
  intro h o
  cases o <;> trivial

theorem session_config_fresh : ∃ last,
    (run spaced (session .plain 48000 [.stop]) []).1 = .ok last ∧
    (freshSpace.after (history spaced .plain 48000 [.stop])).Snooped ∧
    (freshSpace.after (history spaced .plain 48000 [.stop])).Master := by
  have h : (match (run spaced (session .plain 48000 [.stop]) []).1 with
      | .ok _ => true
      | .error _ => false) = true := by
    decide +kernel
  split at h
  · rename_i last hlast
    exact ⟨last, hlast,
      (session_config spaced .plain 48000 [.stop] freshSpace spaced_reads).2 last hlast⟩
  · cases h

end HdaPlayback

end

end Audiod.Driver
