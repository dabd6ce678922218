import Audiod.ShimHeader
import Mathlib.Algebra.Order.Floor.Ring
import Mathlib.Data.Rat.Floor
import Mathlib.Tactic.Linarith

/-!
# The playhead of a handle

`pcm_delay_avail` derives the delay from what has been pushed and the time since the
playhead was anchored. The first write anchors it; `snd_pcm_prepare`, `snd_pcm_drop`
and a reconnect take the anchor away, and only the last two forget what was pushed. A
write is under way from its anchor to the end of its push, and a reconnect can fall in
between.
-/

namespace Audiod.Shim

/-- `pcm_delay_avail` (`lib.rs:619-634`); the clock is exact. -/
def pcmDelayAvail (p : Process) (h : Handle) : ℤ × ℤ :=
  let fb : ℤ := h.frameBytes
  if fb = 0 then (shimServerFrames, shimBufferFrames - shimServerFrames)
  else
    let pushed : ℤ := h.totalPushed / fb
    let consumed : ℤ :=
      match h.playStart with
      | some t0 => ⌊(h.rate : ℚ) * (p.clock - t0)⌋
      | none => 0
    let unplayed := max (pushed - consumed) 0 + shimServerFrames
    let delay := min unplayed shimBufferFrames
    (delay, shimBufferFrames - delay)

/-- `snd_pcm_avail_update` -/
def pcmAvailUpdate (p : Process) (h : Handle) : ℤ := (pcmDelayAvail p h).2

variable {p p' : Process} {h h' : Handle} {es : List Event}

theorem avail_of_played (hplayed : h.frameBytes ≠ 0 → (h.totalPushed : ℤ) / h.frameBytes ≤
    match h.playStart with
    | some t0 => ⌊(h.rate : ℚ) * (p.clock - t0)⌋
    | none => 0) : pcmAvailUpdate p h = shimBufferFrames - shimServerFrames := by
  simp only [pcmAvailUpdate, pcmDelayAvail]
  split
  · rfl
  · rename_i hfb
    have hle := hplayed fun h0 => hfb (by rw [h0]; rfl)
    rw [max_eq_right (Int.sub_nonpos_of_le hle)]
    rfl

theorem avail_of_unanchored (hplay : h.playStart = none) (hpushed : h.totalPushed = 0) :
    pcmAvailUpdate p h = shimBufferFrames - shimServerFrames := by
  apply avail_of_played
  intro _
  rw [hplay, hpushed]
  simp

/-! ### The anchor -/

/-- Bytes of a write that is past its anchor. -/
def pendingBytes : AppPc → ℕ
  | .writeSilent data | .writeMute _ data | .writePush data => data.length
  | .writeAdd n => n
  | _ => 0

/-- A drop that has forgotten what was pushed and still has the anchor to clear. -/
def Forgetting : AppPc → Prop
  | .dropWritten | .dropPlay => True
  | _ => False

structure AnchorInv (h : Handle) : Prop where
  unanchored : h.playStart = none → h.totalPushed = 0 ∧ pendingBytes h.app = 0
  forgotten : Forgetting h.app → h.totalPushed = 0
  dropped : h.app = .dropFlush → h.playStart = none

/-- The anchor is taken away only where nothing has been pushed and no write is
between its anchor and the end of its push. -/
def Unpushed (h : Handle) : Prop := h.totalPushed = 0 ∧ pendingBytes h.app = 0

instance (h : Handle) : Decidable (Unpushed h) := inferInstanceAs (Decidable (_ ∧ _))

/-- The last step of a reconnect. -/
def Rejoining : DrainPc → Prop
  | .rePlay _ => True
  | _ => False

instance (pc : DrainPc) : Decidable (Rejoining pc) := by
  unfold Rejoining
  split <;> infer_instance

def AnchorSafe (w : World) : Action → Prop
  | .handle i (.call .prepare) => ∀ h ∈ w.handles i, Unpushed h
  | .handle i (.drain _) => ∀ h ∈ w.handles i, Rejoining h.drain → Unpushed h
  | _ => True

instance (w : World) (x : Action) : Decidable (AnchorSafe w x) :=
  match x with
  | .handle i (.call .prepare) => inferInstanceAs (Decidable (∀ h ∈ w.handles i, Unpushed h))
  | .handle i (.drain _) =>
    inferInstanceAs (Decidable (∀ h ∈ w.handles i, Rejoining h.drain → Unpushed h))
  | .handle _ (.call (.setFormat _)) | .handle _ (.call (.setChannels _))
  | .handle _ (.call (.setRate _)) | .handle _ (.call .hwParams)
  | .handle _ (.call (.setParams _ _ _)) | .handle _ (.call (.writei _))
  | .handle _ (.call .drain) | .handle _ (.call .drop) | .handle _ (.call .start)
  | .handle _ (.call (.pause _)) | .handle _ (.call .close) | .handle _ (.app _)
  | .open _ _ | .hangup _ | .elapse _ => isTrue trivial

theorem anchorInv_call (hi : AnchorInv h) {c : Call} (hok : c = .prepare → Unpushed h)
    (hs : h.call p c = ((p', h'), es)) : AnchorInv h' := by
  have hanchor : h.playStart = none → h.totalPushed = 0 ∧ 0 = 0 :=
    fun hn => ⟨(hi.unanchored hn).1, rfl⟩
  cases c with
  | setFormat fmt | setChannels n | setRate rate | drain | start =>
    cases hs
    exact { hi with }
  | hwParams =>
    cases hs
    unfold Handle.commit
    split
    · exact hi
    · exact ⟨hanchor, False.elim, fun heq => by cases heq⟩
  | setParams fmt channels rate =>
    cases hs
    unfold Handle.commit
    split
    · exact { hi with }
    · exact ⟨hanchor, False.elim, fun heq => by cases heq⟩
  | writei data =>
    simp only [Handle.call] at hs
    split at hs <;> cases hs
    · exact ⟨hanchor, False.elim, fun heq => by cases heq⟩
    · exact hi
  | prepare =>
    cases hs
    exact ⟨fun _ => hok rfl, hi.forgotten, fun _ => rfl⟩
  | drop | close =>
    cases hs
    exact ⟨hanchor, False.elim, fun heq => by cases heq⟩
  | pause on =>
    simp only [Handle.call] at hs
    split at hs <;> cases hs
    · exact { hi with }
    · exact { hi with }

/- The four stores of `snd_pcm_drop`, in their order, and its flag. -/
theorem anchorInv_ending (hi : AnchorInv h) (hg : h.app.Ending) {a : Answer}
    (hs : h.appStep p a = some ((p', h'), es)) : AnchorInv h' := by
  have hun := hi.unanchored
  have hfor := hi.forgotten
  unfold Handle.appStep at hs
  cases hpc : h.app <;> rw [hpc] at hg hun hfor hs <;> dsimp only at hs
  case dropClear =>
    cases hs
    exact ⟨hun, nofun, nofun⟩
  case dropPushed =>
    cases hs
    exact ⟨fun _ => ⟨rfl, rfl⟩, fun _ => rfl, nofun⟩
  case dropWritten =>
    cases hs
    exact ⟨hun, fun _ => hfor trivial, nofun⟩
  case dropPlay =>
    cases hs
    exact ⟨fun _ => ⟨hfor trivial, rfl⟩, nofun, fun _ => rfl⟩
  case dropFlush =>
    split at hs <;> cases hs <;> exact ⟨hun, nofun, nofun⟩
  case closeStop | closeInterrupt =>
    cases hs
    exact ⟨hun, nofun, nofun⟩
  case closeJoin =>
    split at hs <;> cases hs
    exact ⟨hun, nofun, nofun⟩
  case closeFd =>
    split at hs <;> cases hs <;> exact ⟨hun, nofun, nofun⟩
  all_goals exact hg.elim

theorem anchorInv_app (hi : AnchorInv h) {a : Answer}
    (hs : h.appStep p a = some ((p', h'), es)) : AnchorInv h' := by
  have hun := hi.unanchored
  cases hpc : h.app
  case dropClear | dropPushed | dropWritten | dropPlay | dropFlush | closeStop | closeInterrupt |
      closeJoin | closeFd =>
    exact anchorInv_ending hi (by rw [hpc]; trivial) hs
  all_goals
    unfold Handle.appStep at hs
    rw [hpc] at hun hs
    dsimp only at hs
  case idle | closed => cases hs
  case commitLoad =>
    split at hs <;> cases hs <;> exact ⟨hun, nofun, nofun⟩
  case commitStash fd =>
    cases hs
    exact ⟨hun, nofun, nofun⟩
  case commitSend fd =>
    split at hs
    · split at hs
      · cases hs
      · split at hs <;> cases hs <;> exact ⟨hun, nofun, nofun⟩
    · cases hs
      exact ⟨hun, nofun, nofun⟩
    · cases hs
  case writeAnchor data =>
    cases hs
    refine ⟨fun hn => ?_, nofun, nofun⟩
    -- The playhead is anchored now.
    exact absurd (Option.or_eq_none_iff.mp hn).2 nofun
  case writeSilent data =>
    cases hs
    split
    · exact ⟨hun, nofun, nofun⟩
    · split
      · exact ⟨hun, nofun, nofun⟩
      · exact ⟨hun, nofun, nofun⟩
  case writeMute cmd data =>
    cases hs
    exact ⟨hun, nofun, nofun⟩
  case writePush data =>
    split at hs <;> cases hs
    refine ⟨fun hn => ?_, nofun, nofun⟩
    exact hun hn
  case writeAdd n =>
    cases hs
    refine ⟨fun hn => ?_, nofun, nofun⟩
    obtain ⟨hpushed, hn0⟩ := hun hn
    exact ⟨Nat.add_eq_zero_iff.mpr ⟨hpushed, hn0⟩, rfl⟩

theorem trySend_playhead {f : Frame} {skip : DrainPc} (hs : h.trySend p f skip = ((p', h'), es)) :
    h'.playStart = h.playStart ∧ h'.totalPushed = h.totalPushed := by
  unfold Handle.trySend at hs
  split at hs <;> cases hs <;> exact ⟨rfl, rfl⟩

/- What the drain thread does to the playhead: nothing, except towards the end of a
reconnect. -/
theorem drain_playhead {a : Answer} (hs : h.drainStep p a = some ((p', h'), es)) :
    (h'.playStart = h.playStart ∧ h'.totalPushed = h.totalPushed) ∨
      (∃ f, h.drain = .rePushed f) ∧ h'.playStart = h.playStart ∧ h'.totalPushed = 0 ∨
      Rejoining h.drain ∧ h'.playStart = none ∧ h'.totalPushed = h.totalPushed := by
  unfold Handle.drainStep at hs
  cases hpc : h.drain <;> rw [hpc] at hs <;> dsimp only at hs
  case rePlay f =>
    cases hs
    exact .inr (.inr ⟨trivial, rfl, rfl⟩)
  case rePushed f =>
    cases hs
    exact .inr (.inl ⟨⟨f, rfl⟩, rfl, rfl⟩)
  all_goals left
  case top | written n | reClose old f | reStop f | reWritten f =>
    cases hs
    exact ⟨rfl, rfl⟩
  case mute | flush =>
    split at hs
    all_goals first
      | exact trySend_playhead (Option.some.inj hs)
      | (cases hs; exact ⟨rfl, rfl⟩)
  case pop =>
    split at hs
    · cases hs
    · cases hs
      exact ⟨rfl, rfl⟩
    · have hsend := trySend_playhead (Option.some.inj hs)
      exact hsend
  case send fd rest f =>
    split at hs
    · split at hs
      · cases hs
      · split at hs <;> cases hs <;> exact ⟨rfl, rfl⟩
    · cases hs
      exact ⟨rfl, rfl⟩
    · cases hs
  case reSwap f =>
    split at hs <;> cases hs <;> exact ⟨rfl, rfl⟩
  case reConnect f =>
    split at hs
    · split at hs <;> cases hs
      exact ⟨rfl, rfl⟩
    · cases hs
      exact ⟨rfl, rfl⟩
    · cases hs
  case reHeader fd f =>
    split at hs
    · cases hs
      exact ⟨rfl, rfl⟩
    · split at hs
      · split at hs <;> cases hs
        exact ⟨rfl, rfl⟩
      · cases hs
        exact ⟨rfl, rfl⟩
      · cases hs
  case done => cases hs

theorem anchorInv_drain (hi : AnchorInv h) {a : Answer} (hok : Rejoining h.drain → Unpushed h)
    (hs : h.drainStep p a = some ((p', h'), es)) : AnchorInv h' := by
  obtain ⟨hside, -⟩ := Handle.drainStep_frame hs
  simp only [Handle.callerSide, Prod.mk.injEq] at hside
  obtain ⟨-, -, -, -, -, -, -, -, happ⟩ := hside
  rcases drain_playhead hs with ⟨hplay, hpushed⟩ | ⟨-, hplay, hpushed⟩ | ⟨hre, hplay, hpushed⟩
  · refine ⟨fun hn => ?_, fun hf => ?_, fun hd => ?_⟩
    · rw [hpushed, happ]
      exact hi.unanchored (hplay ▸ hn)
    · exact hpushed.trans (hi.forgotten (happ ▸ hf))
    · exact hplay.trans (hi.dropped (happ ▸ hd))
  · refine ⟨fun hn => ⟨hpushed, ?_⟩, fun _ => hpushed, fun hd => ?_⟩
    · rw [happ]
      exact (hi.unanchored (hplay ▸ hn)).2
    · exact hplay.trans (hi.dropped (happ ▸ hd))
  · obtain ⟨h0, hpend⟩ := hok hre
    refine ⟨fun _ => ?_, fun _ => hpushed.trans h0, fun _ => hplay⟩
    rw [happ]
    exact ⟨hpushed.trans h0, hpend⟩

theorem anchorInv_opened (ringBytes fd : ℕ) : AnchorInv (Handle.opened ringBytes fd) :=
  ⟨fun _ => ⟨rfl, rfl⟩, nofun, nofun⟩

theorem anchorInv_step {w w' : World} {x : Action} {es : List (ℕ × Event)}
    (hi : ∀ i, ∀ h ∈ w.handles i, AnchorInv h) (hok : AnchorSafe w x)
    (hs : w.step x = some (w', es)) (i : ℕ) : ∀ h ∈ w'.handles i, AnchorInv h := by
  have hopen (ringBytes fd : ℕ) (_ : x = .open ringBytes fd) :
      AnchorInv (Handle.opened ringBytes fd) := anchorInv_opened ringBytes fd
  refine forall_handles_of_step (P := fun _ => AnchorInv) hs hi (fun _ _ hold _ => hold) hopen ?_ i
  intro j y h h' fs hx hh hold hstep
  subst hx
  cases y with
  | call c =>
    simp only [Shim.step] at hstep
    split at hstep
    · refine anchorInv_call hold (fun hc => ?_) (Option.some.inj hstep)
      subst hc
      exact hok h hh
    · cases hstep
  | app a => exact anchorInv_app hold hstep
  | drain a => exact anchorInv_drain hold (hok h hh) hstep

/-! ### After a prepare or a drop -/

/-- The step with which a prepare or a drop of the handle returns. -/
def Returns (w : World) (i : ℕ) : Action → Prop
  | .handle j (.call .prepare) => j = i
  | .handle j (.app _) => j = i ∧ ∃ h ∈ w.handles i, h.app = .dropFlush
  | _ => False

theorem unanchored_of_returns {w w' : World} {i : ℕ} {x : Action} {es : List (ℕ × Event)}
    (hi : ∀ i, ∀ h ∈ w.handles i, AnchorInv h) (hx : Returns w i x)
    (hs : w.step x = some (w', es)) : ∀ h ∈ w'.handles i, h.playStart = none := by
  intro g hg
  cases handleStep_of_step hs with
  | opened ringBytes fd hhandles | hangup c hhandles | elapse dt hhandles => cases hx
  | stepped j y h h' fs hh hstep hhandles hes =>
    unfold Returns at hx
    split at hx
    · rename_i heq
      cases heq
      subst hx
      rw [hhandles, Function.update_self] at hg
      cases hg
      simp only [Shim.step] at hstep
      split at hstep
      · simp only [Handle.call, Option.some.injEq, Prod.mk.injEq] at hstep
        exact hstep.1.2 ▸ rfl
      · cases hstep
    · rename_i heq
      cases heq
      obtain ⟨rfl, x, hx, hpc⟩ := hx
      rw [hh] at hx
      cases hx
      have hplay := (hi j h hh).dropped hpc
      rw [hhandles, Function.update_self] at hg
      cases hg
      simp only [Shim.step, Handle.appStep, hpc] at hstep
      split at hstep
      all_goals
        simp only [Option.some.injEq, Prod.mk.injEq] at hstep
        exact hstep.1.2 ▸ hplay
    · cases hx

/-! ### Waiting for room -/

/-- The caller does nothing with the handle. -/
def Waits (i : ℕ) : Action → Prop
  | .handle j (.call _) | .handle j (.app _) => j ≠ i
  | _ => True

/-- What can have become of the playhead of `h` in the meantime. -/
def Kept (h h' : Handle) : Prop :=
  h'.playStart = none ∨
    h'.playStart = h.playStart ∧ h'.totalPushed ≤ h.totalPushed ∧ h'.rate = h.rate

theorem kept_step {w w' : World} {i : ℕ} {x : Action} {es : List (ℕ × Event)} {h : Handle}
    (hx : Waits i x) (hk : ∀ g ∈ w.handles i, Kept h g) (hs : w.step x = some (w', es)) :
    ∀ g ∈ w'.handles i, Kept h g := by
  intro g hg
  cases handleStep_of_step hs with
  | opened ringBytes fd hhandles =>
    rw [hhandles, Function.update_apply] at hg
    split at hg
    · cases hg
      exact .inl rfl
    · exact hk g hg
  | stepped j y h₀ h' fs hh hstep hhandles hes =>
    rw [hhandles, Function.update_apply] at hg
    split at hg
    · rename_i hij
      cases hg
      cases y with
      | call c | app a => exact absurd hij.symm hx
      | drain a =>
        have hold := hk h₀ (hij ▸ hh)
        obtain ⟨hside, -⟩ := Handle.drainStep_frame hstep
        have hrate : g.rate = h₀.rate := congrArg (·.1) hside
        rcases hold with hnone | ⟨hp, ht, hr⟩
        · rcases drain_playhead hstep with ⟨hplay, -⟩ | ⟨-, hplay, -⟩ | ⟨-, hplay, -⟩
          · exact .inl (hplay.trans hnone)
          · exact .inl (hplay.trans hnone)
          · exact .inl hplay
        · rcases drain_playhead hstep with ⟨hplay, hpushed⟩ | ⟨-, hplay, h0⟩ | ⟨-, hplay, -⟩
          · exact .inr ⟨hplay.trans hp, hpushed ▸ ht, hrate.trans hr⟩
          · exact .inr ⟨hplay.trans hp, h0 ▸ Nat.zero_le _, hrate.trans hr⟩
          · exact .inl hplay
    · exact hk g hg
  | hangup c hhandles | elapse dt hhandles =>
    rw [hhandles] at hg
    exact hk g hg

/-- The time by which everything pushed so far has been played. -/
def playedBy (h : Handle) : ℚ := h.playStart.getD 0 + h.totalPushed / h.rate

theorem avail_of_kept (hrate : h.rate ≠ 0) (hi : AnchorInv h') (hk : Kept h h')
    (hclock : playedBy h ≤ p.clock) :
    pcmAvailUpdate p h' = shimBufferFrames - shimServerFrames := by
  rcases hk with hnone | ⟨hplay, hle, hr⟩
  · exact avail_of_unanchored hnone (hi.unanchored hnone).1
  · cases hstart : h'.playStart with
    | none => exact avail_of_unanchored hstart (hi.unanchored hstart).1
    | some t0 =>
      apply avail_of_played
      intro _
      rw [hstart]
      dsimp only
      have hpos : (0 : ℚ) < h.rate := by exact_mod_cast Nat.pos_of_ne_zero hrate
      have ht0 : h.playStart.getD 0 = t0 := by rw [← hplay, hstart]; rfl
      have htime : (h.totalPushed : ℚ) ≤ h.rate * (p.clock - t0) := by
        rw [playedBy, ht0] at hclock
        have hdiv : (h.totalPushed : ℚ) / h.rate ≤ p.clock - t0 := by linarith
        rwa [div_le_iff₀' hpos] at hdiv
      have hfloor : (h.totalPushed : ℤ) ≤ ⌊(h'.rate : ℚ) * (p.clock - t0)⌋ := by
        rw [hr, Int.le_floor]
        exact_mod_cast htime
      calc (h'.totalPushed : ℤ) / h'.frameBytes ≤ h'.totalPushed :=
            Int.ediv_le_self _ (Int.natCast_nonneg _)
        _ ≤ h.totalPushed := by exact_mod_cast hle
        _ ≤ ⌊(h'.rate : ℚ) * (p.clock - t0)⌋ := hfloor

/-- Without an anchor and outside a write, nothing counts as pushed; a prepare or a
drop leaves the handle with its full room; and a caller that waits gets room, in every
run in which the anchor is taken away only where nothing has been pushed. -/
theorem run_anchor_consistent (xs : List Action) (hok : world.Meets AnchorSafe World.init xs)
    {w : World} {tr : List (ℕ × Event)} (hrun : world.run World.init xs = some (w, tr)) (i : ℕ) :
    (∀ h ∈ w.handles i, h.playStart = none → ¬Writing h.app → h.totalPushed = 0) ∧
    (∀ x w' es, Returns w i x → AnchorSafe w x → w.step x = some (w', es) →
      ∀ h ∈ w'.handles i, pcmAvailUpdate w'.proc h = shimBufferFrames - shimServerFrames) ∧
    ∀ h ∈ w.handles i, h.rate ≠ 0 → ∃ t, ∀ ys w' es, (∀ y ∈ ys, Waits i y) →
      world.Meets AnchorSafe w ys → world.run w ys = some (w', es) → t ≤ w'.proc.clock →
        ∀ h' ∈ w'.handles i, 0 < pcmAvailUpdate w'.proc h' := by
  have hstep : ∀ w x w' es, AnchorSafe w x → (∀ i, ∀ h ∈ w.handles i, AnchorInv h) →
      world.step w x = some (w', es) → ∀ i, ∀ h ∈ w'.handles i, AnchorInv h :=
    fun w x w' es hx hi hs => anchorInv_step hi hx hs
  have hinit : ∀ i, ∀ h ∈ World.init.handles i, AnchorInv h := by
    intro i h hh
    cases hh
  have hi := world.run_state_inv_of_meets hstep hinit hok hrun
  refine ⟨fun h hh hn _ => ((hi i h hh).unanchored hn).1, ?_, ?_⟩
  · intro x w' es hx hsafe hs h hh
    have hn := unanchored_of_returns hi hx hs h hh
    have hinv := anchorInv_step hi hsafe hs i h hh
    exact avail_of_unanchored hn (hinv.unanchored hn).1
  · intro h hh hrate
    refine ⟨playedBy h, fun ys w' es hwait hmeets hrun' hclock h' hh' => ?_⟩
    have hkept : ∀ w x w' es, Waits i x → (∀ g ∈ w.handles i, Kept h g) →
        world.step w x = some (w', es) → ∀ g ∈ w'.handles i, Kept h g :=
      fun w x w' es hx hk hs => kept_step hx hk hs
    have hself : ∀ g ∈ w.handles i, Kept h g := by
      intro g hg
      rw [hh] at hg
      cases hg
      exact .inr ⟨rfl, Nat.le_refl _, rfl⟩
    have hend := world.run_state_inv_of_meets hkept hself (world.meets_of_all w ys hwait) hrun'
    have hinv := world.run_state_inv_of_meets hstep hi hmeets hrun'
    rw [avail_of_kept hrate (hinv i h' hh') (hend h' hh') hclock]
    decide

/-- A write, a drop, a write and a second of waiting. -/
def dropRun : List Action :=
  [.open 4096 3, .handle 0 (.call (.setParams 2 2 48000)), .handle 0 (.app .go),
    .handle 0 (.app .go), .handle 0 (.app (.accept 12)), .handle 0 (.call (.writei [1, 0, 2, 0])),
    .handle 0 (.app .go), .handle 0 (.app .go), .handle 0 (.app .go), .handle 0 (.app .go),
    .handle 0 (.call .drop), .handle 0 (.app .go), .handle 0 (.app .go), .handle 0 (.app .go),
    .handle 0 (.app .go), .handle 0 (.app .go), .handle 0 (.call .prepare),
    .handle 0 (.call (.writei [1, 0, 2, 0])), .handle 0 (.app .go), .handle 0 (.app .go),
    .handle 0 (.app .go), .handle 0 (.app .go), .elapse 1]

theorem run_anchor_consistent_drop : ∃ w tr, world.run World.init dropRun = some (w, tr) ∧
    ((∀ h ∈ w.handles 0, h.playStart = none → ¬Writing h.app → h.totalPushed = 0) ∧
    (∀ x w' es, Returns w 0 x → AnchorSafe w x → w.step x = some (w', es) →
      ∀ h ∈ w'.handles 0, pcmAvailUpdate w'.proc h = shimBufferFrames - shimServerFrames) ∧
    ∀ h ∈ w.handles 0, h.rate ≠ 0 → ∃ t, ∀ ys w' es, (∀ y ∈ ys, Waits 0 y) →
      world.Meets AnchorSafe w ys → world.run w ys = some (w', es) → t ≤ w'.proc.clock →
        ∀ h' ∈ w'.handles 0, 0 < pcmAvailUpdate w'.proc h') :=
  ⟨_, _, rfl, run_anchor_consistent dropRun (by decide +kernel) rfl 0⟩

/- `snd_pcm_prepare` after a write takes the anchor away and leaves the count. -/
theorem prepare_keeps_pushed :
    ¬ ∀ (xs : List Action) (w : World) (tr : List (ℕ × Event)) (i : ℕ),
      world.run World.init xs = some (w, tr) →
        ∀ h ∈ w.handles i, h.playStart = none → ¬Writing h.app → h.totalPushed = 0 := by
  intro hall
  have hzero := hall [.open 4096 3, .handle 0 (.call (.setParams 2 2 48000)),
    .handle 0 (.app .go), .handle 0 (.app .go), .handle 0 (.app (.accept 12)),
    .handle 0 (.call (.writei [1, 0, 2, 0])), .handle 0 (.app .go), .handle 0 (.app .go),
    .handle 0 (.app .go), .handle 0 (.app .go), .handle 0 (.call .prepare)] _ _ 0 rfl _ rfl rfl id
  revert hzero
  decide

end Audiod.Shim
