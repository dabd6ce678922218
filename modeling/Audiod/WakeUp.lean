import Audiod.Bytes
import Audiod.RingSync

/-!
# The wake-up of `interrupt`

`pop` tests the flag and goes to sleep under the lock; `interrupt` stores the flag and
notifies without it. A notification that falls between the test and the sleep wakes
nobody, and the flag it announces is looked at by nobody.
-/

namespace Audiod.RingSync

variable {α : Type*}

def HasLock : Pc α → Prop
  | .pushTest _ | .pushWait _ | .pushCopy _ | .pushUnlock | .popSwap _ | .popTest _ | .popWait _
  | .popCopy _ | .popEmpty | .popUnlock _ | .clearReset | .clearSpace | .clearData
  | .clearUnlock => True
  | _ => False

/-- A pop that has found the flag clear and is going to sleep. -/
def Between (filled : ℕ) : Pc α → Prop
  | .popTest _ => filled = 0
  | .popWait _ => True
  | _ => False

/-- An interrupt has returned, its flag is still set, and a pop is asleep with no
notification pending. -/
def Stuck (s : State α) : Prop :=
  s.served = true ∧ s.ring.raw.interrupted = true ∧
    ∃ t len, s.pcs t = .popAsleep len ∧ t ∈ s.dataWaiters

/-- An interrupt whose flag is still set notifies while no pop is between its test of
the flag and its sleep. -/
def NobodyBetween (s : State α) : Input α → Prop
  | .step t _ =>
    match s.pcs t with
    | .interruptNotify stored =>
      stored = s.cleared → ∀ u ∈ s.holder, ¬Between s.ring.filled (s.pcs u)
    | _ => True
  | _ => True

instance (filled : ℕ) (pc : Pc α) : Decidable (Between filled pc) := by
  unfold Between
  split <;> infer_instance

instance (s : State α) (i : Input α) : Decidable (NobodyBetween s i) := by
  unfold NobodyBetween
  split
  · split <;> infer_instance
  · infer_instance

structure WakeInv (s : State α) : Prop where
  lock : ∀ t, HasLock (s.pcs t) ↔ s.holder = some t
  stored : ∀ t e, s.pcs t = .interruptNotify e →
    e ≤ s.cleared ∧ (e = s.cleared → s.ring.raw.interrupted = true)
  served : s.served = true → s.ring.raw.interrupted = true ∧ s.dataWaiters = [] ∧
    ∀ t, ¬Between s.ring.filled (s.pcs t)

variable {s s' : State α} {t pick : ℕ} {pc pc' : Pc α}

theorem WakeInv.not_stuck (hi : WakeInv s) : ¬Stuck s := by
  rintro ⟨hserved, -, t, len, -, hmem⟩
  obtain ⟨-, hnil, -⟩ := hi.served hserved
  rw [hnil] at hmem
  cases hmem

theorem hasLock_of_between {filled : ℕ} (h : Between filled pc) : HasLock pc := by
  unfold Between at h
  split at h
  · trivial
  · trivial
  · cases h

/-- What a step of thread `t` from `pc` to `pc'` does with the lock. -/
inductive LockMove (s s' : State α) (t : ℕ) (pc pc' : Pc α) : Prop
  | keep (hh : s'.holder = s.holder) (h : HasLock pc ↔ HasLock pc')
  | take (hfree : s.holder = none) (hh : s'.holder = some t) (h : HasLock pc')
  | release (h : HasLock pc) (hh : s'.holder = none) (h' : ¬HasLock pc')

theorem lock_move (hi : WakeInv s) (hpc : s.pcs t = pc)
    (hpcs : s'.pcs = Function.update s.pcs t pc') (hm : LockMove s s' t pc pc') (u : ℕ) :
    HasLock (s'.pcs u) ↔ s'.holder = some u := by
  have hold := hi.lock u
  have ht := hi.lock t
  rw [hpc] at ht
  rw [hpcs, Function.update_apply]
  by_cases hut : u = t
  · subst hut
    rw [if_pos rfl]
    cases hm with
    | keep hh h => rw [hh, ← h, ht]
    | take hfree hh h => exact iff_of_true h hh
    | release h hh h' => exact iff_of_false h' (by rw [hh]; nofun)
  · rw [if_neg hut]
    cases hm with
    | keep hh h => rw [hh, hold]
    | take hfree hh h =>
      rw [hold, hfree, hh, Option.some.injEq]
      exact iff_of_false nofun (Ne.symm hut)
    | release h hh h' =>
      rw [hold, ht.mp h, hh, Option.some.injEq]
      exact iff_of_false (Ne.symm hut) nofun

/- A step that leaves the flag alone. It goes on to sleep only where the flag was not
announced. -/
theorem WakeInv.move (hi : WakeInv s) (hpc : s.pcs t = pc)
    (hpcs : s'.pcs = Function.update s.pcs t pc') (hm : LockMove s s' t pc pc')
    (hcleared : s'.cleared = s.cleared) (hserved : s'.served = s.served)
    (hflag : s'.ring.raw.interrupted = s.ring.raw.interrupted)
    (hfill : s'.ring.filled = s.ring.filled ∨ HasLock pc) (hnew : ∀ e, pc' ≠ .interruptNotify e)
    (hannounced : s.served = true →
      (s.dataWaiters = [] → s'.dataWaiters = []) ∧ ¬Between s'.ring.filled pc') : WakeInv s' := by
  refine ⟨lock_move hi hpc hpcs hm, fun u e hu => ?_, fun hs => ?_⟩
  · rw [hpcs, Function.update_apply] at hu
    rw [hcleared, hflag]
    split at hu
    · exact absurd hu (hnew e)
    · exact hi.stored u e hu
  · rw [hserved] at hs
    obtain ⟨hset, hnil, hnone⟩ := hi.served hs
    obtain ⟨hwait, hbetween⟩ := hannounced hs
    refine ⟨hflag.trans hset, hwait hnil, fun u hu => ?_⟩
    rw [hpcs, Function.update_apply] at hu
    split at hu
    · exact hbetween hu
    · rename_i hut
      rcases hfill with hsame | hlock
      · exact hnone u (hsame ▸ hu)
      · -- Only the thread with the lock can be there, and that is `t`.
        have hhold := (hi.lock u).mp (hasLock_of_between hu)
        rw [(hi.lock t).mp (hpc ▸ hlock), Option.some.injEq] at hhold
        exact hut hhold.symm

theorem WakeInv.pass (hi : WakeInv s) (hpc : s.pcs t = pc)
    (hpcs : s'.pcs = Function.update s.pcs t pc') (hm : LockMove s s' t pc pc')
    (hcleared : s'.cleared = s.cleared) (hserved : s'.served = s.served)
    (hflag : s'.ring.raw.interrupted = s.ring.raw.interrupted)
    (hfill : s'.ring.filled = s.ring.filled ∨ HasLock pc)
    (hwait : s.dataWaiters = [] → s'.dataWaiters = []) (hnew : ∀ e, pc' ≠ .interruptNotify e)
    (hbetween : ¬Between s'.ring.filled pc') : WakeInv s' :=
  hi.move hpc hpcs hm hcleared hserved hflag hfill hnew fun _ => ⟨hwait, hbetween⟩

theorem WakeInv.lock_step (hi : WakeInv s) (hpc : s.pcs t = pc)
    (hs : s.lock t pc' = some s') (hlock : HasLock pc') (hnew : ∀ e, pc' ≠ .interruptNotify e)
    (hbetween : ¬Between s.ring.filled pc') : WakeInv s' := by
  unfold State.lock at hs
  split at hs
  · rename_i hfree
    cases hs
    exact hi.pass hpc rfl (.take hfree rfl hlock) rfl rfl rfl (.inl rfl) id hnew hbetween
  · cases hs

theorem notifyOne_nil {waiters ws : List ℕ} (h : notifyOne waiters pick = some ws) :
    waiters = [] → ws = [] := by
  intro hnil
  unfold notifyOne at h
  split at h <;> cases h
  rw [hnil, List.erase_nil]

theorem WakeInv.call (hi : WakeInv s) (hpc : s.pcs t = .idle) (c : Call α) :
    WakeInv (s.goto t c.start) := by
  have hlock : HasLock (Pc.idle : Pc α) ↔ HasLock c.start := by
    cases c with
    | push data =>
      simp only [Call.start]
      split <;> exact Iff.rfl
    | pop len | clear | interrupt => exact Iff.rfl
  have hnew : ∀ e, c.start ≠ .interruptNotify e := by
    cases c with
    | push data =>
      simp only [Call.start]
      split <;> nofun
    | pop len | clear | interrupt => nofun
  have hbetween : ¬Between s.ring.filled c.start := by
    intro hb
    exact hlock.mpr (hasLock_of_between hb)
  exact hi.pass hpc rfl (.keep rfl hlock) rfl rfl rfl (.inl rfl) id hnew hbetween

/- The flag is cleared under the lock: what was announced is over. -/
theorem WakeInv.swap (hi : WakeInv s) {len : ℕ} (hpc : s.pcs t = .popSwap len) :
    WakeInv { s.goto t .popEmpty with
      ring := s.ring.setInterrupted false, cleared := s.cleared + 1, served := false } := by
  refine ⟨lock_move hi hpc rfl (.keep rfl Iff.rfl), fun u e hu => ?_, nofun⟩
  have hu' : (Function.update s.pcs t .popEmpty) u = .interruptNotify e := hu
  rw [Function.update_apply] at hu'
  split at hu'
  · cases hu'
  · obtain ⟨hle, -⟩ := hi.stored u e hu'
    refine ⟨Nat.le_succ_of_le hle, fun heq => ?_⟩
    exact absurd heq (Nat.ne_of_lt (Nat.lt_succ_of_le hle))

theorem WakeInv.store (hi : WakeInv s) (hpc : s.pcs t = .interruptStore) :
    WakeInv { s.goto t (.interruptNotify s.cleared) with ring := s.ring.interrupt } := by
  refine ⟨lock_move hi hpc rfl (.keep rfl Iff.rfl), fun u e hu => ?_, fun hs => ?_⟩
  · have hu' : (Function.update s.pcs t (.interruptNotify s.cleared)) u = .interruptNotify e := hu
    rw [Function.update_apply] at hu'
    split at hu'
    · cases hu'
      exact ⟨Nat.le_refl _, fun _ => rfl⟩
    · exact ⟨(hi.stored u e hu').1, fun _ => rfl⟩
  · obtain ⟨-, hnil, hnone⟩ := hi.served hs
    refine ⟨rfl, hnil, fun u hu => ?_⟩
    have hu' : Between s.ring.filled (Function.update s.pcs t (.interruptNotify s.cleared) u) := hu
    rw [Function.update_apply] at hu'
    split at hu'
    · cases hu'
    · exact hnone u hu'

/- The notification of a flag that is still set: everybody asleep is woken, and nobody
is about to sleep. -/
theorem WakeInv.notify (hi : WakeInv s) {stored : ℕ} (hpc : s.pcs t = .interruptNotify stored)
    (hok : stored = s.cleared → ∀ u ∈ s.holder, ¬Between s.ring.filled (s.pcs u)) :
    WakeInv { s.goto t .idle with
      dataWaiters := [], served := s.served || stored == s.cleared } := by
  have hnone : s.served = true ∨ stored = s.cleared → s.ring.raw.interrupted = true ∧
      ∀ u, ¬Between s.ring.filled (s.pcs u) := by
    rintro (hs | heq)
    · obtain ⟨hset, -, hno⟩ := hi.served hs
      exact ⟨hset, hno⟩
    · refine ⟨(hi.stored t stored hpc).2 heq, fun u hu => ?_⟩
      exact hok heq u ((hi.lock u).mp (hasLock_of_between hu)) hu
  refine ⟨lock_move hi hpc rfl (.keep rfl Iff.rfl), fun u e hu => ?_, fun hs => ?_⟩
  · have hu' : (Function.update s.pcs t .idle) u = .interruptNotify e := hu
    rw [Function.update_apply] at hu'
    split at hu'
    · cases hu'
    · exact hi.stored u e hu'
  · have hs' : (s.served || stored == s.cleared) = true := hs
    rw [Bool.or_eq_true, beq_iff_eq] at hs'
    obtain ⟨hset, hno⟩ := hnone hs'
    refine ⟨hset, rfl, fun u hu => ?_⟩
    have hu' : Between s.ring.filled (Function.update s.pcs t .idle u) := hu
    rw [Function.update_apply] at hu'
    split at hu'
    · cases hu'
    · exact hno u hu'

/-- The two calls with a condition variable of their own. -/
def Pushing : Pc α → Prop
  | .pushLock _ | .pushTest _ | .pushWait _ | .pushAsleep _ | .pushCopy _ | .pushUnlock
  | .pushNotify => True
  | _ => False

def Popping : Pc α → Prop
  | .popLock _ | .popSwap _ | .popTest _ | .popWait _ | .popAsleep _ | .popCopy _ | .popEmpty
  | .popUnlock _ | .popNotify _ => True
  | _ => False

theorem WakeInv.push (hi : WakeInv s) (hg : Pushing (s.pcs t))
    (hs : stepThread s t pick = some s') : WakeInv s' := by
  unfold stepThread at hs
  cases hpc : s.pcs t <;> rw [hpc] at hs hg <;> dsimp only at hs
  case pushLock data => exact hi.lock_step hpc hs trivial nofun id
  case pushTest data =>
    split at hs <;> cases hs
    · exact hi.pass hpc rfl (.keep rfl Iff.rfl) rfl rfl rfl (.inl rfl) id nofun id
    · exact hi.pass hpc rfl (.keep rfl Iff.rfl) rfl rfl rfl (.inl rfl) id nofun id
  case pushWait data =>
    cases hs
    exact hi.pass hpc rfl (.release trivial rfl id) rfl rfl rfl (.inl rfl) id nofun id
  case pushAsleep data =>
    split at hs <;> cases hs
    exact hi.pass hpc rfl (.keep rfl Iff.rfl) rfl rfl rfl (.inl rfl) id nofun id
  case pushCopy data =>
    split at hs
    · cases hs
    · rename_i ring hpush
      cases hs
      obtain ⟨-, -, -, hflag⟩ := Ring.push_spec hpush
      exact hi.pass hpc rfl (.keep rfl Iff.rfl) rfl rfl hflag (.inr trivial) id nofun id
  case pushUnlock =>
    cases hs
    exact hi.pass hpc rfl (.release trivial rfl id) rfl rfl rfl (.inl rfl) id nofun id
  case pushNotify =>
    split at hs
    · cases hs
    · rename_i ws hone
      cases hs
      exact hi.pass hpc rfl (.keep rfl Iff.rfl) rfl rfl rfl (.inl rfl) (notifyOne_nil hone) nofun id
  all_goals exact hg.elim

/- Once the interrupt has been served nobody is between the test and the wait. -/
theorem WakeInv.pop (hi : WakeInv s) (hg : Popping (s.pcs t))
    (hs : stepThread s t pick = some s') : WakeInv s' := by
  unfold stepThread at hs
  cases hpc : s.pcs t <;> rw [hpc] at hs hg <;> dsimp only at hs
  case popLock len => exact hi.lock_step hpc hs trivial nofun id
  case popSwap len =>
    split at hs
    · cases hs
      exact hi.swap hpc
    · rename_i hclear
      cases hs
      refine hi.move hpc rfl (.keep rfl Iff.rfl) rfl rfl rfl (.inl rfl) nofun fun hserved => ?_
      exact absurd (hi.served hserved).1 hclear
  case popTest len =>
    split at hs <;> cases hs
    · exact hi.pass hpc rfl (.keep rfl Iff.rfl) rfl rfl rfl (.inl rfl) id nofun id
    · rename_i hempty
      refine hi.move hpc rfl (.keep rfl Iff.rfl) rfl rfl rfl (.inl rfl) nofun fun hserved => ?_
      have hno := (hi.served hserved).2.2 t
      rw [hpc] at hno
      exact absurd (Nat.eq_zero_of_not_pos hempty) hno
  case popWait len =>
    cases hs
    refine hi.move hpc rfl (.release trivial rfl id) rfl rfl rfl (.inl rfl) nofun fun hserved => ?_
    have hno := (hi.served hserved).2.2 t
    rw [hpc] at hno
    exact absurd trivial hno
  case popAsleep len =>
    split at hs <;> cases hs
    exact hi.pass hpc rfl (.keep rfl Iff.rfl) rfl rfl rfl (.inl rfl) id nofun id
  case popCopy len =>
    cases hs
    obtain ⟨-, -, -, hflag⟩ := Ring.take_spec s.ring len
    exact hi.pass hpc rfl (.keep rfl Iff.rfl) rfl rfl hflag (.inr trivial) id nofun id
  case popEmpty =>
    cases hs
    exact hi.pass hpc rfl (.release trivial rfl id) rfl rfl rfl (.inl rfl) id nofun id
  case popUnlock d =>
    cases hs
    exact hi.pass hpc rfl (.release trivial rfl id) rfl rfl rfl (.inl rfl) id nofun id
  case popNotify d =>
    split at hs <;> cases hs
    exact hi.pass hpc rfl (.keep rfl Iff.rfl) rfl rfl rfl (.inl rfl) id nofun id
  all_goals exact hg.elim

theorem WakeInv.thread (hi : WakeInv s) (hok : NobodyBetween s (.step t pick))
    (hs : stepThread s t pick = some s') : WakeInv s' := by
  cases hpc : s.pcs t
  case pushLock | pushTest | pushWait | pushAsleep | pushCopy | pushUnlock | pushNotify =>
    exact hi.push (by rw [hpc]; trivial) hs
  case popLock | popSwap | popTest | popWait | popAsleep | popCopy | popEmpty | popUnlock |
      popNotify =>
    exact hi.pop (by rw [hpc]; trivial) hs
  all_goals
    unfold NobodyBetween at hok
    unfold stepThread at hs
    rw [hpc] at hs
    dsimp only at hok hs
  case idle => cases hs
  case clearLock => exact hi.lock_step hpc hs trivial nofun id
  case clearReset =>
    cases hs
    exact hi.pass hpc rfl (.keep rfl Iff.rfl) rfl rfl rfl (.inr trivial) id nofun id
  case clearSpace =>
    cases hs
    exact hi.pass hpc rfl (.keep rfl Iff.rfl) rfl rfl rfl (.inl rfl) id nofun id
  case clearData =>
    cases hs
    exact hi.pass hpc rfl (.keep rfl Iff.rfl) rfl rfl rfl (.inl rfl) (fun _ => rfl) nofun id
  case clearUnlock =>
    cases hs
    exact hi.pass hpc rfl (.release trivial rfl id) rfl rfl rfl (.inl rfl) id nofun id
  case interruptStore =>
    cases hs
    exact hi.store hpc
  case interruptNotify stored =>
    cases hs
    rw [hpc] at hok
    exact hi.notify hpc hok

theorem WakeInv.step {i : Input α} (hi : WakeInv s) (hok : NobodyBetween s i)
    (hs : RingSync.step s i = some s') : WakeInv s' := by
  cases i with
  | call t c =>
    simp only [RingSync.step] at hs
    split at hs <;> cases hs
    rename_i hpc
    exact hi.call hpc c
  | step t pick => exact hi.thread hok hs
  | spurious t =>
    cases hs
    refine ⟨hi.lock, hi.stored, fun hserved => ?_⟩
    obtain ⟨hset, hnil, hnone⟩ := hi.served hserved
    refine ⟨hset, ?_, hnone⟩
    show s.dataWaiters.erase t = []
    rw [hnil, List.erase_nil]

theorem wakeInv_init (ring : Ring α) : WakeInv (State.init ring) :=
  ⟨fun _ => iff_of_false id nofun, nofun, nofun⟩

/- A pop that is past its test goes to sleep, whatever the flag says by then. -/
theorem sleeps_of_between {u : ℕ} (hserved : s.served = true)
    (hset : s.ring.raw.interrupted = true) (hb : Between s.ring.filled (s.pcs u)) :
    ∃ is s' tr, machine.run s is = some (s', tr) ∧ Stuck s' := by
  have hsleep : ∀ r : State α, r.served = true → r.ring.raw.interrupted = true →
      ∀ len, r.pcs u = .popWait len →
        ∃ s' tr, machine.run r [.step u 0] = some (s', tr) ∧ Stuck s' := by
    intro r hserved hset len hpc
    refine ⟨{ r.unlock u (.popAsleep len) with dataWaiters := u :: r.dataWaiters }, [], ?_, hserved,
      hset, u, len, Function.update_self .., List.mem_cons_self⟩
    simp [machine, Machine.run, RingSync.step, stepThread, returned, hpc]
  unfold Between at hb
  split at hb
  · rename_i len hpc
    obtain ⟨s', tr, hrun, hstuck⟩ := hsleep (s.goto u (.popWait len)) hserved hset len
      (Function.update_self ..)
    refine ⟨[.step u 0, .step u 0], s', tr, ?_, hstuck⟩
    refine (machine.run_cons).mpr ⟨_, [], tr, ?_, hrun, rfl⟩
    simp [machine, RingSync.step, stepThread, returned, hpc, hb]
  · rename_i len hpc
    obtain ⟨s', tr, hrun, hstuck⟩ := hsleep s hserved hset len hpc
    exact ⟨_, s', tr, hrun, hstuck⟩
  · cases hb

theorem stuck_of_not_nobodyBetween (hi : WakeInv s) {i : Input α} (hno : ¬NobodyBetween s i) :
    ∃ is s' tr, machine.run s (i :: is) = some (s', tr) ∧ Stuck s' := by
  cases i with
  | call t c | spurious t => exact absurd trivial hno
  | step t pick =>
    unfold NobodyBetween at hno
    dsimp only at hno
    split at hno
    · rename_i stored hpc
      rw [Classical.not_imp, not_forall] at hno
      obtain ⟨heq, u, hu⟩ := hno
      rw [Classical.not_imp, Classical.not_not] at hu
      obtain ⟨hold, hb⟩ := hu
      have hut : u ≠ t := by
        intro he
        rw [he, hpc] at hb
        cases hb
      -- The notification reaches nobody.
      obtain ⟨is, s', tr, hrun, hstuck⟩ := sleeps_of_between (u := u)
        (s := { s.goto t .idle with
          dataWaiters := [], served := s.served || stored == s.cleared })
        (by simp [heq]) ((hi.stored t stored hpc).2 heq)
        (by simpa [State.goto, Function.update_of_ne hut] using hb)
      refine ⟨is, s', tr, ?_, hstuck⟩
      refine (machine.run_cons).mpr ⟨_, [], tr, ?_, hrun, rfl⟩
      simp [machine, RingSync.step, stepThread, returned, hpc]
    · exact absurd trivial hno

/-- Any number of threads, any ring, any interleaving: no wake-up is lost as long as
every interrupt notifies while nobody is between the test and the sleep, and the first
that does not can leave a pop asleep for good. -/
theorem run_not_stuck (ring : Ring α) (is : List (Input α))
    (hok : machine.Meets NobodyBetween (State.init ring) is) {s : State α} {tr : List (ℕ × List α)}
    (hrun : machine.run (State.init ring) is = some (s, tr)) :
    ¬Stuck s ∧ ∀ i, ¬NobodyBetween s i →
      ∃ js s' tr', machine.run s (i :: js) = some (s', tr') ∧ Stuck s' := by
  have hstep : ∀ (s : State α) (i : Input α) (s' : State α) (es : List (ℕ × List α)),
      NobodyBetween s i → WakeInv s → machine.step s i = some (s', es) → WakeInv s' := by
    intro s i s' es hc hi hs
    obtain ⟨r, hr, heq⟩ := Option.map_eq_some_iff.mp hs
    cases heq
    exact hi.step hc hr
  have hinv := machine.run_state_inv_of_meets hstep (wakeInv_init ring) hok hrun
  exact ⟨hinv.not_stuck, fun i hno => stuck_of_not_nobodyBetween hinv hno⟩

/-- The notification finds the pop asleep; it wakes up, takes the flag and returns. -/
def wakeRun : List (Input Byte) :=
  [.call 0 (.pop 4), .step 0 0, .step 0 0, .step 0 0, .step 0 0, .call 1 .interrupt, .step 1 0,
    .step 1 0, .step 0 0, .step 0 0, .step 0 0, .step 0 0]

theorem run_not_stuck_wake : ∃ s tr, machine.run (State.init (Ring.new 4)) wakeRun = some (s, tr) ∧
    tr = [(0, [])] ∧ (¬Stuck s ∧ ∀ i, ¬NobodyBetween s i →
      ∃ js s' tr', machine.run s (i :: js) = some (s', tr') ∧ Stuck s') :=
  ⟨_, _, rfl, rfl, run_not_stuck (Ring.new 4) wakeRun (by decide +kernel) rfl⟩

/- The notification falls between the test and the sleep. -/
theorem wake_up_lost :
    ¬ ∀ (ring : Ring Byte) (is : List (Input Byte)) (s : State Byte) (tr : List (ℕ × List Byte)),
      machine.run (State.init ring) is = some (s, tr) → ¬Stuck s := by
  intro hall
  refine hall (Ring.new 4) [.call 0 (.pop 4), .step 0 0, .step 0 0, .step 0 0, .call 1 .interrupt,
    .step 1 0, .step 1 0, .step 0 0] _ _ rfl ⟨rfl, rfl, 0, 4, rfl, ?_⟩
  exact List.mem_singleton_self 0

end Audiod.RingSync
