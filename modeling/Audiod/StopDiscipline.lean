import Audiod.Paced

/-!
# When the mixer stops the stream (`server/src/mixer.rs:110-274`)

Two paths stop it: a flush that leaves every ring empty, and the watchdog that both
branches without data run. The flag `stopped` and the timer `dry_since` are shared by
the two.
-/

namespace Audiod

namespace Mixer

theorem step_flags {m m' : Mix} {es : List Event} {i : Input} (hi : ∀ delay, i ≠ .mix delay)
    (hs : step m i = some (m', es)) :
    m'.stopped = m.stopped ∧ m'.drySince = m.drySince ∧ m.now ≤ m'.now := by
  cases i with
  | mix delay => exact absurd rfl (hi delay)
  | push id data =>
    obtain ⟨-, ring, cells, -, -, rfl, -⟩ := step_push hs
    exact ⟨rfl, rfl, le_rfl⟩
  | requestFlush id =>
    obtain ⟨-, rfl, -⟩ := step_requestFlush hs
    exact ⟨rfl, rfl, le_rfl⟩
  | finish id =>
    obtain ⟨-, rfl, -⟩ := step_finish hs
    exact ⟨rfl, rfl, le_rfl⟩
  | elapse ns =>
    cases hs
    exact ⟨rfl, rfl, Nat.le_add_right _ _⟩
  | register ringBytes | setMuted b | setVolume percent =>
    cases hs
    exact ⟨rfl, rfl, le_rfl⟩

/-- Past the loop that mixes, where a write is certain. -/
def Pc.Writing : Pc → Prop
  | .gainLoad .. | .muteLoad .. | .push .. | .report => True
  | _ => False

/-- The flag is down while a write is ahead and while the watchdog looks at the clock,
and the timer was set in the past. -/
structure FlagInv (m : Mix) : Prop where
  writing : m.pc.Writing → m.stopped = false
  checking : m.pc = .idleCheck → m.stopped = false
  timer : ∀ t, m.drySince = some t → t ≤ m.now

theorem flagInv_init (volume : F32) : FlagInv (Mix.init volume) :=
  ⟨fun h => h.elim, fun h => (by cases h), fun t h => by cases h⟩

theorem FlagInv.mix {m : Mix} (h : FlagInv m) (delay : ℤ) : FlagInv (m.mix delay).1 := by
  have hw := h.writing
  have ht := h.timer
  cases hpc : m.pc with
  | idle =>
    simp only [Mix.mix, hpc]
    split
    · exact ⟨fun hp => hp.elim, fun hp => (by cases hp), ht⟩
    · rename_i hrun
      refine ⟨fun hp => hp.elim, fun _ => by simpa using hrun, fun t heq => ?_⟩
      cases hd : m.drySince with
      | none => simp_all
      | some t' =>
        have hle := ht t' hd
        simp_all
  | _ =>
    simp only [Mix.mix, hpc]
    repeat' split
    all_goals
      refine ⟨?_, ?_, ?_⟩ <;> simp_all [Pc.Writing, Mix.halted, Mix.setStream]

theorem FlagInv.step {m m' : Mix} {es : List Event} {i : Input} (h : FlagInv m)
    (hs : step m i = some (m', es)) : FlagInv m' := by
  by_cases hi : ∀ delay, i ≠ .mix delay
  · obtain ⟨hst, hdry, hnow⟩ := step_flags hi hs
    obtain ⟨hpc, -⟩ := step_pc hi hs
    refine ⟨?_, ?_, fun t ht => ?_⟩
    · rw [hpc, hst]
      exact h.writing
    · rw [hpc, hst]
      exact h.checking
    · rw [hdry] at ht
      exact (h.timer t ht).trans hnow
  · push Not at hi
    obtain ⟨delay, rfl⟩ := hi
    have heq : m.mix delay = (m', es) := Option.some.inj hs
    have hm := h.mix delay
    rw [heq] at hm
    exact hm

/-- The flag is down and the write not yet made. -/
def Pc.Unwritten : Pc → Prop
  | .gainLoad .. | .muteLoad .. | .push .. => True
  | _ => False

theorem Pc.Unwritten.writing {pc : Pc} (h : pc.Unwritten) : pc.Writing := by
  cases pc <;> trivial

/- A stop raises the flag, from where it was down and no write was ahead. -/
theorem mix_stop {m : Mix} {delay : ℤ} (h : FlagInv m) (hs : (m.mix delay).2 = [.stopped]) :
    m.stopped = false ∧ ¬m.pc.Unwritten ∧ (m.mix delay).1.stopped = true := by
  have hc := h.checking
  revert hs
  cases hpc : m.pc
  all_goals
    simp only [Mix.mix, hpc]
    repeat' split
    all_goals simp_all [Pc.Unwritten, Mix.halted]

/- Otherwise the flag stays, or goes down where a write is ahead; and that write comes
next. -/
theorem mix_flag {m : Mix} {delay : ℤ} (hs : (m.mix delay).2 ≠ [.stopped]) :
    ((m.mix delay).1.stopped = m.stopped ∨ (m.mix delay).1.pc.Unwritten) ∧
      (m.pc.Unwritten → (m.mix delay).1.pc.Unwritten ∨
        ∃ gain muted out, (m.mix delay).2 = [.wrote gain muted out]) := by
  revert hs
  cases hpc : m.pc
  all_goals
    simp only [Mix.mix, hpc]
    repeat' split
    all_goals simp [Pc.Unwritten, Mix.halted, Mix.setStream]

/-! ### A period without data -/

/-- A stream with data is still to be looked at by the tick. -/
def SeesData (m : Mix) : Prop :=
  match m.pc with
  | .retain todo kept => ∃ x ∈ todo ++ kept, 0 < (m.streams x).ring.filled
  | .retainFilled y todo kept => ∃ x ∈ y :: (todo ++ kept), 0 < (m.streams x).ring.filled
  | .dryScan todo => ∃ x ∈ todo, 0 < (m.streams x).ring.filled
  | _ => False

/-- Where a tick that finds no data gets to. -/
def Pc.Dry (slots : List ℕ) : Pc → Prop
  | .pace | .mixFilled .. | .mixPop .. | .gainLoad .. | .muteLoad .. | .push .. | .report => False
  | .haltScan todo => ∀ x ∈ todo, x ∈ slots
  | _ => True

/-- Since the watchdog looked at the clock at `t₀` it has been armed, unless the stream
is stopped; a flush disarms it only in a tick that has seen data. -/
structure DryInv (t₀ : ℕ) (m : Mix) : Prop where
  dry : m.pc.Dry m.slots
  armed : m.stopped = true ∨ (∃ t ≤ t₀, m.drySince = some t) ∨ SeesData m

/-- The watchdog finds the rings it looks at empty. -/
def FindsEmpty (m : Mix) : Prop :=
  ∀ x todo, m.pc = .dryScan (x :: todo) → (m.streams x).ring.filled = 0

theorem DryInv.haltScan {t₀ : ℕ} {m : Mix} (h : DryInv t₀ m) {todo : List ℕ}
    (hpc : m.pc = .haltScan todo) (delay : ℤ) : DryInv t₀ (m.mix delay).1 := by
  obtain ⟨hdry, harmed⟩ := h
  rw [hpc] at hdry
  simp only [SeesData, hpc, or_false] at harmed
  cases todo with
  | nil =>
    simp only [Mix.mix, hpc]
    split
    · rename_i hst
      exact ⟨trivial, .inl hst⟩
    · exact ⟨trivial, .inl rfl⟩
  | cons x todo =>
    simp only [Mix.mix, hpc]
    split
    · exact ⟨fun y hy => hdry y (List.mem_cons_of_mem _ hy), by simpa [SeesData] using harmed⟩
    · rename_i hfull
      refine ⟨trivial, .inr (.inr ⟨x, ?_, Nat.pos_of_ne_zero hfull⟩)⟩
      simpa using hdry x (List.mem_cons_self ..)

theorem DryInv.retain {t₀ : ℕ} {m : Mix} (h : DryInv t₀ m) {todo kept : List ℕ}
    (hpc : m.pc = .retain todo kept) (delay : ℤ) : DryInv t₀ (m.mix delay).1 := by
  have harmed := h.armed
  simp only [SeesData, hpc] at harmed
  cases todo with
  | nil =>
    simp only [Mix.mix, hpc]
    refine ⟨?_, ?_⟩
    · dsimp only
      split <;> trivial
    · refine harmed.imp_right fun hor => hor.imp_right fun hsees => ?_
      obtain ⟨x, hx, hfull⟩ := hsees
      have hne : kept.isEmpty = false := by
        cases kept with
        | nil => cases hx
        | cons => rfl
      simp only [SeesData, hne, Bool.false_eq_true, if_false]
      exact ⟨x, hx, hfull⟩
  | cons y todo =>
    simp only [Mix.mix, hpc]
    split
    · exact ⟨trivial, harmed⟩
    · refine ⟨trivial, harmed.imp_right fun hor => hor.imp_right fun hsees => ?_⟩
      obtain ⟨x, hx, hfull⟩ := hsees
      refine ⟨x, ?_, hfull⟩
      simp only [List.cons_append, List.mem_cons, List.mem_append, List.not_mem_nil,
        or_false] at hx ⊢
      tauto

theorem DryInv.retainFilled {t₀ : ℕ} {m : Mix} (h : DryInv t₀ m) {y : ℕ} {todo kept : List ℕ}
    (hpc : m.pc = .retainFilled y todo kept) (delay : ℤ) : DryInv t₀ (m.mix delay).1 := by
  have harmed := h.armed
  simp only [SeesData, hpc] at harmed
  simp only [Mix.mix, hpc]
  split
  · rename_i hgone
    refine ⟨trivial, harmed.imp_right fun hor => hor.imp_right fun hsees => ?_⟩
    obtain ⟨x, hx, hfull⟩ := hsees
    have hxy : x ≠ y := by
      rintro rfl
      omega
    exact ⟨x, (List.mem_cons.mp hx).resolve_left hxy, hfull⟩
  · refine ⟨trivial, harmed.imp_right fun hor => hor.imp_right fun hsees => ?_⟩
    obtain ⟨x, hx, hfull⟩ := hsees
    refine ⟨x, ?_, hfull⟩
    simp only [List.mem_cons, List.mem_append, List.not_mem_nil, or_false] at hx ⊢
    tauto

/- A ring the tick finds empty is none of those that keep the timer unarmed. -/
theorem DryInv.dryScan {t₀ : ℕ} {m : Mix} (h : DryInv t₀ m) (hempty : FindsEmpty m)
    {todo : List ℕ} (hpc : m.pc = .dryScan todo) (delay : ℤ) : DryInv t₀ (m.mix delay).1 := by
  have harmed := h.armed
  simp only [SeesData, hpc] at harmed
  cases todo with
  | nil =>
    simp only [Mix.mix, hpc]
    refine ⟨trivial, harmed.imp_right fun hor => .inl (hor.resolve_right ?_)⟩
    rintro ⟨x, hx, -⟩
    cases hx
  | cons y todo =>
    have hnone := hempty y todo hpc
    simp only [Mix.mix, hpc, hnone, Nat.lt_irrefl, if_false]
    refine ⟨trivial, harmed.imp_right fun hor => hor.imp_right fun hsees => ?_⟩
    obtain ⟨x, hx, hfull⟩ := hsees
    have hxy : x ≠ y := by
      rintro rfl
      omega
    exact ⟨x, (List.mem_cons.mp hx).resolve_left hxy, hfull⟩

theorem DryInv.watchdog {t₀ : ℕ} {m : Mix} (h : DryInv t₀ m)
    (hpc : m.pc = .idle ∨ m.pc = .idleCheck) (delay : ℤ) : DryInv t₀ (m.mix delay).1 := by
  have harmed := h.armed
  rcases hpc with hpc | hpc
  · simp only [SeesData, hpc, or_false] at harmed
    simp only [Mix.mix, hpc]
    split
    · rename_i hst
      exact ⟨trivial, .inl hst⟩
    · rename_i hrun
      obtain ⟨t, ht, hsince⟩ := harmed.resolve_left hrun
      refine ⟨trivial, .inr (.inl ⟨t, ht, ?_⟩)⟩
      simp only [hsince, Option.getD_some]
  · simp only [SeesData, hpc, or_false] at harmed
    simp only [Mix.mix, hpc]
    split
    · exact ⟨trivial, harmed.imp_right .inl⟩
    · exact ⟨trivial, .inl rfl⟩

theorem DryInv.mix {t₀ : ℕ} {m : Mix} (h : DryInv t₀ m) (hempty : FindsEmpty m) (delay : ℤ) :
    DryInv t₀ (m.mix delay).1 := by
  cases hpc : m.pc with
  | haltScan todo => exact h.haltScan hpc delay
  | retain todo kept => exact h.retain hpc delay
  | retainFilled y todo kept => exact h.retainFilled hpc delay
  | dryScan todo => exact h.dryScan hempty hpc delay
  | idle => exact h.watchdog (.inl hpc) delay
  | idleCheck => exact h.watchdog (.inr hpc) delay
  | top | recv | flushScan todo flushed | flushClear y todo =>
    have harmed := h.armed
    simp only [SeesData, hpc, or_false] at harmed
    simp only [Mix.mix, hpc]
    repeat' split
    all_goals
      refine ⟨?_, harmed.imp_right .inl⟩
      first | trivial | exact fun _ hx => hx
  | pace | mixFilled todo w acc had | mixPop y want todo w acc | gainLoad w acc
  | muteLoad w acc gain | push w acc gain muted | report =>
    have hdry := h.dry
    rw [hpc] at hdry
    exact hdry.elim

theorem DryInv.env {t₀ : ℕ} {m m' : Mix} {tr es : List Event} {i : Input} (h : DryInv t₀ m)
    (hl : Ledger m tr) (hi : ∀ delay, i ≠ .mix delay) (hs : step m i = some (m', es)) :
    DryInv t₀ m' := by
  obtain ⟨hst, hdry, -⟩ := step_flags hi hs
  obtain ⟨hpc, hslots, -⟩ := step_pc hi hs
  have hgrow := (step_env hl hi hs).filled
  have hmore {l : List ℕ} : (∃ x ∈ l, 0 < (m.streams x).ring.filled) →
      ∃ x ∈ l, 0 < (m'.streams x).ring.filled := by
    rintro ⟨x, hx, hfull⟩
    exact ⟨x, hx, Nat.lt_of_lt_of_le hfull (hgrow x)⟩
  refine ⟨by rw [hpc, hslots]; exact h.dry, ?_⟩
  rw [hst, hdry]
  refine h.armed.imp_right fun hor => hor.imp_right fun hsees => ?_
  unfold SeesData at hsees ⊢
  rw [hpc]
  cases hp : m.pc with
  | retain todo kept | retainFilled y todo kept | dryScan todo =>
    simp only [hp] at hsees ⊢
    exact hmore hsees
  | _ =>
    simp only [hp] at hsees

theorem dryInv_idle {m : Mix} (h : FlagInv m) (hpc : m.pc = .idle) (delay : ℤ) :
    DryInv m.now (m.mix delay).1 := by
  simp only [Mix.mix, hpc]
  split
  · rename_i hst
    exact ⟨trivial, .inl hst⟩
  · refine ⟨trivial, .inr (.inl ⟨m.drySince.getD m.now, ?_, rfl⟩)⟩
    cases hd : m.drySince with
    | none => exact le_rfl
    | some t => exact h.timer t hd

/- A stream that is stopped stays so as long as the ticks find no data. -/
theorem mix_stays {m : Mix} (hdry : m.pc.Dry m.slots) (hst : m.stopped = true) (delay : ℤ) :
    (m.mix delay).1.stopped = true := by
  cases hpc : m.pc with
  | mixFilled todo w acc had =>
    rw [hpc] at hdry
    exact hdry.elim
  | _ =>
    simp only [Mix.mix, hpc]
    repeat' split
    all_goals simp_all [Mix.halted, Mix.setStream]

/-- From the watchdog of a tick that is in time to stop the stream on, through ticks that find
no data. -/
structure Ending (t₀ : ℕ) (m : Mix) : Prop where
  dry : DryInv t₀ m
  armed : m.stopped = true ∨
    (m.pc = .idle ∨ m.pc = .idleCheck) ∧ (∃ t ≤ t₀, m.drySince = some t) ∧ t₀ + idleNs ≤ m.now

theorem Ending.mix {t₀ : ℕ} {m : Mix} (h : Ending t₀ m) (hempty : FindsEmpty m) (delay : ℤ) :
    Ending t₀ (m.mix delay).1 := by
  refine ⟨h.dry.mix hempty delay, ?_⟩
  by_cases hst : m.stopped = true
  · exact .inl (mix_stays h.dry.dry hst delay)
  · obtain ⟨hat, ⟨t, ht, hsince⟩, hlong⟩ := h.armed.resolve_left hst
    rcases hat with hidle | hcheck
    · simp only [Mix.mix, hidle]
      rw [if_neg hst]
      refine .inr ⟨.inr rfl, ⟨t, ht, ?_⟩, hlong⟩
      simp only [hsince, Option.getD_some]
    · -- the timer has run out
      have hout : ¬m.now - m.drySince.getD m.now < idleNs := by
        rw [hsince, Option.getD_some]
        omega
      simp only [Mix.mix, hcheck, hout, if_false]
      exact .inl rfl

theorem Ending.env {t₀ : ℕ} {m m' : Mix} {tr es : List Event} {i : Input} (h : Ending t₀ m)
    (hl : Ledger m tr) (hi : ∀ delay, i ≠ .mix delay) (hs : step m i = some (m', es)) :
    Ending t₀ m' := by
  obtain ⟨hst, hdry, hnow⟩ := step_flags hi hs
  obtain ⟨hpc, -⟩ := step_pc hi hs
  refine ⟨h.dry.env hl hi hs, ?_⟩
  rw [hst, hdry, hpc]
  exact h.armed.imp_right fun ⟨hat, ht, hlong⟩ => ⟨hat, ht, hlong.trans hnow⟩

/-- On the way from the start of a tick to its watchdog. -/
def Pc.Before : Pc → Prop
  | .recv | .flushScan .. | .flushClear .. | .haltScan _ | .retain .. | .retainFilled ..
  | .dryScan _ | .idle => True
  | _ => False

/- A tick that finds no data goes on to its watchdog, with streams registered or none. -/
theorem mix_before {m : Mix} (h : m.pc.Before) (hempty : FindsEmpty m) (hidle : m.pc ≠ .idle)
    (delay : ℤ) : (m.mix delay).1.pc.Before := by
  cases hpc : m.pc with
  | dryScan todo =>
    cases todo with
    | nil =>
      simp only [Mix.mix, hpc]
      trivial
    | cons x todo =>
      have hnone := hempty x todo hpc
      simp only [Mix.mix, hpc, hnone, Nat.lt_irrefl, if_false]
      trivial
  | retain todo kept =>
    cases todo with
    | nil =>
      simp only [Mix.mix, hpc]
      split <;> trivial
    | cons x todo =>
      simp only [Mix.mix, hpc]
      split <;> trivial
  | idle => exact absurd hpc hidle
  | recv | flushScan todo flushed | flushClear s todo | haltScan todo | retainFilled s todo kept =>
    simp only [Mix.mix, hpc]
    repeat' split
    all_goals trivial
  | _ =>
    rw [hpc] at h
    exact h.elim

theorem mix_now (m : Mix) (delay : ℤ) : (m.mix delay).1.now = m.now := by
  cases hpc : m.pc
  all_goals
    simp only [Mix.mix, hpc]
    repeat' split
    all_goals simp [Mix.halted, Mix.setStream]

end Mixer

namespace Paced

/-- Stopped, with nothing left in the ring. -/
structure Quiet (h : Hda) : Prop where
  halted : h.running = false
  writePos : h.writePos = 0
  zeroed : ∀ i, h.ring i = 0

/-- Whether the last of the stops and writes so far was a stop. -/
def Event.after (b : Bool) : Event → Bool
  | .mixer .stopped _ _ => true
  | .mixer (.wrote ..) _ _ => false
  | _ => b

def sinceStop (tr : List Event) : Bool := tr.foldl Event.after false

theorem sinceStop_append (tr es : List Event) :
    sinceStop (tr ++ es) = es.foldl Event.after (sinceStop tr) := List.foldl_append

theorem after_stamp {s : State} {b : Bool} {es : List Mixer.Event} (hlen : es.length ≤ 1)
    (hstop : es ≠ [.stopped]) (h : (stamp s es).foldl Event.after b = true) :
    b = true ∧ ∀ gain muted out, es ≠ [.wrote gain muted out] := by
  match es, hlen with
  | [], _ => exact ⟨h, fun _ _ _ heq => by cases heq⟩
  | [e], _ => cases e <;> simp_all [stamp, Event.after]

/-- What the flag says in every state, and the stops so far. -/
structure Discipline (s : State) (tr : List Event) : Prop where
  flags : Mixer.FlagInv s.mix
  busy : s.push ≠ none → s.mix.pc = .report
  quiet : s.mix.stopped = true → Quiet s.hda
  since : sinceStop tr = true → s.mix.stopped = true ∨ s.mix.pc.Unwritten
  alternate : Always (fun pre e => ∀ p f, e = .mixer .stopped p f → sinceStop pre = false) tr

theorem discipline_init (volume : F32) : Discipline (init volume) [] :=
  ⟨Mixer.flagInv_init volume, fun h => absurd rfl h, Bool.noConfusion, Bool.noConfusion,
    always_nil⟩

theorem quiet_dropAll (h : Hda) : Quiet h.dropAll := ⟨rfl, rfl, fun _ => rfl⟩

/- A step that stops the stream: the flag was down and no write was ahead. -/
theorem Discipline.mixer_stop {s : State} {tr : List Event} (h : Discipline s tr)
    (hpush : s.push = none) (hstop : (s.mix.mix s.hda.delayFrames).2 = [.stopped]) :
    let p := s.mix.mix s.hda.delayFrames
    Discipline (backend s p.1 p.2) (tr ++ stamp s p.2) := by
  intro p
  obtain ⟨hrun, hahead, hset⟩ := Mixer.mix_stop h.flags hstop
  have hback : backend s p.1 p.2 = { s with mix := p.1, hda := s.hda.dropAll } := by
    rw [show p.2 = [.stopped] from hstop]
    rfl
  have hfirst : sinceStop tr = false := by
    by_contra hb
    rcases h.since (by simpa using hb) with hst | hun
    · rw [hrun] at hst
      cases hst
    · exact hahead hun
  rw [hback]
  refine ⟨h.flags.mix s.hda.delayFrames, fun hp => absurd hpush hp, fun _ => quiet_dropAll _,
    fun _ => .inl hset, ?_⟩
  apply h.alternate.append_le_one (by rw [show p.2 = [.stopped] from hstop]; exact le_rfl)
  intro e _ _ _ _
  exact hfirst

/- Any other step leaves the stream of the codec to the ticks after it. -/
theorem Discipline.mixer_on {s : State} {tr : List Event} (h : Discipline s tr)
    (hpush : s.push = none) (hstop : (s.mix.mix s.hda.delayFrames).2 ≠ [.stopped]) :
    let p := s.mix.mix s.hda.delayFrames
    Discipline (backend s p.1 p.2) (tr ++ stamp s p.2) := by
  intro p
  have hlen : p.2.length ≤ 1 := Mixer.mix_events_length s.mix s.hda.delayFrames
  have hflags : Mixer.FlagInv p.1 := h.flags.mix s.hda.delayFrames
  obtain ⟨hflag, hahead⟩ := Mixer.mix_flag hstop
  have hhda : (backend s p.1 p.2).hda = s.hda := by
    rcases backend_cases s p.1 p.2 with ⟨hes, -⟩ | ⟨_, _, _, -, heq⟩ | heq
    · exact absurd hes hstop
    · rw [heq]
    · rw [heq]
  refine ⟨?_, ?_, ?_, ?_, ?_⟩
  · rw [backend_mix]
    exact hflags
  · rcases backend_cases s p.1 p.2 with ⟨hes, -⟩ | ⟨_, _, out, hes, heq⟩ | heq
    · exact absurd hes hstop
    · rw [heq]
      exact fun _ => (Mixer.mix_wrote hes).2
    · rw [heq]
      exact fun hp => absurd hpush hp
  · rw [backend_mix, hhda]
    intro hst
    rcases hflag with hsame | hun
    · exact h.quiet (hsame ▸ hst)
    · rw [hflags.writing hun.writing] at hst
      cases hst
  · rw [backend_mix, sinceStop_append]
    intro hb
    obtain ⟨hbefore, hnowrite⟩ := after_stamp hlen hstop hb
    rcases h.since hbefore with hst | hun
    · exact hflag.imp_left fun hsame => hsame.trans hst
    · rcases hahead hun with hun' | ⟨gain, muted, out, hwrote⟩
      · exact .inr hun'
      · exact absurd hwrote (hnowrite gain muted out)
  · apply h.alternate.append_le_one (by rw [stamp, List.length_map]; exact hlen)
    intro e he pu f heq
    exfalso
    obtain ⟨e', he', rfl⟩ := List.mem_map.mp he
    simp only [Event.mixer.injEq] at heq
    rw [heq.1] at he'
    apply hstop
    match hp : p.2, hlen, he' with
    | [e''], _, hm => rw [List.mem_singleton.mp hm]

theorem Discipline.mixer {s : State} {tr : List Event} (h : Discipline s tr)
    (hpush : s.push = none) :
    let p := s.mix.mix s.hda.delayFrames
    Discipline (backend s p.1 p.2) (tr ++ stamp s p.2) := by
  by_cases hstop : (s.mix.mix s.hda.delayFrames).2 = [.stopped]
  · exact h.mixer_stop hpush hstop
  · exact h.mixer_on hpush hstop

theorem Discipline.same {s s' : State} {tr es : List Event} (h : Discipline s tr)
    (hflags : Mixer.FlagInv s'.mix) (hpc : s'.mix.pc = s.mix.pc)
    (hst : s'.mix.stopped = s.mix.stopped) (hpush : s'.push ≠ none → s.push ≠ none)
    (hhda : s.mix.stopped = true → s'.hda = s.hda) (hlen : es.length ≤ 1)
    (hes : ∀ e ∈ es, ∀ b, Event.after b e = b) : Discipline s' (tr ++ es) := by
  have hsince : sinceStop (tr ++ es) = sinceStop tr := by
    rw [sinceStop_append]
    match es, hlen, hes with
    | [], _, _ => rfl
    | [e], _, hes => exact hes e (List.mem_singleton_self e) _
  refine ⟨hflags, fun hp => hpc.trans (h.busy (hpush hp)), ?_, ?_, ?_⟩
  · rw [hst]
    intro hup
    rw [hhda hup]
    exact h.quiet hup
  · rw [hsince, hst, hpc]
    exact h.since
  · apply h.alternate.append_le_one hlen
    intro e he p f heq
    have hkeep := hes e he false
    rw [heq] at hkeep
    cases hkeep

theorem Discipline.step {s s' : State} {tr es : List Event} {i : Input} (h : Discipline s tr)
    (hs : step s i = some (s', es)) : Discipline s' (tr ++ es) := by
  cases i with
  | mixer =>
    cases hpush : s.push with
    | none =>
      obtain ⟨rfl, rfl⟩ := step_mixer hpush hs
      exact h.mixer hpush
    | some pc =>
      -- a push is under way, so the flag is down
      have hsome : s.push ≠ none := by
        rw [hpush]
        exact Option.some_ne_none pc
      have hdown : s.mix.stopped = false := h.flags.writing (by rw [h.busy hsome]; trivial)
      have hhda {s' : State} : s.mix.stopped = true → s'.hda = s.hda := fun hup => by
        rw [hdown] at hup
        cases hup
      simp only [Paced.step, hpush] at hs
      cases pc <;> cases hs
      · exact h.same h.flags rfl rfl (fun _ => hsome) hhda (Nat.zero_le 1) (List.forall_mem_nil _)
      · exact h.same h.flags rfl rfl (fun _ => hsome) hhda (Nat.zero_le 1) (List.forall_mem_nil _)
      · exact h.same h.flags rfl rfl (fun _ => hsome) hhda le_rfl
          (List.forall_mem_singleton.mpr fun _ => rfl)
  | other i =>
    obtain ⟨hi, m, es', hm, rfl, rfl⟩ := step_other hs
    obtain ⟨hst, -, -⟩ := Mixer.step_flags hi hm
    have hpc := (Mixer.step_pc hi hm).1
    refine h.same (h.flags.step hm) hpc hst id (fun _ => rfl) ?_ ?_
    · rcases Mixer.step_events hi hm with rfl | ⟨_, _, rfl⟩ | ⟨_, rfl⟩ | ⟨_, rfl⟩ <;>
        simp [stamp]
    · rcases Mixer.step_events hi hm with rfl | ⟨_, _, rfl⟩ | ⟨_, rfl⟩ | ⟨_, rfl⟩ <;>
        simp [stamp, Event.after]
  | dma k =>
    obtain ⟨hrun, rfl, rfl⟩ := step_dma hs
    refine h.same h.flags rfl rfl id (fun hup => ?_) le_rfl
      (List.forall_mem_singleton.mpr fun _ => rfl)
    rw [(h.quiet hup).halted] at hrun
    cases hrun

/- Between a stop and a state that may stop again there was a write. -/
theorem wrote_of_after {tr : List Event} (h : tr.foldl Event.after true = false) :
    ∃ gain muted out p f, .mixer (.wrote gain muted out) p f ∈ tr := by
  induction tr with
  | nil => cases h
  | cons e tr ih =>
    rw [List.foldl_cons] at h
    cases hb : Event.after true e with
    | true =>
      rw [hb] at h
      obtain ⟨gain, muted, out, p, f, hmem⟩ := ih h
      exact ⟨gain, muted, out, p, f, List.mem_cons_of_mem _ hmem⟩
    | false =>
      match e, hb with
      | .mixer (.wrote gain muted out) p f, _ =>
        exact ⟨gain, muted, out, p, f, List.mem_cons_self ..⟩

/-! ### A period without data -/

/-- Whenever the watchdog looks at the ring of a stream, it is empty. -/
def LooksEmpty (s : State) : Input → Prop
  | .mixer => Mixer.FindsEmpty s.mix
  | _ => True

theorem dry_step {t₀ : ℕ} {s s' : State} {es : List Event} {i : Input} (hb : Base s)
    (hd : Mixer.DryInv t₀ s.mix) (hempty : LooksEmpty s i) (hs : step s i = some (s', es)) :
    Mixer.DryInv t₀ s'.mix := by
  cases i with
  | mixer =>
    have hpush : s.push = none := hb.push_none fun hpc => by
      have hdry := hd.dry
      rw [hpc] at hdry
      exact hdry
    obtain ⟨rfl, -⟩ := step_mixer hpush hs
    rw [backend_mix]
    exact hd.mix hempty _
  | other i =>
    obtain ⟨tr, hl⟩ := hb.ledger
    obtain ⟨hi, m, es', hm, rfl, -⟩ := step_other hs
    exact hd.env hl hi hm
  | dma k =>
    obtain ⟨-, rfl, -⟩ := step_dma hs
    exact hd

theorem ending_step {t₀ : ℕ} {s s' : State} {es : List Event} {i : Input} (hb : Base s)
    (h : Mixer.Ending t₀ s.mix) (hempty : LooksEmpty s i) (hs : step s i = some (s', es)) :
    Mixer.Ending t₀ s'.mix := by
  cases i with
  | mixer =>
    have hpush : s.push = none := hb.push_none fun hpc => by
      have hdry := h.dry.dry
      rw [hpc] at hdry
      exact hdry
    obtain ⟨rfl, -⟩ := step_mixer hpush hs
    rw [backend_mix]
    exact h.mix hempty _
  | other i =>
    obtain ⟨tr, hl⟩ := hb.ledger
    obtain ⟨hi, m, es', hm, rfl, -⟩ := step_other hs
    exact h.env hl hi hm
  | dma k =>
    obtain ⟨-, rfl, -⟩ := step_dma hs
    exact h

theorem step_now {s s' : State} {es : List Event} {i : Input} (hs : step s i = some (s', es)) :
    s.mix.now ≤ s'.mix.now := by
  cases i with
  | mixer =>
    cases hpush : s.push with
    | none =>
      obtain ⟨rfl, -⟩ := step_mixer hpush hs
      rw [backend_mix, Mixer.mix_now]
    | some pc =>
      simp only [Paced.step, hpush] at hs
      cases pc <;> cases hs <;> exact le_rfl
  | other i =>
    obtain ⟨hi, m, es', hm, rfl, -⟩ := step_other hs
    exact (Mixer.step_flags hi hm).2.2
  | dma k =>
    obtain ⟨-, rfl, -⟩ := step_dma hs
    exact le_rfl

theorem run_now {s s' : State} {is : List Input} {tr : List Event}
    (hrun : machine.run s is = some (s', tr)) : s.mix.now ≤ s'.mix.now :=
  machine.run_state_inv (J := fun x => s.mix.now ≤ x.mix.now)
    (fun _ _ _ _ h hs => h.trans (step_now hs)) le_rfl hrun

/-- The thread of the mixer is at the watchdog and steps. -/
def AtWatchdog (s : State) (i : Input) : Prop := i = .mixer ∧ s.mix.pc = .idle

theorem before_step {s s' : State} {es : List Event} {i : Input} (hb : Base s)
    (h : s.mix.pc.Before) (hempty : LooksEmpty s i) (hnot : ¬AtWatchdog s i)
    (hs : step s i = some (s', es)) : s'.mix.pc.Before := by
  cases i with
  | mixer =>
    have hpush : s.push = none := hb.push_none fun hpc => by
      rw [hpc] at h
      exact h
    obtain ⟨rfl, -⟩ := step_mixer hpush hs
    rw [backend_mix]
    exact Mixer.mix_before h hempty (fun hidle => hnot ⟨rfl, hidle⟩) _
  | other i =>
    obtain ⟨hi, m, es', hm, rfl, -⟩ := step_other hs
    have hpc := (Mixer.step_pc hi hm).1
    rw [show ({ s with mix := m } : State).mix.pc = m.pc from rfl, hpc]
    exact h
  | dma k =>
    obtain ⟨-, rfl, -⟩ := step_dma hs
    exact h

/-- Among the steps of `is` from `s` on, the mixer reads the clock for its watchdog at `t`. -/
def ReadsClock (s : State) (is : List Input) (t : ℕ) : Prop :=
  ∃ a b mid tr, is = a ++ .mixer :: b ∧ machine.run s a = some (mid, tr) ∧
    mid.mix.pc = .idle ∧ mid.mix.now = t

/-- A tick that finds no data comes to the watchdog before it ends. -/
theorem tick_reads {s s' : State} {is : List Input} {tr : List Event} (hb : Base s)
    (htop : s.mix.pc = .top) (hrun : machine.run s (.mixer :: is) = some (s', tr))
    (hempty : machine.Meets LooksEmpty s (.mixer :: is)) (htop' : s'.mix.pc = .top) :
    ∃ a b mid e es, .mixer :: is = a ++ .mixer :: b ∧ machine.run s a = some (mid, e) ∧
      machine.run mid (.mixer :: b) = some (s', es) ∧
      machine.Meets LooksEmpty mid (.mixer :: b) ∧ mid.mix.pc = .idle := by
  obtain ⟨first, e, es, hmixer, hrest, -⟩ := machine.run_cons.mp hrun
  have hstep : step s .mixer = some (first, e) := hmixer
  have hpush : s.push = none := hb.push_none (by rw [htop]; exact Mixer.Pc.noConfusion)
  have hbefore : first.mix.pc.Before := by
    obtain ⟨rfl, -⟩ := step_mixer hpush hstep
    rw [backend_mix]
    simp only [Mixer.Mix.mix, htop]
    trivial
  have hbefores : ∀ x i x' es, LooksEmpty x i → Base x ∧ x.mix.pc.Before → ¬AtWatchdog x i →
      machine.step x i = some (x', es) → Base x' ∧ x'.mix.pc.Before := fun _ _ _ _ hok hJ hnot hs =>
    ⟨hJ.1.step hs, before_step hJ.1 hJ.2 hok hnot hs⟩
  have hover : ¬(Base s' ∧ s'.mix.pc.Before) := fun hJ => by
    have hend := hJ.2
    rw [htop'] at hend
    exact hend
  obtain ⟨a, i, b, mid, e₁, e₂, rfl, ha, hmid, hm, -, rfl, hidle⟩ := machine.run_passes hbefores
    ⟨hb.step hstep, hbefore⟩ (hempty.2 first e hmixer) hrest hover
  have hhead : machine.run s (.mixer :: a) = some (mid, e ++ e₁) :=
    machine.run_cons.mpr ⟨first, e, e₁, hmixer, ha, rfl⟩
  exact ⟨.mixer :: a, b, mid, e ++ e₁, e₂, rfl, hhead, hmid, hm, hidle⟩

/- From the clock's read in one tick to its read in another, through ticks that find no data. -/
theorem period_stops {s s₁ s₂ : State} {is₁ is₂ : List Input} {tr₁ tr₂ : List Event} (hb : Base s)
    (hflags : Mixer.FlagInv s.mix) (hidle : s.mix.pc = .idle)
    (hrun₁ : machine.run s (.mixer :: is₁) = some (s₁, tr₁))
    (hempty₁ : machine.Meets LooksEmpty s (.mixer :: is₁)) (hidle₁ : s₁.mix.pc = .idle)
    (hlong : s.mix.now + Mixer.idleNs ≤ s₁.mix.now) (hrun₂ : machine.run s₁ is₂ = some (s₂, tr₂))
    (hempty₂ : machine.Meets LooksEmpty s₁ is₂) (htop : s₂.mix.pc = .top) :
    s₂.mix.stopped = true := by
  obtain ⟨mid, e, es, hmixer, hrest, -⟩ := machine.run_cons.mp hrun₁
  have hfirst : step s .mixer = some (mid, e) := hmixer
  have hpush : s.push = none := hb.push_none (by rw [hidle]; exact Mixer.Pc.noConfusion)
  have hmid : Mixer.DryInv s.mix.now mid.mix := by
    obtain ⟨rfl, -⟩ := step_mixer hpush hfirst
    rw [backend_mix]
    exact Mixer.dryInv_idle hflags hidle _
  -- the ticks of the period
  obtain ⟨hbase₁, hdry₁⟩ := machine.run_state_inv_of_meets
    (J := fun s' => Base s' ∧ Mixer.DryInv s.mix.now s'.mix)
    (fun _ _ _ _ hok hJ hs => ⟨hJ.1.step hs, dry_step hJ.1 hJ.2 hok hs⟩)
    ⟨hb.step hfirst, hmid⟩ (hempty₁.2 mid e hfirst) hrest
  have harmed := hdry₁.armed
  simp only [Mixer.SeesData, hidle₁, or_false] at harmed
  have hend : Mixer.Ending s.mix.now s₁.mix :=
    ⟨hdry₁, harmed.imp_right fun ht => ⟨.inl hidle₁, ht, hlong⟩⟩
  -- the rest of the last tick
  obtain ⟨-, hlast⟩ := machine.run_state_inv_of_meets
    (J := fun s' => Base s' ∧ Mixer.Ending s.mix.now s'.mix)
    (fun _ _ _ _ hok hJ hs => ⟨hJ.1.step hs, ending_step hJ.1 hJ.2 hok hs⟩)
    ⟨hbase₁, hend⟩ hempty₂ hrun₂
  rcases hlast.armed with hst | ⟨hat, -⟩
  · exact hst
  · rw [htop] at hat
    rcases hat with hat | hat <;> cases hat

theorem discipline_run {volume : F32} {is : List Input} {s : State} {tr : List Event}
    (hrun : machine.run (init volume) is = some (s, tr)) : Discipline s tr := by
  have hall := machine.run_inv (fun _ _ _ _ _ h hs => h.step hs) (discipline_init volume) hrun
  simpa using hall

/-- In every run: (i) while the flag is up the stream is halted with its write position
and its ring cleared; (ii) between two stops there is a write; (iii) a tick that finds no data
reads the clock for the watchdog, and where two such ticks, with none but such ticks between
them, read it `IDLE_MS` or more apart, the second ends with the stream stopped. -/
theorem run_stop_discipline (volume : F32) {is : List Input} {s : State} {tr : List Event}
    (hrun : machine.run (init volume) is = some (s, tr)) :
    (s.mix.stopped = true → Quiet s.hda) ∧
    (∀ a b c p f p' f', tr = a ++ .mixer .stopped p f :: (b ++ .mixer .stopped p' f' :: c) →
      ∃ gain muted out q g, .mixer (.wrote gain muted out) q g ∈ b) ∧
    (s.mix.pc = .top → ∀ is₀ s₀ tr₀ is₁ s₁ tr₁ is₂ s₂ tr₂,
      machine.run s (.mixer :: is₀) = some (s₀, tr₀) → s₀.mix.pc = .top →
      machine.run s₀ is₁ = some (s₁, tr₁) → s₁.mix.pc = .top →
      machine.run s₁ (.mixer :: is₂) = some (s₂, tr₂) → s₂.mix.pc = .top →
      machine.Meets LooksEmpty s (.mixer :: is₀ ++ (is₁ ++ .mixer :: is₂)) →
      ∃ t₀ t₁, ReadsClock s (.mixer :: is₀) t₀ ∧ ReadsClock s₁ (.mixer :: is₂) t₁ ∧
        t₀ ≤ s₀.mix.now ∧ s₁.mix.now ≤ t₁ ∧
        (t₀ + Mixer.idleNs ≤ t₁ → s₂.mix.stopped = true)) := by
  have hdis := discipline_run hrun
  have hbase := base_run hrun
  refine ⟨hdis.quiet, ?_, ?_⟩
  · rintro a b c p f p' f' rfl
    have hbefore := hdis.alternate (a ++ .mixer .stopped p f :: b) (.mixer .stopped p' f') c
      (by simp) p' f' rfl
    rw [sinceStop_append, List.foldl_cons] at hbefore
    exact wrote_of_after hbefore
  · intro htop is₀ s₀ tr₀ is₁ s₁ tr₁ is₂ s₂ tr₂ hrun₀ htop₀ hrun₁ htop₁ hrun₂ htop₂ hempty
    obtain ⟨hempty₀, hempty⟩ := hempty.of_append hrun₀
    obtain ⟨hempty₁, hempty₂⟩ := hempty.of_append hrun₁
    have hall₁ := machine.run_append hrun (machine.run_append hrun₀ hrun₁)
    -- the first tick and the last come to the watchdog
    obtain ⟨a, b, x, e, es, heq, ha, hb, hemptyx, hidle⟩ :=
      tick_reads hbase htop hrun₀ hempty₀ htop₀
    obtain ⟨a', b', y, e', es', heq', ha', hb', hemptyy, hidle'⟩ :=
      tick_reads (base_run hall₁) htop₁ hrun₂ hempty₂ htop₂
    refine ⟨x.mix.now, y.mix.now, ⟨a, b, x, e, heq, ha, hidle, rfl⟩,
      ⟨a', b', y, e', heq', ha', hidle', rfl⟩, run_now hb, run_now ha', fun hlong => ?_⟩
    have hx := machine.run_append hrun ha
    -- between the two reads
    have hbetween := machine.run_append hb (machine.run_append hrun₁ ha')
    have hemptyb : machine.Meets LooksEmpty x (.mixer :: b ++ (is₁ ++ a')) := by
      rw [heq'] at hempty₂
      exact machine.meets_append hemptyx hb
        (machine.meets_append hempty₁ hrun₁ (hempty₂.of_append ha').1)
    exact period_stops (base_run hx) (discipline_run hx).flags hidle hbetween hemptyb hidle' hlong
      hb' hemptyy htop₂

instance (m : Mixer.Mix) : Decidable (Mixer.FindsEmpty m) :=
  match h : m.pc with
  | .dryScan (x :: _) => decidable_of_iff ((m.streams x).ring.filled = 0)
      ⟨fun hempty y todo hpc => by
        rw [h] at hpc
        cases hpc
        exact hempty, fun hempty => hempty x _ h⟩
  | .dryScan [] => isTrue fun y todo hpc => by
      rw [h] at hpc
      cases hpc
  | .top | .recv | .flushScan .. | .flushClear .. | .haltScan _ | .retain .. | .retainFilled ..
  | .idle | .idleCheck | .pace | .mixFilled .. | .mixPop .. | .gainLoad .. | .muteLoad ..
  | .push .. | .report => isTrue fun y todo hpc => by
      rw [h] at hpc
      cases hpc

instance (s : State) (i : Input) : Decidable (LooksEmpty s i) :=
  match i with
  | .mixer => inferInstanceAs (Decidable (Mixer.FindsEmpty s.mix))
  | .other _ | .dma _ => isTrue trivial

/- A stream is registered and its ring stays empty: the second of two ticks that are `IDLE_MS`
apart stops the stream. -/
theorem run_stop_discipline_dry : ∃ s tr s₂ tr₂,
    machine.run (init (.fin 100)) [.other (.register 64)] = some (s, tr) ∧
    machine.run s (.mixer :: List.replicate 10 .mixer ++
      ([.other (.elapse Mixer.idleNs)] ++ .mixer :: List.replicate 9 .mixer)) = some (s₂, tr₂) ∧
    s₂.mix.slots = [0] ∧ s₂.mix.stopped = true := by
  let s : State := { init (.fin 100) with mix := (Mixer.Mix.init (.fin 100)).register 64 }
  have hs : machine.run (init (.fin 100)) [.other (.register 64)] = some (s, []) := rfl
  have hempty : machine.Meets LooksEmpty s (.mixer :: List.replicate 10 .mixer ++
      ([.other (.elapse Mixer.idleNs)] ++ .mixer :: List.replicate 9 .mixer)) := by decide +kernel
  have hticks : ((machine.run s (.mixer :: List.replicate 10 .mixer)).bind fun p =>
      (machine.run p.1 [.other (.elapse Mixer.idleNs)]).bind fun q =>
        (machine.run q.1 (.mixer :: List.replicate 9 .mixer)).map fun r =>
          ((p.1.mix.pc.isTop && q.1.mix.pc.isTop && r.1.mix.pc.isTop, r.1.mix.slots),
            (p.1.mix.now, q.1.mix.now))) = some ((true, [0]), (0, Mixer.idleNs)) := by
    decide +kernel
  obtain ⟨⟨s₀, tr₀⟩, h₀, hticks⟩ := Option.bind_eq_some_iff.mp hticks
  obtain ⟨⟨s₁, tr₁⟩, h₁, hticks⟩ := Option.bind_eq_some_iff.mp hticks
  obtain ⟨⟨s₂, tr₂⟩, h₂, hticks⟩ := Option.map_eq_some_iff.mp hticks
  simp only [Prod.mk.injEq] at hticks
  obtain ⟨⟨htop, hslots⟩, hnow₀, hnow₁⟩ := hticks
  obtain ⟨htop₀₁, htop₂⟩ := Bool.and_eq_true_iff.mp htop
  obtain ⟨htop₀, htop₁⟩ := Bool.and_eq_true_iff.mp htop₀₁
  obtain ⟨t₀, t₁, -, -, ht₀, ht₁, hstop⟩ :=
    (run_stop_discipline (.fin 100) hs).2.2 rfl _ s₀ tr₀ _ s₁
    tr₁ _ s₂ tr₂ h₀ (Mixer.Pc.eq_top htop₀) h₁ (Mixer.Pc.eq_top htop₁) h₂ (Mixer.Pc.eq_top htop₂)
    hempty
  exact ⟨s, [], s₂, _, hs, machine.run_append h₀ (machine.run_append h₁ h₂), hslots,
    hstop (by omega)⟩

end Paced

end Audiod
