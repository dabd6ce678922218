import Audiod.Backlog
import Audiod.Playhead
import Audiod.ShimFlush
import Mathlib.Data.Nat.ModEq

/-!
# How far the application gets ahead

One configured handle that only writes, against the queue of an ideal DAC: it grows by
the frames written and shrinks with time, at the rate of the stream, down to zero.
-/

namespace Audiod.Shim

/-- A step of the handle or its drain thread, or time. -/
inductive DacInput
  | shim (x : Input)
  | elapse (dt : ℚ)

/-- The frames whose write a step completes. -/
def framesWritten (h : Handle) : Input → ℕ
  | .app _ =>
    match h.app with
    | .writeAdd n => n / h.frameBytes
    | _ => 0
  | _ => 0

def dacStep (s : (Process × Handle) × ℚ) :
    DacInput → Option (((Process × Handle) × ℚ) × List Event)
  | .shim x => (machine.step s.1 x).map fun (t, es) => ((t, s.2 + framesWritten s.1.2 x), es)
  | .elapse dt =>
    if 0 ≤ dt then
      some ((({ s.1.1 with clock := s.1.1.clock + dt }, s.1.2),
        s.2 - min s.2 (s.1.2.rate * dt)), [])
    else none

def dac : Machine ((Process × Handle) × ℚ) DacInput Event := ⟨dacStep⟩

/-- The playhead of the handle against that queue. -/
def backlog (p : Process) (h : Handle) (q : ℚ) : Backlog where
  pushed := (h.totalPushed / h.frameBytes : ℕ)
  played :=
    match h.playStart with
    | some t0 => h.rate * (p.clock - t0)
    | none => 0
  queue := q

/-- Writes only, and no reconnect. -/
def Streams : DacInput → Prop
  | .shim (.call (.writei _)) | .shim (.app _) | .elapse _ => True
  | .shim (.call _) => False
  | .shim (.drain a) => a ≠ .error

/-- A write is of whole frames, and no more than `snd_pcm_avail_update` has room for. -/
def Polite (s : (Process × Handle) × ℚ) : DacInput → Prop
  | .shim (.call (.writei data)) =>
    s.1.2.frameBytes ∣ data.length ∧
      ((data.length / s.1.2.frameBytes : ℕ) : ℤ) ≤ pcmAvailUpdate s.1.1 s.1.2
  | _ => True

/-- A write ends with the playhead no more than the baseline ahead of the queue, or
with no more than the baseline in the queue. -/
def KeepsUp (s : (Process × Handle) × ℚ) : DacInput → Prop
  | .shim (.app _) =>
    match s.1.2.app with
    | .writeAdd n =>
      (backlog s.1.1 s.1.2 s.2).drift ≤ shimServerFrames ∨
        s.2 + (n / s.1.2.frameBytes : ℕ) ≤ shimServerFrames
    | _ => True
  | _ => True

/-- Delay and room make up the advertised buffer, the delay covers the queue, and the
queue is no longer than the buffer. -/
def BacklogBounded (s : (Process × Handle) × ℚ) : Prop :=
  (pcmDelayAvail s.1.1 s.1.2).1 + pcmAvailUpdate s.1.1 s.1.2 = shimBufferFrames ∧
    s.2 ≤ (pcmDelayAvail s.1.1 s.1.2).1 ∧ s.2 ≤ shimBufferFrames

instance (s : (Process × Handle) × ℚ) (i : DacInput) : Decidable (Polite s i) := by
  unfold Polite
  split <;> infer_instance

instance (s : (Process × Handle) × ℚ) (i : DacInput) : Decidable (KeepsUp s i) := by
  unfold KeepsUp
  split
  · split <;> infer_instance
  · infer_instance

theorem pcmDelayAvail_eq (p : Process) {h : Handle} (hfb : h.frameBytes ≠ 0) (q : ℚ) :
    pcmDelayAvail p h = ((backlog p h q).delay shimServerFrames shimBufferFrames,
      shimBufferFrames - (backlog p h q).delay shimServerFrames shimBufferFrames) := by
  have hne : (h.frameBytes : ℤ) ≠ 0 := by exact_mod_cast hfb
  unfold pcmDelayAvail backlog Backlog.delay
  simp only [if_neg hne, Int.natCast_ediv]
  cases h.playStart with
  | none => simp
  | some t0 => rfl

/-- Bytes of the write under way. -/
def inHand : AppPc → ℕ
  | .writeAnchor data => data.length
  | pc => pendingBytes pc

structure DacInv (rate fb : ℕ) (p : Process) (h : Handle) (q : ℚ) : Prop where
  rate : h.rate = rate
  frame : h.frameBytes = fb
  app : h.app = .idle ∨ Writing h.app
  drain : Connected h.drain
  stop : h.drainStop = false
  unanchored : h.playStart = none → h.totalPushed = 0 ∧ pendingBytes h.app = 0 ∧ q = 0
  pushed : fb ∣ h.totalPushed
  whole : fb ∣ inHand h.app
  bounded : (backlog p h q).Bounded shimServerFrames shimBufferFrames
  room : (backlog p h q).Room shimServerFrames shimBufferFrames (inHand h.app / fb)

variable {rate fb : ℕ} {p p' : Process} {h h' : Handle} {q : ℚ} {es : List Event}

theorem base_le_size : shimServerFrames ≤ shimBufferFrames := by decide

theorem dacInv_call (hi : DacInv rate fb p h q) (hfb : fb ≠ 0) {c : Call}
    (hin : Streams (.shim (.call c))) (hok : Polite ((p, h), q) (.shim (.call c)))
    (hs : h.call p c = ((p', h'), es)) : DacInv rate fb p' h' q := by
  cases c with
  | writei data =>
    simp only [Handle.call] at hs
    split at hs <;> cases hs
    · obtain ⟨hdvd, hroom⟩ := hok
      rw [pcmAvailUpdate, pcmDelayAvail_eq p (hi.frame ▸ hfb) q] at hroom
      dsimp only at hdvd hroom
      rw [hi.frame] at hdvd hroom
      exact { hi with
        app := .inr trivial
        unanchored := fun hn => ⟨(hi.unanchored hn).1, rfl, (hi.unanchored hn).2.2⟩
        whole := hdvd
        room := hi.bounded.room_of_le base_le_size hroom }
    · exact hi
  | setFormat _ | setChannels _ | setRate _ | hwParams | setParams _ _ _ | prepare | drain | drop
  | start | pause _ | close => cases hin

/- Anchoring moves nothing: no time has passed since. -/
theorem backlog_anchor : backlog p { h with playStart := h.playStart.or (some p.clock) } q =
    backlog p h q := by
  unfold backlog
  cases h.playStart with
  | none => simp [Handle.frameBytes, Handle.formatCode]
  | some t0 => rfl

theorem backlog_write {n : ℕ} (hn : h.frameBytes ∣ n) :
    backlog p { h with totalPushed := h.totalPushed + n, app := .idle }
      (q + (n / h.frameBytes : ℕ)) = (backlog p h q).write (n / h.frameBytes) := by
  have hdiv : (h.totalPushed + n) / h.frameBytes =
      h.totalPushed / h.frameBytes + n / h.frameBytes :=
    Nat.add_div_of_dvd_left hn
  unfold backlog Backlog.write
  congr 1
  show (((h.totalPushed + n) / h.frameBytes : ℕ) : ℤ) =
    (h.totalPushed / h.frameBytes : ℕ) + (n / h.frameBytes : ℕ)
  rw [hdiv, Nat.cast_add]

/- The write is counted: the only step of the caller that grows the queue. -/
theorem dacInv_add (hi : DacInv rate fb p h q) {n : ℕ} (hpc : h.app = .writeAdd n) {a : Answer}
    (hok : KeepsUp ((p, h), q) (.shim (.app a))) (hs : h.appStep p a = some ((p', h'), es)) :
    DacInv rate fb p' h' (q + framesWritten h (.app a)) := by
  have hun := hi.unanchored
  have hwhole := hi.whole
  have hroom := hi.room
  rw [hpc] at hun hwhole hroom
  have hframes : framesWritten h (.app a) = n / h.frameBytes := by simp only [framesWritten, hpc]
  have hn : h.frameBytes ∣ n := hi.frame ▸ hwhole
  have hkeeps : (backlog p h q).drift ≤ shimServerFrames ∨
      q + (n / h.frameBytes : ℕ) ≤ shimServerFrames := by
    simpa only [KeepsUp, hpc] using hok
  have hbounded : (backlog p { h with totalPushed := h.totalPushed + n, app := .idle }
      (q + (n / h.frameBytes : ℕ))).Bounded shimServerFrames shimBufferFrames := by
    rw [backlog_write hn]
    exact hi.bounded.write (hi.frame ▸ hroom) hkeeps
  simp only [Handle.appStep, hpc] at hs
  cases hs
  rw [hframes]
  refine { hi with
    app := .inl rfl
    unanchored := fun hnone => ?_
    pushed := Nat.dvd_add hi.pushed hwhole
    whole := Nat.dvd_zero fb
    bounded := hbounded
    room := ?_ }
  · obtain ⟨hpushed, hn0, hq⟩ := hun hnone
    have hzero : n = 0 := hn0
    subst hzero
    exact ⟨hpushed, rfl, by rw [hq, Nat.zero_div]; simp⟩
  · rw [show inHand AppPc.idle / fb = 0 from Nat.zero_div fb]
    exact hbounded.room

theorem dacInv_app (hi : DacInv rate fb p h q) {a : Answer}
    (hok : KeepsUp ((p, h), q) (.shim (.app a))) (hs : h.appStep p a = some ((p', h'), es)) :
    DacInv rate fb p' h' (q + framesWritten h (.app a)) := by
  by_cases hadd : ∃ n, h.app = .writeAdd n
  · obtain ⟨n, hpc⟩ := hadd
    exact dacInv_add hi hpc hok hs
  have happ := hi.app
  have hun := hi.unanchored
  have hwhole := hi.whole
  have hroom := hi.room
  unfold Handle.appStep at hs
  cases hpc : h.app <;> rw [hpc] at happ hun hwhole hroom hs <;> dsimp only at hs
  case idle => cases hs
  case writeAdd n => exact absurd ⟨n, hpc⟩ hadd
  all_goals
    have hframes : framesWritten h (.app a) = 0 := by simp only [framesWritten, hpc]
    rw [hframes, Nat.cast_zero, add_zero]
  case writeAnchor data =>
    cases hs
    refine { hi with
      app := .inr trivial
      unanchored := fun hn => absurd (Option.or_eq_none_iff.mp hn).2 nofun
      whole := hwhole
      bounded := ?_
      room := ?_ }
    · have heq := backlog_anchor (p := p) (h := h) (q := q)
      exact heq ▸ hi.bounded
    · have heq := backlog_anchor (p := p) (h := h) (q := q)
      exact heq ▸ hroom
  case writeSilent data =>
    cases hs
    split
    · exact { hi with app := .inr trivial, unanchored := hun, whole := hwhole, room := hroom }
    · split
      · exact { hi with app := .inr trivial, unanchored := hun, whole := hwhole, room := hroom }
      · exact { hi with app := .inr trivial, unanchored := hun, whole := hwhole, room := hroom }
  case writeMute cmd data =>
    cases hs
    exact { hi with app := .inr trivial, unanchored := hun, whole := hwhole, room := hroom }
  case writePush data =>
    split at hs <;> cases hs
    exact { hi with app := .inr trivial, unanchored := hun, whole := hwhole, room := hroom }
  all_goals exact (happ.resolve_left nofun).elim

theorem connected_trySend {f : Frame} {skip : DrainPc} (hs : h.trySend p f skip = ((p', h'), es))
    (hskip : Connected skip) : Connected h'.drain := by
  unfold Handle.trySend at hs
  split at hs <;> cases hs
  · exact hskip
  · trivial

/- Without a failed send there is no reconnect. -/
theorem connected_drain {a : Answer} (ha : a ≠ .error) (hc : Connected h.drain)
    (hstop : h.drainStop = false) (hs : h.drainStep p a = some ((p', h'), es)) :
    Connected h'.drain := by
  unfold Handle.drainStep at hs
  cases hpc : h.drain <;> rw [hpc] at hc hs <;> dsimp only at hs
  case top =>
    cases hs
    rw [if_neg (by rw [hstop]; nofun)]
    trivial
  case mute =>
    split at hs
    · cases hs
      trivial
    · exact connected_trySend (Option.some.inj hs) trivial
  case flush =>
    split at hs
    · exact connected_trySend (Option.some.inj hs) trivial
    · cases hs
      trivial
  case pop =>
    split at hs
    · cases hs
    · cases hs
      trivial
    · exact connected_trySend (Option.some.inj hs) trivial
  case send fd rest f =>
    split at hs
    · split at hs
      · cases hs
      · split at hs <;> cases hs
        · exact connected_next f
        · trivial
    · exact absurd rfl ha
    · cases hs
  case written n =>
    cases hs
    trivial
  all_goals cases hc

theorem dacInv_drain (hi : DacInv rate fb p h q) {a : Answer} (ha : a ≠ .error)
    (hs : h.drainStep p a = some ((p', h'), es)) : DacInv rate fb p' h' q := by
  obtain ⟨hside, hclock, -⟩ := Handle.drainStep_frame hs
  simp only [Handle.callerSide, Prod.mk.injEq] at hside
  obtain ⟨hrate, hch, hfmt, -, -, hstop, -, -, happ⟩ := hside
  have hfb : h'.frameBytes = h.frameBytes := by
    simp only [Handle.frameBytes, Handle.formatCode, hch, hfmt]
  have hdrain := hi.drain
  rcases drain_playhead hs with ⟨hplay, hpushed⟩ | ⟨⟨f, hre⟩, -⟩ | ⟨hre, -⟩
  · have hback : backlog p' h' q = backlog p h q := by
      simp only [backlog, hplay, hpushed, hrate, hfb, hclock]
    refine ⟨hrate.trans hi.rate, hfb.trans hi.frame, happ ▸ hi.app,
      connected_drain ha hdrain hi.stop hs, hstop.trans hi.stop, ?_, hpushed ▸ hi.pushed,
      happ ▸ hi.whole, hback ▸ hi.bounded, ?_⟩
    · rw [hplay, hpushed, happ]
      exact hi.unanchored
    · rw [hback, happ]
      exact hi.room
  · rw [hre] at hdrain
    cases hdrain
  · unfold Rejoining at hre
    split at hre
    · rename_i hpc
      rw [hpc] at hdrain
      cases hdrain
    · cases hre

theorem dacInv_elapse (hi : DacInv rate fb p h q) {dt : ℚ} (hdt : 0 ≤ dt) :
    DacInv rate fb { p with clock := p.clock + dt } h (q - min q (h.rate * dt)) := by
  have hx : 0 ≤ (h.rate : ℚ) * dt := mul_nonneg (Nat.cast_nonneg _) hdt
  cases hplay : h.playStart with
  | none =>
    -- Nothing has been written, and nothing is queued.
    obtain ⟨-, -, hq⟩ := hi.unanchored hplay
    have hsame : q - min q (h.rate * dt) = q := by
      rw [hq, min_eq_left hx, sub_zero]
    have hback : backlog { p with clock := p.clock + dt } h q = backlog p h q := by
      simp only [backlog, hplay]
    rw [hsame]
    exact { hi with bounded := hback ▸ hi.bounded, room := hback ▸ hi.room }
  | some t0 =>
    have hback : backlog { p with clock := p.clock + dt } h (q - min q (h.rate * dt)) =
        (backlog p h q).elapse (h.rate * dt) := by
      simp only [backlog, Backlog.elapse, hplay, Backlog.mk.injEq, true_and, and_true]
      ring
    refine { hi with
      unanchored := fun hn => ?_
      bounded := ?_
      room := ?_ }
    · rw [hplay] at hn
      cases hn
    · rw [hback]
      exact hi.bounded.elapse (by decide) hx
    · rw [hback]
      exact hi.room.elapse hx

theorem DacInv.step {s s' : (Process × Handle) × ℚ} (hi : DacInv rate fb s.1.1 s.1.2 s.2)
    (hfb : fb ≠ 0) {i : DacInput} (hin : Streams i) (hpol : Polite s i) (hok : KeepsUp s i)
    (hs : dacStep s i = some (s', es)) : DacInv rate fb s'.1.1 s'.1.2 s'.2 := by
  obtain ⟨⟨p, h⟩, q⟩ := s
  cases i with
  | shim x =>
    obtain ⟨⟨⟨p', h'⟩, fs⟩, hx, heq⟩ := Option.map_eq_some_iff.mp hs
    cases heq
    cases x with
    | call c =>
      simp only [machine, Shim.step] at hx
      split at hx
      · have hinv := dacInv_call hi hfb hin hpol (Option.some.inj hx)
        simpa only [framesWritten, Nat.cast_zero, add_zero] using hinv
      · cases hx
    | app a => exact dacInv_app hi hok hx
    | drain a =>
      have hinv := dacInv_drain hi hin hx
      simpa only [framesWritten, Nat.cast_zero, add_zero] using hinv
  | elapse dt =>
    simp only [dacStep] at hs
    split at hs
    · rename_i hdt
      cases hs
      exact dacInv_elapse hi hdt
    · cases hs

theorem DacInv.backlogBounded {s : (Process × Handle) × ℚ} (hi : DacInv rate fb s.1.1 s.1.2 s.2)
    (hfb : fb ≠ 0) : BacklogBounded s := by
  unfold BacklogBounded pcmAvailUpdate
  rw [pcmDelayAvail_eq s.1.1 (hi.frame ▸ hfb) s.2]
  refine ⟨?_, hi.bounded.queue_le_delay base_le_size, hi.bounded.queue_le_size base_le_size⟩
  dsimp only
  omega

theorem frameBytes_ne_zero (hch : h.channels ≠ 0) : h.frameBytes ≠ 0 := by
  have hbps : pcmFormatBytes h.formatCode ≠ 0 := by
    unfold pcmFormatBytes
    split <;> decide
  exact Nat.mul_ne_zero hbps hch

theorem dacInv_ready (ringBytes : ℕ) (fmt : ℤ) (channels rate fd : ℕ) :
    DacInv rate (ready ringBytes fmt channels rate fd).2.frameBytes
      (ready ringBytes fmt channels rate fd).1 (ready ringBytes fmt channels rate fd).2 0 := by
  have hback : backlog (ready ringBytes fmt channels rate fd).1
      (ready ringBytes fmt channels rate fd).2 0 = ⟨0, 0, 0⟩ := by
    simp [backlog, ready, Handle.opened]
  have hempty := Backlog.bounded_empty (by decide : 0 ≤ shimServerFrames) base_le_size
  refine ⟨rfl, rfl, .inl rfl, trivial, rfl, fun _ => ⟨rfl, rfl, rfl⟩, Nat.dvd_zero _,
    Nat.dvd_zero _, ?_, ?_⟩
  · rw [hback]
    exact hempty
  · rw [hback, show inHand (ready ringBytes fmt channels rate fd).2.app = 0 from rfl, Nat.zero_div]
    exact hempty.room

/-- An application that asks for room before it writes is never more than the
advertised buffer ahead of the DAC, and the delay it is told covers what is queued, in
every run in which each write ends before the playhead has gained more than the
baseline on the DAC, or with no more than the baseline queued. -/
theorem run_backlog_bounded (ringBytes : ℕ) (fmt : ℤ) (channels rate fd : ℕ) (hch : channels ≠ 0)
    (is : List DacInput) (hin : ∀ i ∈ is, Streams i)
    (hpol : dac.Meets Polite (ready ringBytes fmt channels rate fd, 0) is)
    (hok : dac.Meets KeepsUp (ready ringBytes fmt channels rate fd, 0) is)
    {s : (Process × Handle) × ℚ} {tr : List Event}
    (hrun : dac.run (ready ringBytes fmt channels rate fd, 0) is = some (s, tr)) :
    BacklogBounded s := by
  have hfb : (ready ringBytes fmt channels rate fd).2.frameBytes ≠ 0 := frameBytes_ne_zero hch
  have hstep : ∀ s i s' es, Streams i ∧ Polite s i ∧ KeepsUp s i →
      DacInv rate (ready ringBytes fmt channels rate fd).2.frameBytes s.1.1 s.1.2 s.2 →
      dac.step s i = some (s', es) →
      DacInv rate (ready ringBytes fmt channels rate fd).2.frameBytes s'.1.1 s'.1.2 s'.2 :=
    fun s i s' es hc hi hs => hi.step hfb hc.1 hc.2.1 hc.2.2 hs
  have hend := dac.run_state_inv_of_meets hstep (dacInv_ready ringBytes fmt channels rate fd)
    ((hpol.and hok).and_of_all hin) hrun
  exact hend.backlogBounded hfb

/-- One frame, a pause, and another frame. -/
def pauseWrites : List DacInput :=
  [.shim (.call (.writei [1, 0, 2, 0])), .shim (.app .go), .shim (.app .go), .shim (.app .go),
    .shim (.app .go), .elapse 1, .shim (.drain .go), .shim (.call (.writei [1, 0, 2, 0])),
    .shim (.app .go), .shim (.app .go), .shim (.app .go), .shim (.app .go)]

theorem run_backlog_bounded_pause :
    ∃ s tr, dac.run (ready 4096 2 2 48000 3, 0) pauseWrites = some (s, tr) ∧ BacklogBounded s :=
  ⟨_, _, rfl, run_backlog_bounded 4096 2 2 48000 3 (by decide) pauseWrites
    (by simp [pauseWrites, Streams]) (by decide +kernel) (by decide +kernel) rfl⟩

/-- A whole `snd_pcm_writei` that finds room in the ring and is not silent. -/
def wholeWrite (data : Bytes) : List DacInput :=
  [.shim (.call (.writei data)), .shim (.app .go), .shim (.app .go), .shim (.app .go),
    .shim (.app .go)]

theorem run_wholeWrite {data : Bytes} (hidle : h.app = .idle) (hconf : h.configured = true)
    (hch : h.channels ≠ 0) (hprev : p.lastSilent = false) (hloud : data.all (· = 0) = false)
    (hroom : h.ring.filled + data.length ≤ h.ring.capacity) :
    ∃ ring tr, ring.filled = h.ring.filled + data.length ∧ ring.capacity = h.ring.capacity ∧
      dac.run ((p, h), q) (wholeWrite data) = some (((p, { h with
        ring := ring
        playStart := h.playStart.or (some p.clock)
        totalPushed := h.totalPushed + data.length }),
        q + (data.length / h.frameBytes : ℕ)), tr) := by
  obtain ⟨ring, hpush⟩ : ∃ ring, h.ring.push (data.map (⟨·, h.drops⟩)) = some ring :=
    Ring.push_isSome (by rwa [List.length_map])
  obtain ⟨-, hcont, hcap, -⟩ := Ring.push_spec hpush
  refine ⟨ring, [.wrote (data.map (⟨·, h.drops⟩))], ?_, hcap, ?_⟩
  · rw [← Ring.contents_length, hcont, List.length_append, List.length_map, Ring.contents_length]
  · have hp : { p with lastSilent := false } = p := by rw [← hprev]
    let h₁ : Handle := { h with playStart := h.playStart.or (some p.clock) }
    have hcall : dac.step ((p, h), q) (.shim (.call (.writei data))) =
        some (((p, { h with app := .writeAnchor data }), q), []) := by
      simp [dac, dacStep, machine, Shim.step, hidle, Handle.call, hconf, hch, framesWritten]
    have hanchor : dac.step ((p, { h with app := .writeAnchor data }), q) (.shim (.app .go)) =
        some (((p, { h₁ with app := .writeSilent data }), q), []) := by
      simp [dac, dacStep, machine, Shim.step, Handle.appStep, framesWritten, h₁]
    have hsilent : dac.step ((p, { h₁ with app := .writeSilent data }), q) (.shim (.app .go)) =
        some (((p, { h₁ with app := .writePush data }), q), []) := by
      simp only [dac, dacStep, machine, Shim.step, Handle.appStep, framesWritten, hloud, hprev, hp,
        Bool.false_eq_true, false_and, and_false, if_false, Option.map_some, Nat.cast_zero,
        add_zero]
    have hstep : dac.step ((p, { h₁ with app := .writePush data }), q) (.shim (.app .go)) =
        some (((p, { h₁ with ring := ring, app := .writeAdd data.length }), q),
          [.wrote (data.map (⟨·, h.drops⟩))]) := by
      simp only [dac, dacStep, machine, Shim.step, Handle.appStep, framesWritten, h₁, hpush,
        Option.map_some, Nat.cast_zero, add_zero]
    have hadd : dac.step ((p, { h₁ with ring := ring, app := .writeAdd data.length }), q)
        (.shim (.app .go)) = some (((p, { h with
          ring := ring
          playStart := h.playStart.or (some p.clock)
          totalPushed := h.totalPushed + data.length }),
          q + (data.length / h.frameBytes : ℕ)), []) := by
      simp only [dac, dacStep, machine, Shim.step, Handle.appStep, framesWritten, h₁,
        Option.map_some, ← hidle]
      rfl
    exact (Machine.run_cons _).mpr ⟨_, _, _, hcall, (Machine.run_cons _).mpr ⟨_, _, _, hanchor,
      (Machine.run_cons _).mpr ⟨_, _, _, hsilent, (Machine.run_cons _).mpr ⟨_, _, _, hstep,
        (Machine.run_cons _).mpr ⟨_, _, _, hadd, Machine.run_nil _ _, rfl⟩, rfl⟩, rfl⟩, rfl⟩, rfl⟩

theorem meets_wholeWrite {s : (Process × Handle) × ℚ} {data : Bytes}
    (hpol : Polite s (.shim (.call (.writei data)))) : dac.Meets Polite s (wholeWrite data) :=
  ⟨hpol, fun _ _ _ => ⟨trivial, fun _ _ _ => ⟨trivial, fun _ _ _ => ⟨trivial, fun _ _ _ =>
    ⟨trivial, fun _ _ _ => trivial⟩⟩⟩⟩⟩

/-- 4096 frames of 16-bit mono. -/
def loudBlock : Bytes := List.replicate 8192 1

theorem loudBlock_length : loudBlock.length = 8192 := List.length_replicate

theorem loudBlock_loud : loudBlock.all (· = 0) = false := by
  rw [loudBlock, List.all_replicate, if_neg (by decide)]
  decide

/-- A handle that plays 16-bit mono at 48000 Hz. -/
def monoProcess (t : ℚ) : Process := { (ready 65536 2 1 48000 3).1 with clock := t }

def monoHandle (ring : Ring Cell) (play : Option ℚ) (pushed : ℕ) : Handle :=
  { (ready 65536 2 1 48000 3).2 with ring := ring, playStart := play, totalPushed := pushed }

theorem run_loudBlock (ring : Ring Cell) (hroom : ring.filled + 8192 ≤ ring.capacity) (t : ℚ)
    (play : Option ℚ) (pushed : ℕ) (q : ℚ)
    (havail : pcmAvailUpdate (monoProcess t) (monoHandle ring play pushed) =
      shimBufferFrames - shimServerFrames) :
    dac.Meets Polite ((monoProcess t, monoHandle ring play pushed), q) (wholeWrite loudBlock) ∧
    ∃ ring' tr, ring'.filled = ring.filled + 8192 ∧ ring'.capacity = ring.capacity ∧
      dac.run ((monoProcess t, monoHandle ring play pushed), q) (wholeWrite loudBlock) =
        some (((monoProcess t, monoHandle ring' (play.or (some t)) (pushed + 8192)), q + 4096),
          tr) := by
  have hfb : (monoHandle ring play pushed).frameBytes = 2 := rfl
  constructor
  · apply meets_wholeWrite
    simp only [Polite, hfb, havail, loudBlock_length]
    decide
  · have hrun := run_wholeWrite (p := monoProcess t) (h := monoHandle ring play pushed) (q := q)
      rfl rfl (show (1 : ℕ) ≠ 0 by decide) rfl loudBlock_loud (by rwa [loudBlock_length])
    rw [loudBlock_length, hfb] at hrun
    exact hrun

/- After a second everything is played. -/
theorem mono_avail {ring : Ring Cell} {pushed : ℕ} (hle : pushed ≤ 48000) :
    pcmAvailUpdate (monoProcess 1) (monoHandle ring (some 0) pushed) =
      shimBufferFrames - shimServerFrames := by
  apply avail_of_played
  intro _
  show ((pushed : ℕ) : ℤ) / (2 : ℕ) ≤ ⌊((48000 : ℕ) : ℚ) * (1 - 0)⌋
  have hfloor : ⌊((48000 : ℕ) : ℚ) * (1 - 0)⌋ = 48000 := by norm_num
  rw [hfloor]
  omega

/- A block, a second of pause, and two more blocks: all of it within the room the
playhead leaves, with twice the reported delay in the queue. -/
theorem pause_hides_backlog :
    ¬ ∀ (ringBytes : ℕ) (fmt : ℤ) (channels rate fd : ℕ) (is : List DacInput)
      (s : (Process × Handle) × ℚ) (tr : List Event), channels ≠ 0 → (∀ i ∈ is, Streams i) →
      dac.Meets Polite (ready ringBytes fmt channels rate fd, 0) is →
      dac.run (ready ringBytes fmt channels rate fd, 0) is = some (s, tr) → BacklogBounded s := by
  intro hall
  have hcap : 65536 ≤ (Ring.new 65536 : Ring Cell).capacity := le_nextPowerOfTwo 65536
  have hnew : (Ring.new 65536 : Ring Cell).filled = 0 := rfl
  obtain ⟨hm₁, r₁, e₁, hf₁, hc₁, hrun₁⟩ := run_loudBlock (Ring.new 65536) (by omega) 0 none 0 0
    (avail_of_unanchored rfl rfl)
  -- The first block is played within the second.
  have hwait : dac.run ((monoProcess 0, monoHandle r₁ (some 0) 8192), 0 + 4096) [.elapse 1] =
      some (((monoProcess 1, monoHandle r₁ (some 0) 8192), 0), []) := by
    have hqueue : (0 : ℚ) + 4096 - min (0 + 4096) (((48000 : ℕ) : ℚ) * 1) = 0 := by norm_num
    have hclock : monoProcess (0 + 1) = monoProcess 1 := by rw [zero_add]
    show some (((monoProcess (0 + 1), monoHandle r₁ (some 0) 8192),
      (0 : ℚ) + 4096 - min (0 + 4096) (((48000 : ℕ) : ℚ) * 1)), []) = _
    rw [hqueue, hclock]
  have hpause : dac.Meets Polite ((monoProcess 0, monoHandle r₁ (some 0) 8192), 0 + 4096)
      [.elapse 1] := ⟨trivial, fun _ _ _ => trivial⟩
  obtain ⟨hm₂, r₂, e₂, hf₂, hc₂, hrun₂⟩ := run_loudBlock r₁ (by omega) 1 (some 0) 8192 0
    (mono_avail (by decide))
  obtain ⟨hm₃, r₃, e₃, -, -, hrun₃⟩ := run_loudBlock r₂ (by omega) 1 (some 0) (8192 + 8192)
    (0 + 4096) (mono_avail (by decide))
  have hrun := dac.run_append hrun₁ (dac.run_append hwait (dac.run_append hrun₂ hrun₃))
  have hmeets := dac.meets_append hm₁ hrun₁ (dac.meets_append hpause hwait
    (dac.meets_append hm₂ hrun₂ hm₃))
  obtain ⟨hsum, hdelay, -⟩ := hall 65536 2 1 48000 3 _ _ _ (by decide)
    (by simp [wholeWrite, Streams]) hmeets hrun
  have havail : pcmAvailUpdate (monoProcess 1) (monoHandle r₃ (some 0) (8192 + 8192 + 8192)) =
      shimBufferFrames - shimServerFrames := mono_avail (by decide)
  have hsame : (pcmDelayAvail (monoProcess 1) (monoHandle r₃ (some 0) (8192 + 8192 + 8192))).1 =
      shimServerFrames := by
    have hs : (pcmDelayAvail (monoProcess 1) (monoHandle r₃ (some 0) (8192 + 8192 + 8192))).1 +
      pcmAvailUpdate (monoProcess 1) (monoHandle r₃ (some 0) (8192 + 8192 + 8192)) =
        shimBufferFrames := hsum
    omega
  have hle : (0 : ℚ) + 4096 + 4096 ≤ (pcmDelayAvail (monoProcess 1)
      (monoHandle r₃ (some 0) (8192 + 8192 + 8192))).1 := hdelay
  rw [hsame] at hle
  norm_num [shimServerFrames] at hle

end Audiod.Shim
