import Audiod.Machine
import Audiod.Ring
import Audiod.Fold
import Mathlib.Algebra.BigOperators.Group.List.Basic

/-!
# The mixer and the readers that feed it (`server/src/mixer.rs`)

`mix_loop` is cut at its accesses to what other threads change: the channel, a
stream's flags and ring, the volume and the mute flag. One `mix` input is one
such access with the local work after it; the reader threads' steps and the
clock come in between as they like. Sleeps only delay the next step. What
`delay_frames` returns is an input here; the backend never fails.

A cell of a stream ring is a byte with a history variable: the number of FLUSH
frames the reader had read before it pushed the byte.
-/

namespace Audiod.Mixer

structure Cell where
  byte : Byte
  born : ℕ
  deriving DecidableEq, Inhabited

structure MixerStream where
  ring : Ring Cell
  flush : Bool
  done : Bool
  flushesRead : ℕ

def MixerStream.new (ringBytes : ℕ) : MixerStream := ⟨Ring.new ringBytes, false, false, 0⟩

/-- Frames mixed per backend write. -/
def chunkFrames : ℕ := 1024

/-- `IDLE_MS`, on a clock that counts nanoseconds. -/
def idleNs : ℕ := 250000000

/-- Where the mixer thread is. `todo` lists are the rest of an iteration over the
slots; `acc` is the mix accumulator. -/
inductive Pc
  | top
  | recv
  | flushScan (todo : List ℕ) (flushed : Bool)
  | flushClear (s : ℕ) (todo : List ℕ)
  | haltScan (todo : List ℕ)
  | retain (todo kept : List ℕ)
  | retainFilled (s : ℕ) (todo kept : List ℕ)
  | dryScan (todo : List ℕ)
  | idle
  | idleCheck
  | pace
  | mixFilled (todo : List ℕ) (writable : ℕ) (acc : ℕ → ℤ) (hadData : Bool)
  | mixPop (s want : ℕ) (todo : List ℕ) (writable : ℕ) (acc : ℕ → ℤ)
  | gainLoad (writable : ℕ) (acc : ℕ → ℤ)
  | muteLoad (writable : ℕ) (acc : ℕ → ℤ) (gain : F32)
  | push (writable : ℕ) (acc : ℕ → ℤ) (gain : F32) (muted : Bool)
  | report

def Pc.isTop : Pc → Bool
  | .top => true
  | _ => false

theorem Pc.eq_top {pc : Pc} (h : pc.isTop = true) : pc = .top := by
  cases pc <;> first | rfl | cases h

structure Mix where
  streams : ℕ → MixerStream
  registered : ℕ
  queue : List ℕ
  slots : List ℕ
  live : ℕ
  drySince : Option ℕ
  stopped : Bool
  lastDelay : ℤ
  now : ℕ
  muted : Bool
  volume : F32
  pc : Pc

def Mix.init (volume : F32) : Mix :=
  { streams := fun _ => MixerStream.new 0
    registered := 0
    queue := []
    slots := []
    live := 0
    drySince := none
    stopped := false
    lastDelay := -1
    now := 0
    muted := false
    volume := volume
    pc := .top }

inductive Event
  | pushed (id : ℕ) (cells : List Cell)
  | flushRead (id : ℕ)
  | finished (id : ℕ)
  | tick
  | consumed (id n : ℕ)
  | dropped (id : ℕ) (cells : List Cell)
  | removed (id : ℕ)
  | stopped
  | paced (delay : ℤ)
  | took (id : ℕ) (cells : List Cell)
  | wrote (gain : F32) (muted : Bool) (out : Bytes)
  deriving DecidableEq

def bytes (cells : List Cell) : Bytes := cells.map (·.byte)

/-! ### Sample arithmetic -/

def wrapI32 (v : ℤ) : ℤ := (v + 2 ^ 31) % 2 ^ 32 - 2 ^ 31

/-- `acc[i] += i16::from_le_bytes(..) as i32` for the samples of `d`. -/
def addSamples (acc : ℕ → ℤ) (d : Bytes) : ℕ → ℤ :=
  fun i => if i < d.length / 2 then wrapI32 (acc i + i16At d i) else acc i

def leI16 (v : ℤ) : Bytes := leBytes 2 (v % 65536).toNat

def renderSample (gain : F32) (muted : Bool) (v : ℤ) : ℤ :=
  let s := if muted then .fin 0 else F32.mul (F32.ofInt v) gain
  F32.toInt (-32768) 32767 (F32.clamp (-32768) 32767 s)

/-- The first `n` accumulated samples as S16LE. -/
def render (gain : F32) (muted : Bool) (acc : ℕ → ℤ) (n : ℕ) : Bytes :=
  (List.range n).flatMap fun i => leI16 (renderSample gain muted (acc i))

theorem leI16_length (v : ℤ) : (leI16 v).length = 2 := leBytes_length _ _

theorem flatMap_leI16_length (f : ℕ → ℤ) (l : List ℕ) :
    (l.flatMap fun i => leI16 (f i)).length = 2 * l.length := by
  simp [List.length_flatMap, leI16_length, Nat.mul_comm]

theorem render_length (gain : F32) (muted : Bool) (acc : ℕ → ℤ) (n : ℕ) :
    (render gain muted acc n).length = 2 * n := by
  rw [render, flatMap_leI16_length (fun i => renderSample gain muted (acc i)), List.length_range]

/-- `(SHIM_SERVER_FRAMES - delay).clamp(0, CHUNK_FRAMES)` -/
def writable (delay : ℤ) : ℕ := (max 0 (min (chunkFrames : ℤ) (shimServerFrames - delay))).toNat

/-- `state_gain`; the state holds the volume in percent. -/
def gainOf (volume : F32) : F32 := F32.div volume (.fin 100)

/-! ### Steps -/

namespace Mix

def setStream (m : Mix) (s : ℕ) (x : MixerStream) : Mix :=
  { m with streams := Function.update m.streams s x }

/-- `stop_immediate` and what both of its callers do with the flags. -/
def halted (m : Mix) : Mix := { m with stopped := true, lastDelay := 0 }

/-- One access of the mixer thread; `delay` is what `delay_frames` would return. -/
def mix (m : Mix) (delay : ℤ) : Mix × List Event :=
  match m.pc with
  | .top => ({ m with pc := .recv }, [.tick])
  | .recv =>
    match m.queue with
    | s :: rest => ({ m with queue := rest, slots := m.slots ++ [s] }, [])
    | [] => ({ m with pc := .flushScan m.slots false }, [])
  | .flushScan todo flushed =>
    match todo with
    | s :: todo =>
      let x := m.streams s
      if x.flush then
        ({ m.setStream s { x with flush := false } with pc := .flushClear s todo },
          [.consumed s x.flushesRead])
      else ({ m with pc := .flushScan todo flushed }, [])
    | [] =>
      if flushed then ({ m with pc := .haltScan m.slots }, [])
      else ({ m with pc := .retain m.slots [] }, [])
  | .flushClear s todo =>
    let x := m.streams s
    ({ m.setStream s { x with ring := x.ring.clear } with pc := .flushScan todo true },
      [.dropped s x.ring.contents])
  | .haltScan todo =>
    match todo with
    | s :: todo =>
      if (m.streams s).ring.filled = 0 then ({ m with pc := .haltScan todo }, [])
      else ({ m with drySince := none, pc := .retain m.slots [] }, [])
    | [] =>
      let m' := { m with drySince := none, pc := .retain m.slots [] }
      if m.stopped then (m', []) else (m'.halted, [.stopped])
  | .retain todo kept =>
    match todo with
    | s :: todo =>
      if (m.streams s).done then ({ m with pc := .retainFilled s todo kept }, [])
      else ({ m with pc := .retain todo (kept ++ [s]) }, [])
    | [] =>
      ({ m with
        slots := kept
        live := kept.length
        pc := if kept.isEmpty then .idle else .dryScan kept }, [])
  | .retainFilled s todo kept =>
    if (m.streams s).ring.filled = 0 then ({ m with pc := .retain todo kept }, [.removed s])
    else ({ m with pc := .retain todo (kept ++ [s]) }, [])
  | .dryScan todo =>
    match todo with
    | s :: todo =>
      if 0 < (m.streams s).ring.filled then ({ m with drySince := none, pc := .pace }, [])
      else ({ m with pc := .dryScan todo }, [])
    | [] => ({ m with pc := .idle }, [])
  | .idle =>
    if m.stopped then ({ m with pc := .top }, [])
    else ({ m with drySince := some (m.drySince.getD m.now), pc := .idleCheck }, [])
  | .idleCheck =>
    if m.now - m.drySince.getD m.now < idleNs then ({ m with pc := .top }, [])
    else ({ m with drySince := none, pc := .top }.halted, [.stopped])
  | .pace =>
    if writable delay = 0 then ({ m with pc := .top }, [.paced delay])
    else ({ m with pc := .mixFilled m.slots (writable delay) (fun _ => 0) false }, [.paced delay])
  | .mixFilled todo w acc had =>
    match todo with
    | s :: todo =>
      let want := min (w * 4) ((m.streams s).ring.filled / 4 * 4)
      if want = 0 then ({ m with pc := .mixFilled todo w acc had }, [])
      else ({ m with pc := .mixPop s want todo w acc }, [])
    | [] =>
      if had then ({ m with stopped := false, pc := .gainLoad w acc }, [])
      else ({ m with pc := .top }, [])
  | .mixPop s want todo w acc =>
    let x := m.streams s
    let p := x.ring.tryPop want
    ({ m.setStream s { x with ring := p.2 } with
      pc := .mixFilled todo w (addSamples acc (bytes p.1)) true }, [.took s p.1])
  | .gainLoad w acc => ({ m with pc := .muteLoad w acc (gainOf m.volume) }, [])
  | .muteLoad w acc gain => ({ m with pc := .push w acc gain m.muted }, [])
  | .push w acc gain muted =>
    ({ m with pc := .report }, [.wrote gain muted (render gain muted acc (w * 2))])
  | .report => ({ m with lastDelay := delay, pc := .top }, [])

/-- `Mixer::register` of a client thread. -/
def register (m : Mix) (ringBytes : ℕ) : Mix :=
  { m.setStream m.registered (MixerStream.new ringBytes) with
    registered := m.registered + 1
    queue := m.queue ++ [m.registered] }

end Mix

/-- `push`, `requestFlush` and `finish` are steps of the stream's reader, which
makes no step after `finish`. -/
inductive Input
  | mix (delay : ℤ)
  | register (ringBytes : ℕ)
  | push (id : ℕ) (data : Bytes)
  | requestFlush (id : ℕ)
  | finish (id : ℕ)
  | elapse (ns : ℕ)
  | setMuted (b : Bool)
  | setVolume (percent : F32)

/-- The reader of stream `id` is running. -/
def Reading (m : Mix) (id : ℕ) : Prop := id < m.registered ∧ (m.streams id).done = false

instance (m : Mix) (id : ℕ) : Decidable (Reading m id) := inferInstanceAs (Decidable (_ ∧ _))

def step (m : Mix) : Input → Option (Mix × List Event)
  | .mix delay => some (m.mix delay)
  | .register ringBytes => some (m.register ringBytes, [])
  | .push id data =>
    let x := m.streams id
    let cells := data.map fun b => ⟨b, x.flushesRead⟩
    if Reading m id then
      (x.ring.push cells).map fun ring =>
        (m.setStream id { x with ring := ring }, [.pushed id cells])
    else none
  | .requestFlush id =>
    let x := m.streams id
    if Reading m id then
      some (m.setStream id { x with flush := true, flushesRead := x.flushesRead + 1 },
        [.flushRead id])
    else none
  | .finish id =>
    let x := m.streams id
    if Reading m id then some (m.setStream id { x with done := true }, [.finished id]) else none
  | .elapse ns => some ({ m with now := m.now + ns }, [])
  | .setMuted b => some ({ m with muted := b }, [])
  | .setVolume percent => some ({ m with volume := percent }, [])

def machine : Machine Mix Input Event := ⟨step⟩

/-! ### What a step does to the streams -/

/-- Cells an event puts into the ring of stream `id`, and cells it takes out. -/
def Event.cellsIn (id : ℕ) : Event → List Cell
  | .pushed i cells => if i = id then cells else []
  | _ => []

def Event.cellsOut (id : ℕ) : Event → List Cell
  | .took i cells => if i = id then cells else []
  | .dropped i cells => if i = id then cells else []
  | _ => []

/-- Events of the mixer that are about no stream's ring or flags. -/
def Event.isLocal : Event → Prop
  | .tick | .removed _ | .stopped | .paced _ | .wrote .. => True
  | _ => False

def cellsIn (id : ℕ) (tr : List Event) : List Cell := tr.flatMap (Event.cellsIn id)

def cellsOut (id : ℕ) (tr : List Event) : List Cell := tr.flatMap (Event.cellsOut id)

theorem cellsIn_append (id : ℕ) (a b : List Event) :
    cellsIn id (a ++ b) = cellsIn id a ++ cellsIn id b := List.flatMap_append

theorem cellsOut_append (id : ℕ) (a b : List Event) :
    cellsOut id (a ++ b) = cellsOut id a ++ cellsOut id b := List.flatMap_append

theorem cellsIn_of_isLocal (id : ℕ) {es : List Event} (h : ∀ e ∈ es, e.isLocal) :
    cellsIn id es = [] := by
  refine List.flatMap_eq_nil_iff.mpr fun e he => ?_
  have hl := h e he
  cases e <;> first | rfl | exact hl.elim

theorem cellsOut_of_isLocal (id : ℕ) {es : List Event} (h : ∀ e ∈ es, e.isLocal) :
    cellsOut id es = [] := by
  refine List.flatMap_eq_nil_iff.mpr fun e he => ?_
  have hl := h e he
  cases e <;> first | rfl | exact hl.elim

/- The mixer touches a stream in three places only: it swaps the flush flag,
clears the ring, or pops from it. -/
theorem mix_cases (m : Mix) (delay : ℤ) :
    ((m.mix delay).1.streams = m.streams ∧ (m.mix delay).1.registered = m.registered ∧
      (∀ e ∈ (m.mix delay).2, e.isLocal) ∧
      ∀ s todo, m.pc ≠ .flushClear s todo ∧ (m.mix delay).1.pc ≠ .flushClear s todo) ∨
    (∃ s todo flushed, m.pc = .flushScan (s :: todo) flushed ∧ (m.streams s).flush = true ∧
      m.mix delay = ({ m.setStream s { m.streams s with flush := false } with
        pc := .flushClear s todo }, [.consumed s (m.streams s).flushesRead])) ∨
    (∃ s todo, m.pc = .flushClear s todo ∧
      m.mix delay = ({ m.setStream s { m.streams s with ring := (m.streams s).ring.clear } with
        pc := .flushScan todo true }, [.dropped s (m.streams s).ring.contents])) ∨
    (∃ s want todo w acc, m.pc = .mixPop s want todo w acc ∧
      m.mix delay = ({ m.setStream s { m.streams s with ring := ((m.streams s).ring.tryPop want).2 }
        with
          pc := .mixFilled todo w (addSamples acc (bytes ((m.streams s).ring.tryPop want).1)) true },
        [.took s ((m.streams s).ring.tryPop want).1])) := by
  cases hpc : m.pc with
  | flushClear s todo =>
    refine Or.inr (Or.inr (Or.inl ⟨s, todo, rfl, ?_⟩))
    simp only [Mix.mix, hpc]
  | mixPop s want todo w acc =>
    refine Or.inr (Or.inr (Or.inr ⟨s, want, todo, w, acc, rfl, ?_⟩))
    simp only [Mix.mix, hpc]
  | flushScan todo flushed =>
    cases todo with
    | nil =>
      left
      simp only [Mix.mix, hpc]
      split <;> simp
    | cons s todo =>
      by_cases hf : (m.streams s).flush = true
      · refine Or.inr (Or.inl ⟨s, todo, flushed, rfl, hf, ?_⟩)
        simp only [Mix.mix, hpc, hf, if_true]
      · left
        simp [Mix.mix, hpc, hf]
  | _ =>
    left
    simp only [Mix.mix, hpc]
    repeat' split
    all_goals simp [Event.isLocal, Mix.halted]

theorem mix_events_length (m : Mix) (delay : ℤ) : (m.mix delay).2.length ≤ 1 := by
  cases hpc : m.pc
  all_goals
    simp only [Mix.mix, hpc]
    repeat' split
    all_goals simp

/-- The frames a tick that is mixing is going to write. -/
def Pc.frames : Pc → ℕ
  | .mixFilled _ w _ _ => w
  | .mixPop _ _ _ w _ => w
  | .gainLoad w _ => w
  | .muteLoad w _ _ => w
  | .push w _ _ _ => w
  | _ => 0

theorem mix_frames (m : Mix) (delay : ℤ) :
    (m.mix delay).1.pc.frames ≤ m.pc.frames ∨
      m.pc = .pace ∧ (m.mix delay).1.pc.frames ≤ writable delay := by
  cases hpc : m.pc with
  | pace =>
    right
    simp only [Mix.mix, hpc]
    split <;> simp [Pc.frames]
  | _ =>
    left
    simp only [Mix.mix, hpc]
    repeat' split
    all_goals simp [Pc.frames, Mix.halted]

theorem mix_wrote {m : Mix} {delay : ℤ} {gain : F32} {muted : Bool} {out : Bytes}
    (h : (m.mix delay).2 = [.wrote gain muted out]) :
    out.length = 4 * m.pc.frames ∧ (m.mix delay).1.pc = .report := by
  revert h
  cases hpc : m.pc with
  | push w acc g b =>
    simp only [Mix.mix, hpc, List.cons.injEq, Event.wrote.injEq, and_true]
    intro h
    rw [← h.2.2, render_length, Pc.frames]
    omega
  | _ =>
    simp only [Mix.mix, hpc]
    repeat' split
    all_goals simp

/-! ### The ledger of the stream rings -/

structure MixerStream.Fresh (x : MixerStream) : Prop where
  empty : x.ring.contents = []
  flush : x.flush = false
  done : x.done = false
  flushesRead : x.flushesRead = 0

/-- What went into a ring is what came out of it and what is still in it. -/
structure Ledger (m : Mix) (tr : List Event) : Prop where
  fresh : ∀ id, m.registered ≤ id → (m.streams id).Fresh
  live : ∀ id, (m.streams id).ring.raw.interrupted = false
  balance : ∀ id, cellsIn id tr = cellsOut id tr ++ (m.streams id).ring.contents
  finished : ∀ id, (m.streams id).done = true → .finished id ∈ tr
  flushes : ∀ id, (m.streams id).flushesRead = tr.count (.flushRead id)

theorem fresh_new (ringBytes : ℕ) : (MixerStream.new ringBytes).Fresh := ⟨rfl, rfl, rfl, rfl⟩

theorem ledger_init (volume : F32) : Ledger (Mix.init volume) [] :=
  ⟨fun _ _ => fresh_new 0, fun _ => rfl, fun _ => rfl, fun _ h => absurd h Bool.false_ne_true,
    fun _ => rfl⟩

theorem count_flushRead_of_isLocal (id : ℕ) {es : List Event} (h : ∀ e ∈ es, e.isLocal) :
    es.count (.flushRead id) = 0 :=
  List.count_eq_zero.mpr fun hm => h _ hm

theorem Ledger.same {m m' : Mix} {tr es : List Event} (h : Ledger m tr)
    (hs : m'.streams = m.streams) (hr : m'.registered = m.registered)
    (he : ∀ e ∈ es, e.isLocal) : Ledger m' (tr ++ es) := by
  refine ⟨?_, ?_, ?_, ?_, ?_⟩
  · rw [hs, hr]
    exact h.fresh
  · rw [hs]
    exact h.live
  · intro id
    rw [cellsIn_append, cellsOut_append, cellsIn_of_isLocal id he, cellsOut_of_isLocal id he, hs,
      List.append_nil, List.append_nil, h.balance id]
  · intro id hd
    rw [hs] at hd
    exact List.mem_append_left _ (h.finished id hd)
  · intro id
    rw [List.count_append, count_flushRead_of_isLocal id he, hs, Nat.add_zero, h.flushes id]

theorem Ledger.update {m m' : Mix} {tr es : List Event} {s : ℕ} {x : MixerStream}
    (h : Ledger m tr) (hs : m'.streams = Function.update m.streams s x)
    (hr : m.registered ≤ m'.registered) (hfresh : m'.registered ≤ s → x.Fresh)
    (hlive : x.ring.raw.interrupted = false)
    (hbal : (m.streams s).ring.contents ++ cellsIn s es = cellsOut s es ++ x.ring.contents)
    (hother : ∀ id, s ≠ id →
      cellsIn id es = [] ∧ cellsOut id es = [] ∧ es.count (.flushRead id) = 0)
    (hdone : x.done = true → (m.streams s).done = true ∨ .finished s ∈ es)
    (hfl : x.flushesRead = (m.streams s).flushesRead + es.count (.flushRead s)) :
    Ledger m' (tr ++ es) := by
  refine ⟨fun id hid => ?_, fun id => ?_, fun id => ?_, fun id hd => ?_, fun id => ?_⟩
  · rw [hs]
    by_cases hids : s = id
    · subst hids
      rw [Function.update_self]
      exact hfresh hid
    · rw [Function.update_of_ne (Ne.symm hids)]
      exact h.fresh id (hr.trans hid)
  · rw [hs]
    by_cases hids : s = id
    · subst hids
      rw [Function.update_self]
      exact hlive
    · rw [Function.update_of_ne (Ne.symm hids)]
      exact h.live id
  · rw [cellsIn_append, cellsOut_append, hs, h.balance id]
    by_cases hids : s = id
    · subst hids
      rw [Function.update_self, List.append_assoc, List.append_assoc, hbal]
    · obtain ⟨hin, hout, -⟩ := hother id hids
      rw [Function.update_of_ne (Ne.symm hids), hin, hout, List.append_nil, List.append_nil]
  · rw [hs] at hd
    by_cases hids : s = id
    · subst hids
      rw [Function.update_self] at hd
      rcases hdone hd with hold | hnew
      · exact List.mem_append_left _ (h.finished s hold)
      · exact List.mem_append_right _ hnew
    · rw [Function.update_of_ne (Ne.symm hids)] at hd
      exact List.mem_append_left _ (h.finished id hd)
  · rw [hs, List.count_append, ← h.flushes id]
    by_cases hids : s = id
    · subst hids
      rw [Function.update_self, hfl]
    · rw [Function.update_of_ne (Ne.symm hids), (hother id hids).2.2, Nat.add_zero]

theorem Ledger.mix {m : Mix} {tr : List Event} (h : Ledger m tr) (delay : ℤ) :
    Ledger (m.mix delay).1 (tr ++ (m.mix delay).2) := by
  rcases mix_cases m delay with ⟨hs, hr, he, -⟩ | ⟨s, todo, flushed, -, hf, heq⟩ |
    ⟨s, todo, -, heq⟩ | ⟨s, want, todo, w, acc, -, heq⟩
  · exact h.same hs hr he
  · rw [heq]
    refine h.update rfl le_rfl (fun hid => ?_) (h.live s)
      (by simp [cellsIn, cellsOut, Event.cellsIn, Event.cellsOut]) (fun id _ => ⟨rfl, rfl, rfl⟩)
      Or.inl rfl
    have hfr := h.fresh s hid
    exact ⟨hfr.empty, rfl, hfr.done, hfr.flushesRead⟩
  · rw [heq]
    refine h.update rfl le_rfl (fun hid => ?_) (h.live s)
      (by simp [cellsIn, cellsOut, Event.cellsIn, Event.cellsOut]) (fun id hne => ⟨rfl, ?_, rfl⟩)
      Or.inl rfl
    · have hfr := h.fresh s hid
      exact ⟨rfl, hfr.flush, hfr.done, hfr.flushesRead⟩
    · simp [cellsOut, Event.cellsOut, hne]
  · rw [heq]
    obtain ⟨hd, hc, -, hi⟩ := Ring.tryPop_spec want (h.live s)
    have hbal : (m.streams s).ring.contents = ((m.streams s).ring.tryPop want).1 ++
        ((m.streams s).ring.tryPop want).2.contents := by
      rw [hd, hc, List.take_append_drop]
    refine h.update rfl le_rfl (fun hid => ?_) hi (by simpa [cellsIn, cellsOut, Event.cellsIn,
      Event.cellsOut] using hbal) (fun id hne => ⟨rfl, ?_, rfl⟩) Or.inl rfl
    · have hfr := h.fresh s hid
      refine ⟨?_, hfr.flush, hfr.done, hfr.flushesRead⟩
      rw [hc, hfr.empty, List.drop_nil]
    · simp [cellsOut, Event.cellsOut, hne]

theorem step_push {m m' : Mix} {id : ℕ} {data : Bytes} {es : List Event}
    (h : step m (.push id data) = some (m', es)) :
    Reading m id ∧ ∃ ring cells,
      cells = data.map (fun b => Cell.mk b (m.streams id).flushesRead) ∧
      (m.streams id).ring.push cells = some ring ∧
      m' = m.setStream id { m.streams id with ring := ring } ∧ es = [.pushed id cells] := by
  simp only [step] at h
  split at h
  · rename_i hread
    obtain ⟨ring, hring, heq⟩ := Option.map_eq_some_iff.mp h
    cases heq
    exact ⟨hread, ring, _, rfl, hring, rfl, rfl⟩
  · cases h

theorem step_requestFlush {m m' : Mix} {id : ℕ} {es : List Event}
    (h : step m (.requestFlush id) = some (m', es)) :
    Reading m id ∧ m' = m.setStream id { m.streams id with
      flush := true, flushesRead := (m.streams id).flushesRead + 1 } ∧ es = [.flushRead id] := by
  simp only [step] at h
  split at h
  · rename_i hread
    cases h
    exact ⟨hread, rfl, rfl⟩
  · cases h

theorem step_finish {m m' : Mix} {id : ℕ} {es : List Event}
    (h : step m (.finish id) = some (m', es)) :
    Reading m id ∧ m' = m.setStream id { m.streams id with done := true } ∧
      es = [.finished id] := by
  simp only [step] at h
  split at h
  · rename_i hread
    cases h
    exact ⟨hread, rfl, rfl⟩
  · cases h

theorem Ledger.step {m m' : Mix} {tr es : List Event} {i : Input} (h : Ledger m tr)
    (hs : step m i = some (m', es)) : Ledger m' (tr ++ es) := by
  cases i with
  | mix delay =>
    have heq : m.mix delay = (m', es) := Option.some.inj hs
    have hm := h.mix delay
    rw [heq] at hm
    exact hm
  | register ringBytes =>
    cases hs
    have hfr := h.fresh m.registered le_rfl
    refine h.update (x := MixerStream.new ringBytes) rfl (Nat.le_succ _)
      (fun hid => fresh_new ringBytes) rfl ?_ (fun id _ => ⟨rfl, rfl, rfl⟩) nofun ?_
    · simp [hfr.empty, cellsIn, cellsOut, MixerStream.new]
    · rw [hfr.flushesRead]
      rfl
  | push id data =>
    obtain ⟨⟨hlt, -⟩, ring, cells, -, hring, rfl, rfl⟩ := step_push hs
    obtain ⟨-, hc, -, hi⟩ := Ring.push_spec hring
    refine h.update rfl le_rfl (fun hid => absurd hlt (Nat.not_lt.mpr hid)) (hi.trans (h.live id))
      ?_ (fun id' hne => ⟨?_, rfl, rfl⟩) Or.inl rfl
    · simp [cellsIn, cellsOut, Event.cellsIn, Event.cellsOut, hc]
    · simp [cellsIn, Event.cellsIn, hne]
  | requestFlush id =>
    obtain ⟨⟨hlt, -⟩, rfl, rfl⟩ := step_requestFlush hs
    refine h.update rfl le_rfl (fun hid => absurd hlt (Nat.not_lt.mpr hid)) (h.live id) ?_
      (fun id' hne => ⟨rfl, rfl, ?_⟩) Or.inl ?_
    · simp [cellsIn, cellsOut, Event.cellsIn, Event.cellsOut]
    · simp [hne]
    · simp
  | finish id =>
    obtain ⟨⟨hlt, -⟩, rfl, rfl⟩ := step_finish hs
    refine h.update rfl le_rfl (fun hid => absurd hlt (Nat.not_lt.mpr hid)) (h.live id) ?_
      (fun id' _ => ⟨rfl, rfl, rfl⟩) (fun _ => Or.inr (List.mem_singleton_self _)) rfl
    simp [cellsIn, cellsOut, Event.cellsIn, Event.cellsOut]
  | elapse ns =>
    cases hs
    exact h.same rfl rfl nofun
  | setMuted b =>
    cases hs
    exact h.same rfl rfl nofun
  | setVolume percent =>
    cases hs
    exact h.same rfl rfl nofun

/-! ### Steps of the other threads -/

theorem step_pc {m m' : Mix} {es : List Event} {i : Input} (hi : ∀ delay, i ≠ .mix delay)
    (hs : step m i = some (m', es)) :
    m'.pc = m.pc ∧ m'.slots = m.slots ∧ m.queue <+: m'.queue ∧ m.registered ≤ m'.registered := by
  cases i with
  | mix delay => exact absurd rfl (hi delay)
  | push id data =>
    obtain ⟨-, ring, cells, -, -, rfl, -⟩ := step_push hs
    exact ⟨rfl, rfl, List.prefix_rfl, le_rfl⟩
  | requestFlush id =>
    obtain ⟨-, rfl, -⟩ := step_requestFlush hs
    exact ⟨rfl, rfl, List.prefix_rfl, le_rfl⟩
  | finish id =>
    obtain ⟨-, rfl, -⟩ := step_finish hs
    exact ⟨rfl, rfl, List.prefix_rfl, le_rfl⟩
  | register ringBytes =>
    cases hs
    exact ⟨rfl, rfl, List.prefix_append _ _, Nat.le_succ _⟩
  | elapse ns | setMuted b | setVolume percent =>
    cases hs
    exact ⟨rfl, rfl, List.prefix_rfl, le_rfl⟩

/- The threads other than the mixer show themselves by the events of a reader only. -/
theorem step_events {m m' : Mix} {es : List Event} {i : Input} (hi : ∀ delay, i ≠ .mix delay)
    (hs : step m i = some (m', es)) :
    es = [] ∨ (∃ id cells, es = [.pushed id cells]) ∨ (∃ id, es = [.flushRead id]) ∨
      ∃ id, es = [.finished id] := by
  cases i with
  | mix delay => exact absurd rfl (hi delay)
  | push id data =>
    obtain ⟨-, -, cells, -, -, -, rfl⟩ := step_push hs
    exact .inr (.inl ⟨id, cells, rfl⟩)
  | requestFlush id =>
    obtain ⟨-, -, rfl⟩ := step_requestFlush hs
    exact .inr (.inr (.inl ⟨id, rfl⟩))
  | finish id =>
    obtain ⟨-, -, rfl⟩ := step_finish hs
    exact .inr (.inr (.inr ⟨id, rfl⟩))
  | register ringBytes | elapse ns | setMuted b | setVolume percent =>
    cases hs
    exact .inl rfl

/-- Nothing but the mixer empties a ring, and nothing clears `done`. -/
structure Advances (m m' : Mix) : Prop where
  done : ∀ s, (m.streams s).done = true → (m'.streams s).done = true
  filled : ∀ s, (m.streams s).ring.filled ≤ (m'.streams s).ring.filled

theorem Advances.update {m m' : Mix} {s : ℕ} {x : MixerStream}
    (hs : m'.streams = Function.update m.streams s x)
    (hd : (m.streams s).done = true → x.done = true)
    (hf : (m.streams s).ring.filled ≤ x.ring.filled) : Advances m m' := by
  refine ⟨fun id hid => ?_, fun id => ?_⟩
  · rw [hs]
    by_cases hids : id = s
    · subst hids
      rw [Function.update_self]
      exact hd hid
    · rw [Function.update_of_ne hids]
      exact hid
  · rw [hs]
    by_cases hids : id = s
    · subst hids
      rw [Function.update_self]
      exact hf
    · rw [Function.update_of_ne hids]

theorem step_env {m m' : Mix} {tr es : List Event} {i : Input} (hl : Ledger m tr)
    (hi : ∀ delay, i ≠ .mix delay) (hs : step m i = some (m', es)) : Advances m m' := by
  cases i with
  | mix delay => exact absurd rfl (hi delay)
  | register ringBytes =>
    cases hs
    have hfr := hl.fresh m.registered le_rfl
    refine Advances.update (x := MixerStream.new ringBytes) rfl (fun hd => ?_) ?_
    · rw [hfr.done] at hd
      cases hd
    · rw [Ring.contents_eq_nil.mp hfr.empty]
      exact Nat.zero_le _
  | push id data =>
    obtain ⟨-, ring, cells, -, hring, rfl, rfl⟩ := step_push hs
    obtain ⟨-, hc, -, -⟩ := Ring.push_spec hring
    refine Advances.update rfl (fun hd => hd) ?_
    rw [← Ring.contents_length, ← Ring.contents_length, hc, List.length_append]
    omega
  | requestFlush id =>
    obtain ⟨-, rfl, rfl⟩ := step_requestFlush hs
    exact Advances.update rfl (fun hd => hd) le_rfl
  | finish id =>
    obtain ⟨-, rfl, rfl⟩ := step_finish hs
    exact Advances.update rfl (fun _ => rfl) le_rfl
  | elapse ns | setMuted b | setVolume percent =>
    cases hs
    exact ⟨fun _ => id, fun _ => le_rfl⟩

end Audiod.Mixer
