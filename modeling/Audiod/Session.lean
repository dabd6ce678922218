import Audiod.Hda
import Audiod.Machine

/-!
# A playback session (`hda/src/lib.rs:82-164`)

`play`, `drop_all` and `stop` in any order, with the DMA engine between any two of
their accesses: `play` starts the stream, reads `LPIB` and copies.
-/

namespace Audiod

inductive PlayPc
  | write (data : Bytes)
  | copy (data : Bytes) (rd : ℕ)
  deriving DecidableEq

structure Session where
  hda : Hda
  pc : Option PlayPc

namespace Session

def init : Session := ⟨Hda.init, none⟩

inductive Input
  | play (data : Bytes)
  | go
  | dropAll
  | stop
  | dma (k : ℕ)

/-- A call begins once the one before it has returned. -/
def call (s : Session) (next : Session) : Option Session := if s.pc.isSome then none else some next

/-- The software side of a step. -/
def act (s : Session) : Input → Option Session
  | .play data => s.call ⟨s.hda.start, some (.write data)⟩
  | .go =>
    match s.pc with
    | none => none
    | some (.write data) => some { s with pc := some (.copy data s.hda.readLpib) }
    | some (.copy data rd) => some ⟨(s.hda.write rd data).1, none⟩
  | .dropAll => s.call { s with hda := s.hda.dropAll }
  | .stop => s.call { s with hda := s.hda.stop }
  | .dma k => if s.hda.running then some { s with hda := s.hda.dma k } else none

/-- Here the DMA engine stays behind the writes. The event of a step is the stream
after it. -/
def step (s : Session) (x : Input) : Option (Session × List Hda) :=
  match x with
  | .dma k =>
    if k ≤ s.hda.pushed.length - s.hda.fetched.length then
      (s.act (.dma k)).map fun s => (s, [s.hda])
    else none
  | x => (s.act x).map fun s => (s, [s.hda])

def machine : Machine Session Input Hda := ⟨step⟩

/-- What the positions are taken to say: the delay is what was accepted and not
fetched since the last reset, the rest of the ring is free, and the accepted bytes
are in the ring until they are fetched. -/
structure Accounted (h : Hda) : Prop where
  delay : h.delayBytes = h.pushed.length - h.fetched.length
  free : h.freeSpace h.readLpib = ringSize - (h.pushed.length - h.fetched.length)
  room : h.pushed.length - h.fetched.length ≤ ringSize
  unread : ringLoad ringSize h.ring h.lpib (h.pushed.length - h.fetched.length) =
    h.pushed.drop h.fetched.length

/-- A stopped stream is started only with its write position at the start of the ring,
and a copy leaves room: it does not fill the ring to the position it has read, unless
the DMA engine has moved on. -/
def InStep (s : Session) : Input → Prop
  | .play _ => s.hda.running = true ∨ s.hda.writePos = 0
  | .go =>
    match s.pc with
    | some (.copy data rd) =>
      s.hda.pushed.length - s.hda.fetched.length + data.length < ringSize ∨ rd ≠ s.hda.readLpib
    | _ => True
  | _ => True

instance decidableInStep (s : Session) : ∀ x, Decidable (InStep s x)
  | .play _ => inferInstanceAs (Decidable (_ ∨ _))
  | .go =>
    match h : s.pc with
    | some (.copy data rd) =>
      decidable_of_iff (s.hda.pushed.length - s.hda.fetched.length + data.length < ringSize ∨
        rd ≠ s.hda.readLpib) (by simp only [InStep, h])
    | some (.write _) => isTrue (by simp only [InStep, h])
    | none => isTrue (by simp only [InStep, h])
  | .dropAll => isTrue trivial
  | .stop => isTrue trivial
  | .dma _ => isTrue trivial

/-! ### One step -/

/-- The positions of a stopped stream are those it would run on from. -/
def live (h : Hda) : Hda := { h with running := true }

/-- The ring is never full, and a copy knows how many bytes had been fetched when it
read `LPIB`. -/
structure Inv (s : Session) : Prop where
  faithful : (live s.hda).Faithful
  notFull : s.hda.pushed.length - s.hda.fetched.length < ringSize
  pc : match s.pc with
    | none => True
    | some (.write _) => s.hda.running = true
    | some (.copy _ rd) => s.hda.running = true ∧ ∃ f, f ≤ s.hda.fetched.length ∧
        rd = f % ringSize ∧ s.hda.pushed.length - f < ringSize

theorem inv_init : Inv init :=
  ⟨Hda.faithful_of_reset ⟨rfl, rfl, nofun⟩ rfl rfl, Hda.ringSize_pos, trivial⟩

theorem live_of_running {h : Hda} (hr : h.running = true) : live h = h := by
  cases h
  cases hr
  rfl

theorem accounted_of {h : Hda} (hf : (live h).Faithful)
    (hlt : h.pushed.length - h.fetched.length < ringSize) : Accounted h := by
  have hb : h.fetched.length ≤ h.pushed.length := hf.behind
  have hfree : (h.freeSpace (h.fetched.length % ringSize) : ℤ) =
      ringSize - ((h.pushed.length : ℤ) - h.fetched.length) % ringSize :=
    Hda.freeSpace_eq hf.positions h.fetched.length
  have hmod : ((h.pushed.length : ℤ) - h.fetched.length) % ringSize =
      (h.pushed.length : ℤ) - h.fetched.length := Int.emod_eq_of_lt (by omega) (by omega)
  have hl : h.lpib = h.fetched.length % ringSize := hf.positions.lpib_eq
  have hrd : h.readLpib = h.fetched.length % ringSize := by
    rw [Hda.readLpib, hl, Nat.mod_mod]
  have hdelay : (live h).delayBytes = h.pushed.length - h.fetched.length :=
    Hda.delayBytes_of_le hf.positions hb hlt
  refine ⟨hdelay, ?_, hlt.le, hf.unread⟩
  rw [hrd]
  omega

theorem faithful_srst {h : Hda} (hw : h.writePos = 0) :
    (live { h.srst with running := true }).Faithful :=
  Hda.faithful_of_reset ⟨hw, rfl, nofun⟩ rfl rfl

/- Started again, the stream is in step exactly with its write position at the start. -/
theorem accounted_srst_iff (h : Hda) :
    Accounted { h.srst with running := true } ↔ h.writePos = 0 := by
  constructor
  · intro hacc
    have hdelay := hacc.delay
    have heq : ({ h.srst with running := true } : Hda).delayBytes = h.writePos := by
      simp [Hda.delayBytes, Hda.readLpib, Hda.srst]
    rw [heq] at hdelay
    exact hdelay
  · intro hw
    exact accounted_of (h := { h.srst with running := true }) (faithful_srst hw) Hda.ringSize_pos

/- A copy that leaves room keeps the stream in step; one that fills the ring makes it
look empty. -/
theorem copy_spec {h : Hda} (data : Bytes) {f : ℕ} (hf : (live h).Faithful)
    (hr : h.running = true) (hle : f ≤ h.fetched.length)
    (hlt : h.pushed.length - f < ringSize) :
    let h' := (h.write (f % ringSize) data).1
    let room := h.pushed.length - h.fetched.length + data.length < ringSize ∨
      f % ringSize ≠ h.readLpib
    (Accounted h' ↔ room) ∧ (room → h'.pushed.length - h'.fetched.length < ringSize) ∧
      (live h').Faithful ∧ h'.running = true := by
  intro h' room
  rw [live_of_running hr] at hf
  obtain ⟨hfaith, -, hpushed, hfetched⟩ := hf.write_take hr data hle hlt
  have hb := hf.behind
  have hrun : h'.running = true := by
    simp only [h', Hda.write]
    split <;> exact hr
  have hlive : live h' = h' := live_of_running hrun
  have hlpib : h.readLpib = h.fetched.length % ringSize := by
    rw [Hda.readLpib, hf.positions.lpib_eq, Nat.mod_mod]
  have hs : ringSize = 262144 := rfl
  have hlen : h'.pushed.length = h.pushed.length +
      min data.length (ringSize - (h.pushed.length - f)) := by
    rw [hpushed, List.length_append, List.length_take]
    omega
  have hroom (hok : room) : h'.pushed.length - h'.fetched.length < ringSize := by
    rw [hlen, hfetched]
    rcases hok with hfit | hmoved
    · omega
    · have hne : f ≠ h.fetched.length := fun heq => hmoved (by rw [heq, hlpib])
      omega
  refine ⟨⟨fun hacc => ?_, fun hok => accounted_of (hlive.symm ▸ hfaith) (hroom hok)⟩, hroom,
    hlive.symm ▸ hfaith, hrun⟩
  by_contra hfull
  rw [not_or, not_lt, not_not, hlpib] at hfull
  obtain ⟨hlong, hsame⟩ := hfull
  rw [hs] at hsame hlt hlong
  have hfeq : f = h.fetched.length := by omega
  -- full: as many bytes as the ring holds, and no delay
  have hdelay := hacc.delay
  have hmod : (h'.delayBytes : ℤ) = ((h'.pushed.length : ℤ) - h'.fetched.length) % ringSize :=
    Hda.delayBytes_eq hfaith.positions
  have hfilled : h'.pushed.length = h.fetched.length + 262144 := by
    rw [hlen, hs]
    omega
  rw [hfetched, hfilled] at hdelay hmod
  rw [hs] at hmod
  omega

theorem call_eq_some {s next s' : Session} (h : s.call next = some s') :
    s.pc = none ∧ s' = next := by
  unfold call at h
  cases hpc : s.pc with
  | none =>
    rw [hpc] at h
    cases h
    exact ⟨rfl, rfl⟩
  | some pc =>
    rw [hpc] at h
    cases h

theorem step_cases {s s' : Session} {x : Input} {e : List Hda} (hs : step s x = some (s', e)) :
    s.act x = some s' ∧ e = [s'.hda] ∧
      ∀ k, x = .dma k → k ≤ s.hda.pushed.length - s.hda.fetched.length := by
  have hmap {o : Option Session} (h : o.map (fun s => (s, [s.hda])) = some (s', e)) :
      o = some s' ∧ e = [s'.hda] := by
    obtain ⟨t, ht, heq⟩ := Option.map_eq_some_iff.mp h
    cases heq
    exact ⟨ht, rfl⟩
  cases x with
  | dma k =>
    simp only [step] at hs
    split at hs
    · rename_i hk
      obtain ⟨hact, he⟩ := hmap hs
      refine ⟨hact, he, fun k' heq => ?_⟩
      cases heq
      exact hk
    · cases hs
  | play data | go | dropAll | stop =>
    obtain ⟨hact, he⟩ := hmap hs
    exact ⟨hact, he, fun k heq => by cases heq⟩

theorem Inv.play {s : Session} (h : s.Inv) (data : Bytes) :
    (Accounted s.hda.start ↔ InStep s (.play data)) ∧
      (InStep s (.play data) → Inv ⟨s.hda.start, some (.write data)⟩) := by
  simp only [InStep]
  unfold Hda.start
  split
  next hr =>
    exact ⟨iff_of_true (accounted_of h.faithful h.notFull) (.inl hr),
      fun _ => ⟨h.faithful, h.notFull, hr⟩⟩
  next hr =>
    rw [accounted_srst_iff, or_iff_right hr]
    exact ⟨Iff.rfl, fun hw => ⟨faithful_srst hw, Hda.ringSize_pos, rfl⟩⟩

theorem Inv.go {s s' : Session} (h : s.Inv) (hs : s.act .go = some s') :
    (Accounted s'.hda ↔ InStep s .go) ∧ (InStep s .go → s'.Inv) := by
  have hpc := h.pc
  simp only [act] at hs
  split at hs
  next => cases hs
  next data hwrite =>
    rw [hwrite] at hpc
    cases hs
    have hl : s.hda.lpib = s.hda.fetched.length % ringSize := h.faithful.positions.lpib_eq
    have hrd : s.hda.readLpib = s.hda.fetched.length % ringSize := by
      rw [Hda.readLpib, hl, Nat.mod_mod]
    exact ⟨iff_of_true (accounted_of h.faithful h.notFull) (by simp only [InStep, hwrite]),
      fun _ => ⟨h.faithful, h.notFull, hpc, _, le_rfl, hrd, h.notFull⟩⟩
  next data rd hcopy =>
    rw [hcopy] at hpc
    cases hs
    obtain ⟨hr, f, hle, rfl, hlt⟩ := hpc
    obtain ⟨hacc, hroom, hfaith, -⟩ := copy_spec data h.faithful hr hle hlt
    simp only [InStep, hcopy]
    exact ⟨hacc, fun hin => ⟨hfaith, hroom hin, trivial⟩⟩

theorem Inv.stop {s : Session} (h : s.Inv) (hpc : s.pc = none) :
    Accounted s.hda.stop ∧ Inv { s with hda := s.hda.stop } := by
  refine ⟨accounted_of h.faithful h.notFull, h.faithful, h.notFull, ?_⟩
  simp only [hpc]

theorem Inv.dropAll {s : Session} (hpc : s.pc = none) :
    Accounted s.hda.dropAll ∧ Inv { s with hda := s.hda.dropAll } := by
  have hfaith : (live s.hda.dropAll).Faithful :=
    Hda.faithful_of_reset ⟨rfl, rfl, nofun⟩ rfl rfl
  refine ⟨accounted_of hfaith Hda.ringSize_pos, hfaith, Hda.ringSize_pos, ?_⟩
  simp only [hpc]

theorem Inv.dma {s : Session} (h : s.Inv) {k : ℕ}
    (hk : k ≤ s.hda.pushed.length - s.hda.fetched.length) :
    Accounted (s.hda.dma k) ∧ Inv { s with hda := s.hda.dma k } := by
  have hfaith : (live (s.hda.dma k)).Faithful := h.faithful.dma rfl hk
  have hlen : (s.hda.dma k).fetched.length = s.hda.fetched.length + k := by
    simp only [Hda.dma, List.length_append, ringLoad_length]
  have hpushed : (s.hda.dma k).pushed = s.hda.pushed := rfl
  have hlt : (s.hda.dma k).pushed.length - (s.hda.dma k).fetched.length < ringSize := by
    rw [hpushed, hlen]
    have hfull := h.notFull
    omega
  refine ⟨accounted_of hfaith hlt, hfaith, hlt, ?_⟩
  have hpc := h.pc
  cases hcall : s.pc with
  | none => trivial
  | some pc =>
    rw [hcall] at hpc
    cases pc with
    | write data => exact hpc
    | copy data rd =>
      obtain ⟨hr', f, hle, hrd, hroom⟩ := hpc
      dsimp only
      rw [hlen]
      exact ⟨hr', f, by omega, hrd, hroom⟩

/- A step leaves the stream in step exactly if it is one of `InStep`. -/
theorem step_spec {s s' : Session} {x : Input} {e : List Hda} (h : s.Inv)
    (hs : step s x = some (s', e)) :
    ((∀ hda ∈ e, Accounted hda) ↔ InStep s x) ∧ (InStep s x → s'.Inv) := by
  obtain ⟨hact, rfl, hk⟩ := step_cases hs
  rw [List.forall_mem_singleton]
  cases x with
  | play data =>
    obtain ⟨-, rfl⟩ := call_eq_some hact
    exact h.play data
  | go => exact h.go hact
  | dropAll =>
    obtain ⟨hpc, rfl⟩ := call_eq_some hact
    obtain ⟨hacc, hinv⟩ := Inv.dropAll hpc
    exact ⟨iff_of_true hacc trivial, fun _ => hinv⟩
  | stop =>
    obtain ⟨hpc, rfl⟩ := call_eq_some hact
    obtain ⟨hacc, hinv⟩ := h.stop hpc
    exact ⟨iff_of_true hacc trivial, fun _ => hinv⟩
  | dma k =>
    simp only [act] at hact
    split at hact
    · cases hact
      obtain ⟨hacc, hinv⟩ := h.dma (hk k rfl)
      exact ⟨iff_of_true hacc trivial, fun _ => hinv⟩
    · cases hact

/-- In every state of a session the positions account for what was accepted and not
fetched exactly if no copy fills the ring and no stopped stream is started with its
write position inside the ring. -/
theorem run_accounted_iff {xs : List Input} {s : Session} {tr : List Hda}
    (hrun : machine.run init xs = some (s, tr)) :
    (∀ h ∈ tr, Accounted h) ↔ machine.Meets InStep init xs :=
  machine.forall_events_iff_meets_while (fun _ _ _ _ hok hI hs => (step_spec hI hs).2 hok)
    (fun _ _ _ _ hI hs => (step_spec hI hs).1) inv_init hrun

theorem run_play (data : Bytes) :
    ∃ tr, machine.run init [.play data, .go, .go] =
      some (⟨(Hda.init.start.write 0 data).1, none⟩, tr) := ⟨_, rfl⟩

/- As much as the ring holds: the write position is where it was. -/
theorem write_full {data : Bytes} (hlen : data.length = ringSize) :
    (Hda.init.start.write 0 data).1 =
      { Hda.init.start with
        ring := ringStore ringSize Hda.init.start.ring 0 data
        writePos := 0
        pushed := data } := by
  have hfree : Hda.init.start.freeSpace 0 = ringSize := rfl
  have hne : ¬ringSize = 0 := by decide
  have hwrap : (Hda.init.start.writePos + ringSize) % ringSize = 0 := rfl
  simp only [Hda.write, hfree, hlen, min_self, if_neg hne, List.take_of_length_le hlen.le, hwrap]
  rfl

/- Data as long as the ring is accepted at once and looks like an empty ring: the
next byte lands on its first one. -/
theorem run_play_full {data : Bytes} (hlen : data.length = ringSize) :
    ∃ s tr, machine.run init [.play data, .go, .go] = some (s, tr) ∧
      s.hda.pushed.length = ringSize ∧ s.hda.fetched = [] ∧ s.hda.delayBytes = 0 ∧
      (s.hda.write 0 [7]).1.ring 0 = 7 ∧ ¬Accounted s.hda := by
  obtain ⟨tr, hrun⟩ := run_play data
  rw [write_full hlen] at hrun
  refine ⟨_, tr, hrun, hlen, rfl, rfl, rfl, fun hacc => ?_⟩
  have hdelay : 0 = data.length - 0 := hacc.delay
  rw [hlen] at hdelay
  exact absurd hdelay (by decide)

/- A tone of a ring's length, and a stream stopped after one frame, which starts four
bytes ahead of its count. -/
theorem full_ring_looks_empty :
    (∃ s tr, machine.run init [.play (List.replicate ringSize 1), .go, .go] = some (s, tr) ∧
      s.hda.pushed.length = ringSize ∧ s.hda.fetched = [] ∧ s.hda.delayBytes = 0 ∧
      (s.hda.write 0 [7]).1.ring 0 = 7 ∧ ¬Accounted s.hda) ∧
    ∃ s tr, machine.run init [.play [1, 2, 3, 4], .go, .go, .stop, .play []] = some (s, tr) ∧
      s.hda.pushed = [] ∧ s.hda.delayBytes = 4 ∧ ¬Accounted s.hda := by
  constructor
  · exact run_play_full List.length_replicate
  · refine ⟨_, _, rfl, rfl, rfl, fun hacc => ?_⟩
    exact absurd hacc.delay (by decide)

/- A frame is played and fetched, and the stream dropped. -/
theorem run_accounted_iff_frame : ∃ s tr,
    machine.run init [.play [1, 2, 3, 4], .go, .go, .dma 4, .dropAll] = some (s, tr) ∧
      ∀ h ∈ tr, Accounted h := by
  have hok : machine.Meets InStep init [.play [1, 2, 3, 4], .go, .go, .dma 4, .dropAll] := by decide
  exact ⟨_, _, rfl, (run_accounted_iff rfl).mpr hok⟩

end Session

end Audiod
