import Audiod.Shim

/-!
# The order of FLUSH and audio on the wire

A drop clears the ring and sets `FLUSH_CMD`; the drain thread looks at the flag
between two pops. Asleep in a pop it is woken by the next write, and sends the
new audio in front of the FLUSH. Nothing written before a drop is sent after its
FLUSH.
-/

namespace Audiod.Shim

/-- One handle with its drain thread. -/
def machine : Machine (Process × Handle) Input Event := ⟨fun s i => step s.1 s.2 i⟩

/-- The state after `snd_pcm_open` and `snd_pcm_set_params`. -/
def ready (ringBytes : ℕ) (fmt : ℤ) (channels rate fd : ℕ) : Process × Handle :=
  let h := { Handle.opened ringBytes fd with format := fmt, channels := channels, rate := rate }
  let header := headerBytes rate channels h.formatCode
  ({ Process.init with net :=
      { fds := Function.update (fun _ => none) fd (some 0)
        conns := Function.update (fun _ => ⟨[], true⟩) 0 ⟨header.map (.header, ·), true⟩
        made := 1 } },
    { h with header := some (rate, channels, h.formatCode), configured := true
             state := .prepared })

/-- `snd_pcm_set_params` of a handle just opened, with its header sent in one piece. -/
def setUp (fmt : ℤ) (channels rate : ℕ) : List Input :=
  [.call (.setParams fmt channels rate), .app .go, .app .go, .app (.accept hdrSz)]

theorem run_setUp (ringBytes : ℕ) (fmt : ℤ) {channels rate fd : ℕ} (hrate : rate ≠ 0)
    (hch : channels ≠ 0) {net : Net Origin} (hnet : Net.init.connect fd = some net) :
    machine.run ({ Process.init with net := net }, Handle.opened ringBytes fd)
      (setUp fmt channels rate) = some (ready ringBytes fmt channels rate fd, []) := by
  cases hnet
  let header := (headerBytes rate channels (fmt % 65536).toNat).map fun b => (Origin.header, b)
  have htake : header.take hdrSz = header :=
    List.take_of_length_le (by simp [header, headerBytes_length])
  simp [setUp, machine, Machine.run, step, Handle.call, Handle.commit, Handle.opened,
    Handle.appStep, hrate, hch, Net.accept, Net.init, Handle.formatCode, headerBytes_length,
    Conn.log, ready, Process.init]
  rw [htake]

/-- Calls of `snd_pcm_writei` and `snd_pcm_drop`, and no failed send. -/
def WritesAndDrops : Input → Prop
  | .call (.writei _) | .call .drop => True
  | .call _ => False
  | .app a | .drain a => a ≠ .error

/-- How many drops have set the flag, and how many of them the last FLUSH is for. -/
def note (n : ℕ × ℕ) : Event → ℕ × ℕ
  | .raised => (n.1 + 1, n.2)
  | .sending .flush => (n.1, n.1)
  | _ => n

def tally (tr : List Event) : ℕ × ℕ := tr.foldl note (0, 0)

def flushed (tr : List Event) : ℕ := (tally tr).2

/-- The audio sent was written after exactly those drops whose FLUSH has been sent
before it. -/
def FlushOrder (pre : List Event) : Event → Prop
  | .sending (.pcm cells) => ∀ c ∈ cells, c.born = flushed pre
  | _ => True

/-- No audio is sent after the FLUSH of a drop that came after it. -/
def NoStale (pre : List Event) : Event → Prop
  | .sending (.pcm cells) => ∀ c ∈ cells, flushed pre ≤ c.born
  | _ => True

/-- The drain thread takes no audio while a FLUSH is pending. -/
def PopsUnflagged (s : Process × Handle) : Input → Prop
  | .drain _ => s.2.drain = .pop → s.1.flushCmd = true → s.2.ring.contents = []
  | _ => True

instance (s : Process × Handle) (i : Input) : Decidable (PopsUnflagged s i) :=
  match i with
  | .drain _ => inferInstanceAs (Decidable (_ → _ → _))
  | .call _ | .app _ => isTrue trivial

/-- Between the clear of a drop and its end. -/
def Dropping : AppPc → Prop
  | .dropPushed | .dropWritten | .dropPlay | .dropFlush => True
  | _ => False

def WriteOrDrop : AppPc → Prop
  | .idle | .writeAnchor _ | .writeSilent _ | .writeMute _ _ | .writePush _ | .writeAdd _
  | .dropClear | .dropPushed | .dropWritten | .dropPlay | .dropFlush => True
  | _ => False

def Connected : DrainPc → Prop
  | .top | .mute | .flush | .pop | .send _ _ _ | .written _ => True
  | _ => False

structure FlushInv (p : Process) (h : Handle) (n : ℕ × ℕ) : Prop where
  configured : h.configured = true
  sock : h.sock ≠ none
  quiet : h.ring.raw.interrupted = false
  stop : h.drainStop = false
  app : WriteOrDrop h.app
  drain : Connected h.drain
  raised_eq : n.1 = h.drops
  flushed_le : n.2 ≤ h.drops
  settled : p.flushCmd = false → n.2 = h.drops
  cells : ∀ c ∈ h.ring.contents, c.born = h.drops
  cleared : Dropping h.app → h.ring.contents = []

variable {p p' : Process} {h h' : Handle} {n : ℕ × ℕ} {es : List Event}

theorem inv_call (hi : FlushInv p h n) {c : Call} (hc : WritesAndDrops (.call c))
    (hs : h.call p c = ((p', h'), es)) :
    es = [] ∧ FlushInv p' h' n := by
  cases c with
  | writei data =>
    simp only [Handle.call] at hs
    split at hs
    · cases hs
      exact ⟨rfl, { hi with app := trivial, cleared := nofun }⟩
    · cases hs
      exact ⟨rfl, hi⟩
  | drop =>
    cases hs
    exact ⟨rfl, { hi with app := trivial, cleared := nofun }⟩
  | setFormat _ | setChannels _ | setRate _ | hwParams | setParams _ _ _ | prepare | drain | start
  | pause _ | close => cases hc

/-- Steps that start no PCM frame. -/
def Silent (es : List Event) : Prop :=
  es.length ≤ 1 ∧ ∀ e ∈ es, ∀ tr, NoStale tr e ∧ FlushOrder tr e

theorem silent_nil : Silent [] := ⟨Nat.zero_le 1, nofun⟩

theorem silent_one {e : Event} (h : ∀ tr, NoStale tr e ∧ FlushOrder tr e) : Silent [e] :=
  ⟨Nat.le_refl 1, List.forall_mem_singleton.mpr h⟩

theorem inv_write (hi : FlushInv p h n) {data : Bytes} {ring : Ring Cell}
    (hpush : h.ring.push (data.map (⟨·, h.drops⟩)) = some ring) :
    FlushInv p { h with ring := ring, app := .writeAdd data.length } n := by
  obtain ⟨-, hcont, -, hint⟩ := Ring.push_spec hpush
  refine { hi with
    quiet := hint.trans hi.quiet
    app := trivial
    cells := ?_
    cleared := nofun }
  intro c hc
  rw [hcont] at hc
  rcases List.mem_append.mp hc with hold | hnew
  · exact hi.cells c hold
  · obtain ⟨b, -, rfl⟩ := List.mem_map.mp hnew
    rfl

/- The drop has emptied the ring before it sets the flag. -/
theorem inv_raise (hi : FlushInv p h n) (hnil : h.ring.contents = []) :
    FlushInv { p with flushCmd := true }
      { h with app := .idle, state := .prepared, drops := h.drops + 1 } (note n .raised) := by
  have hle := hi.flushed_le
  refine { hi with
    app := trivial
    raised_eq := congrArg (· + 1) hi.raised_eq
    flushed_le := Nat.le_succ_of_le hle
    settled := nofun
    cells := ?_
    cleared := nofun }
  intro c hc
  rw [show h.ring.contents = [] from hnil] at hc
  cases hc

theorem inv_app (hi : FlushInv p h n) {a : Answer} (hs : h.appStep p a = some ((p', h'), es)) :
    FlushInv p' h' (es.foldl note n) ∧ Silent es := by
  have happ := hi.app
  have hcl := hi.cleared
  unfold Handle.appStep at hs
  cases hpc : h.app <;> rw [hpc] at happ hcl hs <;> dsimp only at hs
  case idle => cases hs
  case writeAnchor data | writeAdd k =>
    cases hs
    exact ⟨{ hi with app := trivial, cleared := nofun }, silent_nil⟩
  case writeSilent data =>
    cases hs
    refine ⟨?_, silent_nil⟩
    dsimp only [List.foldl_nil]
    split
    · exact { hi with app := trivial, cleared := nofun }
    · split
      · exact { hi with app := trivial, cleared := nofun }
      · exact { hi with app := trivial, cleared := nofun }
  case writeMute cmd data =>
    cases hs
    exact ⟨{ hi with app := trivial, cleared := nofun }, silent_one fun _ => ⟨trivial, trivial⟩⟩
  case writePush data =>
    split at hs
    · cases hs
    · rename_i ring hpush
      cases hs
      exact ⟨inv_write hi hpush, silent_one fun _ => ⟨trivial, trivial⟩⟩
  case dropClear =>
    cases hs
    exact ⟨{ hi with app := trivial, cells := nofun, cleared := fun _ => rfl }, silent_nil⟩
  case dropPushed | dropWritten | dropPlay =>
    cases hs
    exact ⟨{ hi with app := trivial, cleared := fun _ => hcl trivial }, silent_nil⟩
  case dropFlush =>
    rw [if_pos (.inr hi.configured)] at hs
    cases hs
    exact ⟨inv_raise hi (hcl trivial), silent_one fun _ => ⟨trivial, trivial⟩⟩
  case commitLoad | commitStash | commitSend | closeStop | closeInterrupt | closeJoin | closeFd |
    closed => cases happ

theorem trySend_eq {fd : ℕ} (hsock : h.sock = some fd) (f : Frame) (skip : DrainPc) :
    h.trySend p f skip =
      ((p, { h with drain := .send fd (sendFrame f.payload) f }), [.sending f]) := by
  unfold Handle.trySend
  split
  · rename_i hnone
    rw [hsock] at hnone
    cases hnone
  · rename_i fd' hfd
    rw [hsock] at hfd
    cases hfd
    rfl

theorem trySend_of_sock (hsock : h.sock ≠ none) (f : Frame) (skip : DrainPc) :
    ∃ fd, h.trySend p f skip =
      ((p, { h with drain := .send fd (sendFrame f.payload) f }), [.sending f]) := by
  obtain ⟨fd, hfd⟩ := Option.ne_none_iff_exists'.mp hsock
  exact ⟨fd, trySend_eq hfd f skip⟩

theorem connected_next (f : Frame) : Connected (Handle.next f) := by
  cases f <;> trivial

theorem inv_pop (hi : FlushInv p h n) (hpc : h.drain = .pop) {a : Answer}
    (hs : h.drainStep p a = some ((p', h'), es)) :
    FlushInv p' h' (es.foldl note n) ∧
      ∃ cells ≠ [], es = [.sending (.pcm cells)] ∧ ∀ c ∈ cells, c ∈ h.ring.contents := by
  simp only [Handle.drainStep, hpc] at hs
  split at hs
  · cases hs
  · rename_i ring hpop
    obtain ⟨hne, hd, -, -, -⟩ := Ring.pop_spec hi.quiet hpop
    rw [eq_comm, List.take_eq_nil_iff] at hd
    exact absurd hd (by simp [drainChunk, hne])
  · rename_i c cs ring hpop
    obtain ⟨-, hd, hrest, -, hint⟩ := Ring.pop_spec hi.quiet hpop
    obtain ⟨fd, heq⟩ := trySend_of_sock (p := p) (h := { h with ring := ring, drain := .pop })
      hi.sock (.pcm (c :: cs)) .top
    rw [heq] at hs
    cases hs
    have hleft : ∀ x ∈ ring.contents, x ∈ h.ring.contents := by
      rw [hrest]
      exact fun x hx => List.mem_of_mem_drop hx
    refine ⟨{ hi with
      quiet := hint
      drain := trivial
      cells := fun x hx => hi.cells x (hleft x hx)
      cleared := fun hdrop => ?_ }, c :: cs, nofun, rfl, ?_⟩
    · rw [hrest, hi.cleared hdrop, List.drop_nil]
    · rw [hd]
      exact fun x hx => List.mem_of_mem_take hx

theorem inv_drain (hi : FlushInv p h n) {a : Answer} (ha : a ≠ .error)
    (hs : h.drainStep p a = some ((p', h'), es)) :
    FlushInv p' h' (es.foldl note n) ∧ (Silent es ∨ h.drain = .pop ∧
      ∃ cells ≠ [], es = [.sending (.pcm cells)] ∧ ∀ c ∈ cells, c ∈ h.ring.contents) := by
  have hdr := hi.drain
  by_cases hpop : h.drain = .pop
  · obtain ⟨hnext, hcells⟩ := inv_pop hi hpop hs
    exact ⟨hnext, .inr ⟨hpop, hcells⟩⟩
  unfold Handle.drainStep at hs
  cases hpc : h.drain <;> rw [hpc] at hdr hs <;> dsimp only at hs
  case top =>
    cases hs
    rw [if_neg (by rw [hi.stop]; nofun)]
    exact ⟨{ hi with drain := trivial }, .inl silent_nil⟩
  case mute =>
    split at hs
    · cases hs
      exact ⟨{ hi with drain := trivial }, .inl silent_nil⟩
    · obtain ⟨fd, heq⟩ := trySend_of_sock (p := { p with muteCmd := 0 }) hi.sock (.mute p.muteCmd)
        .flush
      rw [heq] at hs
      cases hs
      exact ⟨{ hi with drain := trivial }, .inl (silent_one fun _ => ⟨trivial, trivial⟩)⟩
  case flush =>
    split at hs
    · obtain ⟨fd, heq⟩ := trySend_of_sock (p := { p with flushCmd := false }) hi.sock .flush .pop
      rw [heq] at hs
      cases hs
      refine ⟨{ hi with
        drain := trivial
        flushed_le := Nat.le_of_eq hi.raised_eq
        settled := fun _ => hi.raised_eq }, .inl (silent_one fun _ => ⟨trivial, trivial⟩)⟩
    · cases hs
      exact ⟨{ hi with drain := trivial }, .inl silent_nil⟩
  case pop => exact absurd hpc hpop
  case send fd rest f =>
    split at hs
    · split at hs
      · cases hs
      · split at hs
        · cases hs
          exact ⟨{ hi with drain := connected_next f },
            .inl (silent_one fun _ => ⟨trivial, trivial⟩)⟩
        · cases hs
          exact ⟨{ hi with drain := trivial }, .inl silent_nil⟩
    · exact absurd rfl ha
    · cases hs
  case written m =>
    cases hs
    exact ⟨{ hi with drain := trivial }, .inl silent_nil⟩
  case reSwap | reClose | reStop | reConnect | reHeader | reWritten | rePushed | rePlay | done =>
    cases hdr

/- One step: what it keeps, and what it says of the audio it sends. -/
theorem inv_step {tr : List Event} (hi : FlushInv p h (tally tr)) {i : Input}
    (hin : WritesAndDrops i) (hs : step p h i = some ((p', h'), es)) :
    FlushInv p' h' (tally (tr ++ es)) ∧ es.length ≤ 1 ∧
      ∀ e ∈ es, NoStale tr e ∧ (PopsUnflagged (p, h) i → FlushOrder tr e) := by
  have htally : tally (tr ++ es) = es.foldl note (tally tr) := List.foldl_append
  have hsilent : Silent es → es.length ≤ 1 ∧
      ∀ e ∈ es, NoStale tr e ∧ (PopsUnflagged (p, h) i → FlushOrder tr e) :=
    fun h => ⟨h.1, fun e he => ⟨(h.2 e he tr).1, fun _ => (h.2 e he tr).2⟩⟩
  rw [htally]
  cases i with
  | call c =>
    simp only [step] at hs
    split at hs
    · obtain ⟨hnil, hinv⟩ := inv_call hi hin (Option.some.inj hs)
      rw [hnil]
      exact ⟨hinv, hnil ▸ hsilent (hnil ▸ silent_nil)⟩
    · cases hs
  | app a =>
    obtain ⟨hinv, hsil⟩ := inv_app hi hs
    exact ⟨hinv, hsilent hsil⟩
  | drain a =>
    obtain ⟨hinv, hsil | ⟨hpop, cells, hne, rfl, hcells⟩⟩ := inv_drain hi hin hs
    · exact ⟨hinv, hsilent hsil⟩
    · refine ⟨hinv, Nat.le_refl 1, List.forall_mem_singleton.mpr ⟨?_, fun hok => ?_⟩⟩
      · intro c hc
        rw [hi.cells c (hcells c hc)]
        exact hi.flushed_le
      · intro c hc
        -- There is audio to take, so no FLUSH is pending.
        have hclear : p.flushCmd = false := by
          cases hf : p.flushCmd with
          | false => rfl
          | true =>
            have hnil := hok hpop hf
            have hmem := hcells c hc
            rw [hnil] at hmem
            cases hmem
        rw [hi.cells c (hcells c hc)]
        exact (hi.settled hclear).symm

theorem flushInv_ready (ringBytes : ℕ) (fmt : ℤ) (channels rate fd : ℕ) :
    FlushInv (ready ringBytes fmt channels rate fd).1 (ready ringBytes fmt channels rate fd).2
      (tally []) :=
  ⟨rfl, nofun, rfl, rfl, trivial, trivial, rfl, Nat.le_refl 0, fun _ => rfl, nofun, nofun⟩

/-- In every run in which the drain thread takes no audio while a FLUSH is pending,
the FLUSH of a drop is sent between the audio before it and the audio after it. -/
theorem run_flush_order (ringBytes : ℕ) (fmt : ℤ) (channels rate fd : ℕ) (is : List Input)
    (hin : ∀ i ∈ is, WritesAndDrops i)
    (hok : machine.Meets PopsUnflagged (ready ringBytes fmt channels rate fd) is)
    {s : Process × Handle} {tr : List Event}
    (hrun : machine.run (ready ringBytes fmt channels rate fd) is = some (s, tr)) :
    Always FlushOrder tr := by
  let I : Process × Handle → List Event → Prop := fun s tr =>
    FlushInv s.1 s.2 (tally tr) ∧ Always FlushOrder tr
  have hstep : ∀ s tr i s' es, WritesAndDrops i ∧ PopsUnflagged s i → I s tr →
      machine.step s i = some (s', es) → I s' (tr ++ es) := by
    intro s tr i s' es hc hI hs
    obtain ⟨hinv, hlen, hes⟩ := inv_step hI.1 hc.1 hs
    exact ⟨hinv, hI.2.append_le_one hlen fun e he => (hes e he).2 hc.2⟩
  have hend := machine.run_inv_of_meets hstep
    ⟨flushInv_ready ringBytes fmt channels rate fd, always_nil⟩ (hok.and_of_all hin) hrun
  exact hend.2

/-- The drain thread looks at the flag after the drop. -/
def seekRun : List Input :=
  [.call .drop, .app .go, .app .go, .app .go, .app .go, .app .go, .call (.writei [1, 0, 2, 0]),
    .app .go, .app .go, .app .go, .app .go, .drain .go, .drain .go, .drain .go,
    .drain (.accept 5), .drain .go]

theorem run_flush_order_seek :
    ∃ s tr, machine.run (ready 4096 2 2 48000 3) seekRun = some (s, tr) ∧ Always FlushOrder tr :=
  ⟨_, _, rfl, run_flush_order 4096 2 2 48000 3 seekRun
    (by simp [seekRun, WritesAndDrops]) (by decide +kernel) rfl⟩

/- The drain thread is asleep in `pop`. It wakes up to the audio written after the
drop, with the FLUSH still to be sent. -/
theorem pop_overtakes_flush :
    ¬ ∀ (ringBytes : ℕ) (fmt : ℤ) (channels rate fd : ℕ) (is : List Input)
      (s : Process × Handle) (tr : List Event), (∀ i ∈ is, WritesAndDrops i) →
      machine.run (ready ringBytes fmt channels rate fd) is = some (s, tr) →
        Always FlushOrder tr := by
  intro h
  have hrun := h 4096 2 2 48000 3 [.drain .go, .drain .go, .drain .go, .call .drop, .app .go,
    .app .go, .app .go, .app .go, .app .go, .call (.writei [1, 0, 2, 0]), .app .go, .app .go,
    .app .go, .app .go, .drain .go] _ _ (by simp [WritesAndDrops]) rfl
  have hsend := hrun [.raised, .wrote [⟨1, 1⟩, ⟨0, 1⟩, ⟨2, 1⟩, ⟨0, 1⟩]]
    (.sending (.pcm [⟨1, 1⟩, ⟨0, 1⟩, ⟨2, 1⟩, ⟨0, 1⟩])) [] rfl
  have hborn := hsend ⟨1, 1⟩ List.mem_cons_self
  revert hborn
  decide

/-- Half of it needs no condition, from `snd_pcm_open` on: no audio is sent after the FLUSH of a
later drop. -/
theorem run_no_stale (ringBytes : ℕ) (fmt : ℤ) {channels rate fd : ℕ} (hrate : rate ≠ 0)
    (hch : channels ≠ 0) {net : Net Origin} (hnet : Net.init.connect fd = some net)
    (is : List Input) (hin : ∀ i ∈ is, WritesAndDrops i) {s : Process × Handle} {tr : List Event}
    (hrun : machine.run ({ Process.init with net := net }, Handle.opened ringBytes fd)
      (setUp fmt channels rate ++ is) = some (s, tr)) : Always NoStale tr := by
  obtain ⟨mid, e, es, hup, hafter, rfl⟩ := machine.run_append_iff.mp hrun
  rw [run_setUp ringBytes fmt hrate hch hnet] at hup
  cases hup
  let I : Process × Handle → List Event → Prop := fun s tr =>
    FlushInv s.1 s.2 (tally tr) ∧ Always NoStale tr
  have hstep : ∀ s tr i s' es, WritesAndDrops i → I s tr →
      machine.step s i = some (s', es) → I s' (tr ++ es) := by
    intro s tr i s' es hc hI hs
    obtain ⟨hinv, hlen, hes⟩ := inv_step hI.1 hc hs
    exact ⟨hinv, hI.2.append_le_one hlen fun e he => (hes e he).1⟩
  have hend := machine.run_inv_of_meets hstep
    ⟨flushInv_ready ringBytes fmt channels rate fd, always_nil⟩ (machine.meets_of_all _ is hin)
    hafter
  exact hend.2

end Audiod.Shim
