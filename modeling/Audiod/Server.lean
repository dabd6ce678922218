import Audiod.Reader

/-!
# The server's connections (`server/src/main.rs`)

The accept loop of `run_server` and the threads it starts for its connections,
`handle_control` and `reader_client`. One step is one access to what others change (a
connection, `STATE`, the mixer's streams, `SHUTDOWN`) with the local work after it.
Accepted sockets block: a `read` that finds nothing waits, and is no step.
-/

namespace Audiod.Daemon

open Mixer (Mix)

/-! ### Peers -/

/-- `peer_allowed`, of what `peer_uid` gives. -/
def peerAllowed (trusted : ℕ) : Option ℕ → Bool
  | none => false
  | some uid => uid == 0 || uid == trusted

/-- `$SUDO_UID` where it is a number, the effective uid, the uid behind each
connection, and the configuration. -/
structure Setup where
  sudoUid : Option ℕ
  euid : ℕ
  peerUid : ℕ → Option ℕ
  maxClients : ℕ
  clientRingBytes : ℕ
  mixRate : ℕ
  resampler : String

def Setup.trustedUid (u : Setup) : ℕ := u.sudoUid.getD u.euid

def Setup.allowed (u : Setup) (c : ℕ) : Bool := peerAllowed u.trustedUid (u.peerUid c)

/-- A connection: what has been sent and not read, and whether the peer has closed
its end. -/
structure Peer where
  unread : Bytes
  closed : Bool
  deriving DecidableEq

inductive ReadError
  | interrupted
  | other

/-- What the kernel makes of a call: the number of bytes it passes on, or an error. -/
inductive Answer
  | bytes (k : ℕ)
  | error (e : ReadError)

/-- `read` of at most `max` bytes. -/
def Peer.read (p : Peer) (max : ℕ) : Answer → Option (Except ReadError Bytes × Peer)
  | .error e => some (.error e, p)
  | .bytes k =>
    match p.unread with
    | [] => if p.closed then some (.ok [], p) else none
    | b :: bs =>
      if 0 < k ∧ k ≤ min max (b :: bs).length then
        some (.ok ((b :: bs).take k), { p with unread := (b :: bs).drop k })
      else none

/-! ### What the threads share -/

/-- `STATE`, where it is not in the mixer, and `SHUTDOWN`. -/
structure Shared where
  mixer : Mix
  totalFrames : ℕ
  shutdown : Bool

/-- The numbers of a STATUS reply. -/
structure Status where
  muted : Bool
  volume : F32
  clients : ℕ
  totalFrames : ℕ
  delayFrames : ℤ

def Status.none : Status := ⟨false, .fin 0, 0, 0, 0⟩

/-- A load of `Cmd::apply` for STATUS. -/
inductive Load
  | muted
  | volume
  | frames
  | delay
  | clients
  deriving DecidableEq

/-- In the order of the source. -/
def statusLoads : List Load := [.muted, .volume, .frames, .delay, .clients]

def Load.into (g : Shared) (st : Status) : Load → Status
  | .muted => { st with muted := g.mixer.muted }
  | .volume => { st with volume := g.mixer.volume }
  | .frames => { st with totalFrames := g.totalFrames }
  | .delay => { st with delayFrames := g.mixer.lastDelay }
  | .clients => { st with clients := g.mixer.live }

inductive ThreadEvent
  | read (bs : Bytes)
  | rejected
  | full (live : ℕ)
  | served
  | registered (id : ℕ) (cfg : AudioCfg)
  | applied (cmd : Cmd)
  | answered (status : Status)
  | mixer (e : Mixer.Event)

/-! ### One thread -/

/-- What a thread is reading. -/
inductive Field
  | len
  | op
  | volume
  | data (n : ℕ)

def Field.size : Field → ℕ
  | .len => 4
  | .op => 1
  | .volume => 4
  | .data n => n

/-- Most bytes of the next `read`. -/
def Field.most (f : Field) (got : Bytes) : ℕ :=
  match f with
  | .data n => min (n - got.length) readBufSz
  | f => f.size - got.length

inductive Progress
  | more (got : Bytes)
  | filled (field : Bytes)
  | failed

/-- `read_exact` goes on after an interruption, the loop over the data does not. -/
def Field.progress (f : Field) (got : Bytes) : Except ReadError Bytes → Progress
  | .ok [] => .failed
  | .ok (b :: bs) =>
    if (got ++ b :: bs).length < f.size then .more (got ++ b :: bs) else .filled (got ++ b :: bs)
  | .error .interrupted =>
    match f with
    | .data _ => .failed
    | _ => .more got
  | .error .other => .failed

/-- A registered client. -/
structure Stream (σ : Type*) where
  reader : Reader σ
  id : ℕ

/-- Where a thread is: `start` is the check of the peer, and a thread without a
configuration or a stream is `handle_control`. -/
inductive Thread (σ : Type*)
  | start (cfg : Option AudioCfg)
  | limit (cfg : AudioCfg)
  | register (cfg : AudioCfg)
  | poll (s : Stream σ)
  | read (s : Option (Stream σ)) (f : Field) (got : Bytes)
  | apply (s : Option (Stream σ)) (cmd : Cmd)
  | status (s : Option (Stream σ)) (todo : List Load) (st : Status)
  | push (s : Stream σ) (data : Bytes)
  | count (s : Stream σ) (frames : ℕ)
  | finish (id : ℕ)
  | done

/-- The top of its loop. -/
def Thread.turn {σ : Type*} : Option (Stream σ) → Thread σ
  | none => .read none .len []
  | some s => .poll s

/-- A `break`. -/
def Thread.leave {σ : Type*} : Option (Stream σ) → Thread σ
  | none => .done
  | some s => .finish s.id

/-- `Cmd::apply`, and `request_flush` for the FLUSH of a stream, as steps of the mixer's
state. -/
def applyInput (id : Option ℕ) : Cmd → Option Mixer.Input
  | .mute => some (.setMuted true)
  | .unmute => some (.setMuted false)
  | .flush => id.map .requestFlush
  | .volume bits => some (.setVolume (F32.clamp 0 100 (F32.ofBits bits)))
  | .status => none

section

variable {σ : Type*} [PackArith σ]

/-- What follows a field that has arrived. -/
def Thread.decode (s : Option (Stream σ)) (f : Field) (d : Bytes) : Option (Thread σ) :=
  match f with
  | .len =>
    if leVal d = 0 then some (.read s .op [])
    else match s with
      | none => some (.leave none)
      | some s => some (.read (some s) (.data (leVal d)) [])
  | .op =>
    if d.headD 0 = msgVolume then some (.read s .volume [])
    else match Cmd.read (d.headD 0) [] with
      | none => some (.leave s)
      | some (cmd, _) => some (.apply s cmd)
  | .volume => some (.apply s (.volume (leVal d)))
  | .data _ =>
    match s with
    | none => some (.leave none)
    | some s => (s.reader.chunk d).map fun (r, out) =>
      match out with
      | none => .poll { s with reader := r }
      | some data => .push { s with reader := r } data

def received : Except ReadError Bytes → List ThreadEvent
  | .ok (b :: bs) => [.read (b :: bs)]
  | _ => []

/-- A step of the mixer's state that a thread makes. -/
def Shared.mixed (g : Shared) (i : Mixer.Input) : Option (Shared × List ThreadEvent) :=
  (Mixer.step g.mixer i).map fun (m, es) => ({ g with mixer := m }, es.map .mixer)

/-- One step of the thread of a connection: `handle_control` and `reader_client`. -/
def Thread.step (δ : Type*) [WideArith δ] [FloatCasts δ σ] (u : Setup) (allowed : Bool)
    (g : Shared) (p : Peer) (a : Answer) :
    Thread σ → Option (Shared × Peer × Thread σ × List ThreadEvent)
  | .start cfg =>
    if allowed then
      match cfg with
      | none => some (g, p, .turn none, [.served])
      | some cfg => some (g, p, .limit cfg, [])
    else some (g, p, .done, [.rejected])
  | .limit cfg =>
    if u.maxClients ≤ g.mixer.live then some (g, p, .done, [.full g.mixer.live])
    else some (g, p, .register cfg, [.served])
  | .register cfg =>
    let id := g.mixer.registered
    some ({ g with mixer := g.mixer.register u.clientRingBytes }, p,
      .poll ⟨.new δ cfg u.mixRate u.resampler, id⟩, [.registered id cfg])
  | .poll s =>
    if g.shutdown then some (g, p, .leave (some s), [])
    else match a with
      | .bytes _ =>
        -- readable, or the 250 ms are over
        if p.unread = [] ∧ p.closed = false then some (g, p, .poll s, [])
        else some (g, p, .read (some s) .len [], [])
      | .error .interrupted => some (g, p, .poll s, [])
      | .error .other => some (g, p, .leave (some s), [])
  | .read s f got =>
    (p.read (f.most got) a).bind fun (r, p) =>
      match f.progress got r with
      | .more got => some (g, p, .read s f got, received r)
      | .filled d => (Thread.decode s f d).map fun th => (g, p, th, received r)
      | .failed => some (g, p, .leave s, [])
  | .apply s cmd =>
    match applyInput (s.map (·.id)) cmd with
    | none =>
      let th := if cmd = .status then .status s statusLoads .none else .turn s
      some (g, p, th, [.applied cmd])
    | some i => (g.mixed i).map fun (g, fs) => (g, p, .turn s, .applied cmd :: fs)
  | .status s todo st =>
    match todo with
    | l :: todo => some (g, p, .status s todo (l.into g st), [])
    | [] => some (g, p, .turn s, [.answered st])
  | .push s data =>
    (g.mixed (.push s.id data)).map fun (g, fs) => (g, p, .count s (data.length / 4), fs)
  | .count s frames =>
    some ({ g with totalFrames := (g.totalFrames + frames) % 2 ^ 64 }, p, .poll s, [])
  | .finish id => (g.mixed (.finish id)).map fun (g, fs) => (g, p, .done, fs)
  | .done => none

end

/-! ### The accept loop -/

/-- Where `run_server` is; `header` is `read_header_tolerant`. -/
inductive LoopPc
  | top
  | accept
  | header (c : ℕ) (got : Bytes) (deadline : ℕ)
  | stopped
  deriving DecidableEq

/-- The two seconds of `read_header_tolerant`, on the mixer's clock. -/
def headerNs : ℕ := 2000000000

structure Server (σ : Type*) where
  shared : Shared
  peers : ℕ → Option Peer
  threads : ℕ → Option (Thread σ)
  backlog : List ℕ
  loop : LoopPc

def Server.init {σ : Type*} (volume : F32) : Server σ :=
  ⟨⟨Mix.init volume, 0, false⟩, fun _ => none, fun _ => none, [], .top⟩

inductive Event
  | accepted (c : ℕ)
  | header (c : ℕ) (bs : Bytes)
  | dropped (c : ℕ)
  | thread (c : ℕ) (e : ThreadEvent)
  | mixer (e : Mixer.Event)

/-- What the peers do, the steps of the loop, of the threads and of the mixer, the clock
and the signal that ends the server. -/
inductive Input
  | connect (c : ℕ)
  | send (c : ℕ) (data : Bytes)
  | hangup (c : ℕ)
  | loop (a : Answer)
  | thread (c : ℕ) (a : Answer)
  | mix (delay : ℤ)
  | elapse (ns : ℕ)
  | signal

/-- The thread a header asks for, if it is one. -/
def dispatch (hdr : Bytes) : Option (Option AudioCfg) :=
  if leVal (hdr.take 4) = 0 then some none else (parseHeader hdr).map some

/-- What a `read` of a header comes to: where the loop goes, the thread it starts for the
connection, and what is seen of it. -/
structure HeaderRead where
  loop : LoopPc
  started : Option (Option AudioCfg)
  events : List Event

/-- The loop gives the connection up. -/
def HeaderRead.drop (c : ℕ) (es : List Event) : HeaderRead := ⟨.top, none, es ++ [.dropped c]⟩

/-- One `read` of `read_header_tolerant`, and what follows the last. -/
def headerRead (now c : ℕ) (got : Bytes) (deadline : ℕ) : Except ReadError Bytes → HeaderRead
  | .ok [] => .drop c []
  | .ok (b :: bs) =>
    let hdr := got ++ b :: bs
    if hdr.length < hdrSz then ⟨.header c hdr deadline, none, [.header c (b :: bs)]⟩
    else match dispatch hdr with
      | none => .drop c [.header c (b :: bs)]
      | some cfg => ⟨.top, some cfg, [.header c (b :: bs)]⟩
  | .error .interrupted =>
    if deadline < now then .drop c [] else ⟨.header c got deadline, none, []⟩
  | .error .other => .drop c []

namespace Server

variable {σ : Type*}

def setPeer (s : Server σ) (c : ℕ) (p : Peer) : Server σ :=
  { s with peers := Function.update s.peers c (some p) }

def start (s : Server σ) (c : ℕ) (cfg : Option AudioCfg) : Server σ :=
  { s with threads := Function.update s.threads c (some (.start cfg)) }

def loopStep (s : Server σ) (a : Answer) : Option (Server σ × List Event) :=
  match s.loop with
  | .top => some ({ s with loop := if s.shared.shutdown then .stopped else .accept }, [])
  | .accept =>
    match a, s.backlog with
    | .bytes _, c :: rest =>
      let deadline := s.shared.mixer.now + headerNs
      some ({ s with backlog := rest, loop := .header c [] deadline }, [.accepted c])
    | _, _ => some ({ s with loop := .top }, [])
  | .header c got deadline =>
    (s.peers c).bind fun p =>
    (p.read (hdrSz - got.length) a).map fun (r, p) =>
      let h := headerRead s.shared.mixer.now c got deadline r
      let s := h.started.elim (s.setPeer c p) ((s.setPeer c p).start c)
      ({ s with loop := h.loop }, h.events)
  | .stopped => none

def threadStep (δ : Type*) [PackArith σ] [WideArith δ] [FloatCasts δ σ] (u : Setup) (s : Server σ)
    (c : ℕ) (a : Answer) : Option (Server σ × List Event) :=
  (s.peers c).bind fun p =>
  (s.threads c).bind fun th =>
  (Thread.step δ u (u.allowed c) s.shared p a th).map fun (g, p, th, es) =>
    ({ s.setPeer c p with shared := g, threads := Function.update s.threads c (some th) },
      es.map (.thread c))

def step (δ : Type*) [PackArith σ] [WideArith δ] [FloatCasts δ σ] (u : Setup) (s : Server σ) :
    Input → Option (Server σ × List Event)
  | .connect c =>
    match s.peers c with
    | none => some ({ s.setPeer c ⟨[], false⟩ with backlog := s.backlog ++ [c] }, [])
    | some _ => none
  | .send c data =>
    (s.peers c).bind fun p =>
    if p.closed then none else some (s.setPeer c { p with unread := p.unread ++ data }, [])
  | .hangup c => (s.peers c).map fun p => (s.setPeer c { p with closed := true }, [])
  | .loop a => s.loopStep a
  | .thread c a => s.threadStep δ u c a
  | .mix delay =>
    let m := s.shared.mixer.mix delay
    some ({ s with shared := { s.shared with mixer := m.1 } }, m.2.map .mixer)
  | .elapse ns =>
    let m := s.shared.mixer
    some ({ s with shared := { s.shared with mixer := { m with now := m.now + ns } } }, [])
  | .signal => some ({ s with shared := { s.shared with shutdown := true } }, [])

def machine (δ : Type*) [PackArith σ] [WideArith δ] [FloatCasts δ σ] (u : Setup) :
    Machine (Server σ) Input Event := ⟨step δ u⟩

end Server

/-! ### The mixer's machine under the server -/

/-- The step of the mixer's state that a thread is about to make. -/
def Thread.Asks {σ : Type*} (u : Setup) (j : Mixer.Input) : Thread σ → Prop
  | .register _ => j = .register u.clientRingBytes
  | .apply s cmd => applyInput (s.map (·.id)) cmd = some j
  | .push s data => j = .push s.id data
  | .finish id => j = .finish id
  | _ => False

def Input.Asks {σ : Type*} (u : Setup) (s : Server σ) (j : Mixer.Input) : Input → Prop
  | .thread c _ => ∃ th, s.threads c = some th ∧ th.Asks u j
  | .mix delay => j = .mix delay
  | .elapse ns => j = .elapse ns
  | _ => False

section

variable {σ : Type*} [PackArith σ] {δ : Type*} [WideArith δ] [FloatCasts δ σ] {u : Setup}
  {s s' : Server σ} {es : List Event}

theorem threadStep_cases {c : ℕ} {a : Answer} (hs : s.threadStep δ u c a = some (s', es)) :
    ∃ p th g q th' fs, s.peers c = some p ∧ s.threads c = some th ∧
      Thread.step δ u (u.allowed c) s.shared p a th = some (g, q, th', fs) ∧
      s' = { s.setPeer c q with
        shared := g, threads := Function.update s.threads c (some th') } ∧
      es = fs.map (.thread c) := by
  obtain ⟨p, hp, hs⟩ := Option.bind_eq_some_iff.mp hs
  obtain ⟨th, hth, hs⟩ := Option.bind_eq_some_iff.mp hs
  obtain ⟨⟨g, q, th', fs⟩, hstep, hs⟩ := Option.map_eq_some_iff.mp hs
  cases hs
  exact ⟨p, th, g, q, th', fs, hp, hth, hstep, rfl, rfl⟩

/- The loop starts threads, and leaves those there are and what they share alone. -/
omit [PackArith σ] in
theorem loopStep_starts {s s' : Server σ} {es : List Event} {a : Answer}
    (hs : s.loopStep a = some (s', es)) :
    s'.shared = s.shared ∧
      ∀ c th, s'.threads c = some th → s.threads c = some th ∨ ∃ cfg, th = .start cfg := by
  unfold Server.loopStep at hs
  split at hs
  · cases hs
    exact ⟨rfl, fun _ _ => .inl⟩
  · split at hs <;> cases hs <;> exact ⟨rfl, fun _ _ => .inl⟩
  · rename_i c got deadline _
    obtain ⟨p, -, hs⟩ := Option.bind_eq_some_iff.mp hs
    obtain ⟨⟨r, q⟩, -, hs⟩ := Option.map_eq_some_iff.mp hs
    obtain ⟨rfl, -⟩ := Prod.mk.inj hs
    cases (headerRead s.shared.mixer.now c got deadline r).started with
    | none => exact ⟨rfl, fun _ _ => .inl⟩
    | some cfg =>
      refine ⟨rfl, fun d th hth => ?_⟩
      by_cases hd : d = c
      · subst hd
        have hnew : some (Thread.start cfg) = some th :=
          (Function.update_self d _ s.threads).symm.trans hth
        exact .inr ⟨cfg, (Option.some.inj hnew).symm⟩
      · exact .inl ((Function.update_of_ne hd _ s.threads).symm.trans hth)
  · cases hs

/-- Of a connection in the hands of the loop. -/
def Event.OfLoop : Event → Prop
  | .accepted _ | .header _ _ | .dropped _ => True
  | .thread _ _ | .mixer _ => False

omit [PackArith σ] in
theorem loopStep_ofLoop {s s' : Server σ} {es : List Event} {a : Answer}
    (hs : s.loopStep a = some (s', es)) : ∀ e ∈ es, e.OfLoop := by
  unfold Server.loopStep at hs
  split at hs
  · cases hs
    exact List.forall_mem_nil _
  · split at hs <;> cases hs
    · exact List.forall_mem_singleton.mpr trivial
    · exact List.forall_mem_nil _
  · obtain ⟨p, -, hs⟩ := Option.bind_eq_some_iff.mp hs
    obtain ⟨⟨r, q⟩, -, hs⟩ := Option.map_eq_some_iff.mp hs
    obtain ⟨-, rfl⟩ := Prod.mk.inj hs
    unfold headerRead
    dsimp only
    repeat' split
    all_goals simp [HeaderRead.drop, Event.OfLoop]
  · cases hs

theorem mixed_cases {g g' : Shared} {j : Mixer.Input} {fs : List ThreadEvent}
    (h : g.mixed j = some (g', fs)) :
    ∃ es, Mixer.step g.mixer j = some (g'.mixer, es) ∧ fs = es.map .mixer := by
  obtain ⟨⟨m, es⟩, hstep, h⟩ := Option.map_eq_some_iff.mp h
  cases h
  exact ⟨es, hstep, rfl⟩

/-- All but commands. -/
def ThreadEvent.Quiet : ThreadEvent → Prop
  | .applied _ => False
  | _ => True

theorem quiet_mixer (es : List Mixer.Event) : ∀ e ∈ es.map ThreadEvent.mixer, e.Quiet := by
  intro e he
  obtain ⟨f, -, rfl⟩ := List.mem_map.mp he
  trivial

section

variable {allowed : Bool} {g g' : Shared} {p p' : Peer} {a : Answer} {th' : Thread σ}
  {fs : List ThreadEvent}

theorem read_quiet {s : Option (Stream σ)} {f : Field} {got : Bytes}
    (hs : Thread.step δ u allowed g p a (.read s f got) = some (g', p', th', fs)) :
    g'.mixer = g.mixer ∧ ∀ e ∈ fs, e.Quiet := by
  obtain ⟨⟨r, q⟩, -, hs⟩ := Option.bind_eq_some_iff.mp hs
  have hreceived : ∀ e ∈ received r, e.Quiet := by
    unfold received
    split
    · exact List.forall_mem_singleton.mpr trivial
    · exact List.forall_mem_nil _
  dsimp only at hs
  split at hs
  · cases hs
    exact ⟨rfl, hreceived⟩
  · obtain ⟨_, -, hs⟩ := Option.map_eq_some_iff.mp hs
    cases hs
    exact ⟨rfl, hreceived⟩
  · cases hs
    exact ⟨rfl, List.forall_mem_nil _⟩

/-- What a step of a thread can do: it leaves the mixer alone, it applies a command, or it
makes another step of the mixer that it asks for. -/
theorem Thread.step_effect {th : Thread σ}
    (hs : Thread.step δ u allowed g p a th = some (g', p', th', fs)) :
    (g'.mixer = g.mixer ∧ ∀ e ∈ fs, e.Quiet) ∨
    (∃ s cmd, th = .apply s cmd ∧
      ((applyInput (s.map (·.id)) cmd = none ∧ g' = g ∧ fs = [.applied cmd]) ∨
        ∃ j es, applyInput (s.map (·.id)) cmd = some j ∧
          Mixer.step g.mixer j = some (g'.mixer, es) ∧ fs = .applied cmd :: es.map .mixer)) ∨
    ∃ j es, th.Asks u j ∧ (∀ s cmd, th ≠ .apply s cmd) ∧
      Mixer.step g.mixer j = some (g'.mixer, es) ∧ ∀ e ∈ fs, e.Quiet := by
  cases th with
  | register cfg =>
    cases hs
    exact .inr (.inr ⟨.register u.clientRingBytes, [], rfl, (fun _ _ h => by cases h), rfl,
      List.forall_mem_singleton.mpr trivial⟩)
  | apply s cmd =>
    simp only [Thread.step] at hs
    refine .inr (.inl ⟨s, cmd, rfl, ?_⟩)
    split at hs
    · rename_i hnone
      cases hs
      exact .inl ⟨hnone, rfl, rfl⟩
    · rename_i j hj
      obtain ⟨⟨g₁, fs₁⟩, hm, hs⟩ := Option.map_eq_some_iff.mp hs
      cases hs
      obtain ⟨es, hstep, rfl⟩ := mixed_cases hm
      exact .inr ⟨j, es, hj, hstep, rfl⟩
  | push s data =>
    obtain ⟨⟨g₁, fs₁⟩, hm, hs⟩ := Option.map_eq_some_iff.mp hs
    cases hs
    obtain ⟨es, hstep, rfl⟩ := mixed_cases hm
    exact .inr (.inr ⟨.push s.id data, es, rfl, (fun _ _ h => by cases h), hstep, quiet_mixer es⟩)
  | finish id =>
    obtain ⟨⟨g₁, fs₁⟩, hm, hs⟩ := Option.map_eq_some_iff.mp hs
    cases hs
    obtain ⟨es, hstep, rfl⟩ := mixed_cases hm
    exact .inr (.inr ⟨.finish id, es, rfl, (fun _ _ h => by cases h), hstep, quiet_mixer es⟩)
  | read s f got => exact .inl (read_quiet hs)
  | start _ | limit _ | poll _ | status _ _ _ | count _ _ | done =>
    left
    simp only [Thread.step] at hs
    repeat' split at hs
    all_goals
      cases hs
      try exact ⟨rfl, by simp [ThreadEvent.Quiet]⟩

/-- Nothing of a STATUS in a step: it answers none and turns to none. -/
def NoStatus (th' : Thread σ) (fs : List ThreadEvent) : Prop :=
  (∀ st, ThreadEvent.answered st ∉ fs) ∧ ∀ q todo st, th' ≠ .status q todo st

omit [PackArith σ] in
theorem turn_ne_status (r : Option (Stream σ)) (q : Option (Stream σ)) (todo : List Load)
    (st : Status) : Thread.turn r ≠ .status q todo st := by
  intro h
  cases r <;> cases h

omit [PackArith σ] in
theorem leave_ne_status (r : Option (Stream σ)) (q : Option (Stream σ)) (todo : List Load)
    (st : Status) : Thread.leave r ≠ .status q todo st := by
  intro h
  cases r <;> cases h

theorem mixed_no_answer {j : Mixer.Input} {g₁ : Shared} (hm : g.mixed j = some (g₁, fs))
    (st : Status) : ThreadEvent.answered st ∉ fs := by
  intro hmem
  obtain ⟨es, -, rfl⟩ := mixed_cases hm
  obtain ⟨e, -, he⟩ := List.mem_map.mp hmem
  cases he

theorem read_no_status {r : Option (Stream σ)} {f : Field} {got : Bytes}
    (hs : Thread.step δ u allowed g p a (.read r f got) = some (g', p', th', fs)) :
    NoStatus th' fs := by
  obtain ⟨⟨x, q⟩, -, hs⟩ := Option.bind_eq_some_iff.mp hs
  have hreceived : ∀ st, ThreadEvent.answered st ∉ received x := by
    intro st
    unfold received
    split <;> simp
  have hdecode : ∀ {f : Field} {d : Bytes} {th : Thread σ}, Thread.decode r f d = some th →
      ∀ q todo st, th ≠ .status q todo st := by
    intro f d th hd q todo st h
    subst h
    unfold Thread.decode at hd
    repeat' split at hd
    all_goals first
      | cases hd
      | exact absurd (Option.some.inj hd) (leave_ne_status _ _ _ _)
      | skip
    obtain ⟨⟨r', out⟩, -, hout⟩ := Option.map_eq_some_iff.mp hd
    cases out <;> cases hout
  dsimp only at hs
  split at hs
  · cases hs
    exact ⟨hreceived, fun q todo st h => by cases h⟩
  · obtain ⟨th₁, hth₁, hs⟩ := Option.map_eq_some_iff.mp hs
    cases hs
    exact ⟨hreceived, hdecode hth₁⟩
  · cases hs
    exact ⟨fun st => List.not_mem_nil, leave_ne_status r⟩

/-- What a STATUS comes to: its loads one after the other, and then its answer. -/
theorem Thread.step_status {th : Thread σ}
    (hs : Thread.step δ u allowed g p a th = some (g', p', th', fs)) :
    (∀ st, .answered st ∈ fs → ∃ q, th = .status q [] st) ∧
    ∀ q todo st, th' = .status q todo st →
      (th = .apply q .status ∧ g' = g ∧ todo = statusLoads ∧ st = .none ∧
          fs = [.applied .status]) ∨
        ∃ l st₀, th = .status q (l :: todo) st₀ ∧ g' = g ∧ st = l.into g st₀ ∧ fs = [] := by
  cases th with
  | status r todo st =>
    cases todo with
    | nil =>
      cases hs
      refine ⟨fun st' hst => ⟨r, ?_⟩, fun q todo st' h => absurd h (turn_ne_status r q todo st')⟩
      cases List.mem_singleton.mp hst
      rfl
    | cons l todo =>
      cases hs
      refine ⟨fun st' hst => (List.not_mem_nil hst).elim, fun q todo' st' h => ?_⟩
      cases h
      exact .inr ⟨l, st, rfl, rfl, rfl, rfl⟩
  | apply r cmd =>
    simp only [Thread.step] at hs
    split at hs
    · cases hs
      refine ⟨fun st hst => (by simp at hst), fun q todo st h => ?_⟩
      split at h
      · rename_i hcmd
        cases h
        subst hcmd
        exact .inl ⟨rfl, rfl, rfl, rfl, rfl⟩
      · exact absurd h (turn_ne_status r q todo st)
    · obtain ⟨⟨g₁, fs₁⟩, hm, hs⟩ := Option.map_eq_some_iff.mp hs
      cases hs
      refine ⟨fun st hst => ?_, fun q todo st h => absurd h (turn_ne_status r q todo st)⟩
      exact absurd ((List.mem_cons.mp hst).resolve_left ThreadEvent.noConfusion)
        (mixed_no_answer hm st)
  | push r data | finish id =>
    obtain ⟨⟨g₁, fs₁⟩, hm, hs⟩ := Option.map_eq_some_iff.mp hs
    cases hs
    exact ⟨fun st hst => absurd hst (mixed_no_answer hm st), fun q todo st h => by cases h⟩
  | read r f got =>
    obtain ⟨hnone, hthread⟩ := read_no_status hs
    exact ⟨fun st hst => absurd hst (hnone st), fun q todo st h => absurd h (hthread q todo st)⟩
  | start _ | limit _ | register _ | poll _ | count _ _ | done =>
    simp only [Thread.step] at hs
    repeat' split at hs
    all_goals
      cases hs
      try exact ⟨fun st hst => (by simp at hst), fun q todo st h => by cases h⟩

end

theorem Thread.step_mixer {allowed : Bool} {g g' : Shared} {p p' : Peer} {a : Answer}
    {th th' : Thread σ} {fs : List ThreadEvent}
    (hs : Thread.step δ u allowed g p a th = some (g', p', th', fs)) :
    g'.mixer = g.mixer ∨ ∃ j es, th.Asks u j ∧ Mixer.step g.mixer j = some (g'.mixer, es) := by
  rcases Thread.step_effect hs with ⟨h, -⟩ | ⟨s, cmd, rfl, hcmd⟩ | ⟨j, es, hj, -, hstep, -⟩
  · exact .inl h
  · rcases hcmd with ⟨-, rfl, -⟩ | ⟨j, es, hj, hstep, -⟩
    · exact .inl rfl
    · exact .inr ⟨j, es, hj, hstep⟩
  · exact .inr ⟨j, es, hj, hstep⟩

theorem Server.step_mixer {i : Input} (hs : s.step δ u i = some (s', es)) :
    s'.shared.mixer = s.shared.mixer ∨
      ∃ j fs, i.Asks u s j ∧ Mixer.step s.shared.mixer j = some (s'.shared.mixer, fs) := by
  cases i with
  | connect c =>
    simp only [Server.step] at hs
    split at hs <;> cases hs
    exact .inl rfl
  | send c data =>
    obtain ⟨p, -, hs⟩ := Option.bind_eq_some_iff.mp hs
    split at hs <;> cases hs
    exact .inl rfl
  | hangup c =>
    obtain ⟨p, -, hs⟩ := Option.map_eq_some_iff.mp hs
    cases hs
    exact .inl rfl
  | loop a => exact .inl (congrArg Shared.mixer (loopStep_starts hs).1)
  | thread c a =>
    obtain ⟨p, th, g, q, th', fs, -, hth, hstep, rfl, -⟩ := threadStep_cases hs
    rcases Thread.step_mixer hstep with h | ⟨j, fs, hj, hm⟩
    · exact .inl h
    · exact .inr ⟨j, fs, ⟨th, hth, hj⟩, hm⟩
  | mix delay =>
    obtain ⟨rfl, -⟩ := Prod.mk.inj (Option.some.inj hs)
    exact .inr ⟨.mix delay, _, rfl, rfl⟩
  | elapse ns =>
    obtain ⟨rfl, -⟩ := Prod.mk.inj (Option.some.inj hs)
    exact .inr ⟨.elapse ns, [], rfl, rfl⟩
  | signal =>
    cases hs
    exact .inl rfl

theorem Server.step_status {i : Input} (hs : s.step δ u i = some (s', es)) :
    (∀ c st, .thread c (.answered st) ∈ es → ∃ q, s.threads c = some (.status q [] st)) ∧
    ∀ c q todo st, s'.threads c = some (.status q todo st) →
      s.threads c = some (.status q todo st) ∨
      todo = statusLoads ∧ st = .none ∧ .thread c (.applied .status) ∈ es ∨
      ∃ l st₀, s.threads c = some (.status q (l :: todo) st₀) ∧ st = l.into s.shared st₀ := by
  have hkeep : s'.threads = s.threads → (∀ c f, .thread c f ∉ es) →
      (∀ c st, .thread c (.answered st) ∈ es → ∃ q, s.threads c = some (.status q [] st)) ∧
      ∀ c q todo st, s'.threads c = some (.status q todo st) →
        s.threads c = some (.status q todo st) ∨
        todo = statusLoads ∧ st = .none ∧ .thread c (.applied .status) ∈ es ∨
        ∃ l st₀, s.threads c = some (.status q (l :: todo) st₀) ∧ st = l.into s.shared st₀ :=
    fun hsame hnone => ⟨fun c st hmem => absurd hmem (hnone c _),
      fun c q todo st hth => .inl (hsame ▸ hth)⟩
  cases i with
  | connect c =>
    simp only [Server.step] at hs
    split at hs <;> cases hs
    exact hkeep rfl fun _ _ => List.not_mem_nil
  | send c data =>
    obtain ⟨p, -, hs⟩ := Option.bind_eq_some_iff.mp hs
    split at hs <;> cases hs
    exact hkeep rfl fun _ _ => List.not_mem_nil
  | hangup c =>
    obtain ⟨p, -, hs⟩ := Option.map_eq_some_iff.mp hs
    cases hs
    exact hkeep rfl fun _ _ => List.not_mem_nil
  | loop a =>
    refine ⟨fun c st hmem => (loopStep_ofLoop hs _ hmem).elim, fun c q todo st hth => .inl ?_⟩
    rcases (loopStep_starts hs).2 c _ hth with hold | ⟨cfg, hstart⟩
    · exact hold
    · cases hstart
  | thread d a =>
    obtain ⟨p, th, g, p', th', fs, -, hth, hstep, rfl, rfl⟩ := threadStep_cases hs
    obtain ⟨hanswered, hstatus⟩ := Thread.step_status hstep
    refine ⟨fun c st hmem => ?_, fun c q todo st hnew => ?_⟩
    · obtain ⟨f, hf, heq⟩ := List.mem_map.mp hmem
      cases heq
      obtain ⟨q, rfl⟩ := hanswered st hf
      exact ⟨q, hth⟩
    · by_cases hc : c = d
      · subst hc
        have hself : some th' = some (.status q todo st) :=
          (Function.update_self c _ s.threads).symm.trans hnew
        rcases hstatus q todo st (Option.some.inj hself) with
          ⟨-, -, htodo, hst, rfl⟩ | ⟨l, st₀, rfl, -, hst, -⟩
        · exact .inr (.inl ⟨htodo, hst, List.mem_map_of_mem (List.mem_singleton_self _)⟩)
        · exact .inr (.inr ⟨l, st₀, hth, hst⟩)
      · exact .inl ((Function.update_of_ne hc _ s.threads).symm.trans hnew)
  | mix delay =>
    obtain ⟨rfl, rfl⟩ := Prod.mk.inj (Option.some.inj hs)
    refine hkeep rfl fun c f hmem => ?_
    obtain ⟨e, -, he⟩ := List.mem_map.mp hmem
    cases he
  | elapse ns | signal =>
    cases hs
    exact hkeep rfl fun _ _ => List.not_mem_nil

end

end Audiod.Daemon
