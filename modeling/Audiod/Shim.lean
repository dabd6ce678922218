import Audiod.Machine
import Audiod.Protocol
import Audiod.Ring
import Audiod.Socket
import Mathlib.Algebra.Order.Field.Rat

/-!
# A PCM handle of the shim (`shim/src/lib.rs`)

The exported `snd_pcm_*` calls of one handle and its drain thread, one access to
something shared at a time: the process-wide flags, the ring, the counters, the
playhead, the socket. What only the calling thread touches changes along with
the access next to it.

A cell of the ring is a byte with a history variable: the number of drops that
had returned when it was written. The two `write_all` of `send_frame` are one
loop over the bytes of the frame; interrupted sends are retried and do not show.
-/

namespace Audiod.Shim

structure Cell where
  byte : Byte
  born : ℕ
  deriving DecidableEq, Inhabited

inductive PcmState
  | setup
  | prepared
  | running
  | paused
  deriving DecidableEq

/-- What the drain thread passes to `send_frame`. -/
inductive Frame
  | mute (cmd : Byte)
  | flush
  | pcm (cells : List Cell)
  deriving DecidableEq

def Frame.payload : Frame → Bytes
  | .mute cmd => [cmd]
  | .flush => [msgFlush]
  | .pcm cells => cells.map (·.byte)

/-- What a byte was sent as. -/
inductive Origin
  | header
  | frame
  deriving DecidableEq

/-- Where the application thread is inside a call. -/
inductive AppPc
  | idle
  | commitLoad
  | commitStash (fd : ℕ)
  | commitSend (fd : ℕ)
  | writeAnchor (data : Bytes)
  | writeSilent (data : Bytes)
  | writeMute (cmd : Byte) (data : Bytes)
  | writePush (data : Bytes)
  | writeAdd (n : ℕ)
  | dropClear
  | dropPushed
  | dropWritten
  | dropPlay
  | dropFlush
  | closeStop
  | closeInterrupt
  | closeJoin
  | closeFd
  | closed
  deriving DecidableEq

/-- Where the drain thread is; `rest` is what is left of the frame to be sent, and
the frame whose send has failed stays around during a reconnect. -/
inductive DrainPc
  | top
  | mute
  | flush
  | pop
  | send (fd : ℕ) (rest : Bytes) (f : Frame)
  | written (n : ℕ)
  | reSwap (f : Frame)
  | reClose (old : ℕ) (f : Frame)
  | reStop (f : Frame)
  | reConnect (f : Frame)
  | reHeader (fd : ℕ) (f : Frame)
  | reWritten (f : Frame)
  | rePushed (f : Frame)
  | rePlay (f : Frame)
  | done
  deriving DecidableEq

/-- In the loop, between two sends. -/
def DrainPc.Looping : DrainPc → Prop
  | .top | .mute | .flush | .pop => True
  | _ => False

/-- In `reconnect_audiod`. -/
def DrainPc.Reconnecting : DrainPc → Prop
  | .reSwap _ | .reClose _ _ | .reStop _ | .reConnect _ | .reHeader _ _ | .reWritten _
  | .rePushed _ | .rePlay _ => True
  | _ => False

/-- In `snd_pcm_drop` or `snd_pcm_close`. -/
def AppPc.Ending : AppPc → Prop
  | .dropClear | .dropPushed | .dropWritten | .dropPlay | .dropFlush | .closeStop
  | .closeInterrupt | .closeJoin | .closeFd => True
  | _ => False

structure Handle where
  sock : Option ℕ
  rate : ℕ
  channels : ℕ
  format : ℤ
  configured : Bool
  state : PcmState
  ring : Ring Cell
  drainStop : Bool
  totalPushed : ℕ
  totalWritten : ℕ
  playStart : Option ℚ
  header : Option (ℕ × ℕ × ℕ)
  drops : ℕ
  app : AppPc
  drain : DrainPc

/-- The statics of the library, the clock and the sockets. -/
structure Process where
  muteCmd : Byte
  lastSilent : Bool
  flushCmd : Bool
  clock : ℚ
  net : Net Origin

inductive Call
  | setFormat (fmt : ℤ)
  | setChannels (n : ℕ)
  | setRate (rate : ℕ)
  | hwParams
  | setParams (fmt : ℤ) (channels rate : ℕ)
  | writei (data : Bytes)
  | prepare
  | drain
  | drop
  | start
  | pause (on : Bool)
  | close

/-- What the kernel answers to the system call of a step. -/
inductive Answer
  | go
  | accept (k : ℕ)
  | error
  | connected (fd : ℕ)
  | refused
  deriving DecidableEq

inductive Input
  | call (c : Call)
  | app (a : Answer)
  | drain (a : Answer)

/-- `requested` and `raised` are stores to `MUTE_CMD` and `FLUSH_CMD`; `sending` is
the start of a `send_frame`, `sent` and `failed` its end. -/
inductive Event
  | requested (cmd : Byte)
  | raised
  | wrote (cells : List Cell)
  | sending (f : Frame)
  | sent (f : Frame)
  | failed (f : Frame)
  | reconnected
  | closed
  deriving DecidableEq

def Process.init : Process := ⟨0, false, false, 0, Net.init⟩

/-- After `snd_pcm_open`. -/
def Handle.opened (ringBytes fd : ℕ) : Handle :=
  ⟨some fd, 0, 0, 2, false, .setup, Ring.new ringBytes, false, 0, 0, none, none, 0, .idle, .top⟩

namespace Handle

/-- `h.format as u16` -/
def formatCode (h : Handle) : ℕ := (h.format % 65536).toNat

def frameBytes (h : Handle) : ℕ := pcmFormatBytes h.formatCode * h.channels

def headerOf (hd : ℕ × ℕ × ℕ) : Bytes := headerBytes hd.1 hd.2.1 hd.2.2

abbrev Outcome := (Process × Handle) × List Event

/-- `commit_configured`. -/
def commit (h : Handle) : Handle :=
  if h.rate = 0 ∨ h.channels = 0 ∨ h.configured = true then h else { h with app := .commitLoad }

/-- A call begins; the setters and those that touch no more than one shared thing
are over at once. -/
def call (p : Process) (h : Handle) : Call → Outcome
  | .setFormat fmt => ((p, { h with format := fmt }), [])
  | .setChannels n => ((p, { h with channels := n }), [])
  | .setRate rate => ((p, { h with rate := rate }), [])
  | .hwParams => ((p, h.commit), [])
  | .setParams fmt channels rate =>
    ((p, { h with format := fmt, channels := channels, rate := rate }.commit), [])
  | .writei data =>
    if h.configured = true ∧ h.channels ≠ 0 then ((p, { h with app := .writeAnchor data }), [])
    else ((p, h), [])
  | .prepare => ((p, { h with state := .prepared, playStart := none }), [])
  | .drain => ((p, { h with state := .prepared }), [])
  | .drop => ((p, { h with app := .dropClear }), [])
  | .start => ((p, { h with state := .running }), [])
  | .pause on =>
    if on then (({ p with flushCmd := true }, { h with state := .paused }), [.raised])
    else ((p, { h with state := .running }), [])
  | .close => ((p, { h with app := .closeStop }), [])

/-- The next step of the call under way. -/
def appStep (p : Process) (h : Handle) (a : Answer) : Option Outcome :=
  match h.app with
  | .idle | .closed => none
  | .commitLoad =>
    match h.sock with
    | none => some ((p, { h with app := .idle }), [])
    | some fd => some ((p, { h with app := .commitStash fd }), [])
  | .commitStash fd =>
    some ((p, { h with
      header := some (h.rate, h.channels, h.formatCode)
      app := .commitSend fd }), [])
  | .commitSend fd =>
    match a with
    | .accept k =>
      match p.net.accept fd .header (headerBytes h.rate h.channels h.formatCode) k with
      | none => none
      | some net =>
        if k = hdrSz then
          some (({ p with net := net },
            { h with configured := true, state := .prepared, app := .idle }), [])
        else some (({ p with net := net }, { h with app := .idle }), [])
    | .error => some ((p, { h with app := .idle }), [])
    | _ => none
  | .writeAnchor data =>
    some ((p, { h with playStart := h.playStart.or (some p.clock), app := .writeSilent data }), [])
  | .writeSilent data =>
    let silent := data.all (· = 0)
    let prev := p.lastSilent
    some (({ p with lastSilent := silent },
      { h with app :=
          if silent = true ∧ prev = false then .writeMute msgMute data
          else if silent = false ∧ prev = true then .writeMute msgUnmute data
          else .writePush data }), [])
  | .writeMute cmd data =>
    some (({ p with muteCmd := cmd }, { h with app := .writePush data }), [.requested cmd])
  | .writePush data =>
    match h.ring.push (data.map (⟨·, h.drops⟩)) with
    | none => none
    | some ring =>
      some ((p, { h with ring := ring, app := .writeAdd data.length }),
        [.wrote (data.map (⟨·, h.drops⟩))])
  | .writeAdd n => some ((p, { h with totalPushed := h.totalPushed + n, app := .idle }), [])
  | .dropClear => some ((p, { h with ring := h.ring.clear, app := .dropPushed }), [])
  | .dropPushed => some ((p, { h with totalPushed := 0, app := .dropWritten }), [])
  | .dropWritten => some ((p, { h with totalWritten := 0, app := .dropPlay }), [])
  | .dropPlay => some ((p, { h with playStart := none, app := .dropFlush }), [])
  | .dropFlush =>
    let h' := { h with state := .prepared, drops := h.drops + 1, app := .idle }
    if h.state = .running ∨ h.configured = true then
      some (({ p with flushCmd := true }, h'), [.raised])
    else some ((p, h'), [])
  | .closeStop => some ((p, { h with drainStop := true, app := .closeInterrupt }), [])
  | .closeInterrupt =>
    some ((p, { h with ring := h.ring.interrupt, app := .closeJoin }), [])
  | .closeJoin => if h.drain = .done then some ((p, { h with app := .closeFd }), []) else none
  | .closeFd =>
    match h.sock with
    | none => some ((p, { h with app := .closed }), [.closed])
    | some fd =>
      some (({ p with net := p.net.close fd }, { h with sock := none, app := .closed }), [.closed])

/-- After a frame that could not be sent and a reconnect. -/
def resume : Frame → DrainPc
  | .mute _ => .flush
  | .flush => .pop
  | .pcm _ => .top

/-- After a frame that was sent. -/
def next : Frame → DrainPc
  | .mute _ => .flush
  | .flush => .pop
  | .pcm cells => .written cells.length

/-- `send_frame` on the descriptor just loaded, or `skip` if there is none. -/
def trySend (p : Process) (h : Handle) (f : Frame) (skip : DrainPc) : Outcome :=
  match h.sock with
  | none => ((p, { h with drain := skip }), [])
  | some fd => ((p, { h with drain := .send fd (sendFrame f.payload) f }), [.sending f])

/-- The next step of the drain thread, of `reconnect_audiod` from `reSwap` on. -/
def drainStep (p : Process) (h : Handle) (a : Answer) : Option Outcome :=
  match h.drain with
  | .top => some ((p, { h with drain := if h.drainStop then .done else .mute }), [])
  | .mute =>
    if p.muteCmd = 0 then some ((p, { h with drain := .flush }), [])
    else some (h.trySend { p with muteCmd := 0 } (.mute p.muteCmd) .flush)
  | .flush =>
    if p.flushCmd then some (h.trySend { p with flushCmd := false } .flush .pop)
    else some ((p, { h with drain := .pop }), [])
  | .pop =>
    match h.ring.pop drainChunk with
    | none => none
    | some ([], ring) => some ((p, { h with ring := ring, drain := .top }), [])
    | some (c :: cs, ring) => some ({ h with ring := ring }.trySend p (.pcm (c :: cs)) .top)
  | .send fd rest f =>
    match a with
    | .accept k =>
      match p.net.accept fd .frame rest k with
      | none => none
      | some net =>
        if rest.length ≤ k then
          some (({ p with net := net }, { h with drain := next f }), [.sent f])
        else some (({ p with net := net }, { h with drain := .send fd (rest.drop k) f }), [])
    | .error => some ((p, { h with drain := .reSwap f }), [.failed f])
    | _ => none
  | .written n => some ((p, { h with totalWritten := h.totalWritten + n, drain := .top }), [])
  | .reSwap f =>
    match h.sock with
    | none => some ((p, { h with drain := .reStop f }), [])
    | some old => some ((p, { h with sock := none, drain := .reClose old f }), [])
  | .reClose old f =>
    some (({ p with net := p.net.close old }, { h with drain := .reStop f }), [])
  | .reStop f => some ((p, { h with drain := if h.drainStop then .done else .reConnect f }), [])
  | .reConnect f =>
    match a with
    | .connected fd =>
      match p.net.connect fd with
      | none => none
      | some net =>
        some (({ p with net := net }, { h with sock := some fd, drain := .reHeader fd f }), [])
    | .refused => some ((p, { h with drain := .reStop f }), [])
    | _ => none
  | .reHeader fd f =>
    match h.header with
    | none => some ((p, { h with drain := .reWritten f }), [])
    | some hd =>
      match a with
      | .accept k =>
        match p.net.accept fd .header (headerOf hd) k with
        | none => none
        | some net => some (({ p with net := net }, { h with drain := .reWritten f }), [])
      | .error => some ((p, { h with drain := .reWritten f }), [])
      | _ => none
  | .reWritten f => some ((p, { h with totalWritten := 0, drain := .rePushed f }), [])
  | .rePushed f => some ((p, { h with totalPushed := 0, drain := .rePlay f }), [])
  | .rePlay f => some ((p, { h with playStart := none, drain := resume f }), [.reconnected])
  | .done => none

/-- The fields that belong to the calling thread. -/
def callerSide (h : Handle) :
    ℕ × ℕ × ℤ × Bool × PcmState × Bool × Option (ℕ × ℕ × ℕ) × ℕ × AppPc :=
  (h.rate, h.channels, h.format, h.configured, h.state, h.drainStop, h.header, h.drops, h.app)

theorem trySend_frame {p p' : Process} {h h' : Handle} {f : Frame} {skip : DrainPc}
    {es : List Event} (hs : h.trySend p f skip = ((p', h'), es)) :
    h'.callerSide = h.callerSide ∧ p' = p ∧ h'.ring = h.ring := by
  unfold trySend at hs
  split at hs <;> cases hs <;> exact ⟨rfl, rfl, rfl⟩

/- The drain thread leaves them alone, and the clock; of the ring it only pops. -/
theorem drainStep_frame {p p' : Process} {h h' : Handle} {a : Answer} {es : List Event}
    (hs : h.drainStep p a = some ((p', h'), es)) :
    h'.callerSide = h.callerSide ∧ p'.clock = p.clock ∧
      (h'.ring = h.ring ∨ ∃ d, h.ring.pop drainChunk = some (d, h'.ring)) := by
  unfold drainStep at hs
  cases hpc : h.drain <;> rw [hpc] at hs <;> dsimp only at hs
  case top | written n | reClose old f | reStop f | reWritten f | rePushed f | rePlay f =>
    cases hs
    exact ⟨rfl, rfl, .inl rfl⟩
  case mute =>
    split at hs
    · cases hs
      exact ⟨rfl, rfl, .inl rfl⟩
    · obtain ⟨hside, hp, hring⟩ := trySend_frame (Option.some.inj hs)
      exact ⟨hside, congrArg (·.clock) hp, .inl hring⟩
  case flush =>
    split at hs
    · obtain ⟨hside, hp, hring⟩ := trySend_frame (Option.some.inj hs)
      exact ⟨hside, congrArg (·.clock) hp, .inl hring⟩
    · cases hs
      exact ⟨rfl, rfl, .inl rfl⟩
  case pop =>
    split at hs
    · cases hs
    · rename_i hpop
      cases hs
      exact ⟨rfl, rfl, .inr ⟨_, hpop⟩⟩
    · rename_i hpop
      obtain ⟨hside, hp, hring⟩ := trySend_frame (Option.some.inj hs)
      exact ⟨hside, congrArg (·.clock) hp, .inr ⟨_, hpop.trans (by rw [hring])⟩⟩
  case send fd rest f =>
    split at hs
    · split at hs
      · cases hs
      · split at hs <;> cases hs <;> exact ⟨rfl, rfl, .inl rfl⟩
    · cases hs
      exact ⟨rfl, rfl, .inl rfl⟩
    · cases hs
  case reSwap f =>
    split at hs <;> cases hs <;> exact ⟨rfl, rfl, .inl rfl⟩
  case reConnect f =>
    split at hs
    · split at hs <;> cases hs
      exact ⟨rfl, rfl, .inl rfl⟩
    · cases hs
      exact ⟨rfl, rfl, .inl rfl⟩
    · cases hs
  case reHeader fd f =>
    split at hs
    · cases hs
      exact ⟨rfl, rfl, .inl rfl⟩
    · split at hs
      · split at hs <;> cases hs
        exact ⟨rfl, rfl, .inl rfl⟩
      · cases hs
        exact ⟨rfl, rfl, .inl rfl⟩
      · cases hs
  case done => cases hs

end Handle

/-- One step of a handle. The caller uses a handle from one thread, and not after
it has been closed. -/
def step (p : Process) (h : Handle) : Input → Option Handle.Outcome
  | .call c => if h.app = .idle then some (h.call p c) else none
  | .app a => h.appStep p a
  | .drain a => h.drainStep p a

/-! ### All handles of a process -/

structure World where
  proc : Process
  handles : ℕ → Option Handle
  opened : ℕ

inductive Action
  | open (ringBytes fd : ℕ)
  | handle (i : ℕ) (x : Input)
  | hangup (c : ℕ)
  | elapse (dt : ℚ)

def World.init : World := ⟨Process.init, fun _ => none, 0⟩

/-- An event with the handle it belongs to. -/
def World.step (w : World) : Action → Option (World × List (ℕ × Event))
  | .open ringBytes fd =>
    match w.proc.net.connect fd with
    | none => none
    | some net =>
      some ({ proc := { w.proc with net := net }
              handles := Function.update w.handles w.opened (some (Handle.opened ringBytes fd))
              opened := w.opened + 1 }, [])
  | .handle i x =>
    match w.handles i with
    | none => none
    | some h =>
      match Shim.step w.proc h x with
      | none => none
      | some ((p, h'), es) =>
        some ({ w with proc := p, handles := Function.update w.handles i (some h') },
          es.map (i, ·))
  | .hangup c => some ({ w with proc := { w.proc with net := w.proc.net.hangup c } }, [])
  | .elapse dt =>
    if 0 ≤ dt then some ({ w with proc := { w.proc with clock := w.proc.clock + dt } }, [])
    else none

def world : Machine World Action (ℕ × Event) := ⟨World.step⟩

/-- What a step of the process can do to its handles. -/
inductive HandleStep (w w' : World) (es : List (ℕ × Event)) : Action → Prop
  | opened (ringBytes fd : ℕ) (hhandles : w'.handles =
      Function.update w.handles w.opened (some (Handle.opened ringBytes fd))) :
      HandleStep w w' es (.open ringBytes fd)
  | stepped (i : ℕ) (y : Input) (h h' : Handle) (fs : List Event) (hh : w.handles i = some h)
      (hstep : Shim.step w.proc h y = some ((w'.proc, h'), fs))
      (hhandles : w'.handles = Function.update w.handles i (some h')) (hes : es = fs.map (i, ·)) :
      HandleStep w w' es (.handle i y)
  | hangup (c : ℕ) (hhandles : w'.handles = w.handles) : HandleStep w w' es (.hangup c)
  | elapse (dt : ℚ) (hhandles : w'.handles = w.handles) : HandleStep w w' es (.elapse dt)

theorem handleStep_of_step {w w' : World} {x : Action} {es : List (ℕ × Event)}
    (hs : w.step x = some (w', es)) : HandleStep w w' es x := by
  cases x with
  | «open» ringBytes fd =>
    simp only [World.step] at hs
    split at hs <;> cases hs
    exact .opened ringBytes fd rfl
  | handle i y =>
    simp only [World.step] at hs
    split at hs
    · cases hs
    · rename_i h hh
      split at hs
      · cases hs
      · rename_i p' h' fs hstep
        cases hs
        exact .stepped i y h h' fs hh hstep rfl rfl
  | hangup c =>
    cases hs
    exact .hangup c rfl
  | elapse dt =>
    simp only [World.step] at hs
    split at hs <;> cases hs
    exact .elapse dt rfl

/-- The rule for a property of every handle: `Q` holds after a step of the process if an
open gives it, the step of a handle makes it out of `P`, and the other handles keep it. -/
theorem forall_handles_of_step {P Q : ℕ → Handle → Prop} {w w' : World} {x : Action}
    {es : List (ℕ × Event)} (hs : w.step x = some (w', es))
    (hold : ∀ i h, w.handles i = some h → P i h)
    (hkeep : ∀ i h, P i h → (∀ y, x ≠ .handle i y) → Q i h)
    (hopen : ∀ ringBytes fd, x = .open ringBytes fd → Q w.opened (Handle.opened ringBytes fd))
    (hstep : ∀ i y h h' fs, x = .handle i y → w.handles i = some h → P i h →
      Shim.step w.proc h y = some ((w'.proc, h'), fs) → Q i h') :
    ∀ i h, w'.handles i = some h → Q i h := by
  intro i g hg
  cases handleStep_of_step hs with
  | opened ringBytes fd hhandles =>
    rw [hhandles, Function.update_apply] at hg
    split at hg
    · rename_i hi
      cases hg
      exact hi ▸ hopen ringBytes fd rfl
    · exact hkeep i g (hold i g hg) nofun
  | stepped j y h h' fs hh hy hhandles hes =>
    rw [hhandles, Function.update_apply] at hg
    split at hg
    · rename_i hi
      cases hg
      exact hi ▸ hstep j y h _ fs rfl hh (hold j h hh) hy
    · rename_i hi
      refine hkeep i g (hold i g hg) fun y' heq => hi ?_
      cases heq
      rfl
  | hangup c hhandles | elapse dt hhandles =>
    rw [hhandles] at hg
    exact hkeep i g (hold i g hg) nofun

end Audiod.Shim
