import Audiod.Circular
import Audiod.Machine

/-!
# Codec commands (`hda/src/corb.rs`, `hda/src/controller.rs`)

`Controller::cmd` sends a verb through the CORB and waits for its response in
the RIRB; after three timeouts in a row, or a ring error, it degrades to the
immediate command registers. One step is one register or ring access of the
driver, or one of the controller and the codecs: they answer every fetched verb
once, in order, after any delay.

The CORB and the RIRB share one page in the source (bytes 0 and 1024); here they
are two memories. A verb in flight carries the number of the call it belongs to,
which no one reads.
-/

namespace Audiod.Corb

abbrev U32 := BitVec 32

structure Verb where
  id : ℕ
  word : U32
  deriving DecidableEq

def makeVerb (cad nid verb payload : U32) : U32 :=
  (cad &&& 0xf#32) <<< 28 ||| (nid &&& 0xff#32) <<< 20 ||| (verb &&& 0xfff#32) <<< 8 |||
    (payload &&& 0xffff#32)

def rirbExUnsol : U32 := 1#32 <<< 4

def rirbExCadMask : U32 := 0xf#32

def corbTimeoutLimit : ℕ := 3

/-- The entry counts `program_size` can settle on. -/
inductive RingSize
  | n256
  | n16
  | n2

def RingSize.entries : RingSize → ℕ
  | .n256 => 256
  | .n16 => 16
  | .n2 => 2

inductive Route
  | solicited (resp : U32)
  | unsolicited (resp ex : U32)
  | foreign (seen resp : U32)
  deriving DecidableEq

def routeEntry (resp ex cad : U32) : Route :=
  let seen := ex &&& rirbExCadMask
  if ex &&& rirbExUnsol ≠ 0#32 then .unsolicited resp ex
  else if seen ≠ cad then .foreign seen resp
  else .solicited resp

def Route.answer : Route → Option U32
  | .solicited r => some r
  | .unsolicited _ _ | .foreign _ _ => none

/-- The `while` loop of `collect_entries`. -/
def collectFrom {α : Type*} (read : ℕ → α) (hwWp count : ℕ) : ℕ → ℕ → List α
  | 0, _ => []
  | fuel + 1, rp =>
    if rp = hwWp then []
    else read ((rp + 1) % count) :: collectFrom read hwWp count fuel ((rp + 1) % count)

def collectEntries {α : Type*} (read : ℕ → α) (swRp hwWp count : ℕ) : List α :=
  collectFrom read hwWp count count swRp

theorem collectFrom_eq {α : Type*} (read : ℕ → α) {hwWp count : ℕ} (hw : hwWp < count) (fuel rp : ℕ)
    (hr : rp < count) (hfuel : (hwWp + count - rp) % count ≤ fuel) :
    collectFrom read hwWp count fuel rp = between count read rp hwWp := by
  have hc : 0 < count := by omega
  induction fuel generalizing rp with
  | zero =>
    rw [collectFrom, between, Nat.le_zero.mp hfuel, ringLoad_zero]
  | succ fuel ih =>
    rw [collectFrom]
    split
    · rename_i heq
      rw [heq, between_self]
    · rename_i hne
      have hcons := between_of_ne read hr hw hne
      have hlen := congrArg List.length hcons
      simp only [between, ringLoad_length, List.length_cons] at hlen
      rw [hcons, ih ((rp + 1) % count) (Nat.mod_lt _ hc) (by omega)]

/- The loop ends within one turn of the ring. -/
theorem collectEntries_eq {α : Type*} (read : ℕ → α) {swRp hwWp count : ℕ} (hr : swRp < count)
    (hw : hwWp < count) : collectEntries read swRp hwWp count = between count read swRp hwWp :=
  collectFrom_eq read hw count swRp hr (Nat.le_of_lt (Nat.mod_lt _ (by omega)))

inductive Err
  | wouldBlock
  | wpOutside
  | timedOut
  deriving DecidableEq

inductive Engine
  | corb
  | pio
  deriving DecidableEq

/-- Where the driver is inside `verb_raw`. -/
inductive Phase
  | idle
  | send
  | poll
  | drain (hwWp : ℕ)
  | deadline
  | pioSpin (spins : ℕ)
  | pioClear
  | pioIc
  | pioRead
  | pioSet (irsValid : Bool)
  | pioPoll
  | pioIr
  | pioDeadline

/-- The controller and the codec link. `link` holds the verbs fetched and not yet
answered; `running` stands for the run bits of CORBCTL and RIRBCTL. -/
structure Hw where
  corb : ℕ → Verb
  corbWp : ℕ
  corbRp : ℕ
  rirb : ℕ → U32 × U32
  rirbWp : ℕ
  running : Bool
  ic : Verb
  ir : U32
  irsValid : Bool
  irsBusy : Bool
  link : List Verb

structure Controller where
  hw : Hw
  count : ℕ
  swRp : ℕ
  pending : List U32
  engine : Engine
  corbTimeouts : ℕ
  pioFallbackDone : Bool
  phase : Phase
  calls : ℕ
  cmdword : Verb
  cad : U32

inductive Event
  | answered (id : ℕ) (r : U32)
  | returned (id : ℕ) (r : Except Err U32)

/-- `drive` is the driver's next access; `expired` is what it reads off its
clock. The others are a call, a RIRBWP that reads outside the ring, a CORB
fetch, the answer to the oldest fetched verb, the loss of one that comes back
after the ring engines have stopped, and an unsolicited entry. -/
inductive Input
  | cmd (cad nid verb payload : U32)
  | drive (expired : Bool)
  | wpOutside (reg : ℕ)
  | fetch
  | answer (r ex : U32)
  | lose
  | unsolicited (r ex : U32)

def Hw.init : Hw :=
  ⟨fun _ => ⟨0, 0#32⟩, 0, 0, fun _ => (0#32, 0#32), 0, false, ⟨0, 0#32⟩, 0#32, false, false, []⟩

/-- After `init_cmd_engine`. -/
def init (size : RingSize) : Engine → Controller
  | .corb => ⟨{ Hw.init with running := true }, size.entries, 0, [], .corb, 0, false, .idle, 0,
      ⟨0, 0#32⟩, 0#32⟩
  | .pio => ⟨Hw.init, size.entries, 0, [], .pio, 0, true, .idle, 0, ⟨0, 0#32⟩, 0#32⟩

namespace Controller

def ret (c : Controller) (r : Except Err U32) : Controller × List Event :=
  ({ c with phase := .idle }, [.returned c.cmdword.id r])

def degradeToPio (c : Controller) : Controller :=
  { c with
    hw.running := false
    engine := .pio
    corbTimeouts := 0
    pioFallbackDone := true }

/-- `verb_raw` once `corb_verb` has returned. -/
def corbOk (c : Controller) (r : U32) : Controller × List Event :=
  { c with corbTimeouts := 0 }.ret (.ok r)

def corbErr (c : Controller) : Err → Controller × List Event
  | .timedOut =>
    let c := { c with corbTimeouts := c.corbTimeouts + 1 }
    if corbTimeoutLimit ≤ c.corbTimeouts ∧ c.pioFallbackDone = false then
      ({ c.degradeToPio with phase := .pioSpin 50 }, [])
    else c.ret (.error .timedOut)
  | e =>
    if c.pioFallbackDone = false then ({ c.degradeToPio with phase := .pioSpin 50 }, [])
    else c.ret (.error e)

/-- `pending.pop_front` of `wait_response`, with what follows when it is empty. -/
def popPending (c : Controller) (next : Phase) : Controller × List Event :=
  match c.pending with
  | r :: rest => { c with pending := rest }.corbOk r
  | [] => ({ c with phase := next }, [])

def send (c : Controller) : Controller × List Event :=
  let next := (c.hw.corbWp + 1) % c.count
  if next = c.hw.corbRp then c.corbErr .wouldBlock
  else
    { c with
      hw.corb := Function.update c.hw.corb next c.cmdword
      hw.corbWp := next }.popPending .poll

def unread (c : Controller) : List (U32 × U32) :=
  collectEntries c.hw.rirb c.swRp c.hw.rirbWp c.count

def drain (c : Controller) (hwWp : ℕ) : Controller × List Event :=
  let entries := collectEntries c.hw.rirb c.swRp hwWp c.count
  { c with
    swRp := hwWp
    pending := c.pending ++ entries.filterMap fun e : U32 × U32 => (routeEntry e.1 e.2 c.cad).answer
    }.popPending .deadline

def drive (c : Controller) (expired : Bool) : Controller × List Event :=
  match c.phase with
  | .idle => (c, [])
  | .send => c.send
  | .poll =>
    if c.hw.rirbWp = c.swRp then ({ c with phase := .deadline }, [])
    else ({ c with phase := .drain c.hw.rirbWp }, [])
  | .drain hwWp => c.drain hwWp
  | .deadline => if expired then c.corbErr .timedOut else ({ c with phase := .poll }, [])
  | .pioSpin spins =>
    if c.hw.irsBusy then
      if spins = 0 then c.ret (.error .timedOut) else ({ c with phase := .pioSpin (spins - 1) }, [])
    else ({ c with phase := .pioClear }, [])
  | .pioClear => ({ c with hw.irsValid := false, phase := .pioIc }, [])
  | .pioIc => ({ c with hw.ic := c.cmdword, phase := .pioRead }, [])
  | .pioRead => ({ c with phase := .pioSet c.hw.irsValid }, [])
  -- IRV is cleared by writing a one to it: by this write if it was read as set.
  | .pioSet irsValid =>
    ({ c with
      hw.irsValid := c.hw.irsValid && !irsValid
      hw.irsBusy := true
      hw.link := c.hw.link ++ [c.hw.ic]
      phase := .pioPoll }, [])
  | .pioPoll =>
    if c.hw.irsValid then ({ c with phase := .pioIr }, [])
    else ({ c with phase := .pioDeadline }, [])
  | .pioIr => c.ret (.ok c.hw.ir)
  | .pioDeadline =>
    if expired then c.ret (.error .timedOut) else ({ c with phase := .pioPoll }, [])

def cmd (c : Controller) (cad nid verb payload : U32) : Option (Controller × List Event) :=
  match c.phase with
  | .idle =>
    some ({ c with
      calls := c.calls + 1
      cmdword := ⟨c.calls + 1, makeVerb cad nid verb payload⟩
      cad := cad
      phase := match c.engine with
        | .corb => .send
        | .pio => .pioSpin 50 }, [])
  | _ => none

/-- The RIRB DMA writes an entry. -/
def writeEntry (c : Controller) (e : U32 × U32) : Controller :=
  let wp := (c.hw.rirbWp + 1) % c.count
  { c with hw.rirb := Function.update c.hw.rirb wp e, hw.rirbWp := wp }

/-- The entry of a solicited response carries the address of the verb's codec. -/
def Tagged (v : Verb) (ex : U32) : Prop :=
  ex &&& rirbExUnsol = 0#32 ∧ ex &&& rirbExCadMask = v.word >>> 28

instance (v : Verb) (ex : U32) : Decidable (Tagged v ex) := inferInstanceAs (Decidable (_ ∧ _))

def answer (c : Controller) (r ex : U32) : Option (Controller × List Event) :=
  match c.hw.link with
  | [] => none
  | v :: rest =>
    let c := { c with hw.link := rest }
    if c.hw.running then
      if Tagged v ex then some (c.writeEntry (r, ex), [.answered v.id r]) else none
    else
      some ({ c with hw.ir := r, hw.irsValid := true, hw.irsBusy := false }, [.answered v.id r])

end Controller

def step (c : Controller) : Input → Option (Controller × List Event)
  | .cmd cad nid verb payload => c.cmd cad nid verb payload
  | .drive expired => some (c.drive expired)
  | .wpOutside reg =>
    match c.phase with
    | .poll => if c.count ≤ reg % 256 then some (c.corbErr .wpOutside) else none
    | _ => none
  | .fetch =>
    if c.hw.running ∧ c.hw.corbRp ≠ c.hw.corbWp then
      let rp := (c.hw.corbRp + 1) % c.count
      some ({ c with hw.corbRp := rp, hw.link := c.hw.link ++ [c.hw.corb rp] }, [])
    else none
  | .answer r ex => c.answer r ex
  | .lose =>
    match c.hw.running, c.hw.link with
    | false, _ :: rest => some ({ c with hw.link := rest }, [])
    | _, _ => none
  | .unsolicited r ex =>
    if c.hw.running ∧ ex &&& rirbExUnsol ≠ 0#32 then some (c.writeEntry (r, ex), []) else none

def machine : Machine Controller Input Event := ⟨step⟩

end Audiod.Corb
