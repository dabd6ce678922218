import Audiod.Footprint
import Audiod.Handler
import Audiod.RingStart

/-!
# How a verb travels (`hda/src/controller.rs:238-353`, `corb.rs:98-262`)

`verb_raw` at its registers and in the page of the rings, for every device. A session is
that of `HdaPlayback` with every verb handled so. The rings and the immediate command
registers are never in use together, no command is latched by a busy interface, and the
session is one of `HdaPlayback` all the same.
-/

namespace Audiod.Driver

open Dialogue

def ic : ℕ := 0x60
def ir : ℕ := 0x64

/-- What the driver asks, with the two accesses to the page of the rings: a word put into
the CORB, an entry taken from the RIRB. -/
inductive LinkOp
  | io (o : Op)
  | ringWrite (off : ℕ) (word : U32)
  | ringRead (off : ℕ)

@[reducible] def LinkOp.Ans : LinkOp → Type
  | .io o => o.Ans
  | .ringWrite _ _ => Unit
  | .ringRead _ => U32 × U32

abbrev LinkProg := Dialogue LinkOp LinkOp.Ans IoError

abbrev LinkEnv := Dialogue.Env LinkOp.Ans

abbrev LinkHistory := Dialogue.History LinkOp.Ans

/-- A live `CorbRing`. -/
structure RingState where
  ring : CorbRing
  swRp : ℕ
  pending : List U32

/-- What `Controller` keeps between verbs. -/
structure Transport where
  engine : Option RingState
  corbTimeouts : ℕ
  pioFallbackDone : Bool

namespace Transport

def io (o : Op) : LinkProg o.Ans := .ask (.io o) .done

/-! ### The rings (`corb.rs`) -/

/-- A pointer register, in entries. -/
def pointer (v : U16) : ℕ := (v &&& 0xff#16).toNat

def send (s : RingState) (cmdword : U32) : LinkProg (Except Corb.Err Unit) := do
  let wp ← io (.readU16 corbwp)
  let rp ← io (.readU16 corbrp)
  let next := (pointer wp % s.ring.count + 1) % s.ring.count
  if next = pointer rp % s.ring.count then pure (.error .wouldBlock)
  else do
    .ask (.ringWrite (next * 4) cmdword) .done
    io (.writeU16 corbwp (BitVec.ofNat 16 next))
    pure (.ok ())

/-- The closure `collect_entries` reads with, over the entries it visits. -/
def readEntries : List ℕ → LinkProg (List (U32 × U32))
  | [] => pure []
  | i :: is => do
    let e ← (.ask (.ringRead (rirbOff + i * 8)) .done : LinkProg (U32 × U32))
    let es ← readEntries is
    pure (e :: es)

/-- `pending.pop_front` -/
def pop (s : RingState) : RingState × Option (Except Corb.Err U32) :=
  match s.pending with
  | [] => (s, none)
  | r :: rest => ({ s with pending := rest }, some (.ok r))

def drain (s : RingState) (cad : U32) (hwWp : ℕ) : LinkProg RingState := do
  let entries ← readEntries (Corb.collectEntries id s.swRp hwWp s.ring.count)
  pure { s with
    swRp := hwWp
    pending := s.pending ++ entries.filterMap fun e => (Corb.routeEntry e.1 e.2 cad).answer }

/-- The body of the loop of `wait_response`; `none` goes on. -/
def poll (s : RingState) (cad : U32) : LinkProg (RingState × Option (Except Corb.Err U32)) := do
  let v ← io (.readU16 rirbwp)
  let hwWp := pointer v
  if s.ring.count ≤ hwWp then pure (s, some (.error .wpOutside))
  else if hwWp = s.swRp then pure (s, none)
  else do
    let s ← drain s cad hwWp
    pure (pop s)

def pollFor (cad : U32) : ℕ → RingState → LinkProg (RingState × Except Corb.Err U32)
  | 0, s => do
    let x ← poll s cad
    pure (x.1, x.2.getD (.error .timedOut))
  | n + 1, s => do
    let x ← poll s cad
    match x.2 with
    | some r => pure (x.1, r)
    | none => pollFor cad n x.1

def waitResponse (s : RingState) (cad : U32) : LinkProg (RingState × Except Corb.Err U32) :=
  match pop s with
  | (s, some r) => pure (s, r)
  | (s, none) => do
    let n ← io .polls
    pollFor cad n s

def shutdown : LinkProg Unit := do
  io (.writeU8 corbctl 0#8)
  io (.writeU8 rirbctl 0#8)

/-! ### The engines (`controller.rs`) -/

/-- The address is the one in the word: those of the codecs are below 16. -/
def corbVerb (s : RingState) (cmdword : U32) : LinkProg (RingState × Reply) := do
  match ← send s cmdword with
  | .error e => pure (s, .error e false)
  | .ok () =>
    let x ← waitResponse s (cmdword >>> 28)
    match x.2 with
    | .error e => pure (x.1, .error e true)
    | .ok r => pure (x.1, .response r)

/-- The bit of IRS is as wanted. -/
def irsIs (bit : U16) (on : Bool) : LinkProg Bool := do
  let v ← io (.readU16 irs)
  pure ((v &&& bit != 0#16) == on)

def pioVerb (cmdword : U32) : LinkProg Reply := do
  let idle ← (irsIs irsBusy false).retry 50
  if idle then do
    io (.writeU16 irs irsValid)
    io (.writeU32 ic cmdword)
    let v ← io (.readU16 irs)
    io (.writeU16 irs (v ||| irsBusy))
    let n ← io .polls
    let valid ← (irsIs irsValid true).retry n
    if valid then do
      let r ← io (.readU32 ir)
      pure (.response r)
    else pure (.error .timedOut true)
  else pure (.error .timedOut false)

/-- The ring goes, and its page with it. -/
def degradeToPio (s : RingState) : LinkProg Transport := do
  shutdown
  io (.munlock s.ring.rb.ptr s.ring.rb.len)
  io (.munmap s.ring.rb.ptr s.ring.rb.len)
  pure ⟨none, 0, true⟩

/-- Once the ring has failed; `sent` if the verb was in it. -/
def fallBack (s : RingState) (cmdword : U32) (sent : Bool) : LinkProg (Transport × Reply) := do
  let t ← degradeToPio s
  match ← pioVerb cmdword with
  | .response r => pure (t, .response r)
  | .error e executed => pure (t, .error e (sent || executed))

def verbRaw (t : Transport) (cmdword : U32) : LinkProg (Transport × Reply) :=
  match t.engine with
  | none => do
    let r ← pioVerb cmdword
    pure (t, r)
  | some s => do
    let x ← corbVerb s cmdword
    match x.2 with
    | .response r => pure ({ t with engine := some x.1, corbTimeouts := 0 }, .response r)
    | .error .timedOut sent =>
      if Corb.corbTimeoutLimit ≤ t.corbTimeouts + 1 ∧ t.pioFallbackDone = false then
        fallBack x.1 cmdword sent
      else
        pure ({ t with engine := some x.1, corbTimeouts := t.corbTimeouts + 1 },
          .error .timedOut sent)
    | .error e sent =>
      if t.pioFallbackDone = false then fallBack x.1 cmdword sent
      else pure ({ t with engine := some x.1 }, .error e sent)

/-- Verbs through `verb_raw`, all else as it is. -/
def serve : Handler Op.Ans LinkOp.Ans IoError Transport
  | t, .verb word => verbRaw t word
  | t, o => do
    let x ← io o
    pure (t, x)

end Transport

/-- Without a ring the flag is never looked at. -/
def Controller.transport (c : Controller) : Transport :=
  ⟨c.engine.map fun ring => ⟨ring, 0, []⟩, 0, c.engine.isNone⟩

/-! ### A session -/

namespace HdaPlayback

/-- A session once it has a controller. -/
def sessionFrom (opts : DebugOpts) (rate : ℕ) (calls : List Call) (c : Controller) :
    Prog HdaPlayback := do
  let (c, codec, s) ← bringUpFrom opts rate c
  initCodec opts rate c
  calls.foldlM call ⟨c, codec, s, formatVal rate, rate, false, 0#64⟩

theorem session_eq (opts : DebugOpts) (rate : ℕ) (calls : List Call) :
    session opts rate calls = Controller.open opts >>= sessionFrom opts rate calls := by
  simp only [session, «open», bringUp, bind_assoc]
  rfl

end HdaPlayback

namespace Transport

/-- The session, with its verbs. No verb is sent before the controller is there. -/
def session (opts : DebugOpts) (rate : ℕ) (calls : List HdaPlayback.Call) :
    LinkProg HdaPlayback := do
  let c ← (Controller.open opts).handle serve ⟨none, 0, false⟩
  (HdaPlayback.sessionFrom opts rate calls c).handle serve c.transport

end Transport

end Audiod.Driver
