import Audiod.ShimHeader
import Audiod.ShimFlush

/-!
# Mute requests and the commands that are sent

`snd_pcm_writei` requests a mute when the data turns silent and an unmute when it
turns audible again, on the edge only. The drain thread empties `MUTE_CMD` before it
knows whether the command can be sent; after a reconnect it goes on without it.
-/

namespace Audiod.Shim

/-- Calls of `snd_pcm_writei`; sends may fail anywhere. -/
def Writes : Input → Prop
  | .call (.writei _) => True
  | .call _ => False
  | .app _ | .drain _ => True

def request (c : Option Byte) : Event → Option Byte
  | .requested cmd => some cmd
  | _ => c

def delivery (c : Option Byte) : Event → Option Byte
  | .sent (.mute cmd) => some cmd
  | _ => c

/-- The last mute or unmute `snd_pcm_writei` has asked for. -/
def lastRequested (tr : List Event) : Option Byte := tr.foldl request none

/-- The last one that was sent. -/
def lastSent (tr : List Event) : Option Byte := tr.foldl delivery none

/-- What the server was last told is what was last asked for, if anything was. -/
def MuteAgrees (tr : List Event) : Prop :=
  lastRequested tr ≠ none → lastSent tr = lastRequested tr

/-- The drain thread is about to pop and has no request to look after. -/
def PopsUnasked (s : Process × Handle) : Prop := s.2.drain = .pop ∧ s.1.muteCmd = 0

/-- A mute command fails to be sent only if a newer one is pending, or if it would
have told the server nothing new. -/
def NoCommandLost (s : Process × Handle) (tr : List Event) : Input → Prop
  | .drain .error =>
    match s.2.drain with
    | .send _ _ (.mute cmd) => s.1.muteCmd ≠ 0 ∨ lastSent tr = some cmd
    | _ => True
  | _ => True

instance (s : Process × Handle) (tr : List Event) (i : Input) :
    Decidable (NoCommandLost s tr i) := by
  unfold NoCommandLost
  split
  · split <;> infer_instance
  · infer_instance

/-- The command under way. -/
def inFlight : DrainPc → Option Byte
  | .send _ _ (.mute cmd) => some cmd
  | _ => none

structure MuteInv (p : Process) (h : Handle) (asked told : Option Byte) : Prop where
  online : ¬Offline h.drain → h.sock ≠ none
  stop : h.drainStop = false
  app : h.app = .idle ∨ Writing h.app
  cmd : ∀ cmd data, h.app = .writeMute cmd data → cmd ≠ 0
  pending : p.muteCmd ≠ 0 → asked = some p.muteCmd
  settled : p.muteCmd = 0 → (inFlight h.drain).or told = asked

variable {p p' : Process} {h h' : Handle} {asked told : Option Byte} {es : List Event}

theorem muteInv_call (hi : MuteInv p h asked told) {c : Call} (hc : Writes (.call c))
    (hs : h.call p c = ((p', h'), es)) : MuteInv p' h' asked told ∧ es = [] := by
  cases c with
  | writei data =>
    simp only [Handle.call] at hs
    split at hs
    · cases hs
      exact ⟨{ hi with app := .inr trivial, cmd := fun _ _ heq => by cases heq }, rfl⟩
    · cases hs
      exact ⟨hi, rfl⟩
  | setFormat _ | setChannels _ | setRate _ | hwParams | setParams _ _ _ | prepare | drain | drop
  | start | pause _ | close => cases hc

theorem muteInv_app (hi : MuteInv p h asked told) {a : Answer}
    (hs : h.appStep p a = some ((p', h'), es)) :
    MuteInv p' h' (es.foldl request asked) (es.foldl delivery told) := by
  have happ := hi.app
  unfold Handle.appStep at hs
  cases hpc : h.app <;> rw [hpc] at happ hs <;> dsimp only at hs
  case idle => cases hs
  case writeAnchor data =>
    cases hs
    exact { hi with app := .inr trivial, cmd := nofun }
  case writeSilent data =>
    cases hs
    dsimp only [List.foldl_nil]
    split
    · exact { hi with app := .inr trivial, cmd := fun _ _ heq => by cases heq; decide }
    · split
      · exact { hi with app := .inr trivial, cmd := fun _ _ heq => by cases heq; decide }
      · exact { hi with app := .inr trivial, cmd := nofun }
  case writeMute cmd data =>
    cases hs
    -- The request overwrites one that is still pending.
    have hne := hi.cmd cmd data hpc
    exact { hi with
      app := .inr trivial
      cmd := nofun
      pending := fun _ => rfl
      settled := fun h0 => absurd h0 hne }
  case writePush data =>
    split at hs
    · cases hs
    · cases hs
      exact { hi with app := .inr trivial, cmd := nofun }
  case writeAdd n =>
    cases hs
    exact { hi with app := .inl rfl, cmd := nofun }
  all_goals exact (happ.resolve_left nofun).elim

theorem muteInv_loop (hi : MuteInv p h asked told) {a : Answer} (hl : h.drain.Looping)
    (hs : h.drainStep p a = some ((p', h'), es)) :
    MuteInv p' h' (es.foldl request asked) (es.foldl delivery told) := by
  have hon := hi.online
  have hset := hi.settled
  unfold Handle.drainStep at hs
  cases hpc : h.drain <;> rw [hpc] at hl hon hset hs <;> dsimp only at hs
  case top =>
    cases hs
    rw [if_neg (by rw [hi.stop]; nofun)]
    exact { hi with online := fun _ => hon id, settled := hset }
  case mute =>
    split at hs
    · cases hs
      exact { hi with online := fun _ => hon id, settled := hset }
    · rename_i hcmd
      obtain ⟨fd, heq⟩ := trySend_of_sock (p := { p with muteCmd := 0 }) (hon id)
        (.mute p.muteCmd) .flush
      rw [heq] at hs
      cases hs
      -- The request is taken and is now the command under way.
      exact { hi with
        online := fun _ => hon id
        pending := fun h0 => absurd rfl h0
        settled := fun _ => (hi.pending hcmd).symm }
  case flush =>
    split at hs
    · obtain ⟨fd, heq⟩ := trySend_of_sock (p := { p with flushCmd := false }) (hon id) .flush .pop
      rw [heq] at hs
      cases hs
      exact { hi with online := fun _ => hon id, settled := hset }
    · cases hs
      exact { hi with online := fun _ => hon id, settled := hset }
  case pop =>
    split at hs
    · cases hs
    · cases hs
      exact { hi with online := fun _ => hon id, settled := hset }
    · rename_i c cs ring hpop
      obtain ⟨fd, heq⟩ := trySend_of_sock (p := p) (h := { h with ring := ring, drain := .pop })
        (hon id) (.pcm (c :: cs)) .top
      rw [heq] at hs
      cases hs
      exact { hi with online := fun _ => hon id, settled := hset }
  all_goals exact hl.elim

theorem muteInv_reconnect (hi : MuteInv p h asked told) {a : Answer} (hr : h.drain.Reconnecting)
    (hs : h.drainStep p a = some ((p', h'), es)) :
    MuteInv p' h' (es.foldl request asked) (es.foldl delivery told) := by
  have hon := hi.online
  have hset := hi.settled
  unfold Handle.drainStep at hs
  cases hpc : h.drain <;> rw [hpc] at hr hon hset hs <;> dsimp only at hs
  case reSwap f =>
    split at hs
    · rename_i hsock
      exact absurd hsock (hon id)
    · cases hs
      exact { hi with online := fun ho => absurd trivial ho, settled := hset }
  case reClose old f =>
    cases hs
    exact { hi with online := fun ho => absurd trivial ho, settled := hset }
  case reStop f =>
    cases hs
    rw [if_neg (by rw [hi.stop]; nofun)]
    exact { hi with online := fun ho => absurd trivial ho, settled := hset }
  case reConnect f =>
    split at hs
    · split at hs
      · cases hs
      · cases hs
        exact { hi with online := nofun, settled := hset }
    · cases hs
      exact { hi with online := fun ho => absurd trivial ho, settled := hset }
    · cases hs
  case reHeader fd f =>
    split at hs
    · cases hs
      exact { hi with online := fun _ => hon id, settled := hset }
    · split at hs
      · split at hs
        · cases hs
        · cases hs
          exact { hi with online := fun _ => hon id, settled := hset }
      · cases hs
        exact { hi with online := fun _ => hon id, settled := hset }
      · cases hs
  case reWritten f | rePushed f =>
    cases hs
    exact { hi with online := fun _ => hon id, settled := hset }
  case rePlay f =>
    cases hs
    cases f with
    | mute cmd | flush | pcm cells =>
      exact { hi with online := fun _ => hon id, settled := hset }
  all_goals exact hr.elim

theorem muteInv_drain (hi : MuteInv p h asked told) {a : Answer}
    (hok : ∀ fd rest cmd, h.drain = .send fd rest (.mute cmd) → a = .error →
      p.muteCmd ≠ 0 ∨ told = some cmd)
    (hs : h.drainStep p a = some ((p', h'), es)) :
    MuteInv p' h' (es.foldl request asked) (es.foldl delivery told) := by
  have hon := hi.online
  have hset := hi.settled
  have hstep := hs
  unfold Handle.drainStep at hs
  cases hpc : h.drain <;> rw [hpc] at hon hset hs <;> dsimp only at hs
  case top | mute | flush | pop => exact muteInv_loop hi (by rw [hpc]; trivial) hstep
  case send fd rest f =>
    split at hs
    · split at hs
      · cases hs
      · split at hs
        · cases hs
          cases f with
          | mute cmd | flush | pcm cells =>
            exact { hi with online := fun _ => hon id, settled := hset }
        · cases hs
          cases f with
          | mute cmd | flush | pcm cells =>
            exact { hi with online := fun _ => hon id, settled := hset }
    · cases hs
      cases f with
      | mute cmd =>
        refine { hi with online := fun _ => hon id, settled := fun h0 => ?_ }
        -- The command is lost: nothing newer is pending, so it was no news.
        have htold := (hok fd rest cmd hpc rfl).resolve_left fun hne => hne h0
        have hasked : some cmd = asked := hset h0
        rw [← hasked]
        exact htold
      | flush | pcm cells =>
        exact { hi with online := fun _ => hon id, settled := hset }
    · cases hs
  case written n =>
    cases hs
    exact { hi with online := fun _ => hon id, settled := hset }
  case done => cases hs
  all_goals exact muteInv_reconnect hi (by rw [hpc]; trivial) hstep

theorem MuteInv.step {s s' : Process × Handle} {tr : List Event}
    (hi : MuteInv s.1 s.2 (lastRequested tr) (lastSent tr)) {i : Input} (hin : Writes i)
    (hok : NoCommandLost s tr i) (hs : machine.step s i = some (s', es)) :
    MuteInv s'.1 s'.2 (lastRequested (tr ++ es)) (lastSent (tr ++ es)) := by
  obtain ⟨p, h⟩ := s
  have hasked : lastRequested (tr ++ es) = es.foldl request (lastRequested tr) := List.foldl_append
  have htold : lastSent (tr ++ es) = es.foldl delivery (lastSent tr) := List.foldl_append
  rw [hasked, htold]
  cases i with
  | call c =>
    simp only [machine, Shim.step] at hs
    split at hs
    · obtain ⟨hinv, hnil⟩ := muteInv_call hi hin (Option.some.inj hs)
      rw [hnil]
      exact hinv
    · cases hs
  | app a => exact muteInv_app hi hs
  | drain a =>
    refine muteInv_drain hi (fun fd rest cmd hpc ha => ?_) hs
    subst ha
    unfold NoCommandLost at hok
    dsimp only at hok
    rw [hpc] at hok
    exact hok

theorem muteInv_ready (ringBytes : ℕ) (fmt : ℤ) (channels rate fd : ℕ) :
    MuteInv (ready ringBytes fmt channels rate fd).1 (ready ringBytes fmt channels rate fd).2
      (lastRequested []) (lastSent []) :=
  ⟨nofun, rfl, .inl rfl, nofun, fun h0 => absurd rfl h0, fun _ => rfl⟩

/-- Whenever the drain thread is about to pop and no request is pending, the last
command that was sent is the last one that was requested, in every run in which no
mute command is lost to a failed send. -/
theorem run_mute_agrees (ringBytes : ℕ) (fmt : ℤ) (channels rate fd : ℕ) (is : List Input)
    (hin : ∀ i ∈ is, Writes i)
    (hok : machine.Heeds NoCommandLost (ready ringBytes fmt channels rate fd) [] is)
    {s : Process × Handle} {tr : List Event}
    (hrun : machine.run (ready ringBytes fmt channels rate fd) is = some (s, tr))
    (hpop : PopsUnasked s) : MuteAgrees tr := by
  have hstep : ∀ s tr i s' es, Writes i ∧ NoCommandLost s tr i →
      MuteInv s.1 s.2 (lastRequested tr) (lastSent tr) → machine.step s i = some (s', es) →
        MuteInv s'.1 s'.2 (lastRequested (tr ++ es)) (lastSent (tr ++ es)) :=
    fun s tr i s' es hc hi hs => hi.step hc.1 hc.2 hs
  have hend := machine.run_inv_of_heeds hstep (muteInv_ready ringBytes fmt channels rate fd)
    (hok.and_of_all hin) hrun
  intro _
  have hset := hend.settled hpop.2
  rwa [hpop.1] at hset

/-- Silence, then sound: both commands are sent, and the audio in between is lost to
a reconnect. -/
def resendRun : List Input :=
  [.call (.writei [0, 0]), .app .go, .app .go, .app .go, .app .go, .app .go, .drain .go,
    .drain .go, .drain (.accept 5), .drain .go, .drain .go, .drain .error, .drain .go, .drain .go,
    .drain .go, .drain (.connected 3), .drain (.accept 12), .drain .go, .drain .go, .drain .go,
    .call (.writei [1, 0]), .app .go, .app .go, .app .go, .drain .go, .drain .go,
    .drain (.accept 5), .drain .go]

theorem run_mute_agrees_resend :
    ∃ s tr, machine.run (ready 4096 2 2 48000 3) resendRun = some (s, tr) ∧ PopsUnasked s ∧
      lastRequested tr = some msgUnmute ∧ MuteAgrees tr :=
  ⟨_, _, rfl, ⟨rfl, rfl⟩, rfl, run_mute_agrees 4096 2 2 48000 3 resendRun
    (by simp [resendRun, Writes]) (by decide +kernel) rfl ⟨rfl, rfl⟩⟩

/- The unmute meets a dead connection. The drain thread reconnects and pops the
audio the server will not play. -/
theorem reconnect_forgets_unmute :
    ¬ ∀ (ringBytes : ℕ) (fmt : ℤ) (channels rate fd : ℕ) (is : List Input)
      (s : Process × Handle) (tr : List Event), (∀ i ∈ is, Writes i) →
      machine.run (ready ringBytes fmt channels rate fd) is = some (s, tr) → PopsUnasked s →
        MuteAgrees tr := by
  intro h
  have hag := h 4096 2 2 48000 3 [.call (.writei [0, 0]), .app .go, .app .go, .app .go, .app .go,
    .app .go, .drain .go, .drain .go, .drain (.accept 5), .drain .go, .drain .go,
    .drain (.accept 6), .drain .go, .call (.writei [1, 0]), .app .go, .app .go, .app .go,
    .app .go, .app .go, .drain .go, .drain .go, .drain .error, .drain .go, .drain .go, .drain .go,
    .drain (.connected 3), .drain (.accept 12), .drain .go, .drain .go, .drain .go, .drain .go]
    _ _ (by simp [Writes]) rfl ⟨rfl, rfl⟩
  revert hag
  unfold MuteAgrees
  decide +kernel

end Audiod.Shim
