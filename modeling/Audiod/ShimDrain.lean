import Audiod.ShimFlush
import Audiod.ShimHeader

/-!
# Audio still in the ring at a close

`snd_pcm_drain` waits for nothing: what has been written is to "drain naturally",
and `snd_pcm_close` stops the drain thread. The thread looks at the stop flag at
the top of its loop, whatever the ring holds. Every byte has been sent when the
close returns exactly if the ring was empty when the thread looked.
-/

namespace Audiod.Shim

/-- The frames sent, in order. -/
def framesSent (tr : List Event) : List Frame := tr.filterMap fun
  | .sent f => some f
  | _ => none

def Frame.audio : Frame → Bytes
  | .pcm cells => cells.map (·.byte)
  | .mute _ | .flush => []

/-- The PCM payload of frames. -/
def audio (fs : List Frame) : Bytes := fs.flatMap Frame.audio

def written (tr : List Event) : Bytes := tr.flatMap fun
  | .wrote cells => cells.map (·.byte)
  | _ => []

def calls (is : List Input) : List Call := is.filterMap fun
  | .call c => some c
  | _ => none

/-- When the drain thread finds itself stopped, nothing is left in the ring. -/
def StopsDry (s : Process × Handle) : Input → Prop
  | .drain _ => s.2.drain = .top → s.2.drainStop = true → s.2.ring.contents = []
  | _ => True

instance (s : Process × Handle) (i : Input) : Decidable (StopsDry s i) :=
  match i with
  | .drain _ => inferInstanceAs (Decidable (_ → _ → _))
  | .call _ | .app _ => isTrue trivial

/-- Writes, then `snd_pcm_drain` and `snd_pcm_close`, and no failed send. -/
def WritesAndCloses : Input → Prop
  | .call (.writei _) | .call .drain | .call .close => True
  | .call _ => False
  | .app _ => True
  | .drain a => a ≠ .error

def WriteOrClose : AppPc → Prop
  | .idle | .writeAnchor _ | .writeSilent _ | .writeMute _ _ | .writePush _ | .writeAdd _
  | .closeStop | .closeInterrupt | .closeJoin | .closeFd | .closed => True
  | _ => False

/-- A close has raised the stop flag. -/
def Stopping : AppPc → Prop
  | .closeInterrupt | .closeJoin | .closeFd | .closed => True
  | _ => False

def Joined : AppPc → Prop
  | .closeFd | .closed => True
  | _ => False

/-- Popped, and not sent yet. -/
def unsent : DrainPc → Bytes
  | .send _ _ f => f.audio
  | _ => []

/-- `done` has been sent of the frame under way. -/
def Partial (done : Bytes) : DrainPc → Prop
  | .send _ rest f => done ++ rest = sendFrame f.payload
  | _ => done = []

/-- Connection 0 carries the header `hd` and the frames sent, and what has been
written has been sent, is about to be, or is in the ring. -/
structure CloseInv (fd : ℕ) (hd : ℕ × ℕ × ℕ) (p : Process) (h : Handle) (tr : List Event) :
    Prop where
  configured : h.configured = true
  channels : h.channels ≠ 0
  app : WriteOrClose h.app
  drain : Connected h.drain ∨ h.drain = .done
  stop : h.drainStop = true ↔ Stopping h.app
  stopped : h.drain = .done → h.drainStop = true
  joined : Joined h.app → h.drain = .done
  sock : h.app ≠ .closed → h.sock = some fd
  conn : h.app ≠ .closed → p.net.fds fd = some 0
  sending : ∀ fd' rest f, h.drain = .send fd' rest f → fd' = fd
  wire : ∃ done, Partial done h.drain ∧ (p.net.conns 0).sent =
    headed hd ((framesSent tr).map Frame.payload) ++ logged .frame done
  balance : written tr =
    audio (framesSent tr) ++ unsent h.drain ++ h.ring.contents.map (·.byte)

section

variable {fd : ℕ} {hd : ℕ × ℕ × ℕ} {p p' : Process} {h h' : Handle} {tr es : List Event}

theorem framesSent_append (tr es : List Event) :
    framesSent (tr ++ es) = framesSent tr ++ framesSent es :=
  List.filterMap_append ..

theorem written_append (tr es : List Event) : written (tr ++ es) = written tr ++ written es :=
  List.flatMap_append ..

theorem audio_append (fs gs : List Frame) : audio (fs ++ gs) = audio fs ++ audio gs :=
  List.flatMap_append ..

/-- Steps that show nothing of what is written or sent. -/
def Quiet (es : List Event) : Prop := framesSent es = [] ∧ written es = []

theorem CloseInv.quiet (hi : CloseInv fd hd p h tr) (hq : Quiet es) :
    CloseInv fd hd p h (tr ++ es) := by
  obtain ⟨hf, hw⟩ := hq
  refine { hi with wire := ?_, balance := ?_ }
  · rw [framesSent_append, hf, List.append_nil]
    exact hi.wire
  · rw [framesSent_append, written_append, hf, hw, List.append_nil, List.append_nil]
    exact hi.balance

theorem Joined.stopping {app : AppPc} (h : Joined app) : Stopping app := by
  cases app <;> first | exact trivial | cases h

theorem CloseInv.moved (hi : CloseInv fd hd p h tr) (app : AppPc) (hold : ¬Stopping h.app)
    (happ : WriteOrClose app) (hnew : ¬Stopping app) :
    CloseInv fd hd p { h with app := app } tr := by
  have hopen : h.app ≠ .closed := by
    intro hcl
    rw [hcl] at hold
    exact hold trivial
  refine { hi with
    app := happ, stop := ?_, joined := ?_
    sock := fun _ => hi.sock hopen, conn := fun _ => hi.conn hopen }
  · exact iff_of_false (mt hi.stop.mp hold) hnew
  · exact fun hj => absurd (Joined.stopping hj) hnew

theorem closeInv_call (hi : CloseInv fd hd p h tr) {c : Call} (hc : WritesAndCloses (.call c))
    (hidle : h.app = .idle) (hs : h.call p c = ((p', h'), es)) :
    CloseInv fd hd p' h' (tr ++ es) := by
  have hold : ¬Stopping h.app := by
    rw [hidle]
    exact not_false
  cases c with
  | writei data =>
    simp only [Handle.call] at hs
    rw [if_pos ⟨hi.configured, hi.channels⟩] at hs
    cases hs
    exact (hi.moved (.writeAnchor data) hold trivial not_false).quiet ⟨rfl, rfl⟩
  | drain =>
    cases hs
    have hnext : CloseInv fd hd p { h with state := .prepared } tr := { hi with app := hi.app }
    exact hnext.quiet ⟨rfl, rfl⟩
  | close =>
    cases hs
    exact (hi.moved .closeStop hold trivial not_false).quiet ⟨rfl, rfl⟩
  | setFormat _ | setChannels _ | setRate _ | hwParams | setParams _ _ _ | prepare | drop | start
  | pause _ => cases hc

theorem closeInv_write (hi : CloseInv fd hd p h tr) (hg : Writing h.app) {a : Answer}
    (hs : h.appStep p a = some ((p', h'), es)) : CloseInv fd hd p' h' (tr ++ es) := by
  have hmoved := @hi.moved
  unfold Handle.appStep at hs
  cases hpc : h.app <;> rw [hpc] at hg hmoved hs <;> dsimp only at hs
  case writeAnchor data =>
    cases hs
    have hnext := hmoved (.writeSilent data) not_false trivial not_false
    exact CloseInv.quiet { hnext with app := trivial } ⟨rfl, rfl⟩
  case writeSilent data =>
    cases hs
    refine CloseInv.quiet ?_ ⟨rfl, rfl⟩
    have hmute : ∀ cmd, CloseInv fd hd p { h with app := .writeMute cmd data } tr :=
      fun cmd => hmoved (.writeMute cmd data) not_false trivial not_false
    have hpush : CloseInv fd hd p { h with app := .writePush data } tr :=
      hmoved (.writePush data) not_false trivial not_false
    split
    · exact { hmute msgMute with app := trivial }
    · split
      · exact { hmute msgUnmute with app := trivial }
      · exact { hpush with app := trivial }
  case writeMute cmd data =>
    cases hs
    have hnext := hmoved (.writePush data) not_false trivial not_false
    exact CloseInv.quiet { hnext with app := trivial } ⟨rfl, rfl⟩
  case writePush data =>
    split at hs
    · cases hs
    · rename_i ring hpush
      cases hs
      obtain ⟨-, hcont, -, -⟩ := Ring.push_spec hpush
      have hnext := hmoved (.writeAdd data.length) not_false trivial not_false
      have hframes : framesSent (tr ++ [.wrote (data.map (⟨·, h.drops⟩))]) = framesSent tr := by
        rw [framesSent_append]
        exact List.append_nil _
      refine { hnext with app := trivial, wire := ?_, balance := ?_ }
      · rw [hframes]
        exact hi.wire
      · rw [hframes, written_append, hi.balance, hcont, List.map_append, List.append_assoc,
          List.append_assoc, List.append_assoc]
        simp [written]
  case writeAdd n =>
    cases hs
    have hnext := hmoved .idle not_false trivial not_false
    exact CloseInv.quiet { hnext with app := trivial } ⟨rfl, rfl⟩
  all_goals exact hg.elim

theorem closeInv_app (hi : CloseInv fd hd p h tr) {a : Answer}
    (hs : h.appStep p a = some ((p', h'), es)) : CloseInv fd hd p' h' (tr ++ es) := by
  have happ := hi.app
  have hstop := hi.stop
  cases hpc : h.app
  case writeAnchor | writeSilent | writeMute | writePush | writeAdd =>
    exact closeInv_write hi (by rw [hpc]; trivial) hs
  all_goals
    unfold Handle.appStep at hs
    rw [hpc] at happ hstop hs
    dsimp only at hs
  case idle | closed => cases hs
  case closeStop =>
    cases hs
    have hnext := hi.moved .idle (by rw [hpc]; exact not_false) trivial not_false
    exact CloseInv.quiet { hnext with
      app := trivial, stop := iff_of_true rfl trivial, stopped := fun _ => rfl, joined := nofun
      sock := fun _ => hnext.sock nofun, conn := fun _ => hnext.conn nofun } ⟨rfl, rfl⟩
  case closeInterrupt =>
    cases hs
    have hopen : h.app ≠ .closed := by rw [hpc]; nofun
    exact CloseInv.quiet { hi with
      app := trivial, stop := hstop, joined := nofun
      sock := fun _ => hi.sock hopen, conn := fun _ => hi.conn hopen } ⟨rfl, rfl⟩
  case closeJoin =>
    split at hs
    · rename_i hdone
      cases hs
      have hopen : h.app ≠ .closed := by rw [hpc]; nofun
      exact CloseInv.quiet { hi with
        app := trivial, stop := hstop, joined := fun _ => hdone
        sock := fun _ => hi.sock hopen, conn := fun _ => hi.conn hopen } ⟨rfl, rfl⟩
    · cases hs
  case closeFd =>
    have hdone := hi.joined (by rw [hpc]; trivial)
    rw [hi.sock (by rw [hpc]; nofun)] at hs
    cases hs
    exact CloseInv.quiet { hi with
      app := trivial, stop := hstop, joined := fun _ => hdone
      sock := fun hne => absurd rfl hne, conn := fun hne => absurd rfl hne } ⟨rfl, rfl⟩
  case commitLoad | commitStash | commitSend | dropClear | dropPushed | dropWritten | dropPlay |
    dropFlush => cases happ

/-- The thread has sent a whole frame and not begun another. -/
def BetweenFrames : DrainPc → Prop
  | .top | .mute | .flush | .pop | .written _ => True
  | _ => False

theorem BetweenFrames.connected {pc : DrainPc} (h : BetweenFrames pc) : Connected pc := by
  cases pc <;> first | exact trivial | cases h

theorem BetweenFrames.unsent_nil {pc : DrainPc} (h : BetweenFrames pc) : unsent pc = [] := by
  cases pc <;> first | rfl | cases h

theorem BetweenFrames.partial_iff {pc : DrainPc} (h : BetweenFrames pc) (done : Bytes) :
    Partial done pc ↔ done = [] := by
  cases pc <;> first | exact Iff.rfl | cases h

theorem Connected.ne_done {pc : DrainPc} (h : Connected pc) : pc ≠ .done := by
  rintro rfl
  cases h

theorem between_next (f : Frame) : BetweenFrames (Handle.next f) := by
  cases f <;> trivial

theorem CloseInv.between (hi : CloseInv fd hd p h tr) (hold : BetweenFrames h.drain) (pc : DrainPc)
    (hpc : BetweenFrames pc) : CloseInv fd hd p { h with drain := pc } tr := by
  obtain ⟨done, hd', hlog⟩ := hi.wire
  have hbal := hi.balance
  rw [hold.unsent_nil] at hbal
  refine { hi with
    drain := .inl hpc.connected, stopped := fun hdone => absurd hdone hpc.connected.ne_done
    joined := fun hj => absurd (hi.joined hj) hold.connected.ne_done, sending := ?_
    wire := ⟨done, (hpc.partial_iff done).mpr ((hold.partial_iff done).mp hd'), hlog⟩
    balance := ?_ }
  · rintro fd' rest f rfl
    cases hpc
  · rw [hbal]
    show _ = _ ++ unsent pc ++ _
    rw [hpc.unsent_nil]

theorem CloseInv.begin (hi : CloseInv fd hd p h tr) (hold : BetweenFrames h.drain) (f : Frame)
    (ring : Ring Cell)
    (hbal : written tr = audio (framesSent tr) ++ f.audio ++ ring.contents.map (·.byte)) :
    CloseInv fd hd p { h with ring := ring, drain := .send fd (sendFrame f.payload) f } tr := by
  obtain ⟨done, hd', hlog⟩ := hi.wire
  have hlive : Connected (.send fd (sendFrame f.payload) f) := trivial
  refine { hi with
    drain := .inl hlive, stopped := fun hdone => absurd hdone hlive.ne_done
    joined := fun hj => absurd (hi.joined hj) hold.connected.ne_done
    sending := ?_, wire := ⟨done, ?_, hlog⟩, balance := hbal }
  · intro fd' rest g heq
    cases heq
    rfl
  · rw [(hold.partial_iff done).mp hd']
    exact List.nil_append _

theorem CloseInv.accept (hi : CloseInv fd hd p h tr) {fd' k : ℕ} {rest : Bytes} {f : Frame}
    (hpc : h.drain = .send fd' rest f) {net : Net Origin}
    (hnet : p.net.accept fd' .frame rest k = some net) (pc : DrainPc) (hlive : Connected pc)
    (hsend : ∀ fd₂ rest₂ g, pc = .send fd₂ rest₂ g → fd₂ = fd)
    (hlog : ∀ part, part ++ rest = sendFrame f.payload → ∃ done, Partial done pc ∧
      headed hd ((framesSent tr).map Frame.payload) ++ logged .frame (part ++ rest.take k) =
        headed hd ((framesSent (tr ++ es)).map Frame.payload) ++ logged .frame done)
    (hbal : written (tr ++ es) =
      audio (framesSent (tr ++ es)) ++ unsent pc ++ h.ring.contents.map (·.byte)) :
    CloseInv fd hd { p with net := net } { h with drain := pc } (tr ++ es) := by
  have hne : h.drain ≠ .done := by
    rw [hpc]
    exact Connected.ne_done trivial
  have hopen : h.app ≠ .closed := fun hcl => hne (hi.joined (by rw [hcl]; trivial))
  obtain ⟨part, hpart, hold⟩ := hi.wire
  rw [hpc] at hpart
  obtain ⟨done, hdone, hnew⟩ := hlog part hpart
  have hfd : fd' = fd := hi.sending fd' rest f hpc
  rw [hfd, Net.accept, hi.conn hopen] at hnet
  dsimp only at hnet
  split at hnet <;> cases hnet
  refine { hi with
    drain := .inl hlive, stopped := fun hdone => absurd hdone hlive.ne_done
    joined := fun hj => absurd (hi.joined hj) hne
    sending := hsend, wire := ⟨done, hdone, ?_⟩, balance := hbal }
  rw [← hnew, logged_append, ← List.append_assoc, ← hold]
  simp [Conn.log, logged]

theorem closeInv_pop (hi : CloseInv fd hd p h tr) {a : Answer} (hpc : h.drain = .pop)
    (hs : h.drainStep p a = some ((p', h'), es)) : CloseInv fd hd p' h' (tr ++ es) := by
  have hbal := hi.balance
  have hbetween := @hi.between
  have hbegin := @hi.begin
  have hsock : h.sock = some fd := hi.sock fun hcl => by
    rw [hi.joined (by rw [hcl]; trivial)] at hpc
    cases hpc
  unfold Handle.drainStep at hs
  rw [hpc] at hbal hbetween hbegin hs
  dsimp only at hs
  split at hs
  · cases hs
  · rename_i ring hpop
    cases hs
    have hsame : ring.contents = h.ring.contents := Ring.pop_append hpop
    have hnext := hbetween trivial .top trivial
    refine CloseInv.quiet { hnext with drain := .inl trivial, balance := ?_ } ⟨rfl, rfl⟩
    rw [hsame]
    exact hbal
  · rename_i c cs ring hpop
    have hcut : c :: cs ++ ring.contents = h.ring.contents := Ring.pop_append hpop
    rw [trySend_eq (h := { h with ring := ring, drain := .pop }) hsock] at hs
    cases hs
    have hleft : written tr = audio (framesSent tr) ++ (Frame.pcm (c :: cs)).audio ++
        ring.contents.map (·.byte) := by
      have hnone : unsent .pop = [] := rfl
      rw [hbal, ← hcut, List.map_append, hnone, List.append_nil, List.append_assoc]
      rfl
    have hnext := hbegin trivial (.pcm (c :: cs)) ring hleft
    exact CloseInv.quiet { hnext with drain := .inl trivial } ⟨rfl, rfl⟩

theorem closeInv_send (hi : CloseInv fd hd p h tr) {a : Answer} (ha : a ≠ .error) {fd' : ℕ}
    {rest : Bytes} {f : Frame} (hpc : h.drain = .send fd' rest f)
    (hs : h.drainStep p a = some ((p', h'), es)) : CloseInv fd hd p' h' (tr ++ es) := by
  have hbal := hi.balance
  unfold Handle.drainStep at hs
  rw [hpc] at hbal hs
  dsimp only at hs
  split at hs
  · split at hs
    · cases hs
    · rename_i k _ net hnet
      split at hs
      · rename_i hall
        cases hs
        have hframes : framesSent (tr ++ [.sent f]) = framesSent tr ++ [f] :=
          framesSent_append ..
        refine hi.accept hpc hnet (Handle.next f) (connected_next f) ?_ ?_ ?_
        · intro fd₂ rest₂ g heq
          have hbetw := between_next f
          rw [heq] at hbetw
          cases hbetw
        · intro part hpart
          refine ⟨[], ((between_next f).partial_iff []).mpr rfl, ?_⟩
          rw [List.take_of_length_le hall, hpart, hframes, List.map_append, List.map_singleton,
            headed_concat, logged, logged, List.map_nil, List.append_nil]
        · rw [hframes, written_append, hbal, audio_append, (between_next f).unsent_nil,
            List.append_nil]
          simp [written, audio, unsent]
      · cases hs
        refine hi.accept hpc hnet (.send fd' (rest.drop k) f) trivial ?_ ?_ ?_
        · intro fd₂ rest₂ g heq
          cases heq
          exact hi.sending _ _ _ hpc
        · intro part hpart
          refine ⟨part ++ rest.take k, ?_, by rw [List.append_nil]⟩
          rw [Partial, List.append_assoc, List.take_append_drop]
          exact hpart
        · rw [List.append_nil]
          exact hbal
  · exact absurd rfl ha
  · cases hs

theorem closeInv_drain (hi : CloseInv fd hd p h tr) {a : Answer} (ha : a ≠ .error)
    (hs : h.drainStep p a = some ((p', h'), es)) : CloseInv fd hd p' h' (tr ++ es) := by
  have hdr := hi.drain
  have hbal := hi.balance
  have hbetween := @hi.between
  have hbegin := @hi.begin
  have hopen : Connected h.drain → h.sock = some fd := fun hlive =>
    hi.sock fun hcl => hlive.ne_done (hi.joined (by rw [hcl]; trivial))
  have hstep := hs
  unfold Handle.drainStep at hs
  cases hpc : h.drain <;> rw [hpc] at hdr hbal hbetween hbegin hopen hs <;> dsimp only at hs
  case top =>
    cases hs
    refine CloseInv.quiet ?_ ⟨rfl, rfl⟩
    split
    · rename_i hstop
      obtain ⟨done, hdone, hlog⟩ := hi.wire
      rw [hpc] at hdone
      exact { hi with
        drain := .inr rfl, stopped := fun _ => hstop, joined := fun _ => rfl
        sending := fun _ _ _ hsend => DrainPc.noConfusion hsend
        wire := ⟨done, hdone, hlog⟩, balance := hbal }
    · exact hbetween trivial .mute trivial
  case mute =>
    split at hs
    · cases hs
      exact (hbetween trivial .flush trivial).quiet ⟨rfl, rfl⟩
    · rw [trySend_eq (hopen trivial)] at hs
      cases hs
      have hnext := hbegin trivial (.mute p.muteCmd) h.ring hbal
      exact CloseInv.quiet { hnext with drain := .inl trivial } ⟨rfl, rfl⟩
  case flush =>
    split at hs
    · rw [trySend_eq (hopen trivial)] at hs
      cases hs
      have hnext := hbegin trivial .flush h.ring hbal
      exact CloseInv.quiet { hnext with drain := .inl trivial } ⟨rfl, rfl⟩
    · cases hs
      exact (hbetween trivial .pop trivial).quiet ⟨rfl, rfl⟩
  case pop => exact closeInv_pop hi hpc hstep
  case send fd' rest f => exact closeInv_send hi ha hpc hstep
  case written n =>
    cases hs
    have hnext := hbetween trivial .top trivial
    exact CloseInv.quiet { hnext with drain := .inl trivial } ⟨rfl, rfl⟩
  case done => cases hs
  all_goals exact (hdr.resolve_right DrainPc.noConfusion).elim

theorem CloseInv.step (hi : CloseInv fd hd p h tr) {i : Input} (hin : WritesAndCloses i)
    (hs : step p h i = some ((p', h'), es)) : CloseInv fd hd p' h' (tr ++ es) := by
  cases i with
  | call c =>
    simp only [Shim.step] at hs
    split at hs
    · rename_i hidle
      exact closeInv_call hi hin hidle (Option.some.inj hs)
    · cases hs
  | app a => exact closeInv_app hi hs
  | drain a => exact closeInv_drain hi hin hs

theorem run_closeInv {s t : Process × Handle} (hi : CloseInv fd hd s.1 s.2 tr) {is : List Input}
    (hin : ∀ i ∈ is, WritesAndCloses i) (hrun : machine.run s is = some (t, es)) :
    CloseInv fd hd t.1 t.2 (tr ++ es) := by
  let I : Process × Handle → List Event → Prop := fun s tr => CloseInv fd hd s.1 s.2 tr
  have hstep : ∀ s tr i s' es, WritesAndCloses i → I s tr → machine.step s i = some (s', es) →
      I s' (tr ++ es) := fun s tr i s' es hi0 h hs => CloseInv.step h hi0 hs
  exact machine.run_inv_of_meets (I := I) hstep hi (machine.meets_of_all s is hin) hrun

/-! ### Every byte of the calls is written -/

/-- What a write under way has not written yet. -/
def owed : AppPc → Bytes
  | .writeAnchor data | .writeSilent data | .writeMute _ data | .writePush data => data
  | _ => []

def Call.data : Call → Bytes
  | .writei data => data
  | _ => []

theorem drain_written {a : Answer} (hs : h.drainStep p a = some ((p', h'), es)) :
    written es = [] := by
  have htry : ∀ (q : Process) (g : Handle) (f : Frame) (skip : DrainPc),
      some (g.trySend q f skip) = some ((p', h'), es) → written es = [] := by
    intro q g f skip heq
    unfold Handle.trySend at heq
    split at heq <;> cases heq <;> rfl
  unfold Handle.drainStep at hs
  repeat' split at hs
  all_goals first | cases hs; rfl | exact htry _ _ _ _ hs | cases hs

theorem step_owed (hi : CloseInv fd hd p h tr) {i : Input} (hin : WritesAndCloses i)
    (hs : step p h i = some ((p', h'), es)) :
    owed h.app ++ (calls [i]).flatMap Call.data = written es ++ owed h'.app := by
  cases i with
  | call c =>
    simp only [Shim.step] at hs
    split at hs
    · rename_i hidle
      have heq : h.call p c = ((p', h'), es) := Option.some.inj hs
      rw [hidle]
      cases c with
      | writei data =>
        simp only [Handle.call] at heq
        rw [if_pos ⟨hi.configured, hi.channels⟩] at heq
        cases heq
        simp [owed, calls, Call.data, written]
      | drain =>
        cases heq
        rw [hidle]
        rfl
      | close =>
        cases heq
        rfl
      | setFormat _ | setChannels _ | setRate _ | hwParams | setParams _ _ _ | prepare | drop
      | start | pause _ => cases hin
    · cases hs
  | app a =>
    have hnone : (calls [.app a]).flatMap Call.data = [] := rfl
    have happ := hi.app
    rw [hnone, List.append_nil]
    simp only [Shim.step] at hs
    unfold Handle.appStep at hs
    cases hpc : h.app <;> rw [hpc] at happ hs <;> dsimp only at hs
    case writeSilent data =>
      cases hs
      dsimp only
      split
      · rfl
      · split <;> rfl
    case writePush data =>
      split at hs <;> cases hs
      simp [owed, written, Function.comp_def]
    case writeAnchor | writeMute | writeAdd | closeStop | closeInterrupt =>
      cases hs
      rfl
    case closeJoin =>
      split at hs <;> cases hs
      rfl
    case closeFd =>
      split at hs <;> cases hs <;> rfl
    case idle | closed => cases hs
    all_goals cases happ
  | drain a =>
    obtain ⟨hside, -, -⟩ := Handle.drainStep_frame hs
    simp only [Handle.callerSide, Prod.mk.injEq] at hside
    have hnone : (calls [.drain a]).flatMap Call.data = [] := rfl
    rw [drain_written hs, hside.2.2.2.2.2.2.2.2, hnone, List.append_nil, List.nil_append]

theorem run_written {s t : Process × Handle} (hi : CloseInv fd hd s.1 s.2 tr) {is : List Input}
    (hin : ∀ i ∈ is, WritesAndCloses i) (hrun : machine.run s is = some (t, es)) :
    owed s.2.app ++ (calls is).flatMap Call.data = written es ++ owed t.2.app := by
  induction is generalizing s tr es with
  | nil =>
    cases hrun
    exact List.append_nil _
  | cons i is ih =>
    obtain ⟨mid, e, es', hs, hr, rfl⟩ := (machine.run_cons).mp hrun
    obtain ⟨hi0, hrest⟩ := List.forall_mem_cons.mp hin
    have hhead := step_owed hi hi0 hs
    have htail := ih (hi.step hi0 hs) hrest hr
    have hcalls : calls (i :: is) = calls [i] ++ calls is := List.filterMap_append (l := [i])
    rw [hcalls, List.flatMap_append, ← List.append_assoc, hhead, List.append_assoc, htail,
      written_append, List.append_assoc]

/-! ### The ring when the thread stops -/

/- What is in the ring when the thread has stopped stays there. -/
theorem step_stopped (hi : CloseInv fd hd p h tr) (hdone : h.drain = .done) {i : Input}
    (hs : step p h i = some ((p', h'), es)) :
    h'.drain = .done ∧ h'.ring.contents = h.ring.contents := by
  have hstop := hi.stop.mp (hi.stopped hdone)
  cases i with
  | call c =>
    simp only [Shim.step] at hs
    split at hs
    · rename_i hidle
      rw [hidle] at hstop
      cases hstop
    · cases hs
  | app a =>
    simp only [Shim.step] at hs
    unfold Handle.appStep at hs
    cases hpc : h.app <;> rw [hpc] at hstop hs <;> dsimp only at hs
    case closeInterrupt =>
      cases hs
      exact ⟨hdone, rfl⟩
    case closeJoin =>
      rw [if_pos hdone] at hs
      cases hs
      exact ⟨hdone, rfl⟩
    case closeFd =>
      split at hs <;> cases hs <;> exact ⟨hdone, rfl⟩
    case closed => cases hs
    all_goals cases hstop
  | drain a =>
    simp only [Shim.step] at hs
    unfold Handle.drainStep at hs
    rw [hdone] at hs
    cases hs

theorem call_drain {c : Call} (hs : h.call p c = ((p', h'), es)) : h'.drain = h.drain := by
  unfold Handle.call at hs
  repeat' split at hs
  all_goals cases hs
  all_goals first | rfl | (unfold Handle.commit; split <;> rfl)

theorem app_drain {a : Answer} (hs : h.appStep p a = some ((p', h'), es)) :
    h'.drain = h.drain := by
  unfold Handle.appStep at hs
  repeat' split at hs
  all_goals cases hs
  all_goals rfl

/- The thread stops at the top of its loop only. -/
theorem drain_stops {a : Answer} (hlive : Connected h.drain) (ha : a ≠ .error)
    (hs : h.drainStep p a = some ((p', h'), es)) (hdone : h'.drain = .done) :
    h.drain = .top ∧ h.drainStop = true ∧ h'.ring = h.ring := by
  have htry : ∀ (q : Process) (g : Handle) (f : Frame) (skip : DrainPc), skip ≠ .done →
      g.trySend q f skip ≠ ((p', h'), es) := by
    intro q g f skip hskip heq
    unfold Handle.trySend at heq
    split at heq <;> cases heq
    · exact hskip hdone
    · cases hdone
  unfold Handle.drainStep at hs
  cases hpc : h.drain <;> rw [hpc] at hlive hs <;> dsimp only at hs
  case top =>
    cases hs
    dsimp only at hdone
    split at hdone
    · rename_i hstop
      exact ⟨rfl, hstop, rfl⟩
    · cases hdone
  case mute =>
    split at hs
    · cases hs
      cases hdone
    · exact absurd (Option.some.inj hs) (htry _ _ _ _ nofun)
  case flush =>
    split at hs
    · exact absurd (Option.some.inj hs) (htry _ _ _ _ nofun)
    · cases hs
      cases hdone
  case pop =>
    split at hs
    · cases hs
    · cases hs
      cases hdone
    · exact absurd (Option.some.inj hs) (htry _ _ _ _ nofun)
  case send fd' rest f =>
    split at hs
    · split at hs
      · cases hs
      · split at hs <;> cases hs
        · cases f <;> cases hdone
        · cases hdone
    · exact absurd rfl ha
    · cases hs
  case written n =>
    cases hs
    cases hdone
  all_goals cases hlive

theorem step_stops (hi : CloseInv fd hd p h tr) {i : Input} (hin : WritesAndCloses i)
    (hlive : h.drain ≠ .done) (hs : step p h i = some ((p', h'), es)) (hdone : h'.drain = .done) :
    (∃ a, i = .drain a) ∧ h.drain = .top ∧ h.drainStop = true ∧ h'.ring = h.ring := by
  cases i with
  | call c =>
    simp only [Shim.step] at hs
    split at hs
    · rw [call_drain (Option.some.inj hs)] at hdone
      exact absurd hdone hlive
    · cases hs
  | app a =>
    rw [app_drain hs] at hdone
    exact absurd hdone hlive
  | drain a => exact ⟨⟨a, rfl⟩, drain_stops (hi.drain.resolve_right hlive) hin hs hdone⟩

theorem step_dry (hi : CloseInv fd hd p h tr) {i : Input} (hin : WritesAndCloses i)
    (hok : StopsDry (p, h) i) (hdry : h.drain = .done → h.ring.contents = [])
    (hs : step p h i = some ((p', h'), es)) (hdone : h'.drain = .done) : h'.ring.contents = [] := by
  by_cases hpc : h.drain = .done
  · rw [(step_stopped hi hpc hs).2]
    exact hdry hpc
  · obtain ⟨⟨a, rfl⟩, htop, hstop, hring⟩ := step_stops hi hin hpc hs hdone
    rw [hring]
    exact hok htop hstop

theorem run_stopped {s t : Process × Handle} (hi : CloseInv fd hd s.1 s.2 tr) {is : List Input}
    (hin : ∀ i ∈ is, WritesAndCloses i) (hdone : s.2.drain = .done)
    (hrun : machine.run s is = some (t, es)) : t.2.ring.contents = s.2.ring.contents := by
  induction is generalizing s tr es with
  | nil =>
    cases hrun
    rfl
  | cons i is ih =>
    obtain ⟨mid, e, es', hs, hr, rfl⟩ := (machine.run_cons).mp hrun
    obtain ⟨hi0, hrest⟩ := List.forall_mem_cons.mp hin
    obtain ⟨hmid, hsame⟩ := step_stopped hi hdone hs
    exact (ih (hi.step hi0 hs) hrest hmid hr).trans hsame

theorem top_stops {a : Answer} (htop : h.drain = .top) (hstop : h.drainStop = true)
    (hs : h.drainStep p a = some ((p', h'), es)) : h'.drain = .done ∧ h'.ring = h.ring := by
  simp only [Handle.drainStep, htop, hstop, if_true] at hs
  cases hs
  exact ⟨rfl, rfl⟩

/- The ring is empty at the end if and only if it was when the thread stopped. -/
theorem run_dry_iff {s t : Process × Handle} (hi : CloseInv fd hd s.1 s.2 tr) {is : List Input}
    (hin : ∀ i ∈ is, WritesAndCloses i) (hdry : s.2.drain = .done → s.2.ring.contents = [])
    (hrun : machine.run s is = some (t, es)) (hend : t.2.drain = .done) :
    t.2.ring.contents = [] ↔ machine.Meets StopsDry s is := by
  induction is generalizing s tr es with
  | nil =>
    cases hrun
    exact iff_of_true (hdry hend) trivial
  | cons i is ih =>
    obtain ⟨mid, e, es', hs, hr, rfl⟩ := (machine.run_cons).mp hrun
    obtain ⟨hi0, hrest⟩ := List.forall_mem_cons.mp hin
    have hmid := hi.step hi0 hs
    constructor
    · intro hnil
      have hok : StopsDry s i := by
        cases i with
        | call c | app a => trivial
        | drain a =>
          intro htop hstop
          obtain ⟨hdone, hring⟩ := top_stops htop hstop hs
          rw [← hring, ← run_stopped hmid hrest hdone hr]
          exact hnil
      refine ⟨hok, fun mid' e' hs' => ?_⟩
      rw [hs] at hs'
      cases hs'
      exact (ih hmid hrest (step_dry hi hi0 hok hdry hs) hr).mp hnil
    · rintro ⟨hok, hm⟩
      exact (ih hmid hrest (step_dry hi hi0 hok hdry hs) hr).mpr (hm mid e hs)

end

theorem closeInv_ready (ringBytes : ℕ) (fmt : ℤ) (channels rate fd : ℕ) (hch : channels ≠ 0) :
    CloseInv fd (rate, channels, (fmt % 65536).toNat) (ready ringBytes fmt channels rate fd).1
      (ready ringBytes fmt channels rate fd).2 [] := by
  constructor
  case configured => rfl
  case channels => exact hch
  case app => trivial
  case drain => exact .inl trivial
  case stop => exact iff_of_false Bool.false_ne_true not_false
  case stopped => exact fun hdone => DrainPc.noConfusion hdone
  case joined => exact False.elim
  case sock => exact fun _ => rfl
  case conn =>
    intro _
    simp only [ready, Function.update_self]
  case sending => exact fun _ _ _ hsend => DrainPc.noConfusion hsend
  case wire =>
    refine ⟨[], rfl, ?_⟩
    simp [ready, headed, logged, framesSent, Handle.headerOf, Handle.formatCode]
  case balance => rfl

theorem writesAndCloses_of_calls {ws : List Bytes} {is : List Input}
    (hcalls : calls is = ws.map .writei ++ [.drain, .close]) (hacc : .drain .error ∉ is) :
    ∀ i ∈ is, WritesAndCloses i := by
  intro i hi
  cases i with
  | call c =>
    have hc : c ∈ calls is := List.mem_filterMap.mpr ⟨.call c, hi, rfl⟩
    rw [hcalls] at hc
    rcases List.mem_append.mp hc with hw | hd
    · obtain ⟨data, -, rfl⟩ := List.mem_map.mp hw
      trivial
    · simp only [List.mem_cons, List.not_mem_nil, or_false] at hd
      rcases hd with rfl | rfl <;> trivial
  | app a => trivial
  | drain a =>
    rintro rfl
    exact hacc hi

/-- After writes, a drain and a close, the connection carries its header and the
frames sent, and their audio is all that was written exactly if the drain thread
stopped with the ring empty. -/
theorem run_close_drained_iff (ringBytes : ℕ) (fmt : ℤ) (channels rate fd : ℕ) (hch : channels ≠ 0)
    (ws : List Bytes) (is : List Input) (hcalls : calls is = ws.map .writei ++ [.drain, .close])
    (hacc : .drain .error ∉ is) {s : Process × Handle} {tr : List Event}
    (hrun : machine.run (ready ringBytes fmt channels rate fd) is = some (s, tr))
    (hclosed : s.2.app = .closed) :
    (s.1.net.conns 0).sent = headed (rate, channels, (fmt % 65536).toNat)
        ((framesSent tr).map Frame.payload) ∧
      (audio (framesSent tr) = ws.flatten ↔
        machine.Meets StopsDry (ready ringBytes fmt channels rate fd) is) := by
  have hin := writesAndCloses_of_calls hcalls hacc
  have hstart := closeInv_ready ringBytes fmt channels rate fd hch
  have hend := run_closeInv hstart hin hrun
  rw [List.nil_append] at hend
  have hdone : s.2.drain = .done := hend.joined (by rw [hclosed]; trivial)
  have hdata : ws.flatten = written tr := by
    have hw := run_written hstart hin hrun
    rw [hcalls, hclosed, List.flatMap_append, List.flatMap_map] at hw
    have hends : owed (ready ringBytes fmt channels rate fd).2.app = [] ∧ owed .closed = [] ∧
        [Call.drain, Call.close].flatMap Call.data = [] := ⟨rfl, rfl, rfl⟩
    rw [hends.1, hends.2.1, hends.2.2, List.nil_append, List.append_nil, List.append_nil] at hw
    rw [← hw]
    exact List.flatMap_id.symm
  have hbal := hend.balance
  have hnone : unsent .done = [] := rfl
  rw [hdone, hnone, List.append_nil] at hbal
  obtain ⟨done, hpart, hlog⟩ := hend.wire
  rw [hdone] at hpart
  constructor
  · rw [hlog, show done = [] from hpart]
    exact List.append_nil _
  · rw [← run_dry_iff hstart hin nofun hrun hdone, hdata, hbal, List.self_eq_append_right,
      List.map_eq_nil_iff]

/-- A block is written, popped and sent; the thread is back at the top when the close
raises the flag. -/
def drainedRun : List Input :=
  [.call (.writei [1, 0, 2, 0]), .app .go, .app .go, .app .go, .app .go, .drain .go, .drain .go,
    .drain .go, .drain .go, .drain (.accept 5), .drain (.accept 3), .drain .go, .call .drain,
    .call .close, .app .go, .app .go, .drain .go, .app .go, .app .go]

theorem run_close_drained_all :
    ∃ s tr, machine.run (ready 4096 2 2 48000 3) drainedRun = some (s, tr) ∧
      audio (framesSent tr) = [1, 0, 2, 0] :=
  ⟨_, _, rfl, (run_close_drained_iff 4096 2 2 48000 3 (by decide) [[1, 0, 2, 0]] drainedRun rfl
    (by simp [drainedRun]) rfl rfl).2.mpr (by decide +kernel)⟩

/- The drain thread gets to the top of its loop only when the flag is up. -/
theorem close_drops_tail :
    ¬ ∀ (ringBytes : ℕ) (fmt : ℤ) (channels rate fd : ℕ) (ws : List Bytes) (is : List Input)
      (s : Process × Handle) (tr : List Event), channels ≠ 0 →
      calls is = ws.map .writei ++ [.drain, .close] → .drain .error ∉ is →
      machine.run (ready ringBytes fmt channels rate fd) is = some (s, tr) → s.2.app = .closed →
        audio (framesSent tr) = ws.flatten := by
  intro h
  have hrun := h 4096 2 2 48000 3 [[1, 0, 2, 0]] [.call (.writei [1, 0, 2, 0]), .app .go, .app .go,
    .app .go, .app .go, .call .drain, .call .close, .app .go, .app .go, .drain .go, .app .go,
    .app .go] _ _ (by decide) rfl (by simp) rfl rfl
  cases hrun

end Audiod.Shim
