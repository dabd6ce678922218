import Audiod.Shim

/-!
# Header first, once

The header is sent by the call that configures a handle, or by its drain thread
after a reconnect. The flags that make a drain thread send a command belong to
the process: a thread may find one set before its own connection has its header.
-/

namespace Audiod.Shim

def logged (o : Origin) (bs : Bytes) : List (Origin × Byte) := bs.map (o, ·)

/-- A log with one header and then the given frames. -/
def headed (hd : ℕ × ℕ × ℕ) (frames : List Bytes) : List (Origin × Byte) :=
  logged .header (Handle.headerOf hd) ++ logged .frame (frames.flatMap sendFrame)

/-- The payloads the drain thread sends. -/
def Fits (payload : Bytes) : Prop := payload.length ≤ drainChunk

def HeaderFirst (log : List (Origin × Byte)) : Prop :=
  ∃ hd frames, (∀ f ∈ frames, Fits f) ∧ log <+: headed hd frames

/-- A header goes out whole or not at all. -/
def AppSafe (h : Handle) (a : Answer) : Prop :=
  match h.app, a with
  | .commitSend _, .accept k => k = hdrSz
  | _, _ => True

/-- A command is taken for a configured handle only, and the header after a
reconnect goes out unless the peer is gone. -/
def DrainSafe (p : Process) (h : Handle) (a : Answer) : Prop :=
  match h.drain with
  | .mute => p.muteCmd ≠ 0 → h.configured = true
  | .flush => p.flushCmd = true → h.configured = true
  | .reHeader fd _ => a = .accept hdrSz ∨ a = .error ∧ ∀ c ∈ p.net.behind fd, c.alive = false
  | _ => True

def HeaderSafe (w : World) : Action → Prop
  | .handle i (.app a) => ∀ h ∈ w.handles i, AppSafe h a
  | .handle i (.drain a) => ∀ h ∈ w.handles i, DrainSafe w.proc h a
  | _ => True

instance (h : Handle) (a : Answer) : Decidable (AppSafe h a) := by
  unfold AppSafe
  split <;> infer_instance

instance (p : Process) (h : Handle) (a : Answer) : Decidable (DrainSafe p h a) := by
  unfold DrainSafe
  split <;> infer_instance

instance (w : World) (x : Action) : Decidable (HeaderSafe w x) :=
  match x with
  | .handle i (.app a) => inferInstanceAs (Decidable (∀ h ∈ w.handles i, AppSafe h a))
  | .handle i (.drain a) => inferInstanceAs (Decidable (∀ h ∈ w.handles i, DrainSafe w.proc h a))
  | .handle _ (.call _) | .open _ _ | .hangup _ | .elapse _ => isTrue trivial

/-! ### One handle -/

/-- The drain thread before it has sent anything, and whenever it is not sending. -/
def Plain : DrainPc → Prop
  | .top | .mute | .flush | .pop | .done => True
  | _ => False

/-- Outside a frame or a header, and on the connection it has. -/
def Resting : DrainPc → Prop
  | .send _ _ _ | .reSwap _ | .reClose _ _ | .reHeader _ _ => False
  | _ => True

def Committing : AppPc → Prop
  | .commitLoad | .commitStash _ | .commitSend _ => True
  | _ => False

def Writing : AppPc → Prop
  | .writeAnchor _ | .writeSilent _ | .writeMute _ _ | .writePush _ | .writeAdd _ => True
  | _ => False

def Offline : DrainPc → Prop
  | .reClose _ _ | .reStop _ | .reConnect _ => True
  | _ => False

structure Local (h : Handle) : Prop where
  early : h.configured = false → Plain h.drain ∧ h.ring.contents = []
  header : h.configured = true → h.header ≠ none
  commit : Committing h.app → h.configured = false
  write : Writing h.app → h.configured = true
  stash : ∀ fd, h.app = .commitStash fd → h.sock = some fd
  stashed : ∀ fd, h.app = .commitSend fd → h.sock = some fd ∧ h.header ≠ none
  sending : ∀ fd rest f, h.drain = .send fd rest f → h.sock = some fd
  heading : ∀ fd f, h.drain = .reHeader fd f → h.sock = some fd
  offline : Offline h.drain → h.sock = none
  joined : h.app = .closeFd → h.drain = .done

/-- The descriptor the handle holds open. -/
def Handle.fd (h : Handle) : Option ℕ :=
  match h.drain with
  | .reClose old _ => some old
  | _ => h.sock

/-- A log in the middle of a frame, with `rest` of it to be sent. -/
def Within (rest : Bytes) (log : List (Origin × Byte)) : Prop :=
  ∃ hd frames done payload, (∀ f ∈ frames ++ [payload], Fits f) ∧
    log = headed hd frames ++ logged .frame done ∧ done ++ rest = sendFrame payload

def Complete (log : List (Origin × Byte)) : Prop :=
  ∃ hd frames, (∀ f ∈ frames, Fits f) ∧ log = headed hd frames

def AtRest (configured : Bool) (c : Conn Origin) : Prop :=
  if configured then c.alive = false ∨ Complete c.sent else c.sent = []

/-- What the log of its connection says about a handle. -/
def Attached (h : Handle) (c : Conn Origin) : Prop :=
  match h.drain with
  | .send _ rest _ => c.alive = false ∨ Within rest c.sent
  | .reSwap _ | .reClose _ _ => True
  | .reHeader _ _ => c.sent = []
  | _ => AtRest h.configured c

structure Owned (n : Net Origin) (h : Handle) : Prop where
  loc : Local h
  conn : ∀ fd, h.fd = some fd → ∃ c, n.behind fd = some c ∧ Attached h c

structure Logs (n : Net Origin) : Prop where
  wf : n.WF
  first : ∀ c, HeaderFirst (n.conns c).sent

/-! ### Logs -/

theorem headerFirst_nil : HeaderFirst [] := ⟨(0, 0, 0), [], nofun, List.nil_prefix⟩

theorem Complete.first {log : List (Origin × Byte)} (h : Complete log) : HeaderFirst log := by
  obtain ⟨hd, frames, hfits, rfl⟩ := h
  exact ⟨hd, frames, hfits, List.prefix_rfl⟩

theorem logged_append (o : Origin) (a b : Bytes) : logged o (a ++ b) = logged o a ++ logged o b :=
  List.map_append

theorem headed_concat (hd : ℕ × ℕ × ℕ) (frames : List Bytes) (payload : Bytes) :
    headed hd (frames ++ [payload]) = headed hd frames ++ logged .frame (sendFrame payload) := by
  simp [headed, logged_append]

theorem Within.first {rest : Bytes} {log : List (Origin × Byte)} (h : Within rest log) :
    HeaderFirst log := by
  obtain ⟨hd, frames, done, payload, hfits, rfl, hsplit⟩ := h
  refine ⟨hd, frames ++ [payload], hfits, logged .frame rest, ?_⟩
  rw [headed_concat, ← hsplit, logged_append, List.append_assoc]

theorem Complete.within {log : List (Origin × Byte)} (h : Complete log) {payload : Bytes}
    (hp : Fits payload) : Within (sendFrame payload) log := by
  obtain ⟨hd, frames, hfits, rfl⟩ := h
  refine ⟨hd, frames, [], payload, ?_, by simp [logged], rfl⟩
  intro f hf
  rcases List.mem_append.mp hf with hold | hnew
  · exact hfits f hold
  · rw [List.mem_singleton.mp hnew]
    exact hp

theorem Within.accept {rest : Bytes} {log : List (Origin × Byte)} (h : Within rest log) (k : ℕ) :
    Within (rest.drop k) (log ++ logged .frame (rest.take k)) := by
  obtain ⟨hd, frames, done, payload, hfits, rfl, hsplit⟩ := h
  refine ⟨hd, frames, done ++ rest.take k, payload, hfits, ?_, ?_⟩
  · rw [logged_append, List.append_assoc]
  · rw [List.append_assoc, List.take_append_drop, hsplit]

theorem Within.complete {log : List (Origin × Byte)} (h : Within [] log) : Complete log := by
  obtain ⟨hd, frames, done, payload, hfits, rfl, hsplit⟩ := h
  rw [List.append_nil] at hsplit
  exact ⟨hd, frames ++ [payload], hfits, by rw [headed_concat, hsplit]⟩

theorem complete_header {c : Conn Origin} (hnil : c.sent = []) (hd : ℕ × ℕ × ℕ) :
    Complete (c.log .header ((Handle.headerOf hd).take hdrSz)).sent := by
  have htake : (Handle.headerOf hd).take hdrSz = Handle.headerOf hd :=
    List.take_of_length_le (Nat.le_of_eq (headerBytes_length hd.1 hd.2.1 hd.2.2))
  exact ⟨hd, [], nofun, by simp [htake, Conn.log, hnil, headed, logged]⟩

/-! ### What one step of a handle does to the sockets -/

variable {p p' : Process} {h h' : Handle} {n : Net Origin} {es : List Event}

/-- It keeps the logs in order, touches no connection of others, and a descriptor
it comes to hold was not open before. -/
structure StepOk (p : Process) (h : Handle) (p' : Process) (h' : Handle) : Prop where
  logs : Logs p'.net
  own : Owned p'.net h'
  frame : ∀ fd, h.fd ≠ some fd → p.net.behind fd ≠ none → p'.net.behind fd = p.net.behind fd
  fresh : ∀ fd, h'.fd = some fd → h.fd = some fd ∨ p.net.behind fd = none

theorem stepOk_same (hl : Logs p.net) (ho : Owned p.net h) (hnet : p'.net = p.net)
    (hfd : h'.fd = h.fd) (hloc : Local h')
    (hatt : ∀ fd c, h.fd = some fd → p.net.behind fd = some c → Attached h c → Attached h' c) :
    StepOk p h p' h' := by
  refine ⟨by rw [hnet]; exact hl, ⟨hloc, fun fd hf => ?_⟩, fun fd _ _ => by rw [hnet],
    fun fd hf => .inl (hfd ▸ hf)⟩
  rw [hfd] at hf
  obtain ⟨c, hc, ha⟩ := ho.conn fd hf
  exact ⟨c, by rw [hnet, hc], hatt fd c hf hc ha⟩

theorem stepOk_accept (hl : Logs p.net) (ho : Owned p.net h) {fd k : ℕ} {o : Origin} {bs : Bytes}
    (hfd : h.fd = some fd) (ha : p.net.accept fd o bs k = some p'.net) (hfd' : h'.fd = some fd)
    (hloc : Local h')
    (hatt : ∀ c, p.net.behind fd = some c → Attached h c → c.alive = true →
      Attached h' (c.log o (bs.take k)) ∧ HeaderFirst (c.log o (bs.take k)).sent) :
    StepOk p h p' h' := by
  obtain ⟨c, hc, halive, -, hc'⟩ := Net.accept_behind ha
  obtain ⟨x, hx, hattx⟩ := ho.conn fd hfd
  rw [hc, Option.some.injEq] at hx
  obtain ⟨hnew, hfirst⟩ := hatt c hc (hx ▸ hattx) halive
  refine ⟨⟨hl.wf.accept ha, fun d => ?_⟩, ⟨hloc, fun fd' hf => ?_⟩, fun fd' hne _ => ?_,
    fun fd' hf => .inl ?_⟩
  · rcases Net.accept_conns ha d with hsame | hbehind
    · rw [hsame]
      exact hl.first d
    · rw [hc', Option.some.injEq] at hbehind
      rw [← hbehind]
      exact hfirst
  · rw [hfd', Option.some.injEq] at hf
    rw [← hf]
    exact ⟨_, hc', hnew⟩
  · refine Net.accept_behind_ne hl.wf ha fun heq => hne ?_
    rw [hfd, heq]
  · rw [hfd, ← hf, hfd']

theorem stepOk_close (hl : Logs p.net) {fd : ℕ} (hfd : h.fd = some fd)
    (hnet : p'.net = p.net.close fd) (hfd' : h'.fd = none) (hloc : Local h') :
    StepOk p h p' h' := by
  refine ⟨?_, ⟨hloc, fun fd' hf => ?_⟩, fun fd' hne _ => ?_, fun fd' hf => ?_⟩
  · rw [hnet]
    exact ⟨hl.wf.close fd, hl.first⟩
  · rw [hfd'] at hf
    cases hf
  · rw [hnet]
    refine Net.close_behind_ne p.net fun heq => hne ?_
    rw [hfd, heq]
  · rw [hfd'] at hf
    cases hf

theorem Logs.connect {n' : Net Origin} (hl : Logs n) {fd : ℕ} (hc : n.connect fd = some n') :
    Logs n' := by
  refine ⟨hl.wf.connect hc, fun d => ?_⟩
  rcases Net.connect_conns hc d with hsame | hnil
  · rw [hsame]
    exact hl.first d
  · rw [hnil]
    exact headerFirst_nil

theorem stepOk_connect (hl : Logs p.net) {fd : ℕ} (hc : p.net.connect fd = some p'.net)
    (hfd' : h'.fd = some fd) (hloc : Local h') (hatt : Attached h' ⟨[], true⟩) :
    StepOk p h p' h' := by
  obtain ⟨hnone, hnew⟩ := Net.connect_behind hc
  refine ⟨hl.connect hc, ⟨hloc, fun fd' hf => ?_⟩, fun fd' _ hopen => ?_, fun fd' hf => .inr ?_⟩
  · rw [hfd', Option.some.injEq] at hf
    rw [← hf]
    exact ⟨_, hnew, hatt⟩
  · refine Net.connect_behind_ne hl.wf hc fun heq => hopen ?_
    rw [heq, hnone]
  · rw [hfd', Option.some.injEq] at hf
    rw [← hf, hnone]

@[simp] theorem atRest_true {c : Conn Origin} :
    AtRest true c ↔ c.alive = false ∨ Complete c.sent := by
  simp [AtRest]

@[simp] theorem atRest_false {c : Conn Origin} : AtRest false c ↔ c.sent = [] := by
  simp [AtRest]

theorem Plain.resting {pc : DrainPc} (h : Plain pc) : Resting pc := by
  cases pc <;> trivial

theorem Plain.online {pc : DrainPc} (h : Plain pc) : ¬Offline pc := by
  cases pc <;> simp [Plain, Offline] at h ⊢

theorem attached_resting (hr : Resting h.drain) {c : Conn Origin} :
    Attached h c ↔ AtRest h.configured c := by
  unfold Attached
  cases hd : h.drain <;> first | rfl | (rw [hd] at hr; cases hr)

theorem fd_of_resting (hr : Resting h.drain) : h.fd = h.sock := by
  unfold Handle.fd
  cases hd : h.drain <;> first | rfl | (rw [hd] at hr; cases hr)

/-- The sockets, and what `Attached` reads of a handle. -/
def wire (p : Process) (h : Handle) : Net Origin × Option ℕ × Bool × DrainPc :=
  (p.net, h.sock, h.configured, h.drain)

theorem stepOk_quiet (hl : Logs p.net) (ho : Owned p.net h) (hwire : wire p' h' = wire p h)
    (hloc : Local h') : StepOk p h p' h' := by
  simp only [wire, Prod.mk.injEq] at hwire
  obtain ⟨hnet, hsock, hcfg, hdrain⟩ := hwire
  refine stepOk_same hl ho hnet ?_ hloc fun fd c _ _ hatt => ?_
  · simp only [Handle.fd, hdrain, hsock]
  · simpa only [Attached, hdrain, hcfg] using hatt

theorem stepOk_rest (hl : Logs p.net) (ho : Owned p.net h) (hnet : p'.net = p.net)
    (hr : Resting h.drain) (hr' : Resting h'.drain) (hsock : h'.sock = h.sock)
    (hcfg : h'.configured = h.configured) (hloc : Local h') : StepOk p h p' h' := by
  refine stepOk_same hl ho hnet ?_ hloc fun fd c _ _ hatt => ?_
  · rw [fd_of_resting hr, fd_of_resting hr', hsock]
  · rw [attached_resting hr] at hatt
    rw [attached_resting hr', hcfg]
    exact hatt

/-! ### The calls -/

theorem local_app (hl : Local h) {app : AppPc} (hc : ¬Committing app)
    (hw : Writing app → h.configured = true) (hj : app = .closeFd → h.drain = .done) :
    Local { h with app := app } :=
  { hl with
    commit := fun hcom => absurd hcom hc
    write := hw
    stash := fun fd heq => absurd (by rw [show app = _ from heq]; trivial) hc
    stashed := fun fd heq => absurd (by rw [show app = _ from heq]; trivial) hc
    joined := hj }

theorem stepOk_moved (hl : Logs p.net) (ho : Owned p.net h) {g : Handle} {app : AppPc}
    (hg : Local g) (hwire : wire p' { g with app := app } = wire p h) (hc : ¬Committing app)
    (hw : Writing app → g.configured = true) (hj : app = .closeFd → g.drain = .done) :
    StepOk p h p' { g with app := app } :=
  stepOk_quiet hl ho hwire (local_app hg hc hw hj)

theorem stepOk_commit (hl : Logs p.net) (ho : Owned p.net h) : StepOk p h p h.commit := by
  unfold Handle.commit
  split
  · exact stepOk_quiet hl ho rfl ho.loc
  · rename_i hno
    have hcfg : h.configured = false := by
      cases hc : h.configured with
      | false => rfl
      | true => exact absurd (.inr (.inr hc)) hno
    exact stepOk_quiet hl ho rfl
      { ho.loc with
        commit := fun _ => hcfg, write := nofun, stash := nofun, stashed := nofun, joined := nofun }

theorem stepOk_call (hl : Logs p.net) (ho : Owned p.net h) (c : Call)
    (hs : h.call p c = ((p', h'), es)) : StepOk p h p' h' := by
  have hloc := ho.loc
  cases c with
  | setFormat fmt | setChannels m | setRate rate | prepare | drain | start =>
    cases hs
    exact stepOk_quiet hl ho rfl { hloc with }
  | hwParams =>
    cases hs
    exact stepOk_commit hl ho
  | setParams fmt channels rate =>
    cases hs
    have hset : Owned p.net { h with format := fmt, channels := channels, rate := rate } :=
      ⟨{ hloc with }, ho.conn⟩
    have hc := stepOk_commit hl hset
    exact ⟨hc.logs, hc.own, hc.frame, hc.fresh⟩
  | writei data =>
    simp only [Handle.call] at hs
    split at hs
    · rename_i hc
      cases hs
      exact stepOk_moved hl ho hloc rfl nofun (fun _ => hc.1) nofun
    · cases hs
      exact stepOk_quiet hl ho rfl hloc
  | drop | close =>
    cases hs
    exact stepOk_moved hl ho hloc rfl nofun nofun nofun
  | pause on =>
    simp only [Handle.call] at hs
    split at hs
    · cases hs
      exact stepOk_quiet hl ho rfl { hloc with }
    · cases hs
      exact stepOk_quiet hl ho rfl { hloc with }

/- `send_header` of `commit_configured`: nothing has been sent before. -/
theorem stepOk_commitSend (hl : Logs p.net) (ho : Owned p.net h) {fd : ℕ}
    (hpc : h.app = .commitSend fd) {net : Net Origin}
    (hacc : p.net.accept fd .header (headerBytes h.rate h.channels h.formatCode) hdrSz = some net) :
    StepOk p h { p with net := net }
      { h with configured := true, state := .prepared, app := .idle } := by
  have hloc := ho.loc
  have hcfg : h.configured = false := hloc.commit (by rw [hpc]; trivial)
  obtain ⟨hsock, hhead⟩ := hloc.stashed _ hpc
  have hplain := (hloc.early hcfg).1
  have hfd : h.fd = some fd := by rw [fd_of_resting hplain.resting, hsock]
  refine stepOk_accept hl ho hfd hacc hfd
    { hloc with
      early := nofun, header := fun _ => hhead, commit := nofun, write := fun _ => rfl
      stash := nofun, stashed := nofun, joined := nofun } fun c _ hatt _ => ?_
  have hnil : c.sent = [] := by
    rw [attached_resting hplain.resting, hcfg, atRest_false] at hatt
    exact hatt
  have hcomp := complete_header hnil (h.rate, h.channels, h.formatCode)
  have hnew : Resting { h with
      configured := true, state := .prepared, app := .idle }.drain := hplain.resting
  exact ⟨(attached_resting hnew).mpr (atRest_true.mpr (.inr hcomp)), hcomp.first⟩

theorem stepOk_closeFd (hl : Logs p.net) (ho : Owned p.net h) (hpc : h.app = .closeFd) {fd : ℕ}
    (hsock : h.sock = some fd) :
    StepOk p h { p with net := p.net.close fd } { h with sock := none, app := .closed } := by
  have hloc := ho.loc
  have hdone := hloc.joined hpc
  have hr : Resting h.drain := by rw [hdone]; trivial
  refine stepOk_close hl (by rw [fd_of_resting hr, hsock]) rfl (fd_of_resting hr) ?_
  exact
    { hloc with
      commit := nofun, write := nofun, stash := nofun, stashed := nofun, joined := nofun
      sending := fun _ _ _ heq => by rw [show h.drain = _ from heq] at hdone; cases hdone
      heading := fun _ _ heq => by rw [show h.drain = _ from heq] at hdone; cases hdone
      offline := fun _ => rfl }

theorem stepOk_committing (hl : Logs p.net) (ho : Owned p.net h) {a : Answer} (hok : AppSafe h a)
    (hg : Committing h.app) (hs : h.appStep p a = some ((p', h'), es)) : StepOk p h p' h' := by
  have hloc := ho.loc
  have hcom := hloc.commit
  unfold AppSafe at hok
  unfold Handle.appStep at hs
  cases hpc : h.app <;> rw [hpc] at hg hok hcom hs <;> dsimp only at hs
  case commitLoad =>
    split at hs
    · cases hs
      exact stepOk_moved hl ho hloc rfl nofun nofun nofun
    · rename_i fd hsock
      cases hs
      exact stepOk_quiet hl ho rfl
        { hloc with
          commit := fun _ => hcom trivial, write := nofun, stashed := nofun, joined := nofun
          stash := fun _ heq => by cases heq; exact hsock }
  case commitStash fd =>
    have hsock := hloc.stash _ hpc
    cases hs
    exact stepOk_quiet hl ho rfl
      { hloc with
        header := nofun, commit := fun _ => hcom trivial, write := nofun, stash := nofun
        stashed := fun _ heq => by cases heq; exact ⟨hsock, nofun⟩
        joined := nofun }
  case commitSend fd =>
    split at hs
    · rename_i k
      have hk : k = hdrSz := hok
      split at hs
      · cases hs
      · rename_i net hacc
        rw [if_pos hk] at hs
        cases hs
        exact stepOk_commitSend hl ho hpc (hk ▸ hacc)
    · cases hs
      exact stepOk_moved hl ho hloc rfl nofun nofun nofun
    · cases hs
  all_goals exact hg.elim

theorem stepOk_write (hl : Logs p.net) (ho : Owned p.net h) {a : Answer} (hg : Writing h.app)
    (hs : h.appStep p a = some ((p', h'), es)) : StepOk p h p' h' := by
  have hloc := ho.loc
  have hwrite := hloc.write
  unfold Handle.appStep at hs
  cases hpc : h.app <;> rw [hpc] at hg hwrite hs <;> dsimp only at hs
  case writeAnchor data =>
    cases hs
    have hw : Local { h with playStart := h.playStart.or (some p.clock) } := { hloc with }
    exact stepOk_moved hl ho hw rfl nofun (fun _ => hwrite trivial) nofun
  case writeSilent data =>
    cases hs
    split
    · exact stepOk_moved hl ho hloc rfl nofun (fun _ => hwrite trivial) nofun
    · split
      · exact stepOk_moved hl ho hloc rfl nofun (fun _ => hwrite trivial) nofun
      · exact stepOk_moved hl ho hloc rfl nofun (fun _ => hwrite trivial) nofun
  case writeMute cmd data =>
    cases hs
    exact stepOk_moved hl ho hloc rfl nofun (fun _ => hwrite trivial) nofun
  case writePush data =>
    split at hs
    · cases hs
    · rename_i ring _
      have hcfg := hwrite trivial
      have hw : Local { h with ring := ring } :=
        { hloc with early := fun hno => absurd hcfg (by rw [hno]; nofun) }
      cases hs
      exact stepOk_moved hl ho hw rfl nofun (fun _ => hcfg) nofun
  case writeAdd k =>
    cases hs
    have hw : Local { h with totalPushed := h.totalPushed + k } := { hloc with }
    exact stepOk_moved hl ho hw rfl nofun nofun nofun
  all_goals exact hg.elim

theorem stepOk_ending (hl : Logs p.net) (ho : Owned p.net h) {a : Answer} (hg : h.app.Ending)
    (hs : h.appStep p a = some ((p', h'), es)) : StepOk p h p' h' := by
  have hloc := ho.loc
  unfold Handle.appStep at hs
  cases hpc : h.app <;> rw [hpc] at hg hs <;> dsimp only at hs
  case dropClear =>
    cases hs
    have hw : Local { h with ring := h.ring.clear } :=
      { hloc with early := fun hno => ⟨(hloc.early hno).1, rfl⟩ }
    exact stepOk_moved hl ho hw rfl nofun nofun nofun
  case dropPushed =>
    cases hs
    have hw : Local { h with totalPushed := 0 } := { hloc with }
    exact stepOk_moved hl ho hw rfl nofun nofun nofun
  case dropWritten =>
    cases hs
    have hw : Local { h with totalWritten := 0 } := { hloc with }
    exact stepOk_moved hl ho hw rfl nofun nofun nofun
  case dropPlay =>
    cases hs
    have hw : Local { h with playStart := none } := { hloc with }
    exact stepOk_moved hl ho hw rfl nofun nofun nofun
  case dropFlush =>
    have hw : Local { h with state := .prepared, drops := h.drops + 1 } := { hloc with }
    split at hs
    · cases hs
      exact stepOk_moved hl ho hw rfl nofun nofun nofun
    · cases hs
      exact stepOk_moved hl ho hw rfl nofun nofun nofun
  case closeStop =>
    cases hs
    have hw : Local { h with drainStop := true } := { hloc with }
    exact stepOk_moved hl ho hw rfl nofun nofun nofun
  case closeInterrupt =>
    cases hs
    have hw : Local { h with ring := h.ring.interrupt } := { hloc with }
    exact stepOk_moved hl ho hw rfl nofun nofun nofun
  case closeJoin =>
    split at hs
    · rename_i hdone
      cases hs
      exact stepOk_moved hl ho hloc rfl nofun nofun fun _ => hdone
    · cases hs
  case closeFd =>
    split at hs
    · cases hs
      exact stepOk_moved hl ho hloc rfl nofun nofun nofun
    · rename_i fd hsock
      cases hs
      exact stepOk_closeFd hl ho hpc hsock
  all_goals exact hg.elim

theorem stepOk_app (hl : Logs p.net) (ho : Owned p.net h) {a : Answer} (hok : AppSafe h a)
    (hs : h.appStep p a = some ((p', h'), es)) : StepOk p h p' h' := by
  cases hpc : h.app
  case idle | closed =>
    simp only [Handle.appStep, hpc] at hs
    cases hs
  case commitLoad | commitStash fd | commitSend fd =>
    exact stepOk_committing hl ho hok (by rw [hpc]; trivial) hs
  case writeAnchor _ | writeSilent _ | writeMute _ _ | writePush _ | writeAdd _ =>
    exact stepOk_write hl ho (by rw [hpc]; trivial) hs
  all_goals exact stepOk_ending hl ho (by rw [hpc]; trivial) hs

/-! ### The drain thread -/

theorem local_busy (hl : Local h) {pc : DrainPc} {sock : Option ℕ} (hc : h.configured = true)
    (hs : ∀ fd rest f, pc = .send fd rest f → sock = some fd)
    (hh : ∀ fd f, pc = .reHeader fd f → sock = some fd) (ho : Offline pc → sock = none)
    (hj : h.app ≠ .closeFd) : Local { h with sock := sock, drain := pc } := by
  have hno : ¬Committing h.app := by
    intro hcom
    rw [hl.commit hcom] at hc
    cases hc
  exact
    { hl with
      early := fun hf => by rw [show h.configured = false from hf] at hc; cases hc
      stash := fun fd heq => absurd (by rw [show h.app = _ from heq]; trivial) hno
      stashed := fun fd heq => absurd (by rw [show h.app = _ from heq]; trivial) hno
      sending := hs
      heading := hh
      offline := ho
      joined := fun hcl => absurd hcl hj }

theorem local_plain (hl : Local h) {pc : DrainPc} (hp : Plain pc) (hj : h.app ≠ .closeFd) :
    Local { h with drain := pc } :=
  { hl with
    early := fun hno => ⟨hp, (hl.early hno).2⟩
    sending := fun fd rest f heq => by rw [show pc = _ from heq] at hp; cases hp
    heading := fun fd f heq => by rw [show pc = _ from heq] at hp; cases hp
    offline := fun hoff => absurd hoff hp.online
    joined := fun hc => absurd hc hj }

theorem stepOk_trySend (hl : Logs p.net) (ho : Owned p.net h) (hplain : Plain h.drain)
    (hcfg : h.configured = true) (hj : h.app ≠ .closeFd) {q : Process} {f : Frame} {skip : DrainPc}
    (hs : h.trySend q f skip = ((p', h'), es)) (hq : q.net = p.net) (hfits : Fits f.payload)
    (hskip : Plain skip) : StepOk p h p' h' := by
  unfold Handle.trySend at hs
  split at hs
  · cases hs
    exact stepOk_rest hl ho hq hplain.resting hskip.resting rfl rfl (local_plain ho.loc hskip hj)
  · rename_i fd hsock
    cases hs
    refine stepOk_same hl ho hq (fd_of_resting hplain.resting).symm ?_ fun _ c _ _ hatt => ?_
    · exact local_busy ho.loc hcfg (fun _ _ _ heq => by cases heq; exact hsock) nofun nofun hj
    · rw [attached_resting hplain.resting, hcfg, atRest_true] at hatt
      exact hatt.imp_right fun hcomp => hcomp.within hfits

theorem stepOk_pop (hl : Logs p.net) (ho : Owned p.net h) (hpc : h.drain = .pop)
    (hj : h.app ≠ .closeFd) {a : Answer} (hs : h.drainStep p a = some ((p', h'), es)) :
    StepOk p h p' h' := by
  have hloc := ho.loc
  have hplain : Plain h.drain := by rw [hpc]; trivial
  simp only [Handle.drainStep, hpc] at hs
  split at hs
  · cases hs
  · rename_i ring hpop
    cases hs
    have hempty : h.configured = false → ring.contents = [] := by
      intro hno
      have hnil := (hloc.early hno).2
      rcases Ring.pop_cases hpop with ⟨-, hrest⟩ | ⟨-, hrest⟩
      · rw [hrest, hnil]
      · rw [hrest, hnil, List.drop_nil]
    have hring : Local { h with ring := ring } :=
      { hloc with early := fun hno => ⟨(hloc.early hno).1, hempty hno⟩ }
    exact stepOk_rest hl ho rfl hplain.resting trivial rfl rfl (local_plain hring trivial hj)
  · rename_i c cs ring hpop
    have htake : c :: cs = h.ring.contents.take drainChunk ∧
        ring.contents = h.ring.contents.drop drainChunk :=
      (Ring.pop_cases hpop).resolve_left fun hno => nomatch hno.1
    -- There is audio in the ring, so the handle is configured.
    have hc : h.configured = true := by
      cases hno : h.configured with
      | true => rfl
      | false =>
        rw [(hloc.early hno).2, List.take_nil] at htake
        exact nomatch htake.1
    have hring : Owned p.net { h with ring := ring } :=
      ⟨{ hloc with early := fun hno => by rw [hc] at hno; cases hno }, ho.conn⟩
    have hfits : Fits (Frame.pcm (c :: cs)).payload := by
      rw [Fits, Frame.payload, List.length_map, htake.1, List.length_take]
      exact Nat.min_le_left _ _
    have hstep := stepOk_trySend hl hring hplain hc hj (Option.some.inj hs) rfl hfits trivial
    exact ⟨hstep.logs, hstep.own, hstep.frame, hstep.fresh⟩

theorem stepOk_send (hl : Logs p.net) (ho : Owned p.net h) (hc : h.configured = true) {fd : ℕ}
    {rest : Bytes} {f : Frame} (hpc : h.drain = .send fd rest f) (hj : h.app ≠ .closeFd)
    {a : Answer} (hs : h.drainStep p a = some ((p', h'), es)) : StepOk p h p' h' := by
  have hloc := ho.loc
  have hsock := hloc.sending fd rest f hpc
  have hfd : h.fd = some fd := by simp only [Handle.fd, hpc, hsock]
  have hwithin : ∀ c, Attached h c → c.alive = true → Within rest c.sent := by
    intro c hatt halive
    simpa only [Attached, hpc, halive, Bool.true_eq_false, false_or] using hatt
  simp only [Handle.drainStep, hpc] at hs
  split at hs
  · rename_i k
    split at hs
    · cases hs
    · rename_i net hacc
      split at hs
      · rename_i hlen
        have hrest : Resting { h with drain := Handle.next f }.drain := by cases f <;> trivial
        have hlocal : Local { h with drain := Handle.next f } := by
          cases f <;> exact local_busy hloc hc nofun nofun nofun hj
        cases hs
        refine stepOk_accept hl ho hfd hacc ?_ hlocal fun c _ hatt halive => ?_
        · rw [fd_of_resting hrest, hsock]
        · have hcomp : Complete (c.log .frame (rest.take k)).sent := by
            have hw := (hwithin c hatt halive).accept k
            rw [List.drop_eq_nil_of_le hlen] at hw
            exact hw.complete
          refine ⟨(attached_resting hrest).mpr ?_, hcomp.first⟩
          show AtRest h.configured _
          rw [hc, atRest_true]
          exact .inr hcomp
      · cases hs
        refine stepOk_accept hl ho hfd hacc hsock ?_ fun c _ hatt halive => ?_
        · exact local_busy hloc hc (fun _ _ _ heq => by cases heq; exact hsock) nofun nofun hj
        · have hw := (hwithin c hatt halive).accept k
          exact ⟨.inr hw, hw.first⟩
  · cases hs
    refine stepOk_same hl ho rfl ?_ ?_ fun _ _ _ _ _ => trivial
    · simp only [Handle.fd, hpc]
    · exact local_busy hloc hc nofun nofun nofun hj
  · cases hs

theorem stepOk_reSwap (hl : Logs p.net) (ho : Owned p.net h) (hc : h.configured = true) {f : Frame}
    (hpc : h.drain = .reSwap f) (hj : h.app ≠ .closeFd) {a : Answer}
    (hs : h.drainStep p a = some ((p', h'), es)) : StepOk p h p' h' := by
  have hloc := ho.loc
  have hfd : h.fd = h.sock := by simp only [Handle.fd, hpc]
  simp only [Handle.drainStep, hpc] at hs
  split at hs
  · rename_i hsock
    cases hs
    refine stepOk_same hl ho rfl hfd.symm ?_ fun fd _ hf _ _ => ?_
    · exact local_busy hloc hc nofun nofun (fun _ => hsock) hj
    · rw [hfd, hsock] at hf
      cases hf
  · rename_i old hsock
    cases hs
    refine stepOk_same hl ho rfl ?_ ?_ fun _ _ _ _ _ => trivial
    · rw [hfd, hsock]
      rfl
    · exact local_busy hloc hc nofun nofun (fun _ => rfl) hj

theorem stepOk_reConnect (hl : Logs p.net) (ho : Owned p.net h) (hc : h.configured = true)
    {f : Frame} (hpc : h.drain = .reConnect f) (hj : h.app ≠ .closeFd) {a : Answer}
    (hs : h.drainStep p a = some ((p', h'), es)) : StepOk p h p' h' := by
  have hloc := ho.loc
  have hsock := hloc.offline (by rw [hpc]; trivial)
  have hr : Resting h.drain := by rw [hpc]; trivial
  simp only [Handle.drainStep, hpc] at hs
  split at hs
  · rename_i fd
    split at hs
    · cases hs
    · rename_i net hconn
      cases hs
      refine stepOk_connect hl hconn rfl ?_ rfl
      exact local_busy hloc hc nofun (fun _ _ heq => by cases heq; rfl) nofun hj
  · cases hs
    exact stepOk_rest hl ho rfl hr trivial rfl rfl
      (local_busy hloc hc nofun nofun (fun _ => hsock) hj)
  · cases hs

/- The header after a reconnect: the connection is new, nothing has been sent. -/
theorem stepOk_reHeader (hl : Logs p.net) (ho : Owned p.net h) (hc : h.configured = true) {fd : ℕ}
    {f : Frame} (hpc : h.drain = .reHeader fd f) (hj : h.app ≠ .closeFd) {a : Answer}
    (hok : a = .accept hdrSz ∨ a = .error ∧ ∀ c ∈ p.net.behind fd, c.alive = false)
    (hs : h.drainStep p a = some ((p', h'), es)) : StepOk p h p' h' := by
  have hloc := ho.loc
  have hsock := hloc.heading fd f hpc
  have hfd : h.fd = some fd := by simp only [Handle.fd, hpc, hsock]
  have hnext : Local { h with drain := .reWritten f } :=
    local_busy hloc hc nofun nofun nofun hj
  simp only [Handle.drainStep, hpc] at hs
  split at hs
  · rename_i hnone
    exact absurd hnone (hloc.header hc)
  · rename_i hd hsome
    split at hs
    · rename_i k
      have hk : k = hdrSz := by simpa using hok
      split at hs
      · cases hs
      · rename_i net hacc
        cases hs
        refine stepOk_accept hl ho hfd hacc hsock hnext fun c hcb hatt halive => ?_
        have hnil : c.sent = [] := by
          simpa only [Attached, hpc] using hatt
        have hcomp : Complete (c.log .header ((Handle.headerOf hd).take k)).sent := by
          rw [hk]
          exact complete_header hnil hd
        refine ⟨?_, hcomp.first⟩
        show AtRest h.configured _
        rw [hc, atRest_true]
        exact .inr hcomp
    · cases hs
      refine stepOk_same hl ho rfl ?_ hnext fun fd' c' hf hcb' _ => ?_
      · simp only [Handle.fd, hpc]
      · rw [hfd, Option.some.injEq] at hf
        have hdead : c'.alive = false := (hok.resolve_left nofun).2 c' (hf ▸ hcb')
        show AtRest h.configured c'
        rw [hc, atRest_true]
        exact .inl hdead
    · cases hs

theorem not_closing (ho : Owned p.net h) (hd : h.drain ≠ .done) : h.app ≠ .closeFd :=
  fun hc => hd (ho.loc.joined hc)

theorem configured_busy (ho : Owned p.net h) (hno : ¬Plain h.drain) : h.configured = true := by
  cases hc : h.configured with
  | true => rfl
  | false => exact absurd (ho.loc.early hc).1 hno

theorem stepOk_loop (hl : Logs p.net) (ho : Owned p.net h) (hg : h.drain.Looping) {a : Answer}
    (hok : DrainSafe p h a) (hs : h.drainStep p a = some ((p', h'), es)) : StepOk p h p' h' := by
  have hloc := ho.loc
  have hopen := not_closing ho
  unfold DrainSafe at hok
  cases hpc : h.drain <;> rw [hpc] at hg hopen hok
  case top =>
    have hr : Resting h.drain := by rw [hpc]; trivial
    simp only [Handle.drainStep, hpc] at hs
    cases hs
    split
    · exact stepOk_rest hl ho rfl hr trivial rfl rfl (local_plain hloc trivial (hopen nofun))
    · exact stepOk_rest hl ho rfl hr trivial rfl rfl (local_plain hloc trivial (hopen nofun))
  case mute =>
    have hplain : Plain h.drain := by rw [hpc]; trivial
    simp only [Handle.drainStep, hpc] at hs
    split at hs
    · cases hs
      exact stepOk_rest hl ho rfl hplain.resting trivial rfl rfl
        (local_plain hloc trivial (hopen nofun))
    · rename_i hset
      exact stepOk_trySend hl ho hplain (hok hset) (hopen nofun) (Option.some.inj hs) rfl
        (by simp [Fits, Frame.payload, drainChunk]) trivial
  case flush =>
    have hplain : Plain h.drain := by rw [hpc]; trivial
    simp only [Handle.drainStep, hpc] at hs
    split at hs
    · rename_i hset
      exact stepOk_trySend hl ho hplain (hok hset) (hopen nofun) (Option.some.inj hs) rfl
        (by simp [Fits, Frame.payload, drainChunk]) trivial
    · cases hs
      exact stepOk_rest hl ho rfl hplain.resting trivial rfl rfl
        (local_plain hloc trivial (hopen nofun))
  case pop => exact stepOk_pop hl ho hpc (hopen nofun) hs
  all_goals exact hg.elim

theorem stepOk_reconnect (hl : Logs p.net) (ho : Owned p.net h) (hg : h.drain.Reconnecting)
    {a : Answer} (hok : DrainSafe p h a) (hs : h.drainStep p a = some ((p', h'), es)) :
    StepOk p h p' h' := by
  have hloc := ho.loc
  have hcfg := configured_busy ho
  have hopen := not_closing ho
  unfold DrainSafe at hok
  cases hpc : h.drain <;> rw [hpc] at hg hcfg hopen hok
  case reSwap f => exact stepOk_reSwap hl ho (hcfg nofun) hpc (hopen nofun) hs
  case reClose old f =>
    have hsock := hloc.offline (by rw [hpc]; trivial)
    simp only [Handle.drainStep, hpc] at hs
    cases hs
    refine stepOk_close hl (by simp only [Handle.fd, hpc]) rfl hsock ?_
    exact local_busy hloc (hcfg nofun) nofun nofun (fun _ => hsock) (hopen nofun)
  case reStop f =>
    have hsock := hloc.offline (by rw [hpc]; trivial)
    have hr : Resting h.drain := by rw [hpc]; trivial
    simp only [Handle.drainStep, hpc] at hs
    cases hs
    split
    · exact stepOk_rest hl ho rfl hr trivial rfl rfl (local_plain hloc trivial (hopen nofun))
    · exact stepOk_rest hl ho rfl hr trivial rfl rfl
        (local_busy hloc (hcfg nofun) nofun nofun (fun _ => hsock) (hopen nofun))
  case reConnect f => exact stepOk_reConnect hl ho (hcfg nofun) hpc (hopen nofun) hs
  case reHeader fd f => exact stepOk_reHeader hl ho (hcfg nofun) hpc (hopen nofun) hok hs
  case reWritten f =>
    have hr : Resting h.drain := by rw [hpc]; trivial
    have hw : Local { h with totalWritten := 0 } := { hloc with }
    simp only [Handle.drainStep, hpc] at hs
    cases hs
    exact stepOk_rest hl ho rfl hr trivial rfl rfl
      (local_busy hw (hcfg nofun) nofun nofun nofun (hopen nofun))
  case rePushed f =>
    have hr : Resting h.drain := by rw [hpc]; trivial
    have hw : Local { h with totalPushed := 0 } := { hloc with }
    simp only [Handle.drainStep, hpc] at hs
    cases hs
    exact stepOk_rest hl ho rfl hr trivial rfl rfl
      (local_busy hw (hcfg nofun) nofun nofun nofun (hopen nofun))
  case rePlay f =>
    have hr : Resting h.drain := by rw [hpc]; trivial
    have hplain : Plain (Handle.resume f) := by cases f <;> trivial
    have hw : Local { h with playStart := none } := { hloc with }
    simp only [Handle.drainStep, hpc] at hs
    cases hs
    exact stepOk_rest hl ho rfl hr hplain.resting rfl rfl (local_plain hw hplain (hopen nofun))
  all_goals exact hg.elim

theorem stepOk_drain (hl : Logs p.net) (ho : Owned p.net h) {a : Answer} (hok : DrainSafe p h a)
    (hs : h.drainStep p a = some ((p', h'), es)) : StepOk p h p' h' := by
  have hcfg := configured_busy ho
  have hopen := not_closing ho
  cases hpc : h.drain
  case top | mute | flush | pop => exact stepOk_loop hl ho (by rw [hpc]; trivial) hok hs
  case send fd rest f =>
    exact stepOk_send hl ho (hcfg (by rw [hpc]; nofun)) hpc (hopen (by rw [hpc]; nofun)) hs
  case written m =>
    have hr : Resting h.drain := by rw [hpc]; trivial
    have hw : Local { h with totalWritten := h.totalWritten + m } := { ho.loc with }
    simp only [Handle.drainStep, hpc] at hs
    cases hs
    exact stepOk_rest hl ho rfl hr trivial rfl rfl
      (local_plain hw trivial (hopen (by rw [hpc]; nofun)))
  case done =>
    simp only [Handle.drainStep, hpc] at hs
    cases hs
  all_goals exact stepOk_reconnect hl ho (by rw [hpc]; trivial) hok hs

end Audiod.Shim
