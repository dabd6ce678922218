import Audiod.Server

/-!
# Peers that are not allowed (`docs/security.md`, "Peer authentication")

`peer_allowed` is asked by the thread of a connection, after the accept loop has read its
header. A peer that is not allowed has no influence as long as the loop accepts its
connection only when it has closed it without a byte: there is no header to read then.
-/

namespace Audiod.Daemon

open Machine (Thinned)

/-- The connection of an event. -/
def Event.conn : Event → Option ℕ
  | .accepted c | .header c _ | .dropped c | .thread c _ => some c
  | .mixer _ => none

def Input.conn : Input → Option ℕ
  | .connect c | .send c _ | .hangup c | .thread c _ => some c
  | .loop _ | .mix _ | .elapse _ | .signal => none

def Input.isLoop : Input → Bool
  | .loop _ => true
  | _ => false

/-- The connection a byte was read from. -/
def Event.readFrom : Event → Option ℕ
  | .header c _ | .thread c (.read _) => some c
  | _ => none

/-- What threads and mixer do: connections served, streams registered, commands applied. -/
def Event.isEffect : Event → Bool
  | .thread _ _ | .mixer _ => true
  | _ => false

/-- The connection whose peer has to send something before the loop goes on. -/
def Server.waitsFor {σ : Type*} (s : Server σ) : Option ℕ :=
  match s.loop with
  | .header c _ _ => if s.peers c = some ⟨[], false⟩ then some c else none
  | _ => none

/-- Of no connection, or of one whose peer is allowed. -/
def Setup.clears (u : Setup) (c : Option ℕ) : Bool := c.all u.allowed

section

variable {σ : Type*} [PackArith σ] (δ : Type*) [WideArith δ] [FloatCasts δ σ]

/-- What a run owes to peers that are not allowed: none of their bytes is read, the loop
does not wait for them, and the run without them, and without some steps of the loop, has
the same effects and leaves the same behind. -/
structure Isolated (u : Setup) (s : Server σ) (is : List Input) (t : Server σ)
    (tr : List Event) : Prop where
  unread : ∀ e ∈ tr, u.clears e.readFrom = true
  free : u.clears t.waitsFor = true
  same : ∃ js t' tr', Thinned (fun i => u.clears i.conn = true)
      (fun i => u.clears i.conn = false ∨ i.isLoop = true) is js ∧
    (Server.machine δ u).run s js = some (t', tr') ∧ t'.shared = t.shared ∧
      tr'.filter Event.isEffect = tr.filter Event.isEffect

end

/-- The connection the loop takes is of an allowed peer, or closed without a byte sent. -/
def Screened {σ : Type*} (u : Setup) (s : Server σ) : Input → Prop
  | .loop (.bytes _) => s.loop = .accept →
    ∀ c, s.backlog.head? = some c → u.allowed c = true ∨ s.peers c = some ⟨[], true⟩
  | _ => True

instance {σ : Type*} (u : Setup) (s : Server σ) (i : Input) : Decidable (Screened u s i) :=
  match i with
  | .loop (.bytes _) =>
    match h : s.backlog.head? with
    | none => isTrue fun _ c hc => by rw [h] at hc; cases hc
    | some c => decidable_of_iff (s.loop = .accept →
        u.allowed c = true ∨ s.peers c = some ⟨[], true⟩)
        ⟨fun hs hl d hd => by rw [h] at hd; cases hd; exact hs hl, fun hs hl => hs hl c h⟩
  | .loop (.error _) | .connect _ | .send _ _ | .hangup _ | .thread _ _ | .mix _ | .elapse _
  | .signal => isTrue trivial

/-! ### What a peer that is not allowed can do -/

section

variable {σ : Type*} {u : Setup} {s s' t : Server σ} {es : List Event}

theorem Setup.ne_of_allowed {c d : ℕ} (hc : u.allowed c = true) (hd : u.allowed d = false) :
    d ≠ c := by
  rintro rfl
  rw [hc] at hd
  cases hd

/-- No thread has been started for a peer that is not allowed, and one whose header is
being read has gone without a byte. -/
structure Clean (u : Setup) (s : Server σ) : Prop where
  threads : ∀ c, u.allowed c = false → s.threads c = none
  header : ∀ c got deadline, s.loop = .header c got deadline → u.allowed c = false →
    s.peers c = some ⟨[], true⟩

theorem clean_init (volume : F32) : Clean u (Server.init volume : Server σ) :=
  ⟨fun _ _ => rfl, nofun⟩

/-- The loop turns to a peer that is not allowed, and away from it. -/
def Event.isTurn : Event → Bool
  | .accepted _ | .dropped _ => true
  | _ => false

/-- All an event may tell of such a peer. -/
def Event.Passes (u : Setup) (e : Event) : Prop := u.clears e.conn = true ∨ e.isTurn = true

theorem Server.setPeer_peers (s : Server σ) (c d : ℕ) (p : Peer) :
    (s.setPeer c p).peers d = if d = c then some p else s.peers d :=
  Function.update_apply ..

theorem loopStep_header {c deadline : ℕ} {got : Bytes} {a : Answer}
    (hl : s.loop = .header c got deadline) (hs : s.loopStep a = some (s', es)) :
    ∃ p q r, s.peers c = some p ∧ p.read (hdrSz - got.length) a = some (r, q) ∧
      s' = { (headerRead s.shared.mixer.now c got deadline r).started.elim (s.setPeer c q)
          ((s.setPeer c q).start c) with
        loop := (headerRead s.shared.mixer.now c got deadline r).loop } ∧
      es = (headerRead s.shared.mixer.now c got deadline r).events := by
  simp only [Server.loopStep, hl] at hs
  obtain ⟨p, hp, hs⟩ := Option.bind_eq_some_iff.mp hs
  obtain ⟨⟨r, q⟩, hr, hs⟩ := Option.map_eq_some_iff.mp hs
  cases hs
  exact ⟨p, q, r, hp, hr, rfl, rfl⟩

theorem headerRead_conn (now c : ℕ) (got : Bytes) (deadline : ℕ) (r : Except ReadError Bytes) :
    ∀ e ∈ (headerRead now c got deadline r).events, e.conn = some c := by
  unfold headerRead
  dsimp only
  repeat' split
  all_goals simp [HeaderRead.drop, Event.conn]

theorem headerRead_loop (now c : ℕ) (got : Bytes) (deadline : ℕ) (r : Except ReadError Bytes) :
    (headerRead now c got deadline r).loop = .top ∨
      ∃ got', (headerRead now c got deadline r).loop = .header c got' deadline := by
  unfold headerRead
  dsimp only
  repeat' split
  all_goals first | exact .inl rfl | exact .inr ⟨_, rfl⟩

theorem headerRead_none (now c : ℕ) (got : Bytes) (deadline : ℕ) {r : Except ReadError Bytes}
    (h : ∀ b bs, r ≠ .ok (b :: bs)) :
    headerRead now c got deadline r = .drop c [] ∨
      headerRead now c got deadline r = ⟨.header c got deadline, none, []⟩ := by
  unfold headerRead
  split
  · exact .inl rfl
  · exact absurd rfl (h _ _)
  · split
    · exact .inl rfl
    · exact .inr rfl
  · exact .inl rfl

theorem Peer.read_gone {max : ℕ} {a : Answer} {r : Except ReadError Bytes} {p : Peer}
    (h : Peer.read ⟨[], true⟩ max a = some (r, p)) :
    p = ⟨[], true⟩ ∧ ∀ b bs, r ≠ .ok (b :: bs) := by
  cases a with
  | bytes k =>
    cases h
    exact ⟨rfl, nofun⟩
  | error e =>
    cases h
    exact ⟨rfl, nofun⟩

theorem Clean.loopStep_gone (h : Clean u s) {c deadline : ℕ} {got : Bytes} {a : Answer}
    (hl : s.loop = .header c got deadline) (hc : u.allowed c = false)
    (hs : s.loopStep a = some (s', es)) :
    s'.shared = s.shared ∧ s'.peers = s.peers ∧ s'.threads = s.threads ∧ s'.backlog = s.backlog ∧
      (s'.loop = .top ∧ es = [.dropped c] ∨ s'.loop = s.loop ∧ es = []) := by
  obtain ⟨p, q, r, hp, hr, rfl, rfl⟩ := loopStep_header hl hs
  have hgone := h.header c got deadline hl hc
  rw [hgone] at hp
  cases hp
  obtain ⟨rfl, hnone⟩ := Peer.read_gone hr
  have hpeers : Function.update s.peers c (some ⟨[], true⟩) = s.peers := by
    rw [← hgone]
    exact Function.update_eq_self c s.peers
  rcases headerRead_none s.shared.mixer.now c got deadline hnone with hd | hd
  · rw [hd]
    exact ⟨rfl, hpeers, rfl, rfl, .inl ⟨rfl, rfl⟩⟩
  · rw [hd]
    exact ⟨rfl, hpeers, rfl, rfl, .inr ⟨hl.symm, rfl⟩⟩

theorem Clean.thread_allowed (h : Clean u s) {c : ℕ} {th : Thread σ} (hth : s.threads c = some th) :
    u.allowed c = true := by
  by_contra hc
  rw [h.threads c (Bool.eq_false_of_not_eq_true hc)] at hth
  cases hth

/- Of a peer that is not allowed, nothing is in the state of the loop but one that has
gone. -/
theorem Clean.setPeer (h : Clean u s) {c : ℕ} {p : Peer}
    (hp : u.allowed c = false → s.peers c = some ⟨[], true⟩ → p = ⟨[], true⟩) :
    Clean u (s.setPeer c p) := by
  refine ⟨h.threads, fun d got deadline hl hd => ?_⟩
  have hold := h.header d got deadline hl hd
  rw [s.setPeer_peers]
  split
  · rename_i hdc
    rw [hp (hdc ▸ hd) (hdc ▸ hold)]
  · exact hold

theorem Clean.loopStep_served (h : Clean u s) {c deadline : ℕ} {got : Bytes}
    (hl : s.loop = .header c got deadline) (hc : u.allowed c = true) {a : Answer}
    (hs : s.loopStep a = some (s', es)) : Clean u s' ∧ ∀ e ∈ es, e.Passes u := by
  obtain ⟨p, q, r, hp, hr, rfl, rfl⟩ := loopStep_header hl hs
  constructor
  · constructor
    · intro d hd
      cases (headerRead s.shared.mixer.now c got deadline r).started with
      | none => exact h.threads d hd
      | some cfg =>
        refine Eq.trans ?_ (h.threads d hd)
        exact Function.update_of_ne (u.ne_of_allowed hc hd) ..
    · intro d got' deadline' hnew hd
      rcases headerRead_loop s.shared.mixer.now c got deadline r with htop | ⟨got₂, hsame⟩
      · rw [htop] at hnew
        cases hnew
      · rw [hsame] at hnew
        cases hnew
        exact absurd rfl (u.ne_of_allowed hc hd)
  · intro e he
    refine .inl ?_
    rw [headerRead_conn _ _ _ _ _ e he]
    exact hc

theorem Clean.loopStep (h : Clean u s) {a : Answer} (hok : Screened u s (.loop a))
    (hs : s.loopStep a = some (s', es)) : Clean u s' ∧ ∀ e ∈ es, e.Passes u := by
  cases hl : s.loop with
  | top =>
    simp only [Server.loopStep, hl] at hs
    cases hs
    refine ⟨⟨h.threads, fun c got deadline hnew => ?_⟩, nofun⟩
    dsimp only at hnew
    split at hnew <;> cases hnew
  | accept =>
    simp only [Server.loopStep, hl] at hs
    split at hs
    · rename_i k c rest hback
      cases hs
      have hc := hok hl c (by rw [hback]; rfl)
      refine ⟨⟨h.threads, fun d got deadline hnew hd => ?_⟩, ?_⟩
      · cases hnew
        exact hc.resolve_left (by rw [hd]; exact Bool.false_ne_true)
      · intro e he
        rw [List.mem_singleton.mp he]
        exact .inr rfl
    · cases hs
      exact ⟨⟨h.threads, nofun⟩, nofun⟩
  | header c got deadline =>
    cases hc : u.allowed c with
    | false =>
      obtain ⟨-, hpeers, hthreads, -, hend⟩ := h.loopStep_gone hl hc hs
      constructor
      · refine ⟨by rw [hthreads]; exact h.threads, fun d got' deadline' hnew hd => ?_⟩
        rw [hpeers]
        rcases hend with ⟨htop, -⟩ | ⟨hsame, -⟩
        · rw [htop] at hnew
          cases hnew
        · exact h.header d got' deadline' (hsame ▸ hnew) hd
      · intro e he
        rcases hend with ⟨-, rfl⟩ | ⟨-, rfl⟩
        · rw [List.mem_singleton.mp he]
          exact .inr rfl
        · cases he
    | true => exact h.loopStep_served hl hc hs
  | stopped =>
    simp only [Server.loopStep, hl] at hs
    cases hs

theorem Clean.step [PackArith σ] {δ : Type*} [WideArith δ] [FloatCasts δ σ] (h : Clean u s)
    {i : Input} (hok : Screened u s i) (hs : s.step δ u i = some (s', es)) :
    Clean u s' ∧ ∀ e ∈ es, e.Passes u := by
  cases i with
  | connect c =>
    simp only [Server.step] at hs
    split at hs
    · rename_i hnone
      cases hs
      have hnew := h.setPeer (c := c) (p := ⟨[], false⟩) fun _ hgone => by
        rw [hnone] at hgone
        cases hgone
      exact ⟨⟨hnew.threads, hnew.header⟩, List.forall_mem_nil _⟩
    · cases hs
  | send c data =>
    obtain ⟨p, hp, hs⟩ := Option.bind_eq_some_iff.mp hs
    split at hs
    · cases hs
    · rename_i hopen
      cases hs
      refine ⟨h.setPeer fun _ hgone => ?_, List.forall_mem_nil _⟩
      rw [hp] at hgone
      cases hgone
      exact absurd rfl hopen
  | hangup c =>
    obtain ⟨p, hp, hs⟩ := Option.map_eq_some_iff.mp hs
    cases hs
    refine ⟨h.setPeer fun _ hgone => ?_, List.forall_mem_nil _⟩
    rw [hp] at hgone
    cases hgone
    rfl
  | loop a => exact h.loopStep hok hs
  | thread c a =>
    obtain ⟨p, th, g, q, th', fs, hp, hth, hstep, rfl, rfl⟩ := threadStep_cases hs
    have hc := h.thread_allowed hth
    constructor
    · have hnew := h.setPeer (c := c) (p := q) fun hd => by rw [hc] at hd; cases hd
      refine ⟨fun d hd => ?_, hnew.header⟩
      show Function.update s.threads c (some th') d = none
      rw [Function.update_of_ne (u.ne_of_allowed hc hd)]
      exact h.threads d hd
    · intro e he
      obtain ⟨f, -, rfl⟩ := List.mem_map.mp he
      exact .inl hc
  | mix delay =>
    cases hs
    refine ⟨⟨h.threads, h.header⟩, fun e he => ?_⟩
    obtain ⟨f, -, rfl⟩ := List.mem_map.mp he
    exact .inl rfl
  | elapse ns | signal =>
    cases hs
    exact ⟨⟨h.threads, h.header⟩, List.forall_mem_nil _⟩

/-! ### The run without them -/

/-- Where the loop is while the one without the peers that are not allowed waits in
`accept`: with such a peer, or on its way back from it. -/
def LoopPc.Aside (u : Setup) : LoopPc → Prop
  | .header c _ _ => u.allowed c = false
  | .top | .stopped => True
  | .accept => False

/-- Where both loops are in the same place. -/
def LoopPc.Admitted (u : Setup) : LoopPc → Prop
  | .header c _ _ => u.allowed c = true
  | _ => True

/-- `t` is `s` without the peers that are not allowed. -/
structure Agree (u : Setup) (s t : Server σ) : Prop where
  shared : t.shared = s.shared
  peers : ∀ c, u.allowed c = true → t.peers c = s.peers c
  threads : ∀ c, u.allowed c = true → t.threads c = s.threads c
  backlog : t.backlog = s.backlog.filter u.allowed
  loop : t.loop = s.loop ∧ s.loop.Admitted u ∨ t.loop = .accept ∧ s.loop.Aside u

theorem agree_init (volume : F32) :
    Agree u (Server.init volume : Server σ) (Server.init volume) :=
  ⟨rfl, fun _ _ => rfl, fun _ _ => rfl, rfl, .inl ⟨rfl, trivial⟩⟩

theorem Agree.setPeer (h : Agree u s t) (c : ℕ) (p : Peer) :
    Agree u (s.setPeer c p) (t.setPeer c p) := by
  refine ⟨h.shared, fun d hd => ?_, h.threads, h.backlog, h.loop⟩
  rw [s.setPeer_peers, t.setPeer_peers, h.peers d hd]

/- What happens to a peer that is not allowed is not seen. -/
theorem Agree.setPeer_aside (h : Agree u s t) {c : ℕ} (hc : u.allowed c = false) (p : Peer) :
    Agree u (s.setPeer c p) t := by
  refine ⟨h.shared, fun d hd => ?_, h.threads, h.backlog, h.loop⟩
  rw [s.setPeer_peers, if_neg (u.ne_of_allowed hd hc).symm, h.peers d hd]

theorem Agree.start (h : Agree u s t) (c : ℕ) (cfg : Option AudioCfg) :
    Agree u (s.start c cfg) (t.start c cfg) := by
  refine ⟨h.shared, h.peers, fun d hd => ?_, h.backlog, h.loop⟩
  show Function.update t.threads c _ d = Function.update s.threads c _ d
  rw [Function.update_apply, Function.update_apply, h.threads d hd]

theorem Agree.share (h : Agree u s t) (g : Shared) :
    Agree u { s with shared := g } { t with shared := g } :=
  ⟨rfl, h.peers, h.threads, h.backlog, h.loop⟩

theorem Agree.moved (h : Agree u s t) {pc : LoopPc} (hpc : pc.Admitted u) :
    Agree u { s with loop := pc } { t with loop := pc } :=
  ⟨h.shared, h.peers, h.threads, h.backlog, .inl ⟨rfl, hpc⟩⟩

theorem filter_clears {es : List Event} (h : ∀ e ∈ es, u.clears e.conn = true) :
    es.filter (fun e => u.clears e.conn) = es :=
  List.filter_eq_self.mpr h

/-- What a step of the loop is over there: the same step, or none when a peer that is not
allowed is served. -/
def Mirrored (u : Setup) (s' t : Server σ) (a : Answer) (es : List Event) : Prop :=
  (es.filter (fun e => u.clears e.conn) = es ∧
      ∃ t', t.loopStep a = some (t', es) ∧ Agree u s' t') ∨
    (es.filter (fun e => u.clears e.conn) = [] ∧ Agree u s' t)

theorem Agree.loopStep_top (h : Agree u s t) (hl : s.loop = .top) {a : Answer}
    (hs : s.loopStep a = some (s', es)) : Mirrored u s' t a es := by
  have hloop := h.loop
  rw [hl] at hloop
  simp only [Server.loopStep, hl] at hs
  cases hs
  rcases hloop with ⟨ht, -⟩ | ⟨ht, -⟩
  · refine .inl ⟨rfl, { t with loop := if s.shared.shutdown then .stopped else .accept }, ?_,
      h.moved ?_⟩
    · simp only [Server.loopStep, ht, h.shared]
    · split <;> trivial
  · refine .inr ⟨rfl, h.shared, h.peers, h.threads, h.backlog, ?_⟩
    dsimp only
    split
    · exact .inr ⟨ht, trivial⟩
    · exact .inl ⟨ht, trivial⟩

theorem Agree.loopStep_accept (h : Agree u s t) (hl : s.loop = .accept) {a : Answer}
    (hs : s.loopStep a = some (s', es)) : Mirrored u s' t a es := by
  have ht : t.loop = .accept := by
    have hloop := h.loop
    rw [hl] at hloop
    exact hloop.elim (·.1) (·.1)
  have hback := h.backlog
  simp only [Server.loopStep, hl] at hs
  split at hs
  · rename_i k c rest hrest
    cases hs
    rw [hrest] at hback
    cases hc : u.allowed c with
    | false =>
      rw [List.filter_cons_of_neg (by rw [hc]; exact Bool.false_ne_true)] at hback
      refine .inr ⟨?_, h.shared, h.peers, h.threads, hback, .inr ⟨ht, hc⟩⟩
      exact List.filter_cons_of_neg (by simp [Event.conn, Setup.clears, hc])
    | true =>
      rw [List.filter_cons_of_pos hc] at hback
      let pc : LoopPc := .header c [] (s.shared.mixer.now + headerNs)
      refine .inl ⟨filter_clears fun e he => ?_,
        { t with backlog := rest.filter u.allowed, loop := pc }, ?_, h.shared, h.peers,
        h.threads, rfl, .inl ⟨rfl, hc⟩⟩
      · rw [List.mem_singleton.mp he]
        exact hc
      · simp only [Server.loopStep, ht, hback, h.shared, pc]
  · rename_i hnone
    cases hs
    refine .inl ⟨rfl, { t with loop := .top }, ?_, h.moved trivial⟩
    simp only [Server.loopStep, ht]
    split
    · rename_i k c rest hrest
      rw [hback] at hrest
      cases hs' : s.backlog with
      | nil =>
        rw [hs'] at hrest
        cases hrest
      | cons d ds => exact (hnone k d ds rfl hs').elim
    · rfl

/- The header of a peer that is not allowed: the other loop waits in `accept`. -/
theorem Agree.loopStep_aside (h : Agree u s t) (hclean : Clean u s) {c deadline : ℕ}
    {got : Bytes} (hl : s.loop = .header c got deadline) (hc : u.allowed c = false) {a : Answer}
    (hs : s.loopStep a = some (s', es)) : Mirrored u s' t a es := by
  obtain ⟨hshared, hpeers, hthreads, hback, hend⟩ := hclean.loopStep_gone hl hc hs
  have ht : t.loop = .accept := by
    have hloop := h.loop
    rw [hl] at hloop
    rcases hloop with ⟨-, hin⟩ | ⟨ht, -⟩
    · rw [LoopPc.Admitted, hc] at hin
      cases hin
    · exact ht
  refine .inr ⟨?_, ?_⟩
  · rcases hend with ⟨-, rfl⟩ | ⟨-, rfl⟩
    · exact List.filter_cons_of_neg (by simp [Event.conn, Setup.clears, hc])
    · rfl
  · refine ⟨by rw [hshared]; exact h.shared, by rw [hpeers]; exact h.peers,
      by rw [hthreads]; exact h.threads, by rw [hback]; exact h.backlog, .inr ⟨ht, ?_⟩⟩
    rcases hend with ⟨htop, -⟩ | ⟨hsame, -⟩
    · rw [htop]
      trivial
    · rw [hsame, hl]
      exact hc

/- The header of a peer that is allowed: the same read on both sides. -/
theorem Agree.loopStep_admitted (h : Agree u s t) {c deadline : ℕ} {got : Bytes}
    (hl : s.loop = .header c got deadline) (hc : u.allowed c = true) {a : Answer}
    (hs : s.loopStep a = some (s', es)) : Mirrored u s' t a es := by
  have ht : t.loop = .header c got deadline := by
    have hloop := h.loop
    rw [hl] at hloop
    rcases hloop with ⟨ht, -⟩ | ⟨-, hout⟩
    · exact ht
    · rw [LoopPc.Aside, hc] at hout
      cases hout
  obtain ⟨p, q, r, hp, hr, rfl, rfl⟩ := loopStep_header hl hs
  have hmove : (headerRead s.shared.mixer.now c got deadline r).loop.Admitted u := by
    rcases headerRead_loop s.shared.mixer.now c got deadline r with htop | ⟨got', hsame⟩
    · rw [htop]
      trivial
    · rw [hsame]
      exact hc
  have hnew : Agree u
      ((headerRead s.shared.mixer.now c got deadline r).started.elim (s.setPeer c q)
        ((s.setPeer c q).start c))
      ((headerRead s.shared.mixer.now c got deadline r).started.elim (t.setPeer c q)
        ((t.setPeer c q).start c)) := by
    cases (headerRead s.shared.mixer.now c got deadline r).started with
    | none => exact h.setPeer c q
    | some cfg => exact (h.setPeer c q).start c cfg
  refine .inl ⟨filter_clears fun e he => ?_, _, ?_, hnew.moved hmove⟩
  · rw [headerRead_conn _ _ _ _ _ e he]
    exact hc
  · simp only [Server.loopStep, ht, h.peers c hc, hp, hr, h.shared, Option.bind_some,
      Option.map_some]

/- The loop: with a peer that is not allowed the other one stays where it is, and so it
does when this one comes back. -/
theorem Agree.loopStep (h : Agree u s t) (hclean : Clean u s) {a : Answer}
    (hs : s.loopStep a = some (s', es)) : Mirrored u s' t a es := by
  cases hl : s.loop with
  | top => exact h.loopStep_top hl hs
  | accept => exact h.loopStep_accept hl hs
  | header c got deadline =>
    cases hc : u.allowed c with
    | false => exact h.loopStep_aside hclean hl hc hs
    | true => exact h.loopStep_admitted hl hc hs
  | stopped =>
    simp only [Server.loopStep, hl] at hs
    cases hs

/-- A step of the run without the peers that are not allowed as well; or theirs, or the loop's
with one of them, and no such step. -/
def Followed [PackArith σ] (δ : Type*) [WideArith δ] [FloatCasts δ σ] (u : Setup)
    (s' t : Server σ) (i : Input) (es : List Event) : Prop :=
  (u.clears i.conn = true ∧ es.filter (fun e => u.clears e.conn) = es ∧
      ∃ t', t.step δ u i = some (t', es) ∧ Agree u s' t') ∨
    ((u.clears i.conn = false ∨ i.isLoop = true) ∧
      es.filter (fun e => u.clears e.conn) = [] ∧ Agree u s' t)

section

variable [PackArith σ] {δ : Type*} [WideArith δ] [FloatCasts δ σ]

theorem Agree.connect (h : Agree u s t) {c : ℕ}
    (hs : s.step δ u (.connect c) = some (s', es)) : Followed δ u s' t (.connect c) es := by
  simp only [Server.step] at hs
  split at hs
  · rename_i hnone
    cases hs
    cases hc : u.allowed c with
    | false =>
      have hnew := h.setPeer_aside hc ⟨[], false⟩
      refine .inr ⟨.inl hc, rfl, hnew.shared, hnew.peers, hnew.threads, ?_, hnew.loop⟩
      show t.backlog = (s.backlog ++ [c]).filter u.allowed
      rw [List.filter_append, List.filter_cons_of_neg (by rw [hc]; exact Bool.false_ne_true),
        List.filter_nil, List.append_nil]
      exact h.backlog
    | true =>
      have hnew := h.setPeer c ⟨[], false⟩
      refine .inl ⟨hc, rfl, { t.setPeer c ⟨[], false⟩ with backlog := t.backlog ++ [c] }, ?_,
        hnew.shared, hnew.peers, hnew.threads, ?_, hnew.loop⟩
      · simp only [Server.step, h.peers c hc, hnone]
      · show t.backlog ++ [c] = (s.backlog ++ [c]).filter u.allowed
        rw [List.filter_append, List.filter_cons_of_pos hc, h.backlog]
        rfl
  · cases hs

theorem Agree.send (h : Agree u s t) {c : ℕ} {data : Bytes}
    (hs : s.step δ u (.send c data) = some (s', es)) :
    Followed δ u s' t (.send c data) es := by
  obtain ⟨p, hp, hsend⟩ := Option.bind_eq_some_iff.mp hs
  split at hsend
  · cases hsend
  · rename_i hopen
    cases hsend
    cases hc : u.allowed c with
    | false => exact .inr ⟨.inl hc, rfl, h.setPeer_aside hc _⟩
    | true =>
      refine .inl ⟨hc, rfl, _, ?_, h.setPeer c _⟩
      simp only [Server.step, h.peers c hc, hp, Option.bind_some, if_neg hopen]

theorem Agree.hangup (h : Agree u s t) {c : ℕ}
    (hs : s.step δ u (.hangup c) = some (s', es)) : Followed δ u s' t (.hangup c) es := by
  obtain ⟨p, hp, hup⟩ := Option.map_eq_some_iff.mp hs
  cases hup
  cases hc : u.allowed c with
  | false => exact .inr ⟨.inl hc, rfl, h.setPeer_aside hc _⟩
  | true =>
    refine .inl ⟨hc, rfl, _, ?_, h.setPeer c _⟩
    simp only [Server.step, h.peers c hc, hp, Option.map_some]

theorem Agree.thread (h : Agree u s t) (hclean : Clean u s) {c : ℕ} {a : Answer}
    (hs : s.step δ u (.thread c a) = some (s', es)) : Followed δ u s' t (.thread c a) es := by
  obtain ⟨p, th, g, q, th', fs, hp, hth, hstep, rfl, rfl⟩ := threadStep_cases hs
  have hc := hclean.thread_allowed hth
  have hnew := h.setPeer c q
  refine .inl ⟨hc, filter_clears fun e he => ?_,
    { t.setPeer c q with shared := g, threads := Function.update t.threads c (some th') },
    ?_, rfl, hnew.peers, fun d hd => ?_, hnew.backlog, hnew.loop⟩
  · obtain ⟨f, -, rfl⟩ := List.mem_map.mp he
    exact hc
  · simp only [Server.step, Server.threadStep, h.peers c hc, hp, h.threads c hc, hth, h.shared,
      hstep, Option.bind_some, Option.map_some]
  · show Function.update t.threads c _ d = Function.update s.threads c _ d
    rw [Function.update_apply, Function.update_apply, h.threads d hd]

theorem Agree.step (h : Agree u s t) (hclean : Clean u s) {i : Input}
    (hs : s.step δ u i = some (s', es)) : Followed δ u s' t i es := by
  cases i with
  | connect c => exact h.connect hs
  | send c data => exact h.send hs
  | hangup c => exact h.hangup hs
  | loop a =>
    rcases h.loopStep hclean hs with ⟨hall, t', ht, hnew⟩ | ⟨hnone, hnew⟩
    · exact .inl ⟨rfl, hall, t', ht, hnew⟩
    · exact .inr ⟨.inr rfl, hnone, hnew⟩
  | thread c a => exact h.thread hclean hs
  | mix delay =>
    obtain ⟨rfl, rfl⟩ := Prod.mk.inj (Option.some.inj hs)
    refine .inl ⟨rfl, filter_clears fun e he => ?_, _, ?_, h.share _⟩
    · obtain ⟨f, -, rfl⟩ := List.mem_map.mp he
      rfl
    · rw [Server.step, h.shared]
  | elapse ns =>
    let m := s.shared.mixer
    cases hs
    refine .inl ⟨rfl, rfl, _, ?_, h.share { s.shared with mixer := { m with now := m.now + ns } }⟩
    rw [Server.step, h.shared]
  | signal =>
    cases hs
    refine .inl ⟨rfl, rfl, _, ?_, h.share { s.shared with shutdown := true }⟩
    rw [Server.step, h.shared]

end

/-! ### Runs -/

theorem Event.Passes.unread {e : Event} (h : e.Passes u) : u.clears e.readFrom = true := by
  rcases h with hc | hturn
  · cases e with
    | header c bs => exact hc
    | thread c f => cases f <;> first | exact hc | rfl
    | accepted c | dropped c | mixer f => rfl
  · cases e <;> first | rfl | cases hturn

theorem Event.Passes.effect {e : Event} (h : e.Passes u) (he : e.isEffect = true) :
    u.clears e.conn = true := by
  rcases h with hc | hturn
  · exact hc
  · cases e with
    | accepted c | dropped c => cases he
    | header c bs | thread c f | mixer f => cases hturn

theorem Clean.free (h : Clean u s) : u.clears s.waitsFor = true := by
  unfold Server.waitsFor
  split
  · rename_i c got deadline hl
    split
    · rename_i hsilent
      by_contra hc
      have hgone := h.header c got deadline hl (Bool.eq_false_of_not_eq_true hc)
      rw [hsilent] at hgone
      cases hgone
    · rfl
  · rfl

variable [PackArith σ]

/-- The invariant of a run: what the loop can still be asked, and what has been seen. -/
theorem run_clean (δ : Type*) [WideArith δ] [FloatCasts δ σ] (volume : F32) {is : List Input}
    (hok : (Server.machine δ u).Meets (Screened u) (Server.init volume : Server σ) is)
    {tr : List Event} (hrun : (Server.machine δ u).run (Server.init volume) is = some (t, tr)) :
    Clean u t ∧ ∀ e ∈ tr, e.Passes u := by
  let I (s : Server σ) (tr : List Event) : Prop := Clean u s ∧ ∀ e ∈ tr, e.Passes u
  have hstart : I (Server.init volume) [] := ⟨clean_init volume, List.forall_mem_nil _⟩
  refine (Server.machine δ u).run_inv_of_meets (fun s tr i s' es hi hI hs => ?_) hstart hok hrun
  obtain ⟨hclean, hes⟩ := hI.1.step hi hs
  exact ⟨hclean, List.forall_mem_append.mpr ⟨hI.2, hes⟩⟩

/- The run without the peers that are not allowed. -/
theorem run_agree (δ : Type*) [WideArith δ] [FloatCasts δ σ] (volume : F32) {is : List Input}
    (hok : (Server.machine δ u).Meets (Screened u) (Server.init volume : Server σ) is)
    {tr : List Event} (hrun : (Server.machine δ u).run (Server.init volume) is = some (s, tr)) :
    ∃ js t, Thinned (fun i => u.clears i.conn = true)
        (fun i => u.clears i.conn = false ∨ i.isLoop = true) is js ∧
      (Server.machine δ u).run (Server.init volume) js =
        some (t, tr.filter fun e => u.clears e.conn) ∧ Clean u s ∧ Agree u s t := by
  refine (Server.machine δ u).run_thinned
    (R := fun s t => Clean u s ∧ Agree u s t) (fun s t i s' es hi hR hs => ?_)
    ⟨clean_init volume, agree_init volume⟩ hok hrun
  obtain ⟨hclean, -⟩ := hR.1.step hi hs
  rcases hR.2.step hR.1 hs with ⟨hkeep, hes, t', ht, hnew⟩ | ⟨hskip, hes, hnew⟩
  · exact .inl ⟨hkeep, hes, t', ht, hclean, hnew⟩
  · exact .inr ⟨hskip, hes, hclean, hnew⟩

/-- Peers that are not allowed are isolated in every run that takes no connection of
theirs which is still open or has sent something. -/
theorem run_isolated (δ : Type*) [WideArith δ] [FloatCasts δ σ] (u : Setup) (volume : F32)
    (is : List Input)
    (hok : (Server.machine δ u).Meets (Screened u) (Server.init volume : Server σ) is)
    {t : Server σ} {tr : List Event}
    (hrun : (Server.machine δ u).run (Server.init volume) is = some (t, tr)) :
    Isolated δ u (Server.init volume) is t tr := by
  obtain ⟨hclean, hpass⟩ := run_clean δ volume hok hrun
  obtain ⟨js, t', hthin, hjs, -, hagree⟩ := run_agree δ volume hok hrun
  refine ⟨fun e he => (hpass e he).unread, hclean.free, js, t', _, hthin, hjs, hagree.shared, ?_⟩
  rw [List.filter_filter]
  refine List.filter_congr fun e he => ?_
  cases heff : e.isEffect with
  | false => rfl
  | true => exact (hpass e he).effect heff

/-- A peer that is not allowed comes and goes while an allowed one mutes. -/
def knock : List Input :=
  [.connect 0, .connect 1, .send 1 (List.replicate 12 0 ++ [0, 0, 0, 0, 77]), .hangup 0,
    .loop (.bytes 1), .loop (.bytes 1), .loop (.bytes 0), .loop (.bytes 1), .loop (.bytes 1),
    .loop (.bytes 12), .thread 1 (.bytes 0), .thread 1 (.bytes 4), .thread 1 (.bytes 1),
    .thread 1 (.bytes 0)]

def twoUsers : Setup := ⟨some 1000, 0, fun c => some (1001 - c), 4, 65536, 48000, "sinc"⟩

theorem run_isolated_knock : ∃ t tr,
    (Server.machine ℝ twoUsers).run (Server.init (.fin 100) : Server ℝ) knock = some (t, tr) ∧
      t.shared.mixer.muted = true ∧
      Isolated ℝ twoUsers (Server.init (.fin 100)) knock t tr :=
  ⟨_, _, rfl, rfl, run_isolated ℝ twoUsers (.fin 100) knock (by decide +kernel) rfl⟩

/- One that has sent a byte: it is read, and the loop waits for the next. -/
theorem stranger_holds_loop :
    ¬ ∀ (u : Setup) (volume : F32) (is : List Input) (t : Server ℝ) (tr : List Event),
      (Server.machine ℝ u).run (Server.init volume) is = some (t, tr) →
        Isolated ℝ u (Server.init volume) is t tr := by
  intro h
  have hrun := h twoUsers (.fin 100) [.connect 0, .send 0 [1], .loop (.bytes 1), .loop (.bytes 1),
    .loop (.bytes 1)] _ [.accepted 0, .header 0 [1]] rfl
  have hread := hrun.unread (.header 0 [1]) (by simp)
  revert hread
  decide

/-- Any other connection of such a peer holds the loop up, or a byte of it is read with
the next read that does not fail. -/
theorem unscreened_accept (δ : Type*) [WideArith δ] [FloatCasts δ σ] {c : ℕ} {rest : List ℕ}
    {p : Peer} (hl : s.loop = .accept) (hback : s.backlog = c :: rest) (hp : s.peers c = some p)
    (hgone : p ≠ ⟨[], true⟩) :
    ∃ mid, s.step δ u (.loop (.bytes 1)) = some (mid, [.accepted c]) ∧
      (mid.waitsFor = some c ∨ ∃ next es, mid.step δ u (.loop (.bytes 1)) = some (next, es) ∧
        ∃ e ∈ es, e.readFrom = some c) := by
  let mid : Server σ :=
    { s with backlog := rest, loop := .header c [] (s.shared.mixer.now + headerNs) }
  have hmid : mid.peers c = some p := hp
  refine ⟨mid, ?_, ?_⟩
  · simp only [Server.step, Server.loopStep, hl, hback, mid]
  · obtain ⟨unread, closed⟩ := p
    cases unread with
    | nil =>
      cases closed with
      | true => exact absurd rfl hgone
      | false =>
        exact .inl (if_pos hmid)
    | cons b bs =>
      refine .inr ?_
      simp only [Server.step, Server.loopStep, mid, hp, Option.bind_some, Peer.read,
        List.length_nil]
      rw [if_pos (by simp [hdrSz])]
      refine ⟨_, _, rfl, .header c [b], ?_, rfl⟩
      simp [headerRead, hdrSz]

end

end Audiod.Daemon
