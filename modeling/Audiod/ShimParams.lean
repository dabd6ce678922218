import Audiod.Header
import Audiod.ShimFlush
import Audiod.ShimHeader

/-!
# The parameters of a handle and what the server was told

The setters write the live fields at any time; the header is stashed and sent once,
and again after a reconnect. The calls read the live fields, the server decodes by the
header.
-/

namespace Audiod.Shim

variable {p p' : Process} {h h' : Handle} {es : List Event}

/-- What `snd_pcm_writei` and the playhead work with. -/
def Handle.params (h : Handle) : ℕ × ℕ × ℕ := (h.rate, h.channels, h.formatCode)

/-! ### The header of `commit_configured` -/

/-- What `parse_header` makes of `hdr` is what the handle is configured for. -/
def ServerAgrees (h : Handle) (hdr : Bytes) : Prop :=
  ∃ cfg, parseHeader hdr = some cfg ∧ cfg.rate = h.rate ∧ cfg.channels = h.channels ∧
    (cfg.format : ℤ) = h.format ∧ cfg.frameSize = h.frameBytes

theorem formatCode_lt (h : Handle) : h.formatCode < 2 ^ 16 := by
  unfold Handle.formatCode
  omega

theorem serverAgrees_iff (hrate : h.rate < 2 ^ 32) (hr : h.rate ≠ 0) (hc : h.channels ≠ 0) :
    ServerAgrees h (Handle.headerOf h.params) ↔
      h.channels ≤ 8 ∧ (h.format = formatS16Le ∨ h.format = formatFloatLe) := by
  have hiff := parseHeader_headerBytes_iff hrate (formatCode_lt h) hr hc
  have hcode : h.format = formatS16Le ∨ h.format = formatFloatLe →
      (h.formatCode : ℤ) = h.format := by
    rintro (heq | heq) <;> rw [Handle.formatCode, heq] <;> rfl
  constructor
  · rintro ⟨cfg, hcfg, hcr, hcc, hcf, hcs⟩
    have hfield : cfg.format = h.formatCode := by
      simp only [parseHeader, Handle.headerOf, headerFields_headerBytes] at hcfg
      split at hcfg
      · cases hcfg
      · split at hcfg <;> cases hcfg
        exact Nat.mod_eq_of_lt (formatCode_lt h)
    have heq :
        cfg = ⟨h.rate, h.channels, pcmFormatBytes h.formatCode * h.channels, h.formatCode⟩ := by
      rw [← hcr, ← hcc, ← hfield]
      rw [Handle.frameBytes, ← hcc, ← hfield] at hcs
      rw [← hcs]
    obtain ⟨hle, hfmt⟩ := hiff.mp (heq ▸ hcfg)
    refine ⟨hle, ?_⟩
    rw [← hcf, hfield]
    exact_mod_cast hfmt
  · rintro ⟨hle, hfmt⟩
    have he := hcode hfmt
    refine ⟨_, hiff.mpr ⟨hle, ?_⟩, rfl, rfl, he, rfl⟩
    rw [← he] at hfmt
    exact_mod_cast hfmt

/-- When the call that configures a handle succeeds, its header has gone out, and the
server reads the same configuration from it exactly if there are at most eight
channels of S16_LE or FLOAT_LE. -/
theorem commit_agrees_iff (hidle : h.app = .idle) (hrate : h.rate < 2 ^ 32)
    {s : Process × Handle} {tr : List Event}
    (hrun : machine.run (p, h) [.call .hwParams, .app .go, .app .go, .app (.accept hdrSz)] =
      some (s, tr)) :
    s.2.configured = true ∧ ∃ fd c, h.sock = some fd ∧ p.net.behind fd = some c ∧
      s.1.net.behind fd = some (c.log .header (Handle.headerOf h.params)) ∧
      (ServerAgrees h (Handle.headerOf h.params) ↔
        h.channels ≤ 8 ∧ (h.format = formatS16Le ∨ h.format = formatFloatLe)) := by
  have hgo : ¬(h.rate = 0 ∨ h.channels = 0 ∨ h.configured = true) := by
    intro hno
    -- Refused: the call is over before it has sent anything.
    simp [machine, Machine.run, step, Handle.call, Handle.commit, hidle, hno,
      Handle.appStep] at hrun
  have hcommit : h.commit = { h with app := .commitLoad } := if_neg hgo
  cases hsock : h.sock with
  | none =>
    simp [machine, Machine.run, step, Handle.call, hidle, hcommit, Handle.appStep, hsock] at hrun
  | some fd =>
    simp only [machine, Machine.run, step, Handle.call, hidle, hcommit, Handle.appStep, hsock,
      if_true] at hrun
    cases hacc : p.net.accept fd .header (headerBytes h.rate h.channels h.formatCode) hdrSz with
    | none =>
      simp only [Handle.formatCode] at hacc hrun
      simp [hacc] at hrun
    | some net =>
      obtain ⟨c, hc, -, -, hc'⟩ := Net.accept_behind hacc
      have htake : (headerBytes h.rate h.channels h.formatCode).take hdrSz =
          Handle.headerOf h.params :=
        List.take_of_length_le (Nat.le_of_eq (headerBytes_length h.rate h.channels h.formatCode))
      rw [htake] at hc'
      simp only [Handle.formatCode] at hacc hrun
      simp only [hacc, Option.some.injEq, Prod.mk.injEq] at hrun
      obtain ⟨rfl, -⟩ := hrun
      refine ⟨rfl, fd, c, rfl, hc, hc', ?_⟩
      exact serverAgrees_iff hrate (fun h0 => hgo (.inl h0)) fun h0 => hgo (.inr (.inl h0))

/-- A process with one open handle and its proposed parameters. -/
def proposed (fmt : ℤ) (channels rate : ℕ) : Process × Handle :=
  ({ Process.init with net := (Net.init.connect 3).get rfl },
    { Handle.opened 4096 3 with format := fmt, channels := channels, rate := rate })

theorem commit_agrees_iff_float : ∃ s tr,
    machine.run (proposed 14 6 44100) [.call .hwParams, .app .go, .app .go, .app (.accept hdrSz)] =
      some (s, tr) ∧ s.2.configured = true ∧ ∃ fd c, (proposed 14 6 44100).2.sock = some fd ∧
      (proposed 14 6 44100).1.net.behind fd = some c ∧ s.1.net.behind fd =
        some (c.log .header (Handle.headerOf (proposed 14 6 44100).2.params)) ∧
      (ServerAgrees (proposed 14 6 44100).2 (Handle.headerOf (proposed 14 6 44100).2.params) ↔
        (proposed 14 6 44100).2.channels ≤ 8 ∧
          ((proposed 14 6 44100).2.format = formatS16Le ∨
            (proposed 14 6 44100).2.format = formatFloatLe)) :=
  ⟨_, _, rfl, commit_agrees_iff rfl (by decide) rfl⟩

/- Nine channels: the call succeeds and the server closes the connection. -/
theorem nine_channels_accepted :
    ¬ ∀ (p : Process) (h : Handle) (s : Process × Handle) (tr : List Event), h.app = .idle →
      h.configured = false → h.rate < 2 ^ 32 → h.channels < 2 ^ 32 → |h.format| < 2 ^ 31 →
      machine.run (p, h) [.call .hwParams, .app .go, .app .go, .app (.accept hdrSz)] =
        some (s, tr) → ServerAgrees h (Handle.headerOf h.params) := by
  intro hall
  obtain ⟨cfg, hcfg, -⟩ := hall (proposed 2 9 48000).1 (proposed 2 9 48000).2 _ _ rfl rfl
    (by decide) (by decide) (by decide) rfl
  have hnone : parseHeader (Handle.headerOf (proposed 2 9 48000).2.params) = none := by decide
  rw [hnone] at hcfg
  cases hcfg

/-! ### Over whole runs -/

/-- What the server reads from a header that a step puts on the wire. -/
def headerSent (h : Handle) : Input → Option (ℕ × ℕ × ℕ)
  | .app (.accept k) =>
    match h.app with
    | .commitSend _ => if k = hdrSz then some (headerFields (Handle.headerOf h.params)) else none
    | _ => none
  | .drain (.accept k) =>
    match h.drain with
    | .reHeader _ _ =>
      if k = hdrSz then h.header.map fun hd => headerFields (Handle.headerOf hd) else none
    | _ => none
  | _ => none

/-- With a history variable: what each handle has last told the server. -/
def toldStep (s : World × (ℕ → Option (ℕ × ℕ × ℕ))) (x : Action) :
    Option ((World × (ℕ → Option (ℕ × ℕ × ℕ))) × List (ℕ × Event)) :=
  (s.1.step x).map fun (w, es) =>
    match x with
    | .handle i y =>
      let sent := (s.1.handles i).bind (headerSent · y)
      ((w, Function.update s.2 i (sent.or (s.2 i))), es)
    | _ => ((w, s.2), es)

def told : Machine (World × (ℕ → Option (ℕ × ℕ × ℕ))) Action (ℕ × Event) := ⟨toldStep⟩

/-- A configured handle works with the parameters in its stashed header, and the
server was last told the same. -/
def InStep (h : Handle) (last : Option (ℕ × ℕ × ℕ)) : Prop :=
  h.configured = true → h.header = some h.params ∧ last = some h.params

/-- A rate is a `u32`. -/
def Typed : Action → Prop
  | .handle _ (.call (.setRate rate)) | .handle _ (.call (.setParams _ _ rate)) => rate < 2 ^ 32
  | _ => True

/-- The parameters a call leaves. -/
def Call.sets (c : Call) (h : Handle) : ℕ × ℕ × ℕ :=
  match c with
  | .setFormat fmt => { h with format := fmt }.params
  | .setChannels n => { h with channels := n }.params
  | .setRate rate => { h with rate := rate }.params
  | .setParams fmt channels rate =>
    { h with format := fmt, channels := channels, rate := rate }.params
  | _ => h.params

/-- The header has room for the channels. -/
def Narrow (h : Handle) : Prop :=
  match h.app with
  | .commitSend _ => h.channels < 2 ^ 16
  | _ => True

/-- A configured handle is set to what it is already, and a handle is configured with
fewer than 65536 channels. -/
def KeepsParams (s : World × (ℕ → Option (ℕ × ℕ × ℕ))) : Action → Prop
  | .handle i (.call c) => ∀ h ∈ s.1.handles i, h.configured = true → c.sets h = h.params
  | .handle i (.app (.accept k)) => k = hdrSz → ∀ h ∈ s.1.handles i, Narrow h
  | _ => True

instance (h : Handle) : Decidable (Narrow h) :=
  show Decidable (match h.app with | .commitSend _ => h.channels < 2 ^ 16 | _ => True) from
  match h.app with
  | .commitSend _ => Nat.decLt _ _
  | .idle | .commitLoad | .commitStash _ | .writeAnchor _ | .writeSilent _ | .writeMute _ _
  | .writePush _ | .writeAdd _ | .dropClear | .dropPushed | .dropWritten | .dropPlay
  | .dropFlush | .closeStop | .closeInterrupt | .closeJoin | .closeFd | .closed => isTrue trivial

instance (s : World × (ℕ → Option (ℕ × ℕ × ℕ))) (x : Action) : Decidable (KeepsParams s x) := by
  unfold KeepsParams
  split <;> infer_instance

structure ParamInv (h : Handle) (last : Option (ℕ × ℕ × ℕ)) : Prop where
  rate : h.rate < 2 ^ 32
  commit : Committing h.app → h.configured = false
  stashed : ∀ fd, h.app = .commitSend fd → h.header = some h.params
  agreed : h.configured = true →
    h.header = some h.params ∧ last = some h.params ∧ h.channels < 2 ^ 16

variable {last : Option (ℕ × ℕ × ℕ)}

theorem headerFields_params (hrate : h.rate < 2 ^ 32) (hch : h.channels < 2 ^ 16) :
    headerFields (Handle.headerOf h.params) = h.params := by
  rw [Handle.params, Handle.headerOf, headerFields_headerBytes, Nat.mod_eq_of_lt hrate,
    Nat.mod_eq_of_lt hch, Nat.mod_eq_of_lt (formatCode_lt h)]

/- The stashed parameters are those of the handle, so they are within the fields. -/
theorem ParamInv.fields (hi : ParamInv h last) (hc : h.configured = true) {hd : ℕ × ℕ × ℕ}
    (hhd : h.header = some hd) : headerFields (Handle.headerOf hd) = h.params := by
  obtain ⟨hhead, -, hch⟩ := hi.agreed hc
  have heq : hd = h.params := Option.some.inj (hhd.symm.trans hhead)
  rw [heq]
  exact headerFields_params hi.rate hch

/- The setters: on a configured handle they change nothing. -/
theorem ParamInv.set (hi : ParamInv h last) (hidle : h.app = .idle) {g : Handle}
    (hrate : g.rate < 2 ^ 32) (happ : g.app = h.app) (hconf : g.configured = h.configured)
    (hhead : g.header = h.header) (hk : h.configured = true → g.params = h.params) :
    ParamInv g last := by
  refine ⟨hrate, ?_, fun fd heq => ?_, fun hc => ?_⟩
  · rw [happ, hconf]
    exact hi.commit
  · rw [happ, hidle] at heq
    cases heq
  · rw [hconf] at hc
    obtain ⟨hstash, hlast, hch⟩ := hi.agreed hc
    have hgc : g.channels = h.channels := congrArg (·.2.1) (hk hc)
    rw [hhead, hk hc, hgc]
    exact ⟨hstash, hlast, hch⟩

theorem ParamInv.moved (hi : ParamInv h last) {g : Handle}
    (hside : (g.rate, g.channels, g.format, g.configured, g.header) =
      (h.rate, h.channels, h.format, h.configured, h.header))
    (hc : ¬Committing g.app) : ParamInv g last := by
  simp only [Prod.mk.injEq] at hside
  obtain ⟨hrate, hch, hfmt, hconf, hhead⟩ := hside
  have hparams : g.params = h.params := by
    simp only [Handle.params, Handle.formatCode, hrate, hch, hfmt]
  refine ⟨hrate ▸ hi.rate, fun hcom => absurd hcom hc, fun fd heq => ?_, ?_⟩
  · rw [heq] at hc
    exact absurd trivial hc
  · rw [hconf, hhead, hparams, hch]
    exact hi.agreed

theorem paramInv_commit (hi : ParamInv h last) : ParamInv h.commit last := by
  unfold Handle.commit
  split
  · exact hi
  · rename_i hno
    have hcfg : h.configured = false := by
      cases hc : h.configured with
      | false => rfl
      | true => exact absurd (.inr (.inr hc)) hno
    exact { hi with commit := fun _ => hcfg, stashed := nofun }

theorem paramInv_call (hi : ParamInv h last) (hidle : h.app = .idle) {c : Call} {i : ℕ}
    (ht : Typed (.handle i (.call c))) (hk : h.configured = true → c.sets h = h.params)
    (hs : h.call p c = ((p', h'), es)) : ParamInv h' last := by
  cases c with
  | setFormat fmt | setChannels n =>
    cases hs
    exact hi.set hidle hi.rate rfl rfl rfl hk
  | setRate rate =>
    cases hs
    exact hi.set hidle ht rfl rfl rfl hk
  | hwParams =>
    cases hs
    exact paramInv_commit hi
  | setParams fmt channels rate =>
    cases hs
    have hset : ParamInv { h with format := fmt, channels := channels, rate := rate } last :=
      hi.set hidle ht rfl rfl rfl hk
    exact paramInv_commit hset
  | writei data =>
    simp only [Handle.call] at hs
    split at hs <;> cases hs
    · exact hi.moved rfl id
    · exact hi
  | prepare | drain | start =>
    cases hs
    exact { hi with }
  | drop | close =>
    cases hs
    exact hi.moved rfl id
  | pause on =>
    simp only [Handle.call] at hs
    split at hs <;> cases hs
    · exact { hi with }
    · exact { hi with }

theorem paramInv_commitSend (hi : ParamInv h last) {fd : ℕ} (hpc : h.app = .commitSend fd)
    {a : Answer} (hk : ∀ k, a = .accept k → k = hdrSz → Narrow h)
    (hs : h.appStep p a = some ((p', h'), es)) :
    ParamInv h' ((headerSent h (.app a)).or last) := by
  have hstash := hi.stashed fd hpc
  simp only [Handle.appStep, hpc] at hs
  split at hs
  · rename_i k
    split at hs
    · cases hs
    · split at hs
      · rename_i hlen
        cases hs
        have hch : h.channels < 2 ^ 16 := by
          have hn := hk k rfl hlen
          rwa [Narrow, hpc] at hn
        have hsent : headerSent h (.app (.accept k)) = some h.params := by
          simp only [headerSent, hpc, hlen, if_true, headerFields_params hi.rate hch]
        rw [hsent]
        exact { hi with
          commit := False.elim
          stashed := fun _ heq => by cases heq
          agreed := fun _ => ⟨hstash, rfl, hch⟩ }
      · rename_i hlen
        cases hs
        have hsent : headerSent h (.app (.accept k)) = none := by
          simp only [headerSent, hpc, if_neg hlen]
        rw [hsent]
        exact hi.moved rfl id
  · cases hs
    exact hi.moved rfl id
  · cases hs

theorem headerSent_app {a : Answer} (hsend : ¬∃ fd, h.app = .commitSend fd) :
    headerSent h (.app a) = none := by
  unfold headerSent
  split
  · split
    · rename_i fd hpc
      exact absurd ⟨fd, hpc⟩ hsend
    · rfl
  · rename_i heq
    cases heq
  · rfl

theorem paramInv_app (hi : ParamInv h last) {a : Answer}
    (hk : ∀ k, a = .accept k → k = hdrSz → Narrow h) (hs : h.appStep p a = some ((p', h'), es)) :
    ParamInv h' ((headerSent h (.app a)).or last) := by
  by_cases hsend : ∃ fd, h.app = .commitSend fd
  · obtain ⟨fd, hpc⟩ := hsend
    exact paramInv_commitSend hi hpc hk hs
  · rw [headerSent_app hsend]
    unfold Handle.appStep at hs
    cases hpc : h.app <;> rw [hpc] at hs <;> dsimp only at hs
    case idle | closed => cases hs
    case commitLoad =>
      have hcfg := hi.commit (by rw [hpc]; trivial)
      split at hs <;> cases hs
      · exact hi.moved rfl id
      · exact { hi with commit := fun _ => hcfg, stashed := fun _ heq => by cases heq }
    case commitStash fd =>
      have hcfg := hi.commit (by rw [hpc]; trivial)
      cases hs
      refine { hi with commit := fun _ => hcfg, stashed := fun _ _ => rfl, agreed := fun hc => ?_ }
      rw [show h.configured = true from hc] at hcfg
      cases hcfg
    case commitSend fd => exact absurd ⟨fd, hpc⟩ hsend
    case writePush data | closeJoin =>
      split at hs <;> cases hs
      exact hi.moved rfl id
    case dropFlush | closeFd =>
      split at hs <;> cases hs <;> exact hi.moved rfl id
    case writeSilent data =>
      cases hs
      refine hi.moved rfl fun hcom => ?_
      dsimp only at hcom
      split at hcom
      · cases hcom
      · split at hcom <;> cases hcom
    case writeAnchor data | writeMute cmd data | writeAdd n | dropClear | dropPushed | dropWritten |
      dropPlay | closeStop | closeInterrupt =>
      cases hs
      exact hi.moved rfl id

/- A reconnect sends the stashed header again; nothing else is touched. -/
theorem paramInv_drain (hi : ParamInv h last) {a : Answer}
    (hs : h.drainStep p a = some ((p', h'), es)) :
    ParamInv h' ((headerSent h (.drain a)).or last) := by
  obtain ⟨hside, -⟩ := Handle.drainStep_frame hs
  simp only [Handle.callerSide, Prod.mk.injEq] at hside
  obtain ⟨hrate, hch, hfmt, hconf, -, -, hhead, -, happ⟩ := hside
  have hparams : h'.params = h.params := by
    simp only [Handle.params, Handle.formatCode, hrate, hch, hfmt]
  refine ⟨hrate ▸ hi.rate, ?_, ?_, ?_⟩
  · rw [happ, hconf]
    exact hi.commit
  · rw [happ, hhead, hparams]
    exact hi.stashed
  · rw [hconf, hhead, hparams, hch]
    intro hc
    obtain ⟨hstash, hlast, hnarrow⟩ := hi.agreed hc
    refine ⟨hstash, ?_, hnarrow⟩
    cases hsent : headerSent h (.drain a) with
    | none => exact hlast
    | some q =>
      unfold headerSent at hsent
      split at hsent
      · rename_i heq
        cases heq
      · split at hsent
        · split at hsent
          · rw [hstash] at hsent
            cases hsent
            exact congrArg some (hi.fields hc hstash)
          · cases hsent
        · cases hsent
      · cases hsent

theorem paramInv_opened (ringBytes fd : ℕ) : ParamInv (Handle.opened ringBytes fd) last :=
  ⟨Nat.two_pow_pos 32, nofun, nofun, nofun⟩

theorem paramInv_step {s s' : World × (ℕ → Option (ℕ × ℕ × ℕ))} {x : Action}
    {es : List (ℕ × Event)} (hi : ∀ i, ∀ h ∈ s.1.handles i, ParamInv h (s.2 i)) (ht : Typed x)
    (hk : KeepsParams s x) (hs : toldStep s x = some (s', es)) (i : ℕ) :
    ∀ h ∈ s'.1.handles i, ParamInv h (s'.2 i) := by
  obtain ⟨⟨w, fs⟩, hw, heq⟩ := Option.map_eq_some_iff.mp hs
  have hstep : s.1.step x = some (s'.1, fs) := by
    cases x <;> cases heq <;> exact hw
  refine forall_handles_of_step (P := fun i h => ParamInv h (s.2 i))
    (Q := fun i h => ParamInv h (s'.2 i)) hstep hi
    (fun j h hold hne => ?_) (fun ringBytes fd _ => ?_) (fun j y h h' gs hx hh hold hhandle => ?_) i
  · -- what the server of another handle was told stays
    cases x with
    | handle k y =>
      have hjk : j ≠ k := fun hjk => hne y (hjk ▸ rfl)
      cases heq
      dsimp only
      rw [Function.update_of_ne hjk]
      exact hold
    | «open» ringBytes fd | hangup c | elapse dt =>
      cases heq
      exact hold
  · exact paramInv_opened ringBytes fd
  · subst hx
    cases heq
    dsimp only
    rw [Function.update_self, hh, Option.bind_some]
    cases y with
    | call c =>
      simp only [Shim.step] at hhandle
      split at hhandle
      · rename_i hidle
        exact paramInv_call hold hidle ht (hk h hh) (Option.some.inj hhandle)
      · cases hhandle
    | app a =>
      refine paramInv_app hold (fun k ha hlen => ?_) hhandle
      subst ha
      exact hk hlen h hh
    | drain a => exact paramInv_drain hold hhandle

/-- Every configured handle works with the parameters the server was last told, in
every run in which the setters leave a configured handle as it is and the channels
fit into the header. -/
theorem run_params_in_step (xs : List Action) (ht : ∀ x ∈ xs, Typed x)
    (hok : told.Meets KeepsParams (World.init, fun _ => none) xs)
    {s : World × (ℕ → Option (ℕ × ℕ × ℕ))} {tr : List (ℕ × Event)}
    (hrun : told.run (World.init, fun _ => none) xs = some (s, tr)) (i : ℕ) :
    ∀ h ∈ s.1.handles i, InStep h (s.2 i) := by
  have hstep : ∀ s x s' es, Typed x ∧ KeepsParams s x →
      (∀ i, ∀ h ∈ s.1.handles i, ParamInv h (s.2 i)) → told.step s x = some (s', es) →
        ∀ i, ∀ h ∈ s'.1.handles i, ParamInv h (s'.2 i) :=
    fun s x s' es hc hi hs => paramInv_step hi hc.1 hc.2 hs
  have hinit : ∀ i, ∀ h ∈ World.init.handles i, ParamInv h none := by
    intro i h hh
    cases hh
  have hend := told.run_state_inv_of_meets hstep hinit (hok.and_of_all ht) hrun
  intro h hh hc
  obtain ⟨hstash, hlast, -⟩ := (hend i h hh).agreed hc
  exact ⟨hstash, hlast⟩

/-- Configured with the setters, configured again with what it has, and reconnected. -/
def reconfigureRun : List Action :=
  [.open 4096 3, .handle 0 (.call (.setFormat 14)), .handle 0 (.call (.setChannels 2)),
    .handle 0 (.call (.setRate 44100)), .handle 0 (.call .hwParams), .handle 0 (.app .go),
    .handle 0 (.app .go), .handle 0 (.app (.accept 12)),
    .handle 0 (.call (.setParams 14 2 44100)), .handle 0 (.call (.pause true)),
    .handle 0 (.drain .go), .handle 0 (.drain .go), .handle 0 (.drain .go),
    .handle 0 (.drain .error), .handle 0 (.drain .go), .handle 0 (.drain .go),
    .handle 0 (.drain .go), .handle 0 (.drain (.connected 3)), .handle 0 (.drain (.accept 12))]

theorem run_params_in_step_reconfigure : ∃ s tr,
    told.run (World.init, fun _ => none) reconfigureRun = some (s, tr) ∧
      s.2 0 = some (44100, 2, 14) ∧ ∀ h ∈ s.1.handles 0, InStep h (s.2 0) :=
  ⟨_, _, rfl, rfl, run_params_in_step reconfigureRun
    (by simp [reconfigureRun, Typed]) (by decide +kernel) rfl 0⟩

/- A second configuration succeeds, mono now, and is not sent. -/
theorem reconfigured_unsent :
    ¬ ∀ (xs : List Action) (s : World × (ℕ → Option (ℕ × ℕ × ℕ))) (tr : List (ℕ × Event)) (i : ℕ),
      (∀ x ∈ xs, Typed x) → told.run (World.init, fun _ => none) xs = some (s, tr) →
        ∀ h ∈ s.1.handles i, InStep h (s.2 i) := by
  intro hall
  have hin := hall [.open 4096 3, .handle 0 (.call (.setParams 2 2 48000)), .handle 0 (.app .go),
    .handle 0 (.app .go), .handle 0 (.app (.accept 12)),
    .handle 0 (.call (.setParams 2 1 48000))] _ _ 0 (by simp [Typed]) rfl _ rfl rfl
  have hch : some (48000, 2, 2) = some (48000, 1, 2) := hin.2
  revert hch
  decide

end Audiod.Shim
