import Audiod.MixerDelivery
import Audiod.WholeFrames
import Audiod.Wire

/-!
# Whose stream it is (`server/src/main.rs:420-581`, `server/src/mixer.rs`)

The mixer's streams are registered by the threads of connections. A stream has one
connection, no other touches it, and what the mixer takes from it is what the bytes of that
connection say.
-/

namespace Audiod.Daemon

/-! ### The mixer's events in a run -/

def ThreadEvent.ofMixer : ThreadEvent → Option Mixer.Event
  | .mixer e => some e
  | _ => none

def Event.ofMixer : Event → Option Mixer.Event
  | .mixer e => some e
  | .thread _ e => e.ofMixer
  | _ => none

/-- What the mixer has seen of a run. -/
def mixerEvents (tr : List Event) : List Mixer.Event := tr.filterMap Event.ofMixer

/-- The stream that a thread names. -/
def ThreadEvent.stream : ThreadEvent → Option ℕ
  | .registered id _ => some id
  | .mixer (.pushed id _) | .mixer (.flushRead id) | .mixer (.finished id) => some id
  | _ => none

def ThreadEvent.registers : ThreadEvent → Option ℕ
  | .registered id _ => some id
  | _ => none

/-- The streams that connection `c` has registered. -/
def registered (c : ℕ) (tr : List Event) : List ℕ :=
  tr.filterMap fun
    | .thread d e => if d = c then e.registers else none
    | _ => none

def Act.audio : Act → Bytes
  | .push data => data
  | .cmd _ => []

/-- The samples among what a connection has the server do. -/
def audio (as : List Act) : Bytes := as.flatMap Act.audio

theorem mixerEvents_append (tr tr' : List Event) :
    mixerEvents (tr ++ tr') = mixerEvents tr ++ mixerEvents tr' := List.filterMap_append

theorem mixerEvents_thread (c : ℕ) (fs : List ThreadEvent) :
    mixerEvents (fs.map (.thread c)) = fs.filterMap ThreadEvent.ofMixer := by
  rw [mixerEvents, List.filterMap_map]
  rfl

theorem mixerEvents_mixer (es : List Mixer.Event) : mixerEvents (es.map .mixer) = es := by
  rw [mixerEvents, List.filterMap_map]
  exact List.filterMap_some

theorem mixerEvents_ofLoop {es : List Event} (h : ∀ e ∈ es, e.OfLoop) : mixerEvents es = [] := by
  refine List.filterMap_eq_nil_iff.mpr fun e he => ?_
  cases e with
  | accepted _ | header _ _ | dropped _ => rfl
  | thread _ _ | mixer _ => exact (h _ he).elim

theorem registered_append (c : ℕ) (tr tr' : List Event) :
    registered c (tr ++ tr') = registered c tr ++ registered c tr' := List.filterMap_append

theorem registered_thread (c d : ℕ) (fs : List ThreadEvent) :
    registered c (fs.map (.thread d)) =
      if d = c then fs.filterMap ThreadEvent.registers else [] := by
  rw [registered, List.filterMap_map]
  split
  · rename_i h
    exact List.filterMap_congr fun e _ => if_pos h
  · rename_i h
    exact List.filterMap_eq_nil_iff.mpr fun e _ => if_neg h

theorem audio_append (as bs : List Act) : audio (as ++ bs) = audio as ++ audio bs :=
  List.flatMap_append

theorem audio_prefix {as bs : List Act} (h : as <+: bs) : audio as <+: audio bs := by
  obtain ⟨rest, rfl⟩ := h
  rw [audio_append]
  exact List.prefix_append ..

/-! ### A step of the mixer -/

theorem mix_cellsIn (m : Mixer.Mix) (delay : ℤ) (id : ℕ) :
    Mixer.cellsIn id (m.mix delay).2 = [] := by
  rcases Mixer.mix_cases m delay with ⟨-, -, hlocal, -⟩ | ⟨s, todo, flushed, -, -, heq⟩ |
    ⟨s, todo, -, heq⟩ | ⟨s, want, todo, w, acc, -, heq⟩
  · exact Mixer.cellsIn_of_isLocal id hlocal
  all_goals
    rw [heq]
    rfl

theorem mixer_registered {m m' : Mixer.Mix} {j : Mixer.Input} {es : List Mixer.Event}
    (h : Mixer.step m j = some (m', es)) : m.registered ≤ m'.registered := by
  cases j with
  | mix delay =>
    have hmix : m.mix delay = (m', es) := Option.some.inj h
    rcases Mixer.mix_cases m delay with ⟨-, hreg, -, -⟩ | ⟨s, todo, flushed, -, -, heq⟩ |
      ⟨s, todo, -, heq⟩ | ⟨s, want, todo, w, acc, -, heq⟩
    · rw [hmix] at hreg
      exact hreg.ge
    all_goals
      rw [heq] at hmix
      cases hmix
      exact le_refl _
  | push _ _ | register _ | requestFlush _ | finish _ | elapse _ | setMuted _ | setVolume _ =>
    exact (Mixer.step_pc (fun _ heq => by cases heq) h).2.2.2

/-! ### A step of a thread -/

section

variable {σ : Type*}

/-- The stream of a thread. -/
def Thread.stream : Thread σ → Option ℕ
  | .poll s | .push s _ | .count s _ => some s.id
  | .read s _ _ | .apply s _ | .status s _ _ => s.map (·.id)
  | .finish id => some id
  | .start _ | .limit _ | .register _ | .done => none

/-- It has not registered, and has done nothing. -/
def Thread.Early : Thread σ → Prop
  | .start _ | .limit _ | .register _ => True
  | _ => False

theorem Thread.stream_leave (s : Option (Stream σ)) :
    (Thread.leave s).stream = s.map (·.id) := by
  cases s <;> rfl

theorem Thread.stream_turn (s : Option (Stream σ)) :
    (Thread.turn s).stream = s.map (·.id) := by
  cases s <;> rfl

variable [PackArith σ]

theorem Thread.stream_decode {s : Option (Stream σ)} {f : Field} {d : Bytes} {th : Thread σ}
    (h : Thread.decode s f d = some th) : th.stream = s.map (·.id) ∧ ¬ th.Early := by
  have hleave : ∀ s : Option (Stream σ), ¬ (Thread.leave s).Early := fun s => by
    cases s <;> exact id
  cases f with
  | len =>
    simp only [Thread.decode] at h
    split at h
    · cases h
      exact ⟨rfl, id⟩
    · cases s <;> cases h <;> exact ⟨rfl, id⟩
  | op =>
    simp only [Thread.decode] at h
    split at h
    · cases h
      exact ⟨rfl, id⟩
    · split at h <;> cases h
      · exact ⟨Thread.stream_leave s, hleave s⟩
      · exact ⟨rfl, id⟩
  | volume =>
    cases h
    exact ⟨rfl, id⟩
  | data n =>
    cases s with
    | none =>
      cases h
      exact ⟨rfl, id⟩
    | some s =>
      obtain ⟨⟨r, out⟩, -, rfl⟩ := Option.map_eq_some_iff.mp h
      cases out <;> exact ⟨rfl, id⟩

variable {δ : Type*} [WideArith δ] [FloatCasts δ σ] {u : Setup}

/-- What a step of a thread that does not register is to its stream: it keeps it or is done,
and names no other. -/
structure Keeps (th th' : Thread σ) (fs : List ThreadEvent) : Prop where
  stream : th'.stream = none ∨ th'.stream = th.stream
  registers : fs.filterMap ThreadEvent.registers = []
  early : th'.Early → th.Early
  names : ∀ e ∈ fs, ∀ id, e.stream = some id → th.stream = some id

omit [PackArith σ] in
theorem keeps_quiet {th th' : Thread σ} {fs : List ThreadEvent}
    (hstream : th'.stream = none ∨ th'.stream = th.stream) (hearly : th'.Early → th.Early)
    (h : ∀ e ∈ fs, e.stream = none) : Keeps th th' fs := by
  refine ⟨hstream, List.filterMap_eq_nil_iff.mpr fun e he => ?_, hearly, fun e he id hid => ?_⟩
  · cases e with
    | registered id cfg => cases h _ he
    | _ => rfl
  · rw [h e he] at hid
    cases hid

theorem mixed_names {g g' : Shared} {j : Mixer.Input} {fs : List ThreadEvent}
    (h : g.mixed j = some (g', fs)) {k : Option ℕ}
    (hj : ∀ id, (∃ data, j = .push id data) ∨ j = .requestFlush id ∨ j = .finish id →
      k = some id) (hmix : ∀ delay, j ≠ .mix delay) :
    fs.filterMap ThreadEvent.registers = [] ∧
      ∀ e ∈ fs, ∀ id, e.stream = some id → k = some id := by
  obtain ⟨es, hstep, rfl⟩ := mixed_cases h
  generalize g'.mixer = m at hstep
  refine ⟨?_, fun e he id hid => ?_⟩
  · rw [List.filterMap_map]
    exact List.filterMap_eq_nil_iff.mpr fun _ _ => rfl
  · obtain ⟨f, hf, rfl⟩ := List.mem_map.mp he
    cases j with
    | mix delay => exact absurd rfl (hmix delay)
    | push i data =>
      obtain ⟨-, -, cells, -, -, -, rfl⟩ := Mixer.step_push hstep
      cases List.mem_singleton.mp hf
      cases hid
      exact hj id (.inl ⟨data, rfl⟩)
    | requestFlush i =>
      obtain ⟨-, -, rfl⟩ := Mixer.step_requestFlush hstep
      cases List.mem_singleton.mp hf
      cases hid
      exact hj id (.inr (.inl rfl))
    | finish i =>
      obtain ⟨-, -, rfl⟩ := Mixer.step_finish hstep
      cases List.mem_singleton.mp hf
      cases hid
      exact hj id (.inr (.inr rfl))
    | register n | elapse ns | setMuted b | setVolume v =>
      cases hstep
      exact (List.not_mem_nil hf).elim

theorem received_stream (r : Except ReadError Bytes) : ∀ e ∈ received r, e.stream = none := by
  unfold received
  split
  · exact List.forall_mem_singleton.mpr rfl
  · exact List.forall_mem_nil _

section

variable {allowed : Bool} {g g' : Shared} {p p' : Peer} {a : Answer} {th' : Thread σ}
  {fs : List ThreadEvent}

theorem keeps_start {cfg : Option AudioCfg}
    (hs : Thread.step δ u allowed g p a (.start cfg) = some (g', p', th', fs)) :
    Keeps (.start cfg) th' fs := by
  simp only [Thread.step] at hs
  split at hs
  · split at hs <;> cases hs
    · exact keeps_quiet (.inl rfl) (fun _ => trivial) (List.forall_mem_singleton.mpr rfl)
    · exact keeps_quiet (.inl rfl) (fun _ => trivial) (List.forall_mem_nil _)
  · cases hs
    exact keeps_quiet (.inl rfl) (fun _ => trivial) (List.forall_mem_singleton.mpr rfl)

theorem keeps_limit {cfg : AudioCfg}
    (hs : Thread.step δ u allowed g p a (.limit cfg) = some (g', p', th', fs)) :
    Keeps (.limit cfg) th' fs := by
  simp only [Thread.step] at hs
  split at hs <;> cases hs <;>
    exact keeps_quiet (.inl rfl) (fun _ => trivial) (List.forall_mem_singleton.mpr rfl)

theorem keeps_poll {s : Stream σ}
    (hs : Thread.step δ u allowed g p a (.poll s) = some (g', p', th', fs)) :
    Keeps (.poll s) th' fs := by
  simp only [Thread.step] at hs
  repeat' split at hs
  all_goals
    cases hs
    exact keeps_quiet (.inr rfl) id (List.forall_mem_nil _)

theorem keeps_read {s : Option (Stream σ)} {f : Field} {got : Bytes}
    (hs : Thread.step δ u allowed g p a (.read s f got) = some (g', p', th', fs)) :
    Keeps (.read s f got) th' fs := by
  obtain ⟨⟨r, q⟩, -, hs⟩ := Option.bind_eq_some_iff.mp hs
  dsimp only at hs
  split at hs
  · cases hs
    exact keeps_quiet (.inr rfl) id (received_stream r)
  · obtain ⟨th₁, hdecode, hs⟩ := Option.map_eq_some_iff.mp hs
    cases hs
    obtain ⟨hstream, hearly⟩ := Thread.stream_decode hdecode
    exact keeps_quiet (.inr hstream) (fun h => absurd h hearly) (received_stream r)
  · cases hs
    refine keeps_quiet (.inr (Thread.stream_leave s)) (fun h => ?_) (List.forall_mem_nil _)
    cases s <;> exact h

/- A command: a FLUSH is the only one about a stream, and it is about the thread's. -/
theorem keeps_apply {s : Option (Stream σ)} {cmd : Cmd}
    (hs : Thread.step δ u allowed g p a (.apply s cmd) = some (g', p', th', fs)) :
    Keeps (.apply s cmd) th' fs := by
  have hturn : (Thread.turn s).stream = none ∨
      (Thread.turn s).stream = (Thread.apply s cmd).stream := .inr (Thread.stream_turn s)
  have hearly : (Thread.turn s).Early → (Thread.apply s cmd).Early := by
    cases s <;> exact id
  simp only [Thread.step] at hs
  split at hs
  · cases hs
    have hquiet : ∀ e ∈ [ThreadEvent.applied cmd], e.stream = none :=
      List.forall_mem_singleton.mpr rfl
    split
    · exact keeps_quiet (.inr rfl) id hquiet
    · exact keeps_quiet hturn hearly hquiet
  · rename_i j hj
    obtain ⟨⟨g₁, fs₁⟩, hm, hs⟩ := Option.map_eq_some_iff.mp hs
    cases hs
    obtain ⟨hreg, hnames⟩ := mixed_names (k := s.map (·.id)) hm (fun id hid => by
      cases cmd with
      | flush =>
        obtain ⟨i, hi, rfl⟩ := Option.map_eq_some_iff.mp hj
        rcases hid with ⟨data, heq⟩ | heq | heq <;> cases heq
        exact hi
      | status => cases hj
      | mute | unmute | volume bits =>
        cases hj
        rcases hid with ⟨data, heq⟩ | heq | heq <;> cases heq) fun delay heq => by
      have haside := applyInput_aside hj
      rw [heq] at haside
      exact haside
    refine ⟨hturn, hreg, hearly, fun e he id hid => ?_⟩
    rcases List.mem_cons.mp he with rfl | he
    · cases hid
    · exact hnames e he id hid

theorem keeps_status {s : Option (Stream σ)} {todo : List Load} {st : Status}
    (hs : Thread.step δ u allowed g p a (.status s todo st) = some (g', p', th', fs)) :
    Keeps (.status s todo st) th' fs := by
  cases todo with
  | nil =>
    cases hs
    have hearly : (Thread.turn s).Early → (Thread.status s [] st).Early := by
      cases s <;> exact id
    exact keeps_quiet (.inr (Thread.stream_turn s)) hearly (List.forall_mem_singleton.mpr rfl)
  | cons l todo =>
    cases hs
    exact keeps_quiet (.inr rfl) id (List.forall_mem_nil _)

theorem keeps_push {s : Stream σ} {data : Bytes}
    (hs : Thread.step δ u allowed g p a (.push s data) = some (g', p', th', fs)) :
    Keeps (.push s data) th' fs := by
  obtain ⟨⟨g₁, fs₁⟩, hm, hs⟩ := Option.map_eq_some_iff.mp hs
  cases hs
  obtain ⟨hreg, hnames⟩ := mixed_names (k := some s.id) hm (fun id hid => by
    rcases hid with ⟨d, heq⟩ | heq | heq <;> cases heq
    rfl) fun delay heq => by cases heq
  exact ⟨.inr rfl, hreg, id, hnames⟩

theorem keeps_finish {i : ℕ}
    (hs : Thread.step δ u allowed g p a (.finish i) = some (g', p', th', fs)) :
    Keeps (.finish i) th' fs := by
  obtain ⟨⟨g₁, fs₁⟩, hm, hs⟩ := Option.map_eq_some_iff.mp hs
  cases hs
  obtain ⟨hreg, hnames⟩ := mixed_names (k := some i) hm (fun id hid => by
    rcases hid with ⟨d, heq⟩ | heq | heq <;> cases heq
    rfl) fun delay heq => by cases heq
  exact ⟨.inl rfl, hreg, id, hnames⟩

/-- A thread registers one stream and keeps to it. -/
theorem Thread.step_keeps {th : Thread σ}
    (hs : Thread.step δ u allowed g p a th = some (g', p', th', fs)) :
    Keeps th th' fs ∨ ∃ cfg, th = .register cfg ∧
      fs = [.registered g.mixer.registered cfg] ∧ th'.stream = some g.mixer.registered ∧
        ¬ th'.Early ∧ g'.mixer.registered = g.mixer.registered + 1 := by
  cases th with
  | register cfg =>
    cases hs
    exact .inr ⟨cfg, rfl, rfl, rfl, id, rfl⟩
  | start cfg => exact .inl (keeps_start hs)
  | limit cfg => exact .inl (keeps_limit hs)
  | poll s => exact .inl (keeps_poll hs)
  | read s f got => exact .inl (keeps_read hs)
  | apply s cmd => exact .inl (keeps_apply hs)
  | status s todo st => exact .inl (keeps_status hs)
  | push s data => exact .inl (keeps_push hs)
  | count s n =>
    cases hs
    exact .inl (keeps_quiet (.inr rfl) id (List.forall_mem_nil _))
  | finish i => exact .inl (keeps_finish hs)
  | done => cases hs

end

theorem Thread.step_mixes {allowed : Bool} {g g' : Shared} {p p' : Peer} {a : Answer}
    {th th' : Thread σ} {fs : List ThreadEvent}
    (hs : Thread.step δ u allowed g p a th = some (g', p', th', fs)) :
    (g'.mixer = g.mixer ∧ fs.filterMap ThreadEvent.ofMixer = []) ∨
      ∃ j, Mixer.step g.mixer j = some (g'.mixer, fs.filterMap ThreadEvent.ofMixer) := by
  have hmixed : ∀ {j : Mixer.Input} {g' : Shared} {fs : List ThreadEvent},
      g.mixed j = some (g', fs) →
      Mixer.step g.mixer j = some (g'.mixer, fs.filterMap ThreadEvent.ofMixer) := by
    intro j g' fs h
    obtain ⟨es, hstep, rfl⟩ := mixed_cases h
    have hback : (es.map ThreadEvent.mixer).filterMap ThreadEvent.ofMixer = es := by
      rw [List.filterMap_map]
      exact List.filterMap_some
    rw [hback, hstep]
  cases th with
  | register cfg =>
    cases hs
    exact .inr ⟨.register u.clientRingBytes, rfl⟩
  | apply s cmd =>
    simp only [Thread.step] at hs
    split at hs
    · cases hs
      exact .inl ⟨rfl, rfl⟩
    · obtain ⟨⟨g₁, fs₁⟩, hm, hs⟩ := Option.map_eq_some_iff.mp hs
      have hstep := hmixed hm
      cases hs
      exact .inr ⟨_, hstep⟩
  | push s data | finish i =>
    obtain ⟨⟨g₁, fs₁⟩, hm, hs⟩ := Option.map_eq_some_iff.mp hs
    cases hs
    exact .inr ⟨_, hmixed hm⟩
  | read s f got =>
    have hreceived : ∀ r, (received r).filterMap ThreadEvent.ofMixer = [] := fun r => by
      unfold received
      split <;> rfl
    obtain ⟨⟨r, q⟩, -, hs⟩ := Option.bind_eq_some_iff.mp hs
    dsimp only at hs
    left
    split at hs
    · cases hs
      exact ⟨rfl, hreceived r⟩
    · obtain ⟨_, -, hs⟩ := Option.map_eq_some_iff.mp hs
      cases hs
      exact ⟨rfl, hreceived r⟩
    · cases hs
      exact ⟨rfl, rfl⟩
  | start _ | limit _ | poll _ | status _ _ _ | count _ _ | done =>
    left
    simp only [Thread.step] at hs
    repeat' split at hs
    all_goals
      cases hs
      try exact ⟨rfl, rfl⟩

theorem names_cellsIn {fs : List ThreadEvent} {k : Option ℕ}
    (h : ∀ e ∈ fs, ∀ id, e.stream = some id → k = some id) (id : ℕ) :
    Mixer.bytes (Mixer.cellsIn id (fs.filterMap ThreadEvent.ofMixer)) =
      if k = some id then audio (fs.flatMap ThreadEvent.acts) else [] := by
  induction fs with
  | nil => split <;> rfl
  | cons e fs ih =>
    have hrest := ih fun f hf => h f (List.mem_cons_of_mem _ hf)
    have hhead := h e (List.mem_cons_self ..)
    rw [List.flatMap_cons, audio_append]
    have hquiet : e.acts.flatMap Act.audio = [] → (∀ f, e.ofMixer = some f →
        f.cellsIn id = []) → Mixer.bytes (Mixer.cellsIn id
          ((e :: fs).filterMap ThreadEvent.ofMixer)) =
            if k = some id then audio e.acts ++ audio (fs.flatMap ThreadEvent.acts) else [] := by
      intro hacts hcells
      rw [audio, hacts, List.nil_append, ← hrest]
      cases hof : e.ofMixer with
      | none => rw [List.filterMap_cons_none hof]
      | some f => rw [List.filterMap_cons_some hof, Mixer.cellsIn, List.flatMap_cons, hcells f hof,
          List.nil_append, Mixer.cellsIn]
    cases e with
    | mixer f =>
      cases f with
      | pushed i cells =>
        have hk : k = some i := hhead i rfl
        have hcons : (ThreadEvent.mixer (.pushed i cells) :: fs).filterMap ThreadEvent.ofMixer =
            .pushed i cells :: fs.filterMap ThreadEvent.ofMixer := rfl
        rw [hcons, Mixer.cellsIn, List.flatMap_cons, Mixer.bytes_append, ← Mixer.cellsIn, hrest, hk]
        by_cases hi : i = id
        · subst hi
          simp [Mixer.Event.cellsIn, ThreadEvent.acts, audio, Act.audio]
        · simp [Mixer.Event.cellsIn, hi, Mixer.bytes]
      | _ =>
        refine hquiet rfl fun f hf => ?_
        cases hf
        rfl
    | _ => exact hquiet rfl fun f hf => (by cases hf)

theorem names_silent {fs : List ThreadEvent}
    (h : ∀ e ∈ fs, ∀ id, e.stream = some id → (none : Option ℕ) = some id) :
    audio (fs.flatMap ThreadEvent.acts) = [] := by
  rw [audio, List.flatMap_assoc]
  refine List.flatMap_eq_nil_iff.mpr fun e he => ?_
  cases e with
  | mixer f =>
    cases f with
    | pushed i cells => cases h _ he i rfl
    | _ => rfl
  | _ => rfl

/-! ### Runs of the server -/

/-- Whose streams there are, and what has gone into them. -/
structure Owned (s : Server σ) (tr : List Event) : Prop where
  ledger : Mixer.Ledger s.shared.mixer (mixerEvents tr)
  early : ∀ c, (∀ th, s.threads c = some th → th.Early) →
    registered c tr = [] ∧ audio (acts c tr) = []
  own : ∀ c th id, s.threads c = some th → th.stream = some id → registered c tr = [id]
  known : ∀ c id, id ∈ registered c tr → id < s.shared.mixer.registered
  unique : ∀ c d id, id ∈ registered c tr → id ∈ registered d tr → c = d
  names : ∀ c e id, .thread c e ∈ tr → e.stream = some id → id ∈ registered c tr
  unused : ∀ id, s.shared.mixer.registered ≤ id → Mixer.cellsIn id (mixerEvents tr) = []
  said : ∀ c id, id ∈ registered c tr →
    Mixer.bytes (Mixer.cellsIn id (mixerEvents tr)) = audio (acts c tr)

omit [PackArith σ] in
theorem owned_init (volume : F32) : Owned (Server.init volume : Server σ) [] :=
  ⟨Mixer.ledger_init volume, fun _ _ => ⟨rfl, rfl⟩, fun _ _ _ h => (by cases h),
    fun _ _ h => (List.not_mem_nil h).elim, fun _ _ _ h => (List.not_mem_nil h).elim,
    fun _ _ _ h => (List.not_mem_nil h).elim, fun _ _ => rfl,
    fun _ _ h => (List.not_mem_nil h).elim⟩

section

variable {s s' : Server σ} {tr es : List Event}

omit [PackArith σ] in
theorem registered_aside (h : ∀ e ∈ es, ∀ c f, e ≠ .thread c f) (c : ℕ) :
    registered c es = [] := by
  refine List.filterMap_eq_nil_iff.mpr fun e he => ?_
  cases e with
  | thread d f => exact absurd rfl (h _ he d f)
  | accepted _ | header _ _ | dropped _ | mixer _ => rfl

theorem acts_aside (h : ∀ e ∈ es, ∀ c f, e ≠ .thread c f) (c : ℕ) : acts c es = [] := by
  refine List.flatMap_eq_nil_iff.mpr fun e he => ?_
  cases e with
  | thread d f => exact absurd rfl (h _ he d f)
  | accepted _ | header _ _ | dropped _ | mixer _ => rfl

omit [PackArith σ] in
theorem Owned.aside (h : Owned s tr)
    (hthreads : ∀ c, s'.threads c = s.threads c ∨
      s.threads c = none ∧ ∃ cfg, s'.threads c = some (.start cfg))
    (hledger : Mixer.Ledger s'.shared.mixer (mixerEvents tr ++ mixerEvents es))
    (hreg : s.shared.mixer.registered ≤ s'.shared.mixer.registered)
    (hes : ∀ e ∈ es, ∀ c f, e ≠ .thread c f)
    (hcells : ∀ id, Mixer.cellsIn id (mixerEvents es) = []) : Owned s' (tr ++ es) := by
  have hregistered : ∀ c, registered c (tr ++ es) = registered c tr := fun c => by
    rw [registered_append, registered_aside hes, List.append_nil]
  have hacts : ∀ c, acts c (tr ++ es) = acts c tr := fun c => by
    rw [acts_append, acts_aside hes, List.append_nil]
  have hin : ∀ id, Mixer.cellsIn id (mixerEvents (tr ++ es)) =
      Mixer.cellsIn id (mixerEvents tr) := fun id => by
    rw [mixerEvents_append, Mixer.cellsIn_append, hcells, List.append_nil]
  constructor
  case ledger =>
    rw [mixerEvents_append]
    exact hledger
  case early =>
    intro c hearly
    rw [hregistered, hacts]
    refine h.early c fun th hth => ?_
    rcases hthreads c with hsame | ⟨hnone, -⟩
    · exact hearly th (hsame.trans hth)
    · rw [hnone] at hth
      cases hth
  case own =>
    intro c th id hth hid
    rw [hregistered]
    rcases hthreads c with hsame | ⟨-, cfg, hstart⟩
    · exact h.own c th id (hsame.symm.trans hth) hid
    · rw [hstart] at hth
      cases hth
      cases hid
  case known =>
    intro c id hid
    rw [hregistered] at hid
    exact (h.known c id hid).trans_le hreg
  case unique =>
    intro c d id hc hd
    rw [hregistered] at hc hd
    exact h.unique c d id hc hd
  case names =>
    intro c e id he hid
    rw [hregistered]
    rcases List.mem_append.mp he with he | he
    · exact h.names c e id he hid
    · exact absurd rfl (hes _ he c e)
  case unused =>
    intro id hid
    rw [hin]
    exact h.unused id (hreg.trans hid)
  case said =>
    intro c id hid
    rw [hregistered] at hid
    rw [hin, hacts]
    exact h.said c id hid

section

variable {c d id : ℕ} {q : Peer} {g : Shared} {th th' : Thread σ} {fs : List ThreadEvent}

omit [PackArith σ] in
theorem registered_keeps (hkeeps : Keeps th th' fs) :
    registered d (tr ++ fs.map (.thread c)) = registered d tr := by
  rw [registered_append, registered_thread, hkeeps.registers, ite_self, List.append_nil]

theorem acts_by : acts d (tr ++ fs.map (.thread c)) =
    acts d tr ++ if c = d then fs.flatMap ThreadEvent.acts else [] := by
  rw [acts_append, acts_thread]

omit [PackArith σ] in
/- A thread that has not registered has done nothing, and does nothing. -/
theorem Owned.keeps_early (h : Owned s tr) (hth : s.threads c = some th)
    (hkeeps : Keeps th th' fs)
    (hearly : ∀ th₁, Function.update s.threads c (some th') d = some th₁ → th₁.Early) :
    registered d (tr ++ fs.map (.thread c)) = [] ∧
      audio (acts d (tr ++ fs.map (.thread c))) = [] := by
  rw [registered_keeps hkeeps, acts_by]
  by_cases hd : d = c
  · subst hd
    have hwas : th.Early := hkeeps.early (hearly th' (Function.update_self ..))
    have hold := h.early d fun th₁ hth₁ => by
      rw [hth] at hth₁
      cases hth₁
      exact hwas
    have hsilent : audio (fs.flatMap ThreadEvent.acts) = [] := by
      have hnone : th.stream = none := by
        cases th <;> first | rfl | exact hwas.elim
      exact names_silent (hnone ▸ hkeeps.names)
    rw [if_pos rfl, audio_append, hsilent, hold.2]
    exact ⟨hold.1, rfl⟩
  · rw [if_neg (Ne.symm hd), List.append_nil]
    exact h.early d fun th₁ hth₁ => hearly th₁ ((Function.update_of_ne hd ..).trans hth₁)

omit [PackArith σ] in
theorem Owned.keeps_own (h : Owned s tr) (hth : s.threads c = some th)
    (hkeeps : Keeps th th' fs) {th₁ : Thread σ}
    (hth₁ : Function.update s.threads c (some th') d = some th₁) (hid : th₁.stream = some id) :
    registered d (tr ++ fs.map (.thread c)) = [id] := by
  rw [registered_keeps hkeeps]
  by_cases hd : d = c
  · subst hd
    cases (Function.update_self ..).symm.trans hth₁
    rcases hkeeps.stream with hnone | hsame
    · rw [hnone] at hid
      cases hid
    · exact h.own d th id hth (hsame ▸ hid)
  · exact h.own d th₁ id ((Function.update_of_ne hd ..).symm.trans hth₁) hid

omit [PackArith σ] in
theorem Owned.keeps_said (h : Owned s tr) (hth : s.threads c = some th)
    (hkeeps : Keeps th th' fs) (hid : id ∈ registered d tr) :
    Mixer.bytes (Mixer.cellsIn id (mixerEvents tr)) ++
        (if th.stream = some id then audio (fs.flatMap ThreadEvent.acts) else []) =
      audio (acts d (tr ++ fs.map (.thread c))) := by
  rw [acts_by, audio_append, h.said d id hid]
  by_cases hd : c = d
  · subst hd
    rw [if_pos rfl]
    by_cases hown : th.stream = some id
    · rw [if_pos hown]
    · rw [if_neg hown]
      cases hstream : th.stream with
      | none =>
        have hsilent := names_silent (hstream ▸ hkeeps.names)
        rw [hsilent]
      | some id' =>
        rw [h.own c th id' hth hstream, List.mem_singleton] at hid
        exact absurd (hid ▸ hstream) hown
  · have hnot : th.stream ≠ some id := fun hown =>
      hd (h.unique c d id (h.own c th id hth hown ▸ List.mem_singleton_self id) hid)
    rw [if_neg hnot, if_neg hd]
    rfl

omit [PackArith σ] in
theorem Owned.keeps (h : Owned s tr) (hth : s.threads c = some th) (hkeeps : Keeps th th' fs)
    (hledger : Mixer.Ledger g.mixer (mixerEvents tr ++ fs.filterMap ThreadEvent.ofMixer))
    (hreg : s.shared.mixer.registered ≤ g.mixer.registered) :
    Owned { s.setPeer c q with
      shared := g, threads := Function.update s.threads c (some th') }
      (tr ++ fs.map (.thread c)) := by
  have hin : ∀ id, Mixer.bytes (Mixer.cellsIn id (mixerEvents (tr ++ fs.map (.thread c)))) =
      Mixer.bytes (Mixer.cellsIn id (mixerEvents tr)) ++
        if th.stream = some id then audio (fs.flatMap ThreadEvent.acts) else [] := fun id => by
    rw [mixerEvents_append, mixerEvents_thread, Mixer.cellsIn_append, Mixer.bytes_append,
      names_cellsIn hkeeps.names]
  constructor
  case ledger =>
    rw [mixerEvents_append, mixerEvents_thread]
    exact hledger
  case early => exact fun d hearly => h.keeps_early hth hkeeps hearly
  case own => exact fun d th₁ id hth₁ hid => h.keeps_own hth hkeeps hth₁ hid
  case known =>
    intro d id hid
    rw [registered_keeps hkeeps] at hid
    exact (h.known d id hid).trans_le hreg
  case unique =>
    intro d d' id hd hd'
    rw [registered_keeps hkeeps] at hd hd'
    exact h.unique d d' id hd hd'
  case names =>
    intro d e id he hid
    rw [registered_keeps hkeeps]
    rcases List.mem_append.mp he with he | he
    · exact h.names d e id he hid
    · obtain ⟨f, hf, heq⟩ := List.mem_map.mp he
      cases heq
      rw [h.own c th id hth (hkeeps.names e hf id hid)]
      exact List.mem_singleton_self id
  case unused =>
    intro id hid
    have hfresh : th.stream ≠ some id := fun hown => by
      have hlt := h.known c id (h.own c th id hth hown ▸ List.mem_singleton_self id)
      exact absurd (hreg.trans hid) (Nat.not_le.mpr hlt)
    have hbytes := hin id
    rw [h.unused id (hreg.trans hid), if_neg hfresh] at hbytes
    exact List.map_eq_nil_iff.mp hbytes
  case said =>
    intro d id hid
    rw [registered_keeps hkeeps] at hid
    rw [hin]
    exact h.keeps_said hth hkeeps hid

/-! The step that registers: the stream is new, and so is what it does. -/

variable {n : ℕ} {cfg : AudioCfg}

theorem registered_register :
    registered d (tr ++ [ThreadEvent.registered n cfg].map (.thread c)) =
      registered d tr ++ if c = d then [n] else [] := by
  rw [registered_append, registered_thread]
  rfl

theorem acts_register :
    acts d (tr ++ [ThreadEvent.registered n cfg].map (.thread c)) = acts d tr := by
  rw [acts_append, acts_thread]
  exact (congrArg (acts d tr ++ ·) (ite_self _)).trans (List.append_nil _)

theorem mixerEvents_register :
    mixerEvents (tr ++ [ThreadEvent.registered n cfg].map (.thread c)) = mixerEvents tr := by
  rw [mixerEvents_append, mixerEvents_thread]
  exact List.append_nil _

theorem mem_register (hnone : registered c tr = [])
    (hid : id ∈ registered d (tr ++ [ThreadEvent.registered n cfg].map (.thread c))) :
    d = c ∧ id = n ∨ d ≠ c ∧ id ∈ registered d tr := by
  rw [registered_register] at hid
  by_cases hd : d = c
  · subst hd
    rw [hnone, if_pos rfl, List.nil_append, List.mem_singleton] at hid
    exact .inl ⟨rfl, hid⟩
  · rw [if_neg (Ne.symm hd), List.append_nil] at hid
    exact .inr ⟨hd, hid⟩

omit [PackArith σ] in
theorem Owned.register_unique (h : Owned s tr) (hnone : registered c tr = []) {d d' : ℕ}
    (hd : id ∈ registered d
      (tr ++ [ThreadEvent.registered s.shared.mixer.registered cfg].map (.thread c)))
    (hd' : id ∈ registered d'
      (tr ++ [ThreadEvent.registered s.shared.mixer.registered cfg].map (.thread c))) :
    d = d' := by
  rcases mem_register hnone hd with ⟨rfl, rfl⟩ | ⟨-, hin⟩
  · rcases mem_register hnone hd' with ⟨heq, -⟩ | ⟨-, hin'⟩
    · exact heq.symm
    · exact absurd (h.known d' _ hin') (Nat.lt_irrefl _)
  · rcases mem_register hnone hd' with ⟨-, rfl⟩ | ⟨-, hin'⟩
    · exact absurd (h.known d _ hin) (Nat.lt_irrefl _)
    · exact h.unique d d' id hin hin'

omit [PackArith σ] in
theorem Owned.register (h : Owned s tr) (hth : s.threads c = some (.register cfg))
    (hstream : th'.stream = some s.shared.mixer.registered) (hearly : ¬ th'.Early)
    (hledger : Mixer.Ledger g.mixer (mixerEvents tr))
    (hreg : g.mixer.registered = s.shared.mixer.registered + 1) :
    Owned { s.setPeer c q with
      shared := g, threads := Function.update s.threads c (some th') }
      (tr ++ [ThreadEvent.registered s.shared.mixer.registered cfg].map (.thread c)) := by
  obtain ⟨hnone, hsilent⟩ := h.early c fun th₁ hth₁ => by
    rw [hth] at hth₁
    cases hth₁
    trivial
  have hself : Function.update s.threads c (some th') c = some th' := Function.update_self ..
  have hother : ∀ d, d ≠ c → Function.update s.threads c (some th') d = s.threads d :=
    fun d hd => Function.update_of_ne hd ..
  constructor
  case ledger => rwa [mixerEvents_register]
  case early =>
    intro d hall
    have hd : d ≠ c := fun heq => hearly (hall th' (heq ▸ hself))
    rw [registered_register, if_neg (Ne.symm hd), List.append_nil, acts_register]
    exact h.early d fun th₁ hth₁ => hall th₁ ((hother d hd).trans hth₁)
  case own =>
    intro d th₁ id hth₁ hid
    rw [registered_register]
    by_cases hd : d = c
    · subst hd
      cases hself.symm.trans hth₁
      rw [hnone, if_pos rfl, Option.some.inj (hstream.symm.trans hid), List.nil_append]
    · rw [if_neg (Ne.symm hd), List.append_nil]
      exact h.own d th₁ id ((hother d hd).symm.trans hth₁) hid
  case known =>
    intro d id hid
    have hlt : id < s.shared.mixer.registered + 1 := by
      rcases mem_register hnone hid with ⟨-, rfl⟩ | ⟨-, hin⟩
      · exact Nat.lt_succ_self _
      · exact (h.known d id hin).trans (Nat.lt_succ_self _)
    exact hreg ▸ hlt
  case unique => exact fun d d' id hd hd' => h.register_unique hnone hd hd'
  case names =>
    intro d e id he hid
    rw [registered_register]
    rcases List.mem_append.mp he with he | he
    · exact List.mem_append_left _ (h.names d e id he hid)
    · cases List.mem_singleton.mp he
      cases hid
      rw [if_pos rfl]
      exact List.mem_append_right _ (List.mem_singleton_self _)
  case unused =>
    intro id hid
    have hle : s.shared.mixer.registered + 1 ≤ id := hreg ▸ hid
    rw [mixerEvents_register]
    exact h.unused id (Nat.le_of_succ_le hle)
  case said =>
    intro d id hid
    rw [mixerEvents_register, acts_register]
    rcases mem_register hnone hid with ⟨rfl, rfl⟩ | ⟨-, hin⟩
    · rw [h.unused _ (le_refl _), hsilent]
      rfl
    · exact h.said d id hin

end

omit [PackArith σ] in
theorem loop_threads {a : Answer} (h : Placed s) (hs : s.loopStep a = some (s', es)) (c : ℕ) :
    s'.threads c = s.threads c ∨
      s.threads c = none ∧ ∃ cfg, s'.threads c = some (.start cfg) := by
  cases hl : s.loop with
  | stopped =>
    simp only [Server.loopStep, hl] at hs
    cases hs
  | top =>
    simp only [Server.loopStep, hl] at hs
    cases hs
    exact .inl rfl
  | accept =>
    simp only [Server.loopStep, hl] at hs
    split at hs <;> cases hs <;> exact .inl rfl
  | header d got deadline =>
    obtain ⟨p, q, r, hp, hr, rfl, -⟩ := loopStep_header hl hs
    have hgot : s.loop.got d ≠ none := by
      rw [hl]
      exact (if_pos rfl).trans_ne (Option.some_ne_none got)
    have hthread : s.threads d = none := (h.heading d hgot).2
    cases (headerRead s.shared.mixer.now d got deadline r).started with
    | none => exact .inl rfl
    | some cfg =>
      by_cases hd : c = d
      · subst hd
        exact .inr ⟨hthread, cfg, Function.update_self ..⟩
      · exact .inl (Function.update_of_ne hd ..)

theorem Owned.thread (h : Owned s tr) {c : ℕ} {a : Answer}
    (hs : s.step δ u (.thread c a) = some (s', es)) : Owned s' (tr ++ es) := by
  obtain ⟨p, th, g, q, th', fs, hp, hth, hstep, rfl, rfl⟩ := threadStep_cases hs
  have hmixes : Mixer.Ledger g.mixer (mixerEvents tr ++ fs.filterMap ThreadEvent.ofMixer) ∧
      s.shared.mixer.registered ≤ g.mixer.registered := by
    rcases Thread.step_mixes hstep with ⟨hsame, hnil⟩ | ⟨j, hm⟩
    · rw [hsame, hnil, List.append_nil]
      exact ⟨h.ledger, le_refl _⟩
    · exact ⟨h.ledger.step hm, mixer_registered hm⟩
  rcases Thread.step_keeps hstep with hkeeps | ⟨cfg, rfl, rfl, hstream, hearly, hreg⟩
  · exact h.keeps hth hkeeps hmixes.1 hmixes.2
  · refine h.register hth hstream hearly ?_ hreg
    have hall := hmixes.1
    rwa [List.filterMap_cons_none rfl, List.filterMap_nil, List.append_nil] at hall

omit [PackArith σ] in
theorem Owned.outside (h : Owned s tr) (hthreads : s'.threads = s.threads)
    (hmixer : s'.shared.mixer = s.shared.mixer) : Owned s' (tr ++ []) := by
  refine h.aside (fun c => .inl (congrFun hthreads c)) ?_ (le_of_eq (by rw [hmixer]))
    (fun _ he => (List.not_mem_nil he).elim) fun _ => rfl
  rw [hmixer]
  exact (List.append_nil (mixerEvents tr)).symm ▸ h.ledger

theorem Owned.step (h : Owned s tr) (hplaced : Placed s) {i : Input}
    (hs : s.step δ u i = some (s', es)) : Owned s' (tr ++ es) := by
  cases i with
  | thread c a => exact h.thread hs
  | loop a =>
    obtain ⟨hshared, -⟩ := loopStep_starts hs
    have hloop := loopStep_ofLoop hs
    have hnil := mixerEvents_ofLoop hloop
    refine h.aside (loop_threads hplaced hs) ?_ (by rw [hshared]) (fun e he c f heq => ?_)
      fun id => by rw [hnil]; rfl
    · rw [hshared, hnil, List.append_nil]
      exact h.ledger
    · have hof := hloop e he
      rw [heq] at hof
      exact hof
  | mix delay =>
    obtain ⟨rfl, rfl⟩ := Prod.mk.inj (Option.some.inj hs)
    have hstep : Mixer.step s.shared.mixer (.mix delay) =
        some ((s.shared.mixer.mix delay).1, (s.shared.mixer.mix delay).2) := rfl
    refine h.aside (fun _ => .inl rfl) ?_ (mixer_registered hstep) (fun e he c f heq => ?_)
      fun id => ?_
    · rw [mixerEvents_mixer]
      exact h.ledger.step hstep
    · obtain ⟨m, -, rfl⟩ := List.mem_map.mp he
      cases heq
    · rw [mixerEvents_mixer]
      exact mix_cellsIn ..
  | elapse ns =>
    cases hs
    have hstep : Mixer.step s.shared.mixer (.elapse ns) =
        some ({ s.shared.mixer with now := s.shared.mixer.now + ns }, []) := rfl
    exact h.aside (fun _ => .inl rfl) (h.ledger.step hstep) (le_refl _)
      (fun _ he => (List.not_mem_nil he).elim) fun _ => rfl
  | connect c =>
    simp only [Server.step] at hs
    split at hs <;> cases hs
    exact h.outside rfl rfl
  | send c data =>
    obtain ⟨p, -, hs⟩ := Option.bind_eq_some_iff.mp hs
    split at hs <;> cases hs
    exact h.outside rfl rfl
  | hangup c =>
    obtain ⟨p, -, hs⟩ := Option.map_eq_some_iff.mp hs
    cases hs
    exact h.outside rfl rfl
  | signal =>
    cases hs
    exact h.outside rfl rfl

end

/-- In every run of the server: a stream belongs to the one connection that registered it, no
other names it, and what the mixer has taken from it, with what is still in it, is the
beginning of the samples that the bytes sent on that connection say, and all of them when its
thread waits with nothing left to read. -/
theorem run_streams (δ : Type*) [WideArith δ] [FloatCasts δ σ] (u : Setup) (volume : F32)
    (is : List Input) {t : Server σ} {tr : List Event}
    (hrun : (Server.machine δ u).run (Server.init volume : Server σ) is = some (t, tr))
    {c id : ℕ} (hid : id ∈ registered c tr) :
    (∀ d e, .thread d e ∈ tr → e.stream = some id → d = c) ∧
      Mixer.bytes (Mixer.cellsOut id (mixerEvents tr)) ++
          Mixer.bytes (t.shared.mixer.streams id).ring.contents <+:
        audio (meaning σ δ u (sent c is)) ∧
      ∀ th p, t.threads c = some th → th.Listens → t.peers c = some p → p.unread = [] →
        Mixer.bytes (Mixer.cellsOut id (mixerEvents tr)) ++
            Mixer.bytes (t.shared.mixer.streams id).ring.contents =
          audio (meaning σ δ u (sent c is)) := by
  have hinv : Heard δ u t ([] ++ is) ([] ++ tr) ∧ Owned t ([] ++ tr) :=
    (Server.machine δ u).run_inv_inputs
      (I := fun s is tr => Heard δ u s is tr ∧ Owned s tr)
      (fun s js tr i s' es h hs => ⟨h.1.step hs, h.2.step h.1.1 hs⟩)
      ⟨heard_init volume, owned_init volume⟩ hrun
  have howned : Owned t tr := hinv.2
  obtain ⟨hpre, hwhole⟩ := run_told δ u volume is hrun c
  have hsaid := howned.said c id hid
  rw [howned.ledger.balance id, Mixer.bytes_append] at hsaid
  refine ⟨fun d e he hname => ?_, ?_, fun th p hth hlistens hp hun => ?_⟩
  · exact howned.unique d c id (howned.names d e id he hname) hid
  · rw [hsaid]
    exact audio_prefix hpre
  · rw [hsaid, hwhole th p hth hlistens hp hun]

/- The client of one frame, its thread back at the top. -/
theorem run_streams_oneFrame : ∃ t tr,
    (Server.machine ℝ oneUser).run (Server.init (.fin 100) : Server ℝ)
        (oneFrame ++ [.thread 0 (.bytes 0)]) = some (t, tr) ∧ 0 ∈ registered 0 tr ∧
      Mixer.bytes (Mixer.cellsOut 0 (mixerEvents tr)) = [1, 0, 2, 0] ∧
      Mixer.bytes (Mixer.cellsOut 0 (mixerEvents tr)) ++
          Mixer.bytes (t.shared.mixer.streams 0).ring.contents =
        audio (meaning ℝ ℝ oneUser (sent 0 (oneFrame ++ [.thread 0 (.bytes 0)]))) := by
  obtain ⟨t, tr, hrun, hid, hout, th, p, hth, hlistens, hp, hun⟩ : ∃ t tr,
      (Server.machine ℝ oneUser).run (Server.init (.fin 100) : Server ℝ)
          (oneFrame ++ [.thread 0 (.bytes 0)]) = some (t, tr) ∧ 0 ∈ registered 0 tr ∧
        Mixer.bytes (Mixer.cellsOut 0 (mixerEvents tr)) = [1, 0, 2, 0] ∧
        ∃ th p, t.threads 0 = some th ∧ th.Listens ∧ t.peers 0 = some p ∧ p.unread = [] :=
    ⟨_, _, rfl, List.mem_singleton_self 0, rfl, _, _, rfl, (by exact trivial), rfl, rfl⟩
  exact ⟨t, tr, hrun, hid, hout, (run_streams ℝ oneUser (.fin 100) _ hrun hid).2.2 th p hth
    hlistens hp hun⟩

end

end Audiod.Daemon
