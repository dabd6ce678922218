import Audiod.MixerSlots

/-!
# The client limit (`reader_client` in `server/src/main.rs`, `server/src/mixer.rs`)

A reader thread compares the number of live clients with `max_clients`, and only
then registers its stream. The number is the one the mixer stored at its last
tick: neither the streams still in the channel nor the readers between the check
and `register` count. The limit holds as long as no reader passes the check on a
number that leaves out too many of them.
-/

namespace Audiod.Clients

open Mixer (Mix MixerStream)

/-- `admitted` counts the readers that have passed the check and not registered
yet. -/
structure Server where
  mixer : Mix
  maxClients : ℕ
  admitted : ℕ

def Server.init (volume : F32) (maxClients : ℕ) : Server := ⟨Mix.init volume, maxClients, 0⟩

inductive Event
  | admitted
  | rejected (live : ℕ)
  | mixer (e : Mixer.Event)

/-- The check and the registration of a reader, and the steps of `Mixer` that are
not a registration. -/
inductive Input
  | check
  | register (ringBytes : ℕ)
  | mixer (i : Mixer.Input)

/-- The first lines of `reader_client`. -/
def Server.check (s : Server) : Server × List Event :=
  if s.maxClients ≤ s.mixer.live then (s, [.rejected s.mixer.live])
  else ({ s with admitted := s.admitted + 1 }, [.admitted])

def step (s : Server) : Input → Option (Server × List Event)
  | .check => some s.check
  | .register ringBytes =>
    match s.admitted with
    | 0 => none
    | n + 1 => some ({ s with mixer := s.mixer.register ringBytes, admitted := n }, [])
  | .mixer (.register _) => none
  | .mixer i => (Mixer.step s.mixer i).map fun p => ({ s with mixer := p.1 }, p.2.map .mixer)

def machine : Machine Server Input Event := ⟨step⟩

/-- The registered streams that the mixer has not dropped. -/
def Server.undropped (s : Server) : ℕ := s.mixer.queue.length + s.mixer.slots.length

/-- A reader that passes the check finds room for itself and for those on their
way. -/
def Admits (s : Server) : Input → Prop
  | .check => s.mixer.live < s.maxClients → s.undropped + s.admitted < s.maxClients
  | _ => True

instance (s : Server) (i : Input) : Decidable (Admits s i) :=
  match i with
  | .check => inferInstanceAs (Decidable (_ → _))
  | .register _ | .mixer _ => isTrue trivial

/-! ### The mixer drops streams only -/

variable {m m' : Mix} {s s' : Server} {es : List Event}

theorem mix_undropped (h : Mixer.SlotsInv m) (delay : ℤ) :
    (m.mix delay).1.queue.length + (m.mix delay).1.slots.length ≤
      m.queue.length + m.slots.length := by
  have hloop := h.loop
  cases hpc : m.pc with
  | recv =>
    simp only [Mix.mix, hpc]
    split
    · rename_i r rest hq
      show rest.length + (m.slots ++ [r]).length ≤ _
      rw [hq]
      simp only [List.length_append, List.length_cons, List.length_nil]
      omega
    · exact le_rfl
  | retain todo kept =>
    rw [hpc] at hloop
    cases todo with
    | nil =>
      have hsub : kept.length ≤ m.slots.length := by
        rw [Mixer.Pc.Within, List.append_nil] at hloop
        exact hloop.length_le
      simp only [Mix.mix, hpc]
      exact Nat.add_le_add_left hsub _
    | cons r todo =>
      simp only [Mix.mix, hpc]
      split <;> exact le_rfl
  | _ =>
    simp only [Mix.mix, hpc]
    repeat' split
    all_goals exact le_rfl

theorem step_undropped {i : Mixer.Input} {fs : List Mixer.Event} (h : Mixer.SlotsInv m)
    (hi : ∀ ringBytes, i ≠ .register ringBytes) (hs : Mixer.step m i = some (m', fs)) :
    m'.queue.length + m'.slots.length ≤ m.queue.length + m.slots.length := by
  cases i with
  | mix delay =>
    have hm := mix_undropped h delay
    rw [show m.mix delay = (m', fs) from Option.some.inj hs] at hm
    exact hm
  | register ringBytes => exact absurd rfl (hi ringBytes)
  | push id data =>
    obtain ⟨-, ring, cells, -, -, rfl, -⟩ := Mixer.step_push hs
    exact le_rfl
  | requestFlush id =>
    obtain ⟨-, rfl, -⟩ := Mixer.step_requestFlush hs
    exact le_rfl
  | finish id =>
    obtain ⟨-, rfl, -⟩ := Mixer.step_finish hs
    exact le_rfl
  | elapse ns | setMuted b | setVolume percent =>
    cases hs
    exact le_rfl

/-! ### The invariant -/

/-- The readers on their way have room as well. -/
structure LimitInv (maxClients : ℕ) (s : Server) : Prop where
  slots : Mixer.SlotsInv s.mixer
  limit : s.maxClients = maxClients
  room : s.undropped + s.admitted ≤ maxClients

theorem limitInv_init (volume : F32) (maxClients : ℕ) :
    LimitInv maxClients (Server.init volume maxClients) :=
  ⟨Mixer.slotsInv_init volume, rfl, Nat.zero_le _⟩

theorem step_mixer_cases {i : Mixer.Input} (hs : step s (.mixer i) = some (s', es)) :
    (∀ ringBytes, i ≠ .register ringBytes) ∧
      ∃ m' fs, Mixer.step s.mixer i = some (m', fs) ∧ s' = { s with mixer := m' } := by
  unfold step at hs
  split at hs
  case h_4 j hne heq =>
    cases heq
    obtain ⟨⟨m', fs⟩, hm, hp⟩ := Option.map_eq_some_iff.mp hs
    cases hp
    exact ⟨hne, m', fs, hm, rfl⟩
  all_goals simp_all

theorem LimitInv.step {maxClients : ℕ} (h : LimitInv maxClients s) {i : Input}
    (hok : Admits s i) (hs : step s i = some (s', es)) : LimitInv maxClients s' := by
  have hroom := h.room
  cases i with
  | check =>
    have heq : s.check = (s', es) := Option.some.inj hs
    unfold Server.check at heq
    split at heq
    · cases heq
      exact h
    · rename_i hlive
      cases heq
      have hfits : s.undropped + s.admitted < s.maxClients := hok (Nat.lt_of_not_le hlive)
      rw [h.limit] at hfits
      exact ⟨h.slots, h.limit, hfits⟩
  | register ringBytes =>
    simp only [Clients.step] at hs
    split at hs
    · cases hs
    · rename_i n hn
      cases hs
      have hslots : Mixer.SlotsInv (s.mixer.register ringBytes) :=
        h.slots.step (i := .register ringBytes) rfl
      refine ⟨hslots, h.limit, ?_⟩
      simp only [Server.undropped, Mix.register, Mix.setStream, List.length_append,
        List.length_singleton] at hroom ⊢
      omega
  | mixer i =>
    obtain ⟨hi, m', fs, hm, rfl⟩ := step_mixer_cases hs
    have hless := step_undropped h.slots hi hm
    refine ⟨h.slots.step hm, h.limit, ?_⟩
    simp only [Server.undropped] at hroom ⊢
    omega

theorem limitInv_run (volume : F32) (maxClients : ℕ) {is : List Input}
    (hok : machine.Meets Admits (Server.init volume maxClients) is) {s : Server} {tr : List Event}
    (hrun : machine.run (Server.init volume maxClients) is = some (s, tr)) :
    LimitInv maxClients s :=
  machine.run_state_inv_of_meets (fun _ _ _ _ hok h hs => h.step hok hs)
    (limitInv_init volume maxClients) hok hrun

/-- The limit holds in every state of a run in which each reader that passes the
check finds room. -/
theorem run_within_limit (volume : F32) (maxClients : ℕ) (is : List Input)
    (hok : machine.Meets Admits (Server.init volume maxClients) is) {s : Server} {tr : List Event}
    (hrun : machine.run (Server.init volume maxClients) is = some (s, tr)) :
    s.undropped ≤ maxClients := by
  have hend := limitInv_run volume maxClients hok hrun
  exact Nat.le_of_add_right_le hend.room

/-- The second reader checks after a tick that has seen the first one's stream. -/
def turnedAway : List Input :=
  [.check, .register 8] ++ List.replicate 7 (.mixer (.mix 0)) ++ [.check]

theorem run_within_limit_one : ∃ s tr,
    machine.run (Server.init (.fin 100) 1) turnedAway = some (s, tr) ∧ s.undropped ≤ 1 :=
  ⟨_, _, rfl, run_within_limit (.fin 100) 1 turnedAway (by decide +kernel) rfl⟩

/- Two readers check before either registers. -/
theorem limit_overrun :
    ¬ ∀ (volume : F32) (maxClients : ℕ) (is : List Input) (s : Server) (tr : List Event),
      machine.run (Server.init volume maxClients) is = some (s, tr) → s.undropped ≤ maxClients := by
  intro h
  have hrun := h (.fin 100) 1 [.check, .check, .register 8, .register 8] _ _ rfl
  exact absurd hrun (by decide)

/-! ### Where the limit is lost -/

theorem run_registers (ringBytes n : ℕ) (s : Server) (hn : s.admitted = n) :
    ∃ s', machine.run s (List.replicate n (.register ringBytes)) = some (s', []) ∧
      s'.undropped = s.undropped + n ∧ s'.maxClients = s.maxClients := by
  induction n generalizing s with
  | zero => exact ⟨s, rfl, rfl, rfl⟩
  | succ n ih =>
    let next : Server := { s with mixer := s.mixer.register ringBytes, admitted := n }
    have hstep : step s (.register ringBytes) = some (next, []) := by
      simp only [step, hn, next]
    obtain ⟨s', hrun, hmore, hmax⟩ := ih next rfl
    refine ⟨s', (machine.run_cons).mpr ⟨next, [], [], hstep, hrun, rfl⟩, ?_, hmax⟩
    rw [hmore]
    simp only [next, Server.undropped, Mix.register, Mix.setStream, List.length_append,
      List.length_singleton]
    omega

/-- Every reader let in without room can overrun the limit: by registering before
the mixer ticks again, with those on their way. -/
theorem overrun_of_check (ringBytes : ℕ) (hlive : s.mixer.live < s.maxClients)
    (hfull : s.maxClients ≤ s.undropped + s.admitted) :
    ∃ s' tr, machine.run s (.check :: List.replicate (s.admitted + 1) (.register ringBytes)) =
      some (s', tr) ∧ s'.maxClients < s'.undropped := by
  let next : Server := { s with admitted := s.admitted + 1 }
  have hstep : step s .check = some (next, [.admitted]) := by
    simp only [step, Server.check, if_neg (Nat.not_le.mpr hlive), next]
  obtain ⟨s', hrun, hmore, hmax⟩ := run_registers ringBytes (s.admitted + 1) next rfl
  refine ⟨s', _, (machine.run_cons).mpr ⟨next, [.admitted], [], hstep, hrun, rfl⟩, ?_⟩
  have hsame : next.undropped = s.undropped := rfl
  rw [hmore, hmax, hsame]
  show s.maxClients < s.undropped + (s.admitted + 1)
  omega

end Audiod.Clients
