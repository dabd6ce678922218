import Audiod.Mixer
import Mathlib.Data.List.GetD

/-!
# What the mixer delivers

Runs without FLUSH requests: every stream's bytes are taken in order, a tick
writes the saturated sum of what it took, and a slot goes away only after its
stream is finished and empty.
-/

namespace Audiod.Mixer

/-! ### Samples -/

def saturateI16 (v : ℤ) : ℤ := max (-32768) (min 32767 v)

theorem i16At_bounds (d : Bytes) (i : ℕ) : -32768 ≤ i16At d i ∧ i16At d i ≤ 32767 := by
  have h₀ := (d.getD (2 * i) 0).isLt
  have h₁ := (d.getD (2 * i + 1) 0).isLt
  simp only [i16At]
  split <;> omega

theorem i16At_of_length_le {d : Bytes} {i : ℕ} (h : d.length ≤ 2 * i) : i16At d i = 0 := by
  have e₀ : d.getD (2 * i) 0 = 0 := List.getD_eq_default _ _ h
  have e₁ : d.getD (2 * i + 1) 0 = 0 := List.getD_eq_default _ _ (by omega)
  simp only [i16At, e₀, e₁]
  rfl

theorem i16At_leI16 {a b : Bytes} {v : ℤ} {i : ℕ} (ha : a.length = 2 * i) (hlo : -32768 ≤ v)
    (hhi : v ≤ 32767) : i16At (a ++ (leI16 v ++ b)) i = v := by
  have e₀ : (a ++ (leI16 v ++ b)).getD (2 * i) 0 = ⟨(v % 65536).toNat % 256, by omega⟩ := by
    rw [List.getD_append_right _ _ _ _ (by omega), ha, Nat.sub_self]
    rfl
  have e₁ : (a ++ (leI16 v ++ b)).getD (2 * i + 1) 0 =
      ⟨(v % 65536).toNat / 256 % 256, by omega⟩ := by
    rw [List.getD_append_right _ _ _ _ (by omega), ha, Nat.add_sub_cancel_left]
    rfl
  simp only [i16At, e₀, e₁]
  split <;> omega

theorem i16At_flatMap {f : ℕ → ℤ} (hf : ∀ i, -32768 ≤ f i ∧ f i ≤ 32767) {n i : ℕ} (hi : i < n) :
    i16At ((List.range n).flatMap fun i => leI16 (f i)) i = f i := by
  have hsplit : List.range n = List.range i ++ i :: List.range' (i + 1) (n - i - 1) := by
    rw [List.range_eq_range', List.range_eq_range', ← List.range'_succ,
      show n - i - 1 + 1 = n - i by omega]
    have happ : List.range' 0 i ++ List.range' (0 + i) (n - i) = List.range' 0 (i + (n - i)) :=
      List.range'_append_1
    rw [Nat.zero_add, Nat.add_sub_cancel' hi.le] at happ
    exact happ.symm
  rw [hsplit, List.flatMap_append, List.flatMap_cons]
  have hlen := flatMap_leI16_length f (List.range i)
  rw [List.length_range] at hlen
  exact i16At_leI16 hlen (hf i).1 (hf i).2

theorem renderSample_bounds (gain : F32) (muted : Bool) (v : ℤ) :
    -32768 ≤ renderSample gain muted v ∧ renderSample gain muted v ≤ 32767 :=
  F32.toInt_bounds (by decide) (by decide) _

/- At unity gain a sample that `f32` holds exactly is only saturated. -/
theorem renderSample_unity {v : ℤ} (h : |v| ≤ 2 ^ 24) :
    renderSample (.fin 1) false v = saturateI16 v := by
  have hcast := F32.toInt_clamp_intCast (-32768) 32767 v (by omega)
  simp only [renderSample, Bool.false_eq_true, if_false, F32.mul_one_of_exact h, saturateI16]
  exact_mod_cast hcast

theorem wrapI32_eq {v : ℤ} (h : |v| ≤ 2 ^ 24) : wrapI32 v = v := by
  have hb := abs_le.mp h
  unfold wrapI32
  omega

/-! ### The takes of a tick -/

/-- What the running tick has popped, and the delay it has read. -/
def tickTakes (tr : List Event) : List Bytes :=
  tr.foldl (fun takes e =>
    match e with
    | .tick => []
    | .took _ cells => takes ++ [bytes cells]
    | _ => takes) []

def lastPaced (tr : List Event) : ℤ :=
  tr.foldl (fun d e => match e with | .paced delay => delay | _ => d) 0

/-- The integer sum of the samples at index `i`. -/
def mixed (takes : List Bytes) (i : ℕ) : ℤ := (takes.map fun d => i16At d i).sum

theorem tickTakes_concat (tr : List Event) (e : Event) :
    tickTakes (tr ++ [e]) =
      match e with
      | .tick => []
      | .took _ cells => tickTakes tr ++ [bytes cells]
      | _ => tickTakes tr := by
  simp only [tickTakes, List.foldl_append, List.foldl_cons, List.foldl_nil]

theorem lastPaced_concat (tr : List Event) (e : Event) :
    lastPaced (tr ++ [e]) = match e with | .paced delay => delay | _ => lastPaced tr := by
  simp only [lastPaced, List.foldl_append, List.foldl_cons, List.foldl_nil]

theorem abs_mixed_le (takes : List Bytes) (i : ℕ) : |mixed takes i| ≤ 32768 * takes.length := by
  induction takes with
  | nil => simp [mixed]
  | cons d takes ih =>
    have hb := i16At_bounds d i
    have hd : |i16At d i| ≤ 32768 := abs_le.mpr ⟨by omega, by omega⟩
    have hsum : mixed (d :: takes) i = i16At d i + mixed takes i := by simp [mixed]
    rw [hsum]
    have hadd := abs_add_le (i16At d i) (mixed takes i)
    push_cast [List.length_cons]
    omega

theorem abs_mixed_le_exact {takes : List Bytes} (h : takes.length ≤ 512) (i : ℕ) :
    |mixed takes i| ≤ 2 ^ 24 := by
  have hle := abs_mixed_le takes i
  omega

/-- Up to 512 streams the accumulator holds the exact sums. -/
def SumsUp (acc : ℕ → ℤ) (takes : List Bytes) : Prop :=
  takes.length ≤ 512 → ∀ i, acc i = mixed takes i

theorem SumsUp.take {acc : ℕ → ℤ} {takes : List Bytes} (h : SumsUp acc takes) {d : Bytes}
    (heven : 2 ∣ d.length) : SumsUp (addSamples acc d) (takes ++ [d]) := by
  intro hlen i
  have hlen' : (takes ++ [d]).length = takes.length + 1 := by simp
  have hsum : mixed (takes ++ [d]) i = mixed takes i + i16At d i := by simp [mixed]
  have hacc := h (by omega) i
  simp only [addSamples]
  split
  · rw [hacc, ← hsum]
    exact wrapI32_eq (abs_mixed_le_exact hlen i)
  · have hzero : i16At d i = 0 := i16At_of_length_le (by omega)
    rw [hacc, hsum, hzero, add_zero]

/-! ### The invariant -/

def pushed (id : ℕ) (tr : List Event) : Bytes := bytes (cellsIn id tr)

def taken (id : ℕ) (tr : List Event) : Bytes :=
  tr.flatMap fun | .took i cells => if i = id then bytes cells else [] | _ => []

/-- A tick that is mixing has read a delay and sums what it has taken. -/
structure Mixing (w : ℕ) (acc : ℕ → ℤ) (tr : List Event) : Prop where
  frames : w = writable (lastPaced tr)
  sum : SumsUp acc (tickTakes tr)

def PcOk (m : Mix) (tr : List Event) : Prop :=
  match m.pc with
  | .flushClear _ _ => False
  | .retainFilled s _ _ => tickTakes tr = [] ∧ (m.streams s).done = true
  | .recv | .flushScan _ _ | .haltScan _ | .retain _ _ | .dryScan _ | .pace => tickTakes tr = []
  | .mixFilled _ w acc _ | .gainLoad w acc | .muteLoad w acc _ | .push w acc _ _ =>
    Mixing w acc tr
  | .mixPop s want _ w acc =>
    Mixing w acc tr ∧ 4 ∣ want ∧ want ≤ (m.streams s).ring.filled
  | .top | .idle | .idleCheck | .report => True

/-- What the trace before an event says about it. -/
def Delivered (pre : List Event) : Event → Prop
  | .wrote gain muted out =>
    out.length = 4 * writable (lastPaced pre) ∧
      (gain = .fin 1 → muted = false → (tickTakes pre).length ≤ 512 →
        ∀ i < 2 * writable (lastPaced pre), i16At out i = saturateI16 (mixed (tickTakes pre) i))
  | .removed id => .finished id ∈ pre ∧ taken id pre = pushed id pre
  | _ => True

structure Delivery (m : Mix) (tr : List Event) : Prop where
  ledger : Ledger m tr
  quiet : ∀ id, (m.streams id).flush = false
  takes : ∀ id, taken id tr = bytes (cellsOut id tr)
  pc : PcOk m tr
  past : Always Delivered tr

theorem Mixing.of_eq {w : ℕ} {acc : ℕ → ℤ} {tr tr' : List Event} (h : Mixing w acc tr)
    (ht : tickTakes tr' = tickTakes tr) (hp : lastPaced tr' = lastPaced tr) : Mixing w acc tr' :=
  ⟨by rw [hp]; exact h.frames, by rw [ht]; exact h.sum⟩

theorem PcOk.advance {m m' : Mix} {tr tr' : List Event} (h : PcOk m tr) (hpc' : m'.pc = m.pc)
    (ha : Advances m m') (ht : tickTakes tr' = tickTakes tr) (hp : lastPaced tr' = lastPaced tr) :
    PcOk m' tr' := by
  unfold PcOk at h ⊢
  rw [hpc']
  cases hpc : m.pc with
  | retainFilled s todo kept =>
    simp only [hpc] at h ⊢
    exact ⟨ht.trans h.1, ha.done s h.2⟩
  | mixPop s want todo w acc =>
    simp only [hpc] at h ⊢
    exact ⟨h.1.of_eq ht hp, h.2.1, h.2.2.trans (ha.filled s)⟩
  | mixFilled todo w acc had =>
    simp only [hpc] at h ⊢
    exact h.of_eq ht hp
  | gainLoad w acc =>
    simp only [hpc] at h ⊢
    exact h.of_eq ht hp
  | muteLoad w acc gain =>
    simp only [hpc] at h ⊢
    exact h.of_eq ht hp
  | push w acc gain muted =>
    simp only [hpc] at h ⊢
    exact h.of_eq ht hp
  | flushClear s todo =>
    simp only [hpc] at h
  | top | idle | idleCheck | report => trivial
  | recv | flushScan _ _ | haltScan _ | retain _ _ | dryScan _ | pace =>
    simp only [hpc] at h ⊢
    exact ht.trans h

section

variable {m : Mix} {tr : List Event} {s w : ℕ} {todo : List ℕ} {acc : ℕ → ℤ}

theorem PcOk.pace (h : PcOk m tr) (hpc : m.pc = .pace) (delay : ℤ) :
    PcOk (m.mix delay).1 (tr ++ (m.mix delay).2) := by
  simp only [PcOk, hpc] at h
  simp only [Mix.mix, hpc]
  split
  · trivial
  · constructor
    · rw [lastPaced_concat]
    · rw [tickTakes_concat]
      simp only [h]
      intro _ i
      rfl

theorem PcOk.mixFilled {had : Bool} (h : PcOk m tr) (hpc : m.pc = .mixFilled todo w acc had)
    (delay : ℤ) : PcOk (m.mix delay).1 (tr ++ (m.mix delay).2) := by
  simp only [PcOk, hpc] at h
  simp only [Mix.mix, hpc]
  cases todo with
  | nil =>
    simp only
    split
    · simpa [PcOk] using h
    · trivial
  | cons s todo =>
    simp only
    split
    · simpa [PcOk] using h
    · simp only [PcOk, List.append_nil]
      refine ⟨h, ?_, ?_⟩
      · omega
      · omega

theorem PcOk.mixPop {want : ℕ} (h : PcOk m tr) (hl : Ledger m tr)
    (hpc : m.pc = .mixPop s want todo w acc) (delay : ℤ) :
    PcOk (m.mix delay).1 (tr ++ (m.mix delay).2) := by
  simp only [PcOk, hpc] at h
  obtain ⟨hmix, hdvd, hle⟩ := h
  obtain ⟨hd, -, -, -⟩ := Ring.tryPop_spec want (hl.live s)
  have hlen : (bytes ((m.streams s).ring.tryPop want).1).length = want := by
    rw [bytes, List.length_map, hd, List.length_take, Ring.contents_length]
    omega
  simp only [Mix.mix, hpc, PcOk]
  constructor
  · rw [lastPaced_concat]
    exact hmix.frames
  · rw [tickTakes_concat]
    exact hmix.sum.take (by rw [hlen]; omega)

theorem PcOk.mix (h : PcOk m tr) (hl : Ledger m tr)
    (hq : ∀ id, (m.streams id).flush = false) (delay : ℤ) :
    PcOk (m.mix delay).1 (tr ++ (m.mix delay).2) := by
  cases hpc : m.pc with
  | top =>
    simp only [Mix.mix, hpc, PcOk]
    rw [tickTakes_concat]
  | recv | flushScan todo flushed | haltScan todo | retain todo kept | dryScan todo =>
    simp only [PcOk, hpc] at h
    simp only [Mix.mix, hpc]
    repeat' split
    all_goals simp_all [PcOk, Mix.halted, tickTakes_concat]
  | flushClear s todo =>
    simp only [PcOk, hpc] at h
  | retainFilled s todo kept =>
    simp only [PcOk, hpc] at h
    simp only [Mix.mix, hpc]
    split <;> simp [PcOk, tickTakes_concat, h.1]
  | idle | idleCheck | report =>
    simp only [Mix.mix, hpc]
    repeat' split
    all_goals trivial
  | pace => exact h.pace hpc delay
  | mixFilled todo w acc had => exact h.mixFilled hpc delay
  | mixPop s want todo w acc => exact h.mixPop hl hpc delay
  | gainLoad w acc =>
    simp only [PcOk, hpc] at h
    simpa [Mix.mix, hpc, PcOk] using h
  | muteLoad w acc gain =>
    simp only [PcOk, hpc] at h
    simpa [Mix.mix, hpc, PcOk] using h
  | push w acc gain muted =>
    simp only [Mix.mix, hpc, PcOk]

end

theorem delivered_mix {m : Mix} {tr : List Event} (h : Delivery m tr) (delay : ℤ) :
    ∀ e ∈ (m.mix delay).2, Delivered tr e := by
  have hok := h.pc
  cases hpc : m.pc with
  | push w acc gain muted =>
    simp only [PcOk, hpc] at hok
    simp only [Mix.mix, hpc, List.mem_singleton, forall_eq, Delivered]
    rw [render_length, ← hok.frames]
    refine ⟨by omega, fun hg hm hlen i hi => ?_⟩
    have hsum := hok.sum hlen i
    have hi' : i < w * 2 := by omega
    rw [render, i16At_flatMap (fun j => renderSample_bounds gain muted (acc j)) hi', hg, hm, hsum,
      renderSample_unity (abs_mixed_le_exact hlen i)]
  | retainFilled s todo kept =>
    simp only [PcOk, hpc] at hok
    simp only [Mix.mix, hpc]
    split
    · rename_i hempty
      simp only [List.mem_singleton, forall_eq, Delivered]
      refine ⟨h.ledger.finished s hok.2, ?_⟩
      have hnil : (m.streams s).ring.contents = [] := Ring.contents_eq_nil.mpr hempty
      rw [h.takes s, pushed, h.ledger.balance s, hnil, List.append_nil]
    · exact List.forall_mem_nil _
  | _ =>
    simp only [Mix.mix, hpc]
    repeat' split
    all_goals simp [Delivered]

theorem taken_append (id : ℕ) (a b : List Event) : taken id (a ++ b) = taken id a ++ taken id b :=
  List.flatMap_append

theorem bytes_append (a b : List Cell) : bytes (a ++ b) = bytes a ++ bytes b := List.map_append

theorem Delivery.mix {m : Mix} {tr : List Event} (h : Delivery m tr) (delay : ℤ) :
    Delivery (m.mix delay).1 (tr ++ (m.mix delay).2) := by
  have hpast : Always Delivered (tr ++ (m.mix delay).2) :=
    h.past.append_le_one (mix_events_length m delay) (delivered_mix h delay)
  refine ⟨h.ledger.mix delay, ?_, ?_, h.pc.mix h.ledger h.quiet delay, hpast⟩
  · rcases mix_cases m delay with ⟨hs, -, -⟩ | ⟨s, todo, flushed, -, hf, -⟩ | ⟨s, todo, -, heq⟩ |
      ⟨s, want, todo, w, acc, -, heq⟩
    · rw [hs]
      exact h.quiet
    · rw [h.quiet s] at hf
      cases hf
    · intro id
      rw [heq]
      by_cases hids : id = s <;> simp [Mix.setStream, hids, h.quiet]
    · intro id
      rw [heq]
      by_cases hids : id = s <;> simp [Mix.setStream, hids, h.quiet]
  · intro id
    rw [taken_append, cellsOut_append, bytes_append, h.takes id]
    congr 1
    rcases mix_cases m delay with ⟨-, -, he, -⟩ | ⟨s, todo, flushed, -, hf, -⟩ | ⟨s, todo, hpc, -⟩ |
      ⟨s, want, todo, w, acc, -, heq⟩
    · rw [cellsOut_of_isLocal id he]
      refine List.flatMap_eq_nil_iff.mpr fun e hm => ?_
      have hl := he e hm
      cases e <;> first | rfl | exact hl.elim
    · rw [h.quiet s] at hf
      cases hf
    · have hok := h.pc
      simp only [PcOk, hpc] at hok
    · rw [heq]
      by_cases hids : s = id <;> simp [taken, cellsOut, Event.cellsOut, hids, bytes]

theorem Delivery.env {m m' : Mix} {tr es : List Event} {i : Input} (h : Delivery m tr)
    (hi : ∀ delay, i ≠ .mix delay) (hq : ∀ id, i ≠ .requestFlush id)
    (hs : step m i = some (m', es)) : Delivery m' (tr ++ es) := by
  have ha := step_env h.ledger hi hs
  have hpc := (step_pc hi hs).1
  have hl := h.ledger.step hs
  cases i with
  | mix delay => exact absurd rfl (hi delay)
  | requestFlush id => exact absurd rfl (hq id)
  | register ringBytes =>
    cases hs
    rw [List.append_nil] at hl ⊢
    refine ⟨hl, fun id => ?_, h.takes, h.pc.advance hpc ha rfl rfl, h.past⟩
    by_cases hids : id = m.registered <;>
      simp [Mix.register, Mix.setStream, hids, h.quiet, MixerStream.new]
  | push id data =>
    obtain ⟨-, ring, cells, -, -, rfl, rfl⟩ := step_push hs
    refine ⟨hl, fun id' => ?_, fun id' => ?_, h.pc.advance hpc ha ?_ ?_,
      always_concat.mpr ⟨h.past, trivial⟩⟩
    · by_cases hids : id' = id <;> simp [Mix.setStream, hids, h.quiet]
    · simpa [taken_append, cellsOut_append, taken, cellsOut, Event.cellsOut] using h.takes id'
    · rw [tickTakes_concat]
    · rw [lastPaced_concat]
  | finish id =>
    obtain ⟨-, rfl, rfl⟩ := step_finish hs
    refine ⟨hl, fun id' => ?_, fun id' => ?_, h.pc.advance hpc ha ?_ ?_,
      always_concat.mpr ⟨h.past, trivial⟩⟩
    · by_cases hids : id' = id <;> simp [Mix.setStream, hids, h.quiet]
    · simpa [taken_append, cellsOut_append, taken, cellsOut, Event.cellsOut] using h.takes id'
    · rw [tickTakes_concat]
    · rw [lastPaced_concat]
  | elapse ns | setMuted b | setVolume percent =>
    cases hs
    rw [List.append_nil] at hl ⊢
    exact ⟨hl, h.quiet, h.takes, h.pc.advance hpc ha rfl rfl, h.past⟩

/-- In every run without FLUSH requests the mixer takes a prefix of every
stream, writes the saturated sums of its takes, and removes only finished and
emptied streams. -/
theorem run_delivers (volume : F32) (is : List Input) (hq : ∀ i ∈ is, ∀ id, i ≠ .requestFlush id)
    {m : Mix} {tr : List Event} (hrun : machine.run (Mix.init volume) is = some (m, tr)) :
    (∀ id, taken id tr <+: pushed id tr ∧
      pushed id tr = taken id tr ++ bytes (m.streams id).ring.contents) ∧ Always Delivered tr := by
  have hinit : Delivery (Mix.init volume) [] :=
    ⟨ledger_init volume, fun _ => rfl, fun _ => rfl, trivial, always_nil⟩
  have hstep : ∀ m tr i m' es, (∀ id, i ≠ .requestFlush id) → Delivery m tr →
      machine.step m i = some (m', es) → Delivery m' (tr ++ es) := by
    intro m tr i m' es hq h hs
    by_cases hmix : ∃ delay, i = .mix delay
    · obtain ⟨delay, rfl⟩ := hmix
      have heq : m.mix delay = (m', es) := Option.some.inj hs
      have hm := h.mix delay
      rw [heq] at hm
      exact hm
    · exact h.env (fun delay hd => hmix ⟨delay, hd⟩) hq hs
  have hend := machine.run_inv_of_meets hstep hinit (machine.meets_of_all _ is hq) hrun
  rw [List.nil_append] at hend
  have hbal (id : ℕ) : pushed id tr = taken id tr ++ bytes (m.streams id).ring.contents := by
    rw [hend.takes id, pushed, hend.ledger.balance id, bytes_append]
  refine ⟨fun id => ⟨?_, hbal id⟩, hend.past⟩
  rw [hbal id]
  exact List.prefix_append _ _

/-- One frame of one stream is mixed, and its slot is removed in the next tick. -/
def oneFrameRun : List Input :=
  [.register 8, .push 0 [1, 0, 255, 255], .finish 0] ++ List.replicate 24 (.mix 4095)

theorem run_delivers_one_frame :
    ∃ m tr, machine.run (Mix.init (.fin 100)) oneFrameRun = some (m, tr) ∧
      (∀ id, taken id tr <+: pushed id tr ∧
        pushed id tr = taken id tr ++ bytes (m.streams id).ring.contents) ∧ Always Delivered tr :=
  ⟨_, _, rfl, run_delivers (.fin 100) oneFrameRun (by simp [oneFrameRun]) rfl⟩

end Audiod.Mixer
