import Audiod.Paced

/-!
# Occupancy of the DMA ring under mixer pacing

If the DMA engine never fetches more than has been written, the delay stays at
or below `SHIM_SERVER_FRAMES`, every `push` is accepted by the first `play`, and
what is fetched is what was pushed. A delay reading is rounded down to frames,
so up to three bytes more than the target may be outstanding.
-/

namespace Audiod.Paced

/-- The DMA engine fetches only what has been pushed since the last restart. -/
def DmaLimited (s : State) : Input → Prop
  | .dma k => k ≤ s.hda.pushed.length - s.hda.fetched.length
  | _ => True

instance (s : State) (i : Input) : Decidable (DmaLimited s i) :=
  match i with
  | .dma _ => inferInstanceAs (Decidable (_ ≤ _))
  | .mixer | .other _ => isTrue trivial

/-- The target in bytes, with the bytes a reading in frames does not see. -/
def ceiling : ℕ := 4 * 4096 + 3

/-- What is outstanding and what the running tick is still going to write stay
below the ceiling. -/
def Budget (s : State) : Prop :=
  match s.push with
  | none => s.hda.pushed.length - s.hda.fetched.length + 4 * s.mix.pc.frames ≤ ceiling
  | some (.play rest) =>
    s.mix.pc = .report ∧ s.hda.pushed.length - s.hda.fetched.length + rest.length ≤ ceiling
  | some (.write rest) =>
    s.mix.pc = .report ∧ s.hda.running = true ∧
      s.hda.pushed.length - s.hda.fetched.length + rest.length ≤ ceiling
  | some (.copy rest rd) =>
    s.mix.pc = .report ∧ s.hda.running = true ∧ ∃ f ≤ s.hda.fetched.length, rd = f % ringSize ∧
      s.hda.pushed.length - f + rest.length ≤ ceiling

/-- A `play` that copied less than it was given. -/
def Event.short : Event → Prop
  | .accepted asked n => n ≠ asked
  | _ => False

structure OccupancyInv (s : State) (tr : List Event) : Prop where
  faithful : s.hda.Faithful
  budget : Budget s
  full : ∀ e ∈ tr, ¬e.short

theorem Budget.outstanding {s : State} (h : Budget s) :
    s.hda.pushed.length - s.hda.fetched.length ≤ ceiling := by
  unfold Budget at h
  split at h
  · omega
  · omega
  · omega
  · obtain ⟨-, -, f, hf, -, hle⟩ := h
    omega

theorem delayFrames_eq {h : Hda} (hf : h.Faithful)
    (hle : h.pushed.length - h.fetched.length ≤ ceiling) :
    h.delayFrames = ((h.pushed.length - h.fetched.length : ℕ) : ℤ) / 4 := by
  have hlt : ceiling < ringSize := by decide
  rw [Hda.delayFrames, Hda.delayBytes_of_le hf.positions hf.behind (by omega)]
  rfl

/- Rounding the reading down costs less than a frame. -/
theorem writable_le {o : ℕ} (ho : o ≤ ceiling) :
    o + 4 * Mixer.writable ((o : ℤ) / 4) ≤ ceiling := by
  simp only [Mixer.writable, ceiling, Mixer.chunkFrames, shimServerFrames] at *
  omega

theorem Budget.copy {s : State} (hb : Budget s) (hf : s.hda.Faithful) {rest : Bytes} {rd : ℕ}
    (hpush : s.push = some (.copy rest rd)) :
    (s.hda.write rd rest).1.Faithful ∧ (s.hda.write rd rest).2 = rest.length ∧
      (s.hda.write rd rest).1.pushed = s.hda.pushed ++ rest ∧
      (s.hda.write rd rest).1.fetched = s.hda.fetched := by
  simp only [Budget, hpush] at hb
  obtain ⟨-, hrun, f, hle, rfl, hfit⟩ := hb
  have hlt : ceiling < ringSize := by decide
  exact hf.write hrun hle (by omega)

theorem stamp_not_short (s : State) (es : List Mixer.Event) : ∀ e ∈ stamp s es, ¬e.short := by
  intro e he
  obtain ⟨x, -, rfl⟩ := List.mem_map.mp he
  exact id

theorem full_append {tr es : List Event} (h : ∀ e ∈ tr, ¬e.short) (hes : ∀ e ∈ es, ¬e.short) :
    ∀ e ∈ tr ++ es, ¬e.short := by
  intro e he
  rcases List.mem_append.mp he with he | he
  · exact h e he
  · exact hes e he

theorem OccupancyInv.mixer {s : State} {tr : List Event} (h : OccupancyInv s tr)
    (hpush : s.push = none) :
    OccupancyInv (backend s (s.mix.mix s.hda.delayFrames).1 (s.mix.mix s.hda.delayFrames).2)
      (tr ++ stamp s (s.mix.mix s.hda.delayFrames).2) := by
  have ho := h.budget.outstanding
  have hb := h.budget
  simp only [Budget, hpush] at hb
  have hfull := full_append h.full (stamp_not_short s (s.mix.mix s.hda.delayFrames).2)
  have hframes := Mixer.mix_frames s.mix s.hda.delayFrames
  have hw := writable_le ho
  rw [← delayFrames_eq h.faithful ho] at hw
  rcases backend_cases s (s.mix.mix s.hda.delayFrames).1 (s.mix.mix s.hda.delayFrames).2 with
    ⟨-, heq⟩ | ⟨gain, muted, out, hes, heq⟩ | heq
  · rw [heq]
    refine ⟨Hda.faithful_of_reset (Hda.positions_dropAll _) rfl rfl, ?_, hfull⟩
    simp only [Budget, hpush, Hda.dropAll, Hda.srst, List.length_nil]
    omega
  · obtain ⟨hlen, hpc⟩ := Mixer.mix_wrote hes
    rw [heq]
    refine ⟨h.faithful, ?_, hfull⟩
    simp only [Budget, pushing]
    by_cases hnil : out.isEmpty = true
    · simp only [hnil, if_true, hpc, Mixer.Pc.frames]
      omega
    · simp only [hnil, Bool.false_eq_true, if_false]
      exact ⟨hpc, by omega⟩
  · rw [heq]
    refine ⟨h.faithful, ?_, hfull⟩
    simp only [Budget, hpush]
    omega

theorem OccupancyInv.push {s s' : State} {tr es : List Event} (h : OccupancyInv s tr) {pc : PushPc}
    (hpush : s.push = some pc) (hs : step s .mixer = some (s', es)) :
    OccupancyInv s' (tr ++ es) := by
  have hb := h.budget
  simp only [Budget, hpush] at hb
  cases pc with
  | play rest =>
    simp only [Paced.step, hpush, Option.some.injEq, Prod.mk.injEq] at hs
    obtain ⟨rfl, rfl⟩ := hs
    refine ⟨h.faithful.start, ?_, full_append h.full (List.forall_mem_nil _)⟩
    simp only [Budget]
    rw [Hda.start_pushed h.faithful.positions, Hda.start_fetched h.faithful.positions]
    exact ⟨hb.1, Hda.start_running _, hb.2⟩
  | write rest =>
    simp only [Paced.step, hpush, Option.some.injEq, Prod.mk.injEq] at hs
    obtain ⟨rfl, rfl⟩ := hs
    refine ⟨h.faithful, ?_, full_append h.full (List.forall_mem_nil _)⟩
    have hrd : s.hda.readLpib = s.hda.fetched.length % ringSize := by
      rw [Hda.readLpib, h.faithful.positions.lpib_eq, Nat.mod_mod]
    exact ⟨hb.1, hb.2.1, s.hda.fetched.length, le_rfl, hrd, hb.2.2⟩
  | copy rest rd =>
    simp only [Paced.step, hpush, Option.some.injEq, Prod.mk.injEq] at hs
    obtain ⟨rfl, rfl⟩ := hs
    obtain ⟨hfaith, hn, hpu, hfe⟩ := h.budget.copy h.faithful hpush
    obtain ⟨hpc, -, f, hf, -, hle⟩ := hb
    refine ⟨hfaith, ?_, full_append h.full ?_⟩
    · simp only [Budget, hn, List.drop_length, pushing, List.isEmpty_nil, if_true, hpc, hpu,
        hfe, List.length_append, Mixer.Pc.frames]
      omega
    · intro e he
      rw [List.mem_singleton.mp he, hn]
      exact fun hne => hne rfl

theorem Budget.dma {s : State} (hb : Budget s) (k : ℕ) : Budget { s with hda := s.hda.dma k } := by
  have hlen : (s.hda.dma k).fetched.length = s.hda.fetched.length + k := by
    simp [Hda.dma, ringLoad_length]
  have hpu : (s.hda.dma k).pushed = s.hda.pushed := rfl
  have hr : (s.hda.dma k).running = s.hda.running := rfl
  unfold Budget at hb ⊢
  simp only [hlen, hpu, hr]
  split at hb <;> rename_i hpush
  · omega
  · exact ⟨hb.1, by omega⟩
  · exact ⟨hb.1, hb.2.1, by omega⟩
  · obtain ⟨hpc, hrun', f, hf, hrd, hle⟩ := hb
    exact ⟨hpc, hrun', f, by omega, hrd, hle⟩

theorem OccupancyInv.step {s s' : State} {tr es : List Event} {i : Input} (h : OccupancyInv s tr)
    (hok : DmaLimited s i) (hs : step s i = some (s', es)) : OccupancyInv s' (tr ++ es) := by
  have hb := h.budget
  cases i with
  | mixer =>
    cases hpush : s.push with
    | none =>
      simp only [Paced.step, hpush, Option.some.injEq, Prod.mk.injEq] at hs
      obtain ⟨rfl, rfl⟩ := hs
      exact h.mixer hpush
    | some pc => exact h.push hpush hs
  | other i =>
    obtain ⟨hi, m, es', hm, rfl, rfl⟩ := step_other hs
    have hpc := (Mixer.step_pc hi hm).1
    refine ⟨h.faithful, ?_, full_append h.full (stamp_not_short s es')⟩
    simp only [Budget, hpc] at hb ⊢
    exact hb
  | dma k =>
    obtain ⟨hrun, rfl, rfl⟩ := step_dma hs
    refine ⟨h.faithful.dma hrun hok, hb.dma k, full_append h.full ?_⟩
    intro e he
    rw [List.mem_singleton.mp he]
    exact id

/-- Under a DMA engine that stays behind the writes: the delay is capped, what
is unread is intact, what is fetched is what was pushed, and every `play` of a
push takes all it is given. -/
theorem run_occupancy (volume : F32) (is : List Input)
    (hok : machine.Meets DmaLimited (init volume) is) {s : State} {tr : List Event}
    (hrun : machine.run (init volume) is = some (s, tr)) :
    s.hda.delayFrames ≤ shimServerFrames ∧ s.hda.fetched <+: s.hda.pushed ∧
      ringLoad ringSize s.hda.ring s.hda.lpib (s.hda.pushed.length - s.hda.fetched.length) =
        s.hda.pushed.drop s.hda.fetched.length ∧
      ∀ asked n, .accepted asked n ∈ tr → n = asked := by
  have hinit : OccupancyInv (init volume) [] :=
    ⟨Hda.faithful_of_reset Hda.positions_init rfl rfl, Nat.zero_le _, nofun⟩
  have hstep : ∀ s tr i s' es, DmaLimited s i → OccupancyInv s tr →
      machine.step s i = some (s', es) → OccupancyInv s' (tr ++ es) :=
    fun s tr i s' es hok h hs => h.step hok hs
  have hend := machine.run_inv_of_meets hstep hinit hok hrun
  rw [List.nil_append] at hend
  have ho := hend.budget.outstanding
  refine ⟨?_, ?_, hend.faithful.unread, fun asked n he => ?_⟩
  · rw [delayFrames_eq hend.faithful ho]
    simp only [ceiling, shimServerFrames] at *
    omega
  · rw [hend.faithful.prefix_eq]
    exact List.take_prefix _ _
  · by_contra hne
    exact hend.full _ he hne

/-- A full tick of 1024 frames, and the DMA engine stops twice inside a frame. -/
def capRun : List Input :=
  [.other (.register 8), .other (.push 0 [1, 0, 255, 255])] ++ List.replicate 20 .mixer ++
    [.dma 6, .mixer, .mixer, .dma 11]

theorem run_occupancy_one_tick : ∃ s tr, machine.run (init (.fin 100)) capRun = some (s, tr) ∧
    s.hda.delayFrames ≤ shimServerFrames ∧ s.hda.fetched <+: s.hda.pushed ∧
      ringLoad ringSize s.hda.ring s.hda.lpib (s.hda.pushed.length - s.hda.fetched.length) =
        s.hda.pushed.drop s.hda.fetched.length ∧
      ∀ asked n, .accepted asked n ∈ tr → n = asked := by
  have hsome : (machine.run (init (.fin 100)) capRun).isSome = true := by decide +kernel
  obtain ⟨⟨s, tr⟩, hrun⟩ := Option.isSome_iff_exists.mp hsome
  exact ⟨s, tr, hrun, run_occupancy (.fin 100) capRun (by decide +kernel) hrun⟩

end Audiod.Paced
