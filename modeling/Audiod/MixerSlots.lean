import Audiod.Mixer
import Mathlib.Data.List.Nodup

/-!
# The slots of the mixer

A stream has one slot at most, so a tick pops it at most once, and never more than it
is going to write.
-/

namespace Audiod.Mixer

/-- The loops over the slots, with what a pop asks for. -/
def Pc.Within (slots : List ℕ) : Pc → Prop
  | .retain todo kept => (kept ++ todo).Sublist slots
  | .retainFilled s todo kept => (kept ++ s :: todo).Sublist slots
  | .mixFilled todo _ _ _ => todo.Sublist slots
  | .mixPop s want todo w _ => (s :: todo).Sublist slots ∧ want ≤ 4 * w
  | _ => True

/-- No stream is registered twice, and the loops over the slots meet each at most
once. -/
structure SlotsInv (m : Mix) : Prop where
  unique : (m.slots ++ m.queue).Nodup
  registered : ∀ s ∈ m.slots ++ m.queue, s < m.registered
  loop : m.pc.Within m.slots

theorem slotsInv_init (volume : F32) : SlotsInv (Mix.init volume) :=
  ⟨List.nodup_nil, nofun, trivial⟩

theorem SlotsInv.of_eq {m m' : Mix} (h : SlotsInv m) (hs : m'.slots = m.slots)
    (hq : m'.queue = m.queue) (hr : m'.registered = m.registered)
    (hloop : m'.pc.Within m.slots) : SlotsInv m' := by
  refine ⟨by rw [hs, hq]; exact h.unique, by rw [hs, hq, hr]; exact h.registered, ?_⟩
  rw [hs]
  exact hloop

section

variable {m : Mix}

theorem SlotsInv.recv (h : SlotsInv m) (hpc : m.pc = .recv) (delay : ℤ) :
    SlotsInv (m.mix delay).1 := by
  simp only [Mix.mix, hpc]
  split
  · rename_i s rest hq
    have hperm : (m.slots ++ [s] ++ rest) = m.slots ++ m.queue := by rw [hq]; simp
    refine ⟨?_, ?_, trivial⟩
    · rw [hperm]
      exact h.unique
    · rw [hperm]
      exact h.registered
  · exact h.of_eq rfl rfl rfl trivial

theorem SlotsInv.retain (h : SlotsInv m) {todo kept : List ℕ} (hpc : m.pc = .retain todo kept)
    (delay : ℤ) : SlotsInv (m.mix delay).1 := by
  have hloop := h.loop
  rw [hpc] at hloop
  cases todo with
  | nil =>
    have hsub : (kept ++ m.queue).Sublist (m.slots ++ m.queue) := by
      rw [Pc.Within, List.append_nil] at hloop
      exact hloop.append_right m.queue
    simp only [Mix.mix, hpc]
    refine ⟨h.unique.sublist hsub, fun s hs => h.registered s (hsub.subset hs), ?_⟩
    dsimp only
    split <;> trivial
  | cons s todo =>
    simp only [Mix.mix, hpc]
    split
    · exact h.of_eq rfl rfl rfl hloop
    · refine h.of_eq rfl rfl rfl ?_
      simpa [Pc.Within] using hloop

theorem SlotsInv.retainFilled (h : SlotsInv m) {s : ℕ} {todo kept : List ℕ}
    (hpc : m.pc = .retainFilled s todo kept) (delay : ℤ) : SlotsInv (m.mix delay).1 := by
  have hloop := h.loop
  rw [hpc] at hloop
  simp only [Mix.mix, hpc]
  split
  · refine h.of_eq rfl rfl rfl ?_
    exact (List.Sublist.append_left (List.sublist_cons_self s todo) kept).trans hloop
  · refine h.of_eq rfl rfl rfl ?_
    simpa [Pc.Within] using hloop

theorem SlotsInv.mixFilled (h : SlotsInv m) {todo : List ℕ} {w : ℕ} {acc : ℕ → ℤ} {had : Bool}
    (hpc : m.pc = .mixFilled todo w acc had) (delay : ℤ) : SlotsInv (m.mix delay).1 := by
  have hloop := h.loop
  rw [hpc] at hloop
  cases todo with
  | nil =>
    simp only [Mix.mix, hpc]
    split <;> exact h.of_eq rfl rfl rfl trivial
  | cons s todo =>
    simp only [Mix.mix, hpc]
    split
    · exact h.of_eq rfl rfl rfl ((List.sublist_cons_self s todo).trans hloop)
    · exact h.of_eq rfl rfl rfl ⟨hloop, by omega⟩

theorem SlotsInv.mix (h : SlotsInv m) (delay : ℤ) : SlotsInv (m.mix delay).1 := by
  have hloop := h.loop
  cases hpc : m.pc with
  | recv => exact h.recv hpc delay
  | retain todo kept => exact h.retain hpc delay
  | retainFilled s todo kept => exact h.retainFilled hpc delay
  | mixFilled todo w acc had => exact h.mixFilled hpc delay
  | pace =>
    simp only [Mix.mix, hpc]
    split
    · exact h.of_eq rfl rfl rfl trivial
    · exact h.of_eq rfl rfl rfl (List.Sublist.refl _)
  | mixPop s want todo w acc =>
    rw [hpc] at hloop
    simp only [Mix.mix, hpc]
    exact h.of_eq rfl rfl rfl ((List.sublist_cons_self s todo).trans hloop.1)
  | flushScan todo flushed | haltScan todo =>
    cases todo <;> simp only [Mix.mix, hpc] <;> split <;>
      exact h.of_eq rfl rfl rfl (by simp [Pc.Within, Mix.halted])
  | dryScan todo =>
    cases todo <;> simp only [Mix.mix, hpc]
    · exact h.of_eq rfl rfl rfl trivial
    · split <;> exact h.of_eq rfl rfl rfl trivial
  | idle | idleCheck =>
    simp only [Mix.mix, hpc]
    split <;> exact h.of_eq rfl rfl rfl trivial
  | top | flushClear s todo | gainLoad w acc | muteLoad w acc gain | push w acc gain muted
  | report =>
    simp only [Mix.mix, hpc]
    exact h.of_eq rfl rfl rfl trivial

end

theorem SlotsInv.step {m m' : Mix} {es : List Event} {i : Input} (h : SlotsInv m)
    (hs : step m i = some (m', es)) : SlotsInv m' := by
  cases i with
  | mix delay =>
    have heq : m.mix delay = (m', es) := Option.some.inj hs
    have hm := h.mix delay
    rw [heq] at hm
    exact hm
  | register ringBytes =>
    cases hs
    have hnew : m.registered ∉ m.slots ++ m.queue := fun hm =>
      absurd (h.registered _ hm) (Nat.lt_irrefl _)
    refine ⟨?_, fun s hs => ?_, h.loop⟩
    · simp only [Mix.register, ← List.append_assoc]
      exact List.Nodup.append h.unique (List.nodup_singleton _)
        (by simpa [Mix.setStream] using hnew)
    · simp only [Mix.register, ← List.append_assoc, List.mem_append, List.mem_singleton] at hs ⊢
      rcases hs with hold | rfl
      · exact Nat.lt_succ_of_lt (h.registered s (List.mem_append.mpr hold))
      · exact Nat.lt_succ_self _
  | push id data =>
    obtain ⟨-, ring, cells, -, -, rfl, -⟩ := step_push hs
    exact h.of_eq rfl rfl rfl h.loop
  | requestFlush id =>
    obtain ⟨-, rfl, -⟩ := step_requestFlush hs
    exact h.of_eq rfl rfl rfl h.loop
  | finish id =>
    obtain ⟨-, rfl, -⟩ := step_finish hs
    exact h.of_eq rfl rfl rfl h.loop
  | elapse ns | setMuted b | setVolume percent =>
    cases hs
    exact h.of_eq rfl rfl rfl h.loop

/-! ### How far a stream reaches into the write ahead -/

/-- The bytes of the next write that may hold something of stream `id`: none until the
tick has popped it. -/
def Pc.reach (id : ℕ) : Pc → ℕ
  | .mixFilled todo w _ had => if id ∈ todo ∨ had = false then 0 else 4 * w
  | .mixPop s _ todo w _ => if id ∈ s :: todo then 0 else 4 * w
  | .gainLoad w _ => 4 * w
  | .muteLoad w _ _ => 4 * w
  | .push w _ _ _ => 4 * w
  | _ => 0

/- What one step does to it: a pop finds nothing of the stream in the write, and the
write is as long as what has been mixed. -/
theorem mix_reach {m : Mix} (h : SlotsInv m) (id : ℕ) (delay : ℤ) :
    (m.pc.reach id ≤ (m.mix delay).1.pc.reach id ∨
      ∃ gain muted out, (m.mix delay).2 = [.wrote gain muted out] ∧
        m.pc.reach id = out.length) ∧
    ∀ cells, (m.mix delay).2 = [.took id cells] →
      m.pc.reach id = 0 ∧ cells.length ≤ (m.mix delay).1.pc.reach id := by
  have hloop := h.loop
  have hnodup : m.slots.Nodup := (List.nodup_append.mp h.unique).1
  cases hpc : m.pc with
  | mixFilled todo w acc had =>
    cases todo with
    | nil =>
      simp only [Mix.mix, hpc]
      split
      · rename_i hhad
        simp [Pc.reach, hhad]
      · rename_i hhad
        simp [Pc.reach, hhad]
    | cons s todo =>
      simp only [Mix.mix, hpc]
      split
      · refine ⟨.inl ?_, fun cells he => by cases he⟩
        simp only [Pc.reach, List.mem_cons]
        split <;> split <;> first | exact Nat.zero_le _ | tauto
      · refine ⟨.inl ?_, fun cells he => by cases he⟩
        simp only [Pc.reach]
        split <;> split <;> first | exact Nat.zero_le _ | tauto
  | mixPop s want todo w acc =>
    rw [hpc] at hloop
    obtain ⟨hsub, hwant⟩ := hloop
    have hs : s ∉ todo := (List.nodup_cons.mp (hnodup.sublist hsub)).1
    simp only [Mix.mix, hpc]
    refine ⟨.inl ?_, fun cells he => ?_⟩
    · simp only [Pc.reach, List.mem_cons, Bool.true_eq_false, or_false]
      split <;> split <;> first | exact Nat.zero_le _ | tauto
    · simp only [List.cons.injEq, Event.took.injEq, and_true] at he
      obtain ⟨rfl, rfl⟩ := he
      refine ⟨by simp [Pc.reach], ?_⟩
      simp only [Pc.reach, hs, Bool.true_eq_false, or_self, if_false]
      exact (Ring.tryPop_length_le _ want).trans hwant
  | push w acc gain muted =>
    simp only [Mix.mix, hpc]
    refine ⟨.inr ⟨_, _, _, rfl, ?_⟩, fun cells he => by cases he⟩
    rw [render_length, Pc.reach]
    omega
  | gainLoad w acc | muteLoad w acc gain =>
    simp [Mix.mix, hpc, Pc.reach]
  | _ =>
    refine ⟨.inl (Nat.zero_le _), ?_⟩
    simp only [Mix.mix, hpc]
    repeat' split
    all_goals simp

end Audiod.Mixer
