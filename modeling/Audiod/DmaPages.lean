import Audiod.BringUp
import Audiod.Descriptors

/-!
# The pages of a DMA buffer (`hda/src/pagemap.rs:13-96`)

What `DmaBuffer::new` gives and what it leaves behind: a buffer it returns has an aligned
address below 128 TiB for each of its pages and is mapped and locked, and whatever goes
wrong, nothing stays mapped. With pages that differ it is a `Dma.DmaBuffer`.
-/

namespace Audiod.Driver

open Dialogue

/-! ### The addresses -/

theorem phys_aligned (entry : U64) : ((entry &&& pfnPfnMask) <<< 12).toNat % pageSize = 0 := by
  rw [BitVec.toNat_shiftLeft, Nat.shiftLeft_eq, pageSize]
  omega

theorem words_append (pa : U64) : (pa >>> 32).setWidth 32 ++ pa.setWidth 32 = pa := by
  apply BitVec.eq_of_getLsbD_eq
  intro i hi
  rw [BitVec.getLsbD_append]
  split
  · simp [*]
  · obtain ⟨k, rfl⟩ := Nat.exists_eq_add_of_le (Nat.le_of_not_lt ‹_›)
    have hk : k < 32 := by omega
    simp [hk]

theorem vaddrToPhys_yields {vaddr p : U64} (h : (vaddrToPhys vaddr).Yields p) :
    p.toNat % pageSize = 0 := by
  simp only [vaddrToPhys, yields_bind, yields_ite] at h
  obtain ⟨entry, -, h⟩ := h
  split at h
  · exact h.elim
  · rw [← show _ = p from h]
    exact phys_aligned entry

namespace DmaBuffer

theorem resolve_yields {ptr : U64} {pages : ℕ} {phys : List U64}
    (h : (resolve ptr pages).Yields phys) :
    phys.length = pages ∧ ∀ p ∈ phys, p.toNat % pageSize = 0 := by
  induction pages generalizing phys with
  | zero =>
    rw [← show [] = phys from h]
    simp
  | succ pages ih =>
    simp only [resolve, List.range_succ, List.foldlM_append, List.foldlM_cons, List.foldlM_nil,
      yields_bind, pure_eq, yields_done] at h
    obtain ⟨before, hbefore, _, ⟨p, hp, rfl⟩, rfl⟩ := h
    obtain ⟨hlen, hall⟩ := ih hbefore
    refine ⟨by simp [hlen], fun q hq => ?_⟩
    rcases List.mem_append.mp hq with hq | hq
    · exact hall q hq
    · rw [List.mem_singleton.mp hq]
      exact vaddrToPhys_yields hp

/-- What every buffer of the driver is like. -/
structure Resolved (b : DmaBuffer) (size : ℕ) : Prop where
  len : b.len = alignUp size pageSize
  pages : b.phys.length = b.len / pageSize
  aligned : ∀ p ∈ b.phys, p.toNat % pageSize = 0
  bound : ∀ p ∈ b.phys, p < maxPhys

theorem giveUp_yields {α : Type} {ptr : U64} {len : ℕ} {e : IoError} {a : α} :
    ¬ (giveUp ptr len e : Prog α).Yields a := by
  rintro ⟨_, _, h⟩
  exact h

theorem new_yields {size : ℕ} {b : DmaBuffer} (h : (new size).Yields b) : b.Resolved size := by
  simp only [new, yields_bind] at h
  obtain ⟨ptr, -, r, -, h⟩ := h
  cases r with
  | error e =>
    obtain ⟨_, h⟩ := h
    exact h.elim
  | ok u =>
    obtain ⟨r, hr, h⟩ := yields_bind.mp h
    cases r with
    | error e => exact (giveUp_yields h).elim
    | ok phys =>
      obtain ⟨hlen, haligned⟩ := resolve_yields (yields_attempt_ok.mp hr)
      cases hbad : phys.find? (maxPhys ≤ ·) with
      | some bad =>
        simp only [hbad] at h
        exact (giveUp_yields h).elim
      | none =>
        simp only [hbad] at h
        rw [← show _ = b from h]
        have hbound : ∀ p ∈ phys, p < maxPhys := by
          intro p hp
          have hnot := List.find?_eq_none.mp hbad p hp
          simpa using hnot
        exact ⟨rfl, hlen, haligned, hbound⟩

/-! ### What stays behind -/

/-- The regions that are mapped, and those that are locked. -/
structure Held where
  mapped : List (U64 × ℕ)
  locked : List (U64 × ℕ)

def Held.next (s : Held) : (o : Op) → o.Ans → Held
  | .mmap len, .ok ptr => { s with mapped := (ptr, len) :: s.mapped }
  | .mlock ptr len, .ok _ => { s with locked := (ptr, len) :: s.locked }
  | .munlock ptr len, _ => { s with locked := s.locked.erase (ptr, len) }
  | .munmap ptr len, _ => { s with mapped := s.mapped.erase (ptr, len) }
  | _, _ => s

def held : Monitor Op.Ans Held := Monitor.follow Held.next

/-- Mapped and locked. -/
def Held.add (s : Held) (b : DmaBuffer) : Held :=
  ⟨(b.ptr, b.len) :: s.mapped, (b.ptr, b.len) :: s.locked⟩

theorem resolve_held (ptr : U64) (pages : ℕ) (s : Held) :
    Ensures held (resolve ptr pages) s fun _ s' => s' = s := by
  have hasks : (resolve ptr pages).Asks fun o => ∃ off, o = .pagemap off := by
    refine Asks.foldlM fun phys i _ => ?_
    simp [vaddrToPhys]
  refine hasks.ensures (m := held) (I := fun s' => s' = s) ?_ ?_ rfl
  · rintro s' o ⟨off, rfl⟩ -
    trivial
  · rintro s' o x ⟨off, rfl⟩ hs -
    exact hs

theorem giveUp_held {α : Type} (ptr : U64) (len : ℕ) (e : IoError) (s : Held) :
    Ensures held (giveUp ptr len e : Prog α) ⟨(ptr, len) :: s.mapped, (ptr, len) :: s.locked⟩
      fun r s' => r = .error e ∧ s' = s := by
  refine ⟨trivial, fun _ _ => ⟨trivial, fun _ _ => ⟨rfl, ?_⟩⟩⟩
  simp [held, Monitor.follow, Held.next]

/-- A buffer more, or nothing changed. -/
def Gains (s : Held) (r : Except IoError DmaBuffer) (s' : Held) : Prop :=
  (∀ b, r = .ok b → s' = s.add b) ∧ ∀ e, r = .error e → s' = s

theorem gains_ok {s : Held} {b : DmaBuffer} : Gains s (.ok b) (s.add b) := by
  simp [Gains]

theorem gains_error {s : Held} {e : IoError} : Gains s (.error e) s := by
  simp [Gains]

theorem new_held (size : ℕ) (s : Held) : Ensures held (new size) s (Gains s) := by
  refine ⟨trivial, fun r _ => ?_⟩
  cases r with
  | error e => exact gains_error
  | ok ptr =>
    refine ⟨trivial, fun r _ => ?_⟩
    cases r with
    | error e =>
      refine ⟨trivial, fun _ _ => ?_⟩
      have hback : ((ptr, alignUp size pageSize) :: s.mapped).erase
          (ptr, alignUp size pageSize) = s.mapped := List.erase_cons_head ..
      change Gains s (.error e) ⟨((ptr, alignUp size pageSize) :: s.mapped).erase
        (ptr, alignUp size pageSize), s.locked⟩
      rw [hback]
      exact gains_error
    | ok u =>
      change Ensures held ((resolve ptr _).attempt >>= _) _ _
      refine ensures_bind.mpr (ensures_attempt.mpr ((resolve_held ptr _ _).mono fun r s' hs' => ?_))
      subst hs'
      have hgive : ∀ e, Ensures held (giveUp ptr (alignUp size pageSize) e : Prog DmaBuffer)
          ⟨(ptr, alignUp size pageSize) :: s.mapped, (ptr, alignUp size pageSize) :: s.locked⟩
          (Gains s) := fun e => (giveUp_held ptr _ e s).mono fun r s' h => by
        obtain ⟨rfl, rfl⟩ := h
        exact gains_error
      cases r with
      | error e => exact hgive e
      | ok phys =>
        dsimp only
        split
        · exact hgive _
        · exact gains_ok

/-- What a call gives and what it leaves held, after any history and whatever the system
answers. -/
theorem new_spec (env : Env) (size : ℕ) (h : History) (s : Held) :
    (∀ b, (run env (new size) h).1 = .ok b → b.Resolved size) ∧
      Gains (held.after s h) (run env (new size) h).1 (held.after s (run env (new size) h).2) := by
  have hrun := Ensures.follow env (h := h) (new_held size (held.after s h))
  exact ⟨fun b hb => new_yields (run_yields hb), hrun⟩

/-! ### The buffer the descriptors are filled from -/

theorem Resolved.len_eq {b : DmaBuffer} {size : ℕ} (h : b.Resolved size) :
    b.phys.length * pageSize = b.len := by
  have hdvd : pageSize ∣ b.len := by
    rw [h.len]
    exact Dvd.intro_left _ rfl
  rw [h.pages, Nat.div_mul_cancel hdvd]

/-- With pages that differ. -/
def Resolved.pinned {b : DmaBuffer} {size : ℕ} (h : b.Resolved size) (hdiffer : b.phys.Nodup) :
    Dma.DmaBuffer where
  phys := {
    starts := b.phys.map BitVec.toNat
    aligned := by
      simp only [List.mem_map]
      rintro _ ⟨p, hp, rfl⟩
      exact h.aligned p hp
    nodup := hdiffer.map fun _ _ => BitVec.eq_of_toNat_eq }
  bound := by
    simp only [List.mem_map]
    rintro _ ⟨p, -, rfl⟩
    exact p.isLt

theorem Resolved.pinned_size {b : DmaBuffer} {size : ℕ} (h : b.Resolved size)
    (hdiffer : b.phys.Nodup) : (h.pinned hdiffer).size = b.size := by
  simp [Dma.DmaBuffer.size, Pages.size, pinned, DmaBuffer.size, ← h.len_eq, pageSize, Dma.pageSize]

theorem Resolved.pinned_toaddr {b : DmaBuffer} {size : ℕ} (h : b.Resolved size)
    (hdiffer : b.phys.Nodup) {off : ℕ} (hoff : off < b.size) :
    (h.pinned hdiffer).toaddr off = some (b.toaddr off).toNat := by
  have hpage : off / pageSize < b.phys.length := by
    refine Nat.div_lt_of_lt_mul ?_
    rw [Nat.mul_comm, h.len_eq]
    exact hoff
  have hbound := h.bound _ (List.getElem_mem hpage)
  have hstart : (b.phys.map BitVec.toNat).getD (off / pageSize) 0 =
      b.phys[off / pageSize].toNat := by
    rw [List.getD_eq_getElem _ _ (by simpa using hpage), List.getElem_map]
  have hsum : (b.phys[off / pageSize] + BitVec.ofNat 64 (off % pageSize)).toNat =
      b.phys[off / pageSize].toNat + off % pageSize := by
    have hlt : b.phys[off / pageSize].toNat < 2 ^ 47 := hbound
    have hmod : off % pageSize < 4096 := Nat.mod_lt _ (by decide)
    rw [BitVec.toNat_add, BitVec.toNat_ofNat]
    omega
  have hin : off < (h.pinned hdiffer).size := by rwa [h.pinned_size hdiffer]
  have hget : b.phys.getD (off / pageSize) 0#64 = b.phys[off / pageSize] :=
    List.getD_eq_getElem _ _ hpage
  rw [Dma.DmaBuffer.toaddr, if_pos hin, DmaBuffer.toaddr, hget, hsum, ← hstart]
  rfl

end DmaBuffer

end Audiod.Driver
