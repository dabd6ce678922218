import Audiod.Bytes
import Mathlib.Logic.Function.Basic

/-!
# Stream sockets of one process

The descriptor table of a process and its connections. A descriptor that has
been closed can be given out again; a connection is never reopened. The log of a
connection keeps, with each byte the kernel accepted, what the caller sent it
as, which no one reads.
-/

namespace Audiod

structure Conn (ο : Type*) where
  sent : List (ο × Byte)
  alive : Bool

def Conn.log {ο : Type*} (c : Conn ο) (o : ο) (bs : Bytes) : Conn ο :=
  { c with sent := c.sent ++ bs.map (o, ·) }

structure Net (ο : Type*) where
  fds : ℕ → Option ℕ
  conns : ℕ → Conn ο
  made : ℕ

namespace Net

variable {ο : Type*}

def init : Net ο := ⟨fun _ => none, fun _ => ⟨[], true⟩, 0⟩

/-- `socket` and `connect`; `fd` is the descriptor the kernel picks. -/
def connect (n : Net ο) (fd : ℕ) : Option (Net ο) :=
  match n.fds fd with
  | some _ => none
  | none => some
    { fds := Function.update n.fds fd (some n.made)
      conns := Function.update n.conns n.made ⟨[], true⟩
      made := n.made + 1 }

def close (n : Net ο) (fd : ℕ) : Net ο := { n with fds := Function.update n.fds fd none }

/-- The peer goes away. -/
def hangup (n : Net ο) (c : ℕ) : Net ο :=
  { n with conns := Function.update n.conns c { n.conns c with alive := false } }

/-- `send` when the kernel accepts the first `k` bytes. -/
def accept (n : Net ο) (fd : ℕ) (o : ο) (bs : Bytes) (k : ℕ) : Option (Net ο) :=
  match n.fds fd with
  | none => none
  | some c =>
    if (n.conns c).alive = true ∧ k ≤ bs.length then
      some { n with conns := Function.update n.conns c ((n.conns c).log o (bs.take k)) }
    else none

/-- The connection behind a descriptor. -/
def behind (n : Net ο) (fd : ℕ) : Option (Conn ο) := (n.fds fd).map n.conns

/-- Open descriptors stand for connections already made, each for its own. -/
structure WF (n : Net ο) : Prop where
  lt_made : ∀ fd c, n.fds fd = some c → c < n.made
  inj : ∀ fd fd' c, n.fds fd = some c → n.fds fd' = some c → fd = fd'

theorem wf_init : (init : Net ο).WF := ⟨nofun, nofun⟩

theorem WF.connect {n n' : Net ο} (h : n.WF) {fd : ℕ} (hc : n.connect fd = some n') : n'.WF := by
  unfold Net.connect at hc
  split at hc
  · cases hc
  · cases hc
    refine ⟨fun fd' c hf => ?_, fun fd₁ fd₂ c h₁ h₂ => ?_⟩
    · simp only [Function.update_apply] at hf
      split at hf
      · cases hf
        exact Nat.lt_succ_self _
      · exact Nat.lt_succ_of_lt (h.lt_made fd' c hf)
    · simp only [Function.update_apply] at h₁ h₂
      split at h₁ <;> split at h₂
      · rename_i e₁ e₂
        rw [e₁, e₂]
      · cases h₁
        exact absurd (h.lt_made fd₂ _ h₂) (Nat.lt_irrefl _)
      · cases h₂
        exact absurd (h.lt_made fd₁ _ h₁) (Nat.lt_irrefl _)
      · exact h.inj fd₁ fd₂ c h₁ h₂

theorem WF.close {n : Net ο} (h : n.WF) (fd : ℕ) : (n.close fd).WF := by
  have hsub : ∀ fd' c, (n.close fd).fds fd' = some c → n.fds fd' = some c := by
    intro fd' c hf
    simp only [Net.close, Function.update_apply] at hf
    split at hf
    · cases hf
    · exact hf
  exact ⟨fun fd' c hf => h.lt_made fd' c (hsub fd' c hf),
    fun fd₁ fd₂ c h₁ h₂ => h.inj fd₁ fd₂ c (hsub fd₁ c h₁) (hsub fd₂ c h₂)⟩

theorem WF.hangup {n : Net ο} (h : n.WF) (c : ℕ) : (n.hangup c).WF := ⟨h.lt_made, h.inj⟩

theorem WF.accept {n n' : Net ο} (h : n.WF) {fd k : ℕ} {o : ο} {bs : Bytes}
    (ha : n.accept fd o bs k = some n') : n'.WF := by
  unfold Net.accept at ha
  split at ha
  · cases ha
  · split at ha
    · cases ha
      exact ⟨h.lt_made, h.inj⟩
    · cases ha

theorem connect_behind {n n' : Net ο} {fd : ℕ} (hc : n.connect fd = some n') :
    n.behind fd = none ∧ n'.behind fd = some ⟨[], true⟩ := by
  unfold Net.connect at hc
  split at hc
  · cases hc
  · rename_i hf
    cases hc
    simp [behind, hf]

theorem connect_behind_ne {n n' : Net ο} (h : n.WF) {fd fd' : ℕ} (hc : n.connect fd = some n')
    (hne : fd' ≠ fd) : n'.behind fd' = n.behind fd' := by
  unfold Net.connect at hc
  split at hc
  · cases hc
  · cases hc
    simp only [behind, Function.update_of_ne hne]
    cases hf : n.fds fd' with
    | none => rfl
    | some c =>
      have hlt := h.lt_made fd' c hf
      simp only [Option.map_some, Function.update_of_ne (Nat.ne_of_lt hlt)]

theorem close_behind_ne (n : Net ο) {fd fd' : ℕ} (hne : fd' ≠ fd) :
    (n.close fd).behind fd' = n.behind fd' := by
  simp only [behind, close, Function.update_of_ne hne]

theorem accept_behind {n n' : Net ο} {fd k : ℕ} {o : ο} {bs : Bytes}
    (ha : n.accept fd o bs k = some n') : ∃ c, n.behind fd = some c ∧ c.alive = true ∧
      k ≤ bs.length ∧ n'.behind fd = some (c.log o (bs.take k)) := by
  unfold Net.accept at ha
  split at ha
  · cases ha
  · rename_i c hf
    split at ha
    · rename_i hk
      cases ha
      exact ⟨n.conns c, by simp [behind, hf], hk.1, hk.2, by simp [behind, hf]⟩
    · cases ha

theorem accept_behind_ne {n n' : Net ο} (h : n.WF) {fd fd' k : ℕ} {o : ο} {bs : Bytes}
    (ha : n.accept fd o bs k = some n') (hne : fd' ≠ fd) : n'.behind fd' = n.behind fd' := by
  unfold Net.accept at ha
  split at ha
  · cases ha
  · rename_i c hf
    split at ha
    · cases ha
      simp only [behind]
      cases hf' : n.fds fd' with
      | none => rfl
      | some c' =>
        have hcc : c' ≠ c := by
          intro heq
          rw [heq] at hf'
          exact hne (h.inj fd' fd c hf' hf)
        simp only [Option.map_some, Function.update_of_ne hcc]
    · cases ha

/- A connection a system call may have changed is the one behind its descriptor. -/
theorem accept_conns {n n' : Net ο} {fd k : ℕ} {o : ο} {bs : Bytes}
    (ha : n.accept fd o bs k = some n') (c : ℕ) :
    n'.conns c = n.conns c ∨ n'.behind fd = some (n'.conns c) := by
  unfold Net.accept at ha
  split at ha
  · cases ha
  · rename_i c' hf
    split at ha
    · cases ha
      by_cases hcc : c = c'
      · exact .inr (by simp [behind, hf, hcc])
      · exact .inl (Function.update_of_ne hcc _ _)
    · cases ha

theorem connect_conns {n n' : Net ο} {fd : ℕ} (hc : n.connect fd = some n') (c : ℕ) :
    n'.conns c = n.conns c ∨ n'.conns c = ⟨[], true⟩ := by
  unfold Net.connect at hc
  split at hc
  · cases hc
  · cases hc
    by_cases hcm : c = n.made
    · exact .inr (by simp [hcm])
    · exact .inl (Function.update_of_ne hcm _ _)

theorem hangup_behind (n : Net ο) (c fd : ℕ) : (n.hangup c).behind fd = n.behind fd ∨
    ∃ x, n.behind fd = some x ∧ (n.hangup c).behind fd = some { x with alive := false } := by
  simp only [behind, hangup]
  cases hf : n.fds fd with
  | none => exact .inl rfl
  | some c' =>
    by_cases hcc : c' = c
    · exact .inr ⟨n.conns c', rfl, by simp [hcc]⟩
    · exact .inl (by simp [Function.update_of_ne hcc])

end Net

end Audiod
