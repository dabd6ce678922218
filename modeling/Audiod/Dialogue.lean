import Mathlib.Data.List.Basic
import Mathlib.Tactic.Common

/-!
# Programs that talk to a device

A dialogue ends, fails, or asks its environment an operation and goes on with the
answer. The environment is any function of what has been asked and answered so far, so
it stands for every device. A monitor follows a dialogue from outside: it says what may
be asked and what can be answered in each of its states. `Ensures` is the weakest
precondition of a dialogue under a monitor, and `Ensures.run` carries it over to runs.
-/

namespace Audiod

universe u v t

inductive Dialogue (Op : Type u) (Ans : Op → Type v) (ε α : Type)
  | done (a : α)
  | fail (e : ε)
  | ask (o : Op) (next : Ans o → Dialogue Op Ans ε α)

namespace Dialogue

variable {Op : Type u} {Ans : Op → Type v} {ε α β : Type}

def bind : Dialogue Op Ans ε α → (α → Dialogue Op Ans ε β) → Dialogue Op Ans ε β
  | done a, f => f a
  | fail e, _ => fail e
  | ask o next, f => ask o fun x => bind (next x) f

instance : Monad (Dialogue Op Ans ε) where
  pure := done
  bind := bind

@[simp] theorem pure_eq (a : α) : (pure a : Dialogue Op Ans ε α) = done a := rfl

@[simp] theorem done_bind (a : α) (f : α → Dialogue Op Ans ε β) : done a >>= f = f a := rfl

@[simp] theorem fail_bind (e : ε) (f : α → Dialogue Op Ans ε β) : fail e >>= f = fail e := rfl

instance : LawfulMonad (Dialogue Op Ans ε) := by
  refine LawfulMonad.mk' _ (fun p => ?_) (fun a f => rfl) fun p f g => ?_
  · induction p with
    | done a => rfl
    | fail e => rfl
    | ask o next ih => exact congrArg (ask o) (funext ih)
  · induction p with
    | done a => rfl
    | fail e => rfl
    | ask o next ih => exact congrArg (ask o) (funext ih)

/-- The result of a dialogue that may fail, for one that goes on in either case. -/
def attempt : Dialogue Op Ans ε α → Dialogue Op Ans ε (Except ε α)
  | done a => done (.ok a)
  | fail e => done (.error e)
  | ask o next => ask o fun x => attempt (next x)

def ofExcept : Except ε α → Dialogue Op Ans ε α
  | .ok a => done a
  | .error e => fail e

/-- Asks `p` again until it says yes, at most `n` times after the first. -/
def retry (p : Dialogue Op Ans ε Bool) : ℕ → Dialogue Op Ans ε Bool
  | 0 => p
  | n + 1 => p >>= fun b => if b then done true else retry p n

/-! ### Runs -/

/-- What has been asked, with the answers, oldest first. -/
abbrev History (Ans : Op → Type v) := List (Sigma Ans)

abbrev Env (Ans : Op → Type v) := History Ans → (o : Op) → Ans o

/-- The result, and the history with the run's own questions at its end. -/
def run (env : Env Ans) : Dialogue Op Ans ε α → History Ans → Except ε α × History Ans
  | done a, h => (.ok a, h)
  | fail e, h => (.error e, h)
  | ask o next, h => run env (next (env h o)) (h ++ [⟨o, env h o⟩])

theorem run_bind (env : Env Ans) (p : Dialogue Op Ans ε α) (f : α → Dialogue Op Ans ε β)
    (h : History Ans) :
    run env (p >>= f) h =
      match run env p h with
      | (.ok a, h') => run env (f a) h'
      | (.error e, h') => (.error e, h') := by
  induction p generalizing h with
  | done a => rfl
  | fail e => rfl
  | ask o next ih => exact ih (env h o) _

theorem run_bind_ok {env : Env Ans} {p : Dialogue Op Ans ε α} {h : History Ans} {a : α}
    (hp : (run env p h).1 = .ok a) (f : α → Dialogue Op Ans ε β) :
    run env (p >>= f) h = run env (f a) (run env p h).2 := by
  rw [run_bind]
  split
  · rename_i b h' hrun
    rw [hrun] at hp ⊢
    cases hp
    rfl
  · rename_i e h' hrun
    rw [hrun] at hp
    cases hp

theorem run_attempt (env : Env Ans) (p : Dialogue Op Ans ε α) (h : History Ans) :
    (run env p.attempt h : Except ε (Except ε α) × History Ans) =
      (.ok (run env p h).1, (run env p h).2) := by
  induction p generalizing h with
  | done a => rfl
  | fail e => rfl
  | ask o next ih => exact ih (env h o) _

theorem prefix_run (env : Env Ans) (p : Dialogue Op Ans ε α) (h : History Ans) :
    h <+: (run env p h).2 := by
  induction p generalizing h with
  | done a => exact List.prefix_refl h
  | fail e => exact List.prefix_refl h
  | ask o next ih => exact (List.prefix_append h _).trans (ih (env h o) _)

/-- An event in `ψ` has occurred. -/
def Seen (ψ : Sigma Ans → Prop) (h : History Ans) : Prop := ∃ d ∈ h, ψ d

/-- Every question is in `φ`. -/
def Only (φ : Op → Prop) (h : History Ans) : Prop := ∀ e ∈ h, φ e.1

/-- Every question in `φ` comes after an event in `ψ`. -/
def After (φ : Op → Prop) (ψ : Sigma Ans → Prop) (h : History Ans) : Prop :=
  ∀ pre e post, h = pre ++ e :: post → φ e.1 → Seen ψ pre

theorem Seen.snoc {ψ : Sigma Ans → Prop} {h : History Ans} (hs : Seen ψ h) (e : Sigma Ans) :
    Seen ψ (h ++ [e]) := by
  obtain ⟨d, hd, hψ⟩ := hs
  exact ⟨d, List.mem_append_left _ hd, hψ⟩

theorem seen_last {ψ : Sigma Ans → Prop} {e : Sigma Ans} (he : ψ e) (h : History Ans) :
    Seen ψ (h ++ [e]) := ⟨e, by simp, he⟩

/-! ### Monitors -/

/-- `may` is what may be asked, `can` what the environment can answer. -/
structure Monitor (Ans : Op → Type v) (σ : Type t) where
  may : σ → Op → Prop
  can : σ → (o : Op) → Ans o → Prop
  next : σ → (o : Op) → Ans o → σ

variable {σ : Type t}

namespace Monitor

def after (m : Monitor Ans σ) (s : σ) (h : History Ans) : σ :=
  h.foldl (fun s e => m.next s e.1 e.2) s

/-- Everything in `h` from the length of `h₀` on was asked when it might be. -/
def Respects (m : Monitor Ans σ) (s : σ) (h₀ h : History Ans) : Prop :=
  ∀ pre e post, h = pre ++ e :: post → h₀.length ≤ pre.length → m.may (m.after s pre) e.1

def Heeds (m : Monitor Ans σ) (s : σ) (env : Env Ans) : Prop :=
  ∀ h o, m.can (m.after s h) o (env h o)

variable {m : Monitor Ans σ} {s : σ}

theorem after_snoc (h : History Ans) (e : Sigma Ans) :
    m.after s (h ++ [e]) = m.next (m.after s h) e.1 e.2 := by
  simp [after]

theorem respects_refl (h : History Ans) : m.Respects s h h := by
  intro pre e post heq hle
  rw [heq, List.length_append, List.length_cons] at hle
  omega

theorem Respects.snoc {h₀ h : History Ans} {e : Sigma Ans} (hr : m.Respects s h₀ h)
    (he : m.may (m.after s h) e.1) : m.Respects s h₀ (h ++ [e]) := by
  intro pre d post heq hle
  rcases List.eq_nil_or_concat post with rfl | ⟨post', last, rfl⟩
  · obtain ⟨rfl, hd⟩ := List.append_inj' heq rfl
    cases hd
    exact he
  · have hcut : h ++ [e] = (pre ++ d :: post') ++ [last] := by simpa using heq
    obtain ⟨rfl, -⟩ := List.append_inj' hcut rfl
    exact hr pre d post' rfl hle

/-- The one that forbids nothing. -/
def follow (next : σ → (o : Op) → Ans o → σ) : Monitor Ans σ :=
  ⟨fun _ _ => True, fun _ _ _ => True, next⟩

/-- The one that asks for `I` at every moment. -/
def always (I : σ → Prop) (can : σ → (o : Op) → Ans o → Prop)
    (next : σ → (o : Op) → Ans o → σ) : Monitor Ans σ := ⟨fun s _ => I s, can, next⟩

/-- The one that remembers everything and forbids by what it remembers. -/
def recording (may : History Ans → Op → Prop) : Monitor Ans (History Ans) :=
  ⟨may, fun _ _ _ => True, fun h o x => h ++ [⟨o, x⟩]⟩

theorem after_recording (may : History Ans → Op → Prop) (h : History Ans) :
    (recording may).after [] h = h := by
  have hfold : ∀ h' : History Ans, (recording may).after h' h = h' ++ h := by
    induction h with
    | nil => exact fun h' => (List.append_nil h').symm
    | cons e h ih =>
      intro h'
      change (recording may).after (h' ++ [e]) h = _
      rw [ih, List.append_assoc, List.singleton_append]
  exact hfold []

end Monitor

/-! ### The weakest precondition -/

def Ensures (m : Monitor Ans σ) : Dialogue Op Ans ε α → σ → (Except ε α → σ → Prop) → Prop
  | done a, s, Q => Q (.ok a) s
  | fail e, s, Q => Q (.error e) s
  | ask o next, s, Q => m.may s o ∧ ∀ x, m.can s o x → Ensures m (next x) (m.next s o x) Q

section

variable {m : Monitor Ans σ} {s : σ}

theorem ensures_pure {a : α} {Q : Except ε α → σ → Prop} :
    Ensures m (pure a : Dialogue Op Ans ε α) s Q ↔ Q (.ok a) s := Iff.rfl

theorem ensures_bind {p : Dialogue Op Ans ε α} {f : α → Dialogue Op Ans ε β}
    {Q : Except ε β → σ → Prop} :
    Ensures m (p >>= f) s Q ↔
      Ensures m p s fun r s' =>
        match r with
        | .ok a => Ensures m (f a) s' Q
        | .error e => Q (.error e) s' := by
  induction p generalizing s with
  | done a => rfl
  | fail e => rfl
  | ask o next ih =>
    change (_ ∧ ∀ x, _ → Ensures m (next x >>= f) _ Q) ↔ _
    simp only [ih, Ensures]

theorem ensures_attempt {p : Dialogue Op Ans ε α} {Q : Except ε (Except ε α) → σ → Prop} :
    Ensures m p.attempt s Q ↔ Ensures m p s fun r s' => Q (.ok r) s' := by
  induction p generalizing s with
  | done a => rfl
  | fail e => rfl
  | ask o next ih => simp only [attempt, Ensures, ih]

theorem Ensures.mono {p : Dialogue Op Ans ε α} {Q Q' : Except ε α → σ → Prop}
    (h : Ensures m p s Q) (hQ : ∀ r s', Q r s' → Q' r s') : Ensures m p s Q' := by
  induction p generalizing s with
  | done a => exact hQ _ _ h
  | fail e => exact hQ _ _ h
  | ask o next ih => exact ⟨h.1, fun x hx => ih x (h.2 x hx)⟩

/-- The postcondition that asks for `P` of what does not fail. -/
def OnOk (P : α → σ → Prop) : Except ε α → σ → Prop := fun r s => ∀ a, r = .ok a → P a s

theorem onOk_ok {P : α → σ → Prop} {a : α} : OnOk P (.ok a : Except ε α) s ↔ P a s := by
  simp [OnOk]

theorem onOk_error {P : α → σ → Prop} {e : ε} : OnOk P (.error e : Except ε α) s := by
  simp [OnOk]

theorem Ensures.onOk {p : Dialogue Op Ans ε α} {P : σ → Prop}
    (hp : Ensures m p s fun _ s' => P s') : Ensures m p s (OnOk fun _ s' => P s') :=
  hp.mono fun _ _ h _ _ => h

theorem Ensures.seqOk {P : α → σ → Prop} {P' : β → σ → Prop} {p : Dialogue Op Ans ε α}
    {f : α → Dialogue Op Ans ε β} (hp : Ensures m p s (OnOk P))
    (hf : ∀ a s', P a s' → Ensures m (f a) s' (OnOk P')) : Ensures m (p >>= f) s (OnOk P') := by
  refine ensures_bind.mpr (hp.mono fun r s' hr => ?_)
  cases r with
  | ok a => exact hf a s' (onOk_ok.mp hr)
  | error e => exact onOk_error

/-- One that keeps `I` however it ends, and comes to `P` if it does not fail. -/
def Keeping (I : σ → Prop) (P : α → σ → Prop) : Except ε α → σ → Prop := fun r s =>
  I s ∧ OnOk P r s

theorem keeping_ok {I : σ → Prop} {P : α → σ → Prop} {a : α} :
    Keeping I P (.ok a : Except ε α) s ↔ I s ∧ P a s := and_congr_right fun _ => onOk_ok

theorem keeping_error {I : σ → Prop} {P : α → σ → Prop} {e : ε} :
    Keeping I P (.error e : Except ε α) s ↔ I s := and_iff_left onOk_error

/- Sequencing under an invariant. -/
theorem Ensures.seq {I : σ → Prop} {P : α → σ → Prop} {P' : β → σ → Prop}
    {p : Dialogue Op Ans ε α} {f : α → Dialogue Op Ans ε β}
    (hp : Ensures m p s (Keeping I P))
    (hf : ∀ a s', I s' → P a s' → Ensures m (f a) s' (Keeping I P')) :
    Ensures m (p >>= f) s (Keeping I P') := by
  refine ensures_bind.mpr (hp.mono fun r s' hr => ?_)
  cases r with
  | ok a => exact hf a s' (keeping_ok.mp hr).1 (keeping_ok.mp hr).2
  | error e => exact keeping_error.mpr (keeping_error.mp hr)

/-- The rule for a loop over a list. -/
theorem Ensures.foldlM {ι : Type*} {f : β → ι → Dialogue Op Ans ε β} {I : σ → Prop}
    {P : β → σ → Prop} {l : List ι} {b : β}
    (hf : ∀ b i s, i ∈ l → I s → P b s → Ensures m (f b i) s (Keeping I P)) (hI : I s)
    (hP : P b s) : Ensures m (l.foldlM f b) s (Keeping I P) := by
  induction l generalizing b s with
  | nil => exact keeping_ok.mpr ⟨hI, hP⟩
  | cons i l ih =>
    rw [List.foldlM_cons]
    refine (hf b i s (List.mem_cons_self ..) hI hP).seq fun b' s' hI' hP' => ?_
    exact ih (fun b j s hj => hf b j s (List.mem_cons_of_mem _ hj)) hI' hP'

/-- What a dialogue ensures holds of its runs in an environment that heeds the monitor. -/
theorem Ensures.run {env : Env Ans} (henv : m.Heeds s env) {p : Dialogue Op Ans ε α}
    {Q : Except ε α → σ → Prop} {h : History Ans} (hp : Ensures m p (m.after s h) Q) :
    m.Respects s h (Dialogue.run env p h).2 ∧
      Q (Dialogue.run env p h).1 (m.after s (Dialogue.run env p h).2) := by
  have hfrom : ∀ h' : History Ans, Ensures m p (m.after s h') Q → m.Respects s h h' →
      m.Respects s h (Dialogue.run env p h').2 ∧
        Q (Dialogue.run env p h').1 (m.after s (Dialogue.run env p h').2) := by
    clear hp
    induction p with
    | done a => exact fun h' hp hr => ⟨hr, hp⟩
    | fail e => exact fun h' hp hr => ⟨hr, hp⟩
    | ask o next ih =>
      intro h' hp hr
      have hnext := hp.2 (env h' o) (henv h' o)
      rw [← Monitor.after_snoc (m := m) h' ⟨o, env h' o⟩] at hnext
      exact ih (env h' o) _ hnext (hr.snoc hp.1)
  exact hfrom h hp (Monitor.respects_refl h)

/- For a monitor that forbids nothing. -/
theorem Ensures.follow (env : Env Ans) {next : σ → (o : Op) → Ans o → σ}
    {p : Dialogue Op Ans ε α} {Q : Except ε α → σ → Prop} {h : History Ans}
    (hp : Ensures (Monitor.follow next) p ((Monitor.follow next).after s h) Q) :
    Q (Dialogue.run env p h).1 ((Monitor.follow next).after s (Dialogue.run env p h).2) := by
  have henv : (Monitor.follow next).Heeds s env := fun _ _ => trivial
  exact (hp.run henv).2

/- The same, watching from the dialogue's own first question on. -/
theorem Ensures.since (env : Env Ans) {next : σ → (o : Op) → Ans o → σ}
    {p : Dialogue Op Ans ε α} {Q : Except ε α → σ → Prop}
    (hp : Ensures (Monitor.follow next) p s Q) (h : History Ans) :
    ∃ new, (Dialogue.run env p h).2 = h ++ new ∧
      Q (Dialogue.run env p h).1 ((Monitor.follow next).after s new) := by
  induction p generalizing h s with
  | done a => exact ⟨[], (List.append_nil h).symm, hp⟩
  | fail e => exact ⟨[], (List.append_nil h).symm, hp⟩
  | ask o k ih =>
    obtain ⟨new, hnew, hQ⟩ := ih (env h o) (hp.2 (env h o) trivial) (h ++ [⟨o, env h o⟩])
    exact ⟨⟨o, env h o⟩ :: new, hnew.trans (List.append_assoc ..), hQ⟩

/- For one that asks for `I` at every moment: at every moment of the run, and at its end. -/
theorem Ensures.always {env : Env Ans} {I : σ → Prop} {can : σ → (o : Op) → Ans o → Prop}
    {next : σ → (o : Op) → Ans o → σ} (henv : (Monitor.always I can next).Heeds s env)
    {p : Dialogue Op Ans ε α} {h : History Ans}
    (hp : Ensures (Monitor.always I can next) p ((Monitor.follow next).after s h) fun _ => I)
    {pre : History Ans} (hfrom : h <+: pre) (hto : pre <+: (Dialogue.run env p h).2) :
    I ((Monitor.follow next).after s pre) := by
  obtain ⟨hmay, hend⟩ := hp.run (h := h) henv
  obtain ⟨rest, hrest⟩ := hto
  cases rest with
  | nil =>
    rw [List.append_nil] at hrest
    rw [hrest]
    exact hend
  | cons e rest => exact hmay pre e rest hrest.symm hfrom.length_le

/- For the monitor that remembers everything. -/
theorem Ensures.record (env : Env Ans) {may : History Ans → Op → Prop}
    {p : Dialogue Op Ans ε α} {Q : Except ε α → History Ans → Prop}
    (hp : Ensures (Monitor.recording may) p [] Q) :
    (∀ pre e post, (Dialogue.run env p []).2 = pre ++ e :: post → may pre e.1) ∧
      Q (Dialogue.run env p []).1 (Dialogue.run env p []).2 := by
  have henv : (Monitor.recording may).Heeds [] env := fun _ _ => trivial
  have h := hp.run (h := []) henv
  rw [Monitor.after_recording] at h
  refine ⟨fun pre e post heq => ?_, h.2⟩
  have hmay := h.1 pre e post heq (Nat.zero_le _)
  rwa [Monitor.after_recording] at hmay

end

/-! ### What a dialogue can ask -/

/-- A result that some answers lead to. -/
def Yields : Dialogue Op Ans ε α → α → Prop
  | done b, a => b = a
  | fail _, _ => False
  | ask _ next, a => ∃ x, Yields (next x) a

section

variable {a b : α}

@[simp] theorem yields_done : (done a : Dialogue Op Ans ε α).Yields b ↔ a = b := Iff.rfl

@[simp] theorem yields_fail {e : ε} : (fail e : Dialogue Op Ans ε α).Yields b ↔ False := Iff.rfl

@[simp] theorem yields_bind {p : Dialogue Op Ans ε α} {f : α → Dialogue Op Ans ε β} {b : β} :
    (p >>= f).Yields b ↔ ∃ a, p.Yields a ∧ (f a).Yields b := by
  induction p with
  | done a =>
    refine ⟨fun h => ⟨a, rfl, h⟩, ?_⟩
    rintro ⟨_, rfl, h⟩
    exact h
  | fail e => exact ⟨fun h => h.elim, fun ⟨_, h, _⟩ => h.elim⟩
  | ask o next ih =>
    refine ⟨fun ⟨x, hx⟩ => ?_, fun ⟨a, ⟨x, hx⟩, ha⟩ => ⟨x, (ih x).mpr ⟨a, hx, ha⟩⟩⟩
    obtain ⟨a, hx, ha⟩ := (ih x).mp hx
    exact ⟨a, ⟨x, hx⟩, ha⟩

@[simp] theorem yields_ite {c : Prop} [Decidable c] {p q : Dialogue Op Ans ε α} :
    (if c then p else q).Yields a ↔ if c then p.Yields a else q.Yields a := by
  split <;> rfl

theorem yields_attempt_ok {p : Dialogue Op Ans ε α} : p.attempt.Yields (.ok a) ↔ p.Yields a := by
  induction p with
  | done b => exact ⟨Except.ok.inj, congrArg _⟩
  | fail e =>
    refine ⟨fun h => ?_, fun h => h.elim⟩
    cases h
  | ask o next ih => exact exists_congr ih

end

theorem run_yields {env : Env Ans} {p : Dialogue Op Ans ε α} {h : History Ans} {a : α}
    (hrun : (run env p h).1 = .ok a) : p.Yields a := by
  induction p generalizing h with
  | done b =>
    cases hrun
    rfl
  | fail e => cases hrun
  | ask o next ih => exact ⟨env h o, ih (env h o) hrun⟩

theorem Ensures.yields {σ : Type t} {m : Monitor Ans σ} {s : σ} {p : Dialogue Op Ans ε α}
    {Q : Except ε α → σ → Prop} (h : Ensures m p s Q) :
    Ensures m p s fun r s' => Q r s' ∧ ∀ a, r = .ok a → p.Yields a := by
  induction p generalizing s with
  | done a => exact ⟨h, fun b hb => by cases hb; rfl⟩
  | fail e => exact ⟨h, fun b hb => by cases hb⟩
  | ask o next ih =>
    refine ⟨h.1, fun x hx => (ih x (h.2 x hx)).mono fun r s' hr => ⟨hr.1, fun a ha => ?_⟩⟩
    exact ⟨x, hr.2 a ha⟩

/-- No answers lead to an error. -/
def NeverFails : Dialogue Op Ans ε α → Prop
  | done _ => True
  | fail _ => False
  | ask _ next => ∀ x, NeverFails (next x)

section

variable {p : Dialogue Op Ans ε α}

@[simp] theorem neverFails_done (a : α) : (done a : Dialogue Op Ans ε α).NeverFails := trivial

@[simp] theorem neverFails_ask {o : Op} {next : Ans o → Dialogue Op Ans ε α} :
    (ask o next).NeverFails ↔ ∀ x, (next x).NeverFails := Iff.rfl

@[simp] theorem neverFails_attempt : p.attempt.NeverFails := by
  induction p with
  | done a => trivial
  | fail e => trivial
  | ask o next ih => exact ih

@[simp] theorem neverFails_ite {c : Prop} [Decidable c] {q : Dialogue Op Ans ε α} :
    (if c then p else q).NeverFails ↔ (c → p.NeverFails) ∧ (¬ c → q.NeverFails) := by
  split <;> simp [*]

@[simp] theorem neverFails_bind {f : α → Dialogue Op Ans ε β} :
    (p >>= f).NeverFails ↔ p.NeverFails ∧ ∀ a, p.Yields a → (f a).NeverFails := by
  induction p with
  | done a => simp [Yields]
  | fail e => simp [NeverFails]
  | ask o next ih =>
    change (∀ x, (next x >>= f).NeverFails) ↔ _
    simp only [ih, neverFails_ask, Yields, forall_and]
    refine and_congr_right fun _ => ?_
    exact ⟨fun h a ⟨x, hx⟩ => h x a hx, fun h x a hx => h a ⟨x, hx⟩⟩

theorem NeverFails.retry {p : Dialogue Op Ans ε Bool} (hp : p.NeverFails) (n : ℕ) :
    (p.retry n).NeverFails := by
  induction n with
  | zero => exact hp
  | succ n ih =>
    refine neverFails_bind.mpr ⟨hp, fun b _ => ?_⟩
    cases b with
    | true => trivial
    | false => exact ih

theorem NeverFails.foldlM {ι : Type*} {f : β → ι → Dialogue Op Ans ε β} {l : List ι}
    (hf : ∀ b i, (f b i).NeverFails) (b : β) : (l.foldlM f b).NeverFails := by
  induction l generalizing b with
  | nil => trivial
  | cons i l ih =>
    rw [List.foldlM_cons]
    exact neverFails_bind.mpr ⟨hf b i, fun b' _ => ih b'⟩

theorem NeverFails.ensures {σ : Type t} {m : Monitor Ans σ} {s : σ} {P : α → σ → Prop}
    (hp : p.NeverFails) (h : Ensures m p s (OnOk P)) :
    Ensures m p s fun r s' => ∃ a, r = .ok a ∧ P a s' := by
  induction p generalizing s with
  | done a => exact ⟨a, rfl, onOk_ok.mp h⟩
  | fail e => exact hp.elim
  | ask o next ih => exact ⟨h.1, fun x hx => ih x (hp x) (h.2 x hx)⟩

end

/-- Everything that is ever asked is allowed by `φ`. -/
def Asks (φ : Op → Prop) : Dialogue Op Ans ε α → Prop
  | done _ => True
  | fail _ => True
  | ask o next => φ o ∧ ∀ x, Asks φ (next x)

section

variable {φ : Op → Prop}

@[simp] theorem asks_done (a : α) : (done a : Dialogue Op Ans ε α).Asks φ := trivial

@[simp] theorem asks_fail (e : ε) : (fail e : Dialogue Op Ans ε α).Asks φ := trivial

@[simp] theorem asks_ask {o : Op} {next : Ans o → Dialogue Op Ans ε α} :
    (ask o next).Asks φ ↔ φ o ∧ ∀ x, (next x).Asks φ := Iff.rfl

@[simp] theorem asks_ofExcept (r : Except ε α) :
    (ofExcept r : Dialogue Op Ans ε α).Asks φ := by
  cases r <;> trivial

@[simp] theorem asks_bind {p : Dialogue Op Ans ε α} {f : α → Dialogue Op Ans ε β} :
    (p >>= f).Asks φ ↔ p.Asks φ ∧ ∀ a, p.Yields a → (f a).Asks φ := by
  induction p with
  | done a => simp [Yields]
  | fail e => simp [Yields]
  | ask o next ih =>
    change (φ o ∧ ∀ x, (next x >>= f).Asks φ) ↔ _
    simp only [ih, asks_ask, Yields, and_assoc, forall_and]
    refine and_congr_right fun _ => and_congr_right fun _ => ?_
    exact ⟨fun h a ⟨x, hx⟩ => h x a hx, fun h x a hx => h a ⟨x, hx⟩⟩

@[simp] theorem asks_attempt {p : Dialogue Op Ans ε α} : p.attempt.Asks φ ↔ p.Asks φ := by
  induction p with
  | done a => rfl
  | fail e => exact Iff.rfl
  | ask o next ih => simp [attempt, ih]

@[simp] theorem asks_ite {c : Prop} [Decidable c] {p q : Dialogue Op Ans ε α} :
    (if c then p else q).Asks φ ↔ (c → p.Asks φ) ∧ (¬ c → q.Asks φ) := by
  split <;> simp [*]

theorem asks_true (p : Dialogue Op Ans ε α) : p.Asks fun _ => True := by
  induction p with
  | done a => trivial
  | fail e => trivial
  | ask o next ih => exact ⟨trivial, ih⟩

theorem Asks.mono {ψ : Op → Prop} {p : Dialogue Op Ans ε α} (hp : p.Asks φ)
    (h : ∀ o, φ o → ψ o) : p.Asks ψ := by
  induction p with
  | done a => trivial
  | fail e => trivial
  | ask o next ih => exact ⟨h o hp.1, fun x => ih x (hp.2 x)⟩

theorem Asks.and {ψ : Op → Prop} {p : Dialogue Op Ans ε α} (hp : p.Asks φ) (hp' : p.Asks ψ) :
    p.Asks fun o => φ o ∧ ψ o := by
  induction p with
  | done a => trivial
  | fail e => trivial
  | ask o next ih => exact ⟨⟨hp.1, hp'.1⟩, fun x => ih x (hp.2 x) (hp'.2 x)⟩

theorem Asks.retry {p : Dialogue Op Ans ε Bool} (hp : p.Asks φ) (n : ℕ) : (p.retry n).Asks φ := by
  induction n with
  | zero => exact hp
  | succ n ih =>
    refine asks_bind.mpr ⟨hp, fun b _ => ?_⟩
    cases b with
    | true => trivial
    | false => exact ih

theorem Asks.foldlM {ι : Type*} {f : β → ι → Dialogue Op Ans ε β} {l : List ι} {b : β}
    (hf : ∀ b i, i ∈ l → (f b i).Asks φ) : (l.foldlM f b).Asks φ := by
  induction l generalizing b with
  | nil => trivial
  | cons i l ih =>
    rw [List.foldlM_cons]
    exact asks_bind.mpr ⟨hf b i (List.mem_cons_self ..),
      fun b' _ => ih fun b j hj => hf b j (List.mem_cons_of_mem _ hj)⟩

theorem Asks.foldlM_keeping {ι : Type*} {f : β → ι → Dialogue Op Ans ε β} {P : β → Prop}
    {l : List ι} {b : β} (hf : ∀ b i, i ∈ l → P b → (f b i).Asks φ)
    (hP : ∀ b i b', P b → (f b i).Yields b' → P b') (hb : P b) : (l.foldlM f b).Asks φ := by
  induction l generalizing b with
  | nil => trivial
  | cons i l ih =>
    rw [List.foldlM_cons]
    refine asks_bind.mpr ⟨hf b i (List.mem_cons_self ..) hb, fun b' hb' => ?_⟩
    exact ih (fun b j hj => hf b j (List.mem_cons_of_mem _ hj)) (hP b i b' hb hb')

theorem Asks.run {p : Dialogue Op Ans ε α} (hp : p.Asks φ) (env : Env Ans) {h : History Ans}
    (hh : Only φ h) : Only φ (run env p h).2 := by
  induction p generalizing h with
  | done a => exact hh
  | fail e => exact hh
  | ask o next ih =>
    refine ih (env h o) (hp.2 _) ?_
    intro e he
    rcases List.mem_append.mp he with he | he
    · exact hh e he
    · rw [List.mem_singleton.mp he]
      exact hp.1

/-- A dialogue that only asks what the monitor allows while `I` holds, and what keeps
`I`, keeps it. -/
theorem Asks.ensures {σ : Type t} {m : Monitor Ans σ} {p : Dialogue Op Ans ε α} (hp : p.Asks φ)
    {I : σ → Prop} (hmay : ∀ s o, φ o → I s → m.may s o)
    (hnext : ∀ s o x, φ o → I s → m.can s o x → I (m.next s o x)) {s : σ} (hI : I s) :
    Ensures m p s fun _ s' => I s' := by
  induction p generalizing s with
  | done a => exact hI
  | fail e => exact hI
  | ask o next ih =>
    exact ⟨hmay s o hp.1 hI, fun x hx => ih x (hp.2 x) (hnext s o x hp.1 hI hx)⟩

end

end Dialogue

end Audiod
