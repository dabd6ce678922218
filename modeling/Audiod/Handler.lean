import Audiod.Dialogue

/-!
# Dialogues that answer for the environment

A handler answers every question of a dialogue by a dialogue with an environment of its own,
and carries a state from one question to the next. What a dialogue ensures under a monitor
carries over to the handled one under another, by a relation between the two that every
answer keeps. A dialogue led to a result by a history is a run of it in some environment.
-/

namespace Audiod

universe u u' v t t'

namespace Dialogue

/-! ### Dialogues that do not fail -/

section

variable {Op : Type u} {Ans : Op → Type v} {ε α β : Type} {σ : Type t} {m : Monitor Ans σ} {s : σ}

/-- The postcondition of one that never fails. -/
def Returns (P : α → σ → Prop) : Except ε α → σ → Prop := fun r s => ∃ a, r = .ok a ∧ P a s

theorem Ensures.bindReturns {P : α → σ → Prop} {Q : Except ε β → σ → Prop}
    {p : Dialogue Op Ans ε α} {f : α → Dialogue Op Ans ε β} (hp : Ensures m p s (Returns P))
    (hf : ∀ a s', P a s' → Ensures m (f a) s' Q) : Ensures m (p >>= f) s Q := by
  refine ensures_bind.mpr (hp.mono fun r s' hr => ?_)
  obtain ⟨a, rfl, ha⟩ := hr
  exact hf a s' ha

theorem Ensures.returns_mono {P P' : α → σ → Prop} {p : Dialogue Op Ans ε α}
    (hp : Ensures m p s (Returns P)) (h : ∀ a s', P a s' → P' a s') :
    Ensures m p s (Returns P') :=
  hp.mono fun _ _ ⟨a, ha, hP⟩ => ⟨a, ha, h a _ hP⟩

end

/-! ### Histories that lead to a result -/

section

variable {Op : Type u} {Ans : Op → Type v} {ε α β : Type}

/-- The answers of `h` take the dialogue to the result `r`. -/
def Leads : Dialogue Op Ans ε α → History Ans → Except ε α → Prop
  | done a, h, r => h = [] ∧ r = .ok a
  | fail e, h, r => h = [] ∧ r = .error e
  | ask o next, h, r => ∃ x h', h = ⟨o, x⟩ :: h' ∧ Leads (next x) h' r

theorem Leads.bind_ok {p : Dialogue Op Ans ε α} {f : α → Dialogue Op Ans ε β}
    {h k : History Ans} {a : α} {r : Except ε β} (hp : p.Leads h (.ok a))
    (hf : (f a).Leads k r) : (p >>= f).Leads (h ++ k) r := by
  induction p generalizing h with
  | done b =>
    obtain ⟨rfl, hr⟩ := hp
    cases hr
    exact hf
  | fail e => exact absurd hp.2 (by simp)
  | ask o next ih =>
    obtain ⟨x, h', rfl, hp⟩ := hp
    exact ⟨x, h' ++ k, rfl, ih x hp⟩

theorem Leads.bind_error {p : Dialogue Op Ans ε α} {f : α → Dialogue Op Ans ε β}
    {h : History Ans} {e : ε} (hp : p.Leads h (.error e)) : (p >>= f).Leads h (.error e) := by
  induction p generalizing h with
  | done b => exact absurd hp.2 (by simp)
  | fail e' =>
    obtain ⟨rfl, hr⟩ := hp
    cases hr
    exact ⟨rfl, rfl⟩
  | ask o next ih =>
    obtain ⟨x, h', rfl, hp⟩ := hp
    exact ⟨x, h', rfl, ih x hp⟩

/-- The environment that answers as `h` has it, as far as it goes. -/
def replay [DecidableEq Op] [∀ o, Inhabited (Ans o)] (h : History Ans) : Env Ans := fun pre o =>
  match h[pre.length]? with
  | some e => if he : e.1 = o then he ▸ e.2 else default
  | none => default

theorem replay_next [DecidableEq Op] [∀ o, Inhabited (Ans o)] (pre post : History Ans) (o : Op)
    (x : Ans o) : replay (pre ++ ⟨o, x⟩ :: post) pre o = x := by
  have hget : (pre ++ ⟨o, x⟩ :: post)[pre.length]? = some ⟨o, x⟩ := by
    rw [List.getElem?_append_right (Nat.le_refl _), Nat.sub_self, List.getElem?_cons_zero]
  simp only [replay, hget, dif_pos]

theorem Leads.run [DecidableEq Op] [∀ o, Inhabited (Ans o)] {p : Dialogue Op Ans ε α}
    {h : History Ans} {r : Except ε α} (hp : p.Leads h r) :
    Dialogue.run (replay h) p [] = (r, h) := by
  have hfrom : ∀ pre k, h = pre ++ k → p.Leads k r →
      Dialogue.run (replay h) p pre = (r, h) := by
    clear hp
    induction p with
    | done a =>
      rintro pre k rfl ⟨rfl, rfl⟩
      rw [List.append_nil]
      rfl
    | fail e =>
      rintro pre k rfl ⟨rfl, rfl⟩
      rw [List.append_nil]
      rfl
    | ask o next ih =>
      rintro pre k heq ⟨x, k', rfl, hnext⟩
      have hx : replay h pre o = x := by
        rw [heq]
        exact replay_next pre k' o x
      rw [Dialogue.run, hx]
      exact ih x (pre ++ [⟨o, x⟩]) k' (by rw [heq, List.append_assoc, List.singleton_append]) hnext
  exact hfrom [] h rfl hp

end

section

variable {Op : Type u} {Ans : Op → Type v} {ε α : Type} {σ : Type t}

/-- A monitor that also keeps the history. -/
def Monitor.recorded (m : Monitor Ans σ) : Monitor Ans (σ × History Ans) where
  may s := m.may s.1
  can s := m.can s.1
  next s o x := (m.next s.1 o x, s.2 ++ [⟨o, x⟩])

/-- What it has kept at the end led there. -/
theorem Ensures.recorded {m : Monitor Ans σ} {s : σ} {p : Dialogue Op Ans ε α}
    {Q : Except ε α → σ → Prop} (hp : Ensures m p s Q) (h : History Ans) :
    Ensures m.recorded p (s, h) fun r s' => Q r s'.1 ∧ ∃ k, s'.2 = h ++ k ∧ p.Leads k r := by
  induction p generalizing s h with
  | done a => exact ⟨hp, [], (List.append_nil h).symm, rfl, rfl⟩
  | fail e => exact ⟨hp, [], (List.append_nil h).symm, rfl, rfl⟩
  | ask o next ih =>
    refine ⟨hp.1, fun x hx => ?_⟩
    have hrest := ih x (hp.2 x hx) (h ++ [⟨o, x⟩])
    refine hrest.mono fun r s' hr => ⟨hr.1, ?_⟩
    obtain ⟨k, hk, hlead⟩ := hr.2
    exact ⟨⟨o, x⟩ :: k, by rw [hk, List.append_assoc, List.singleton_append], x, k, rfl, hlead⟩

/-- A monitor that also forbids what is outside `φ`. -/
def Monitor.asking (m : Monitor Ans σ) (φ : Op → Prop) : Monitor Ans σ :=
  ⟨fun s o => m.may s o ∧ φ o, m.can, m.next⟩

theorem Ensures.asking {m : Monitor Ans σ} {s : σ} {p : Dialogue Op Ans ε α}
    {Q : Except ε α → σ → Prop} {φ : Op → Prop} (hp : Ensures m p s Q) (ha : p.Asks φ) :
    Ensures (m.asking φ) p s Q := by
  induction p generalizing s with
  | done a => exact hp
  | fail e => exact hp
  | ask o next ih => exact ⟨⟨hp.1, ha.1⟩, fun x hx => ih x (hp.2 x hx) (ha.2 x)⟩

end

/-! ### Handlers -/

section

variable {Op : Type u} {Ans : Op → Type} {Op' : Type u'} {Ans' : Op' → Type v} {ε α τ : Type}

abbrev Handler (Ans : Op → Type) (Ans' : Op' → Type v) (ε τ : Type) :=
  τ → (o : Op) → Dialogue Op' Ans' ε (τ × Ans o)

def handle (f : Handler Ans Ans' ε τ) : Dialogue Op Ans ε α → τ → Dialogue Op' Ans' ε α
  | done a, _ => done a
  | fail e, _ => fail e
  | ask o next, t => f t o >>= fun x => handle f (next x.2) x.1

variable {σ : Type t} {σ' : Type t'} {m : Monitor Ans σ} {m' : Monitor Ans' σ'}

/-- The rule of simulation. Each question the dialogue may ask is answered, by something that
can be answered, so that `R` holds again; then the handled dialogue ends as the dialogue
does, in states that `R` relates. -/
theorem Ensures.handle {f : Handler Ans Ans' ε τ} {R : τ → σ → σ' → Prop}
    (hf : ∀ t s s' o, R t s s' → m.may s o → Ensures m' (f t o) s'
      (Returns fun x s₁' => m.can s o x.2 ∧ R x.1 (m.next s o x.2) s₁'))
    {p : Dialogue Op Ans ε α} {s : σ} {Q : Except ε α → σ → Prop} (hp : Ensures m p s Q)
    {t : τ} {s' : σ'} (hR : R t s s') :
    Ensures m' (p.handle f t) s' fun r s₁' => ∃ t₁ s₁, R t₁ s₁ s₁' ∧ Q r s₁ := by
  induction p generalizing s t s' with
  | done a => exact ⟨t, s, hR, hp⟩
  | fail e => exact ⟨t, s, hR, hp⟩
  | ask o next ih =>
    refine (hf t s s' o hR hp.1).bindReturns fun x s₁' hx => ?_
    exact ih x.2 (hp.2 x.2 hx.1) hx.2

end

end Dialogue

end Audiod
