import Mathlib.Data.List.Basic
import Mathlib.Data.List.Induction
import Mathlib.Tactic.Common

/-!
# Input-driven machines, their runs and their traces

A machine takes one input at a time; the input carries the scheduler's choice
and every answer of the environment, so the step itself is a function. A step
that is not enabled gives `none`. Steps emit observable events; a run collects
them into a trace, oldest first.
-/

namespace Audiod

universe u v w

structure Machine (σ : Type u) (ι : Type v) (ε : Type w) where
  step : σ → ι → Option (σ × List ε)

namespace Machine

variable {σ : Type u} {ι : Type v} {ε : Type w} (M : Machine σ ι ε)

/-- A run over a list of inputs: the state reached and the events emitted. -/
def run : σ → List ι → Option (σ × List ε)
  | s, [] => some (s, [])
  | s, i :: is =>
    match M.step s i with
    | none => none
    | some (mid, e) =>
      match run mid is with
      | none => none
      | some (t, es) => some (t, e ++ es)

/-- Every step of the run is taken from a state where `ok` allows its input. -/
def Meets (ok : σ → ι → Prop) : σ → List ι → Prop
  | _, [] => True
  | s, i :: is => ok s i ∧ ∀ mid e, M.step s i = some (mid, e) → Meets ok mid is

instance decidableMeets {ok : σ → ι → Prop} [∀ s i, Decidable (ok s i)] :
    ∀ (s : σ) (is : List ι), Decidable (M.Meets ok s is)
  | _, [] => isTrue trivial
  | s, i :: is =>
    match h : M.step s i with
    | none => decidable_of_iff (ok s i)
        ⟨fun hok => ⟨hok, fun _ _ hs => by rw [h] at hs; cases hs⟩, fun hm => hm.1⟩
    | some (mid, e) =>
      have : Decidable (M.Meets ok mid is) := decidableMeets mid is
      decidable_of_iff (ok s i ∧ M.Meets ok mid is)
        ⟨fun hm => ⟨hm.1, fun _ _ hs => by rw [h] at hs; cases hs; exact hm.2⟩,
          fun hm => ⟨hm.1, hm.2 mid e h⟩⟩

theorem run_nil (s : σ) : M.run s [] = some (s, []) := rfl

theorem run_cons {s t : σ} {i : ι} {is : List ι} {tr : List ε} :
    M.run s (i :: is) = some (t, tr) ↔
      ∃ mid e es, M.step s i = some (mid, e) ∧ M.run mid is = some (t, es) ∧ tr = e ++ es := by
  constructor
  · intro h
    rw [run] at h
    cases hs : M.step s i with
    | none => simp [hs] at h
    | some p =>
      obtain ⟨mid, e⟩ := p
      cases hr : M.run mid is with
      | none => simp [hs, hr] at h
      | some q =>
        obtain ⟨t', es⟩ := q
        simp only [hs, hr, Option.some.injEq, Prod.mk.injEq] at h
        exact ⟨mid, e, es, rfl, by rw [hr, h.1], h.2.symm⟩
  · rintro ⟨mid, e, es, hs, hr, rfl⟩
    rw [run]
    simp only [hs, hr]

theorem run_append {s mid t : σ} {is js : List ι} {e es : List ε} (h : M.run s is = some (mid, e))
    (h' : M.run mid js = some (t, es)) : M.run s (is ++ js) = some (t, e ++ es) := by
  induction is generalizing s e with
  | nil =>
    cases h
    exact h'
  | cons i is ih =>
    obtain ⟨m, e₁, e₂, hs, hr, rfl⟩ := (run_cons M).mp h
    rw [List.append_assoc]
    exact (run_cons M).mpr ⟨m, e₁, e₂ ++ es, hs, ih hr, rfl⟩

theorem run_append_iff {s t : σ} {is js : List ι} {tr : List ε} :
    M.run s (is ++ js) = some (t, tr) ↔
      ∃ mid e es, M.run s is = some (mid, e) ∧ M.run mid js = some (t, es) ∧ tr = e ++ es := by
  constructor
  · intro h
    induction is generalizing s tr with
    | nil => exact ⟨s, [], tr, rfl, h, rfl⟩
    | cons i is ih =>
      obtain ⟨m, e₁, e₂, hs, hr, rfl⟩ := (run_cons M).mp h
      obtain ⟨mid, e, es, hleft, hright, rfl⟩ := ih hr
      exact ⟨mid, e₁ ++ e, es, (run_cons M).mpr ⟨m, e₁, e, hs, hleft, rfl⟩, hright,
        (List.append_assoc ..).symm⟩
  · rintro ⟨mid, e, es, hleft, hright, rfl⟩
    exact run_append M hleft hright

theorem meets_append {ok : σ → ι → Prop} {s mid : σ} {is js : List ι} {e : List ε}
    (h : M.Meets ok s is) (hrun : M.run s is = some (mid, e)) (h' : M.Meets ok mid js) :
    M.Meets ok s (is ++ js) := by
  induction is generalizing s e with
  | nil =>
    cases hrun
    exact h'
  | cons i is ih =>
    obtain ⟨m, e₁, e₂, hs, hr, rfl⟩ := (run_cons M).mp hrun
    refine ⟨h.1, fun mid' e' hs' => ?_⟩
    rw [hs] at hs'
    cases hs'
    exact ih (h.2 m e₁ hs) hr

theorem Meets.of_append {M : Machine σ ι ε} {ok : σ → ι → Prop} {s mid : σ} {is js : List ι}
    {e : List ε} (h : M.Meets ok s (is ++ js)) (hrun : M.run s is = some (mid, e)) :
    M.Meets ok s is ∧ M.Meets ok mid js := by
  induction is generalizing s e with
  | nil =>
    cases hrun
    exact ⟨trivial, h⟩
  | cons i is ih =>
    obtain ⟨m, e₁, e₂, hs, hr, rfl⟩ := (run_cons M).mp hrun
    obtain ⟨hhead, hrest⟩ := h
    refine ⟨⟨hhead, fun mid' e' hs' => ?_⟩, (ih (hrest m e₁ hs) hr).2⟩
    rw [hs] at hs'
    cases hs'
    exact (ih (hrest m e₁ hs) hr).1

/-- The invariant rule for runs whose every step meets a condition: what one
allowed step keeps, the run keeps. The invariant sees the trace so far. -/
theorem run_inv_of_meets {ok : σ → ι → Prop} {I : σ → List ε → Prop}
    (hstep : ∀ s tr i s' e, ok s i → I s tr → M.step s i = some (s', e) → I s' (tr ++ e))
    {s t : σ} {tr es : List ε} {is : List ι} (hI : I s tr) (hok : M.Meets ok s is)
    (hrun : M.run s is = some (t, es)) : I t (tr ++ es) := by
  induction is generalizing s tr es with
  | nil =>
    simp only [run_nil, Option.some.injEq, Prod.mk.injEq] at hrun
    obtain ⟨rfl, rfl⟩ := hrun
    simpa using hI
  | cons i is ih =>
    obtain ⟨mid, e, es', hs, hr, rfl⟩ := (run_cons M).mp hrun
    have hmid : I mid (tr ++ e) := hstep s tr i mid e hok.1 hI hs
    have hend : I t (tr ++ e ++ es') := ih hmid (hok.2 mid e hs) hr
    rwa [List.append_assoc] at hend

theorem meets_true (s : σ) (is : List ι) : M.Meets (fun _ _ => True) s is := by
  induction is generalizing s with
  | nil => trivial
  | cons i is ih => exact ⟨trivial, fun mid _ _ => ih mid⟩

theorem Meets.mono {M : Machine σ ι ε} {ok ok' : σ → ι → Prop} {s : σ} {is : List ι}
    (hm : M.Meets ok s is) (h : ∀ s i, ok s i → ok' s i) : M.Meets ok' s is := by
  induction is generalizing s with
  | nil => trivial
  | cons i is ih => exact ⟨h s i hm.1, fun mid e he => ih (hm.2 mid e he)⟩

theorem Meets.and_of_all {M : Machine σ ι ε} {ok : σ → ι → Prop} {ok' : ι → Prop} {s : σ}
    {is : List ι} (hm : M.Meets ok s is) (h : ∀ i ∈ is, ok' i) :
    M.Meets (fun s i => ok' i ∧ ok s i) s is := by
  induction is generalizing s with
  | nil => trivial
  | cons i is ih =>
    exact ⟨⟨h i (List.mem_cons_self ..), hm.1⟩,
      fun mid e he => ih (hm.2 mid e he) fun j hj => h j (List.mem_cons_of_mem _ hj)⟩

theorem Meets.and {M : Machine σ ι ε} {ok ok' : σ → ι → Prop} {s : σ} {is : List ι}
    (h : M.Meets ok s is) (h' : M.Meets ok' s is) : M.Meets (fun s i => ok s i ∧ ok' s i) s is := by
  induction is generalizing s with
  | nil => trivial
  | cons i is ih => exact ⟨⟨h.1, h'.1⟩, fun mid e he => ih (h.2 mid e he) (h'.2 mid e he)⟩

theorem meets_of_all {ok : ι → Prop} (s : σ) (is : List ι) (h : ∀ i ∈ is, ok i) :
    M.Meets (fun _ i => ok i) s is := by
  induction is generalizing s with
  | nil => trivial
  | cons i is ih =>
    exact ⟨h i (List.mem_cons_self ..),
      fun mid _ _ => ih mid fun j hj => h j (List.mem_cons_of_mem _ hj)⟩

/- The unconditional invariant rule. -/
theorem run_inv {I : σ → List ε → Prop}
    (hstep : ∀ s tr i s' e, I s tr → M.step s i = some (s', e) → I s' (tr ++ e))
    {s t : σ} {tr es : List ε} {is : List ι} (hI : I s tr)
    (hrun : M.run s is = some (t, es)) : I t (tr ++ es) :=
  M.run_inv_of_meets (fun s tr i s' e _ hI hs => hstep s tr i s' e hI hs) hI
    (M.meets_true s is) hrun

/-- And where it sees the inputs so far as well. -/
theorem run_inv_inputs {I : σ → List ι → List ε → Prop}
    (hstep : ∀ s js tr i s' e, I s js tr → M.step s i = some (s', e) →
      I s' (js ++ [i]) (tr ++ e))
    {s t : σ} {is js : List ι} {tr es : List ε} (hI : I s js tr)
    (hrun : M.run s is = some (t, es)) : I t (js ++ is) (tr ++ es) := by
  induction is generalizing s js tr es with
  | nil =>
    cases hrun
    simpa using hI
  | cons i is ih =>
    obtain ⟨mid, e, es', hs, hr, rfl⟩ := (run_cons M).mp hrun
    have hend := ih (hstep s js tr i mid e hI hs) hr
    rwa [List.append_assoc, List.append_assoc] at hend

theorem run_state_inv_of_meets {ok : σ → ι → Prop} {J : σ → Prop}
    (hstep : ∀ s i s' e, ok s i → J s → M.step s i = some (s', e) → J s') {s t : σ} {es : List ε}
    {is : List ι} (hJ : J s) (hok : M.Meets ok s is) (hrun : M.run s is = some (t, es)) : J t :=
  @run_inv_of_meets _ _ _ M ok (fun s _ => J s) (fun s _ i s' e hi hJ hs => hstep s i s' e hi hJ hs)
    s t [] es is hJ hok hrun

theorem run_state_inv {J : σ → Prop} (hstep : ∀ s i s' e, J s → M.step s i = some (s', e) → J s')
    {s t : σ} {es : List ε} {is : List ι} (hJ : J s) (hrun : M.run s is = some (t, es)) : J t :=
  @run_inv _ _ _ M (fun s _ => J s) (fun s _ i s' e hJ hs => hstep s i s' e hJ hs) s t [] es is
    hJ hrun

/-- Where every step's events are as `P` wants exactly if `ok` allows the step, so
are those of a run exactly if `ok` allows each of its steps. The invariant may end
with the first step that is not allowed. -/
theorem forall_events_iff_meets_while {ok : σ → ι → Prop} {I : σ → Prop} {P : ε → Prop}
    (hI : ∀ s i s' e, ok s i → I s → M.step s i = some (s', e) → I s')
    (hP : ∀ s i s' e, I s → M.step s i = some (s', e) → ((∀ x ∈ e, P x) ↔ ok s i))
    {s t : σ} {tr : List ε} {is : List ι} (hs : I s) (hrun : M.run s is = some (t, tr)) :
    (∀ x ∈ tr, P x) ↔ M.Meets ok s is := by
  induction is generalizing s tr with
  | nil =>
    simp only [run_nil, Option.some.injEq, Prod.mk.injEq] at hrun
    obtain ⟨-, rfl⟩ := hrun
    exact iff_of_true nofun trivial
  | cons i is ih =>
    obtain ⟨mid, e, es, hstep, hr, rfl⟩ := (run_cons M).mp hrun
    have hhead := hP s i mid e hs hstep
    rw [List.forall_mem_append, hhead]
    constructor
    · rintro ⟨hok, htail⟩
      refine ⟨hok, fun mid' e' h' => ?_⟩
      rw [hstep] at h'
      cases h'
      exact (ih (hI s i mid e hok hs hstep) hr).mp htail
    · rintro ⟨hok, hm⟩
      exact ⟨hok, (ih (hI s i mid e hok hs hstep) hr).mpr (hm mid e hstep)⟩

theorem forall_events_iff_meets {ok : σ → ι → Prop} {J : σ → Prop} {P : ε → Prop}
    (hJ : ∀ s i s' e, J s → M.step s i = some (s', e) → J s')
    (hP : ∀ s i s' e, J s → M.step s i = some (s', e) → ((∀ x ∈ e, P x) ↔ ok s i))
    {s t : σ} {tr : List ε} {is : List ι} (hs : J s) (hrun : M.run s is = some (t, tr)) :
    (∀ x ∈ tr, P x) ↔ M.Meets ok s is :=
  M.forall_events_iff_meets_while (fun s i s' e _ => hJ s i s' e) hP hs hrun

/-- A run that starts where `J` holds, keeps it in every step but those at `goal`, and ends
where `J` does not hold, goes through such a step. -/
theorem run_passes {ok : σ → ι → Prop} {J : σ → Prop} {goal : σ → ι → Prop}
    (hstep : ∀ s i s' e, ok s i → J s → ¬goal s i → M.step s i = some (s', e) → J s')
    {s t : σ} {is : List ι} {tr : List ε} (hJ : J s) (hok : M.Meets ok s is)
    (hrun : M.run s is = some (t, tr)) (hend : ¬J t) :
    ∃ a i b mid e es, is = a ++ i :: b ∧ M.run s a = some (mid, e) ∧
      M.run mid (i :: b) = some (t, es) ∧ M.Meets ok mid (i :: b) ∧ J mid ∧ goal mid i := by
  induction is generalizing s tr with
  | nil =>
    simp only [run_nil, Option.some.injEq, Prod.mk.injEq] at hrun
    exact absurd (hrun.1 ▸ hJ) hend
  | cons i is ih =>
    by_cases hgoal : goal s i
    · exact ⟨[], i, is, s, [], tr, rfl, rfl, hrun, hok, hJ, hgoal⟩
    · obtain ⟨mid, e, es, hs, hr, -⟩ := (run_cons M).mp hrun
      obtain ⟨a, j, b, m, e', es', rfl, ha, hb, hm, hJm, hg⟩ :=
        ih (hstep s i mid e hok.1 hJ hgoal hs) (hok.2 mid e hs) hr
      exact ⟨i :: a, j, b, m, e ++ e', es', rfl, (run_cons M).mpr ⟨mid, e, e', hs, ha, rfl⟩, hb,
        hm, hJm, hg⟩

/-! ### What holds throughout a run -/

/-- Every state that the run goes through, its first and its last among them. -/
def Throughout (J : σ → Prop) (s : σ) (is : List ι) : Prop :=
  ∀ js mid e, js <+: is → M.run s js = some (mid, e) → J mid

theorem throughout_nil {J : σ → Prop} {s : σ} : M.Throughout J s [] ↔ J s := by
  constructor
  · intro h
    exact h [] s [] (List.prefix_refl _) rfl
  · intro h js mid e hjs hrun
    rw [List.prefix_nil.mp hjs] at hrun
    cases hrun
    exact h

theorem throughout_cons {J : σ → Prop} {s mid : σ} {i : ι} {is : List ι} {e : List ε}
    (hs : M.step s i = some (mid, e)) :
    M.Throughout J s (i :: is) ↔ J s ∧ M.Throughout J mid is := by
  constructor
  · intro h
    refine ⟨h [] s [] (List.nil_prefix) rfl, fun js t es hjs hrun => ?_⟩
    exact h (i :: js) t (e ++ es) (List.cons_prefix_cons.mpr ⟨rfl, hjs⟩)
      ((run_cons M).mpr ⟨mid, e, es, hs, hrun, rfl⟩)
  · rintro ⟨hJ, htail⟩ js t es hjs hrun
    cases js with
    | nil =>
      cases hrun
      exact hJ
    | cons j js =>
      obtain ⟨rfl, hrest⟩ := List.cons_prefix_cons.mp hjs
      obtain ⟨mid', e₁, e₂, hs', hr, -⟩ := (run_cons M).mp hrun
      rw [hs] at hs'
      cases hs'
      exact htail js t e₂ hrest hr

/-- Where a step keeps the invariant exactly if its events are as `P` wants, it holds
throughout a run exactly if it holds at its start and the trace is as `P` wants. -/
theorem throughout_iff {J : σ → Prop} {P : ε → Prop}
    (hstep : ∀ s i s' e, J s → M.step s i = some (s', e) → (J s' ↔ ∀ x ∈ e, P x))
    {s t : σ} {is : List ι} {tr : List ε} (hrun : M.run s is = some (t, tr)) :
    M.Throughout J s is ↔ J s ∧ ∀ x ∈ tr, P x := by
  induction is generalizing s tr with
  | nil =>
    cases hrun
    rw [throughout_nil]
    exact (and_iff_left (List.forall_mem_nil _)).symm
  | cons i is ih =>
    obtain ⟨mid, e, es, hs, hr, rfl⟩ := (run_cons M).mp hrun
    rw [throughout_cons M hs, ih hr, List.forall_mem_append]
    constructor
    · rintro ⟨hJ, hmid, hes⟩
      exact ⟨hJ, (hstep s i mid e hJ hs).mp hmid, hes⟩
    · rintro ⟨hJ, he, hes⟩
      exact ⟨hJ, (hstep s i mid e hJ hs).mpr he, hes⟩

/-! ### Conditions that see the trace -/

/-- Every step of the run is taken from a state where `ok`, which also sees the
trace so far, allows its input. -/
def Heeds (ok : σ → List ε → ι → Prop) : σ → List ε → List ι → Prop
  | _, _, [] => True
  | s, tr, i :: is =>
    ok s tr i ∧ ∀ mid e, M.step s i = some (mid, e) → Heeds ok mid (tr ++ e) is

instance decidableHeeds {ok : σ → List ε → ι → Prop} [∀ s tr i, Decidable (ok s tr i)] :
    ∀ (s : σ) (tr : List ε) (is : List ι), Decidable (M.Heeds ok s tr is)
  | _, _, [] => isTrue trivial
  | s, tr, i :: is =>
    match h : M.step s i with
    | none => decidable_of_iff (ok s tr i)
        ⟨fun hok => ⟨hok, fun _ _ hs => by rw [h] at hs; cases hs⟩, fun hm => hm.1⟩
    | some (mid, e) =>
      have : Decidable (M.Heeds ok mid (tr ++ e) is) := decidableHeeds mid (tr ++ e) is
      decidable_of_iff (ok s tr i ∧ M.Heeds ok mid (tr ++ e) is)
        ⟨fun hm => ⟨hm.1, fun _ _ hs => by rw [h] at hs; cases hs; exact hm.2⟩,
          fun hm => ⟨hm.1, hm.2 mid e h⟩⟩

theorem Heeds.and_of_all {M : Machine σ ι ε} {ok : σ → List ε → ι → Prop} {ok' : ι → Prop}
    {s : σ} {tr : List ε} {is : List ι} (hm : M.Heeds ok s tr is) (h : ∀ i ∈ is, ok' i) :
    M.Heeds (fun s tr i => ok' i ∧ ok s tr i) s tr is := by
  induction is generalizing s tr with
  | nil => trivial
  | cons i is ih =>
    exact ⟨⟨h i (List.mem_cons_self ..), hm.1⟩,
      fun mid e he => ih (hm.2 mid e he) fun j hj => h j (List.mem_cons_of_mem _ hj)⟩

theorem run_inv_of_heeds {ok : σ → List ε → ι → Prop} {I : σ → List ε → Prop}
    (hstep : ∀ s tr i s' e, ok s tr i → I s tr → M.step s i = some (s', e) → I s' (tr ++ e))
    {s t : σ} {tr es : List ε} {is : List ι} (hI : I s tr) (hok : M.Heeds ok s tr is)
    (hrun : M.run s is = some (t, es)) : I t (tr ++ es) := by
  induction is generalizing s tr es with
  | nil =>
    simp only [run_nil, Option.some.injEq, Prod.mk.injEq] at hrun
    obtain ⟨rfl, rfl⟩ := hrun
    simpa using hI
  | cons i is ih =>
    obtain ⟨mid, e, es', hs, hr, rfl⟩ := (run_cons M).mp hrun
    have hmid : I mid (tr ++ e) := hstep s tr i mid e hok.1 hI hs
    have hend : I t (tr ++ e ++ es') := ih hmid (hok.2 mid e hs) hr
    rwa [List.append_assoc] at hend

theorem run_total_of_inv {J : σ → Prop} (hJ : ∀ s i s' e, J s → M.step s i = some (s', e) → J s')
    (h : ∀ s i, J s → ∃ s' e, M.step s i = some (s', e)) {s : σ} (hs : J s) (is : List ι) :
    ∃ t es, M.run s is = some (t, es) := by
  induction is generalizing s with
  | nil => exact ⟨s, [], rfl⟩
  | cons i is ih =>
    obtain ⟨mid, e, hstep⟩ := h s i hs
    obtain ⟨t, es, hr⟩ := ih (hJ s i mid e hs hstep)
    exact ⟨t, e ++ es, (run_cons M).mpr ⟨mid, e, es, hstep, hr, rfl⟩⟩

theorem run_total (h : ∀ s i, ∃ s' e, M.step s i = some (s', e)) (s : σ) (is : List ι) :
    ∃ t es, M.run s is = some (t, es) :=
  M.run_total_of_inv (J := fun _ => True) (fun _ _ _ _ _ _ => trivial) (fun s i _ => h s i)
    trivial is

/-- Where no step raises the rank and the good ones lower it, more good steps than the rank
bring a run to its end. -/
theorem run_ends {J ends : σ → Prop} {ok : ι → Prop} {good : ι → Bool} {rank : σ → ℕ}
    (hJ : ∀ s i s' e, ok i → J s → M.step s i = some (s', e) → J s')
    (hends : ∀ s i s' e, ends s → M.step s i = some (s', e) → ends s')
    (hrank : ∀ s i s' e, ok i → J s → ¬ends s → M.step s i = some (s', e) →
      rank s' + (good i).toNat ≤ rank s)
    {s t : σ} {is : List ι} {es : List ε} (hs : J s) (hok : ∀ i ∈ is, ok i)
    (hrun : M.run s is = some (t, es)) (hcount : rank s < is.countP good) : ends t := by
  induction is generalizing s es with
  | nil => simp at hcount
  | cons i is ih =>
    obtain ⟨mid, e, es', hstep, hr, rfl⟩ := (run_cons M).mp hrun
    obtain ⟨hi, hrest⟩ := List.forall_mem_cons.mp hok
    by_cases hend : ends s
    · exact M.run_state_inv (fun s i s' e h hs => hends s i s' e h hs)
        (hends s i mid e hend hstep) hr
    · have hlow := hrank s i mid e hi hs hend hstep
      rw [List.countP_cons] at hcount
      refine ih (hJ s i mid e hi hs hstep) hrest hr ?_
      cases hg : good i with
      | true =>
        rw [hg] at hlow hcount
        simp only [Bool.toNat_true, if_true] at hlow hcount
        omega
      | false =>
        rw [hg] at hlow hcount
        simp only [Bool.toNat_false, Bool.false_eq_true, if_false] at hlow hcount
        omega

/-! ### Refinement -/

/-- Two machines that step together, with the same events, run together: where one
is stuck the other is. -/
theorem run_refines {τ : Type*} {N : Machine τ ι ε} {R : σ → τ → Prop}
    (hstep : ∀ s t i, R s t →
      Option.Rel (fun p q => R p.1 q.1 ∧ p.2 = q.2) (M.step s i) (N.step t i))
    {s : σ} {t : τ} (hR : R s t) (is : List ι) :
    Option.Rel (fun p q => R p.1 q.1 ∧ p.2 = q.2) (M.run s is) (N.run t is) := by
  induction is generalizing s t with
  | nil => exact .some ⟨hR, rfl⟩
  | cons i is ih =>
    have h := hstep s t i hR
    rw [run, run]
    generalize M.step s i = p, N.step t i = q at h
    cases h with
    | none => exact .none
    | @some p q hpq =>
      obtain ⟨hR', he⟩ := hpq
      have hrest := ih hR'
      dsimp only
      generalize M.run p.1 is = x, N.run q.1 is = y at hrest
      cases hrest with
      | none => exact .none
      | @some x y hxy => exact .some ⟨hxy.1, by rw [he, hxy.2]⟩

/-- Some inputs left out: `keep` holds of those that stay, `skip` of the others. -/
inductive Thinned (keep skip : ι → Prop) : List ι → List ι → Prop
  | nil : Thinned keep skip [] []
  | keep {i : ι} {is js : List ι} (h : keep i) (rest : Thinned keep skip is js) :
      Thinned keep skip (i :: is) (i :: js)
  | skip {i : ι} {is js : List ι} (h : skip i) (rest : Thinned keep skip is js) :
      Thinned keep skip (i :: is) js

/-- A machine that can follow every step, with the same events, or stay where it is
when none of the step's events is shown, follows a run with the same events shown. -/
theorem run_thinned {τ : Type*} {N : Machine τ ι ε} {ok : σ → ι → Prop} {R : σ → τ → Prop}
    {keep skip : ι → Prop} {shown : ε → Bool}
    (hstep : ∀ s t i s' e, ok s i → R s t → M.step s i = some (s', e) →
      (keep i ∧ e.filter shown = e ∧ ∃ t', N.step t i = some (t', e) ∧ R s' t') ∨
        (skip i ∧ e.filter shown = [] ∧ R s' t))
    {s s' : σ} {t : τ} {is : List ι} {tr : List ε} (hR : R s t) (hok : M.Meets ok s is)
    (hrun : M.run s is = some (s', tr)) :
    ∃ js t', Thinned keep skip is js ∧ N.run t js = some (t', tr.filter shown) ∧ R s' t' := by
  induction is generalizing s t tr with
  | nil =>
    cases hrun
    exact ⟨[], t, .nil, rfl, hR⟩
  | cons i is ih =>
    obtain ⟨mid, e, es, hs, hr, rfl⟩ := (run_cons M).mp hrun
    rw [List.filter_append]
    rcases hstep s t i mid e hok.1 hR hs with ⟨hkeep, he, t₁, ht, hR'⟩ | ⟨hskip, he, hR'⟩
    · obtain ⟨js, t', hthin, hjs, hend⟩ := ih hR' (hok.2 mid e hs) hr
      rw [he]
      exact ⟨i :: js, t', .keep hkeep hthin, (run_cons N).mpr ⟨t₁, e, _, ht, hjs, rfl⟩, hend⟩
    · obtain ⟨js, t', hthin, hjs, hend⟩ := ih hR' (hok.2 mid e hs) hr
      rw [he]
      exact ⟨js, t', .skip hskip hthin, hjs, hend⟩

end Machine

/-! ### Properties of every event of a trace -/

/-- `P` holds of each event together with the trace before it. -/
def Always {ε : Type w} (P : List ε → ε → Prop) (tr : List ε) : Prop :=
  ∀ pre e post, tr = pre ++ e :: post → P pre e

section Always

variable {ε : Type w} {P : List ε → ε → Prop}

theorem always_nil : Always P [] := by
  intro pre e post h
  simp at h

theorem always_concat {tr : List ε} {e : ε} : Always P (tr ++ [e]) ↔ Always P tr ∧ P tr e := by
  constructor
  · intro h
    refine ⟨fun pre x post hx => h pre x (post ++ [e]) ?_, h tr e [] rfl⟩
    rw [hx]
    simp
  · rintro ⟨h, he⟩ pre x post hx
    rcases List.eq_nil_or_concat post with rfl | ⟨post', y, rfl⟩
    · obtain ⟨rfl, hxe⟩ := List.append_inj' hx rfl
      cases hxe
      exact he
    · have hx' : tr ++ [e] = (pre ++ x :: post') ++ [y] := by simpa using hx
      exact h pre x post' (List.append_inj' hx' rfl).1

theorem Always.append_of_forall {tr es : List ε} (h : Always P tr)
    (hes : ∀ pre e post, es = pre ++ e :: post → P (tr ++ pre) e) : Always P (tr ++ es) := by
  induction es using List.reverseRecOn with
  | nil => simpa using h
  | append_singleton es e ih =>
    rw [← List.append_assoc, always_concat]
    refine ⟨ih fun pre x post hx => hes pre x (post ++ [e]) (by rw [hx]; simp), ?_⟩
    exact hes es e [] rfl

theorem Always.append_le_one {tr es : List ε} (h : Always P tr) (hlen : es.length ≤ 1)
    (hes : ∀ e ∈ es, P tr e) : Always P (tr ++ es) := by
  match es, hlen with
  | [], _ => simpa using h
  | [e], _ => exact always_concat.mpr ⟨h, hes e (List.mem_singleton_self e)⟩

end Always

end Audiod
