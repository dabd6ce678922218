import Audiod.MixerSlots
import Audiod.Volume
import Audiod.Wire
import Mathlib.Data.Nat.Digits.Defs

/-!
# What a STATUS reply is made of (`server/src/main.rs:367-387`)

The numbers of a reply are loaded one after the other, while every other thread goes on. Each
of them is one that `STATE` held at some moment after the command was applied, in the order
of the loads; all of them together it may never have held. They are short: a reply is far
from the 4 GiB its length could say.
-/

namespace Audiod.Daemon

/-! ### The loads of a reply -/

section

variable (σ δ : Type*) [PackArith σ] [WideArith δ] [FloatCasts δ σ] (u : Setup) (volume : F32)

/-- What the threads share after these inputs. -/
def Moment (js : List Input) (g : Shared) : Prop :=
  ∃ s es, (Server.machine δ u).run (Server.init volume : Server σ) js = some (s, es) ∧
    s.shared = g

/-- And a STATUS of connection `c` was applied by then. -/
def Requested (c : ℕ) (js : List Input) : Prop :=
  ∃ s es, (Server.machine δ u).run (Server.init volume : Server σ) js = some (s, es) ∧
    .thread c (.applied .status) ∈ es

/-- The loads that `st` has behind it, the last one first, made after `js` at the latest. -/
inductive Loaded (c : ℕ) : List Input → List Load → Status → Prop
  | asked {js : List Input} (h : Requested σ δ u volume c js) : Loaded c js [] .none
  | load {js js' : List Input} {done : List Load} {st : Status} {g : Shared} (l : Load)
      (before : Loaded c js done st) (later : js <+: js') (now : Moment σ δ u volume js' g) :
      Loaded c js' (l :: done) (l.into g st)

/-- The numbers of `st` were loaded in a run of `is`, in the order of the source and after a
STATUS of connection `c` was applied. -/
def Observed (c : ℕ) (is : List Input) (st : Status) : Prop :=
  ∃ (upTo : Load → List Input) (g : Load → Shared), (∀ l, Moment σ δ u volume (upTo l) (g l)) ∧
    (∃ js, Requested σ δ u volume c js ∧ js <+: upTo .muted) ∧
    upTo .muted <+: upTo .volume ∧ upTo .volume <+: upTo .frames ∧
    upTo .frames <+: upTo .delay ∧ upTo .delay <+: upTo .clients ∧ upTo .clients <+: is ∧
    st = ⟨(g .muted).mixer.muted, (g .volume).mixer.volume, (g .clients).mixer.live,
      (g .frames).totalFrames, (g .delay).mixer.lastDelay⟩

variable {σ δ u volume}

theorem Loaded.observed {c : ℕ} {js is : List Input} {st : Status}
    (h : Loaded σ δ u volume c js statusLoads.reverse st) (his : js <+: is) :
    Observed σ δ u volume c is st := by
  cases h with
  | @load js₄ _ _ _ g₅ _ h₄ hle₅ hnow₅ =>
  cases h₄ with
  | @load js₃ _ _ _ g₄ _ h₃ hle₄ hnow₄ =>
  cases h₃ with
  | @load js₂ _ _ _ g₃ _ h₂ hle₃ hnow₃ =>
  cases h₂ with
  | @load js₁ _ _ _ g₂ _ h₁ hle₂ hnow₂ =>
  cases h₁ with
  | @load js₀ _ _ _ g₁ _ h₀ hle₁ hnow₁ =>
  cases h₀ with
  | asked hasked =>
    let upTo : Load → List Input := fun l => l.rec js₁ js₂ js₃ js₄ js
    let g : Load → Shared := fun l => l.rec g₁ g₂ g₃ g₄ g₅
    refine ⟨upTo, g, fun l => ?_, ⟨js₀, hasked, hle₁⟩, hle₂, hle₃, hle₄, hle₅, his, rfl⟩
    cases l
    · exact hnow₁
    · exact hnow₂
    · exact hnow₃
    · exact hnow₄
    · exact hnow₅

variable (σ δ u volume) in
/-- A thread that is at a STATUS has made the loads it has no longer to do, and every answer
was given after all of them. -/
structure Loading (s : Server σ) (js : List Input) (tr : List Event) : Prop where
  run : (Server.machine δ u).run (Server.init volume : Server σ) js = some (s, tr)
  threads : ∀ c q todo st, s.threads c = some (.status q todo st) →
    ∃ done js', statusLoads = done.reverse ++ todo ∧ js' <+: js ∧
      Loaded σ δ u volume c js' done st
  answers : ∀ c st, .thread c (.answered st) ∈ tr →
    ∃ js', js' <+: js ∧ Loaded σ δ u volume c js' statusLoads.reverse st

theorem loading_init : Loading σ δ u volume (Server.init volume : Server σ) [] [] :=
  ⟨rfl, (fun _ _ _ _ h => by cases h), fun _ _ h => (List.not_mem_nil h).elim⟩

theorem Loading.step {s s' : Server σ} {js : List Input} {tr es : List Event} {i : Input}
    (h : Loading σ δ u volume s js tr) (hs : s.step δ u i = some (s', es)) :
    Loading σ δ u volume s' (js ++ [i]) (tr ++ es) := by
  obtain ⟨hanswered, hstatus⟩ := Server.step_status hs
  have hone : (Server.machine δ u).run s [i] = some (s', es) :=
    (Server.machine δ u).run_cons.mpr ⟨s', es, [], hs, rfl, (List.append_nil es).symm⟩
  have hrun := (Server.machine δ u).run_append h.run hone
  have hmore : js <+: js ++ [i] := List.prefix_append ..
  refine ⟨hrun, fun c q todo st hth => ?_, fun c st hst => ?_⟩
  · rcases hstatus c q todo st hth with hold | ⟨rfl, rfl, happlied⟩ | ⟨l, st₀, hold, rfl⟩
    · obtain ⟨done, js', hdone, hle, hloaded⟩ := h.threads c q todo st hold
      exact ⟨done, js', hdone, hle.trans hmore, hloaded⟩
    · exact ⟨[], js ++ [i], rfl, List.prefix_rfl,
        .asked ⟨s', tr ++ es, hrun, List.mem_append_right _ happlied⟩⟩
    · obtain ⟨done, js', hdone, hle, hloaded⟩ := h.threads c q (l :: todo) st₀ hold
      refine ⟨l :: done, js, ?_, hmore, hloaded.load l hle ⟨s, tr, h.run, rfl⟩⟩
      rw [hdone, List.reverse_cons, List.append_assoc, List.singleton_append]
  · rcases List.mem_append.mp hst with hold | hnew
    · obtain ⟨js', hle, hloaded⟩ := h.answers c st hold
      exact ⟨js', hle.trans hmore, hloaded⟩
    · obtain ⟨q, hth⟩ := hanswered c st hnew
      obtain ⟨done, js', hdone, hle, hloaded⟩ := h.threads c q [] st hth
      rw [List.append_nil] at hdone
      refine ⟨js', hle.trans hmore, ?_⟩
      rw [hdone, List.reverse_reverse]
      exact hloaded

theorem run_observed {t : Server σ} {is : List Input} {tr : List Event}
    (hrun : (Server.machine δ u).run (Server.init volume : Server σ) is = some (t, tr)) {c : ℕ}
    {st : Status} (hst : .thread c (.answered st) ∈ tr) : Observed σ δ u volume c is st := by
  have hend := (Server.machine δ u).run_inv_inputs (I := Loading σ δ u volume)
    (fun _ _ _ _ _ _ h hs => h.step hs) loading_init hrun
  obtain ⟨js, hle, hloaded⟩ := hend.answers c st hst
  exact hloaded.observed hle

end

/-! ### The width of the numbers -/

/-- The ranges of the types in `STATE`; a volume is a percentage or a NaN. -/
structure Status.Fits (st : Status) : Prop where
  volume : st.volume = .nan ∨ InPercent st.volume
  clients : st.clients < 2 ^ 64
  totalFrames : st.totalFrames < 2 ^ 64
  delayFrames : st.delayFrames.natAbs ≤ 2 ^ 63

theorem natText_length {n e : ℕ} (he : 0 < e) (h : n < 10 ^ e) : (natText n).length ≤ e :=
  Nat.toDigits_length 10 n e he h

theorem boolText_length (b : Bool) : (boolText b).length ≤ 5 := by
  cases b <;> decide

theorem str_length (out : OutputPath) : out.str.length ≤ 9 := by
  cases out <;> decide

theorem intText_length {i : ℤ} (h : i.natAbs ≤ 2 ^ 63) : (intText i).length ≤ 20 := by
  have hdigits : (natText i.natAbs).length ≤ 19 := natText_length (by norm_num) (by omega)
  unfold intText
  split
  · rw [List.length_cons]
    omega
  · omega

theorem fixed3_length (negZero : Bool) {v : F32} (h : v = .nan ∨ InPercent v) :
    (fixed3 negZero v).length ≤ 8 := by
  rcases h with rfl | ⟨q, rfl, h0, h100⟩
  · exact (by decide : "NaN".toList.length ≤ 8)
  · have hn : roundHalfEven (|q| * 1000) ≤ 100000 := by
      have hlow : ((0 : ℤ) : ℚ) ≤ q * 1000 := by push_cast; linarith
      have hhigh : q * 1000 ≤ ((100000 : ℤ) : ℚ) := by push_cast; linarith
      rw [abs_of_nonneg h0]
      exact (F32.roundHalfEven_between hlow hhigh).2
    have hint : (natText ((roundHalfEven (|q| * 1000)).toNat / 1000)).length ≤ 3 :=
      natText_length (by norm_num) (by omega)
    have hsign : (if q < 0 ∨ q = 0 ∧ negZero then ['-'] else []).length ≤ 1 := by
      split <;> decide
    simp only [fixed3, List.length_append, List.length_cons, List.length_map, List.length_nil]
    omega

theorem statusText_length (negZero : Bool) (out : OutputPath) {st : Status} (h : st.Fits) :
    (statusText negZero out st).length < 256 := by
  have hmuted := boolText_length st.muted
  have hvolume := fixed3_length negZero h.volume
  have hactive := boolText_length (decide (0 < st.clients))
  have hclients : (natText st.clients).length ≤ 20 :=
    natText_length (by norm_num) (by have := h.clients; omega)
  have hframes : (natText st.totalFrames).length ≤ 20 :=
    natText_length (by norm_num) (by have := h.totalFrames; omega)
  have hdelay := intText_length h.delayFrames
  have hout := str_length out
  have hnames : "\x7b\x22muted\x22:".toList.length ≤ 16 ∧
      ",\x22volume\x22:".toList.length ≤ 16 ∧ ",\x22active\x22:".toList.length ≤ 16 ∧
      ",\x22clients\x22:".toList.length ≤ 16 ∧ ",\x22total_frames\x22:".toList.length ≤ 16 ∧
      ",\x22delay_frames\x22:".toList.length ≤ 16 ∧
      ",\x22output\x22:\x22".toList.length ≤ 16 ∧ "\x22\x7d".toList.length ≤ 16 := by decide
  unfold statusText
  generalize "\x7b\x22muted\x22:".toList = a, ",\x22volume\x22:".toList = b,
    ",\x22active\x22:".toList = c, ",\x22clients\x22:".toList = d,
    ",\x22total_frames\x22:".toList = e, ",\x22delay_frames\x22:".toList = f,
    ",\x22output\x22:\x22".toList = g, "\x22\x7d".toList = k at hnames ⊢
  simp only [List.length_append]
  omega

/-! ### Their ranges in a run -/

/-- A delay is an `i64`. -/
def Input.Fits : Input → Prop
  | .mix delay => delay.natAbs ≤ 2 ^ 63
  | _ => True

section

open Mixer (Mix SlotsInv)

/-- The mixer's numbers after `n` steps: no more clients are counted than were registered. -/
structure Counted (n : ℕ) (m : Mix) : Prop where
  slots : SlotsInv m
  live : m.live ≤ m.registered
  registered : m.registered ≤ n
  delay : m.lastDelay.natAbs ≤ 2 ^ 63

theorem counted_init (volume : F32) : Counted 0 (Mix.init volume) :=
  ⟨Mixer.slotsInv_init volume, le_rfl, le_rfl, by norm_num [Mix.init]⟩

/- A stream has one slot, so there are no more slots than streams. -/
theorem slots_le_registered {m : Mix} (h : SlotsInv m) : m.slots.length ≤ m.registered := by
  have hsub : m.slots ⊆ List.range m.registered := fun s hs =>
    List.mem_range.mpr (h.registered s (List.mem_append_left _ hs))
  have hle := (List.nodup_append.mp h.unique).1.length_le_of_subset hsub
  rwa [List.length_range] at hle

theorem mix_counts (m : Mix) (delay : ℤ) :
    (m.mix delay).1.registered = m.registered ∧
    ((m.mix delay).1.live = m.live ∨
      ∃ kept, m.pc = .retain [] kept ∧ (m.mix delay).1.live = kept.length) ∧
    ((m.mix delay).1.lastDelay = m.lastDelay ∨ (m.mix delay).1.lastDelay = 0 ∨
      (m.mix delay).1.lastDelay = delay) := by
  cases hpc : m.pc with
  | retain todo kept =>
    cases todo with
    | nil => exact ⟨by simp [Mix.mix, hpc], .inr ⟨kept, rfl, by simp [Mix.mix, hpc]⟩,
        .inl (by simp [Mix.mix, hpc])⟩
    | cons s todo =>
      simp only [Mix.mix, hpc]
      split <;> simp
  | _ =>
    simp only [Mix.mix, hpc]
    repeat' split
    all_goals simp [Mix.halted, Mix.setStream]

theorem Counted.step {n : ℕ} {m m' : Mix} {j : Mixer.Input} {es : List Mixer.Event}
    (h : Counted n m) (hs : Mixer.step m j = some (m', es))
    (hj : ∀ delay, j = .mix delay → delay.natAbs ≤ 2 ^ 63) : Counted (n + 1) m' := by
  have hslots := h.slots.step hs
  have hle := h.live
  have hreg := h.registered
  cases j with
  | mix delay =>
    have heq : m.mix delay = (m', es) := Option.some.inj hs
    obtain ⟨hsame, hlive, hdelay⟩ := mix_counts m delay
    rw [heq] at hsame hlive hdelay
    refine ⟨hslots, ?_, by rw [hsame]; omega, ?_⟩
    · rw [hsame]
      rcases hlive with hold | ⟨kept, hpc, hnew⟩
      · rw [hold]
        exact hle
      · have hkept := h.slots.loop
        rw [hpc, Mixer.Pc.Within, List.append_nil] at hkept
        rw [hnew]
        exact hkept.length_le.trans (slots_le_registered h.slots)
    · rcases hdelay with hold | hzero | hnew
      · rw [hold]
        exact h.delay
      · rw [hzero]
        exact Nat.zero_le _
      · rw [hnew]
        exact hj delay rfl
  | register ringBytes =>
    cases hs
    exact ⟨hslots, Nat.le_succ_of_le hle, Nat.succ_le_succ hreg, h.delay⟩
  | push id data =>
    obtain ⟨-, ring, cells, -, -, rfl, -⟩ := Mixer.step_push hs
    exact ⟨hslots, hle, Nat.le_succ_of_le hreg, h.delay⟩
  | requestFlush id =>
    obtain ⟨-, rfl, -⟩ := Mixer.step_requestFlush hs
    exact ⟨hslots, hle, Nat.le_succ_of_le hreg, h.delay⟩
  | finish id =>
    obtain ⟨-, rfl, -⟩ := Mixer.step_finish hs
    exact ⟨hslots, hle, Nat.le_succ_of_le hreg, h.delay⟩
  | elapse ns | setMuted b | setVolume percent =>
    cases hs
    exact ⟨hslots, hle, Nat.le_succ_of_le hreg, h.delay⟩

end

section

variable {σ : Type*} [PackArith σ] {δ : Type*} [WideArith δ] [FloatCasts δ σ] {u : Setup}

theorem Thread.step_frames {allowed : Bool} {g g' : Shared} {p p' : Peer} {a : Answer}
    {th th' : Thread σ} {fs : List ThreadEvent} (h : g.totalFrames < 2 ^ 64)
    (hs : Thread.step δ u allowed g p a th = some (g', p', th', fs)) :
    g'.totalFrames < 2 ^ 64 := by
  have hmixed : ∀ {j : Mixer.Input} {g₁ : Shared} {fs : List ThreadEvent},
      g.mixed j = some (g₁, fs) → g₁.totalFrames < 2 ^ 64 := by
    intro j g₁ fs hm
    obtain ⟨_, -, hm⟩ := Option.map_eq_some_iff.mp hm
    cases hm
    exact h
  cases th with
  | count s frames =>
    cases hs
    exact Nat.mod_lt _ (by norm_num)
  | apply s cmd =>
    simp only [Thread.step] at hs
    split at hs
    · cases hs
      exact h
    · obtain ⟨_, hm, hs⟩ := Option.map_eq_some_iff.mp hs
      cases hs
      exact hmixed hm
  | push s data | finish id =>
    obtain ⟨_, hm, hs⟩ := Option.map_eq_some_iff.mp hs
    cases hs
    exact hmixed hm
  | read s f got =>
    obtain ⟨_, -, hs⟩ := Option.bind_eq_some_iff.mp hs
    dsimp only at hs
    split at hs
    · cases hs
      exact h
    · obtain ⟨_, -, hs⟩ := Option.map_eq_some_iff.mp hs
      cases hs
      exact h
    · cases hs
      exact h
  | start _ | limit _ | register _ | poll _ | status _ _ _ | done =>
    simp only [Thread.step] at hs
    repeat' split at hs
    all_goals
      cases hs
      try exact h

theorem Server.step_frames {s s' : Server σ} {i : Input} {es : List Event}
    (h : s.shared.totalFrames < 2 ^ 64) (hs : s.step δ u i = some (s', es)) :
    s'.shared.totalFrames < 2 ^ 64 := by
  cases i with
  | thread c a =>
    obtain ⟨p, th, g, q, th', fs, -, -, hstep, rfl, -⟩ := threadStep_cases hs
    exact Thread.step_frames h hstep
  | loop a =>
    rw [(loopStep_starts hs).1]
    exact h
  | connect c =>
    simp only [Server.step] at hs
    split at hs <;> cases hs
    exact h
  | send c data =>
    obtain ⟨p, -, hs⟩ := Option.bind_eq_some_iff.mp hs
    split at hs <;> cases hs
    exact h
  | hangup c =>
    obtain ⟨p, -, hs⟩ := Option.map_eq_some_iff.mp hs
    cases hs
    exact h
  | mix delay | elapse ns | signal =>
    obtain ⟨rfl, -⟩ := Prod.mk.inj (Option.some.inj hs)
    exact h

/-- What `STATE` holds after `n` steps. -/
structure Shared.Ranged (n : ℕ) (g : Shared) : Prop where
  mixer : Counted n g.mixer
  volume : g.mixer.volume = .nan ∨ InPercent g.mixer.volume
  frames : g.totalFrames < 2 ^ 64

theorem setStateVolume_ranged (percent : F32) :
    setStateVolume percent = .nan ∨ InPercent (setStateVolume percent) := by
  by_cases h : percent = .nan
  · rw [h]
    exact .inl rfl
  · exact .inr (setStateVolume_inPercent.mpr h)

theorem Shared.Ranged.step {n : ℕ} {s s' : Server σ} {i : Input} {es : List Event}
    (h : s.shared.Ranged n) (hi : i.Fits) (hs : s.step δ u i = some (s', es)) :
    s'.shared.Ranged (n + 1) := by
  refine ⟨?_, ?_, Server.step_frames h.frames hs⟩
  · rcases Server.step_mixer hs with hsame | ⟨j, fs, hj, hstep⟩
    · rw [hsame]
      exact ⟨h.mixer.slots, h.mixer.live, Nat.le_succ_of_le h.mixer.registered, h.mixer.delay⟩
    · refine h.mixer.step hstep fun delay hmix => ?_
      subst hmix
      cases i with
      | mix delay' =>
        cases hj
        exact hi
      | thread c a =>
        obtain ⟨th, -, hj⟩ := hj
        cases th with
        | apply s cmd => cases cmd <;> simp [Thread.Asks, applyInput] at hj
        | register _ | push _ _ | finish _ => cases hj
        | start _ | limit _ | poll _ | read _ _ _ | status _ _ _ | count _ _ | done =>
          exact hj.elim
      | elapse ns => cases hj
      | connect _ | send _ _ | hangup _ | loop _ | signal => exact hj.elim
  · rcases Server.step_volume hs with ⟨hkeep, -⟩ | ⟨c, bits, -, hset⟩
    · rw [hkeep]
      exact h.volume
    · rw [hset]
      exact setStateVolume_ranged _

theorem run_ranged (gain : F32) {is : List Input} {t : Server σ} {tr : List Event}
    (hrun : (Server.machine δ u).run (Server.init (configVolume gain) : Server σ) is = some (t, tr))
    (hfits : ∀ i ∈ is, i.Fits) : t.shared.Ranged is.length := by
  let I (s : Server σ) (js : List Input) (_ : List Event) : Prop :=
    (∀ i ∈ js, i.Fits) → s.shared.Ranged js.length
  have hstart : I (Server.init (configVolume gain)) [] [] := fun _ =>
    ⟨counted_init _, setStateVolume_ranged _, by norm_num [Server.init]⟩
  have hstep : ∀ s js tr i s' es, I s js tr → (Server.machine δ u).step s i = some (s', es) →
      I s' (js ++ [i]) (tr ++ es) := by
    intro s js tr i s' es hI hs hall
    rw [List.forall_mem_append] at hall
    rw [List.length_append, List.length_singleton]
    exact (hI hall.1).step (hall.2 i (List.mem_singleton_self i)) hs
  exact @Machine.run_inv_inputs _ _ _ _ I hstep _ _ is [] [] tr hstart hrun hfits

/-- The numbers of a reply are in the ranges of their types. -/
theorem Observed.fits {gain : F32} {c : ℕ} {is : List Input} {st : Status}
    (h : Observed σ δ u (configVolume gain) c is st) (hfits : ∀ i ∈ is, i.Fits)
    (hlen : is.length < 2 ^ 64) : st.Fits := by
  obtain ⟨upTo, g, hmoment, -, hvolume, hframes, hdelay, hclients, hend, rfl⟩ := h
  have hranged : ∀ l, upTo l <+: is → (g l).Ranged (upTo l).length := by
    intro l hl
    obtain ⟨s, es, hrun, hg⟩ := hmoment l
    rw [← hg]
    exact run_ranged gain hrun fun i hi => hfits i (hl.subset hi)
  have hle₃ := hdelay.trans (hclients.trans hend)
  have hle₂ := hframes.trans hle₃
  have hcounted := (hranged .clients hend).mixer
  refine ⟨(hranged .volume hle₂).volume, ?_, (hranged .frames hle₃).frames,
    (hranged .delay (hclients.trans hend)).mixer.delay⟩
  have hmost := hend.length_le
  have hlive := hcounted.live
  have hregistered := hcounted.registered
  dsimp only
  omega

end

end Audiod.Daemon
