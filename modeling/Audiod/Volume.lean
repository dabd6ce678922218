import Audiod.Gain
import Audiod.Json
import Audiod.Server

/-!
# The volume under commands (`server/src/main.rs:80-94`, `355-387`)

Any connection may send a VOLUME of any four bytes. What is stored, what a STATUS reply says
of it and what both output paths make of it stay in range as long as none of the payloads is
a NaN, and only so long.
-/

namespace Audiod.Daemon

open Cli

/-- `main` seeds the volume with the configured gain factor. -/
def configVolume (gain : F32) : F32 := setStateVolume (F32.mul gain (F32.ofInt 100))

/-! ### The body of a STATUS reply -/

/-- `output_path_str` -/
inductive OutputPath
  | speakers
  | headphone
  | unknown

def OutputPath.str : OutputPath → List Char
  | .speakers => "speakers".toList
  | .headphone => "headphone".toList
  | .unknown => "unknown".toList

def boolText (b : Bool) : List Char := if b then "true".toList else "false".toList

def natText (n : ℕ) : List Char := Nat.toDigits 10 n

def intText (i : ℤ) : List Char :=
  if i < 0 then '-' :: natText i.natAbs else natText i.natAbs

/-- `{:.3}`; a zero may be the negative one. -/
def fixed3 (negZero : Bool) : F32 → List Char
  | .nan => "NaN".toList
  | .inf s => if s then "-inf".toList else "inf".toList
  | .fin q =>
    let n := (roundHalfEven (|q| * 1000)).toNat
    let digits := [n / 100 % 10, n / 10 % 10, n % 10].map Nat.digitChar
    (if q < 0 ∨ q = 0 ∧ negZero then ['-'] else []) ++ natText (n / 1000) ++ '.' :: digits

/-- The text that `Cmd::apply` formats for STATUS. -/
def statusText (negZero : Bool) (out : OutputPath) (st : Status) : List Char :=
  "\x7b\x22muted\x22:".toList ++ boolText st.muted ++
  ",\x22volume\x22:".toList ++ fixed3 negZero st.volume ++
  ",\x22active\x22:".toList ++ boolText (decide (0 < st.clients)) ++
  ",\x22clients\x22:".toList ++ natText st.clients ++
  ",\x22total_frames\x22:".toList ++ natText st.totalFrames ++
  ",\x22delay_frames\x22:".toList ++ intText st.delayFrames ++
  ",\x22output\x22:\x22".toList ++ out.str ++ "\x22\x7d".toList

/-- The same text member by member. -/
def statusMembers (negZero : Bool) (out : OutputPath) (st : Status) :
    List (List Char × List Char) :=
  [("muted".toList, boolText st.muted), ("volume".toList, fixed3 negZero st.volume),
    ("active".toList, boolText (decide (0 < st.clients))),
    ("clients".toList, natText st.clients), ("total_frames".toList, natText st.totalFrames),
    ("delay_frames".toList, intText st.delayFrames),
    ("output".toList, '\x22' :: (out.str ++ ['\x22']))]

theorem statusText_eq (negZero : Bool) (out : OutputPath) (st : Status) :
    statusText negZero out st = '\x7b' :: Json.membersText (statusMembers negZero out st) := by
  have hmuted : "\x7b\x22muted\x22:".toList =
    '\x7b' :: '\x22' :: ("muted".toList ++ ['\x22', ':']) := by simp
  have hvolume : ",\x22volume\x22:".toList =
    ',' :: '\x22' :: ("volume".toList ++ ['\x22', ':']) := by simp
  have hactive : ",\x22active\x22:".toList =
    ',' :: '\x22' :: ("active".toList ++ ['\x22', ':']) := by simp
  have hclients : ",\x22clients\x22:".toList =
    ',' :: '\x22' :: ("clients".toList ++ ['\x22', ':']) := by simp
  have hframes : ",\x22total_frames\x22:".toList =
    ',' :: '\x22' :: ("total_frames".toList ++ ['\x22', ':']) := by simp
  have hdelay : ",\x22delay_frames\x22:".toList =
    ',' :: '\x22' :: ("delay_frames".toList ++ ['\x22', ':']) := by simp
  have houtput : ",\x22output\x22:\x22".toList =
    ',' :: '\x22' :: ("output".toList ++ ['\x22', ':', '\x22']) := by simp
  have hend : "\x22\x7d".toList = ['\x22', '\x7d'] := by simp
  unfold statusText statusMembers
  rewrite [hmuted, hvolume, hactive, hclients, hframes, hdelay, houtput, hend]
  generalize "muted".toList = a, "volume".toList = b, "active".toList = c, "clients".toList = d,
    "total_frames".toList = e, "delay_frames".toList = f, "output".toList = g
  simp only [Json.membersText_cons, Json.membersText_last, List.append_assoc, List.cons_append,
    List.nil_append]

theorem scalar_boolText (b : Bool) : Json.Scalar (boolText b) := by
  cases b with
  | true => exact Json.scalar_true
  | false => exact Json.scalar_false

theorem scalar_natText (n : ℕ) : Json.Scalar (natText n) := by
  have hnil : ∀ c ∈ ([] : List Char), c.isDigit = true := List.forall_mem_nil _
  have h := Json.scalar_decimal false n hnil
  simpa [Json.decimal, natText] using h

theorem scalar_intText (i : ℤ) : Json.Scalar (intText i) := by
  rcases lt_or_ge i 0 with hneg | hpos
  · have hnil : ∀ c ∈ ([] : List Char), c.isDigit = true := List.forall_mem_nil _
    have h := Json.scalar_decimal true i.natAbs hnil
    simpa [Json.decimal, intText, natText, hneg] using h
  · rw [intText, if_neg (not_lt.mpr hpos)]
    exact scalar_natText _

theorem digitChar_isDigit : ∀ d < 10, d.digitChar.isDigit = true := by decide

theorem scalar_fixed3 (negZero : Bool) (q : ℚ) : Json.Scalar (fixed3 negZero (.fin q)) := by
  obtain ⟨n, hn⟩ : ∃ n, (roundHalfEven (|q| * 1000)).toNat = n := ⟨_, rfl⟩
  have hdigits : ∀ c ∈ [n / 100 % 10, n / 10 % 10, n % 10].map Nat.digitChar, c.isDigit = true := by
    intro c hc
    obtain ⟨d, hd, rfl⟩ := List.mem_map.mp hc
    apply digitChar_isDigit
    simp only [List.mem_cons, List.not_mem_nil, or_false] at hd
    omega
  have hdecimal : fixed3 negZero (.fin q) =
      Json.decimal (decide (q < 0 ∨ q = 0 ∧ negZero)) (n / 1000)
        ([n / 100 % 10, n / 10 % 10, n % 10].map Nat.digitChar) := by
    simp [fixed3, Json.decimal, natText, hn]
  rw [hdecimal]
  exact Json.scalar_decimal _ _ hdigits

theorem plain_str (out : OutputPath) : Json.Plain out.str := by
  cases out <;> decide

/-- The reply is a document if the volume is a number. -/
theorem statusText_valid (negZero : Bool) (out : OutputPath) {st : Status} {q : ℚ}
    (h : st.volume = .fin q) : Json.valid (statusText negZero out st) = true := by
  rw [statusText_eq]
  have hne : statusMembers negZero out st ≠ [] := List.cons_ne_nil _ _
  apply Json.valid_object hne
  simp only [statusMembers, h, List.forall_mem_cons]
  exact ⟨⟨by decide, scalar_boolText _⟩, ⟨by decide, scalar_fixed3 _ _⟩,
    ⟨by decide, scalar_boolText _⟩, ⟨by decide, scalar_natText _⟩, ⟨by decide, scalar_natText _⟩,
    ⟨by decide, scalar_intText _⟩, ⟨by decide, Json.scalar_string (plain_str out)⟩,
    List.forall_mem_nil _⟩

example : statusText false .speakers ⟨true, .fin (75 / 2), 2, 96000, -1⟩ =
    ("\x7b\x22muted\x22:true,\x22volume\x22:37.500,\x22active\x22:true,".toList ++
      "\x22clients\x22:2,\x22total_frames\x22:96000,\x22delay_frames\x22:-1,".toList ++
      "\x22output\x22:\x22speakers\x22\x7d".toList) := by
  decide +kernel

/-! ### A volume in range -/

/-- Silence stays silence, and nothing gets louder. -/
def Attenuates (f : ℤ → ℤ) : Prop := f 0 = 0 ∧ ∀ x, |f x| ≤ |x|

theorem attenuates_of_le {f : ℤ → ℤ} (h : ∀ x, |f x| ≤ |x|) : Attenuates f :=
  ⟨abs_nonpos_iff.mp (h 0), h⟩

/-- What a stored volume should be, the gain it gives, and what the mixer and the players
make of samples with that gain. -/
structure Sane (volume : F32) : Prop where
  range : InPercent volume
  gain : ∃ g : ℚ, Mixer.gainOf volume = .fin g ∧ 0 ≤ g ∧ g ≤ 1
  mixer : ∀ muted, Attenuates (Mixer.renderSample (Mixer.gainOf volume) muted)
  player : Attenuates (gainS16 (Mixer.gainOf volume))
  playerFloat : ∀ bits r, F32.ofBits bits = .fin r →
    |(gainFloat (Mixer.gainOf volume) (F32.ofBits bits) : ℚ)| ≤ 32768 * |r|
  played : ∀ (p : Cli.Player) (ch frames : ℕ) (data : Bytes), p.For ch → ch = 1 ∨ ch = 2 →
    data.length = frames * (2 * ch) → ∃ p' out,
      p.play data frames (Mixer.gainOf volume) = some (p', out) ∧
        NoLouder (samples out) (if ch = 1 then bothSides (samples data) else samples data)

theorem sane_iff {volume : F32} : Sane volume ↔ InPercent volume := by
  constructor
  · exact Sane.range
  · intro h
    obtain ⟨g, hg, h0, h1⟩ := gainOf_unit h
    refine ⟨h, ⟨g, hg, h0, h1⟩, fun muted => ?_, ?_, fun bits r hr => ?_,
      fun p ch frames data hp hch hlen => ?_⟩
    · rw [hg]
      exact attenuates_of_le (renderSample_le h0 h1 muted)
    · rw [hg]
      exact attenuates_of_le (gainS16_le h0 h1)
    · rw [hg, hr]
      exact gainFloat_le h0 h1 hr
    · rw [hg]
      exact play_noLouder hp hch h0 h1 hlen

theorem configVolume_inPercent {gain : F32} : InPercent (configVolume gain) ↔ gain ≠ .nan := by
  have hundred : F32.ofInt 100 = .fin 100 := F32.ofInt_exact (by norm_num)
  have hmul : F32.mul gain (.fin 100) = .nan ↔ gain = .nan := by
    cases gain with
    | nan => simp [F32.mul]
    | inf s => simp [F32.mul]
    | fin q =>
      simp only [F32.mul, F32.round]
      split <;> simp
  rw [configVolume, setStateVolume_inPercent, hundred, Ne, hmul]

/-! ### Steps -/

/-- A VOLUME that is not a NaN, or another event. -/
def Event.Numeric : Event → Prop
  | .thread _ (.applied (.volume bits)) => F32.ofBits bits ≠ .nan
  | _ => True

/-- No VOLUME. -/
def ThreadEvent.Keeps : ThreadEvent → Prop
  | .applied (.volume _) => False
  | _ => True

def Event.Keeps : Event → Prop
  | .thread _ e => e.Keeps
  | _ => True

theorem mix_volume (m : Mixer.Mix) (delay : ℤ) : (m.mix delay).1.volume = m.volume := by
  unfold Mixer.Mix.mix
  dsimp only
  repeat' split
  all_goals rfl

theorem mixer_step_keeps {m m' : Mixer.Mix} {j : Mixer.Input} {es : List Mixer.Event}
    (hs : Mixer.step m j = some (m', es)) (hj : ∀ volume, j ≠ .setVolume volume) :
    m'.volume = m.volume := by
  cases j with
  | mix delay =>
    obtain ⟨rfl, -⟩ := Prod.mk.inj (Option.some.inj hs)
    exact mix_volume m delay
  | setVolume volume => exact absurd rfl (hj volume)
  | register _ | elapse _ | setMuted _ =>
    cases hs
    rfl
  | requestFlush _ | finish _ =>
    simp only [Mixer.step] at hs
    split at hs <;> cases hs
    rfl
  | push id data =>
    simp only [Mixer.step] at hs
    split at hs
    · obtain ⟨ring, -, hs⟩ := Option.map_eq_some_iff.mp hs
      cases hs
      rfl
    · cases hs

section

variable {σ : Type*} [PackArith σ] {δ : Type*} [WideArith δ] [FloatCasts δ σ] {u : Setup}
  {s s' t : Server σ} {es tr : List Event}

theorem ThreadEvent.Quiet.keeps {e : ThreadEvent} (h : e.Quiet) : e.Keeps := by
  cases e <;> first | exact h.elim | trivial

theorem Event.OfLoop.keeps {e : Event} (h : e.OfLoop) : e.Keeps := by
  cases e <;> first | exact h.elim | trivial

/-- A step of a thread leaves the volume alone or is a VOLUME. -/
theorem Thread.step_volume {allowed : Bool} {g g' : Shared} {p p' : Peer} {a : Answer}
    {th th' : Thread σ} {fs : List ThreadEvent}
    (hs : Thread.step δ u allowed g p a th = some (g', p', th', fs)) :
    (g'.mixer.volume = g.mixer.volume ∧ ∀ e ∈ fs, e.Keeps) ∨
      ∃ bits, fs = [.applied (.volume bits)] ∧
        g'.mixer.volume = setStateVolume (F32.ofBits bits) := by
  rcases Thread.step_effect hs with ⟨hkeep, hfs⟩ | ⟨s, cmd, rfl, hcmd⟩ |
    ⟨j, es, hj, hne, hstep, hfs⟩
  · rw [hkeep]
    exact .inl ⟨rfl, fun e he => (hfs e he).keeps⟩
  · rcases hcmd with ⟨hnone, rfl, rfl⟩ | ⟨j, es, hj, hstep, rfl⟩
    · left
      cases cmd with
      | volume bits => cases hnone
      | status | mute | unmute | flush => exact ⟨rfl, by simp [ThreadEvent.Keeps]⟩
    · cases cmd with
      | volume bits =>
        cases hj
        obtain ⟨hset, rfl⟩ := Prod.mk.inj (Option.some.inj hstep)
        exact .inr ⟨bits, rfl, congrArg Mixer.Mix.volume hset.symm⟩
      | status => cases hj
      | mute | unmute =>
        cases hj
        exact .inl ⟨mixer_step_keeps hstep (fun _ h => by cases h),
          List.forall_mem_cons.mpr ⟨trivial, fun e he => (quiet_mixer es e he).keeps⟩⟩
      | flush =>
        obtain ⟨id, -, rfl⟩ := Option.map_eq_some_iff.mp hj
        exact .inl ⟨mixer_step_keeps hstep (fun _ h => by cases h),
          List.forall_mem_cons.mpr ⟨trivial, fun e he => (quiet_mixer es e he).keeps⟩⟩
  · have hother : ∀ volume, j ≠ .setVolume volume := by
      intro volume hset
      rw [hset] at hj
      cases th with
      | apply s cmd => exact hne s cmd rfl
      | register _ | push _ _ | finish _ => cases hj
      | start _ | limit _ | poll _ | read _ _ _ | status _ _ _ | count _ _ | done => exact hj
    exact .inl ⟨mixer_step_keeps hstep hother, fun e he => (hfs e he).keeps⟩

/-- So does a step of the server. -/
theorem Server.step_volume {i : Input} (hs : s.step δ u i = some (s', es)) :
    (s'.shared.mixer.volume = s.shared.mixer.volume ∧ ∀ e ∈ es, e.Keeps) ∨
      ∃ c bits, es = [.thread c (.applied (.volume bits))] ∧
        s'.shared.mixer.volume = setStateVolume (F32.ofBits bits) := by
  cases i with
  | connect c =>
    simp only [Server.step] at hs
    split at hs <;> cases hs
    exact .inl ⟨rfl, List.forall_mem_nil _⟩
  | send c data =>
    obtain ⟨p, -, hs⟩ := Option.bind_eq_some_iff.mp hs
    split at hs <;> cases hs
    exact .inl ⟨rfl, List.forall_mem_nil _⟩
  | hangup c =>
    obtain ⟨p, -, hs⟩ := Option.map_eq_some_iff.mp hs
    cases hs
    exact .inl ⟨rfl, List.forall_mem_nil _⟩
  | loop a =>
    have hshared := congrArg (fun g : Shared => g.mixer.volume) (loopStep_starts hs).1
    exact .inl ⟨hshared, fun e he => (loopStep_ofLoop hs e he).keeps⟩
  | thread c a =>
    obtain ⟨p, th, g, q, th', fs, -, -, hstep, rfl, rfl⟩ := threadStep_cases hs
    rcases Thread.step_volume hstep with ⟨hkeep, hfs⟩ | ⟨bits, rfl, hset⟩
    · refine .inl ⟨hkeep, fun e he => ?_⟩
      obtain ⟨f, hf, rfl⟩ := List.mem_map.mp he
      exact hfs f hf
    · exact .inr ⟨c, bits, rfl, hset⟩
  | mix delay =>
    obtain ⟨rfl, rfl⟩ := Prod.mk.inj (Option.some.inj hs)
    refine .inl ⟨mix_volume _ delay, fun e he => ?_⟩
    obtain ⟨f, -, rfl⟩ := List.mem_map.mp he
    trivial
  | elapse ns =>
    obtain ⟨rfl, rfl⟩ := Prod.mk.inj (Option.some.inj hs)
    exact .inl ⟨rfl, List.forall_mem_nil _⟩
  | signal =>
    cases hs
    exact .inl ⟨rfl, List.forall_mem_nil _⟩

/-! ### Runs -/

theorem ThreadEvent.Keeps.numeric {c : ℕ} {e : ThreadEvent} (h : e.Keeps) :
    (Event.thread c e).Numeric := by
  cases e with
  | applied cmd => cases cmd <;> first | exact h.elim | trivial
  | _ => trivial

theorem Event.Keeps.numeric {e : Event} (h : e.Keeps) : e.Numeric := by
  cases e with
  | thread c f => exact ThreadEvent.Keeps.numeric h
  | _ => trivial

/- A step keeps the range exactly if it is not a VOLUME of a NaN. -/
theorem step_inPercent {i : Input} (h : InPercent s.shared.mixer.volume)
    (hs : s.step δ u i = some (s', es)) :
    InPercent s'.shared.mixer.volume ↔ ∀ e ∈ es, e.Numeric := by
  rcases Server.step_volume hs with ⟨hkeep, hes⟩ | ⟨c, bits, rfl, hset⟩
  · rw [hkeep]
    exact iff_of_true h fun e he => (hes e he).numeric
  · rw [hset, setStateVolume_inPercent, List.forall_mem_singleton]
    rfl

/-- In a run without a NaN the replies are about volumes in range. -/
theorem run_replies {volume : F32} (h : InPercent volume) {is : List Input}
    (hrun : (Server.machine δ u).run (Server.init volume : Server σ) is = some (t, tr))
    (hnum : ∀ e ∈ tr, e.Numeric) {c : ℕ} {st : Status} (hst : .thread c (.answered st) ∈ tr) :
    InPercent st.volume := by
  let I (s : Server σ) (tr : List Event) : Prop := (∀ e ∈ tr, e.Numeric) →
    InPercent s.shared.mixer.volume ∧
      (∀ c q todo st, s.threads c = some (.status q todo st) → InPercent st.volume) ∧
      ∀ c st, .thread c (.answered st) ∈ tr → InPercent st.volume
  have hstart : I (Server.init volume) [] := fun _ =>
    ⟨h, (fun _ _ _ _ hth => by cases hth), fun _ _ hst => by cases hst⟩
  have hend : I t tr := by
    refine (Server.machine δ u).run_inv (I := I) (fun s tr i s' es hI hs hall => ?_) hstart hrun
    rw [List.forall_mem_append] at hall
    obtain ⟨hpre, hloaded, hpreplies⟩ := hI hall.1
    obtain ⟨hanswered, hstatus⟩ := Server.step_status hs
    refine ⟨(step_inPercent hpre hs).mpr hall.2, fun c q todo st hth => ?_, fun c st hmem => ?_⟩
    · rcases hstatus c q todo st hth with hold | ⟨-, rfl, -⟩ | ⟨l, st₀, hold, rfl⟩
      · exact hloaded c q todo st hold
      · exact ⟨0, rfl, le_rfl, by norm_num⟩
      · have hst₀ := hloaded c q _ st₀ hold
        cases l <;> first | exact hpre | exact hst₀
    · rcases List.mem_append.mp hmem with hold | hnew
      · exact hpreplies c st hold
      · obtain ⟨q, hth⟩ := hanswered c st hnew
        exact hloaded c q [] st hth
  exact (hend hnum).2.2 c st hst

end

/-- What a run owes: every volume on its way is in range, and every reply is a document. -/
structure VolumeHeld {σ : Type*} [PackArith σ] (δ : Type*) [WideArith δ] [FloatCasts δ σ]
    (u : Setup) (s : Server σ) (is : List Input) (tr : List Event) : Prop where
  stored : (Server.machine δ u).Throughout (fun s => Sane s.shared.mixer.volume) s is
  replies : ∀ c st, .thread c (.answered st) ∈ tr →
    ∀ negZero out, Json.valid (statusText negZero out st) = true

/-- A run keeps the volume in range exactly if neither the configured gain nor the payload of
a VOLUME it applies is a NaN. -/
theorem volume_held_iff {σ : Type*} [PackArith σ] (δ : Type*) [WideArith δ] [FloatCasts δ σ]
    (u : Setup) (gain : F32) {is : List Input} {t : Server σ} {tr : List Event}
    (hrun : (Server.machine δ u).run (Server.init (configVolume gain)) is = some (t, tr)) :
    VolumeHeld δ u (Server.init (configVolume gain) : Server σ) is tr ↔
      gain ≠ .nan ∧ ∀ e ∈ tr, e.Numeric := by
  have hstored := (Server.machine δ u).throughout_iff
    (J := fun s => Sane s.shared.mixer.volume) (P := Event.Numeric)
    (fun s i s' es hJ hs => sane_iff.trans (step_inPercent (sane_iff.mp hJ) hs)) hrun
  have hfirst : Sane (configVolume gain) ↔ gain ≠ .nan := sane_iff.trans configVolume_inPercent
  constructor
  · intro h
    obtain ⟨hinit, hnum⟩ := hstored.mp h.stored
    exact ⟨hfirst.mp hinit, hnum⟩
  · rintro ⟨hgain, hnum⟩
    refine ⟨hstored.mpr ⟨hfirst.mpr hgain, hnum⟩, fun c st hst negZero out => ?_⟩
    obtain ⟨q, hq, -⟩ := run_replies (configVolume_inPercent.mpr hgain) hrun hnum hst
    exact statusText_valid negZero out hq

/-- A control connection sends a VOLUME and asks for the STATUS. -/
def rootUser : Setup := ⟨none, 0, fun _ => some 0, 4, 65536, 48000, "sinc"⟩

def volumeThenStatus (payload : Bytes) : List Input :=
  [.connect 0,
    .send 0 (List.replicate 12 0 ++ [0, 0, 0, 0, msgVolume] ++ payload ++ [0, 0, 0, 0, msgStatus]),
    .loop (.bytes 0), .loop (.bytes 1), .loop (.bytes 12), .thread 0 (.bytes 0),
    .thread 0 (.bytes 4), .thread 0 (.bytes 1), .thread 0 (.bytes 4), .thread 0 (.bytes 0),
    .thread 0 (.bytes 4), .thread 0 (.bytes 1)] ++ List.replicate 7 (.thread 0 (.bytes 0))

theorem run_volumeThenStatus (a b c d : Byte) :
    ∃ t, (Server.machine ℝ rootUser).run (Server.init (configVolume (.fin 1)) : Server ℝ)
        (volumeThenStatus [a, b, c, d]) = some (t,
          [.accepted 0, .header 0 (List.replicate 12 0), .thread 0 .served,
            .thread 0 (.read [0, 0, 0, 0]), .thread 0 (.read [msgVolume]),
            .thread 0 (.read [a, b, c, d]),
            .thread 0 (.applied (.volume (leVal [a, b, c, d]))),
            .thread 0 (.read [0, 0, 0, 0]), .thread 0 (.read [msgStatus]),
            .thread 0 (.applied .status),
            .thread 0 (.answered
              ⟨false, setStateVolume (F32.ofBits (leVal [a, b, c, d])), 0, 0, -1⟩)]) ∧
      t.shared.mixer.volume = setStateVolume (F32.ofBits (leVal [a, b, c, d])) :=
  ⟨_, rfl, rfl⟩

theorem volume_held_half : ∃ t tr,
    (Server.machine ℝ rootUser).run (Server.init (configVolume (.fin 1)) : Server ℝ)
        (volumeThenStatus [0, 0, 72, 66]) = some (t, tr) ∧
      VolumeHeld ℝ rootUser (Server.init (configVolume (.fin 1)) : Server ℝ)
        (volumeThenStatus [0, 0, 72, 66]) tr := by
  obtain ⟨t, hrun, -⟩ := run_volumeThenStatus 0 0 72 66
  refine ⟨t, _, hrun, (volume_held_iff ℝ rootUser (.fin 1) hrun).mpr ⟨F32.noConfusion, ?_⟩⟩
  have hnum : F32.ofBits (leVal [0, 0, 72, 66]) ≠ .nan := by decide +kernel
  simp [Event.Numeric, hnum]

/- Four bytes of a NaN: it is stored, printed, and makes noise of silence. -/
theorem nan_held : ∃ t tr st,
    (Server.machine ℝ rootUser).run (Server.init (configVolume (.fin 1)) : Server ℝ)
        (volumeThenStatus [0, 0, 192, 127]) = some (t, tr) ∧
      ¬InPercent t.shared.mixer.volume ∧ .thread 0 (.answered st) ∈ tr ∧
      Json.valid (statusText false .unknown st) = false ∧
      gainS16 (Mixer.gainOf t.shared.mixer.volume) 0 = -32768 ∧
      ¬VolumeHeld ℝ rootUser (Server.init (configVolume (.fin 1)) : Server ℝ)
        (volumeThenStatus [0, 0, 192, 127]) tr := by
  obtain ⟨t, hrun, hvolume⟩ := run_volumeThenStatus 0 0 192 127
  have hnan : setStateVolume (F32.ofBits (leVal [0, 0, 192, 127])) = .nan := by decide +kernel
  rw [hnan] at hrun hvolume
  have hinvalid : Json.valid (statusText false .unknown ⟨false, .nan, 0, 0, -1⟩) = false := by
    decide +kernel
  refine ⟨t, _, _, hrun, ?_, List.getLast_mem (List.cons_ne_nil _ _), hinvalid, ?_, ?_⟩
  · rw [hvolume]
    rintro ⟨q, hq, -⟩
    cases hq
  · rw [hvolume]
    decide +kernel
  · intro h
    have hmem := h.replies 0 _ (List.getLast_mem (List.cons_ne_nil _ _)) false .unknown
    rw [hinvalid] at hmem
    cases hmem

end Audiod.Daemon
