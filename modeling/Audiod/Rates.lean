import Mathlib.Data.List.MinMax
import Mathlib.Data.Nat.Dist
import Mathlib.Data.Prod.Lex
import Mathlib.Data.Rat.Cast.Defs
import Mathlib.Tactic.FieldSimp
import Mathlib.Tactic.NormNum

/-!
# Sample rates on the link (`hda/src/stream.rs:18-72`, `server/src/backend.rs:31-72`)

`encode_rate` looks for a pair of counters by multiplying `u32` values. A debug build
stops at a product that does not fit, a release build goes on with its low 32 bits.
-/

namespace Audiod.Rates

inductive Build
  | debug
  | release
  deriving DecidableEq

/-- A `u32` product; `none` is the overflow panic. -/
def Build.mul (b : Build) (x y : ℕ) : Option ℕ :=
  match b with
  | .debug => if x * y < 2 ^ 32 then some (x * y) else none
  | .release => some (x * y % 2 ^ 32)

theorem Build.mul_of_lt (b : Build) {x y : ℕ} (h : x * y < 2 ^ 32) : b.mul x y = some (x * y) := by
  cases b with
  | debug => exact if_pos h
  | release => rw [mul, Nat.mod_eq_of_lt h]

theorem Build.debug_mul_eq_none {x y : ℕ} : Build.debug.mul x y = none ↔ 2 ^ 32 ≤ x * y := by
  simp [mul]

/-! ### The search -/

/-- `freq_base` and its SD_FORMAT bit, and the two counters. -/
structure Candidate where
  freq : ℕ
  base : ℕ
  mult : ℕ
  div : ℕ
  deriving DecidableEq

/-- In the order of the three loops. -/
def candidates : List Candidate :=
  [(48000, 0), (44100, 1)].flatMap fun (freq, base) =>
    (List.range' 1 8).flatMap fun mult => (List.range' 1 8).map fun div => ⟨freq, base, mult, div⟩

def search (b : Build) (rate : ℕ) : List Candidate → Option (Option (ℕ × ℕ × ℕ))
  | [] => some none
  | c :: cs => do
    let x ← b.mul c.freq c.mult
    let y ← b.mul rate c.div
    if x = y then some (some (c.base, c.mult, c.div)) else search b rate cs

/-- `encode_rate`; the outer `none` is the panic. -/
def encodeRate (b : Build) (rate : ℕ) : Option (Option (ℕ × ℕ × ℕ)) := search b rate candidates

def rateSupported (b : Build) (rate : ℕ) : Option Bool := (encodeRate b rate).map Option.isSome

/-- Channels, bits, divisor, multiplier and base, as `format_val` puts them together. -/
def packFormat (base mult div : ℕ) : ℕ :=
  (1 ||| (1 <<< 4) ||| ((div - 1) <<< 8) ||| ((mult - 1) <<< 11) ||| (base <<< 14)) % 2 ^ 16

def formatVal (b : Build) (rate : ℕ) : Option ℕ :=
  (encodeRate b rate).map fun r =>
    let (base, mult, div) := r.getD (0, 1, 1)
    packFormat base mult div

/-! ### Opening the backend -/

def hdaRates : List ℕ :=
  [192000, 176400, 96000, 88200, 48000, 44100, 32000, 24000, 22050, 16000, 12000, 11025, 8000]

def nearestHdaRate (rate : ℕ) : ℕ :=
  (hdaRates.argmin fun r => toLex (Nat.dist r rate, r)).getD 48000

/-- What `HdaPlayback::open` programs into SD_FORMAT and into the converter, and the rate
it records. -/
structure Opened where
  sdFormat : ℕ
  codecFormat : ℕ
  rate : ℕ

def openPlayback (b : Build) (rate : ℕ) : Option Opened := do
  let sd ← formatVal b rate
  let codec ← formatVal b rate
  some ⟨sd, codec, rate⟩

/-- `Backend::open`, as root; `hw` is what it logs. -/
def openBackend (b : Build) (rate : ℕ) : Option (ℕ × Opened) := do
  let supported ← rateSupported b rate
  let hw := if supported then rate else nearestHdaRate rate
  let pb ← openPlayback b hw
  some (hw, pb)

/-! ### What a format means to the link -/

def baseFreq (base : ℕ) : ℕ := if base = 0 then 48000 else 44100

/-- The rate of the base, mult and div fields. -/
def decodedRate (v : ℕ) : ℚ :=
  baseFreq (v / 2 ^ 14 % 2) * ((v / 2 ^ 11 % 8 + 1 : ℕ) : ℚ) / ((v / 2 ^ 8 % 8 + 1 : ℕ) : ℚ)

/-- The link can run at the rate. -/
def Representable (rate : ℕ) : Prop :=
  ∃ freq mult div, (freq = 48000 ∨ freq = 44100) ∧ (1 ≤ mult ∧ mult ≤ 8) ∧
    (1 ≤ div ∧ div ≤ 8) ∧ freq * mult = rate * div

/-- The encoding is sound and complete, survives the format, and is what the backend runs
at; a build that checks its products never stops. -/
structure Faithful (b : Build) (rate : ℕ) : Prop where
  encode : ∃ r, encodeRate b rate = some r ∧ (r.isSome ↔ Representable rate) ∧
    ∀ base mult div, r = some (base, mult, div) → baseFreq base * mult = rate * div
  decode : ∃ v, formatVal b rate = some v ∧ (Representable rate → decodedRate v = rate) ∧
    (¬ Representable rate → decodedRate v = 48000)
  backend : ∃ hw pb, openBackend b rate = some (hw, pb) ∧ pb.rate = hw ∧
    decodedRate pb.sdFormat = hw ∧ decodedRate pb.codecFormat = hw
  fits : encodeRate .debug rate ≠ none ∧ openBackend .debug rate ≠ none

/-! ### The candidates -/

theorem mem_candidates {c : Candidate} :
    c ∈ candidates ↔ (c.freq = 48000 ∧ c.base = 0 ∨ c.freq = 44100 ∧ c.base = 1) ∧
      (1 ≤ c.mult ∧ c.mult ≤ 8) ∧ (1 ≤ c.div ∧ c.div ≤ 8) := by
  obtain ⟨freq, base, mult, div⟩ := c
  constructor
  · intro h
    simp only [candidates, List.mem_flatMap, List.mem_map, List.mem_range'_1, List.mem_cons,
      List.not_mem_nil, or_false, Candidate.mk.injEq] at h
    obtain ⟨p, hp, m, hm, d, hd, rfl, rfl, rfl, rfl⟩ := h
    rcases hp with rfl | rfl
    · exact ⟨.inl ⟨rfl, rfl⟩, ⟨hm.1, Nat.lt_succ_iff.mp hm.2⟩, hd.1, Nat.lt_succ_iff.mp hd.2⟩
    · exact ⟨.inr ⟨rfl, rfl⟩, ⟨hm.1, Nat.lt_succ_iff.mp hm.2⟩, hd.1, Nat.lt_succ_iff.mp hd.2⟩
  · rintro ⟨hf, hm, hd⟩
    dsimp only at hf hm hd
    simp only [candidates, List.mem_flatMap, List.mem_map, List.mem_range'_1, List.mem_cons,
      List.not_mem_nil, or_false, Candidate.mk.injEq]
    refine ⟨(freq, base), ?_, mult, by omega, div, by omega, rfl, rfl, rfl, rfl⟩
    rcases hf with ⟨rfl, rfl⟩ | ⟨rfl, rfl⟩ <;> simp

theorem baseFreq_of_mem {c : Candidate} (h : c ∈ candidates) : baseFreq c.base = c.freq := by
  rcases (mem_candidates.mp h).1 with ⟨hf, hb⟩ | ⟨hf, hb⟩ <;> simp [baseFreq, hf, hb]

theorem freq_mul_le {c : Candidate} (h : c ∈ candidates) : c.freq * c.mult ≤ 384000 := by
  obtain ⟨hf, hm, -⟩ := mem_candidates.mp h
  calc c.freq * c.mult ≤ 48000 * 8 := Nat.mul_le_mul (by omega) hm.2
    _ = 384000 := rfl

theorem representable_iff {rate : ℕ} :
    Representable rate ↔ ∃ c ∈ candidates, c.freq * c.mult = rate * c.div := by
  constructor
  · rintro ⟨freq, mult, div, rfl | rfl, hm, hd, heq⟩
    · exact ⟨⟨48000, 0, mult, div⟩, mem_candidates.mpr ⟨.inl ⟨rfl, rfl⟩, hm, hd⟩, heq⟩
    · exact ⟨⟨44100, 1, mult, div⟩, mem_candidates.mpr ⟨.inr ⟨rfl, rfl⟩, hm, hd⟩, heq⟩
  · rintro ⟨c, hc, heq⟩
    obtain ⟨hf, hm, hd⟩ := mem_candidates.mp hc
    exact ⟨c.freq, c.mult, c.div, by tauto, hm, hd, heq⟩

/-! ### The search without overflow -/

def Candidate.fields (c : Candidate) : ℕ × ℕ × ℕ := (c.base, c.mult, c.div)

theorem search_eq_find (b : Build) {rate : ℕ} {cs : List Candidate}
    (hf : ∀ c ∈ cs, c.freq * c.mult < 2 ^ 32) (hr : ∀ c ∈ cs, rate * c.div < 2 ^ 32) :
    search b rate cs =
      some ((cs.find? fun c => c.freq * c.mult = rate * c.div).map Candidate.fields) := by
  induction cs with
  | nil => rfl
  | cons c cs ih =>
    have hrest := ih (fun d hd => hf d (List.mem_cons_of_mem _ hd))
      (fun d hd => hr d (List.mem_cons_of_mem _ hd))
    have hl := b.mul_of_lt (hf c List.mem_cons_self)
    have hr := b.mul_of_lt (hr c List.mem_cons_self)
    simp only [search, hl, hr, Option.bind_eq_bind, Option.bind_some, hrest, List.find?_cons]
    by_cases h : c.freq * c.mult = rate * c.div
    · simp [h, Candidate.fields]
    · simp [h]

theorem encodeRate_eq_find (b : Build) {rate : ℕ} (h : rate < 2 ^ 29) :
    encodeRate b rate =
      some ((candidates.find? fun c => c.freq * c.mult = rate * c.div).map Candidate.fields) := by
  refine search_eq_find b (fun c hc => ?_) (fun c hc => ?_)
  · exact lt_of_le_of_lt (freq_mul_le hc) (by norm_num)
  · obtain ⟨-, -, hd⟩ := mem_candidates.mp hc
    calc rate * c.div ≤ rate * 8 := Nat.mul_le_mul_left _ hd.2
      _ < 2 ^ 32 := by omega

theorem encodeRate_of_representable (b : Build) {rate : ℕ} (hlt : rate < 2 ^ 29)
    (h : Representable rate) :
    ∃ c ∈ candidates,
      c.freq * c.mult = rate * c.div ∧ encodeRate b rate = some (some c.fields) := by
  cases hfind : candidates.find? fun c => c.freq * c.mult = rate * c.div with
  | none =>
    obtain ⟨c, hc, heq⟩ := representable_iff.mp h
    have hno := List.find?_eq_none.mp hfind c hc
    exact absurd heq (by simpa using hno)
  | some c =>
    have heq : c.freq * c.mult = rate * c.div := by simpa using List.find?_some hfind
    refine ⟨c, List.mem_of_find?_eq_some hfind, heq, ?_⟩
    rw [encodeRate_eq_find b hlt, hfind, Option.map_some]

theorem encodeRate_of_not_representable (b : Build) {rate : ℕ} (hlt : rate < 2 ^ 29)
    (h : ¬ Representable rate) : encodeRate b rate = some none := by
  have hnone : candidates.find? (fun c => c.freq * c.mult = rate * c.div) = none := by
    refine List.find?_eq_none.mpr fun c hc => ?_
    simpa using fun heq => h (representable_iff.mpr ⟨c, hc, heq⟩)
  rw [encodeRate_eq_find b hlt, hnone, Option.map_none]

/-! ### The fields of a format do not overlap -/

theorem fields_packFormat : ∀ c ∈ candidates,
    packFormat c.base c.mult c.div / 2 ^ 14 % 2 = c.base ∧
      packFormat c.base c.mult c.div / 2 ^ 11 % 8 + 1 = c.mult ∧
      packFormat c.base c.mult c.div / 2 ^ 8 % 8 + 1 = c.div := by
  decide +kernel

theorem decodedRate_packFormat {c : Candidate} (hc : c ∈ candidates) {rate : ℕ}
    (h : c.freq * c.mult = rate * c.div) :
    decodedRate (packFormat c.base c.mult c.div) = rate := by
  obtain ⟨hb, hm, hd⟩ := fields_packFormat c hc
  have hpos : (c.div : ℚ) ≠ 0 := by
    have := (mem_candidates.mp hc).2.2.1
    exact Nat.cast_ne_zero.mpr (by omega)
  rw [decodedRate, hb, hm, hd, baseFreq_of_mem hc, div_eq_iff hpos]
  exact_mod_cast h

theorem formatVal_of_representable (b : Build) {rate : ℕ} (hlt : rate < 2 ^ 29)
    (h : Representable rate) : ∃ v, formatVal b rate = some v ∧ decodedRate v = rate := by
  obtain ⟨c, hc, heq, henc⟩ := encodeRate_of_representable b hlt h
  refine ⟨packFormat c.base c.mult c.div, ?_, decodedRate_packFormat hc heq⟩
  simp [formatVal, henc, Candidate.fields]

theorem formatVal_of_not_representable (b : Build) {rate : ℕ} (hlt : rate < 2 ^ 29)
    (h : ¬ Representable rate) : ∃ v, formatVal b rate = some v ∧ decodedRate v = 48000 := by
  have hc : (⟨48000, 0, 1, 1⟩ : Candidate) ∈ candidates := by decide
  refine ⟨packFormat 0 1 1, ?_, ?_⟩
  · rw [formatVal, encodeRate_of_not_representable b hlt h]
    rfl
  · have h48 := decodedRate_packFormat hc (rfl : 48000 * 1 = 48000 * 1)
    exact_mod_cast h48

/-! ### The backend's rate -/

/- The rates it falls back to can all be run. -/
theorem hdaRates_representable : ∀ r ∈ hdaRates,
    r < 2 ^ 29 ∧ ∃ c ∈ candidates, c.freq * c.mult = r * c.div := by
  decide +kernel

theorem nearestHdaRate_mem (rate : ℕ) : nearestHdaRate rate ∈ hdaRates := by
  rw [nearestHdaRate]
  cases h : hdaRates.argmin fun r => toLex (Nat.dist r rate, r) with
  | none => exact absurd (List.argmin_eq_none.mp h) (by decide)
  | some r => exact List.argmin_mem h

theorem openPlayback_of_representable (b : Build) {rate : ℕ} (hlt : rate < 2 ^ 29)
    (h : Representable rate) :
    ∃ pb, openPlayback b rate = some pb ∧ pb.rate = rate ∧ decodedRate pb.sdFormat = rate ∧
      decodedRate pb.codecFormat = rate := by
  obtain ⟨v, hv, hdec⟩ := formatVal_of_representable b hlt h
  exact ⟨⟨v, v, rate⟩, by simp [openPlayback, hv], rfl, hdec, hdec⟩

theorem openBackend_spec (b : Build) {rate : ℕ} (hlt : rate < 2 ^ 29) :
    ∃ hw pb, openBackend b rate = some (hw, pb) ∧ pb.rate = hw ∧
      decodedRate pb.sdFormat = hw ∧ decodedRate pb.codecFormat = hw := by
  by_cases h : Representable rate
  · obtain ⟨c, -, -, henc⟩ := encodeRate_of_representable b hlt h
    obtain ⟨pb, hpb, hspec⟩ := openPlayback_of_representable b hlt h
    exact ⟨rate, pb, by simp [openBackend, rateSupported, henc, hpb], hspec⟩
  · have henc := encodeRate_of_not_representable b hlt h
    obtain ⟨hnear, hrep⟩ := hdaRates_representable _ (nearestHdaRate_mem rate)
    obtain ⟨pb, hpb, hspec⟩ :=
      openPlayback_of_representable b hnear (representable_iff.mpr hrep)
    exact ⟨nearestHdaRate rate, pb, by simp [openBackend, rateSupported, henc, hpb], hspec⟩

/-! ### Which rates are encoded faithfully -/

theorem Faithful.of_lt (b : Build) {rate : ℕ} (hlt : rate < 2 ^ 29) : Faithful b rate where
  encode := by
    by_cases h : Representable rate
    · obtain ⟨c, hc, heq, henc⟩ := encodeRate_of_representable b hlt h
      refine ⟨some c.fields, henc, by simp [h], fun base mult div hr => ?_⟩
      obtain ⟨rfl, rfl, rfl⟩ : c.base = base ∧ c.mult = mult ∧ c.div = div := by
        simpa [Candidate.fields] using hr
      rw [baseFreq_of_mem hc, heq]
    · exact ⟨none, encodeRate_of_not_representable b hlt h, by simp [h], by simp⟩
  decode := by
    by_cases h : Representable rate
    · obtain ⟨v, hv, hdec⟩ := formatVal_of_representable b hlt h
      exact ⟨v, hv, fun _ => hdec, fun hn => absurd h hn⟩
    · obtain ⟨v, hv, hdec⟩ := formatVal_of_not_representable b hlt h
      exact ⟨v, hv, fun hy => absurd hy h, fun _ => hdec⟩
  backend := openBackend_spec b hlt
  fits := by
    obtain ⟨hw, pb, hopen, -⟩ := openBackend_spec .debug hlt
    rw [encodeRate_eq_find .debug hlt, hopen]
    exact ⟨Option.some_ne_none _, Option.some_ne_none _⟩

/- No true match, and one product too large: a checking build stops. -/
theorem search_debug_eq_none {rate : ℕ} {cs : List Candidate}
    (hno : ∀ c ∈ cs, c.freq * c.mult ≠ rate * c.div) (hbig : ∃ c ∈ cs, 2 ^ 32 ≤ rate * c.div) :
    search .debug rate cs = none := by
  induction cs with
  | nil =>
    obtain ⟨c, hc, -⟩ := hbig
    exact absurd hc List.not_mem_nil
  | cons c cs ih =>
    cases hx : Build.debug.mul c.freq c.mult with
    | none => simp [search, hx]
    | some x =>
      cases hy : Build.debug.mul rate c.div with
      | none => simp [search, hx, hy]
      | some y =>
        have hxy : x ≠ y := by
          have hne := hno c List.mem_cons_self
          simp only [Build.mul, Option.ite_none_right_eq_some, Option.some.injEq] at hx hy
          omega
        have hrest : ∃ d ∈ cs, 2 ^ 32 ≤ rate * d.div := by
          obtain ⟨d, hd, hle⟩ := hbig
          rcases List.mem_cons.mp hd with rfl | hd
          · rw [Build.debug_mul_eq_none.mpr hle] at hy
            cases hy
          · exact ⟨d, hd, hle⟩
        simp only [search, hx, hy, Option.bind_eq_bind, Option.bind_some, if_neg hxy]
        exact ih (fun d hd => hno d (List.mem_cons_of_mem _ hd)) hrest

/-- A rate is encoded faithfully, by either build, if and only if eight times the rate is
a `u32`. -/
theorem faithful_iff (b : Build) (rate : ℕ) : Faithful b rate ↔ rate < 2 ^ 29 := by
  constructor
  · intro h
    by_contra hge
    refine h.fits.1
      (search_debug_eq_none (fun c hc heq => ?_) ⟨⟨48000, 0, 1, 8⟩, by decide, ?_⟩)
    · have hle := freq_mul_le hc
      have hpos := (mem_candidates.mp hc).2.2.1
      have hmul : rate ≤ rate * c.div := Nat.le_mul_of_pos_right _ hpos
      omega
    · change 2 ^ 32 ≤ rate * 8
      omega
  · exact Faithful.of_lt b

/- Twice `2 ^ 31 + 24000` is 48000 in 32 bits. -/
theorem encodeRate_false_match :
    encodeRate .release 2147507648 = some (some (0, 1, 2)) ∧ 48000 * 1 ≠ 2147507648 * 2 ∧
      formatVal .release 2147507648 = formatVal .release 24000 ∧
      encodeRate .debug 2147507648 = none ∧
      ¬ ∀ b rate, rate < 2 ^ 32 → Faithful b rate := by
  refine ⟨by decide +kernel, by decide, by decide +kernel, by decide +kernel, fun h => ?_⟩
  obtain ⟨r, henc, -, heq⟩ := (h .release 2147507648 (by norm_num)).encode
  have hr : r = some (0, 1, 2) := Option.some.inj (henc.symm.trans (by decide +kernel))
  exact absurd (heq 0 1 2 hr) (by decide)

end Audiod.Rates
