import Audiod.Machine
import Audiod.Ring
import Audiod.Fold

/-!
# PCM from `snd_pcm_writei` to the server's fold

The shim ring between the application and the drain thread, without drops and
send failures: a write pushes whole frames (`shim/src/lib.rs:1168-1187`), the
drain thread pops at most `DRAIN_CHUNK` bytes and sends them as one PCM chunk
(`lib.rs:493-508`), and the server folds every chunk it receives on its own. A
chunk may end inside a frame; the fold drops that tail, and the next chunk
then starts in the middle of the frame.
-/

namespace Audiod.Chunking

inductive Input
  | writei (data : Bytes)
  | drain
  deriving DecidableEq

inductive Event
  | written (data : Bytes)
  | sent (chunk : Bytes)

/-- `nbytes = size * fb` makes a write a whole number of frames; it blocks while
the ring is short of space. -/
def step (fmt ch : ℕ) (r : Ring Byte) : Input → Option (Ring Byte × List Event)
  | .writei data =>
    if frameBytes fmt ch ∣ data.length then (r.push data).map fun r => (r, [.written data])
    else none
  | .drain => (r.pop drainChunk).map fun (chunk, r) => (r, [.sent chunk])

def machine (fmt ch : ℕ) : Machine (Ring Byte) Input Event := ⟨step fmt ch⟩

def written (tr : List Event) : Bytes :=
  tr.flatMap fun | .written d => d | .sent _ => []

def chunks (tr : List Event) : List Bytes :=
  tr.flatMap fun | .written _ => [] | .sent d => [d]

section

variable (σ : Type*) [SampleArith σ]

/-- What the server folds is the fold of the stream sent so far. -/
def Faithful (fmt ch : ℕ) (tr : List Event) : Prop :=
  (chunks tr).flatMap (fun d => (foldToStereo d fmt ch : List σ)) =
    foldToStereo ((written tr).take (chunks tr).flatten.length) fmt ch

/-- A pop is harmless when the ring holds whole frames: the chunk starts on a
frame boundary. -/
def AtBoundary (fmt ch : ℕ) (r : Ring Byte) : Input → Prop
  | .writei _ => True
  | .drain => frameBytes fmt ch ∣ r.filled

/-- Written bytes are the sent ones and those still queued, and as long as only
the last chunk may end inside a frame the folds agree. -/
structure Inv (fmt ch : ℕ) (r : Ring Byte) (tr : List Event) : Prop where
  live : r.raw.interrupted = false
  queued : written tr = (chunks tr).flatten ++ r.contents
  whole : frameBytes fmt ch ∣ (written tr).length
  fold : (chunks tr).flatMap (fun d => (foldToStereo d fmt ch : List σ)) =
    foldToStereo (chunks tr).flatten fmt ch

variable {σ}

theorem Inv.faithful {fmt ch : ℕ} {r : Ring Byte} {tr : List Event} (h : Inv σ fmt ch r tr) :
    Faithful σ fmt ch tr := by
  unfold Faithful
  rw [h.fold, h.queued, List.take_left' rfl]

theorem inv_new (fmt ch capacity : ℕ) : Inv σ fmt ch (Ring.new capacity) [] :=
  ⟨rfl, rfl, by simp [written], by simp [chunks, foldToStereo]⟩

theorem inv_writei {fmt ch : ℕ} {r r' : Ring Byte} {tr : List Event} {data : Bytes}
    (h : Inv σ fmt ch r tr) (hd : frameBytes fmt ch ∣ data.length) (hp : r.push data = some r') :
    Inv σ fmt ch r' (tr ++ [.written data]) := by
  obtain ⟨-, hc, -, hi⟩ := Ring.push_spec hp
  refine ⟨hi.trans h.live, ?_, ?_, ?_⟩
  · simp only [written, chunks, List.flatMap_append, List.flatMap_singleton, List.append_nil]
    change written tr ++ data = (chunks tr).flatten ++ r'.contents
    rw [h.queued, hc, List.append_assoc]
  · simp only [written, List.flatMap_append, List.flatMap_singleton, List.length_append]
    exact (Nat.dvd_add_right h.whole).mpr hd
  · simp only [chunks, List.flatMap_append, List.flatMap_singleton, List.append_nil]
    exact h.fold

theorem inv_drain {fmt ch : ℕ} {r r' : Ring Byte} {tr : List Event} {chunk : Bytes}
    (hpos : 0 < frameBytes fmt ch) (h : Inv σ fmt ch r tr) (hb : frameBytes fmt ch ∣ r.filled)
    (hp : r.pop drainChunk = some (chunk, r')) :
    Inv σ fmt ch r' (tr ++ [.sent chunk]) := by
  obtain ⟨-, hd, hc, -, hi⟩ := Ring.pop_spec h.live hp
  have hsent : frameBytes fmt ch ∣ (chunks tr).flatten.length := by
    have hw := h.whole
    rw [h.queued, List.length_append, Ring.contents_length] at hw
    exact (Nat.dvd_add_iff_left hb).mpr hw
  have hch : chunks (tr ++ [.sent chunk]) = chunks tr ++ [chunk] := by simp [chunks]
  have hwr : written (tr ++ [.sent chunk]) = written tr := by simp [written]
  refine ⟨hi, ?_, by rw [hwr]; exact h.whole, ?_⟩
  · rw [hwr, hch, List.flatten_append, h.queued, List.append_assoc]
    simp only [List.flatten_singleton]
    rw [hd, hc, List.take_append_drop]
  · rw [hch, List.flatMap_append, List.flatten_append, h.fold]
    simp only [List.flatMap_singleton, List.flatten_singleton]
    exact (foldToStereo_append _ _ fmt ch hpos hsent).symm

theorem inv_step {fmt ch : ℕ} (hpos : 0 < frameBytes fmt ch) (r : Ring Byte) (tr : List Event)
    (i : Input) (r' : Ring Byte) (e : List Event) (hok : AtBoundary fmt ch r i)
    (h : Inv σ fmt ch r tr) (hs : (machine fmt ch).step r i = some (r', e)) :
    Inv σ fmt ch r' (tr ++ e) := by
  cases i with
  | writei data =>
    simp only [machine, step] at hs
    split at hs
    · rename_i hd
      obtain ⟨r₁, hp, he⟩ := Option.map_eq_some_iff.mp hs
      cases he
      exact inv_writei h hd hp
    · cases hs
  | drain =>
    obtain ⟨⟨chunk, r₁⟩, hp, he⟩ := Option.map_eq_some_iff.mp hs
    cases he
    exact inv_drain hpos h hok hp

theorem run_faithful {fmt ch capacity : ℕ} (hpos : 0 < frameBytes fmt ch) {is : List Input}
    {r : Ring Byte} {tr : List Event}
    (hok : (machine fmt ch).Meets (AtBoundary fmt ch) (Ring.new capacity) is)
    (hrun : (machine fmt ch).run (Ring.new capacity) is = some (r, tr)) :
    Faithful σ fmt ch tr :=
  have hnew : Inv σ fmt ch (Ring.new capacity) [] := inv_new fmt ch capacity
  ((machine fmt ch).run_inv_of_meets (inv_step hpos) hnew hok hrun).faithful

/-! ### Frame sizes that divide the chunk size keep every pop aligned -/

theorem filled_dvd_step {fmt ch : ℕ} (hdvd : frameBytes fmt ch ∣ drainChunk) {r r' : Ring Byte}
    {i : Input} {e : List Event} (hi : r.raw.interrupted = false)
    (hf : frameBytes fmt ch ∣ r.filled) (hs : (machine fmt ch).step r i = some (r', e)) :
    r'.raw.interrupted = false ∧ frameBytes fmt ch ∣ r'.filled := by
  cases i with
  | writei data =>
    simp only [machine, step] at hs
    split at hs
    · rename_i hd
      obtain ⟨r₁, hp, he⟩ := Option.map_eq_some_iff.mp hs
      cases he
      obtain ⟨-, hc, -, hi'⟩ := Ring.push_spec hp
      rw [← Ring.contents_length, hc, List.length_append, Ring.contents_length]
      exact ⟨hi'.trans hi, (Nat.dvd_add_right hf).mpr hd⟩
    · cases hs
  | drain =>
    obtain ⟨⟨chunk, r₁⟩, hp, he⟩ := Option.map_eq_some_iff.mp hs
    cases he
    obtain ⟨-, -, hc, -, hi'⟩ := Ring.pop_spec hi hp
    rw [← Ring.contents_length, hc, List.length_drop, Ring.contents_length]
    exact ⟨hi', Nat.dvd_sub hf hdvd⟩

theorem meets_of_dvd {fmt ch : ℕ} (hdvd : frameBytes fmt ch ∣ drainChunk) (is : List Input) :
    ∀ r : Ring Byte, r.raw.interrupted = false → frameBytes fmt ch ∣ r.filled →
      (machine fmt ch).Meets (AtBoundary fmt ch) r is := by
  induction is with
  | nil => intro r _ _; trivial
  | cons i is ih =>
    intro r hi hf
    refine ⟨?_, fun mid e hs => ?_⟩
    · cases i with
      | writei data => trivial
      | drain => exact hf
    · have h := filled_dvd_step hdvd hi hf hs
      exact ih mid h.1 h.2

/-! ### Other frame sizes lose a frame at the first cut -/

/-- One frame more than fits a chunk, all zero. -/
def overflowWrite (fmt ch : ℕ) : Bytes :=
  List.replicate ((drainChunk / frameBytes fmt ch + 1) * frameBytes fmt ch) 0

def overflowRun (fmt ch : ℕ) : List Input := [.writei (overflowWrite fmt ch), .drain, .drain]

theorem overflowRun_spec {fmt ch : ℕ} (hpos : 0 < frameBytes fmt ch)
    (hle : frameBytes fmt ch ≤ drainChunk) (hdvd : ¬frameBytes fmt ch ∣ drainChunk) :
    ∃ r, (machine fmt ch).run (Ring.new 2048) (overflowRun fmt ch) =
      some (r, [.written (overflowWrite fmt ch),
        .sent ((overflowWrite fmt ch).take drainChunk),
        .sent ((overflowWrite fmt ch).drop drainChunk)]) := by
  have hdm := Nat.div_add_mod drainChunk (frameBytes fmt ch)
  have hmod := Nat.mod_lt drainChunk hpos
  have hmod0 : 0 < drainChunk % frameBytes fmt ch :=
    Nat.pos_of_ne_zero fun h => hdvd (Nat.dvd_of_mod_eq_zero h)
  have hlen : (overflowWrite fmt ch).length =
      frameBytes fmt ch * (drainChunk / frameBytes fmt ch) + frameBytes fmt ch := by
    simp only [overflowWrite, List.length_replicate, Nat.add_mul, Nat.one_mul]
    rw [Nat.mul_comm]
  have hlong : drainChunk < (overflowWrite fmt ch).length := by omega
  have hcap : (Ring.new 2048 : Ring Byte).capacity = 2048 := by decide
  have hdc : drainChunk = 1024 := rfl
  have hroom : (Ring.new 2048 : Ring Byte).filled + (overflowWrite fmt ch).length ≤
      (Ring.new 2048 : Ring Byte).capacity := by
    rw [hcap, Ring.filled_new]
    omega
  obtain ⟨r₁, hp₁⟩ := Ring.push_isSome hroom
  obtain ⟨-, hc₁, -, hi₁⟩ := Ring.push_spec hp₁
  rw [Ring.contents_new, List.nil_append] at hc₁
  have hne₁ : r₁.contents ≠ [] := by
    rw [hc₁, ← List.length_pos_iff]
    omega
  obtain ⟨⟨d₁, r₂⟩, hp₂⟩ := Ring.pop_isSome drainChunk hi₁ hne₁
  obtain ⟨-, hd₁, hc₂, -, hi₂⟩ := Ring.pop_spec hi₁ hp₂
  rw [hc₁] at hd₁ hc₂
  have hne₂ : r₂.contents ≠ [] := by
    rw [hc₂, ← List.length_pos_iff, List.length_drop]
    omega
  obtain ⟨⟨d₂, r₃⟩, hp₃⟩ := Ring.pop_isSome drainChunk hi₂ hne₂
  obtain ⟨-, hd₂, -, -, -⟩ := Ring.pop_spec hi₂ hp₃
  rw [hc₂, List.take_of_length_le (by rw [List.length_drop]; omega)] at hd₂
  subst hd₁
  subst hd₂
  refine ⟨r₃, ?_⟩
  have hw : frameBytes fmt ch ∣ (overflowWrite fmt ch).length := by
    rw [hlen]
    exact Dvd.intro _ (Nat.mul_succ _ _)
  simp only [overflowRun, Machine.run, machine, step, hw, ite_true, hp₁, hp₂, hp₃, Option.map_some]
  rfl

/- The first chunk drops its trailing part of a frame, the second is one frame
minus that part: a frame is lost whatever the samples are. -/
theorem overflowRun_not_faithful {fmt ch : ℕ} (hpos : 0 < frameBytes fmt ch)
    (hdvd : ¬frameBytes fmt ch ∣ drainChunk) :
    ¬Faithful σ fmt ch [.written (overflowWrite fmt ch),
      .sent ((overflowWrite fmt ch).take drainChunk),
      .sent ((overflowWrite fmt ch).drop drainChunk)] := by
  intro h
  have hdm := Nat.div_add_mod drainChunk (frameBytes fmt ch)
  have hmod := Nat.mod_lt drainChunk hpos
  have hmod0 : 0 < drainChunk % frameBytes fmt ch :=
    Nat.pos_of_ne_zero fun h => hdvd (Nat.dvd_of_mod_eq_zero h)
  generalize hq : drainChunk / frameBytes fmt ch = q at hdm
  have hlen : (overflowWrite fmt ch).length = frameBytes fmt ch * (q + 1) := by
    simp only [overflowWrite, List.length_replicate, hq]
    rw [Nat.mul_comm]
  have hmul : frameBytes fmt ch * (q + 1) = frameBytes fmt ch * q + frameBytes fmt ch := by ring
  have hn := congrArg List.length h
  simp only [chunks, written, List.flatMap_cons, List.flatMap_nil, List.append_nil,
    List.nil_append, List.flatten_cons, List.flatten_nil, List.length_append,
    foldToStereo_length, List.length_take, List.length_drop, List.cons_append] at hn
  rw [hlen] at hn
  have e₁ : min drainChunk (frameBytes fmt ch * (q + 1)) = drainChunk := by omega
  have e₂ : (frameBytes fmt ch * (q + 1) - drainChunk) / frameBytes fmt ch = 0 :=
    Nat.div_eq_of_lt (by omega)
  have e₃ : min (drainChunk + (frameBytes fmt ch * (q + 1) - drainChunk))
      (frameBytes fmt ch * (q + 1)) = frameBytes fmt ch * (q + 1) := by omega
  rw [e₁, e₂, e₃, Nat.mul_div_cancel_left _ hpos, hq] at hn
  omega

/-- Chunk by chunk folding is faithful in every run whose pops start on frame
boundaries, and in all runs of a format exactly when its frame size divides
the chunk size, that is for 1, 2, 4 and 8 channels. -/
theorem chunk_folds_faithful_iff (fmt ch : ℕ) (hfmt : fmt = formatS16Le ∨ fmt = formatFloatLe)
    (hch : 1 ≤ ch ∧ ch ≤ 8) :
    (∀ capacity is r tr,
      (machine fmt ch).Meets (AtBoundary fmt ch) (Ring.new capacity) is →
      (machine fmt ch).run (Ring.new capacity) is = some (r, tr) → Faithful σ fmt ch tr) ∧
    ((∀ capacity is r tr,
      (machine fmt ch).run (Ring.new capacity) is = some (r, tr) → Faithful σ fmt ch tr) ↔
      frameBytes fmt ch ∣ drainChunk) := by
  have hbps : pcmFormatBytes fmt = 2 ∨ pcmFormatBytes fmt = 4 := by
    rcases hfmt with rfl | rfl
    · exact Or.inl rfl
    · exact Or.inr rfl
  have hpos : 0 < frameBytes fmt ch := by
    unfold frameBytes
    rcases hbps with h | h <;> rw [h] <;> omega
  have hle : frameBytes fmt ch ≤ drainChunk := by
    unfold frameBytes drainChunk
    rcases hbps with h | h <;> rw [h] <;> omega
  refine ⟨fun capacity is r tr hok hrun => run_faithful hpos hok hrun, fun h => ?_, ?_⟩
  · by_contra hdvd
    obtain ⟨r, hrun⟩ := overflowRun_spec hpos hle hdvd
    exact overflowRun_not_faithful hpos hdvd (h 2048 _ r _ hrun)
  · intro hdvd capacity is r tr hrun
    have hok := meets_of_dvd hdvd is (Ring.new capacity) rfl (by simp)
    exact run_faithful hpos hok hrun

end

/- Three channels of S16: 1024 is not a multiple of six. -/
theorem chunk_folds_faithful_iff_three_channels :
    (∀ capacity is r tr,
      (machine 2 3).Meets (AtBoundary 2 3) (Ring.new capacity) is →
      (machine 2 3).run (Ring.new capacity) is = some (r, tr) → Faithful F32 2 3 tr) ∧
    ((∀ capacity is r tr,
      (machine 2 3).run (Ring.new capacity) is = some (r, tr) → Faithful F32 2 3 tr) ↔
      frameBytes 2 3 ∣ drainChunk) :=
  chunk_folds_faithful_iff 2 3 (Or.inl rfl) (by decide)

theorem three_channels_lose_a_frame :
    ¬ ∀ fmt ch, fmt = formatS16Le ∨ fmt = formatFloatLe → 1 ≤ ch ∧ ch ≤ 8 →
      ∀ capacity is r tr, (machine fmt ch).run (Ring.new capacity) is = some (r, tr) →
        Faithful F32 fmt ch tr := by
  intro h
  have hpos : 0 < frameBytes 2 3 := by decide
  have hdvd : ¬frameBytes 2 3 ∣ drainChunk := by decide
  obtain ⟨r, hrun⟩ := overflowRun_spec hpos (by decide) hdvd
  exact overflowRun_not_faithful hpos hdvd (h 2 3 (Or.inl rfl) (by decide) 2048 _ r _ hrun)

end Audiod.Chunking
