import Audiod.Header
import Audiod.Mixer
import Audiod.Resampler
import Audiod.Shim

/-!
# The pushes of the program and the room they wait for

`reader_client` (`server/src/main.rs:534-581`) with the ring of its stream: a chunk
becomes the data of a push, and the push waits until all of it fits. Arithmetic is a
parameter, as in the resampler. The other producer is `snd_pcm_writei`.
-/

namespace Audiod

/-- What a producer waiting on a ring of this capacity needs: on every such ring that
the consumer has emptied, the wait is over. -/
def Passable {α : Type*} (capacity : ℕ) (data : List α) : Prop :=
  ∀ ring : Ring α, ring.capacity = capacity → ring.contents = [] →
    ∃ ring', ring.push data = some ring'

theorem passable_iff {α : Type*} (ring : Ring α) (data : List α) :
    Passable ring.capacity data ↔ data.length ≤ ring.capacity := by
  constructor
  · intro h
    obtain ⟨ring', hpush⟩ := h ring.clear rfl rfl
    have hfit := (Ring.push_spec hpush).1
    rw [Ring.filled_clear, Nat.zero_add] at hfit
    exact hfit
  · intro hle other hcap hempty
    apply Ring.push_isSome
    rw [Ring.contents_eq_nil.mp hempty, hcap, Nat.zero_add]
    exact hle

/-- The rest of the `f32` operations of `f32_stereo_to_s16`. -/
class PackArith (σ : Type*) extends SampleArith σ where
  /- `clamp(-1.0, 1.0)` -/
  clampUnit : σ → σ
  /- `as i16` -/
  toI16 : σ → ℤ

instance : PackArith F32 where
  clampUnit := F32.clamp (-1) 1
  toI16 := F32.toInt (-32768) 32767

section

variable {σ : Type*} [PackArith σ]

open SampleArith PackArith

def f32StereoToS16 (inp : List σ) : Bytes :=
  inp.flatMap fun v => Mixer.leI16 (toI16 (mul (clampUnit v) (ofInt 32767)))

theorem f32StereoToS16_length (inp : List σ) : (f32StereoToS16 inp).length = 2 * inp.length := by
  simp [f32StereoToS16, List.length_flatMap, Mixer.leI16_length, Nat.mul_comm]

structure Reader (σ : Type*) where
  cfg : AudioCfg
  mixRate : ℕ
  resampler : Option (Resampler σ)

namespace Reader

/-- The set-up of `reader_client`; `kind` is the configured resampler. -/
def new (δ : Type*) [WideArith δ] [FloatCasts δ σ] (cfg : AudioCfg) (mixRate : ℕ) (kind : String) :
    Reader σ :=
  ⟨cfg, mixRate, Resampler.new δ cfg.rate mixRate kind⟩

def Direct (r : Reader σ) : Prop :=
  r.cfg.format = formatS16Le ∧ r.cfg.channels = 2 ∧ r.cfg.rate = r.mixRate

instance (r : Reader σ) : Decidable r.Direct := inferInstanceAs (Decidable (_ ∧ _))

/-- The packed samples, unless they are less than a frame. -/
def packed (samples : List σ) : Option Bytes :=
  let s16 := f32StereoToS16 samples
  if s16.length / 4 = 0 then none else some s16

/-- One chunk: what it makes of the reader and what is pushed, if anything. -/
def chunk (r : Reader σ) (data : Bytes) : Option (Reader σ × Option Bytes) :=
  if r.Direct then some (r, if 4 ∣ data.length then some data else none)
  else
    let folded : List σ := foldToStereo data r.cfg.format r.cfg.channels
    match r.resampler with
    | none => some (r, packed folded)
    | some rs =>
      (rs.resample folded).map fun (rs, out, _) =>
        ({ r with resampler := some rs }, packed (out.flatMap fun lr => [lr.1, lr.2]))

/-! ### How much a chunk pushes -/

/-- The bytes pushed for `data`: all of it, four for each folded frame, or four for
each frame the resampler makes of them. -/
def need (r : Reader σ) (data : Bytes) : ℕ :=
  if r.Direct then if 4 ∣ data.length then data.length else 0
  else
    let frames := data.length / frameBytes r.cfg.format r.cfg.channels
    match r.resampler with
    | none => 4 * frames
    | some rs =>
      let received := rs.hist.length / 2
      4 * (Resampler.framesMade r.cfg.rate r.mixRate (received + frames) -
        Resampler.framesMade r.cfg.rate r.mixRate received)

/-- The rates are positive and the resampler is where its input has brought it. -/
structure Inv (r : Reader σ) : Prop where
  rate : 0 < r.cfg.rate
  resampler : ∀ rs, r.resampler = some rs → 0 < r.mixRate ∧ ∃ kd input K,
    Resampler.Inv kd (r.cfg.rate / Nat.gcd r.cfg.rate r.mixRate)
      (r.mixRate / Nat.gcd r.cfg.rate r.mixRate) input K rs

omit [PackArith σ] in
theorem inv_new (δ : Type*) [WideArith δ] [FloatCasts δ σ] {cfg : AudioCfg} (hrate : 0 < cfg.rate)
    (mixRate : ℕ) (kind : String) : (Reader.new δ cfg mixRate kind : Reader σ).Inv := by
  refine ⟨hrate, fun rs hrs => ?_⟩
  simp only [Reader.new, Resampler.new, gcd_eq] at hrs
  split at hrs
  · cases hrs
  · rename_i hne
    cases hrs
    refine ⟨by simp only [Reader.new]; omega, _, [], 0, Resampler.inv_new _ _ _⟩

theorem packed_length (samples : List σ) (n : ℕ) (hn : samples.length = 2 * n) :
    (packed samples).elim 0 List.length = 4 * n := by
  have hlen : (f32StereoToS16 samples).length = 4 * n := by
    rw [f32StereoToS16_length, hn]
    omega
  simp only [packed, hlen]
  split
  · simp only [Option.elim]
    omega
  · exact hlen

/-- No chunk stops the thread, and each pushes as much as it needs. -/
theorem chunk_spec {r : Reader σ} (h : r.Inv) (data : Bytes) :
    ∃ r' out, r.chunk data = some (r', out) ∧ r'.Inv ∧ out.elim 0 List.length = r.need data := by
  by_cases hdirect : r.Direct
  · refine ⟨r, _, by rw [chunk, if_pos hdirect], h, ?_⟩
    rw [need, if_pos hdirect]
    split <;> rfl
  · have hfold : (foldToStereo data r.cfg.format r.cfg.channels : List σ).length =
        2 * (data.length / frameBytes r.cfg.format r.cfg.channels) := foldToStereo_length _ _ _
    cases hrs : r.resampler with
    | none =>
      refine ⟨r, packed (foldToStereo data r.cfg.format r.cfg.channels : List σ), ?_, h, ?_⟩
      · simp only [chunk, if_neg hdirect, hrs]
      · simp only [need, if_neg hdirect, hrs]
        exact packed_length _ _ hfold
    | some rs =>
      obtain ⟨hmix, kd, input, K, hinv⟩ := h.resampler rs hrs
      have hnum := Nat.div_gcd_pos_of_pos_left r.mixRate h.rate
      have hden := Nat.div_gcd_pos_of_pos_right r.cfg.rate hmix
      obtain ⟨rs', n, out, hresample, hframes, hinv'⟩ := Resampler.resample_spec hden hnum hinv
        (foldToStereo data r.cfg.format r.cfg.channels)
      have hout : out.length = n := by simpa using congrArg List.length hframes
      refine ⟨{ r with resampler := some rs' }, packed (out.flatMap fun lr => [lr.1, lr.2]), ?_,
        ⟨h.rate, fun rs'' hrs'' => ?_⟩, ?_⟩
      · simp only [chunk, if_neg hdirect, hrs, hresample, Option.map_some]
      · cases hrs''
        exact ⟨hmix, kd, _, _, hinv'⟩
      · have hbefore := hinv.framesMade_eq h.rate hmix
        have hafter := hinv'.framesMade_eq h.rate hmix
        have hreceived : (input ++ foldToStereo data r.cfg.format r.cfg.channels).length / 2 =
            input.length / 2 + data.length / frameBytes r.cfg.format r.cfg.channels := by
          rw [List.length_append, hfold]
          omega
        rw [hreceived] at hafter
        simp only [need, if_neg hdirect, hrs, hinv.hist]
        rw [← hbefore, ← hafter, Nat.add_sub_cancel_left]
        exact packed_length _ _ (by simp [List.length_flatMap, hout, Nat.mul_comm])

end Reader

/-- A reader thread between two chunks, or at the push of the one it has read. -/
structure Feed (σ : Type*) where
  reader : Reader σ
  ring : Ring Byte
  pending : Option Bytes

/-- The mixer pops and clears on its own. -/
inductive FeedInput
  | chunk (data : Bytes)
  | push
  | pop (n : ℕ)
  | clear

namespace Feed

/-- The length prefix is a `u32`, and zero announces a command. A step's event is the
data of the push it arrives at. -/
def step (f : Feed σ) : FeedInput → Option (Feed σ × List Bytes)
  | .chunk data =>
    if f.pending.isSome ∨ data.length = 0 ∨ 2 ^ 32 ≤ data.length then none
    else (f.reader.chunk data).map fun (r, out) =>
      ({ f with reader := r, pending := out }, out.toList)
  | .push =>
    f.pending.bind fun data =>
    (f.ring.push data).map fun ring => ({ f with ring := ring, pending := none }, [])
  | .pop n => some ({ f with ring := (f.ring.tryPop n).2 }, [])
  | .clear => some ({ f with ring := f.ring.clear }, [])

def machine : Machine (Feed σ) FeedInput Bytes := ⟨step⟩

def new (δ : Type*) [WideArith δ] [FloatCasts δ σ] (cfg : AudioCfg) (mixRate : ℕ) (kind : String)
    (ringBytes : ℕ) : Feed σ :=
  ⟨.new δ cfg mixRate kind, Ring.new ringBytes, none⟩

/-- The chunk that is read makes no push longer than the ring of the stream. -/
def Fits (ringBytes : ℕ) (f : Feed σ) : FeedInput → Prop
  | .chunk data => f.reader.need data ≤ nextPowerOfTwo ringBytes
  | _ => True

/-- The reader is sound and the ring as large as it was made. -/
structure Inv (capacity : ℕ) (f : Feed σ) : Prop where
  reader : f.reader.Inv
  live : f.ring.raw.interrupted = false
  capacity : f.ring.capacity = capacity

/- The steps of one thread: the invariant, and the room each push needs. -/
theorem step_spec {capacity : ℕ} {f f' : Feed σ} {x : FeedInput} {es : List Bytes}
    (h : f.Inv capacity) (hs : f.step x = some (f', es)) :
    f'.Inv capacity ∧
      ((∀ data ∈ es, data.length ≤ capacity) ↔ ∀ data, x = .chunk data →
        f.reader.need data ≤ capacity) := by
  cases x with
  | chunk data =>
    simp only [step] at hs
    split at hs
    · cases hs
    · obtain ⟨r, out, hchunk, hr, hneed⟩ := Reader.chunk_spec h.reader data
      rw [hchunk] at hs
      cases hs
      refine ⟨⟨hr, h.live, h.capacity⟩, ?_⟩
      simp only [FeedInput.chunk.injEq, forall_eq', ← hneed]
      cases out with
      | none => simp
      | some d => simp
  | push =>
    obtain ⟨data, -, hpush⟩ := Option.bind_eq_some_iff.mp hs
    obtain ⟨ring, hring, heq⟩ := Option.map_eq_some_iff.mp hpush
    cases heq
    obtain ⟨-, -, hcap, hint⟩ := Ring.push_spec hring
    exact ⟨⟨h.reader, hint.trans h.live, hcap.trans h.capacity⟩, by simp⟩
  | pop n =>
    cases hs
    obtain ⟨-, -, hcap, hint⟩ := Ring.tryPop_spec n h.live
    exact ⟨⟨h.reader, hint, hcap.trans h.capacity⟩, by simp⟩
  | clear =>
    cases hs
    exact ⟨⟨h.reader, h.live, h.capacity⟩, by simp⟩

/- In a run every push can be let through exactly if every chunk read fits. -/
theorem run_passable_iff {ringBytes : ℕ} {f f' : Feed σ} {is : List FeedInput} {tr : List Bytes}
    (h : f.Inv (nextPowerOfTwo ringBytes)) (hrun : machine.run f is = some (f', tr)) :
    (∀ data ∈ tr, Passable f'.ring.capacity data) ↔ machine.Meets (Fits ringBytes) f is := by
  have hend := machine.run_state_inv (fun s x s' e hI hs => (step_spec hI hs).1) h hrun
  have hpass (data : Bytes) :
      Passable f'.ring.capacity data ↔ data.length ≤ nextPowerOfTwo ringBytes := by
    rw [passable_iff, hend.capacity]
  simp only [hpass]
  refine machine.forall_events_iff_meets (fun s x s' e hI hs => (step_spec hI hs).1)
    (fun s x s' e hI hs => ?_) h hrun
  rw [(step_spec hI hs).2]
  cases x <;> simp [Fits]

/- A thread that waits to push more than that waits for ever, whatever the mixer does. -/
theorem run_blocked {capacity : ℕ} {f f' : Feed σ} {is : List FeedInput} {tr : List Bytes}
    {data : Bytes} (h : f.Inv capacity) (hpending : f.pending = some data)
    (hlong : capacity < data.length) (hrun : machine.run f is = some (f', tr)) :
    f'.pending = some data := by
  have hstep (s : Feed σ) (x : FeedInput) (s' : Feed σ) (e : List Bytes)
      (hI : s.Inv capacity ∧ s.pending = some data) (hs : s.step x = some (s', e)) :
      s'.Inv capacity ∧ s'.pending = some data := by
    obtain ⟨hI, hp⟩ := hI
    refine ⟨(step_spec hI hs).1, ?_⟩
    cases x with
    | chunk d => simp [step, hp] at hs
    | push =>
      simp only [step, hp, Option.bind_some] at hs
      obtain ⟨ring, hring, -⟩ := Option.map_eq_some_iff.mp hs
      have hfit := (Ring.push_spec hring).1
      rw [hI.capacity] at hfit
      omega
    | pop n | clear =>
      cases hs
      exact hp
  exact (machine.run_state_inv hstep ⟨h, hpending⟩ hrun).2

end Feed

end

/-! ### Writes of the shim -/

namespace Shim

/-- The data of the `snd_pcm_writei` under way, until it is in the ring. -/
def AppPc.writing : AppPc → Option Bytes
  | .writeAnchor data | .writeSilent data | .writeMute _ data | .writePush data => some data
  | _ => none

theorem call_writing {p p' : Process} {h h' : Handle} {c : Call} {es : List Event}
    (hidle : h.app = .idle) (hs : h.call p c = some ((p', h'), es)) :
    h'.ring.capacity = h.ring.capacity ∧ ∀ data, h'.app.writing = some data →
      h.app.writing = some data ∨ c = .writei data := by
  cases c with
  | writei data =>
    simp only [Handle.call] at hs
    split at hs <;> cases hs <;> refine ⟨rfl, fun d hd => .inr ?_⟩
    · cases hd
      rfl
    · simp [AppPc.writing, hidle] at hd
  | hwParams | setParams fmt channels rate =>
    simp only [Handle.call, Handle.commit] at hs
    split at hs <;> cases hs <;> refine ⟨rfl, fun d hd => ?_⟩ <;>
      simp [AppPc.writing, hidle] at hd
  | pause on =>
    simp only [Handle.call] at hs
    split at hs <;> cases hs <;> exact ⟨rfl, fun _ hd => .inl hd⟩
  | drop | close =>
    cases hs
    exact ⟨rfl, fun _ hd => by simp [AppPc.writing] at hd⟩
  | setFormat fmt | setChannels n | setRate rate | prepare | drain | start =>
    cases hs
    exact ⟨rfl, fun _ hd => .inl hd⟩

theorem step_writing {p p' : Process} {h h' : Handle} {x : Input} {es : List Event}
    (hs : step p h x = some ((p', h'), es)) :
    h'.ring.capacity = h.ring.capacity ∧ ∀ data, h'.app.writing = some data →
      h.app.writing = some data ∨ x = .call (.writei data) := by
  cases x with
  | call c =>
    simp only [step] at hs
    split at hs
    · rename_i hidle
      obtain ⟨hcap, hwriting⟩ := call_writing hidle hs
      exact ⟨hcap, fun data hd => (hwriting data hd).imp_right fun heq => by rw [heq]⟩
    · cases hs
  | app a =>
    simp only [step, Handle.appStep] at hs
    cases hpc : h.app <;> rw [hpc] at hs <;> dsimp only at hs
    case writePush data =>
      split at hs
      · cases hs
      · rename_i ring hring
        cases hs
        exact ⟨(Ring.push_spec hring).2.2.1, nofun⟩
    case writeSilent data =>
      cases hs
      refine ⟨rfl, fun d hd => .inl ?_⟩
      dsimp only at hd
      split at hd
      · exact hd
      · split at hd <;> exact hd
    case writeAnchor data | writeMute cmd data =>
      cases hs
      exact ⟨rfl, fun _ hd => .inl hd⟩
    all_goals
      repeat' split at hs
      all_goals cases hs
      all_goals exact ⟨rfl, nofun⟩
  | drain a =>
    obtain ⟨hside, -, hring⟩ := Handle.drainStep_frame hs
    simp only [Handle.callerSide, Prod.mk.injEq] at hside
    obtain ⟨-, -, -, -, -, -, -, -, happ⟩ := hside
    refine ⟨?_, fun d hd => .inl (happ ▸ hd)⟩
    rcases hring with heq | ⟨d, hpop⟩
    · rw [heq]
    · exact Ring.pop_capacity hpop

/-- Of a handle in a run over `xs`: its ring has the configured size, and what it is
writing was passed to it. -/
structure WriteInv (shimBytes : ℕ) (xs : List Action) (i : ℕ) (h : Handle) : Prop where
  capacity : h.ring.capacity = nextPowerOfTwo shimBytes
  writing : ∀ data, h.app.writing = some data → .handle i (.call (.writei data)) ∈ xs

theorem run_writeInv {shimBytes : ℕ} {xs : List Action} {w : World} {tr : List (ℕ × Event)}
    (hcfg : ∀ ringBytes fd, .open ringBytes fd ∈ xs → ringBytes = shimBytes)
    (hrun : world.run World.init xs = some (w, tr)) :
    ∀ i h, w.handles i = some h → WriteInv shimBytes xs i h := by
  let J (w : World) : Prop := ∀ i h, w.handles i = some h → WriteInv shimBytes xs i h
  have hinit : J World.init := fun i h hh => by cases hh
  have hall : world.Meets (fun _ x => x ∈ xs) World.init xs :=
    world.meets_of_all World.init xs fun _ hx => hx
  refine world.run_state_inv_of_meets (fun w x w' es hx hJ hs => ?_) hinit hall hrun
  refine forall_handles_of_step hs hJ (fun _ _ hold _ => hold)
    (fun ringBytes fd hxo => ⟨?_, nofun⟩) ?_
  · rw [← hcfg ringBytes fd (hxo ▸ hx)]
    rfl
  · intro i y h h' fs hxi hh hold hstep
    obtain ⟨hcap, hwriting⟩ := step_writing hstep
    refine ⟨hcap.trans hold.capacity, fun data hdata => ?_⟩
    rcases hwriting data hdata with hbefore | rfl
    · exact hold.writing data hbefore
    · exact hxi ▸ hx

end Shim

/-! ### Every push of the program -/

/-- The data a reader thread pushes fits an emptied ring exactly if every chunk it
reads does, once it is folded and resampled; that of `snd_pcm_writei` exactly if the
write itself is no longer than the ring. -/
theorem run_pushes_passable (δ : Type*) {σ : Type*} [WideArith δ] [FloatCasts δ σ] [PackArith σ]
    {hdr : Bytes} {cfg : AudioCfg} (hcfg : parseHeader hdr = some cfg) (mixRate ringBytes : ℕ)
    (kind : String) {is : List FeedInput} {f : Feed σ} {tr : List Bytes}
    (hrun : Feed.machine.run (Feed.new δ cfg mixRate kind ringBytes) is = some (f, tr))
    {shimBytes : ℕ} {xs : List Shim.Action} {w : Shim.World} {es : List (ℕ × Shim.Event)}
    (hopen : ∀ n fd, .open n fd ∈ xs → n = shimBytes)
    (hshim : Shim.world.run Shim.World.init xs = some (w, es)) :
    ((∀ data ∈ tr, Passable f.ring.capacity data) ↔
      Feed.machine.Meets (Feed.Fits ringBytes)
        (Feed.new δ cfg mixRate kind ringBytes : Feed σ) is) ∧
    ∀ i h data, w.handles i = some h → h.app = .writePush data →
      .handle i (.call (.writei data)) ∈ xs ∧
        (Passable h.ring.capacity (data.map (Shim.Cell.mk · h.drops)) ↔
          data.length ≤ nextPowerOfTwo shimBytes) := by
  constructor
  · have hrate : 0 < cfg.rate := Nat.pos_of_ne_zero (parseHeader_rate hcfg)
    exact Feed.run_passable_iff ⟨Reader.inv_new δ hrate mixRate kind, rfl, rfl⟩ hrun
  · intro i h data hh happ
    have hinv := Shim.run_writeInv hopen hshim i h hh
    refine ⟨hinv.writing data (by rw [happ]; rfl), ?_⟩
    rw [passable_iff, List.length_map, hinv.capacity]

noncomputable instance : PackArith ℝ where
  clampUnit := fun x => max (-1) (min x 1)
  toI16 := fun x => max (-32768) (min (if x < 0 then ⌈x⌉ else ⌊x⌋) 32767)

/- A client that sends what the mixer mixes: its chunk is pushed as it is. -/
theorem run_direct (ringBytes : ℕ) (data : Bytes) (h4 : 4 ∣ data.length) (hpos : data.length ≠ 0)
    (hlt : data.length < 2 ^ 32) :
    ∃ f, f.ring = Ring.new ringBytes ∧ f.pending = some data ∧ Feed.machine.run
      (Feed.new ℝ (.new 48000 2 formatS16Le) 48000 "sinc" ringBytes : Feed ℝ) [.chunk data] =
        some (f, [data]) := by
  have hdirect : (Reader.new ℝ (.new 48000 2 formatS16Le) 48000 "sinc" : Reader ℝ).Direct :=
    ⟨rfl, rfl, rfl⟩
  have hpre : ¬(data.length = 0 ∨ 2 ^ 32 ≤ data.length) := by omega
  refine ⟨⟨.new ℝ (.new 48000 2 formatS16Le) 48000 "sinc", Ring.new ringBytes, some data⟩, rfl,
    rfl, ?_⟩
  simp only [Feed.machine, Machine.run, Feed.step, Feed.new, Option.isSome_none,
    Bool.false_eq_true, false_or, if_neg hpre, Reader.chunk, if_pos hdirect, if_pos h4,
    Option.map_some, Option.toList_some, List.append_nil]

/-- A handle is configured and a frame written, up to its push. -/
def frameRun : List Shim.Action :=
  [.open 4096 3, .handle 0 (.call (.setParams 2 2 48000)), .handle 0 (.app .go),
    .handle 0 (.app .go), .handle 0 (.app (.accept 12)), .handle 0 (.call (.writei [1, 0, 2, 0])),
    .handle 0 (.app .go), .handle 0 (.app .go)]

theorem run_pushes_passable_frame : ∃ f tr w es,
    Feed.machine.run (Feed.new ℝ (.new 48000 2 formatS16Le) 48000 "sinc" 65536 : Feed ℝ)
      [.chunk [1, 0, 2, 0]] = some (f, tr) ∧
    Shim.world.run Shim.World.init frameRun = some (w, es) ∧
      (∀ data ∈ tr, Passable f.ring.capacity data) ∧ ∃ h, w.handles 0 = some h ∧
        h.app = .writePush [1, 0, 2, 0] ∧
          Passable h.ring.capacity ([1, 0, 2, 0].map (Shim.Cell.mk · h.drops)) := by
  obtain ⟨f, -, -, hrun⟩ := run_direct 65536 [1, 0, 2, 0] (by decide) (by decide) (by decide)
  have hopen (n fd : ℕ) (hmem : .open n fd ∈ frameRun) : n = 4096 := by
    simp only [frameRun, List.mem_cons, Shim.Action.open.injEq, reduceCtorEq, List.not_mem_nil,
      or_false] at hmem
    exact hmem.1
  have hcfg : parseHeader (headerBytes 48000 2 formatS16Le) = some (.new 48000 2 formatS16Le) := by
    decide
  obtain ⟨hserver, hshim⟩ := run_pushes_passable ℝ hcfg 48000 65536 "sinc" hrun hopen rfl
  have hneed : (Feed.new ℝ (.new 48000 2 formatS16Le) 48000 "sinc" 65536 : Feed ℝ).reader.need
      [1, 0, 2, 0] = 4 := by
    rw [Reader.need, if_pos ⟨rfl, rfl, rfl⟩]
    rfl
  have hfits : Feed.machine.Meets (Feed.Fits 65536)
      (Feed.new ℝ (.new 48000 2 formatS16Le) 48000 "sinc" 65536 : Feed ℝ)
      [.chunk [1, 0, 2, 0]] := by
    refine ⟨?_, fun _ _ _ => trivial⟩
    rw [Feed.Fits, hneed]
    decide
  exact ⟨f, _, _, _, hrun, rfl, hserver.mpr hfits, _, rfl, rfl,
    (hshim 0 _ _ rfl rfl).2.mpr (by decide)⟩

/- One chunk of four bytes more than the ring of its stream. -/
theorem chunk_never_fits :
    ¬ ∀ (hdr : Bytes) (cfg : AudioCfg) (mixRate ringBytes : ℕ) (kind : String) (is : List FeedInput)
      (f : Feed ℝ) (tr : List Bytes), parseHeader hdr = some cfg →
        Feed.machine.run (Feed.new ℝ cfg mixRate kind ringBytes) is = some (f, tr) →
          ∀ data ∈ tr, Passable f.ring.capacity data := by
  intro hall
  have hlen : (List.replicate 65540 0 : Bytes).length = 65540 := List.length_replicate
  obtain ⟨f, hring, -, hrun⟩ := run_direct 65536 (List.replicate 65540 0)
    (by rw [hlen]; decide) (by rw [hlen]; decide) (by rw [hlen]; decide)
  have hpass := hall (headerBytes 48000 2 formatS16Le) _ 48000 65536 "sinc" _ f _ (by decide) hrun _
    (List.mem_singleton_self _)
  rw [passable_iff, hlen, hring] at hpass
  exact absurd hpass (by decide)

end Audiod
