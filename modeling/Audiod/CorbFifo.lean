import Audiod.Bytes
import Audiod.Corb

/-!
# The two command rings in their page (`hda/src/corb.rs`)

The CORB and the RIRB as the bytes of one page, with the pointer registers and
the driver's own read pointer. A step of the driver is one access of
`CorbRing::send`, or of a drain in `wait_response`, to a register or the page; a
step of the controller fetches a verb or writes a response. As long as the
responses not yet drained fit the RIRB, the rings are two FIFOs.
-/

namespace Audiod.CorbRing

open Corb (U32 RingSize)

def pageSize : ℕ := 4096

def rirbOff : ℕ := 1024

/-- Where the driver is inside `send` or a drain. -/
inductive Phase
  | idle
  | send (cmdword : U32)
  | sendRp (cmdword : U32) (wp : ℕ)
  | sendWrite (cmdword : U32) (next : ℕ)
  | sendWp (cmdword : U32) (next : ℕ)
  | drain
  | collect (hwWp rp : ℕ) (out : List (U32 × U32))

end CorbRing

/-- `CorbRing`, with the registers its rings are run by. -/
structure CorbRing where
  rb : ℕ → Byte
  count : ℕ
  swRp : ℕ
  corbwp : ℕ
  corbrp : ℕ
  rirbwp : ℕ
  phase : CorbRing.Phase

namespace CorbRing

open Corb (U32 RingSize)

inductive Area
  | corb
  | rirb
  deriving DecidableEq

/-- An access to the page. -/
structure Access where
  area : Area
  write : Bool
  off : ℕ
  len : ℕ
  deriving DecidableEq

/-- `room` is the verdict of a `send` that goes on, `drained` what
`collect_entries` returns. -/
inductive Event
  | access (a : Access)
  | room (cmdword : U32)
  | wouldBlock (cmdword : U32)
  | sent (cmdword : U32)
  | wpOutside (hwWp : ℕ)
  | drained (out : List (U32 × U32))
  | fetched (cmdword : U32)
  | responded (e : U32 × U32)

/-- `send` and `drain` start a call, `drive` is the driver's next access; the
others are the controller's. -/
inductive Input
  | send (cmdword : U32)
  | drain
  | drive
  | fetch
  | respond (e : U32 × U32)

/-- `u32::to_le_bytes` and `u32::from_le_bytes`. -/
def toLe (v : U32) : Bytes := leBytes 4 v.toNat

def fromLe (b : Bytes) : U32 := BitVec.ofNat 32 (leVal b)

/-- The verb at index `i`, as the controller reads it. -/
def corbEntry (rb : ℕ → Byte) (i : ℕ) : U32 := fromLe (load rb (i * 4) 4)

def rirbEntry (rb : ℕ → Byte) (idx : ℕ) : U32 × U32 :=
  let b := load rb (rirbOff + idx * 8) 8
  (fromLe (b.take 4), fromLe (b.drop 4))

variable (c : CorbRing)

def drive : CorbRing × List Event :=
  match c.phase with
  | .idle => (c, [])
  | .send cmdword => ({ c with phase := .sendRp cmdword (c.corbwp % 256 % c.count) }, [])
  | .sendRp cmdword wp =>
    let rp := c.corbrp % 256 % c.count
    let next := (wp + 1) % c.count
    if next = rp then ({ c with phase := .idle }, [.wouldBlock cmdword])
    else ({ c with phase := .sendWrite cmdword next }, [.room cmdword])
  | .sendWrite cmdword next =>
    ({ c with
      rb := store c.rb (next * 4) (toLe cmdword)
      phase := .sendWp cmdword next }, [.access ⟨.corb, true, next * 4, 4⟩])
  | .sendWp cmdword next => ({ c with corbwp := next % 65536, phase := .idle }, [.sent cmdword])
  | .drain =>
    let hwWp := c.rirbwp % 256
    if c.count ≤ hwWp then ({ c with phase := .idle }, [.wpOutside hwWp])
    else if hwWp = c.swRp then ({ c with phase := .idle }, [])
    else ({ c with phase := .collect hwWp c.swRp [] }, [])
  -- The `while` loop of `collect_entries`, then the new `sw_rp`.
  | .collect hwWp rp out =>
    if rp = hwWp then ({ c with swRp := hwWp, phase := .idle }, [.drained out])
    else
      let rp := (rp + 1) % c.count
      ({ c with phase := .collect hwWp rp (out ++ [rirbEntry c.rb rp]) },
        [.access ⟨.rirb, false, rirbOff + rp * 8, 8⟩])

def call (phase : Phase) : Option (CorbRing × List Event) :=
  match c.phase with
  | .idle => some ({ c with phase := phase }, [])
  | _ => none

def step : Input → Option (CorbRing × List Event)
  | .send cmdword => c.call (.send cmdword)
  | .drain => c.call .drain
  | .drive => some c.drive
  | .fetch =>
    if c.corbrp ≠ c.corbwp then
      let rp := (c.corbrp + 1) % c.count
      some ({ c with corbrp := rp },
        [.access ⟨.corb, false, rp * 4, 4⟩, .fetched (corbEntry c.rb rp)])
    else none
  | .respond e =>
    let wp := (c.rirbwp + 1) % c.count
    some ({ c with
      rb := store c.rb (rirbOff + wp * 8) (toLe e.1 ++ toLe e.2)
      rirbwp := wp }, [.access ⟨.rirb, true, rirbOff + wp * 8, 8⟩, .responded e])

def machine : Machine CorbRing Input Event := ⟨step⟩

/-- After `CorbRing::init`. -/
def init (size : RingSize) : CorbRing := ⟨fun _ => 0, size.entries, 0, 0, 0, 0, .idle⟩

/-! ### What the rings hold -/

def unfetched : List U32 := between c.count (corbEntry c.rb) c.corbrp c.corbwp

def undrained : List (U32 × U32) := between c.count (rirbEntry c.rb) c.swRp c.rirbwp

/-- The offsets of the verbs not fetched yet. -/
def unfetchedSlots : List ℕ := between c.count (· * 4) c.corbrp c.corbwp

def sent (tr : List Event) : List U32 := tr.filterMap fun
  | .sent cmdword => some cmdword
  | _ => none

def fetched (tr : List Event) : List U32 := tr.filterMap fun
  | .fetched cmdword => some cmdword
  | _ => none

def responded (tr : List Event) : List (U32 × U32) := tr.filterMap fun
  | .responded e => some e
  | _ => none

def drained (tr : List Event) : List (U32 × U32) := tr.flatMap fun
  | .drained out => out
  | _ => []

/-- The arguments of the calls of `send`, and what its calls have returned on. -/
def called (is : List Input) : List U32 := is.filterMap fun
  | .send cmdword => some cmdword
  | _ => none

def returned (tr : List Event) : List U32 := tr.filterMap fun
  | .sent cmdword | .wouldBlock cmdword => some cmdword
  | _ => none

def Phase.sending : Phase → List U32
  | .send cmdword | .sendRp cmdword _ | .sendWrite cmdword _ | .sendWp cmdword _ => [cmdword]
  | .idle | .drain | .collect _ _ _ => []

/-- The controller has at most `count - 1` responses waiting to be drained. -/
def Fits (c : CorbRing) (tr : List Event) : Input → Prop
  | .respond _ => (responded tr).length + 1 ≤ (drained tr).length + (c.count - 1)
  | _ => True

instance (c : CorbRing) (tr : List Event) (i : Input) : Decidable (Fits c tr i) :=
  match i with
  | .respond _ => inferInstanceAs (Decidable (_ ≤ _))
  | .send _ | .drain | .drive | .fetch => isTrue trivial

/-- What `send` decides, and on what. -/
def Verdict (count : ℕ) (pre : List Event) : Event → Prop
  | .wouldBlock _ => (sent pre).length = (fetched pre).length + (count - 1)
  | .room _ => (sent pre).length < (fetched pre).length + (count - 1)
  | _ => True

/-- The steps of a `send` up to its verdict. -/
def Deciding (c : CorbRing) : Input → Prop
  | .send _ => True
  | .drive =>
    match c.phase with
    | .send _ | .sendRp _ _ => True
    | _ => False
  | _ => False

/-- The rings are two FIFOs, a verb or a response passing through once, in order. -/
structure Fifos (count : ℕ) (c : CorbRing) (tr : List Event) : Prop where
  verbs : sent tr = fetched tr ++ c.unfetched
  fetches : (c.step .fetch).isSome ↔ c.unfetched ≠ []
  responses : responded tr = drained tr ++ c.undrained
  verdicts : Always (Verdict count) tr
  blocks : ∀ i c' es cmdword, c.step i = some (c', es) → .wouldBlock cmdword ∈ es →
    Deciding c i ∧ c'.phase = .idle
  decides : ∀ i c' es, Deciding c i → c.step i = some (c', es) → c' = { c with phase := c'.phase }
  slots : ∀ i c' es a, c.step i = some (c', es) → .access a ∈ es → a.area = .corb →
    a.write = true → a.off ∉ c.unfetchedSlots
  apart : ∀ a b, .access a ∈ tr → .access b ∈ tr → a.area = .corb → b.area = .rirb →
    a.off + a.len ≤ b.off
  page : ∀ a, .access a ∈ tr → a.off + a.len ≤ pageSize

/-! ### Entries of the page -/

theorem toLe_length (v : U32) : (toLe v).length = 4 := leBytes_length 4 _

theorem fromLe_toLe (v : U32) : fromLe (toLe v) = v := by
  rw [fromLe, toLe, leVal_leBytes v.isLt, BitVec.ofNat_toNat, BitVec.setWidth_eq]

theorem corbEntry_store (rb : ℕ → Byte) (next : ℕ) (v : U32) :
    corbEntry (store rb (next * 4) (toLe v)) = Function.update (corbEntry rb) next v := by
  funext i
  rcases eq_or_ne i next with rfl | hne
  · have hread := load_store_self rb (i * 4) (toLe v)
    rw [toLe_length] at hread
    rw [Function.update_self, corbEntry, hread, fromLe_toLe]
  · rw [Function.update_of_ne hne, corbEntry, corbEntry,
      load_store_of_disjoint rb (by rw [toLe_length]; omega)]

theorem rirbEntry_store (rb : ℕ → Byte) (wp : ℕ) (e : U32 × U32) :
    rirbEntry (store rb (rirbOff + wp * 8) (toLe e.1 ++ toLe e.2)) =
      Function.update (rirbEntry rb) wp e := by
  have hlen : (toLe e.1 ++ toLe e.2).length = 8 := by
    rw [List.length_append, toLe_length, toLe_length]
  funext i
  rcases eq_or_ne i wp with rfl | hne
  · have hread := load_store_self rb (rirbOff + i * 8) (toLe e.1 ++ toLe e.2)
    rw [hlen] at hread
    rw [Function.update_self, rirbEntry, hread, List.take_left' (toLe_length e.1),
      List.drop_left' (toLe_length e.1), fromLe_toLe, fromLe_toLe]
  · rw [Function.update_of_ne hne, rirbEntry, rirbEntry,
      load_store_of_disjoint rb (by rw [hlen]; omega)]

theorem rirbEntry_store_corb (rb : ℕ → Byte) {next : ℕ} (hn : next < 256) (v : U32) :
    rirbEntry (store rb (next * 4) (toLe v)) = rirbEntry rb := by
  funext i
  have hoff : rirbOff = 1024 := rfl
  rw [rirbEntry, rirbEntry, load_store_of_disjoint rb (by rw [toLe_length]; omega)]

theorem corbEntry_store_rirb (rb : ℕ → Byte) (wp : ℕ) (d : Bytes) {i : ℕ} (hi : i < 256) :
    corbEntry (store rb (rirbOff + wp * 8) d) i = corbEntry rb i := by
  have hoff : rirbOff = 1024 := rfl
  rw [corbEntry, corbEntry, load_store_of_disjoint rb (by omega)]

/-! ### The invariant -/

variable {c c' : CorbRing} {tr es : List Event} {size : RingSize}

structure Bounds (size : RingSize) (c : CorbRing) : Prop where
  count_eq : c.count = size.entries
  corbrp_lt : c.corbrp < c.count
  corbwp_lt : c.corbwp < c.count
  swRp_lt : c.swRp < c.count
  rirbwp_lt : c.rirbwp < c.count

theorem Bounds.count_le (h : Bounds size c) : c.count ≤ 256 := by
  rw [h.count_eq]
  cases size <;> decide

theorem Bounds.two_le (h : Bounds size c) : 2 ≤ c.count := by
  rw [h.count_eq]
  cases size <;> decide

def PhaseInv (c : CorbRing) : Prop :=
  match c.phase with
  | .idle | .send _ | .drain => True
  | .sendRp _ wp => wp = c.corbwp
  | .sendWrite _ next => next = (c.corbwp + 1) % c.count ∧ c.unfetched.length + 1 < c.count
  | .sendWp cmdword next =>
    next = (c.corbwp + 1) % c.count ∧ c.unfetched.length + 1 < c.count ∧
      corbEntry c.rb next = cmdword
  -- What is read and what is left to read are the undrained responses.
  | .collect hwWp rp out =>
    hwWp < c.count ∧ rp < c.count ∧
      c.undrained = out ++ between c.count (rirbEntry c.rb) rp c.rirbwp ∧
      (between c.count (rirbEntry c.rb) rp hwWp).length ≤
        (between c.count (rirbEntry c.rb) rp c.rirbwp).length

def InPlace (a : Access) : Prop :=
  match a.area with
  | .corb => a.off + a.len ≤ rirbOff
  | .rirb => rirbOff ≤ a.off ∧ a.off + a.len ≤ pageSize

structure RingsInv (size : RingSize) (c : CorbRing) (tr : List Event) : Prop where
  bounds : Bounds size c
  verbs : sent tr = fetched tr ++ c.unfetched
  responses : responded tr = drained tr ++ c.undrained
  phase : PhaseInv c
  verdicts : Always (Verdict size.entries) tr
  places : ∀ a, .access a ∈ tr → InPlace a

theorem sent_append (tr es : List Event) : sent (tr ++ es) = sent tr ++ sent es :=
  List.filterMap_append ..

theorem fetched_append (tr es : List Event) : fetched (tr ++ es) = fetched tr ++ fetched es :=
  List.filterMap_append ..

theorem responded_append (tr es : List Event) :
    responded (tr ++ es) = responded tr ++ responded es :=
  List.filterMap_append ..

theorem drained_append (tr es : List Event) : drained (tr ++ es) = drained tr ++ drained es :=
  List.flatMap_append ..

theorem inPlace_corb {next : ℕ} (hn : next < 256) (write : Bool) :
    InPlace ⟨.corb, write, next * 4, 4⟩ := by
  simp only [InPlace, rirbOff]
  omega

theorem inPlace_rirb {wp : ℕ} (hw : wp < 256) (write : Bool) :
    InPlace ⟨.rirb, write, rirbOff + wp * 8, 8⟩ := by
  simp only [InPlace, rirbOff, pageSize]
  omega

theorem places_append (h : ∀ a, .access a ∈ tr → InPlace a)
    (hes : ∀ a, .access a ∈ es → InPlace a) : ∀ a, .access a ∈ tr ++ es → InPlace a :=
  fun a ha => (List.mem_append.mp ha).elim (h a) (hes a)

theorem RingsInv.idle (h : RingsInv size c tr) (hb : Bounds size c')
    (hu : c'.unfetched = c.unfetched) (hd : c'.undrained = c.undrained) (hph : PhaseInv c')
    (hlogs : sent es = [] ∧ fetched es = [] ∧ responded es = [] ∧ drained es = [])
    (hlen : es.length ≤ 1) (hv : ∀ e ∈ es, Verdict size.entries tr e)
    (ha : ∀ a, .access a ∈ es → InPlace a) : RingsInv size c' (tr ++ es) := by
  obtain ⟨hs, hf, hr, hdr⟩ := hlogs
  constructor
  case bounds => exact hb
  case verbs => rw [sent_append, fetched_append, hs, hf, List.append_nil, List.append_nil, hu,
    h.verbs]
  case responses => rw [responded_append, drained_append, hr, hdr, List.append_nil, List.append_nil,
    hd, h.responses]
  case phase => exact hph
  case verdicts => exact h.verdicts.append_le_one hlen hv
  case places => exact places_append h.places ha

/-! ### The driver -/

theorem Bounds.reg_eq (hb : Bounds size c) {reg : ℕ} (hr : reg < c.count) :
    reg % 256 % c.count = reg := by
  have hle := hb.count_le
  rw [Nat.mod_eq_of_lt (by omega : reg < 256), Nat.mod_eq_of_lt hr]

theorem Bounds.next_lt (hb : Bounds size c) (p : ℕ) : (p + 1) % c.count < c.count :=
  Nat.mod_lt _ (Nat.zero_lt_of_lt hb.two_le)

theorem Bounds.with_phase (hb : Bounds size c) (ph : Phase) : Bounds size { c with phase := ph } :=
  ⟨hb.count_eq, hb.corbrp_lt, hb.corbwp_lt, hb.swRp_lt, hb.rirbwp_lt⟩

theorem RingsInv.quiet (h : RingsInv size c tr) {ph : Phase}
    (hph : PhaseInv { c with phase := ph }) : RingsInv size { c with phase := ph } (tr ++ []) := by
  exact h.idle (h.bounds.with_phase ph) rfl rfl hph ⟨rfl, rfl, rfl, rfl⟩ (Nat.zero_le 1)
    (List.forall_mem_nil _) fun a ha => absurd ha List.not_mem_nil

theorem RingsInv.quiet_event (h : RingsInv size c tr) {ph : Phase} {e : Event}
    (hph : PhaseInv { c with phase := ph })
    (hlogs : sent [e] = [] ∧ fetched [e] = [] ∧ responded [e] = [] ∧ drained [e] = [])
    (hv : Verdict size.entries tr e) (ha : ∀ a, e ≠ .access a) :
    RingsInv size { c with phase := ph } (tr ++ [e]) := by
  refine h.idle (h.bounds.with_phase ph) rfl rfl hph hlogs (Nat.le_refl 1) ?_ ?_
  · intro x hx
    rw [List.mem_singleton.mp hx]
    exact hv
  · intro a hx
    exact absurd (List.mem_singleton.mp hx).symm (ha a)

theorem inv_sendRp (h : RingsInv size c tr) {cmdword : U32} {wp : ℕ}
    (hph : c.phase = .sendRp cmdword wp) : RingsInv size c.drive.1 (tr ++ c.drive.2) := by
  have hwp := h.phase
  simp only [PhaseInv, hph] at hwp
  have hb := h.bounds
  have hfull := next_eq_iff (corbEntry c.rb) hb.corbrp_lt hb.corbwp_lt
  have hlen := congrArg List.length h.verbs
  rw [List.length_append] at hlen
  have htwo := hb.two_le
  have hcount := hb.count_eq
  have hunf : c.unfetched = between c.count (corbEntry c.rb) c.corbrp c.corbwp := rfl
  simp only [drive, hph, hwp, hb.reg_eq hb.corbrp_lt]
  split
  · rename_i heq
    have hone := hfull.mp heq
    rw [← hunf] at hone
    have hv : (sent tr).length = (fetched tr).length + (size.entries - 1) := by omega
    exact h.quiet_event trivial ⟨rfl, rfl, rfl, rfl⟩ hv fun a => Event.noConfusion
  · rename_i hne
    have hroom : c.unfetched.length + 1 ≠ c.count := fun hone => hne (hfull.mpr hone)
    have hlt : c.unfetched.length < c.count := by
      rw [hunf, between_length]
      exact Nat.mod_lt _ (by omega)
    have hv : (sent tr).length < (fetched tr).length + (size.entries - 1) := by omega
    have hone : c.unfetched.length + 1 < c.count := by omega
    exact h.quiet_event ⟨rfl, hone⟩ ⟨rfl, rfl, rfl, rfl⟩ hv fun a => Event.noConfusion

theorem inv_sendWrite (h : RingsInv size c tr) {cmdword : U32} {next : ℕ}
    (hph : c.phase = .sendWrite cmdword next) : RingsInv size c.drive.1 (tr ++ c.drive.2) := by
  have hinv := h.phase
  simp only [PhaseInv, hph] at hinv
  obtain ⟨hnext, hroom⟩ := hinv
  have hb := h.bounds
  have hn : next < 256 := by
    rw [hnext]
    exact Nat.lt_of_lt_of_le (hb.next_lt _) hb.count_le
  have hcorb := corbEntry_store c.rb next cmdword
  have hunf : between c.count (corbEntry (store c.rb (next * 4) (toLe cmdword))) c.corbrp c.corbwp =
      c.unfetched := by
    rw [hcorb, hnext]
    exact between_update_next hb.corbrp_lt hb.corbwp_lt cmdword
  simp only [drive, hph]
  refine h.idle ⟨hb.count_eq, hb.corbrp_lt, hb.corbwp_lt, hb.swRp_lt, hb.rirbwp_lt⟩ hunf ?_ ?_
    ⟨rfl, rfl, rfl, rfl⟩ (Nat.le_refl 1) ?_ ?_
  · show between _ _ _ _ = _
    rw [rirbEntry_store_corb c.rb hn]
    rfl
  · refine ⟨hnext, ?_, ?_⟩
    · show (between _ _ _ _).length + 1 < _
      rw [hunf]
      exact hroom
    · show corbEntry _ _ = _
      rw [hcorb, Function.update_self]
  · intro e he
    rw [List.mem_singleton.mp he]
    trivial
  · intro a ha
    cases List.mem_singleton.mp ha
    exact inPlace_corb hn true

theorem inv_sendWp (h : RingsInv size c tr) {cmdword : U32} {next : ℕ}
    (hph : c.phase = .sendWp cmdword next) : RingsInv size c.drive.1 (tr ++ c.drive.2) := by
  have hinv := h.phase
  simp only [PhaseInv, hph] at hinv
  obtain ⟨hnext, hroom, hword⟩ := hinv
  have hb := h.bounds
  have hlt : next < c.count := by
    rw [hnext]
    exact hb.next_lt _
  have hreg : next % 65536 = next := by
    have hle := hb.count_le
    exact Nat.mod_eq_of_lt (by omega)
  -- The entry is in the page already: publishing it appends it.
  have hpush := between_push hb.corbrp_lt hb.corbwp_lt hroom cmdword
  rw [← hnext, ← hword, Function.update_eq_self] at hpush
  simp only [drive, hph, hreg]
  constructor
  case bounds => exact ⟨hb.count_eq, hb.corbrp_lt, hlt, hb.swRp_lt, hb.rirbwp_lt⟩
  case verbs =>
    show sent (tr ++ [.sent cmdword]) = _ ++ between _ _ _ _
    rw [sent_append, fetched_append, h.verbs, hpush, ← hword]
    simp [sent, fetched, unfetched]
  case responses =>
    rw [responded_append, drained_append, h.responses]
    simp [responded, drained, undrained]
  case phase => trivial
  case verdicts => exact always_concat.mpr ⟨h.verdicts, trivial⟩
  case places =>
    exact places_append h.places fun a ha => Event.noConfusion (List.mem_singleton.mp ha)

theorem inv_drain (h : RingsInv size c tr) (hph : c.phase = .drain) :
    RingsInv size c.drive.1 (tr ++ c.drive.2) := by
  have hb := h.bounds
  have hle := hb.count_le
  have hwp := hb.rirbwp_lt
  have hreg : c.rirbwp % 256 = c.rirbwp := Nat.mod_eq_of_lt (by omega)
  simp only [drive, hph, hreg]
  rw [if_neg (by omega)]
  split
  · exact h.quiet trivial
  · exact h.quiet ⟨hwp, hb.swRp_lt, rfl, Nat.le_refl _⟩

theorem inv_collect (h : RingsInv size c tr) {hwWp rp : ℕ} {out : List (U32 × U32)}
    (hph : c.phase = .collect hwWp rp out) : RingsInv size c.drive.1 (tr ++ c.drive.2) := by
  have hinv := h.phase
  simp only [PhaseInv, hph] at hinv
  obtain ⟨hhw, hrp, hleft, hle⟩ := hinv
  have hb := h.bounds
  simp only [drive, hph]
  split
  · rename_i heq
    rw [heq] at hleft
    constructor
    case bounds => exact ⟨hb.count_eq, hb.corbrp_lt, hb.corbwp_lt, hhw, hb.rirbwp_lt⟩
    case verbs =>
      rw [sent_append, fetched_append, h.verbs]
      simp [sent, fetched, unfetched]
    case responses =>
      rw [responded_append, drained_append, h.responses, hleft]
      simp [responded, drained, undrained]
    case phase => trivial
    case verdicts => exact always_concat.mpr ⟨h.verdicts, trivial⟩
    case places =>
      exact places_append h.places fun a ha => Event.noConfusion (List.mem_singleton.mp ha)
  · rename_i hne
    have hahead : rp ≠ c.rirbwp := by
      intro heq
      rw [between_of_ne _ hrp hhw hne, heq, between_self] at hle
      exact absurd hle (Nat.not_succ_le_zero _)
    have hnext := hb.next_lt rp
    have hcons := between_of_ne (rirbEntry c.rb) hrp hb.rirbwp_lt hahead
    rw [hcons] at hleft
    rw [hcons, between_of_ne _ hrp hhw hne, List.length_cons, List.length_cons] at hle
    refine h.idle (hb.with_phase _) rfl rfl ?_ ⟨rfl, rfl, rfl, rfl⟩ (Nat.le_refl 1) ?_ ?_
    · refine ⟨hhw, hnext, ?_, Nat.le_of_succ_le_succ hle⟩
      rw [List.append_assoc]
      exact hleft
    · intro e he
      rw [List.mem_singleton.mp he]
      trivial
    · intro a ha
      cases List.mem_singleton.mp ha
      exact inPlace_rirb (Nat.lt_of_lt_of_le hnext hb.count_le) false

theorem inv_drive (h : RingsInv size c tr) : RingsInv size c.drive.1 (tr ++ c.drive.2) := by
  cases hph : c.phase with
  | idle =>
    simp only [drive, hph]
    rw [List.append_nil]
    exact h
  | send cmdword =>
    simp only [drive, hph]
    exact h.quiet (h.bounds.reg_eq h.bounds.corbwp_lt)
  | sendRp cmdword wp => exact inv_sendRp h hph
  | sendWrite cmdword next => exact inv_sendWrite h hph
  | sendWp cmdword next => exact inv_sendWp h hph
  | drain => exact inv_drain h hph
  | collect hwWp rp out => exact inv_collect h hph

/-! ### The controller -/

theorem always_access (h : Always (Verdict size.entries) tr) {a : Access} {e : Event}
    (he : Verdict size.entries (tr ++ [.access a]) e) :
    Always (Verdict size.entries) (tr ++ [.access a, e]) := by
  rw [List.append_cons]
  exact always_concat.mpr ⟨always_concat.mpr ⟨h, trivial⟩, he⟩

theorem places_access (h : ∀ a, .access a ∈ tr → InPlace a) {a : Access} {e : Event}
    (ha : InPlace a) (he : ∀ b, e ≠ .access b) : ∀ b, .access b ∈ tr ++ [.access a, e] →
    InPlace b := by
  apply places_append h
  intro b hb
  rcases List.mem_cons.mp hb with heq | hb
  · cases heq
    exact ha
  · exact absurd (List.mem_singleton.mp hb).symm (he b)

theorem inv_fetch (h : RingsInv size c tr) (hs : c.step .fetch = some (c', es)) :
    RingsInv size c' (tr ++ es) := by
  have hb := h.bounds
  simp only [step] at hs
  split at hs
  · rename_i hne
    cases hs
    have hnext := hb.next_lt c.corbrp
    have hcons : c.unfetched = _ := between_of_ne (corbEntry c.rb) hb.corbrp_lt hb.corbwp_lt hne
    have hlen := congrArg List.length hcons
    rw [List.length_cons] at hlen
    constructor
    case bounds => exact ⟨hb.count_eq, hnext, hb.corbwp_lt, hb.swRp_lt, hb.rirbwp_lt⟩
    case verbs =>
      rw [sent_append, fetched_append, h.verbs, hcons]
      simp [sent, fetched, unfetched]
    case responses =>
      rw [responded_append, drained_append, h.responses]
      simp [responded, drained, undrained]
    case phase =>
      have hph := h.phase
      have hshorter : c.unfetched.length + 1 < c.count →
          (between c.count (corbEntry c.rb) ((c.corbrp + 1) % c.count) c.corbwp).length + 1 <
            c.count := by
        omega
      simp only [PhaseInv] at hph ⊢
      cases hcase : c.phase with
      | idle | send _ | drain => trivial
      | sendRp _ _ | collect _ _ _ =>
        rw [hcase] at hph
        exact hph
      | sendWrite cmdword next =>
        rw [hcase] at hph
        exact ⟨hph.1, hshorter hph.2⟩
      | sendWp cmdword next =>
        rw [hcase] at hph
        exact ⟨hph.1, hshorter hph.2.1, hph.2.2⟩
    case verdicts => exact always_access h.verdicts trivial
    case places =>
      exact places_access h.places (inPlace_corb (Nat.lt_of_lt_of_le hnext hb.count_le) false)
        fun b => Event.noConfusion
  · cases hs

theorem between_respond (hb : Bounds size c) (e : U32 × U32) {rp : ℕ} (hrp : rp < c.count)
    (hfree : (between c.count (rirbEntry c.rb) rp c.rirbwp).length + 1 < c.count) :
    between c.count (rirbEntry
        (store c.rb (rirbOff + (c.rirbwp + 1) % c.count * 8) (toLe e.1 ++ toLe e.2))) rp
        ((c.rirbwp + 1) % c.count) =
      between c.count (rirbEntry c.rb) rp c.rirbwp ++ [e] := by
  rw [rirbEntry_store]
  exact between_push hrp hb.rirbwp_lt hfree e

/- It touches no verb, and a round of drain that has begun reads up to where it began. -/
theorem phase_respond (hb : Bounds size c) (e : U32 × U32)
    (hroom : c.undrained.length + 1 < c.count) (hph : PhaseInv c) :
    PhaseInv { c with
      rirbwp := (c.rirbwp + 1) % c.count
      rb := store c.rb (rirbOff + (c.rirbwp + 1) % c.count * 8) (toLe e.1 ++ toLe e.2) } := by
  have hle := hb.count_le
  let rb' := store c.rb (rirbOff + (c.rirbwp + 1) % c.count * 8) (toLe e.1 ++ toLe e.2)
  have hcorb : ∀ i < c.count, corbEntry rb' i = corbEntry c.rb i :=
    fun i hi => corbEntry_store_rirb c.rb _ _ (by omega)
  have hunf : between c.count (corbEntry rb') c.corbrp c.corbwp = c.unfetched :=
    between_congr (by omega) hcorb
  have hund := between_respond hb e hb.swRp_lt hroom
  simp only [PhaseInv] at hph ⊢
  cases hcase : c.phase with
  | idle | send _ | drain => trivial
  | sendRp cmdword wp =>
    rw [hcase] at hph
    exact hph
  | sendWrite cmdword next =>
    rw [hcase] at hph
    refine ⟨hph.1, ?_⟩
    show (between _ (corbEntry rb') _ _).length + 1 < _
    rw [hunf]
    exact hph.2
  | sendWp cmdword next =>
    rw [hcase] at hph
    obtain ⟨hn, hfree, hword⟩ := hph
    refine ⟨hn, ?_, ?_⟩
    · show (between _ (corbEntry rb') _ _).length + 1 < _
      rw [hunf]
      exact hfree
    · rw [hn] at hword ⊢
      rw [← hword]
      exact hcorb _ (hb.next_lt _)
  | collect hwWp rp out =>
    rw [hcase] at hph
    obtain ⟨hhw, hrp, hleft, hahead⟩ := hph
    have hpart := congrArg List.length hleft
    rw [List.length_append] at hpart
    have hmore := between_respond hb e hrp (by omega)
    refine ⟨hhw, hrp, ?_, ?_⟩
    · show between _ (rirbEntry rb') _ _ = _ ++ between _ (rirbEntry rb') _ _
      rw [hund, hmore, ← List.append_assoc, ← hleft]
      rfl
    · show (between _ (rirbEntry rb') _ _).length ≤ (between _ (rirbEntry rb') _ _).length
      rw [hmore, List.length_append]
      rw [between_length] at hahead ⊢
      exact Nat.le_add_right_of_le hahead

theorem inv_respond (h : RingsInv size c tr) {e : U32 × U32} (hok : Fits c tr (.respond e))
    (hs : c.step (.respond e) = some (c', es)) : RingsInv size c' (tr ++ es) := by
  have hb := h.bounds
  have hle := hb.count_le
  have hnext := hb.next_lt c.rirbwp
  have hlen := congrArg List.length h.responses
  rw [List.length_append] at hlen
  have hfits : (responded tr).length + 1 ≤ (drained tr).length + (c.count - 1) := hok
  have hroom : c.undrained.length + 1 < c.count := by omega
  cases hs
  let rb' := store c.rb (rirbOff + (c.rirbwp + 1) % c.count * 8) (toLe e.1 ++ toLe e.2)
  have hunf : between c.count (corbEntry rb') c.corbrp c.corbwp = c.unfetched :=
    between_congr (by omega) fun i hi => corbEntry_store_rirb c.rb _ _ (by omega)
  constructor
  case bounds => exact ⟨hb.count_eq, hb.corbrp_lt, hb.corbwp_lt, hb.swRp_lt, hnext⟩
  case verbs =>
    show _ = _ ++ between _ (corbEntry rb') _ _
    rw [sent_append, fetched_append, h.verbs, hunf]
    simp [sent, fetched]
  case responses =>
    show _ = _ ++ between _ (rirbEntry rb') _ _
    rw [responded_append, drained_append, h.responses, between_respond hb e hb.swRp_lt hroom]
    simp [responded, drained, undrained]
  case phase => exact phase_respond hb e hroom h.phase
  case verdicts => exact always_access h.verdicts trivial
  case places =>
    exact places_access h.places (inPlace_rirb (Nat.lt_of_lt_of_le hnext hle) true)
      fun b => Event.noConfusion

theorem call_eq {ph : Phase} (hs : c.call ph = some (c', es)) :
    c' = { c with phase := ph } ∧ es = [] := by
  unfold call at hs
  split at hs
  · cases hs
    exact ⟨rfl, rfl⟩
  · cases hs

theorem call_idle {ph : Phase} (hs : c.call ph = some (c', es)) : c.phase = .idle := by
  unfold call at hs
  split at hs
  · assumption
  · cases hs

theorem drive_eq (hs : c.step .drive = some (c', es)) : c.drive = (c', es) :=
  Option.some.inj hs

theorem RingsInv.step (h : RingsInv size c tr) {i : Input} (hok : Fits c tr i)
    (hs : c.step i = some (c', es)) : RingsInv size c' (tr ++ es) := by
  have hcall : ∀ ph : Phase, (∀ c : CorbRing, PhaseInv { c with phase := ph }) →
      c.call ph = some (c', es) → RingsInv size c' (tr ++ es) := by
    intro ph hph hs
    obtain ⟨rfl, rfl⟩ := call_eq hs
    exact h.quiet (hph c)
  cases i with
  | send cmdword => exact hcall (.send cmdword) (fun _ => trivial) hs
  | drain => exact hcall .drain (fun _ => trivial) hs
  | drive =>
    have hd := inv_drive h
    rw [drive_eq hs] at hd
    exact hd
  | fetch => exact inv_fetch h hs
  | respond e => exact inv_respond h hok hs

theorem ringsInv_init (size : RingSize) : RingsInv size (init size) [] := by
  have hpos : 0 < size.entries := by cases size <;> decide
  constructor
  case bounds => exact ⟨rfl, hpos, hpos, hpos, hpos⟩
  case verbs => exact (between_self _ _).symm
  case responses => exact (between_self _ _).symm
  case phase => trivial
  case verdicts => exact always_nil
  case places => exact fun a ha => absurd ha List.not_mem_nil

/-! ### Two FIFOs -/

theorem fetch_isSome (hb : Bounds size c) : (c.step .fetch).isSome ↔ c.unfetched ≠ [] := by
  rw [unfetched, ne_eq, between_eq_nil hb.corbrp_lt hb.corbwp_lt]
  simp only [CorbRing.step]
  split <;> simp_all

theorem drive_wouldBlock {cmdword : U32} (he : .wouldBlock cmdword ∈ c.drive.2) :
    Deciding c .drive ∧ c.drive.1.phase = .idle := by
  cases hph : c.phase with
  | sendRp w wp =>
    simp only [Deciding, drive, hph] at he ⊢
    split at he
    · rw [if_pos ‹_›]
      exact ⟨trivial, rfl⟩
    · simp at he
  | idle | send _ | sendWrite _ _ | sendWp _ _ => simp [drive, hph] at he
  | drain =>
    simp only [drive, hph] at he
    split at he
    · simp at he
    · split at he <;> simp at he
  | collect _ _ _ =>
    simp only [drive, hph] at he
    split at he <;> simp at he

theorem step_wouldBlock {i : Input} {cmdword : U32} (hs : c.step i = some (c', es))
    (he : .wouldBlock cmdword ∈ es) : Deciding c i ∧ c'.phase = .idle := by
  cases i with
  | send _ | drain =>
    rw [(call_eq hs).2] at he
    cases he
  | fetch =>
    simp only [CorbRing.step] at hs
    split at hs <;> cases hs
    simp at he
  | respond e =>
    cases hs
    simp at he
  | drive =>
    have hd := @drive_wouldBlock c cmdword
    rw [drive_eq hs] at hd
    exact hd he

theorem drive_deciding (hi : Deciding c .drive) :
    c.drive.1 = { c with phase := c.drive.1.phase } := by
  cases hph : c.phase with
  | send w => simp only [drive, hph]
  | sendRp w wp =>
    simp only [drive, hph]
    split <;> rfl
  | _ => simp only [Deciding, hph] at hi

theorem step_deciding {i : Input} (hi : Deciding c i) (hs : c.step i = some (c', es)) :
    c' = { c with phase := c'.phase } := by
  cases i with
  | send _ => rw [(call_eq hs).1]
  | drain | fetch | respond _ => exact hi.elim
  | drive =>
    have hd := drive_deciding hi
    rw [drive_eq hs] at hd
    exact hd

/- The only write to the CORB goes to the entry behind the last verb. -/
theorem drive_writes {a : Access} (he : .access a ∈ c.drive.2) (ha : a.area = .corb) :
    ∃ cmdword next, c.phase = .sendWrite cmdword next ∧ a.off = next * 4 := by
  cases hph : c.phase with
  | sendWrite w next =>
    simp only [drive, hph, List.mem_singleton, Event.access.injEq] at he
    exact ⟨w, next, rfl, by rw [he]⟩
  | idle | send _ | sendWp _ _ => simp [drive, hph] at he
  | sendRp _ _ =>
    simp only [drive, hph] at he
    split at he <;> simp at he
  | drain =>
    simp only [drive, hph] at he
    split at he
    · simp at he
    · split at he <;> simp at he
  | collect _ _ _ =>
    simp only [drive, hph] at he
    split at he
    · simp at he
    · simp only [List.mem_singleton, Event.access.injEq] at he
      rw [he] at ha
      cases ha

theorem RingsInv.slots (h : RingsInv size c tr) {i : Input} {a : Access}
    (hs : c.step i = some (c', es)) (he : .access a ∈ es) (ha : a.area = .corb)
    (hw : a.write = true) : a.off ∉ c.unfetchedSlots := by
  cases i with
  | send _ | drain =>
    rw [(call_eq hs).2] at he
    cases he
  | fetch =>
    simp only [CorbRing.step] at hs
    split at hs <;> cases hs
    simp only [List.mem_cons, List.not_mem_nil, or_false, Event.access.injEq, reduceCtorEq] at he
    rw [he] at hw
    cases hw
  | respond e =>
    cases hs
    simp only [List.mem_cons, List.not_mem_nil, or_false, Event.access.injEq, reduceCtorEq] at he
    rw [he] at ha
    cases ha
  | drive =>
    have hes : c.drive.2 = es := by rw [drive_eq hs]
    rw [← hes] at he
    obtain ⟨cmdword, next, hph, hoff⟩ := drive_writes he ha
    have hinv := h.phase
    simp only [PhaseInv, hph] at hinv
    rw [hoff, hinv.1]
    have hinj : Function.Injective fun i : ℕ => i * 4 := mul_left_injective₀ (by decide)
    exact next_not_mem_between hinj h.bounds.corbrp_lt h.bounds.corbwp_lt

theorem RingsInv.fifos (h : RingsInv size c tr) : Fifos size.entries c tr := by
  constructor
  case verbs => exact h.verbs
  case fetches => exact fetch_isSome h.bounds
  case responses => exact h.responses
  case verdicts => exact h.verdicts
  case blocks => exact fun i c' es w hs he => step_wouldBlock hs he
  case decides => exact fun i c' es hi hs => step_deciding hi hs
  case slots => exact fun i c' es a hs he ha hw => h.slots hs he ha hw
  case apart =>
    intro a b ha hb hcorb hrirb
    have hleft := h.places a ha
    have hright := h.places b hb
    simp only [InPlace, hcorb] at hleft
    simp only [InPlace, hrirb] at hright
    exact Nat.le_trans hleft hright.1
  case page =>
    intro a ha
    have hplace := h.places a ha
    cases harea : a.area with
    | corb =>
      simp only [InPlace, harea] at hplace
      exact Nat.le_trans hplace (by decide)
    | rirb =>
      simp only [InPlace, harea] at hplace
      exact hplace.2

/-- A call of `send` ends in one of two ways, with the verb it was called for. -/
theorem step_called {i : Input} (hs : c.step i = some (c', es)) :
    c.phase.sending ++ called [i] = returned es ++ c'.phase.sending := by
  cases i with
  | send cmdword | drain =>
    obtain ⟨rfl, rfl⟩ := call_eq hs
    rw [call_idle hs]
    rfl
  | drive =>
    have heq : c.drive = (c', es) := Option.some.inj hs
    unfold drive at heq
    split at heq
    case h_3 | h_6 | h_7 =>
      dsimp only at heq
      repeat' split at heq
      all_goals
        cases heq
        simp_all [Phase.sending, called, returned]
    all_goals
      rename_i hph
      cases heq
      rw [hph]
      rfl
  | fetch =>
    simp only [CorbRing.step] at hs
    split at hs <;> cases hs
    exact List.append_nil _
  | respond e =>
    cases hs
    exact List.append_nil _

theorem run_called {is : List Input} (hrun : machine.run (init size) is = some (c, tr)) :
    called is = returned tr ++ c.phase.sending := by
  have hinit : called [] = returned [] ++ (init size).phase.sending := rfl
  refine machine.run_inv_inputs (I := fun c js tr => called js = returned tr ++ c.phase.sending)
    (fun c js tr i c' es h hs => ?_) hinit hrun
  have hstep := step_called hs
  have happend : called (js ++ [i]) = called js ++ called [i] := List.filterMap_append
  have hreturned : returned (tr ++ es) = returned tr ++ returned es := List.filterMap_append
  rw [happend, hreturned, h, List.append_assoc, hstep, List.append_assoc]

/-- In every run in which the controller keeps within the RIRB, the two rings are
two FIFOs of what `send` was called with. -/
theorem run_fifos (size : RingSize) (is : List Input)
    (hok : machine.Heeds Fits (init size) [] is) {c : CorbRing} {tr : List Event}
    (hrun : machine.run (init size) is = some (c, tr)) :
    Fifos size.entries c tr ∧ called is = returned tr ++ c.phase.sending := by
  have hstep : ∀ c tr i c' es, Fits c tr i → RingsInv size c tr →
      machine.step c i = some (c', es) → RingsInv size c' (tr ++ es) :=
    fun c tr i c' es hok h hs => h.step hok hs
  have hend := machine.run_inv_of_heeds hstep (ringsInv_init size) hok hrun
  exact ⟨hend.fifos, run_called hrun⟩

/-- In the ring of two entries the second verb finds no room before the first is
fetched, and a response wraps to entry 0. -/
def smallRun : List Input :=
  [.send 7#32, .drive, .drive, .drive, .drive, .send 8#32, .drive, .drive, .fetch,
    .respond (1#32, 0#32), .drain, .drive, .drive, .drive, .respond (2#32, 0#32)]

theorem run_fifos_small : ∃ c tr,
    machine.run (init .n2) smallRun = some (c, tr) ∧ Fifos 2 c tr ∧
      called smallRun = returned tr ++ c.phase.sending :=
  ⟨_, _, rfl, run_fifos .n2 smallRun (by decide +kernel) rfl⟩

end Audiod.CorbRing
