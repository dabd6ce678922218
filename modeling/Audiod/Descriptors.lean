import Audiod.Hda
import Audiod.Machine
import Audiod.Paged

/-!
# The ring as the DMA engine reads it

`DmaBuffer` (`hda/src/pagemap.rs`), `bdl::fill` (`hda/src/bdl.rs`), and `setup` and
`write` of `Stream` (`hda/src/stream.rs:93-124`, `229-253`) over a physical memory, with
the engine that walks the descriptors from the registers `setup` programs. Software goes
through the page table, the engine through the descriptors; that both are at the ring of
`Hda` is `Stream.run_refines_ring`.
-/

namespace Audiod.Dma

def pageSize : ℕ := 4096

def entrySize : ℕ := 16

def ringPages : ℕ := 64

abbrev Mem := ℕ → Byte

/-- `DmaBuffer` as `new` returns it: `phys` has the address of each page. -/
structure DmaBuffer where
  phys : Pages pageSize
  bound : ∀ p ∈ phys.starts, p < 2 ^ 64

namespace DmaBuffer

def size (b : DmaBuffer) : ℕ := b.phys.size

/-- `none` is the panic, here and below. -/
def toaddr (b : DmaBuffer) (off : ℕ) : Option ℕ :=
  if off < b.size then some (b.phys.starts.getD (off / pageSize) 0 + off % pageSize) else none

/-- A copy to the virtual pages, which lie at `phys`. -/
def write (b : DmaBuffer) (m : Mem) (off : ℕ) (data : Bytes) : Option Mem :=
  if off + data.length ≤ b.size then some (b.phys.poke m off data) else none

end DmaBuffer

/-! ### The buffer descriptor list -/

/-- The casts of `make_entry` keep the low 32 bits, as `leBytes` does. -/
def makeEntry (addr size ioc : ℕ) : Bytes :=
  leBytes 4 addr ++ leBytes 4 (addr / 2 ^ 32) ++ leBytes 4 size ++ leBytes 4 ioc

def fillEntry (bdl ring : DmaBuffer) (iocLast : Bool) (entries : ℕ) (m : Mem) (i : ℕ) :
    Option Mem := do
  let pa ← ring.toaddr (i * pageSize)
  let ioc := if iocLast ∧ i + 1 = entries then 1 else 0
  bdl.write m (i * entrySize) (makeEntry pa pageSize ioc)

def entryCount (bdl ring : DmaBuffer) (count : ℕ) : ℕ :=
  min (min count (bdl.size / entrySize)) (ring.size / pageSize)

def fill (bdl ring : DmaBuffer) (m : Mem) (count : ℕ) (iocLast : Bool) : Option (Mem × ℕ) := do
  let entries := entryCount bdl ring count
  let m ← (List.range entries).foldlM (fillEntry bdl ring iocLast entries) m
  some (m, entries)

structure Descriptor where
  addr : ℕ
  size : ℕ
  ioc : ℕ

/-- Sixteen bytes as the hardware reads them. -/
def decodeEntry (e : Bytes) : Descriptor :=
  ⟨leVal (e.take 4) + 2 ^ 32 * leVal ((e.drop 4).take 4), leVal ((e.drop 8).take 4),
    leVal (e.drop 12)⟩

def descriptor (bdl : DmaBuffer) (m : Mem) (i : ℕ) : Descriptor :=
  decodeEntry (load (bdl.phys.view m) (i * entrySize) entrySize)

def descriptors (bdl : DmaBuffer) (m : Mem) (entries : ℕ) : List Descriptor :=
  (List.range entries).map (descriptor bdl m)

/-- The first `entries` pages of the ring, each once and whole. -/
structure Lists (bdl ring : DmaBuffer) (m : Mem) (entries : ℕ) (iocLast : Bool) : Prop where
  pages : (descriptors bdl m entries).map (·.addr) = ring.phys.starts.take entries
  once : ((descriptors bdl m entries).map (·.addr)).Nodup
  within : ∀ d ∈ descriptors bdl m entries,
    d.size = pageSize ∧ d.addr / pageSize = (d.addr + d.size - 1) / pageSize
  ioc : ∀ i < entries, (descriptor bdl m i).ioc = if iocLast ∧ i + 1 = entries then 1 else 0

/-! ### The stream -/

/-- The two buffers of `Stream::new`. -/
structure Stream where
  ring : DmaBuffer
  bdl : DmaBuffer
  ring_size : ring.size = ringSize
  bdl_size : bdl.size = pageSize
  apart : bdl.phys.Apart ring.phys

/-- The registers that say where the engine reads. -/
structure Registers where
  cbl : ℕ
  lvi : ℕ
  bdlpl : ℕ
  bdlpu : ℕ

/-- `Stream::setup`; the format and control bits are left out. -/
def Stream.setup (s : Stream) (m : Mem) : Option (Mem × Registers) := do
  let (m, entries) ← fill s.bdl s.ring m ringPages true
  let pa ← s.bdl.toaddr 0
  some (m, ⟨ringSize % 2 ^ 32, (entries - 1) % 2 ^ 16, pa % 2 ^ 32, pa / 2 ^ 32 % 2 ^ 32⟩)

/-- `Stream::write` at the position `writePos` after it has read `rd`: the memory, the new
position and the number of bytes copied. -/
def Stream.write (s : Stream) (m : Mem) (writePos rd : ℕ) (data : Bytes) : Option (Mem × ℕ × ℕ) :=
  let free := if rd ≤ writePos then ringSize - (writePos - rd) else rd - writePos
  let n := min data.length free
  if n = 0 then some (m, writePos, 0)
  else
    let first := min n (ringSize - writePos)
    (s.ring.write m writePos (data.take first)).bind fun m =>
      (if first < n then s.ring.write m 0 ((data.take n).drop first) else some m).map fun m =>
        (m, (writePos + n) % ringSize, n)

/-! ### The engine -/

/-- The descriptor it is in, how far, and `LPIB`. -/
structure Engine where
  entry : ℕ
  off : ℕ
  lpib : ℕ

/-- The list is read at consecutive addresses. -/
def Registers.descriptor (r : Registers) (m : Mem) (i : ℕ) : Descriptor :=
  decodeEntry (load m (r.bdlpl + 2 ^ 32 * r.bdlpu + i * entrySize) entrySize)

def Engine.addr (e : Engine) (r : Registers) (m : Mem) : ℕ := (r.descriptor m e.entry).addr + e.off

/-- After one byte: the next entry at the end of one, the first after the last valid index. -/
def Engine.next (e : Engine) (r : Registers) (m : Mem) : Engine :=
  let lpib := (e.lpib + 1) % r.cbl
  if e.off + 1 < (r.descriptor m e.entry).size then ⟨e.entry, e.off + 1, lpib⟩
  else ⟨if e.entry = r.lvi then 0 else e.entry + 1, 0, lpib⟩

/-- `fetched` counts the bytes read since the start. -/
structure State where
  mem : Mem
  writePos : ℕ
  engine : Engine
  fetched : ℕ

/-- A `write` that has read `lpib` from the register at some time, or a byte fetched. -/
inductive Input
  | write (lpib : ℕ) (data : Bytes)
  | fetch

inductive Event
  | wrote (n : ℕ)
  | fetched (pos addr : ℕ) (b : Byte)

def Stream.step (s : Stream) (r : Registers) (t : State) : Input → Option (State × List Event)
  | .write lpib data =>
    (s.write t.mem t.writePos (lpib % ringSize) data).map fun (m, wp, n) =>
      ({ t with mem := m, writePos := wp }, [.wrote n])
  | .fetch =>
    let a := t.engine.addr r t.mem
    some ({ t with engine := t.engine.next r t.mem, fetched := t.fetched + 1 },
      [.fetched t.fetched a (t.mem a)])

def Stream.machine (s : Stream) (r : Registers) : Machine State Input Event := ⟨s.step r⟩

def State.start (m : Mem) : State := ⟨m, 0, ⟨0, 0, 0⟩, 0⟩

/-- What it should come to: the byte at position `p` of the stream is the one stored at the
offset `p % ringSize`, and lies where `toaddr` says. -/
def Stream.ringStep (s : Stream) (h : Hda) : Input → Option (Hda × List Event)
  | .write lpib data =>
    let w := h.write (lpib % ringSize) data
    some (w.1, [.wrote w.2])
  | .fetch =>
    let p := h.fetched.length
    (s.ring.toaddr (p % ringSize)).map fun a =>
      (h.dma 1, [.fetched p a (h.ring (p % ringSize))])

def Stream.ringMachine (s : Stream) : Machine Hda Input Event := ⟨s.ringStep⟩

/-- The ring as it is at `setup`. -/
def Stream.hda (s : Stream) (m : Mem) : Hda :=
  { Hda.init with ring := s.ring.phys.view m, running := true }

/-! ### Entries -/

theorem makeEntry_length (addr size ioc : ℕ) : (makeEntry addr size ioc).length = entrySize := by
  simp [makeEntry, leBytes_length, entrySize]

theorem decodeEntry_makeEntry {addr size ioc : ℕ} (ha : addr < 2 ^ 64) (hs : size < 2 ^ 32)
    (hi : ioc < 2 ^ 32) : decodeEntry (makeEntry addr size ioc) = ⟨addr, size, ioc⟩ := by
  have hlo := leBytes_length 4 addr
  have hhi := leBytes_length 4 (addr / 2 ^ 32)
  have hsz := leBytes_length 4 size
  have h8 : (leBytes 4 addr ++ leBytes 4 (addr / 2 ^ 32)).length = 8 := by
    rw [List.length_append, hlo, hhi]
  have h12 : (leBytes 4 addr ++ leBytes 4 (addr / 2 ^ 32) ++ leBytes 4 size).length = 12 := by
    rw [List.length_append, h8, hsz]
  have e0 : (makeEntry addr size ioc).take 4 = leBytes 4 addr := by
    rw [makeEntry, List.append_assoc, List.append_assoc, List.take_left' hlo]
  have e4 : ((makeEntry addr size ioc).drop 4).take 4 = leBytes 4 (addr / 2 ^ 32) := by
    rw [makeEntry, List.append_assoc, List.append_assoc, List.drop_left' hlo, List.take_left' hhi]
  have e8 : ((makeEntry addr size ioc).drop 8).take 4 = leBytes 4 size := by
    rw [makeEntry, List.append_assoc, List.drop_left' h8, List.take_left' hsz]
  have e12 : (makeEntry addr size ioc).drop 12 = leBytes 4 ioc := by
    rw [makeEntry, List.drop_left' h12]
  have hdiv : addr / 2 ^ 32 < 256 ^ 4 := by omega
  rw [decodeEntry, e0, e4, e8, e12, leVal_leBytes_mod, leVal_leBytes hdiv, leVal_leBytes hs,
    leVal_leBytes hi]
  congr 1
  omega

theorem pageSize_pos : 0 < pageSize := by decide

theorem size_div_pageSize (b : DmaBuffer) : b.size / pageSize = b.phys.starts.length :=
  Nat.mul_div_cancel _ pageSize_pos

theorem lt_size_iff {b : DmaBuffer} {i : ℕ} : i * pageSize < b.size ↔ i < b.phys.starts.length :=
  Nat.mul_lt_mul_right pageSize_pos

theorem toaddr_eq {b : DmaBuffer} {off : ℕ} (h : off < b.size) :
    b.toaddr off = some (b.phys.cell off) :=
  if_pos h

theorem cell_page (b : DmaBuffer) (i : ℕ) :
    b.phys.cell (i * pageSize) = b.phys.starts.getD i 0 := by
  rw [Pages.cell, Nat.mul_div_cancel _ pageSize_pos, Nat.mul_mod_left, Nat.add_zero]

theorem start_lt {b : DmaBuffer} {i : ℕ} (h : i < b.phys.starts.length) :
    b.phys.starts.getD i 0 < 2 ^ 64 := by
  rw [List.getD_eq_getElem _ _ h]
  exact b.bound _ (List.getElem_mem h)

theorem start_aligned {b : DmaBuffer} {i : ℕ} (h : i < b.phys.starts.length) :
    b.phys.starts.getD i 0 % pageSize = 0 := by
  rw [List.getD_eq_getElem _ _ h]
  exact b.phys.aligned _ (List.getElem_mem h)

/-! ### What `fill` leaves in the list -/

def iocOf (iocLast : Bool) (entries i : ℕ) : ℕ := if iocLast ∧ i + 1 = entries then 1 else 0

/-- The bytes of one entry. -/
def entryBytes (ring : DmaBuffer) (iocLast : Bool) (entries i : ℕ) : Bytes :=
  makeEntry (ring.phys.starts.getD i 0) pageSize (iocOf iocLast entries i)

theorem entryBytes_length (ring : DmaBuffer) (iocLast : Bool) (entries i : ℕ) :
    (entryBytes ring iocLast entries i).length = entrySize := makeEntry_length _ _ _

theorem decodeEntry_entryBytes {ring : DmaBuffer} {i : ℕ} (h : i < ring.phys.starts.length)
    (iocLast : Bool) (entries : ℕ) :
    decodeEntry (entryBytes ring iocLast entries i) =
      ⟨ring.phys.starts.getD i 0, pageSize, iocOf iocLast entries i⟩ := by
  have hioc : iocOf iocLast entries i < 2 ^ 32 := by
    unfold iocOf
    split <;> decide
  exact decodeEntry_makeEntry (start_lt h) (by decide) hioc

theorem fillEntry_eq {bdl ring : DmaBuffer} {i : ℕ} (hb : i < bdl.size / entrySize)
    (hr : i < ring.phys.starts.length) (iocLast : Bool) (entries : ℕ) (m : Mem) :
    fillEntry bdl ring iocLast entries m i =
      some (bdl.phys.poke m (i * entrySize) (entryBytes ring iocLast entries i)) := by
  have hfit : i * entrySize + (entryBytes ring iocLast entries i).length ≤ bdl.size := by
    rw [entryBytes_length]
    unfold entrySize at hb ⊢
    omega
  rw [fillEntry, toaddr_eq (lt_size_iff.mpr hr), cell_page]
  exact if_pos hfit

/- The entries written so far, and every other cell as it was. -/
theorem fill_loop (bdl ring : DmaBuffer) (iocLast : Bool) (entries : ℕ) (m : Mem) {k : ℕ}
    (hb : k ≤ bdl.size / entrySize) (hr : k ≤ ring.phys.starts.length) :
    ∃ m', (List.range k).foldlM (fillEntry bdl ring iocLast entries) m = some m' ∧
      (∀ j < k, load (bdl.phys.view m') (j * entrySize) entrySize =
        entryBytes ring iocLast entries j) ∧
      ∀ a, (∀ o < bdl.size, a ≠ bdl.phys.cell o) → m' a = m a := by
  induction k with
  | zero => exact ⟨m, rfl, fun j hj => absurd hj (Nat.not_lt_zero j), fun _ _ => rfl⟩
  | succ k ih =>
    obtain ⟨m₁, hfold, hload, hframe⟩ := ih (by omega) (by omega)
    let e := entryBytes ring iocLast entries k
    have hlen : e.length = entrySize := entryBytes_length _ _ _ _
    have hk : k * entrySize + entrySize ≤ bdl.size := by
      unfold entrySize at hb ⊢
      omega
    have hview : ∀ j ≤ k, load (bdl.phys.view (bdl.phys.poke m₁ (k * entrySize) e))
        (j * entrySize) entrySize =
          load (store (bdl.phys.view m₁) (k * entrySize) e) (j * entrySize) entrySize := by
      intro j hj
      have hjk : j * entrySize ≤ k * entrySize := Nat.mul_le_mul_right _ hj
      refine load_congr fun i hi => bdl.phys.view_poke m₁ _ (by rw [hlen]; exact hk) _ ?_
      change _ < bdl.size
      omega
    refine ⟨bdl.phys.poke m₁ (k * entrySize) e, ?_, fun j hj => ?_, fun a ha => ?_⟩
    · have hkb : k < bdl.size / entrySize := by omega
      have hkr : k < ring.phys.starts.length := by omega
      have hentry := fillEntry_eq hkb hkr iocLast entries m₁
      rw [List.range_succ, List.foldlM_append, hfold]
      simp only [Option.bind_eq_bind, Option.bind_some, List.foldlM_cons, hentry, List.foldlM_nil]
      rfl
    · rw [hview j (by omega)]
      rcases Nat.lt_succ_iff_lt_or_eq.mp hj with hlt | rfl
      · have hle : (j + 1) * entrySize ≤ k * entrySize := Nat.mul_le_mul_right _ hlt
        rw [Nat.succ_mul] at hle
        rw [load_store_of_disjoint _ (.inl hle)]
        exact hload j hlt
      · calc load (store _ (j * entrySize) e) (j * entrySize) entrySize
            = load (store _ (j * entrySize) e) (j * entrySize) e.length := by rw [hlen]
          _ = e := load_store_self _ _ _
    · rw [bdl.phys.poke_of_ne m₁ _ fun o _ ho => ha o (by omega)]
      exact hframe a ha

theorem fill_eq (bdl ring : DmaBuffer) (m : Mem) (count : ℕ) (iocLast : Bool) :
    ∃ m', fill bdl ring m count iocLast = some (m', entryCount bdl ring count) ∧
      (∀ i < entryCount bdl ring count, descriptor bdl m' i =
        ⟨ring.phys.starts.getD i 0, pageSize, iocOf iocLast (entryCount bdl ring count) i⟩) ∧
      ∀ a, (∀ o < bdl.size, a ≠ bdl.phys.cell o) → m' a = m a := by
  have hr : entryCount bdl ring count ≤ ring.phys.starts.length := by
    rw [← size_div_pageSize]
    exact Nat.min_le_right _ _
  have hb : entryCount bdl ring count ≤ bdl.size / entrySize :=
    (Nat.min_le_left _ _).trans (Nat.min_le_right _ _)
  obtain ⟨m', hfold, hload, hframe⟩ :=
    fill_loop bdl ring iocLast (entryCount bdl ring count) m hb hr
  refine ⟨m', ?_, fun i hi => ?_, hframe⟩
  · simp only [fill, hfold, Option.bind_eq_bind, Option.bind_some]
  · rw [descriptor, hload i hi, decodeEntry_entryBytes (by omega)]

theorem Lists.of_descriptors {bdl ring : DmaBuffer} {m : Mem} {entries : ℕ} {iocLast : Bool}
    (hle : entries ≤ ring.phys.starts.length)
    (h : ∀ i < entries, descriptor bdl m i =
      ⟨ring.phys.starts.getD i 0, pageSize, iocOf iocLast entries i⟩) :
    Lists bdl ring m entries iocLast := by
  have hpages : (descriptors bdl m entries).map (·.addr) = ring.phys.starts.take entries := by
    apply List.ext_getElem
    · simp [descriptors, hle]
    · intro i hi _
      have hi : i < entries := by simpa [descriptors] using hi
      simp only [descriptors, List.getElem_map, List.getElem_range, h i hi, List.getElem_take]
      exact List.getD_eq_getElem _ _ (by omega)
  refine ⟨hpages, ?_, fun d hd => ?_, fun i hi => ?_⟩
  · rw [hpages]
    exact ring.phys.nodup.sublist (List.take_sublist _ _)
  · obtain ⟨i, hi, rfl⟩ := List.mem_map.mp hd
    have hi : i < entries := List.mem_range.mp hi
    have hal := start_aligned (b := ring) (show i < ring.phys.starts.length by omega)
    rw [h i hi]
    refine ⟨rfl, ?_⟩
    simp only [pageSize] at hal ⊢
    omega
  · rw [h i hi]
    rfl

/-! ### What `setup` programs -/

namespace Stream

variable (s : Stream)

theorem entryCount_eq : entryCount s.bdl s.ring ringPages = ringPages := by
  rw [entryCount, s.bdl_size, s.ring_size]
  decide

/-- The engine is told where the list is and how long list and ring are. -/
structure Programmed (r : Registers) : Prop where
  list : r.bdlpl + 2 ^ 32 * r.bdlpu = s.bdl.phys.cell 0
  lvi : r.lvi + 1 = ringPages
  cbl : r.cbl = ringSize

/- The list lies in one page, where the engine's addresses are the driver's. -/
theorem Programmed.descriptor_eq {s : Stream} {r : Registers} (hr : s.Programmed r) (m : Mem)
    {i : ℕ} (hi : i < ringPages) : r.descriptor m i = Dma.descriptor s.bdl m i := by
  have hpage : i * entrySize + entrySize ≤ pageSize := by
    unfold ringPages at hi
    unfold entrySize pageSize
    omega
  have hpos : 0 < entrySize := by decide
  have hzero : 0 % pageSize + i * entrySize < pageSize := by
    rw [Nat.zero_mod]
    omega
  have hcell := s.bdl.phys.cell_add hzero
  rw [Nat.zero_add] at hcell
  have hmod : i * entrySize % pageSize = i * entrySize := Nat.mod_eq_of_lt (by omega)
  rw [Registers.descriptor, hr.list, ← hcell, Dma.descriptor,
    s.bdl.phys.load_view m (by rw [hmod]; exact hpage)]

/-- Descriptors of the whole ring. -/
def Listed (m : Mem) : Prop :=
  ∀ i < ringPages, (descriptor s.bdl m i).addr = s.ring.phys.starts.getD i 0 ∧
    (descriptor s.bdl m i).size = pageSize

/- `setup` does not stop, lists the ring and leaves its bytes alone. -/
theorem setup_eq (m : Mem) : ∃ m' r, s.setup m = some (m', r) ∧ s.Programmed r ∧ s.Listed m' ∧
    ∀ o < ringSize, s.ring.phys.view m' o = s.ring.phys.view m o := by
  obtain ⟨m', hfill, hdesc, hframe⟩ := fill_eq s.bdl s.ring m ringPages true
  rw [s.entryCount_eq] at hfill hdesc
  have hzero : 0 < s.bdl.size := by
    rw [s.bdl_size]
    exact pageSize_pos
  have hcell : s.bdl.phys.cell 0 < 2 ^ 64 := by
    have hpages := size_div_pageSize s.bdl
    rw [s.bdl_size, Nat.div_self pageSize_pos] at hpages
    have hpage := cell_page s.bdl 0
    rw [Nat.zero_mul] at hpage
    rw [hpage]
    exact start_lt (by omega)
  let pa := s.bdl.phys.cell 0
  let r : Registers :=
    ⟨ringSize % 2 ^ 32, (ringPages - 1) % 2 ^ 16, pa % 2 ^ 32, pa / 2 ^ 32 % 2 ^ 32⟩
  have hlist : pa % 2 ^ 32 + 2 ^ 32 * (pa / 2 ^ 32 % 2 ^ 32) = pa := by omega
  refine ⟨m', r, ?_, ⟨hlist, rfl, rfl⟩, fun i hi => ?_, fun o ho => ?_⟩
  · simp only [setup, hfill, toaddr_eq hzero, Option.bind_eq_bind, Option.bind_some]
    rfl
  · rw [hdesc i hi]
    exact ⟨rfl, rfl⟩
  · have hring : o < s.ring.size := by
      rw [s.ring_size]
      exact ho
    exact hframe _ fun j hj => (s.apart.cell_ne hj hring).symm

/-! ### A write in both views -/

/-- The software's side: the ring of `Hda`, and a list as it was. -/
structure Shows (m : Mem) (h : Hda) : Prop where
  ring : ∀ o < ringSize, s.ring.phys.view m o = h.ring o
  listed : s.Listed m

theorem ring_write_eq {s : Stream} {m : Mem} {off : ℕ} {d : Bytes}
    (h : off + d.length ≤ ringSize) : s.ring.write m off d = some (s.ring.phys.poke m off d) := by
  refine if_pos ?_
  rw [s.ring_size]
  exact h

theorem view_ring_poke {s : Stream} {m : Mem} {ring : ℕ → Byte} {off : ℕ} {d : Bytes}
    (h : off + d.length ≤ ringSize) (hview : ∀ o < ringSize, s.ring.phys.view m o = ring o) :
    ∀ o < ringSize, s.ring.phys.view (s.ring.phys.poke m off d) o = store ring off d o := by
  intro o ho
  have hsize : s.ring.phys.size = ringSize := s.ring_size
  rw [s.ring.phys.view_poke m off (by rw [hsize]; exact h) o (by rw [hsize]; exact ho)]
  exact store_congr (hview o ho) off d

theorem Listed.poke {s : Stream} {m : Mem} (hl : s.Listed m) {off : ℕ} {d : Bytes}
    (h : off + d.length ≤ ringSize) : s.Listed (s.ring.phys.poke m off d) := by
  intro i hi
  have hsize : s.ring.phys.size = ringSize := s.ring_size
  have hbdl : s.bdl.phys.size = pageSize := s.bdl_size
  have hsame : load (s.bdl.phys.view (s.ring.phys.poke m off d)) (i * entrySize) entrySize =
      load (s.bdl.phys.view m) (i * entrySize) entrySize := by
    refine load_congr fun j hj => s.ring.phys.poke_of_ne m off fun k _ hk => ?_
    refine s.apart.cell_ne ?_ ?_
    · rw [hbdl]
      unfold ringPages at hi
      unfold entrySize at hj ⊢
      unfold pageSize
      omega
    · rw [hsize]
      omega
  have h := hl i hi
  rw [descriptor] at h ⊢
  rwa [hsame]

theorem write_of_fits {s : Stream} {m : Mem} {wp n : ℕ} {data : Bytes} (hw : wp < ringSize)
    (hn : n ≤ data.length) :
    s.ring.write m wp (data.take (min n (ringSize - wp))) =
      some (s.ring.phys.poke m wp (data.take (min n (ringSize - wp)))) := by
  refine ring_write_eq ?_
  rw [List.length_take]
  omega

theorem hda_write_eq {h : Hda} {rd n : ℕ} {data : Bytes} (hn : min data.length (h.freeSpace rd) = n)
    (h0 : n ≠ 0) : h.write rd data =
      ({ h with
        ring := ringStore ringSize h.ring h.writePos (data.take n)
        writePos := (h.writePos + n) % ringSize
        pushed := h.pushed ++ data.take n }, n) := by
  subst hn
  exact if_neg h0

/- `Stream::write` on the pages is `Hda.write` on the ring. -/
theorem write_eq {s : Stream} {m : Mem} {h : Hda} (hs : s.Shows m h) {rd : ℕ}
    (hw : h.writePos < ringSize) (hrd : rd < ringSize) (data : Bytes) :
    ∃ m', s.write m h.writePos rd data =
        some (m', (h.write rd data).1.writePos, (h.write rd data).2) ∧
      s.Shows m' (h.write rd data).1 := by
  have hfree : h.freeSpace rd ≤ ringSize := by
    unfold Hda.freeSpace
    split <;> omega
  obtain ⟨n, hn⟩ : ∃ n, min data.length (h.freeSpace rd) = n := ⟨_, rfl⟩
  have hdata : n ≤ data.length := by omega
  have hwrite : s.write m h.writePos rd data =
      if n = 0 then some (m, h.writePos, 0)
      else (s.ring.write m h.writePos (data.take (min n (ringSize - h.writePos)))).bind fun m =>
        (if min n (ringSize - h.writePos) < n then
            s.ring.write m 0 ((data.take n).drop (min n (ringSize - h.writePos)))
          else some m).map fun m => (m, (h.writePos + n) % ringSize, n) := by
    subst hn
    rfl
  rcases eq_or_ne n 0 with h0 | h0
  · have hnone : h.write rd data = (h, 0) := if_pos (hn.trans h0)
    rw [hwrite, if_pos h0, hnone]
    exact ⟨m, rfl, hs⟩
  rw [hwrite, if_neg h0, write_of_fits hw hdata, hda_write_eq hn h0]
  obtain ⟨first, hfirst⟩ : ∃ first, min n (ringSize - h.writePos) = first := ⟨_, rfl⟩
  have hlen : (data.take n).length = n := by
    rw [List.length_take]
    omega
  have htake : (data.take n).take first = data.take first := by
    rw [List.take_take, Nat.min_eq_left (by omega)]
  have hfit : h.writePos + (data.take first).length ≤ ringSize := by
    rw [List.length_take]
    omega
  have hring : ringStore ringSize h.ring h.writePos (data.take n) =
      if first < n then
        store (store h.ring h.writePos (data.take first)) 0 ((data.take n).drop first)
      else store h.ring h.writePos (data.take first) := by
    rw [ringStore, hlen, hfirst, htake]
  have hview := view_ring_poke hfit hs.ring
  have hlist := hs.listed.poke hfit
  simp only [hfirst, Option.bind_some]
  by_cases hwrap : first < n
  · -- the part past the end of the ring goes to its start
    have hfit₂ : 0 + ((data.take n).drop first).length ≤ ringSize := by
      rw [List.length_drop, hlen]
      omega
    rw [if_pos hwrap] at hring
    rw [if_pos hwrap, ring_write_eq hfit₂, Option.map_some]
    refine ⟨_, rfl, fun o ho => ?_, hlist.poke hfit₂⟩
    rw [hring]
    exact view_ring_poke hfit₂ hview o ho
  · rw [if_neg hwrap] at hring
    rw [if_neg hwrap, Option.map_some]
    refine ⟨_, rfl, fun o ho => ?_, hlist⟩
    rw [hring]
    exact hview o ho

/-! ### The engine against the ring -/

/-- Where the engine is in its list is where `Hda` has `LPIB`. -/
structure Sim (t : State) (h : Hda) : Prop where
  shows : s.Shows t.mem h
  writePos : t.writePos = h.writePos
  write_lt : h.writePos < ringSize
  place : t.engine.entry * pageSize + t.engine.off = h.lpib
  off_lt : t.engine.off < pageSize
  entry_lt : t.engine.entry < ringPages
  lpib : t.engine.lpib = h.lpib
  lpib_eq : h.lpib = h.fetched.length % ringSize
  fetched : t.fetched = h.fetched.length

variable {s} {r : Registers} {t : State} {h : Hda}

theorem Sim.addr_eq (hr : s.Programmed r) (hs : s.Sim t h) :
    t.engine.addr r t.mem = s.ring.phys.cell h.lpib := by
  have hplace := hs.place
  have hdiv : h.lpib / pageSize = t.engine.entry := by
    rw [← hplace, Nat.mul_comm, Nat.mul_add_div pageSize_pos, Nat.div_eq_of_lt hs.off_lt,
      Nat.add_zero]
  have hmod : h.lpib % pageSize = t.engine.off := by
    rw [← hplace, Nat.mul_comm, Nat.mul_add_mod, Nat.mod_eq_of_lt hs.off_lt]
  rw [Engine.addr, hr.descriptor_eq _ hs.entry_lt, (hs.shows.listed _ hs.entry_lt).1, Pages.cell,
    hdiv, hmod]

theorem Sim.lpib_lt (hs : s.Sim t h) : h.lpib < ringSize := by
  rw [hs.lpib_eq]
  exact Nat.mod_lt _ Hda.ringSize_pos

theorem next_index_mul {i k n : ℕ} (hi : i < k) :
    (if i + 1 = k then 0 else i + 1) * n = ((i + 1) * n) % (k * n) := by
  rw [Nat.mul_mod_mul_right]
  split
  · rename_i h
    rw [h, Nat.mod_self]
  · rw [Nat.mod_eq_of_lt (by omega)]

/- One byte further, from the end of an entry to the next and from the last to the first. -/
theorem Sim.next (hr : s.Programmed r) (hs : s.Sim t h) :
    (t.engine.next r t.mem).entry * pageSize + (t.engine.next r t.mem).off =
        (h.lpib + 1) % ringSize ∧
      (t.engine.next r t.mem).off < pageSize ∧ (t.engine.next r t.mem).entry < ringPages ∧
      (t.engine.next r t.mem).lpib = (h.lpib + 1) % ringSize := by
  have hsize : (r.descriptor t.mem t.engine.entry).size = pageSize := by
    rw [hr.descriptor_eq _ hs.entry_lt]
    exact (hs.shows.listed _ hs.entry_lt).2
  have hring : ringSize = ringPages * pageSize := rfl
  have hplace := hs.place
  have hoff := hs.off_lt
  have hentry := hs.entry_lt
  have hlvi := hr.lvi
  have hsucc : (t.engine.entry + 1) * pageSize ≤ ringSize := Nat.mul_le_mul_right _ hentry
  rw [Nat.succ_mul] at hsucc
  simp only [Engine.next, hsize, hs.lpib, hr.cbl]
  split
  · rename_i hin
    refine ⟨?_, hin, hentry, rfl⟩
    rw [Nat.mod_eq_of_lt (by omega)]
    dsimp only
    omega
  · have hiff : t.engine.entry = r.lvi ↔ t.engine.entry + 1 = ringPages := by omega
    have hend : h.lpib + 1 = (t.engine.entry + 1) * pageSize := by
      rw [Nat.succ_mul]
      omega
    rw [Nat.add_zero]
    simp only [hiff]
    refine ⟨?_, pageSize_pos, ?_, trivial⟩
    · rw [next_index_mul hentry, hend, hring]
    · split <;> omega

theorem Sim.step (hr : s.Programmed r) (hs : s.Sim t h) (i : Input) :
    Option.Rel (fun p q => s.Sim p.1 q.1 ∧ p.2 = q.2) (s.step r t i) (s.ringStep h i) := by
  cases i with
  | write lpib data =>
    obtain ⟨m', hm', hshows⟩ := write_eq hs.shows hs.write_lt
      (Nat.mod_lt lpib Hda.ringSize_pos) data
    rw [Stream.step, hs.writePos, hm', Option.map_some, ringStep]
    have hkeep : (h.write (lpib % ringSize) data).1.lpib = h.lpib ∧
        (h.write (lpib % ringSize) data).1.fetched = h.fetched := by
      unfold Hda.write
      dsimp only
      split <;> exact ⟨rfl, rfl⟩
    have hlt : (h.write (lpib % ringSize) data).1.writePos < ringSize := by
      unfold Hda.write
      dsimp only
      split
      · exact hs.write_lt
      · exact Nat.mod_lt _ Hda.ringSize_pos
    refine .some ⟨⟨hshows, rfl, hlt, ?_, hs.off_lt, hs.entry_lt, ?_, ?_, ?_⟩, rfl⟩
    · exact hs.place.trans hkeep.1.symm
    · exact hs.lpib.trans hkeep.1.symm
    · rw [hkeep.1, hkeep.2]
      exact hs.lpib_eq
    · exact hs.fetched.trans (congrArg List.length hkeep.2).symm
  | fetch =>
    obtain ⟨hplace, hoff, hentry, hlpib⟩ := hs.next hr
    have hlt := hs.lpib_lt
    have hin : h.fetched.length % ringSize < s.ring.size := by
      rw [s.ring_size]
      exact Nat.mod_lt _ Hda.ringSize_pos
    have hbyte : t.mem (s.ring.phys.cell h.lpib) = h.ring h.lpib := hs.shows.ring _ hlt
    rw [Stream.step, ringStep, toaddr_eq hin, Option.map_some, hs.addr_eq hr, hbyte, hs.fetched,
      hs.lpib_eq]
    refine .some ⟨⟨⟨hs.shows.ring, hs.shows.listed⟩, hs.writePos, hs.write_lt, hplace, hoff, hentry,
      hlpib, ?_, ?_⟩, rfl⟩
    · simp only [Hda.dma, List.length_append, ringLoad_length, hs.lpib_eq, Nat.mod_add_mod]
    · simp [Hda.dma, ringLoad_length]

theorem ringMachine_run (s : Stream) (h : Hda) (is : List Input) :
    ∃ h' tr, s.ringMachine.run h is = some (h', tr) := by
  refine Machine.run_total _ (fun h i => ?_) h is
  cases i with
  | write lpib data => exact ⟨_, _, rfl⟩
  | fetch =>
    have hin : h.fetched.length % ringSize < s.ring.size := by
      rw [s.ring_size]
      exact Nat.mod_lt _ Hda.ringSize_pos
    exact ⟨h.dma 1, _, by
      change Stream.ringStep s h .fetch = _
      rw [ringStep, toaddr_eq hin, Option.map_some]⟩

theorem Sim.start {m m' : Mem} (hlist : s.Listed m')
    (hview : ∀ o < ringSize, s.ring.phys.view m' o = s.ring.phys.view m o) :
    s.Sim (.start m') (s.hda m) := by
  have hplace : 0 * pageSize + 0 = 0 := by rw [Nat.zero_mul]
  have hlpib : 0 = ([] : Bytes).length % ringSize := by rw [List.length_nil, Nat.zero_mod]
  have hentry : 0 < ringPages := by decide
  exact ⟨⟨hview, hlist⟩, rfl, Hda.ringSize_pos, hplace, pageSize_pos, hentry, rfl, hlpib, rfl⟩

/-- Told where the list is, and with the ring listed in memory, the engine and the software run
as they would on one ring of `Hda`, with the same events, and nothing panics. -/
theorem Programmed.run_refines {s : Stream} {r : Registers} (hr : s.Programmed r) {m m' : Mem}
    (hlist : s.Listed m') (hview : ∀ o < ringSize, s.ring.phys.view m' o = s.ring.phys.view m o)
    (is : List Input) : ∃ t h tr, (s.machine r).run (.start m') is = some (t, tr) ∧
      s.ringMachine.run (s.hda m) is = some (h, tr) ∧
      ∀ o < ringSize, (s.ring.toaddr o).map t.mem = some (h.ring o) := by
  obtain ⟨h, tr, hring⟩ := ringMachine_run s (s.hda m) is
  have hrel := Machine.run_refines (M := s.machine r) (N := s.ringMachine) (R := s.Sim)
    (fun _ _ i hs => hs.step hr i) (Sim.start hlist hview) is
  rw [hring] at hrel
  generalize hrun : (s.machine r).run (.start m') is = p at hrel
  cases hrel with
  | @some p q hpq =>
    obtain ⟨hsim, htr⟩ := hpq
    dsimp only at hsim htr
    refine ⟨p.1, h, tr, by rw [← htr], hring, fun o ho => ?_⟩
    have hin : o < s.ring.size := by
      rw [s.ring_size]
      exact ho
    rw [toaddr_eq hin, Option.map_some]
    exact congrArg some (hsim.shows.ring o ho)

/-- They do from `setup` on. -/
theorem run_refines_ring (s : Stream) (m : Mem) : ∃ m' r, s.setup m = some (m', r) ∧
    s.Listed m' ∧ ∀ is, ∃ t h tr, (s.machine r).run (.start m') is = some (t, tr) ∧
      s.ringMachine.run (s.hda m) is = some (h, tr) ∧
      ∀ o < ringSize, (s.ring.toaddr o).map t.mem = some (h.ring o) := by
  obtain ⟨m', r, hsetup, hr, hlist, hview⟩ := s.setup_eq m
  exact ⟨m', r, hsetup, hlist, hr.run_refines hlist hview⟩

end Stream

/-- The list `fill` makes is a list of the first pages of the ring, and the engine that
walks the one `setup` makes reads the ring that is written. -/
theorem engine_reads_ring :
    (∀ (bdl ring : DmaBuffer) (m : Mem) (count : ℕ) (iocLast : Bool),
      ∃ m' entries, fill bdl ring m count iocLast = some (m', entries) ∧
        entries = min (min count (bdl.size / entrySize)) (ring.size / pageSize) ∧
        Lists bdl ring m' entries iocLast) ∧
    ∀ (s : Stream) (m : Mem), ∃ m' r, s.setup m = some (m', r) ∧
      Lists s.bdl s.ring m' ringPages true ∧
      ∀ is, ∃ t h tr, (s.machine r).run (.start m') is = some (t, tr) ∧
        s.ringMachine.run (s.hda m) is = some (h, tr) ∧
        ∀ o < ringSize, (s.ring.toaddr o).map t.mem = some (h.ring o) := by
  have hfill : ∀ (bdl ring : DmaBuffer) (m : Mem) (count : ℕ) (iocLast : Bool),
      ∃ m' entries, fill bdl ring m count iocLast = some (m', entries) ∧
        entries = min (min count (bdl.size / entrySize)) (ring.size / pageSize) ∧
        Lists bdl ring m' entries iocLast := by
    intro bdl ring m count iocLast
    obtain ⟨m', heq, hdesc, -⟩ := fill_eq bdl ring m count iocLast
    refine ⟨m', _, heq, rfl, .of_descriptors ?_ hdesc⟩
    rw [← size_div_pageSize]
    exact Nat.min_le_right _ _
  refine ⟨hfill, fun s m => ?_⟩
  obtain ⟨m', r, hsetup, -, hrun⟩ := s.run_refines_ring m
  refine ⟨m', r, hsetup, ?_, hrun⟩
  obtain ⟨m'', entries, heq, hentries, hlists⟩ := hfill s.bdl s.ring m ringPages true
  obtain rfl : entries = ringPages := hentries.trans s.entryCount_eq
  have hmem : m'' = m' := by
    simp only [Stream.setup, heq, Option.bind_eq_bind, Option.bind_some,
      Option.bind_eq_some_iff] at hsetup
    obtain ⟨pa, -, hm⟩ := hsetup
    exact congrArg Prod.fst (Option.some.inj hm)
  rwa [hmem] at hlists

end Audiod.Dma
