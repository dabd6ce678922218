import Audiod.Bytes
import Audiod.Circular
import Audiod.Common

/-!
# The playback stream and its DMA ring (`hda/src/stream.rs`, `hda/src/lib.rs`)

The part of `HdaPlayback` the mixer drives: the ring, the write position and
the link position register `LPIB`, which the DMA engine advances while the
stream runs and a stream reset (SRST) sets to zero. The formats and addresses
`setup` programs play no role in it.

`pushed` and `fetched` are history variables: the bytes accepted by `write` and
those the DMA engine has fetched, since the last reset.
-/

namespace Audiod

def ringSize : ℕ := 64 * 4096

def frameSize : ℕ := 4

structure Hda where
  ring : ℕ → Byte
  writePos : ℕ
  lpib : ℕ
  running : Bool
  pushed : Bytes
  fetched : Bytes

namespace Hda

/-- After `HdaPlayback::open`. -/
def init : Hda := ⟨fun _ => 0, 0, 0, false, [], []⟩

/-- `Stream::lpib` -/
def readLpib (h : Hda) : ℕ := h.lpib % ringSize

def delayBytes (h : Hda) : ℕ :=
  let rd := h.readLpib
  if rd ≤ h.writePos then h.writePos - rd else ringSize - rd + h.writePos

def freeSpace (h : Hda) (rd : ℕ) : ℕ :=
  if rd ≤ h.writePos then ringSize - (h.writePos - rd) else rd - h.writePos

def delayFrames (h : Hda) : ℤ := (h.delayBytes : ℤ) / frameSize

def srst (h : Hda) : Hda := { h with lpib := 0, pushed := [], fetched := [] }

def start (h : Hda) : Hda := if h.running then h else { h.srst with running := true }

/-- `Stream::write` after it has read `LPIB`; the result is the number of bytes
copied. -/
def write (h : Hda) (rd : ℕ) (data : Bytes) : Hda × ℕ :=
  let n := min data.length (h.freeSpace rd)
  if n = 0 then (h, 0)
  else
    ({ h with
      ring := ringStore ringSize h.ring h.writePos (data.take n)
      writePos := (h.writePos + n) % ringSize
      pushed := h.pushed ++ data.take n }, n)

/-- `HdaPlayback::drop_all`: stop, SRST, `clear` and `zero_ring`. Nothing is
fetched once the stream is stopped. -/
def dropAll (h : Hda) : Hda := { h.srst with writePos := 0, ring := fun _ => 0, running := false }

/-- `HdaPlayback::stop`: the positions stay. -/
def stop (h : Hda) : Hda := { h with running := false }

/-- The DMA engine fetches `k` bytes. -/
def dma (h : Hda) (k : ℕ) : Hda :=
  { h with
    lpib := (h.lpib + k) % ringSize
    fetched := h.fetched ++ ringLoad ringSize h.ring h.lpib k }

/-! ### Positions -/

/-- The two positions follow the byte counts, and a stopped stream is reset. -/
structure Positions (h : Hda) : Prop where
  write_eq : h.writePos = h.pushed.length % ringSize
  lpib_eq : h.lpib = h.fetched.length % ringSize
  stopped : h.running = false → h.pushed = [] ∧ h.fetched = []

theorem positions_init : init.Positions := ⟨rfl, rfl, fun _ => ⟨rfl, rfl⟩⟩

theorem ringSize_pos : 0 < ringSize := by decide

theorem Positions.start {h : Hda} (hp : h.Positions) : h.start.Positions := by
  unfold Hda.start
  split
  · exact hp
  · rename_i hr
    obtain ⟨hnil, -⟩ := hp.stopped (by simpa using hr)
    refine ⟨?_, rfl, nofun⟩
    have hw := hp.write_eq
    rw [hnil] at hw
    exact hw

theorem start_pushed {h : Hda} (hp : h.Positions) : h.start.pushed = h.pushed := by
  unfold Hda.start
  split
  · rfl
  · rename_i hr
    exact (hp.stopped (by simpa using hr)).1.symm

theorem start_fetched {h : Hda} (hp : h.Positions) : h.start.fetched = h.fetched := by
  unfold Hda.start
  split
  · rfl
  · rename_i hr
    exact (hp.stopped (by simpa using hr)).2.symm

theorem start_ring (h : Hda) : h.start.ring = h.ring := by
  unfold Hda.start
  split <;> rfl

theorem start_running (h : Hda) : h.start.running = true := by
  unfold Hda.start
  split
  · assumption
  · rfl

theorem Positions.write {h : Hda} (hp : h.Positions) (hr : h.running = true) (rd : ℕ)
    (data : Bytes) : (h.write rd data).1.Positions := by
  unfold Hda.write
  dsimp only
  split
  · exact hp
  · refine ⟨?_, hp.lpib_eq, fun hs => ?_⟩
    · simp only [List.length_append, List.length_take]
      rw [hp.write_eq, Nat.mod_add_mod, Nat.min_eq_left (Nat.min_le_left _ _)]
    · rw [hr] at hs
      cases hs

theorem positions_dropAll (h : Hda) : h.dropAll.Positions := ⟨rfl, rfl, fun _ => ⟨rfl, rfl⟩⟩

theorem Positions.dma {h : Hda} (hp : h.Positions) (hr : h.running = true) (k : ℕ) :
    (h.dma k).Positions := by
  refine ⟨hp.write_eq, ?_, fun hs => ?_⟩
  · simp only [Hda.dma, List.length_append, ringLoad_length]
    rw [hp.lpib_eq, Nat.mod_add_mod]
  · simp only [Hda.dma] at hs
    rw [hr] at hs
    cases hs

/- Bytes pushed and not fetched, as the positions show them: modulo the ring. -/
theorem delayBytes_eq {h : Hda} (hp : h.Positions) :
    (h.delayBytes : ℤ) = ((h.pushed.length : ℤ) - h.fetched.length) % ringSize := by
  have hw := hp.write_eq
  have hl := hp.lpib_eq
  have hs : ringSize = 262144 := rfl
  simp only [delayBytes, readLpib, hw, hl, hs]
  split <;> omega

theorem freeSpace_eq {h : Hda} (hp : h.Positions) (f : ℕ) :
    (h.freeSpace (f % ringSize) : ℤ) = ringSize - ((h.pushed.length : ℤ) - f) % ringSize := by
  have hw := hp.write_eq
  have hs : ringSize = 262144 := rfl
  simp only [freeSpace, hw, hs]
  split <;> omega

theorem delayBytes_of_le {h : Hda} (hp : h.Positions) (hle : h.fetched.length ≤ h.pushed.length)
    (hlt : h.pushed.length - h.fetched.length < ringSize) :
    h.delayBytes = h.pushed.length - h.fetched.length := by
  have heq := delayBytes_eq hp
  have hmod : ((h.pushed.length : ℤ) - h.fetched.length) % ringSize =
      (h.pushed.length : ℤ) - h.fetched.length := Int.emod_eq_of_lt (by omega) (by omega)
  omega

/-! ### What is in the ring -/

/-- As long as the DMA engine stays behind the writes: it has fetched the first
pushed bytes, and the ring still holds the others. -/
structure Faithful (h : Hda) : Prop where
  positions : h.Positions
  behind : h.fetched.length ≤ h.pushed.length
  room : h.pushed.length - h.fetched.length ≤ ringSize
  prefix_eq : h.fetched = h.pushed.take h.fetched.length
  unread : ringLoad ringSize h.ring h.lpib (h.pushed.length - h.fetched.length) =
    h.pushed.drop h.fetched.length

theorem faithful_of_reset {h : Hda} (hp : h.Positions) (hpu : h.pushed = []) (hf : h.fetched = []) :
    h.Faithful := by
  refine ⟨hp, ?_, ?_, ?_, ?_⟩ <;> simp [hpu, hf, ringLoad]

theorem Faithful.start {h : Hda} (hf : h.Faithful) : h.start.Faithful := by
  have hl : h.start.lpib = h.lpib := by
    rw [hf.positions.start.lpib_eq, start_fetched hf.positions, hf.positions.lpib_eq]
  refine ⟨hf.positions.start, ?_, ?_, ?_, ?_⟩ <;>
    rw [start_pushed hf.positions, start_fetched hf.positions]
  · exact hf.behind
  · exact hf.room
  · exact hf.prefix_eq
  · rw [start_ring, hl]
    exact hf.unread

theorem Faithful.dma {h : Hda} (hf : h.Faithful) (hr : h.running = true) {k : ℕ}
    (hk : k ≤ h.pushed.length - h.fetched.length) : (h.dma k).Faithful := by
  have hb := hf.behind
  have hroom := hf.room
  have hlen : (h.dma k).fetched.length = h.fetched.length + k := by
    simp [Hda.dma, ringLoad_length]
  have hpu : (h.dma k).pushed = h.pushed := rfl
  have hload : ringLoad ringSize h.ring h.lpib k = (h.pushed.drop h.fetched.length).take k := by
    rw [← hf.unread, ringLoad_take _ _ _ _ _ hk]
  refine ⟨hf.positions.dma hr k, ?_, ?_, ?_, ?_⟩ <;> rw [hlen, hpu]
  · omega
  · omega
  · simp only [Hda.dma]
    rw [hload, List.take_add, ← hf.prefix_eq]
  · have hd := ringLoad_drop ringSize h.ring h.lpib (h.pushed.length - h.fetched.length) k hk
    rw [hf.unread, List.drop_drop] at hd
    rw [Nat.sub_add_eq]
    exact hd.symm

/- A write takes what is free behind the unread bytes, as `LPIB` showed them when
`f` bytes had been fetched, and leaves those as they are. -/
theorem Faithful.write_take {h : Hda} (hf : h.Faithful) (hr : h.running = true) {f : ℕ}
    (data : Bytes) (hle : f ≤ h.fetched.length) (hlt : h.pushed.length - f < ringSize) :
    let n := min data.length (ringSize - (h.pushed.length - f))
    (h.write (f % ringSize) data).1.Faithful ∧ (h.write (f % ringSize) data).2 = n ∧
      (h.write (f % ringSize) data).1.pushed = h.pushed ++ data.take n ∧
      (h.write (f % ringSize) data).1.fetched = h.fetched := by
  intro n
  have hb := hf.behind
  have hfree : (h.freeSpace (f % ringSize) : ℤ) = ringSize - ((h.pushed.length : ℤ) - f) := by
    rw [freeSpace_eq hf.positions]
    congr 1
    exact Int.emod_eq_of_lt (by omega) (by omega)
  have hn : min data.length (h.freeSpace (f % ringSize)) = n := by omega
  have hpos := hf.positions.write hr (f % ringSize) data
  revert hpos
  simp only [Hda.write, hn]
  split
  · rename_i h0
    intro _
    rw [h0, List.take_zero, List.append_nil]
    exact ⟨hf, rfl, rfl, rfl⟩
  · intro hpos
    have hnlen : (data.take n).length = n := by
      rw [List.length_take]
      omega
    refine ⟨⟨hpos, ?_, ?_, ?_, ?_⟩, rfl, rfl, rfl⟩
    · simp only [List.length_append]
      omega
    · simp only [List.length_append, hnlen]
      omega
    · rw [List.take_append_of_le_length hb]
      exact hf.prefix_eq
    · simp only [List.length_append, hnlen]
      have hw : h.writePos = (h.lpib + (h.pushed.length - h.fetched.length)) % ringSize := by
        rw [hf.positions.write_eq, hf.positions.lpib_eq, Nat.mod_add_mod]
        congr 1
        omega
      have hlt : h.lpib < ringSize := by
        rw [hf.positions.lpib_eq]
        exact Nat.mod_lt _ ringSize_pos
      have hlen : h.pushed.length + n - h.fetched.length =
          h.pushed.length - h.fetched.length + (data.take n).length := by omega
      rw [hlen, hw, ringLoad_ringStore ringSize h.ring h.lpib _ _ hlt (by omega), hf.unread,
        List.drop_append_of_le_length hb]

theorem Faithful.write {h : Hda} (hf : h.Faithful) (hr : h.running = true) {f : ℕ} {data : Bytes}
    (hle : f ≤ h.fetched.length) (hfit : h.pushed.length - f + data.length < ringSize) :
    (h.write (f % ringSize) data).1.Faithful ∧ (h.write (f % ringSize) data).2 = data.length ∧
      (h.write (f % ringSize) data).1.pushed = h.pushed ++ data ∧
      (h.write (f % ringSize) data).1.fetched = h.fetched := by
  have hall : min data.length (ringSize - (h.pushed.length - f)) = data.length := by omega
  have hwrite := hf.write_take hr data hle (by omega)
  simp only [hall, List.take_length] at hwrite
  exact hwrite

end Hda

end Audiod
