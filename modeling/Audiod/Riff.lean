import Audiod.Bytes
import Mathlib.Data.List.Nodup

/-!
# Chunked files

A sequence of chunks, each an identifier of four bytes, its size in little-endian order,
the payload and a byte of padding after an odd one. A file is a list of cells that show a
byte each, so that cells can be told apart by more than their byte; `walk` goes from chunk
to chunk and `encode` is its inverse.
-/

namespace Audiod.Riff

variable {α : Type*} (byte : α → Byte)

/-- The number in `w` cells from `off` on. -/
def field (cells : List α) (off w : ℕ) : ℕ := leVal (((cells.drop off).take w).map byte)

def idAt (cells : List α) (off : ℕ) : Bytes := ((cells.drop off).take 4).map byte

structure Chunk (α : Type*) where
  off : ℕ
  id : Bytes
  payload : List α
  deriving DecidableEq

/-- The whole chunks from `off` on, where `cells` start; each takes eight cells at least,
so that the number of cells is fuel enough. -/
def walk : ℕ → ℕ → List α → List (Chunk α)
  | 0, _, _ => []
  | fuel + 1, off, cells =>
    let n := field byte cells 4 4
    if cells.length < 8 + n then []
    else
      ⟨off, idAt byte cells 0, (cells.drop 8).take n⟩ ::
        walk fuel (off + 8 + n + n % 2) (cells.drop (8 + n + n % 2))

/-- The chunks from `off` to the end of the file. -/
def chunks (file : List α) (off : ℕ) : List (Chunk α) :=
  walk byte file.length off (file.drop off)

/-! ### What is read are the bytes -/

section

variable {β : Type*} (f : β → α)

def Chunk.map (c : Chunk β) : Chunk α := ⟨c.off, c.id, c.payload.map f⟩

theorem field_map (cells : List β) (off w : ℕ) :
    field byte (cells.map f) off w = field (byte ∘ f) cells off w := by
  rw [field, field, ← List.map_drop, ← List.map_take, List.map_map]

theorem idAt_map (cells : List β) (off : ℕ) :
    idAt byte (cells.map f) off = idAt (byte ∘ f) cells off := by
  rw [idAt, idAt, ← List.map_drop, ← List.map_take, List.map_map]

theorem walk_map (fuel off : ℕ) (cells : List β) :
    walk byte fuel off (cells.map f) = (walk (byte ∘ f) fuel off cells).map (Chunk.map f) := by
  induction fuel generalizing off cells with
  | zero => rfl
  | succ fuel ih =>
    simp only [walk, field_map, idAt_map, List.length_map, ← List.map_drop, ← List.map_take, ih]
    split
    · rfl
    · rfl

theorem chunks_map (file : List β) (off : ℕ) :
    chunks byte (file.map f) off = (chunks (byte ∘ f) file off).map (Chunk.map f) := by
  rw [chunks, chunks, List.length_map, ← List.map_drop, walk_map]

end

/-! ### Where chunks are -/

theorem field_drop (cells : List α) (a off w : ℕ) :
    field byte (cells.drop a) off w = field byte cells (a + off) w := by
  rw [field, field, List.drop_drop]

theorem field_take (cells : List α) {n off w : ℕ} (h : off + w ≤ n) :
    field byte (cells.take n) off w = field byte cells off w := by
  rw [field, field, List.drop_take, List.take_take, Nat.min_eq_left (by omega)]

theorem idAt_take (cells : List α) {n off : ℕ} (h : off + 4 ≤ n) :
    idAt byte (cells.take n) off = idAt byte cells off := by
  rw [idAt, idAt, List.drop_take, List.take_take, Nat.min_eq_left (by omega)]

/-- A chunk is what the file has at its place. -/
structure Chunk.In (c : Chunk α) (file : List α) : Prop where
  id : c.id = idAt byte file c.off
  payload : c.payload = (file.drop (c.off + 8)).take (field byte file (c.off + 4) 4)
  size : c.payload.length = field byte file (c.off + 4) 4
  fits : c.off + 8 + c.payload.length ≤ file.length

theorem walk_in (file : List α) {fuel off : ℕ} {c : Chunk α}
    (h : c ∈ walk byte fuel off (file.drop off)) : c.In byte file := by
  induction fuel generalizing off with
  | zero => exact absurd h List.not_mem_nil
  | succ fuel ih =>
    rw [walk] at h
    split at h
    · exact absurd h List.not_mem_nil
    · rename_i hlen
      rcases List.mem_cons.mp h with rfl | h
      · rw [field_drop] at hlen ⊢
        have hsize : ((file.drop off).drop 8).length ≥ field byte file (off + 4) 4 := by
          rw [List.length_drop]
          omega
        have htake : (((file.drop off).drop 8).take (field byte file (off + 4) 4)).length =
            field byte file (off + 4) 4 := by
          rw [List.length_take, Nat.min_eq_left hsize]
        refine ⟨by rw [idAt, idAt, List.drop_zero], by rw [List.drop_drop], htake, ?_⟩
        rw [htake]
        rw [List.length_drop] at hlen
        dsimp only
        omega
      · rw [List.drop_drop] at h
        have hoff :
            off + (8 + field byte (file.drop off) 4 4 + field byte (file.drop off) 4 4 % 2) =
              off + 8 + field byte (file.drop off) 4 4 + field byte (file.drop off) 4 4 % 2 := by
          omega
        rw [hoff] at h
        exact ih h

theorem mem_chunks {file : List α} {off : ℕ} {c : Chunk α} (h : c ∈ chunks byte file off) :
    c.In byte file := walk_in byte file h

theorem walk_split {fuel off : ℕ} {cells : List α} {pre rest : List (Chunk α)} {c : Chunk α}
    (h : walk byte fuel off cells = pre ++ c :: rest) :
    off + 8 * pre.length ≤ c.off ∧ (pre = [] → c.off = off) ∧
      ∃ fuel' cells', rest =
        walk byte fuel' (c.off + 8 + c.payload.length + c.payload.length % 2) cells' := by
  induction fuel generalizing off cells pre with
  | zero => simp [walk] at h
  | succ fuel ih =>
    rw [walk] at h
    split at h
    · simp at h
    · rename_i hlen
      cases pre with
      | nil =>
        obtain ⟨rfl, hrest⟩ := List.cons.inj h
        have hsize :
            ((cells.drop 8).take (field byte cells 4 4)).length = field byte cells 4 4 := by
          rw [List.length_take, List.length_drop]
          omega
        refine ⟨le_rfl, fun _ => rfl, fuel,
          cells.drop (8 + field byte cells 4 4 + field byte cells 4 4 % 2), ?_⟩
        dsimp only
        rw [hsize]
        exact hrest.symm
      | cons p pre =>
        obtain ⟨rfl, hrest⟩ := List.cons.inj h
        obtain ⟨hle, -, hend⟩ := ih hrest
        refine ⟨?_, fun hnil => by simp at hnil, hend⟩
        rw [List.length_cons]
        omega

theorem Chunk.In.field_payload {file : List α} {c : Chunk α} (h : c.In byte file) {off w : ℕ}
    (hle : off + w ≤ c.payload.length) :
    field byte c.payload off w = field byte file (c.off + 8 + off) w := by
  have hn : off + w ≤ field byte file (c.off + 4) 4 := by
    rw [← h.size]
    exact hle
  rw [h.payload, field_take byte _ hn, field_drop]

/- Blocks of cells that can be told apart are in one place only. -/
theorem start_eq_of_take_eq {file : List α} (hnodup : file.Nodup) {a b m n : ℕ}
    (ha : a < file.length) (hm : 0 < m)
    (h : (file.drop a).take m = (file.drop b).take n) : a = b := by
  have hcell : ((file.drop b).take n)[0]? = some file[a] := by
    rw [← h, List.getElem?_take_of_lt hm, List.getElem?_drop, Nat.add_zero,
      List.getElem?_eq_getElem ha]
  have hn : 0 < n := by
    rcases Nat.eq_zero_or_pos n with rfl | hn
    · rw [List.take_zero] at hcell
      cases hcell
    · exact hn
  rw [List.getElem?_take_of_lt hn, List.getElem?_drop, Nat.add_zero] at hcell
  obtain ⟨hb, heq⟩ := List.getElem?_eq_some_iff.mp hcell
  exact ((List.Nodup.getElem_inj_iff hnodup).mp heq).symm

/-! ### Writing chunks -/

/-- An identifier of four bytes, and a payload whose size is a word. -/
structure Body where
  id : Bytes
  payload : Bytes
  id_length : id.length = 4
  size_lt : payload.length < 256 ^ 4

def Body.encode (c : Body) : Bytes :=
  c.id ++ leBytes 4 c.payload.length ++ c.payload ++ List.replicate (c.payload.length % 2) 0

/-- The chunks with their places from `off` on. -/
def layout : ℕ → List Body → List (Chunk Byte)
  | _, [] => []
  | off, c :: cs =>
    ⟨off, c.id, c.payload⟩ :: layout (off + 8 + c.payload.length + c.payload.length % 2) cs

theorem Body.encode_length (c : Body) :
    c.encode.length = 8 + c.payload.length + c.payload.length % 2 := by
  simp only [encode, List.length_append, c.id_length, leBytes_length, List.length_replicate]

theorem walk_encode_cons (fuel off : ℕ) (c : Body) (rest : Bytes) :
    walk id (fuel + 1) off (c.encode ++ rest) = ⟨off, c.id, c.payload⟩ ::
      walk id fuel (off + 8 + c.payload.length + c.payload.length % 2) rest := by
  have hid := c.id_length
  have hsz := leBytes_length 4 c.payload.length
  have h8 : (c.id ++ leBytes 4 c.payload.length).length = 8 := by
    rw [List.length_append, hid, hsz]
  have hfile : c.encode ++ rest = c.id ++ (leBytes 4 c.payload.length ++ (c.payload ++
      (List.replicate (c.payload.length % 2) 0 ++ rest))) := by
    simp only [Body.encode, List.append_assoc]
  have hn : field id (c.encode ++ rest) 4 4 = c.payload.length := by
    rw [field, hfile, List.drop_left' hid, List.take_left' hsz, List.map_id,
      leVal_leBytes c.size_lt]
  have hhead : idAt id (c.encode ++ rest) 0 = c.id := by
    rw [idAt, hfile, List.drop_zero, List.take_left' hid, List.map_id]
  have hpayload : ((c.encode ++ rest).drop 8).take c.payload.length = c.payload := by
    rw [hfile, ← List.append_assoc, List.drop_left' h8, List.take_left' rfl]
  have hrest : (c.encode ++ rest).drop (8 + c.payload.length + c.payload.length % 2) = rest :=
    List.drop_left' c.encode_length
  have hlen : ¬ (c.encode ++ rest).length < 8 + c.payload.length := by
    rw [List.length_append, c.encode_length]
    omega
  rw [walk]
  simp only [hn, if_neg hlen, hhead, hpayload, hrest]

theorem walk_encode (cs : List Body) :
    ∀ fuel off, cs.length ≤ fuel → walk id fuel off (cs.flatMap Body.encode) = layout off cs := by
  induction cs with
  | nil =>
    intro fuel off _
    cases fuel with
    | zero => rfl
    | succ fuel => rfl
  | cons c cs ih =>
    intro fuel off h
    obtain ⟨fuel, rfl⟩ := Nat.exists_eq_succ_of_ne_zero (by simp at h; omega : fuel ≠ 0)
    rw [List.flatMap_cons, walk_encode_cons, ih fuel _ (by simpa using h), layout]

end Audiod.Riff
