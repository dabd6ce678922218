import Audiod.Header
import Audiod.Riff
import Mathlib.Data.List.Sigma

/-!
# WAV files (`server/src/main.rs:97-128`)

`load_wav` reads everything at fixed places, as if the file began with a 'fmt ' chunk of
16 bytes and the 'data' chunk right behind it. The cells of a file can be told apart, so
that the data returned is a certain part of the file and not bytes that happen to be equal;
with bytes for cells (`loadWav id`) it is the program.
-/

namespace Audiod.Wav

open Riff

def riffId : Bytes := [82, 73, 70, 70]
def waveId : Bytes := [87, 65, 86, 69]
def fmtId : Bytes := [102, 109, 116, 32]
def dataId : Bytes := [100, 97, 116, 97]

structure WavFile (α : Type*) where
  cfg : AudioCfg
  data : List α
  deriving DecidableEq

section

variable {α : Type*} (byte : α → Byte)

/-- What `read_exact` says at the end of the file. -/
def eofError : String := "failed to fill whole buffer"

/-- `load_wav` on what the file holds. -/
def loadWav (file : List α) : Except String (WavFile α) :=
  if file.length < 44 then .error eofError
  else
    let h := file.take 44
    if idAt byte h 0 ≠ riffId ∨ idAt byte h 8 ≠ waveId then .error "not a WAV file"
    else
      let fmt := field byte h 20 2
      let ch := field byte h 22 2
      let rate := field byte h 24 4
      let bits := field byte h 34 2
      if fmt ≠ 1 then .error "only PCM WAV"
      else if bits ≠ 16 then .error "only 16-bit WAV"
      else
        let dsz := field byte h 40 4
        let rest := file.drop 44
        if rest.length < dsz then .error eofError
        else .ok ⟨.new rate ch formatS16Le, rest.take dsz⟩

/-! ### What the format says -/

/-- 'RIFF', a size, 'WAVE'; the chunks follow from the twelfth byte on. -/
def IsWave (file : List α) : Prop := idAt byte file 0 = riffId ∧ idAt byte file 8 = waveId

/-- A 'fmt ' chunk of 16-bit PCM, possibly extended. -/
structure IsPcm16 (c : Chunk α) : Prop where
  id : c.id = fmtId
  size : 16 ≤ c.payload.length
  code : field byte c.payload 0 2 = 1
  bits : field byte c.payload 14 2 = 16

/-- The channels and the rate of a 'fmt ' chunk. -/
def fmtCfg (c : Chunk α) : AudioCfg :=
  .new (field byte c.payload 4 4) (field byte c.payload 2 2) formatS16Le

/-- The places `load_wav` reads agree with a 'fmt ' chunk, wherever it is, and say that
there is no data. -/
structure ReadsEmpty (file : List α) (f : Chunk α) : Prop where
  length : 44 ≤ file.length
  code : field byte file 20 2 = 1
  channels : field byte file 22 2 = field byte f.payload 2 2
  rate : field byte file 24 4 = field byte f.payload 4 4
  bits : field byte file 34 2 = 16
  size : field byte file 40 4 = 0

/-! ### When it accepts -/

theorem loadWav_ok_iff {file : List α} {w : WavFile α} :
    loadWav byte file = .ok w ↔ 44 ≤ file.length ∧ IsWave byte file ∧ field byte file 20 2 = 1 ∧
      field byte file 34 2 = 16 ∧ 44 + field byte file 40 4 ≤ file.length ∧
      w = ⟨.new (field byte file 24 4) (field byte file 22 2) formatS16Le,
        (file.drop 44).take (field byte file 40 4)⟩ := by
  have hid0 : idAt byte (file.take 44) 0 = idAt byte file 0 := idAt_take byte file (by decide)
  have hid8 : idAt byte (file.take 44) 8 = idAt byte file 8 := idAt_take byte file (by decide)
  have h20 : field byte (file.take 44) 20 2 = field byte file 20 2 :=
    field_take byte file (by decide)
  have h22 : field byte (file.take 44) 22 2 = field byte file 22 2 :=
    field_take byte file (by decide)
  have h24 : field byte (file.take 44) 24 4 = field byte file 24 4 :=
    field_take byte file (by decide)
  have h34 : field byte (file.take 44) 34 2 = field byte file 34 2 :=
    field_take byte file (by decide)
  have h40 : field byte (file.take 44) 40 4 = field byte file 40 4 :=
    field_take byte file (by decide)
  simp only [loadWav, hid0, hid8, h20, h22, h24, h34, h40, List.length_drop, IsWave]
  constructor
  · intro h
    split at h
    · cases h
    · split at h
      · cases h
      · rename_i hwave
        split at h
        · cases h
        · rename_i hcode
          split at h
          · cases h
          · rename_i hbits
            split at h
            · cases h
            · exact ⟨by omega, by tauto, not_not.mp hcode, not_not.mp hbits, by omega,
                (Except.ok.inj h).symm⟩
  · rintro ⟨hlen, ⟨hriff, hwave⟩, hcode, hbits, hfits, rfl⟩
    rw [if_neg (by omega), if_neg (by tauto), if_neg (not_not.mpr hcode),
      if_neg (not_not.mpr hbits), if_neg (by omega)]

theorem loadWav_map {β : Type*} (f : β → α) (file : List β) :
    loadWav byte (file.map f) =
      (loadWav (byte ∘ f) file).map fun w => ⟨w.cfg, w.data.map f⟩ := by
  simp only [loadWav, List.length_map, ← List.map_take, ← List.map_drop, field_map, idAt_map]
  repeat' split
  all_goals rfl

theorem new_inj {r c r' c' fmt : ℕ} (h : AudioCfg.new r c fmt = AudioCfg.new r' c' fmt) :
    r = r' ∧ c = c' := by
  simp only [AudioCfg.new, AudioCfg.mk.injEq] at h
  exact ⟨h.1, h.2.1⟩

/-! ### Where the data chunk has to be -/

/- With nothing before the two chunks and nothing between them the places are right. -/
theorem loadWav_canonical {file : List α} (hwave : IsWave byte file) {f d : Chunk α}
    {post : List (Chunk α)} (hchunks : chunks byte file 12 = f :: d :: post)
    (hf : IsPcm16 byte f) (hsize : f.payload.length = 16) :
    loadWav byte file = .ok ⟨fmtCfg byte f, d.payload⟩ := by
  have hfmem : f ∈ chunks byte file 12 := by rw [hchunks]; simp
  have hdmem : d ∈ chunks byte file 12 := by rw [hchunks]; simp
  have hfin : f.In byte file := mem_chunks byte hfmem
  have hdin : d.In byte file := mem_chunks byte hdmem
  have hfirst : chunks byte file 12 = [] ++ f :: d :: post := hchunks
  obtain ⟨-, hfoff, fuel, cells, hrest⟩ := walk_split byte hfirst
  have hfoff : f.off = 12 := hfoff rfl
  have hnext : walk byte fuel (f.off + 8 + f.payload.length + f.payload.length % 2) cells =
    [] ++ d :: post := hrest.symm
  obtain ⟨-, hdoff, -⟩ := walk_split byte hnext
  have hdoff : d.off = 36 := by
    have := hdoff rfl
    omega
  have hfield {off w : ℕ} (hle : off + w ≤ 16) :
      field byte f.payload off w = field byte file (20 + off) w := by
    rw [hfin.field_payload byte (by omega), hfoff]
  have hfits := hdin.fits
  have hdsize : d.payload.length = field byte file 40 4 := by
    rw [hdin.size, hdoff]
  have hdata : d.payload = (file.drop 44).take (field byte file 40 4) := by
    rw [hdin.payload, hdoff]
  rw [hdoff] at hfits
  have hcode := hf.code
  have hbits := hf.bits
  rw [hfield (by omega)] at hcode hbits
  refine (loadWav_ok_iff byte).mpr ⟨by omega, hwave, hcode, hbits, by omega, ?_⟩
  rw [fmtCfg, hfield (by omega), hfield (by omega), hdata]

/-- The data is right exactly if the two chunks are where they are expected, or there is
none and the places say so. -/
theorem loadWav_right_iff {file : List α} (hnodup : file.Nodup) (hwave : IsWave byte file)
    {pre mid post : List (Chunk α)} {f d : Chunk α}
    (hchunks : chunks byte file 12 = pre ++ f :: (mid ++ d :: post)) (hf : IsPcm16 byte f) :
    loadWav byte file = .ok ⟨fmtCfg byte f, d.payload⟩ ↔
      (pre = [] ∧ f.payload.length = 16 ∧ mid = []) ∨
        (d.payload = [] ∧ ReadsEmpty byte file f) := by
  have hdmem : d ∈ chunks byte file 12 := by rw [hchunks]; simp
  have hdin : d.In byte file := mem_chunks byte hdmem
  constructor
  · intro h
    obtain ⟨hlen, -, hcode, hbits, hfits, hw⟩ := (loadWav_ok_iff byte).mp h
    obtain ⟨hcfg, hdata⟩ := WavFile.mk.inj hw
    obtain ⟨hrate, hch⟩ := new_inj hcfg
    by_cases hnil : d.payload = []
    · refine .inr ⟨hnil, hlen, hcode, hch.symm, hrate.symm, hbits, ?_⟩
      have hzero := congrArg List.length hdata
      rw [hnil, List.length_nil, List.length_take, List.length_drop] at hzero
      omega
    · -- the cells tell where the payload is
      left
      have hpos : 0 < d.payload.length := List.length_pos_iff.mpr hnil
      have hplace : d.off + 8 = 44 := by
        have hdfits := hdin.fits
        have hsize := hdin.size
        refine start_eq_of_take_eq hnodup (m := field byte file (d.off + 4) 4)
          (n := field byte file 40 4) (by omega) (by omega) ?_
        rw [← hdin.payload]
        exact hdata
      obtain ⟨hpre, -, fuel, cells, hrest⟩ := walk_split byte hchunks
      obtain ⟨hmid, -⟩ := walk_split byte hrest.symm
      have hsize := hf.size
      have hnopre : pre.length = 0 := by omega
      have hnomid : mid.length = 0 := by omega
      exact ⟨List.length_eq_zero_iff.mp hnopre, by omega, List.length_eq_zero_iff.mp hnomid⟩
  · rintro (⟨rfl, hsize, rfl⟩ | ⟨hnil, hread⟩)
    · exact loadWav_canonical byte hwave hchunks hf hsize
    · refine (loadWav_ok_iff byte).mpr ⟨hread.length, hwave, hread.code, hread.bits, ?_, ?_⟩
      · rw [hread.size]
        exact hread.length
      · rw [fmtCfg, hread.rate, hread.channels, hread.size, hnil, List.take_zero]

/-- What is accepted is the payload of a 'data' chunk exactly if there is one at the place
where its header is expected, or both are empty. -/
theorem loadWav_data_iff {file : List α} (hnodup : file.Nodup) {w : WavFile α}
    (h : loadWav byte file = .ok w) :
    (∃ c ∈ chunks byte file 12, c.id = dataId ∧ c.payload = w.data) ↔
      ∃ c ∈ chunks byte file 12, c.id = dataId ∧
        (c.off = 36 ∨ (c.payload = [] ∧ field byte file 40 4 = 0)) := by
  obtain ⟨hlen, -, -, -, hfits, rfl⟩ := (loadWav_ok_iff byte).mp h
  constructor
  · rintro ⟨c, hc, hid, hdata⟩
    have hin := mem_chunks byte hc
    refine ⟨c, hc, hid, ?_⟩
    by_cases hnil : c.payload = []
    · refine .inr ⟨hnil, ?_⟩
      have hzero := congrArg List.length hdata
      rw [hnil, List.length_nil, List.length_take, List.length_drop] at hzero
      omega
    · left
      have hpos : 0 < c.payload.length := List.length_pos_iff.mpr hnil
      have hcfits := hin.fits
      have hsize := hin.size
      have hplace : c.off + 8 = 44 := by
        refine start_eq_of_take_eq hnodup (m := field byte file (c.off + 4) 4)
          (n := field byte file 40 4) (by omega) (by omega) ?_
        rw [← hin.payload]
        exact hdata
      omega
  · rintro ⟨c, hc, hid, hoff | ⟨hnil, hzero⟩⟩
    · have hin := mem_chunks byte hc
      refine ⟨c, hc, hid, ?_⟩
      rw [hin.payload, hoff]
    · exact ⟨c, hc, hid, by rw [hnil, hzero, List.take_zero]⟩

end

theorem zipIdx_nodup (file : Bytes) : file.zipIdx.Nodup :=
  (List.nodup_zipIdx_map_snd file).of_map Prod.snd

/-- When `load_wav` finds the data, where the bytes of the file carry their places: for the
file of a 16-bit 'fmt ' chunk and a 'data' chunk after it, and for any file that it accepts.
The places change neither the chunks nor what is loaded. -/
theorem loadWav_finds_data_iff (file : Bytes) :
    (chunks id file 12 = (chunks Prod.fst file.zipIdx 12).map (Chunk.map Prod.fst) ∧
      loadWav id file =
        (loadWav Prod.fst file.zipIdx).map fun w => ⟨w.cfg, w.data.map Prod.fst⟩) ∧
    (∀ (pre mid post : List (Chunk (Byte × ℕ))) (f d : Chunk (Byte × ℕ)),
      IsWave Prod.fst file.zipIdx →
      chunks Prod.fst file.zipIdx 12 = pre ++ f :: (mid ++ d :: post) → IsPcm16 Prod.fst f →
      d.id = dataId →
        (loadWav Prod.fst file.zipIdx = .ok ⟨fmtCfg Prod.fst f, d.payload⟩ ↔
          (pre = [] ∧ f.payload.length = 16 ∧ mid = []) ∨
            (d.payload = [] ∧ ReadsEmpty Prod.fst file.zipIdx f))) ∧
    ∀ w, loadWav Prod.fst file.zipIdx = .ok w →
      ((∃ c ∈ chunks Prod.fst file.zipIdx 12, c.id = dataId ∧ c.payload = w.data) ↔
        ∃ c ∈ chunks Prod.fst file.zipIdx 12, c.id = dataId ∧
          (c.off = 36 ∨ (c.payload = [] ∧ field Prod.fst file.zipIdx 40 4 = 0))) := by
  refine ⟨⟨?_, ?_⟩, fun _ _ _ _ _ hwave hchunks hf _ => ?_, fun _ h => ?_⟩
  · have hmap := chunks_map id Prod.fst file.zipIdx 12
    rwa [List.zipIdx_map_fst] at hmap
  · have hmap := loadWav_map id Prod.fst file.zipIdx
    rwa [List.zipIdx_map_fst] at hmap
  · exact loadWav_right_iff Prod.fst (zipIdx_nodup file) hwave hchunks hf
  · exact loadWav_data_iff Prod.fst (zipIdx_nodup file) h

/-- A file written chunk by chunk. -/
def wavBytes (size : ℕ) (cs : List Body) : Bytes :=
  riffId ++ leBytes 4 size ++ waveId ++ cs.flatMap Body.encode

theorem length_le_encode (cs : List Body) : cs.length ≤ (cs.flatMap Body.encode).length := by
  induction cs with
  | nil => exact le_rfl
  | cons c cs ih =>
    rw [List.flatMap_cons, List.length_append, List.length_cons, c.encode_length]
    omega

/-- Such a file has the chunks that were written, so that the theorem above is about every
one of them. -/
theorem chunks_wavBytes (size : ℕ) (cs : List Body) :
    IsWave id (wavBytes size cs) ∧ chunks id (wavBytes size cs) 12 = layout 12 cs := by
  have hriff : riffId.length = 4 := rfl
  have hwave : waveId.length = 4 := rfl
  have h8 : (riffId ++ leBytes 4 size).length = 8 := by
    rw [List.length_append, leBytes_length]
    rfl
  have h12 : (riffId ++ leBytes 4 size ++ waveId).length = 12 := by
    rw [List.length_append, h8]
    rfl
  refine ⟨⟨?_, ?_⟩, ?_⟩
  · rw [idAt, List.map_id, wavBytes, List.drop_zero, List.append_assoc, List.append_assoc,
      List.take_left' hriff]
  · rw [idAt, List.map_id, wavBytes, List.append_assoc, List.drop_left' h8, List.take_left' hwave]
  · rw [chunks, wavBytes, List.drop_left' h12]
    refine walk_encode cs _ _ ?_
    have hle := length_le_encode cs
    rw [List.length_append, h12]
    omega

/-! ### Layouts -/

theorem fmtId_length : fmtId.length = 4 := rfl

theorem dataId_length : dataId.length = 4 := rfl

/-- PCM, two channels at 48000 Hz, 16 bits. -/
def fmtBody : Body where
  id := fmtId
  payload := [1, 0, 2, 0, 128, 187, 0, 0, 0, 238, 2, 0, 4, 0, 16, 0]
  id_length := fmtId_length
  size_lt := by decide

def dataBody : Body where
  id := dataId
  payload := [1, 0, 2, 0]
  id_length := dataId_length
  size_lt := by decide

def listBody : Body where
  id := [76, 73, 83, 84]
  payload := [97, 98, 99, 100]
  id_length := rfl
  size_lt := by decide

def plainFile : List (Byte × ℕ) := (wavBytes 40 [fmtBody, dataBody]).zipIdx

theorem loadWav_finds_data_plain :
    loadWav Prod.fst plainFile = .ok ⟨.new 48000 2 formatS16Le, plainFile.drop 44⟩ ∧
      ∃ c ∈ chunks Prod.fst plainFile 12, c.id = dataId ∧ c.payload = plainFile.drop 44 := by
  obtain ⟨-, hright, hpart⟩ := loadWav_finds_data_iff (wavBytes 40 [fmtBody, dataBody])
  have hok := (hright [] [] [] ⟨12, fmtId, (plainFile.drop 20).take 16⟩
    ⟨36, dataId, plainFile.drop 44⟩ ⟨by decide +kernel, by decide +kernel⟩ (by decide +kernel)
    ⟨rfl, by decide +kernel, by decide +kernel, by decide +kernel⟩ rfl).mpr
    (.inl ⟨rfl, by decide +kernel, rfl⟩)
  have hcfg : fmtCfg Prod.fst ⟨12, fmtId, (plainFile.drop 20).take 16⟩ =
      .new 48000 2 formatS16Le := by decide +kernel
  rw [hcfg] at hok
  refine ⟨hok, (hpart _ hok).mpr ⟨⟨36, dataId, plainFile.drop 44⟩, ?_, rfl, .inl rfl⟩⟩
  decide +kernel

/- A LIST chunk in front of the data is played. -/
theorem list_chunk_loaded :
    loadWav id (wavBytes 52 [fmtBody, listBody, dataBody]) =
        .ok ⟨.new 48000 2 formatS16Le, listBody.payload⟩ ∧
      (¬ ∀ (file : Bytes) (pre mid post : List (Chunk Byte)) (f d : Chunk Byte), IsWave id file →
        chunks id file 12 = pre ++ f :: (mid ++ d :: post) → IsPcm16 id f → d.id = dataId →
          loadWav id file = .ok ⟨fmtCfg id f, d.payload⟩) ∧
      ¬ ∀ (file : Bytes) (w : WavFile Byte), loadWav id file = .ok w →
        ∃ c ∈ chunks id file 12, c.id = dataId ∧ c.payload = w.data := by
  have hload : loadWav id (wavBytes 52 [fmtBody, listBody, dataBody]) =
      .ok ⟨.new 48000 2 formatS16Le, listBody.payload⟩ := by decide +kernel
  obtain ⟨hwave, hchunks⟩ := chunks_wavBytes 52 [fmtBody, listBody, dataBody]
  refine ⟨hload, fun h => ?_, fun h => ?_⟩
  · have hright := h _ [] [⟨36, listBody.id, listBody.payload⟩] []
      ⟨12, fmtBody.id, fmtBody.payload⟩ ⟨48, dataId, dataBody.payload⟩ hwave hchunks
      ⟨rfl, by decide, by decide, by decide⟩ rfl
    rw [hload] at hright
    exact absurd (congrArg WavFile.data (Except.ok.inj hright)) (by decide)
  · obtain ⟨c, hc, hid, hdata⟩ := h _ _ hload
    rw [hchunks] at hc
    revert c
    decide

end Audiod.Wav
