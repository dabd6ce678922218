import Audiod.Players
import Audiod.WavFile

/-!
# `play_wav` along its run (`server/src/main.rs:724-747`)

One call of `Player::play` takes every whole frame of the file. The thread is before that
call, in it, or behind it with less than a frame left.
-/

namespace Audiod.Cli

section

variable {α : Type*} (byte : α → Byte)

/-- Cells that make whole frames of `size`. -/
def frameCells (data : List α) (size : ℕ) : ℕ := data.length / size * size

theorem frameCells_le (data : List α) (size : ℕ) : frameCells data size ≤ data.length :=
  Nat.div_mul_le_self _ _

theorem left_div_eq_zero (data : List α) (size : ℕ) :
    (data.length - frameCells data size) / size = 0 := by
  rcases Nat.eq_zero_or_pos size with rfl | hpos
  · exact Nat.div_zero _
  · have hsplit := Nat.div_add_mod' data.length size
    have hmod := Nat.mod_lt data.length hpos
    apply Nat.div_eq_of_lt
    unfold frameCells
    omega

/-- Where the thread is in the file and what it has handed over; `size` is the frame size. -/
def Placed (data : List α) (size off : ℕ) (pc : Pc α) (tr : List (Event α)) : Prop :=
  match pc with
  | .top => handed tr = data.take off
  | .read => False
  | .check piece => piece = data.drop off ∧ handed tr = data.take off
  | .play piece frames => size ≠ 0 ∧ off = 0 ∧ frames = data.length / size ∧ frames ≠ 0 ∧
      piece = data.take (frameCells data size) ∧ handed tr = []
  | .write _ consumed => size ≠ 0 ∧ off = 0 ∧ consumed = frameCells data size ∧
      handed tr = data.take consumed
  | .drain => (data.length - off) / size = 0 ∧ handed tr = data.take (frameCells data size)
  | .crashed => size = 0

/-- `play_wav` along its run, whatever the commands. -/
structure Along (ch : ℕ) (data : List α) (s : State α) (tr : List (Event α)) : Prop where
  player : s.player.For ch
  placed : ∃ off, s.source = .wav data off ∧ (off = 0 ∨ off = frameCells data s.player.clientFs) ∧
    Placed data s.player.clientFs off s.pc tr

theorem Placed.quiet {data : List α} {size off : ℕ} {pc : Pc α} {tr e : List (Event α)}
    (h : Placed data size off pc tr) (he : handed e = []) : Placed data size off pc (tr ++ e) := by
  have hh : handed (tr ++ e) = handed tr := by rw [handed_append, he, List.append_nil]
  cases pc with
  | read => exact h.elim
  | _ => simpa only [Placed, hh] using h

theorem along_start (rate ch : ℕ) (data : List α) (hwMute : Bool) (volume : F32) :
    Along ch data (start (.wav data 0) (.new rate ch formatS16Le) hwMute volume) [] :=
  ⟨Player.open_for rate ch hwMute, 0, rfl, .inl rfl, rfl⟩

section

variable {byte} {ch : ℕ} {data : List α} {s s' : State α} {tr e : List (Event α)} {a : Answer α}
  {piece : List α} {frames : ℕ}

variable (byte) in
/- The one call of `play`: the whole frames of the file, and it returns. -/
theorem Along.played (h : Along ch data s tr) (hpc : s.pc = .play piece frames) :
    s.player.clientFs ≠ 0 ∧ s.source = .wav data 0 ∧ frames = data.length / s.player.clientFs ∧
      frames ≠ 0 ∧ piece = data.take (frameCells data s.player.clientFs) ∧ handed tr = [] ∧
      ∃ buf out, s.player.play (piece.map byte) frames (Mixer.gainOf s.volume) =
        some ({ s.player with outBuf := buf }, out) ∧ out.length = frames * 4 := by
  obtain ⟨hplayer, off, hsource, -, hplaced⟩ := h
  rw [hpc] at hplaced
  obtain ⟨hfs, rfl, rfl, hframes, rfl, hhanded⟩ := hplaced
  exact ⟨hfs, hsource, rfl, hframes, rfl, hhanded,
    Player.play_spec hplayer (Mixer.gainOf s.volume) (cut_fits byte s.player.clientFs data)⟩

theorem Along.done (h : Along ch data s tr) (hpc : s.pc = .top) {off : ℕ}
    (hsrc : s.source = .wav data off) (hle : data.length ≤ off) :
    Along ch data { s with pc := .drain } tr := by
  obtain ⟨hplayer, off', hsource, hoff, hplaced⟩ := h
  rw [hsource] at hsrc
  cases hsrc
  rw [hpc] at hplaced
  refine ⟨hplayer, off, hsource, hoff, by rw [Nat.sub_eq_zero_of_le hle, Nat.zero_div],
    hplaced.trans ?_⟩
  have hcells := frameCells_le data s.player.clientFs
  rcases hoff with rfl | rfl
  · have hzero : frameCells data s.player.clientFs = 0 := by omega
    rw [hzero]
  · rfl

theorem Along.short (h : Along ch data s tr) (hpc : s.pc = .check piece)
    (hframes : piece.length / s.player.clientFs = 0) :
    Along ch data { s with pc := s.source.after } tr := by
  obtain ⟨hplayer, off, hsource, hoff, hplaced⟩ := h
  rw [hpc] at hplaced
  obtain ⟨rfl, hhanded⟩ := hplaced
  rw [List.length_drop] at hframes
  rw [hsource]
  refine ⟨hplayer, off, rfl, hoff, hframes, hhanded.trans ?_⟩
  rcases hoff with rfl | rfl
  · rw [frameCells, show data.length / s.player.clientFs = 0 from hframes, Nat.zero_mul]
  · rfl

theorem Along.cut (h : Along ch data s tr) (hpc : s.pc = .check piece)
    (hfs : s.player.clientFs ≠ 0) (hframes : piece.length / s.player.clientFs ≠ 0) :
    Along ch data { s with
      pc := .play (piece.take (piece.length / s.player.clientFs * s.player.clientFs))
        (piece.length / s.player.clientFs) } tr := by
  obtain ⟨hplayer, off, hsource, hoff, hplaced⟩ := h
  rw [hpc] at hplaced
  obtain ⟨rfl, hhanded⟩ := hplaced
  rw [List.length_drop] at hframes
  -- behind the frames there is nothing to cut
  have hzero : off = 0 := by
    rcases hoff with h | h
    · exact h
    · rw [h] at hframes
      exact absurd (left_div_eq_zero data _) hframes
  subst hzero
  exact ⟨hplayer, 0, hsource, .inl rfl, hfs, rfl, rfl, hframes, rfl, hhanded⟩

theorem Along.convert (h : Along ch data s tr) (hpc : s.pc = .play piece frames)
    {player : Player} {out : Bytes}
    (hplay : s.player.play (piece.map byte) frames (Mixer.gainOf s.volume) = some (player, out)) :
    Along ch data { s with player := player, pc := .write out piece.length }
      (tr ++ [.played piece frames]) := by
  obtain ⟨hfs, hsource, rfl, -, rfl, hhanded, buf, out', hsome, -⟩ := h.played byte hpc
  rw [hsome] at hplay
  cases hplay
  have hconsumed : (data.take (frameCells data s.player.clientFs)).length =
      frameCells data s.player.clientFs := by
    rw [List.length_take, min_eq_left (frameCells_le _ _)]
  refine ⟨h.player.outBuf buf, 0, hsource, .inl rfl, hfs, rfl, hconsumed, ?_⟩
  rw [handed_append, hhanded, hconsumed]
  exact List.append_nil _

variable (byte)

theorem Along.thread (h : Along ch data s tr) (hs : s.thread byte a = some (s', e)) :
    Along ch data s' (tr ++ e) := by
  have halong := h
  obtain ⟨hplayer, off, hsource, hoff, hplaced⟩ := h
  cases thread_turn byte hs with
  | listen hpc hsrc =>
    rw [hsource] at hsrc
    cases hsrc
  | look data' off' hpc hsrc hlt =>
    rw [hsource] at hsrc
    cases hsrc
    rw [hpc] at hplaced
    obtain ⟨applied, codec, heq⟩ := s.syncMuted_eq a
    rw [heq]
    have hcheck : Placed data s.player.clientFs off (.check (data.drop off)) tr := ⟨rfl, hplaced⟩
    exact ⟨hplayer.applied _, off, hsource, hoff, hcheck.quiet (s.syncMuted_handed a)⟩
  | done data' off' hpc hsrc hle =>
    rw [hsource] at hsrc
    cases hsrc
    rw [List.append_nil]
    exact halong.done hpc hsource hle
  | eof hpc | got data' hpc =>
    rw [hpc] at hplaced
    exact hplaced.elim
  | skip piece hpc =>
    rw [hpc] at hplaced
    rw [List.append_nil]
    exact ⟨hplayer, off, hsource, hoff, hplaced.2⟩
  | divide piece hpc hheard hfs =>
    rw [List.append_nil]
    exact ⟨hplayer, off, hsource, hoff, hfs⟩
  | short piece hpc hheard hfs hframes =>
    rw [List.append_nil]
    exact halong.short hpc hframes
  | cut piece hpc hheard hfs hframes =>
    rw [List.append_nil]
    exact halong.cut hpc hfs hframes
  | fault piece frames hpc hplay =>
    obtain ⟨-, -, -, -, -, -, buf, out, hsome, -⟩ := halong.played byte hpc
    rw [hsome] at hplay
    cases hplay
  | convert piece frames player out hpc hplay => exact halong.convert hpc hplay
  | finish consumed hpc =>
    rw [hpc] at hplaced
    obtain ⟨-, rfl, hconsumed, hhanded⟩ := hplaced
    rw [List.append_nil, hsource]
    exact ⟨hplayer, 0 + consumed, rfl, .inr (by rw [Nat.zero_add, hconsumed]), by
      rw [Nat.zero_add]
      exact hhanded⟩
  | write rest consumed hpc hne =>
    rw [hpc] at hplaced
    have hwrite : Placed data s.player.clientFs off
        (.write (rest.drop (writeTurn rest a)) consumed) tr := hplaced
    exact ⟨hplayer, off, hsource, hoff, hwrite.quiet rfl⟩
  | stay =>
    rw [List.append_nil]
    exact halong

end

theorem Along.step {ch : ℕ} {data : List α} {s s' : State α} {tr e : List (Event α)} {i : Input α}
    (h : Along ch data s tr) (hs : step byte s i = some (s', e)) : Along ch data s' (tr ++ e) := by
  cases i with
  | thread a => exact h.thread byte hs
  | command mute | setVolume percent =>
    cases hs
    rw [List.append_nil]
    exact ⟨h.player, h.placed⟩

/-! ### To the end of the file -/

/-- An answer with which a write gets on. -/
def Answer.accepts (a : Answer α) : Bool :=
  decide (a.delay < shimServerFrames) && decide (0 < a.room)

def Input.accepts : Input α → Bool
  | .thread a => a.accepts
  | _ => false

theorem writeTurn_le (rest : Bytes) (a : Answer α) : writeTurn rest a ≤ rest.length := by
  unfold writeTurn
  split
  · exact Nat.zero_le _
  · exact (min_le_left _ _).trans (min_le_left _ _)

theorem writeTurn_pos {rest : Bytes} {a : Answer α} (hne : rest ≠ []) (ha : a.accepts = true) :
    0 < writeTurn rest a := by
  obtain ⟨hdelay, hroom⟩ : a.delay < shimServerFrames ∧ 0 < a.room := by
    simpa [Answer.accepts] using ha
  have hlen : 0 < rest.length := List.length_pos_iff.mpr hne
  rw [writeTurn, if_neg (not_le.mpr hdelay)]
  dsimp only
  omega

/-- Whole frames from the offset on. -/
def Source.framesLeft : Source α → ℕ → ℕ
  | .stdin, _ => 0
  | .wav data off, size => (data.length - off) / size

/-- More than the turns that can get on before the file is through. -/
def State.rank (s : State α) : ℕ :=
  match s.pc with
  | .top => 8 * s.source.framesLeft s.player.clientFs + 2
  | .check _ => 8 * s.source.framesLeft s.player.clientFs + 1
  | .play _ frames => 8 * frames
  | .write rest _ => rest.length + 3
  | _ => 0

theorem rank_write {s : State α} {rest : Bytes} {consumed : ℕ} {a : Answer α}
    (hpc : s.pc = .write rest consumed) (hne : rest ≠ []) :
    ({ s with pc := .write (rest.drop (writeTurn rest a)) consumed } : State α).rank +
      a.accepts.toNat ≤ s.rank := by
  have hle := writeTurn_le rest a
  simp only [State.rank, hpc, List.length_drop]
  cases ha : a.accepts with
  | true =>
    have hpos := writeTurn_pos hne ha
    rw [Bool.toNat_true]
    omega
  | false =>
    rw [Bool.toNat_false]
    omega

theorem Along.rank_thread {ch : ℕ} {data : List α} {s s' : State α} {tr e : List (Event α)}
    {a : Answer α} (h : Along ch data s tr) (hheard : s.Heard) (hfs : s.player.clientFs ≠ 0)
    (hend : s.pc ≠ .drain) (hs : s.thread byte a = some (s', e)) :
    s'.rank + a.accepts.toNat ≤ s.rank := by
  have hone : a.accepts.toNat ≤ 1 := Bool.toNat_le _
  have halong := h
  obtain ⟨hplayer, off, hsource, hoff, hplaced⟩ := h
  cases thread_turn byte hs with
  | listen hpc hsrc =>
    rw [hsource] at hsrc
    cases hsrc
  | look data' off' hpc hsrc hlt =>
    obtain ⟨applied, codec, heq⟩ := s.syncMuted_eq a
    rw [heq]
    simp only [State.rank, hpc]
    omega
  | done data' off' hpc =>
    simp only [State.rank, hpc]
    omega
  | eof hpc | got data' hpc =>
    rw [hpc] at hplaced
    exact hplaced.elim
  | skip piece hpc hmute => exact absurd hheard hmute
  | divide piece hpc hheard h0 => exact absurd h0 hfs
  | short piece hpc hheard hfs hframes =>
    simp only [State.rank, hpc, hsource, Source.after]
    omega
  | cut piece hpc hheard hfs hframes =>
    rw [hpc] at hplaced
    obtain ⟨rfl, -⟩ := hplaced
    simp only [State.rank, hpc, hsource, Source.framesLeft, List.length_drop]
    omega
  | fault piece frames hpc =>
    obtain ⟨-, -, -, hframes, -⟩ := halong.played byte hpc
    simp only [State.rank, hpc]
    omega
  | convert piece frames player out hpc hplay =>
    obtain ⟨-, -, -, hframes, -, -, buf, out', hsome, hlen⟩ := halong.played byte hpc
    rw [hsome] at hplay
    cases hplay
    simp only [State.rank, hpc, hlen]
    omega
  | finish consumed hpc =>
    rw [hpc] at hplaced
    obtain ⟨-, rfl, rfl, -⟩ := hplaced
    have hnone :
        (data.length - (0 + frameCells data s.player.clientFs)) / s.player.clientFs = 0 := by
      rw [Nat.zero_add]
      exact left_div_eq_zero data _
    simp only [State.rank, hpc, hsource, Source.advance, Source.framesLeft, hnone]
    omega
  | write rest consumed hpc hne => exact rank_write hpc hne
  | stay hpc =>
    rcases hpc with hpc | hpc
    · exact absurd hpc hend
    · rw [hpc] at hplaced
      exact absurd hplaced hfs

end

end Audiod.Cli
