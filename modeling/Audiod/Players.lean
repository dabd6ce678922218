import Audiod.Convert

/-!
# The players (`server/src/main.rs:691-747`, `server/src/backend.rs:74-93`)

`play_stdin` and `play_wav` as the steps of one thread, cut where it looks at the shared
state, where a read may wait and at every turn of the write loop in `Backend::play`. The
control threads change the mute flag and the volume in between. A read, the delay of the
ring, the room in it and what the codec makes of a command are answers of the environment.

The cells of the input can be told apart, so that what is played can be traced to its place.
-/

namespace Audiod.Cli

inductive Source (α : Type*)
  | stdin
  | wav (data : List α) (off : ℕ)
  deriving DecidableEq

/-- Where the thread is. `check` holds what is at hand, `write` what `Backend::play` has still
to write and how far the call has come in the file. -/
inductive Pc (α : Type*)
  | top
  | read
  | check (piece : List α)
  | play (piece : List α) (frames : ℕ)
  | write (rest : Bytes) (consumed : ℕ)
  | drain
  | crashed
  deriving DecidableEq

structure State (α : Type*) where
  source : Source α
  player : Player
  muted : Bool
  volume : F32
  codecMuted : Bool
  pc : Pc α
  deriving DecidableEq

/-- The thread after `Player::open`, which unmutes the codec. -/
def start {α : Type*} (source : Source α) (cfg : AudioCfg) (hwMute : Bool) (volume : F32) :
    State α where
  source := source
  player := Player.open cfg hwMute
  muted := false
  volume := volume
  codecMuted := false
  pc := .top

/-- What `Backend::set_mute` comes to. A codec whose answer did not arrive in time may have
been switched all the same, so a failure says how the codec was left. -/
inductive CodecAnswer
  | done
  | failed (muted : Bool)
  deriving DecidableEq

/-- The codec after it was told to be at `mute`. -/
def CodecAnswer.leaves (mute : Bool) : CodecAnswer → Bool
  | .done => mute
  | .failed muted => muted

/-- What the environment answers if it is asked; an error of a read is `none`. -/
structure Answer (α : Type*) where
  read : Option (List α)
  delay : ℤ
  room : ℕ
  codec : CodecAnswer

inductive Input (α : Type*)
  | thread (a : Answer α)
  | command (mute : Bool)
  | setVolume (percent : F32)

inductive Event (α : Type*)
  | codec (mute : Bool)
  | read (data : List α)
  | played (data : List α) (frames : ℕ)
  | wrote (n : ℕ)
  deriving DecidableEq

/-- The buffer of `play_stdin`. -/
def readMax : ℕ := 8192

section

variable {α : Type*} (byte : α → Byte)

/-- `Player::sync_muted`, of which both callers only log the error: `muted_applied` is set
after `set_mute(muted)?`. -/
def State.syncMuted (s : State α) (a : Answer α) : State α × List (Event α) :=
  if s.muted = s.player.mutedApplied then (s, [])
  else
    let s' := { s with player := { s.player with mutedApplied := s.muted } }
    if s.player.hwMute then
      match a.codec with
      | .done => ({ s' with codecMuted := s.muted }, [.codec s.muted])
      | .failed muted => ({ s with codecMuted := muted }, [])
    else (s', [])

/-- One turn of the loop in `Backend::play`: how much of `rest` the ring takes. -/
def writeTurn (rest : Bytes) (a : Answer α) : ℕ :=
  if shimServerFrames ≤ a.delay then 0
  else
    let headroom := ((shimServerFrames - a.delay) * 4).toNat
    let want := min rest.length headroom
    min want a.room

/-- A file is left where its frames end, stdin is read on. -/
def Source.after {α : Type*} : Source α → Pc α
  | .stdin => .top
  | .wav _ _ => .drain

def Source.advance {α : Type*} (source : Source α) (consumed : ℕ) : Source α :=
  match source with
  | .stdin => .stdin
  | .wav data off => .wav data (off + consumed)

def State.thread (s : State α) (a : Answer α) : Option (State α × List (Event α)) :=
  match s.pc with
  | .top =>
    let (s', e) := s.syncMuted a
    match s.source with
    | .stdin => some ({ s' with pc := .read }, e)
    | .wav data off =>
      if off < data.length then some ({ s' with pc := .check (data.drop off) }, e)
      else some ({ s with pc := .drain }, [])
  | .read =>
    match a.read with
    | none => some ({ s with pc := .drain }, [])
    | some data =>
      if readMax < data.length then none
      else if data.isEmpty then some ({ s with pc := .drain }, [])
      else some ({ s with pc := .check data }, [.read data])
  | .check piece =>
    if s.player.hwMute = false ∧ s.muted = true then some ({ s with pc := .top }, [])
    else
      let frameSize := s.player.clientFs
      -- the division by the frame size
      if frameSize = 0 then some ({ s with pc := .crashed }, [])
      else
        let frames := piece.length / frameSize
        if frames = 0 then some ({ s with pc := s.source.after }, [])
        else some ({ s with pc := .play (piece.take (frames * frameSize)) frames }, [])
  | .play piece frames =>
    match s.player.play (piece.map byte) frames (Mixer.gainOf s.volume) with
    | none => some ({ s with pc := .crashed }, [.played piece frames])
    | some (player, out) =>
      some ({ s with player := player, pc := .write out piece.length }, [.played piece frames])
  | .write rest consumed =>
    if rest.isEmpty then some ({ s with source := s.source.advance consumed, pc := .top }, [])
    else
      let n := writeTurn rest a
      some ({ s with pc := .write (rest.drop n) consumed }, [.wrote n])
  | .drain => some (s, [])
  | .crashed => some (s, [])

def step (s : State α) : Input α → Option (State α × List (Event α))
  | .thread a => s.thread byte a
  | .command mute => some ({ s with muted := mute }, [])
  | .setVolume percent => some ({ s with volume := percent }, [])

def machine : Machine (State α) (Input α) (Event α) := ⟨step byte⟩

/-- Everything handed to `Player::play`. -/
def handed {α : Type*} (tr : List (Event α)) : List α :=
  tr.flatMap fun e => match e with
    | .played data _ => data
    | _ => []

theorem handed_append {α : Type*} (a b : List (Event α)) :
    handed (a ++ b) = handed a ++ handed b := List.flatMap_append

/-- The whole frames of `size` cells at the front. -/
def wholeFrames {α : Type*} (size : ℕ) (cells : List α) : List α :=
  cells.take (cells.length / size * size)

/-! ### What a step can do -/

theorem State.syncMuted_eq (s : State α) (a : Answer α) :
    ∃ applied codec, (s.syncMuted a).1 = { s with
      player := { s.player with mutedApplied := applied }
      codecMuted := codec } := by
  unfold syncMuted
  split
  · exact ⟨s.player.mutedApplied, s.codecMuted, rfl⟩
  · dsimp only
    split
    · cases a.codec with
      | done => exact ⟨s.muted, s.muted, rfl⟩
      | failed muted => exact ⟨s.player.mutedApplied, muted, rfl⟩
    · exact ⟨s.muted, s.codecMuted, rfl⟩

/- Where the codec is what mutes, it is left as its answer says, if it is told at all. -/
theorem State.syncMuted_codec {s : State α} (hhw : s.player.hwMute = true) (a : Answer α) :
    (s.syncMuted a).1.codecMuted =
      if s.muted = s.player.mutedApplied then s.codecMuted else a.codec.leaves s.muted := by
  unfold syncMuted
  by_cases hsame : s.muted = s.player.mutedApplied
  · rw [if_pos hsame, if_pos hsame]
  · rw [if_neg hsame, if_neg hsame]
    dsimp only
    rw [if_pos hhw]
    cases a.codec <;> rfl

theorem State.syncMuted_handed (s : State α) (a : Answer α) : handed (s.syncMuted a).2 = [] := by
  unfold syncMuted
  split
  · rfl
  · dsimp only
    split
    · cases a.codec <;> rfl
    · rfl

/-- The thread does not pass over what is at hand because of the mute flag. -/
def State.Heard (s : State α) : Prop := ¬(s.player.hwMute = false ∧ s.muted = true)

/-- The steps of the thread, with what holds where each is taken. -/
inductive Turn (s : State α) (a : Answer α) : State α → List (Event α) → Prop
  | listen (hpc : s.pc = .top) (hsrc : s.source = .stdin) :
      Turn s a { (s.syncMuted a).1 with pc := .read } (s.syncMuted a).2
  | look (data : List α) (off : ℕ) (hpc : s.pc = .top) (hsrc : s.source = .wav data off)
      (hoff : off < data.length) :
      Turn s a { (s.syncMuted a).1 with pc := .check (data.drop off) } (s.syncMuted a).2
  | done (data : List α) (off : ℕ) (hpc : s.pc = .top) (hsrc : s.source = .wav data off)
      (hoff : data.length ≤ off) : Turn s a { s with pc := .drain } []
  | eof (hpc : s.pc = .read) (ha : a.read = none ∨ a.read = some []) :
      Turn s a { s with pc := .drain } []
  | got (data : List α) (hpc : s.pc = .read) (ha : a.read = some data) (hne : data ≠ [])
      (hmax : data.length ≤ readMax) : Turn s a { s with pc := .check data } [.read data]
  | skip (piece : List α) (hpc : s.pc = .check piece) (hmute : ¬s.Heard) :
      Turn s a { s with pc := .top } []
  | divide (piece : List α) (hpc : s.pc = .check piece) (hheard : s.Heard)
      (hfs : s.player.clientFs = 0) : Turn s a { s with pc := .crashed } []
  | short (piece : List α) (hpc : s.pc = .check piece) (hheard : s.Heard)
      (hfs : s.player.clientFs ≠ 0) (hframes : piece.length / s.player.clientFs = 0) :
      Turn s a { s with pc := s.source.after } []
  | cut (piece : List α) (hpc : s.pc = .check piece) (hheard : s.Heard)
      (hfs : s.player.clientFs ≠ 0) (hframes : piece.length / s.player.clientFs ≠ 0) :
      Turn s a { s with
        pc := .play (piece.take (piece.length / s.player.clientFs * s.player.clientFs))
          (piece.length / s.player.clientFs) } []
  | fault (piece : List α) (frames : ℕ) (hpc : s.pc = .play piece frames)
      (hplay : s.player.play (piece.map byte) frames (Mixer.gainOf s.volume) = none) :
      Turn s a { s with pc := .crashed } [.played piece frames]
  | convert (piece : List α) (frames : ℕ) (player : Player) (out : Bytes)
      (hpc : s.pc = .play piece frames)
      (hplay : s.player.play (piece.map byte) frames (Mixer.gainOf s.volume) = some (player, out)) :
      Turn s a { s with player := player, pc := .write out piece.length } [.played piece frames]
  | finish (consumed : ℕ) (hpc : s.pc = .write [] consumed) :
      Turn s a { s with source := s.source.advance consumed, pc := .top } []
  | write (rest : Bytes) (consumed : ℕ) (hpc : s.pc = .write rest consumed) (hne : rest ≠ []) :
      Turn s a { s with pc := .write (rest.drop (writeTurn rest a)) consumed }
        [.wrote (writeTurn rest a)]
  | stay (hpc : s.pc = .drain ∨ s.pc = .crashed) : Turn s a s []

section

variable {byte} {s s' : State α} {a : Answer α} {e : List (Event α)}

theorem turn_top (hpc : s.pc = .top) (h : s.thread byte a = some (s', e)) :
    Turn byte s a s' e := by
  simp only [State.thread, hpc] at h
  cases hsrc : s.source with
  | stdin =>
    simp only [hsrc, Option.some.injEq, Prod.mk.injEq] at h
    obtain ⟨rfl, rfl⟩ := h
    exact .listen hpc hsrc
  | wav data off =>
    simp only [hsrc] at h
    split at h <;> cases h
    · exact .look data off hpc hsrc ‹_›
    · rw [← hsrc]
      exact .done data off hpc hsrc (by omega)

theorem turn_read (hpc : s.pc = .read) (h : s.thread byte a = some (s', e)) :
    Turn byte s a s' e := by
  simp only [State.thread, hpc] at h
  cases ha : a.read with
  | none =>
    simp only [ha] at h
    cases h
    exact .eof hpc (.inl ha)
  | some data =>
    simp only [ha] at h
    split at h
    · cases h
    · split at h <;> cases h
      · rename_i hnil
        exact .eof hpc (.inr (by rw [ha, List.isEmpty_iff.mp hnil]))
      · rename_i hmax hne
        exact .got data hpc ha (fun h0 => hne (by rw [h0]; rfl)) (by omega)

theorem turn_check {piece : List α} (hpc : s.pc = .check piece)
    (h : s.thread byte a = some (s', e)) : Turn byte s a s' e := by
  simp only [State.thread, hpc] at h
  split at h
  · rename_i hmute
    cases h
    exact .skip piece hpc (not_not.mpr hmute)
  · rename_i hheard
    split at h
    · cases h
      exact .divide piece hpc hheard ‹_›
    · split at h <;> cases h
      · exact .short piece hpc hheard ‹_› ‹_›
      · exact .cut piece hpc hheard ‹_› ‹_›

variable (byte)

theorem thread_turn (h : s.thread byte a = some (s', e)) : Turn byte s a s' e := by
  cases hpc : s.pc with
  | top => exact turn_top hpc h
  | read => exact turn_read hpc h
  | check piece => exact turn_check hpc h
  | play piece frames =>
    simp only [State.thread, hpc] at h
    split at h <;> cases h
    · exact .fault piece frames hpc ‹_›
    · exact .convert piece frames _ _ hpc ‹_›
  | write rest consumed =>
    simp only [State.thread, hpc] at h
    split at h <;> cases h
    · rename_i hnil
      exact .finish consumed (by rw [hpc, List.isEmpty_iff.mp hnil])
    · rename_i hne
      exact .write rest consumed hpc (fun h0 => hne (by rw [h0]; rfl))
  | drain =>
    simp only [State.thread, hpc] at h
    cases h
    exact .stay (.inl hpc)
  | crashed =>
    simp only [State.thread, hpc] at h
    cases h
    exact .stay (.inr hpc)

end

theorem Turn.muted {s s' : State α} {a : Answer α} {e : List (Event α)} (h : Turn byte s a s' e) :
    s'.muted = s.muted := by
  cases h with
  | listen | look =>
    obtain ⟨applied, codec, heq⟩ := s.syncMuted_eq a
    rw [heq]
  | _ => rfl

theorem step_drain {s s' : State α} {i : Input α} {e : List (Event α)} (hpc : s.pc = .drain)
    (hs : step byte s i = some (s', e)) : s'.pc = .drain := by
  cases i with
  | thread a =>
    simp only [step, State.thread, hpc] at hs
    cases hs
    exact hpc
  | command mute | setVolume percent =>
    cases hs
    exact hpc

theorem cut_fits (size : ℕ) (data : List α) :
    data.length / size * size ≤ ((data.take (data.length / size * size)).map byte).length := by
  rw [List.length_map, List.length_take]
  exact le_min le_rfl (Nat.div_mul_le_self _ _)

end

end Audiod.Cli
