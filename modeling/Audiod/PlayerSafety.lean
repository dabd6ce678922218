import Audiod.WavPlayback

/-!
# What the players make of their input (`server/src/main.rs:694-747`)

The frame size is `2 * channels` cut to sixteen bits. Nothing checks the channels, neither of
a file nor of the options: zero channels, or a multiple of 32768, end in a division by zero,
and any number from 32768 on gives frames of another size.
-/

namespace Audiod.Cli

section

variable {α : Type*} (byte : α → Byte)

/-! ### No step is out of range -/

/-- What a crash or a slice comes to; `size` is the frame size. -/
def InRange (size : ℕ) : Pc α → Prop
  | .play piece frames => frames * size ≤ piece.length
  | .crashed => size = 0
  | _ => True

/-- The player of either source, whatever the commands. -/
structure Sound (ch : ℕ) (s : State α) : Prop where
  player : s.player.For ch
  inRange : InRange s.player.clientFs s.pc

theorem sound_start (source : Source α) (rate ch : ℕ) (hwMute : Bool) (volume : F32) :
    Sound ch (start source (.new rate ch formatS16Le) hwMute volume) :=
  ⟨Player.open_for rate ch hwMute, trivial⟩

theorem Sound.thread {ch : ℕ} {s s' : State α} {e : List (Event α)} {a : Answer α}
    (h : Sound ch s) (hs : s.thread byte a = some (s', e)) : Sound ch s' := by
  have hrange := h.inRange
  cases thread_turn byte hs with
  | listen hpc | look data off hpc =>
    obtain ⟨applied, codec, heq⟩ := s.syncMuted_eq a
    rw [heq]
    exact ⟨h.player.applied _, trivial⟩
  | done data off hpc | eof hpc | got data hpc | skip piece hpc | finish consumed hpc
  | write rest consumed hpc =>
    exact ⟨h.player, trivial⟩
  | divide piece hpc hheard hfs => exact ⟨h.player, hfs⟩
  | short piece hpc =>
    cases hsrc : s.source with
    | stdin | wav data off => exact ⟨h.player, trivial⟩
  | cut piece hpc =>
    refine ⟨h.player, ?_⟩
    rw [InRange, List.length_take, min_eq_left (Nat.div_mul_le_self _ _)]
  | fault piece frames hpc hplay =>
    rw [hpc] at hrange
    obtain ⟨buf, out, hsome, -⟩ := Player.play_spec h.player (Mixer.gainOf s.volume)
      (by rwa [List.length_map] : frames * s.player.clientFs ≤ (piece.map byte).length)
    rw [hplay] at hsome
    cases hsome
  | convert piece frames player out hpc hplay =>
    rw [hpc] at hrange
    obtain ⟨buf, out', hsome, -⟩ := Player.play_spec h.player (Mixer.gainOf s.volume)
      (by rwa [List.length_map] : frames * s.player.clientFs ≤ (piece.map byte).length)
    rw [hplay] at hsome
    obtain ⟨rfl, rfl⟩ := Prod.mk.inj (Option.some.inj hsome)
    exact ⟨h.player.outBuf buf, trivial⟩
  | stay => exact h

theorem Sound.step {ch : ℕ} {s s' : State α} {e : List (Event α)} {i : Input α}
    (h : Sound ch s) (hs : step byte s i = some (s', e)) : Sound ch s' := by
  cases i with
  | thread a => exact h.thread byte hs
  | command mute | setVolume percent =>
    cases hs
    exact ⟨h.player, h.inRange⟩

theorem sound_run {ch : ℕ} {s t : State α} {is : List (Input α)} {es : List (Event α)}
    (h : Sound ch s) (hrun : (machine byte).run s is = some (t, es)) : Sound ch t :=
  (machine byte).run_state_inv (fun _ _ _ _ h hs => h.step byte hs) h hrun

/-! ### A file is played to its end -/

theorem Along.enabled {ch : ℕ} {data : List α} {s : State α} {tr : List (Event α)}
    (h : Along ch data s tr) (i : Input α) : ∃ s' e, Cli.step byte s i = some (s', e) := by
  cases i with
  | command mute | setVolume percent => exact ⟨_, _, rfl⟩
  | thread a =>
    obtain ⟨-, off, hsource, -, hplaced⟩ := h
    cases hs : s.thread byte a with
    | some p => exact ⟨p.1, p.2, hs⟩
    | none =>
      unfold State.thread at hs
      cases hpc : s.pc with
      | read =>
        rw [hpc] at hplaced
        exact hplaced.elim
      | top =>
        simp only [hpc, hsource] at hs
        split at hs <;> cases hs
      | check piece =>
        simp only [hpc] at hs
        split at hs
        · cases hs
        · split at hs
          · cases hs
          · split at hs <;> cases hs
      | play piece frames =>
        simp only [hpc] at hs
        split at hs <;> cases hs
      | write rest consumed =>
        simp only [hpc] at hs
        split at hs <;> cases hs
      | drain | crashed =>
        simp only [hpc] at hs
        cases hs

theorem along_run_total {ch : ℕ} {data : List α} {s : State α} {tr : List (Event α)}
    (h : Along ch data s tr) (is : List (Input α)) :
    ∃ t es, (machine byte).run s is = some (t, es) :=
  (machine byte).run_total_of_inv (J := fun s => ∃ tr, Along ch data s tr)
    (fun _ _ _ _ ⟨tr, h⟩ hs => ⟨tr ++ _, h.step byte hs⟩)
    (fun _ i ⟨_, h⟩ => h.enabled byte i) ⟨tr, h⟩ is

/- Enough answers that accept data, and the file is through. -/
theorem along_run_drain {ch : ℕ} {data : List α} {s t : State α} {es : List (Event α)}
    {is : List (Input α)} (hfs : 2 * ch % 65536 ≠ 0) (h : Along ch data s [])
    (hmuted : s.muted = false) (hok : ∀ i ∈ is, i ≠ .command true)
    (hrun : (machine byte).run s is = some (t, es)) (hcount : s.rank < is.countP Input.accepts) :
    t.pc = .drain := by
  have hJ (s : State α) (i : Input α) (s' : State α) (e : List (Event α)) (hi : i ≠ .command true)
      (hs : (∃ tr, Along ch data s tr) ∧ s.muted = false) (hstep : step byte s i = some (s', e)) :
      (∃ tr, Along ch data s' tr) ∧ s'.muted = false := by
    obtain ⟨⟨tr, halong⟩, hmuted⟩ := hs
    refine ⟨⟨tr ++ e, halong.step byte hstep⟩, ?_⟩
    cases i with
    | thread a => exact (thread_turn byte hstep).muted.trans hmuted
    | command mute =>
      cases hstep
      cases mute with
      | true => exact absurd rfl hi
      | false => rfl
    | setVolume percent =>
      cases hstep
      exact hmuted
  have hrank (s : State α) (i : Input α) (s' : State α) (e : List (Event α))
      (_ : i ≠ .command true) (hs : (∃ tr, Along ch data s tr) ∧ s.muted = false)
      (hend : s.pc ≠ .drain) (hstep : step byte s i = some (s', e)) :
      s'.rank + i.accepts.toNat ≤ s.rank := by
    obtain ⟨⟨tr, halong⟩, hmuted⟩ := hs
    cases i with
    | thread a =>
      refine halong.rank_thread byte ?_ ?_ hend hstep
      · rintro ⟨-, hmute⟩
        rw [hmuted] at hmute
        cases hmute
      · rw [halong.player.clientFs]
        exact hfs
    | command mute | setVolume percent =>
      cases hstep
      exact le_rfl
  exact (machine byte).run_ends hJ (fun _ _ _ _ => step_drain byte) hrank ⟨⟨[], h⟩, hmuted⟩ hok
    hrun hcount

/-! ### What is safe -/

/-- `play_wav` on an accepted file: the right frame size, no crash in any run, and the loop
is through with all whole frames after enough answers that accept data. -/
structure SafeWav (w : Wav.WavFile α) : Prop where
  frameSize : w.cfg.frameSize = 2 * w.cfg.channels
  nonzero : w.cfg.frameSize ≠ 0
  runs : ∀ hwMute volume is, ∃ s es,
    (machine byte).run (start (.wav w.data 0) w.cfg hwMute volume) is = some (s, es) ∧
      s.pc ≠ .crashed
  ends : ∀ hwMute volume is s es,
    (machine byte).run (start (.wav w.data 0) w.cfg hwMute volume) is = some (s, es) →
    (∀ i ∈ is, i ≠ .command true) →
    8 * (w.data.length / w.cfg.frameSize) + 3 ≤ is.countP Input.accepts →
      s.pc = .drain ∧ handed es = wholeFrames w.cfg.frameSize w.data

/-- `play_stdin` with these options. -/
structure SafeStdin (rate ch : ℕ) : Prop where
  frameSize : (AudioCfg.new rate ch formatS16Le).frameSize = 2 * ch
  nonzero : (AudioCfg.new rate ch formatS16Le).frameSize ≠ 0
  runs : ∀ hwMute volume is s es,
    (machine byte).run (start .stdin (.new rate ch formatS16Le) hwMute volume) is = some (s, es) →
      s.pc ≠ .crashed

theorem frameSize_eq_iff (rate ch : ℕ) :
    (AudioCfg.new rate ch formatS16Le).frameSize = 2 * ch ∧
      (AudioCfg.new rate ch formatS16Le).frameSize ≠ 0 ↔ 1 ≤ ch ∧ ch ≤ 32767 := by
  have hsize : (AudioCfg.new rate ch formatS16Le).frameSize = 2 * ch % 65536 := rfl
  omega

/- Where the frame size is right nothing crashes. -/
theorem safeStdin_iff (rate ch : ℕ) : SafeStdin byte rate ch ↔ 1 ≤ ch ∧ ch ≤ 32767 := by
  rw [← frameSize_eq_iff rate ch]
  refine ⟨fun h => ⟨h.frameSize, h.nonzero⟩, fun ⟨hsize, hnonzero⟩ => ⟨hsize, hnonzero, ?_⟩⟩
  intro hwMute volume is s es hrun hpc
  have hsound := sound_run byte (sound_start .stdin rate ch hwMute volume) hrun
  have hrange := hsound.inRange
  rw [hpc] at hrange
  exact hnonzero (hsound.player.clientFs.symm.trans hrange)

theorem safeWav_iff {w : Wav.WavFile α} {rate ch : ℕ} (hcfg : w.cfg = .new rate ch formatS16Le) :
    SafeWav byte w ↔ 1 ≤ ch ∧ ch ≤ 32767 := by
  obtain ⟨cfg, data⟩ := w
  obtain rfl : cfg = .new rate ch formatS16Le := hcfg
  rw [← frameSize_eq_iff rate ch]
  refine ⟨fun h => ⟨h.frameSize, h.nonzero⟩, fun ⟨hsize, hnonzero⟩ => ⟨hsize, hnonzero, ?_, ?_⟩⟩
  · intro hwMute volume is
    have halong := along_start rate ch data hwMute volume
    obtain ⟨s, es, hrun⟩ := along_run_total byte halong is
    have hsound := sound_run byte (sound_start (.wav data 0) rate ch hwMute volume) hrun
    refine ⟨s, es, hrun, fun hpc => ?_⟩
    have hrange := hsound.inRange
    rw [hpc] at hrange
    exact hnonzero (hsound.player.clientFs.symm.trans hrange)
  · intro hwMute volume is s es hrun hok hcount
    have halong := along_start rate ch data hwMute volume
    have hrank : (start (.wav data 0) (.new rate ch formatS16Le) hwMute volume : State α).rank =
        8 * (data.length / (AudioCfg.new rate ch formatS16Le).frameSize) + 2 := rfl
    dsimp only at hcount
    have hpc := along_run_drain byte hnonzero halong rfl hok hrun (by rw [hrank]; omega)
    have hend : Along ch data s ([] ++ es) :=
      (machine byte).run_inv (fun _ _ _ _ _ h hs => h.step byte hs) halong hrun
    obtain ⟨off, -, -, hplaced⟩ := hend.placed
    rw [hpc, hend.player.clientFs] at hplaced
    exact ⟨hpc, hplaced.2⟩

/-- The players take every input with one to 32767 channels, and no other. -/
theorem players_safe_iff :
    (∀ (file : List α) (w : Wav.WavFile α), Wav.loadWav byte file = .ok w →
      (SafeWav byte w ↔ 1 ≤ w.cfg.channels ∧ w.cfg.channels ≤ 32767)) ∧
    ∀ rate ch, rate < 2 ^ 32 → ch < 2 ^ 32 →
      (SafeStdin byte rate ch ↔ 1 ≤ ch ∧ ch ≤ 32767) := by
  refine ⟨fun file w hload => ?_, fun rate ch _ _ => safeStdin_iff byte rate ch⟩
  obtain ⟨-, -, -, -, -, rfl⟩ := (Wav.loadWav_ok_iff byte).mp hload
  exact safeWav_iff byte rfl

end

theorem players_safe_stereo :
    SafeWav id (⟨.new 48000 2 formatS16Le, Wav.dataBody.payload⟩ : Wav.WavFile Byte) ∧
      SafeStdin (id : Byte → Byte) 44100 2 := by
  have hload : Wav.loadWav id (Wav.wavBytes 40 [Wav.fmtBody, Wav.dataBody]) =
      .ok ⟨.new 48000 2 formatS16Le, Wav.dataBody.payload⟩ := by decide +kernel
  obtain ⟨hwav, hstdin⟩ := players_safe_iff (id : Byte → Byte)
  exact ⟨(hwav _ _ hload).mpr ⟨by decide, by decide⟩,
    (hstdin 44100 2 (by decide) (by decide)).mpr ⟨by decide, by decide⟩⟩

/-- The 'fmt ' chunk of a file with no channels. -/
def noChannels : Riff.Body where
  id := Wav.fmtId
  payload := [1, 0, 0, 0, 128, 187, 0, 0, 0, 0, 0, 0, 0, 0, 16, 0]
  id_length := Wav.fmtId_length
  size_lt := by decide

/- The file is accepted and divides by zero. -/
theorem no_channels_crashes :
    ∃ w, Wav.loadWav id (Wav.wavBytes 40 [noChannels, Wav.dataBody]) = .ok w ∧
      (∃ s es, (machine id).run (start (.wav w.data 0) w.cfg true (.fin 100))
        [.thread ⟨none, 0, 16384, .done⟩, .thread ⟨none, 0, 16384, .done⟩] = some (s, es) ∧
          s.pc = .crashed) ∧
      ¬SafeWav id w := by
  let w : Wav.WavFile Byte := ⟨.new 48000 0 formatS16Le, Wav.dataBody.payload⟩
  have hrun : (machine id).run (start (.wav w.data 0) w.cfg true (.fin 100))
      [.thread ⟨none, 0, 16384, .done⟩, .thread ⟨none, 0, 16384, .done⟩] =
        some ({ start (.wav w.data 0) w.cfg true (.fin 100) with pc := .crashed }, []) := by
    decide +kernel
  refine ⟨w, by decide +kernel, ⟨_, _, hrun, rfl⟩, fun h => ?_⟩
  obtain ⟨s, es, hsafe, hpc⟩ :=
    h.runs true (.fin 100) [.thread ⟨none, 0, 16384, .done⟩, .thread ⟨none, 0, 16384, .done⟩]
  rw [hrun] at hsafe
  cases hsafe
  exact hpc rfl

end Audiod.Cli
