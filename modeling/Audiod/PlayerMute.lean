import Audiod.WavPlayback

/-!
# Mute commands during `play_wav` (`server/src/main.rs:724-747`, `server/src/player.rs:75-87`)

The mute flag is looked at between calls of `Player::play`, and one call writes all that is
left of the file. A command is heard before the last frame is written only if it comes before
the thread looks for the first time, and then only if the codec does what it is told there.
-/

namespace Audiod.Cli

section

variable {α : Type*} (byte : α → Byte)

/-- Bytes the backend has still to get of the file, four a frame. -/
def State.unwritten (s : State α) : ℕ :=
  match s.source, s.pc with
  | .stdin, _ => 0
  | .wav data off, .write rest consumed =>
    rest.length + 4 * ((data.length - (off + consumed)) / s.player.clientFs)
  | .wav data off, _ => 4 * ((data.length - off) / s.player.clientFs)

/-- The codec is what mutes. Where there is something to write at the top of the loop it is
as `Player::open` left it: the flag has not been looked at. -/
structure Synced (s : State α) : Prop where
  hwMute : s.player.hwMute = true
  fresh : s.pc = .top →
    s.unwritten = 0 ∨ s.codecMuted = false ∧ s.player.mutedApplied = false

theorem Synced.heard {s : State α} (h : Synced s) : s.Heard := by
  rintro ⟨hhw, -⟩
  rw [h.hwMute] at hhw
  cases hhw

theorem Synced.of_zero {s : State α} (hhw : s.player.hwMute = true) (h : s.unwritten = 0) :
    Synced s := ⟨hhw, fun _ => .inl h⟩

theorem Synced.of_ne {s : State α} (hhw : s.player.hwMute = true) (h : s.pc ≠ .top) : Synced s :=
  ⟨hhw, fun htop => absurd htop h⟩

/-- The codec after the first look. -/
def State.lookedAt (s : State α) (a : Answer α) : Bool := s.muted && a.codec.leaves true

theorem Synced.looks {s : State α} (h : Synced s) (htop : s.pc = .top) (a : Answer α) :
    s.unwritten = 0 ∨ (s.syncMuted a).1.codecMuted = s.lookedAt a := by
  refine (h.fresh htop).imp_right fun ⟨hcodec, happlied⟩ => ?_
  rw [State.syncMuted_codec h.hwMute, hcodec, happlied, State.lookedAt]
  cases s.muted <;> rfl

/-- What a step of the thread does to the codec and to what is unwritten. -/
structure Follows (s s' : State α) (a : Answer α) : Prop where
  synced : Synced s'
  stays : s.unwritten = 0 → s'.unwritten = 0
  atTop : s.pc = .top → s'.unwritten = s.unwritten ∧
    (s'.pc ≠ .top ∧ s'.codecMuted = s.lookedAt a ∨ s.unwritten = 0)
  inCall : s.pc ≠ .top → s'.codecMuted = s.codecMuted ∧ (s'.pc = .top → s'.unwritten = 0)

theorem Follows.of_zero {s s' : State α} {a : Answer α} (hhw : s'.player.hwMute = true)
    (htop : s.pc ≠ .top) (hcodec : s'.codecMuted = s.codecMuted) (hzero : s'.unwritten = 0) :
    Follows s s' a :=
  ⟨.of_zero hhw hzero, fun _ => hzero, fun h => absurd h htop, fun _ => ⟨hcodec, fun _ => hzero⟩⟩

theorem Follows.of_inCall {s s' : State α} {a : Answer α} (hhw : s'.player.hwMute = true)
    (htop : s.pc ≠ .top) (htop' : s'.pc ≠ .top) (hcodec : s'.codecMuted = s.codecMuted)
    (hstays : s.unwritten = 0 → s'.unwritten = 0) : Follows s s' a :=
  ⟨.of_ne hhw htop', hstays, fun h => absurd h htop, fun _ => ⟨hcodec, fun h => absurd h htop'⟩⟩

section

variable {byte} {ch : ℕ} {data : List α} {s s' : State α} {tr e : List (Event α)} {a : Answer α}

theorem Synced.look (h : Synced s) {off : ℕ} (hpc : s.pc = .top)
    (hsource : s.source = .wav data off) :
    Follows s { (s.syncMuted a).1 with pc := .check (data.drop off) } a := by
  have hlooks := h.looks hpc a
  obtain ⟨applied, codec, heq⟩ := s.syncMuted_eq a
  rw [heq] at hlooks ⊢
  have hsame : ({ s with
      player := { s.player with mutedApplied := applied }
      codecMuted := codec
      pc := .check (data.drop off) } : State α).unwritten = s.unwritten := by
    simp only [State.unwritten, hsource, hpc]
  exact ⟨.of_ne h.hwMute (by simp), fun h0 => hsame.trans h0,
    fun _ => ⟨hsame, hlooks.symm.imp_left fun hcodec => ⟨by simp, hcodec⟩⟩,
    fun htop => absurd hpc htop⟩

theorem Synced.done (h : Synced s) {off : ℕ} (hpc : s.pc = .top)
    (hsource : s.source = .wav data off) (hle : data.length ≤ off) :
    Follows s { s with pc := .drain } a := by
  have hzero : s.unwritten = 0 := by
    simp only [State.unwritten, hsource, hpc, Nat.sub_eq_zero_of_le hle, Nat.zero_div,
      Nat.mul_zero]
  have hzero' : ({ s with pc := .drain } : State α).unwritten = 0 := by
    simp only [State.unwritten, hsource, Nat.sub_eq_zero_of_le hle, Nat.zero_div, Nat.mul_zero]
  exact ⟨.of_zero h.hwMute hzero', fun _ => hzero',
    fun _ => ⟨hzero'.trans hzero.symm, .inr hzero⟩, fun htop => absurd hpc htop⟩

variable (byte)

theorem Synced.thread (h : Synced s) (halong : Along ch data s tr)
    (hs : s.thread byte a = some (s', e)) : Follows s s' a := by
  have hnext := halong.thread byte hs
  have hwas := halong
  obtain ⟨hplayer, off, hsource, hoff, hplaced⟩ := halong
  cases thread_turn byte hs with
  | listen hpc hsrc =>
    rw [hsource] at hsrc
    cases hsrc
  | look data' off' hpc hsrc hlt => exact h.look hpc hsrc
  | done data' off' hpc hsrc hle => exact h.done hpc hsrc hle
  | eof hpc | got data' hpc =>
    rw [hpc] at hplaced
    exact hplaced.elim
  | skip piece hpc hmute => exact absurd h.heard hmute
  | divide piece hpc hheard hfs =>
    refine .of_zero h.hwMute (by simp [hpc]) rfl ?_
    simp only [State.unwritten, hsource, hfs, Nat.div_zero, Nat.mul_zero]
  | short piece hpc hheard hfs hframes =>
    rw [hpc] at hplaced
    obtain ⟨rfl, -⟩ := hplaced
    rw [List.length_drop] at hframes
    refine .of_zero h.hwMute (by simp [hpc]) rfl ?_
    simp only [State.unwritten, hsource, Source.after, hframes, Nat.mul_zero]
  | cut piece hpc =>
    refine .of_inCall h.hwMute (by simp [hpc]) (by simp) rfl ?_
    simp only [State.unwritten, hsource, hpc]
    exact id
  | fault piece frames hpc =>
    obtain ⟨off', hsource', -, hcrashed⟩ := hnext.placed
    refine .of_zero h.hwMute (by simp [hpc]) rfl ?_
    simp only [State.unwritten, hsource, show s.player.clientFs = 0 from hcrashed, Nat.div_zero,
      Nat.mul_zero]
  | convert piece frames player out hpc hplay =>
    obtain ⟨hfs, hsrc, rfl, hframes, rfl, -, buf, out', hsome, -⟩ := hwas.played byte hpc
    rw [hsome] at hplay
    cases hplay
    refine .of_inCall h.hwMute (by simp [hpc]) (by simp) rfl ?_
    simp only [State.unwritten, hsrc, hpc, Nat.sub_zero]
    omega
  | finish consumed hpc =>
    rw [hpc] at hplaced
    obtain ⟨-, rfl, rfl, -⟩ := hplaced
    refine .of_zero h.hwMute (by simp [hpc]) rfl ?_
    simp only [State.unwritten, hsource, Source.advance, Nat.zero_add, left_div_eq_zero,
      Nat.mul_zero]
  | write rest consumed hpc hne =>
    refine .of_inCall h.hwMute (by simp [hpc]) (by simp) rfl ?_
    simp only [State.unwritten, hsource, hpc, List.length_drop]
    omega
  | stay hpc =>
    have htop : s.pc ≠ .top := by
      rcases hpc with hpc | hpc
      all_goals simp [hpc]
    exact .of_inCall h.hwMute htop htop rfl id

end

/-! ### Runs after a command -/

/-- The codec as it was before the command, as long as the call lasts. -/
def Unheard (codec : Bool) (s : State α) : Prop :=
  (s.pc ≠ .top ∧ s.codecMuted = codec) ∨ s.unwritten = 0

theorem Unheard.follows {codec : Bool} {s s' : State α} {a : Answer α} (h : Unheard codec s)
    (hf : Follows s s' a) : Unheard codec s' := by
  rcases h with ⟨htop, hcodec⟩ | hzero
  · obtain ⟨hsame, hback⟩ := hf.inCall htop
    by_cases htop' : s'.pc = .top
    · exact .inr (hback htop')
    · exact .inl ⟨htop', hsame.trans hcodec⟩
  · exact .inr (hf.stays hzero)

/-- The answer to the first step of the thread. -/
def firstAnswer (is : List (Input α)) : Option (Answer α) :=
  is.findSome? fun
    | .thread a => some a
    | _ => none

/-- The codec is at `mute` after the thread has told it so in its first step. -/
def Obeyed (mute : Bool) (is : List (Input α)) : Prop :=
  ∃ a, firstAnswer is = some a ∧ a.codec.leaves mute = mute

/-- Before the first look, or after it with the codec as its answer left it. -/
def Looking (mute : Bool) (s : State α) (js : List (Input α)) : Prop :=
  (s.muted = mute ∧ s.pc = .top ∧ firstAnswer js = none) ∨
    ∃ a, firstAnswer js = some a ∧ Unheard (mute && a.codec.leaves true) s

theorem firstAnswer_append (js ks : List (Input α)) :
    firstAnswer (js ++ ks) = (firstAnswer js).or (firstAnswer ks) := List.findSome?_append

theorem synced_step {ch : ℕ} {data : List α} {s s' : State α} {tr e : List (Event α)}
    {i : Input α} (h : Synced s ∧ Along ch data s tr) (hs : step byte s i = some (s', e)) :
    Synced s' ∧ Along ch data s' (tr ++ e) := by
  refine ⟨?_, h.2.step byte hs⟩
  cases i with
  | thread a => exact (h.1.thread byte h.2 hs).synced
  | command mute | setVolume percent =>
    cases hs
    exact ⟨h.1.hwMute, h.1.fresh⟩

theorem synced_run {ch : ℕ} {data : List α} {s t : State α} {tr es : List (Event α)}
    {is : List (Input α)} (h : Synced s ∧ Along ch data s tr)
    (hrun : (machine byte).run s is = some (t, es)) : Synced t ∧ Along ch data t (tr ++ es) :=
  (machine byte).run_inv (I := fun s tr => Synced s ∧ Along ch data s tr)
    (fun _ _ _ _ _ h hs => synced_step byte h hs) h hrun

theorem Looking.step {ch : ℕ} {data : List α} {mute : Bool} {s s' : State α}
    {js : List (Input α)} {tr e : List (Event α)} {i : Input α}
    (hsync : Synced s ∧ Along ch data s tr) (h : Looking mute s js)
    (hi : ∀ mute', i ≠ .command mute') (hs : step byte s i = some (s', e)) :
    Looking mute s' (js ++ [i]) := by
  unfold Looking
  rw [firstAnswer_append]
  cases i with
  | command mute' => exact absurd rfl (hi mute')
  | setVolume percent =>
    cases hs
    have hnone : firstAnswer [(.setVolume percent : Input α)] = none := rfl
    rw [hnone, Option.or_none]
    exact h
  | thread a =>
    have hf := hsync.1.thread byte hsync.2 hs
    rcases h with ⟨hmute, htop, hnone⟩ | ⟨a₀, hsome, hun⟩
    · refine .inr ⟨a, by rw [hnone]; rfl, ?_⟩
      obtain ⟨hsame, ⟨htop', hcodec⟩ | hzero⟩ := hf.atTop htop
      · exact .inl ⟨htop', by rw [hcodec, State.lookedAt, hmute]⟩
      · exact .inr (hsame.trans hzero)
    · exact .inr ⟨a₀, by rw [hsome]; rfl, hun.follows hf⟩

/- What the steps of the thread keep is kept until the next command. -/
theorem quiet_run {ch : ℕ} {data : List α} {K : State α → List (Input α) → Prop}
    (hstep : ∀ s js tr i s' e, Synced s ∧ Along ch data s tr → K s js →
      (∀ mute, i ≠ .command mute) → step byte s i = some (s', e) → K s' (js ++ [i]))
    {s t : State α} {tr es : List (Event α)} {js : List (Input α)}
    (hs : Synced s ∧ Along ch data s tr) (hK : K s []) (hjs : ∀ i ∈ js, ∀ mute, i ≠ .command mute)
    (hrun : (machine byte).run s js = some (t, es)) : K t js := by
  have hinv := (machine byte).run_inv_inputs
    (I := fun s js tr => (Synced s ∧ Along ch data s tr) ∧
      ((∀ i ∈ js, ∀ mute, i ≠ Input.command mute) → K s js))
    (fun s js tr i s' e h hs => ⟨synced_step byte h.1 hs, fun hall =>
      hstep s js tr i s' e h.1 (h.2 fun i hi => hall i (List.mem_append_left _ hi))
        (hall i (List.mem_append_right _ (List.mem_singleton_self i))) hs⟩)
    ⟨hs, fun _ => hK⟩ hrun
  exact hinv.2 hjs

theorem follows_run {ch : ℕ} {data : List α} {K : State α → Prop}
    (hthread : ∀ s s' a, K s → Follows s s' a → K s')
    (hvolume : ∀ s percent, K s → K { s with volume := percent }) {s t : State α}
    {tr es : List (Event α)} {js : List (Input α)} (hs : Synced s ∧ Along ch data s tr) (hK : K s)
    (hjs : ∀ i ∈ js, ∀ mute, i ≠ .command mute) (hrun : (machine byte).run s js = some (t, es)) :
    K t :=
  quiet_run byte (K := fun s _ => K s) (fun s _ tr i s' e hsync h hi hs => by
    cases i with
    | command mute => exact absurd rfl (hi mute)
    | setVolume percent =>
      cases hs
      exact hvolume s percent h
    | thread a => exact hthread s s' a h (hsync.1.thread byte hsync.2 hs)) hs hK hjs hrun

/- From any state of the playback. -/
theorem heard_iff {ch : ℕ} {data : List α} {s t u : State α} {tr es e : List (Event α)}
    {js : List (Input α)} {mute : Bool} {a : Answer α} (hsync : Synced s ∧ Along ch data s tr)
    (hjs : ∀ i ∈ js, ∀ mute', i ≠ .command mute')
    (hrun : (machine byte).run s (.command mute :: js) = some (t, es))
    (hlast : step byte t (.thread a) = some (u, e)) (hmore : 0 < t.unwritten)
    (hnone : u.unwritten = 0) :
    t.codecMuted = mute ↔ s.pc = .top ∧ Obeyed mute js ∨ s.codecMuted = mute := by
  obtain ⟨mid, e₁, e₂, hcommand, hquiet, -⟩ := (Machine.run_cons _).mp hrun
  replace hcommand : step byte s (.command mute) = some (mid, e₁) := hcommand
  have hsync' := synced_step byte hsync hcommand
  obtain ⟨rfl, rfl⟩ := Prod.mk.inj (Option.some.inj hcommand)
  by_cases htop : s.pc = .top
  · rcases hsync.1.fresh htop with hzero | ⟨hcodec, -⟩
    · have hend : t.unwritten = 0 := follows_run byte (K := fun s => s.unwritten = 0)
        (fun _ _ _ h hf => hf.stays h) (fun _ _ h => h) hsync' hzero hjs hquiet
      omega
    · have hlook : Looking mute t js := quiet_run byte
        (fun _ _ _ _ _ _ hsync h hi hs => h.step byte hsync hi hs) hsync' (.inl ⟨rfl, htop, rfl⟩)
        hjs hquiet
      rw [hcodec]
      rcases hlook with ⟨-, htop', -⟩ | ⟨a₀, hfirst, ⟨-, hleft⟩ | hzero⟩
      · -- the last frame is not written at the top
        obtain ⟨hsynced, halong⟩ := synced_run byte hsync' hquiet
        have hsame := ((hsynced.thread byte halong hlast).atTop htop').1
        omega
      · rw [hleft]
        have hobeyed : Obeyed mute js ↔ a₀.codec.leaves mute = mute := by
          simp [Obeyed, hfirst]
        rw [hobeyed]
        cases mute <;> simp [htop]
      · omega
  · -- inside the call the codec stays as it was
    have hend : Unheard s.codecMuted t := follows_run byte (fun _ _ _ h hf => h.follows hf)
      (fun _ _ h => h) hsync' (.inl ⟨htop, rfl⟩) hjs hquiet
    rcases hend with ⟨-, hsame⟩ | hzero
    · rw [hsame]
      simp [htop]
    · omega

/-- For a command that no other follows, however much of the file is unwritten: the codec has
followed it before the last frame is written exactly if the thread is at the top of its loop
when the command comes and the codec does there what it is told, or the codec was so already. -/
theorem command_heard_iff {file : List α} {w : Wav.WavFile α} {volume : F32}
    {is js : List (Input α)} {s t u : State α} {es es' e : List (Event α)} {mute : Bool}
    {a : Answer α} (hload : Wav.loadWav byte file = .ok w)
    (hrun : (machine byte).run (start (.wav w.data 0) w.cfg true volume) is = some (s, es))
    (hjs : ∀ i ∈ js, ∀ mute', i ≠ .command mute')
    (hrun' : (machine byte).run s (.command mute :: js) = some (t, es'))
    (hlast : step byte t (.thread a) = some (u, e)) (hmore : 0 < t.unwritten)
    (hnone : u.unwritten = 0) :
    t.codecMuted = mute ↔ s.pc = .top ∧ Obeyed mute js ∨ s.codecMuted = mute := by
  obtain ⟨-, -, -, -, -, rfl⟩ := (Wav.loadWav_ok_iff byte).mp hload
  have hstart := along_start (Riff.field byte file 24 4) (Riff.field byte file 22 2)
    ((file.drop 44).take (Riff.field byte file 40 4)) true volume
  exact heard_iff byte (synced_run byte ⟨⟨rfl, fun _ => .inr ⟨rfl, rfl⟩⟩, hstart⟩ hrun) hjs hrun'
    hlast hmore hnone

end

/-! ### A stereo file on a ring that takes what it is given -/

/-- A file at full volume, wherever the thread is. -/
def fileAt (data : Bytes) (mute : Bool) (pc : Pc Byte) : State Byte :=
  { start (.wav data 0) (.new 48000 2 formatS16Le) true (.fin 100) with muted := mute, pc := pc }

def taken : Answer Byte := ⟨none, 0, 16384, .done⟩

theorem run_step {s mid t : State Byte} {i : Input Byte} {is : List (Input Byte)}
    {e es : List (Event Byte)} (h : step id s i = some (mid, e))
    (hrun : (machine id).run mid is = some (t, es)) :
    (machine id).run s (i :: is) = some (t, e ++ es) :=
  (Machine.run_cons _).mpr ⟨mid, e, es, h, hrun, rfl⟩

theorem fileAt_looks {data : Bytes} (hpos : 0 < data.length) :
    step id (fileAt data false .top) (.thread taken) =
      some (fileAt data false (.check data), []) := by
  have hlook : step id (fileAt data false .top) (.thread taken) =
      if 0 < data.length then some (fileAt data false (.check (data.drop 0)), [])
      else some (fileAt data false .drain, []) := rfl
  rw [hlook, if_pos hpos, List.drop_zero]

theorem fileAt_cuts {data : Bytes} {n : ℕ} (hlen : data.length = n * 4) (hpos : 0 < n) :
    step id (fileAt data false (.check data)) (.thread taken) =
      some (fileAt data false (.play data n), []) := by
  have hcut : step id (fileAt data false (.check data)) (.thread taken) =
      if data.length / 4 = 0 then some (fileAt data false .drain, [])
      else
        some (fileAt data false (.play (data.take (data.length / 4 * 4)) (data.length / 4)), []) :=
    rfl
  have hframes : data.length / 4 = n := by omega
  rw [hcut, hframes, if_neg (by omega), List.take_of_length_le hlen.le]

theorem fileAt_plays {data : Bytes} {n : ℕ} (mute : Bool) (hlen : data.length = n * 4) :
    step id (fileAt data mute (.play data n)) (.thread taken) =
      some (fileAt data mute (.write data data.length), [.played data n]) := by
  have hgain : GainArith.nearOne (Mixer.gainOf (.fin 100)) = true := by decide +kernel
  let s : State Byte := start (.wav data 0) (.new 48000 2 formatS16Le) true (.fin 100)
  have hplay : s.player.play (data.map id) n (Mixer.gainOf s.volume) = some (s.player, data) := by
    rw [List.map_id]
    exact Player.play_stereo (Player.open_for 48000 2 true) hlen hgain
  dsimp only [fileAt, step, State.thread]
  rw [hplay]

theorem fileAt_writes (data : Bytes) (mute : Bool) (rest : Bytes) (consumed : ℕ)
    (hne : rest ≠ []) : step id (fileAt data mute (.write rest consumed)) (.thread taken) =
      some (fileAt data mute (.write (rest.drop (min rest.length 16384)) consumed),
        [.wrote (min rest.length 16384)]) := by
  have hturn : writeTurn rest taken = min rest.length 16384 := by
    rw [writeTurn, if_neg (by decide)]
    exact Nat.min_eq_left (min_le_right _ _)
  have hstep : step id (fileAt data mute (.write rest consumed)) (.thread taken) =
      some (fileAt data mute (.write (rest.drop (writeTurn rest taken)) consumed),
        [.wrote (writeTurn rest taken)]) := by
    obtain ⟨x, xs, rfl⟩ := List.exists_cons_of_ne_nil hne
    rfl
  rw [hstep, hturn]

theorem fileAt_unwritten_play (data : Bytes) (mute : Bool) (n : ℕ) :
    (fileAt data mute (.play data n)).unwritten = 4 * (data.length / 4) := rfl

theorem fileAt_unwritten_write (data : Bytes) (mute : Bool) (rest : Bytes) :
    (fileAt data mute (.write rest data.length)).unwritten = rest.length := by
  have h : (fileAt data mute (.write rest data.length)).unwritten =
    rest.length + 4 * ((data.length - (0 + data.length)) / 4) := rfl
  omega

theorem fileAt_called {data : Bytes} {n : ℕ} (hlen : data.length = n * 4) (hpos : 0 < n) :
    (machine id).run (fileAt data false .top) [.thread taken, .thread taken] =
      some (fileAt data false (.play data n), []) :=
  run_step (fileAt_looks (by omega)) (run_step (fileAt_cuts hlen hpos) (Machine.run_nil _ _))

theorem fileAt_written {data : Bytes} (mute : Bool) (hlen : data.length = 8193 * 4) :
    ∃ rest es, rest.length = 4 ∧
      (machine id).run (fileAt data false (.play data 8193))
          [.command mute, .thread taken, .thread taken, .thread taken] =
        some (fileAt data mute (.write rest data.length), es) := by
  have hne : data ≠ [] := List.ne_nil_of_length_pos (by omega)
  have hmin : min data.length 16384 = 16384 := by omega
  have hmin' : min (data.drop 16384).length 16384 = 16384 := by
    rw [List.length_drop]
    omega
  have hfirst := fileAt_writes data mute data data.length hne
  have hsecond := fileAt_writes data mute (data.drop 16384) data.length
    (List.ne_nil_of_length_pos (by rw [List.length_drop]; omega))
  rw [hmin] at hfirst
  rw [hmin'] at hsecond
  have hrest : ((data.drop 16384).drop 16384).length = 4 := by
    rw [List.length_drop, List.length_drop]
    omega
  have hcommand : step id (fileAt data false (.play data 8193)) (.command mute) =
      some (fileAt data mute (.play data 8193), []) := rfl
  exact ⟨_, _, hrest, run_step hcommand <| run_step (fileAt_plays mute hlen) <| run_step hfirst <|
    run_step hsecond (Machine.run_nil _ _)⟩

/-- 8193 frames of silence: one more than twice the target. -/
def longBody : Riff.Body where
  id := Wav.dataId
  payload := List.replicate 32772 0
  id_length := Wav.dataId_length
  size_lt := by
    rw [List.length_replicate]
    decide

def longFile : Bytes := Wav.wavBytes 32808 [Wav.fmtBody, longBody]

theorem longFile_loads :
    Wav.loadWav id longFile = .ok ⟨.new 48000 2 formatS16Le, longBody.payload⟩ := by
  obtain ⟨hwave, hchunks⟩ := Wav.chunks_wavBytes 32808 [Wav.fmtBody, longBody]
  exact Wav.loadWav_canonical id hwave hchunks ⟨rfl, by decide, by decide, by decide⟩ rfl

theorem long_length : longBody.payload.length = 8193 * 4 := List.length_replicate ..

/-- A command between the first look at the flag and the write, and the last frame of the
file: the runs of the theorem above, for this file. -/
structure LongRun (mute : Bool) (s t u : State Byte) : Prop where
  called : ∃ es, (machine id).run (start (.wav longBody.payload 0) (.new 48000 2 formatS16Le) true
    (.fin 100)) [.thread taken, .thread taken] = some (s, es)
  left : 4 * (2 * shimServerFrames) < (s.unwritten : ℤ)
  written : ∃ es, (machine id).run s
    [.command mute, .thread taken, .thread taken, .thread taken] = some (t, es)
  last : ∃ e, step id t (.thread taken) = some (u, e)
  more : 0 < t.unwritten
  none : u.unwritten = 0

theorem longRun (mute : Bool) :
    ∃ s t u, LongRun mute s t u ∧ s.codecMuted = false ∧ t.codecMuted = false := by
  obtain ⟨rest, es, hrest, hwritten⟩ := fileAt_written mute long_length
  have hne : rest ≠ [] := List.ne_nil_of_length_pos (by omega)
  have hlast := fileAt_writes longBody.payload mute rest longBody.payload.length hne
  have hdrop : rest.drop (min rest.length 16384) = [] := List.drop_of_length_le (by omega)
  rw [hdrop] at hlast
  refine ⟨_, _, _, ⟨⟨_, fileAt_called long_length (by decide)⟩, ?_, ⟨_, hwritten⟩, ⟨_, hlast⟩,
    ?_, ?_⟩, rfl, rfl⟩
  · rw [fileAt_unwritten_play, long_length, shimServerFrames]
    decide
  · rw [fileAt_unwritten_write]
    omega
  · rw [fileAt_unwritten_write]
    rfl

theorem command_heard_unmute :
    ∃ s t u, LongRun false s t u ∧ t.codecMuted = false := by
  obtain ⟨s, t, u, h, hs, -⟩ := longRun false
  obtain ⟨es, hcalled⟩ := h.called
  obtain ⟨es', hwritten⟩ := h.written
  obtain ⟨e, hlast⟩ := h.last
  have hquiet : ∀ i ∈ [Input.thread taken, .thread taken, .thread taken],
      ∀ mute', i ≠ .command mute' := by simp
  have hiff := command_heard_iff id longFile_loads hcalled hquiet hwritten hlast h.more h.none
  exact ⟨s, t, u, h, hiff.mpr (.inr hs)⟩

/- The whole file is heard after the command to mute. -/
theorem mute_unheard :
    Wav.loadWav id longFile = .ok ⟨.new 48000 2 formatS16Le, longBody.payload⟩ ∧
      ∃ s t u, LongRun true s t u ∧ t.codecMuted ≠ true := by
  obtain ⟨s, t, u, h, -, ht⟩ := longRun true
  exact ⟨longFile_loads, s, t, u, h, by rw [ht]; decide⟩

end Audiod.Cli
