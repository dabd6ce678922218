import Audiod.Players
import Mathlib.Data.List.Nodup
import Mathlib.Data.List.Sigma

/-!
# What `play_stdin` makes of the reads (`server/src/main.rs:694-722`)

Every read is cut to whole frames on its own, and what is left over is not kept for the
next. So the frames played are those of the stream only if all that is cut off lies at its end.
-/

namespace Audiod.Cli

/-! ### Pieces that are cut -/

section

variable {α : Type*}

/-- The first `k p` cells of every piece `p`. -/
def cutAll (k : List α → ℕ) (pieces : List (List α)) : List α :=
  pieces.flatMap fun p => p.take (k p)

theorem cutAll_append (k : List α → ℕ) (a b : List (List α)) :
    cutAll k (a ++ b) = cutAll k a ++ cutAll k b := List.flatMap_append

theorem cutAll_subset (k : List α → ℕ) {pieces : List (List α)} {x : α}
    (h : x ∈ cutAll k pieces) : x ∈ pieces.flatten := by
  obtain ⟨p, hp, hx⟩ := List.mem_flatMap.mp h
  exact List.mem_flatten_of_mem hp (List.mem_of_mem_take hx)

theorem cutAll_length {k : List α → ℕ} (hk : ∀ p, k p ≤ p.length) (pieces : List (List α)) :
    (cutAll k pieces).length = (pieces.map k).sum := by
  rw [cutAll, List.length_flatMap]
  congr 1
  apply List.map_congr_left
  intro p _
  rw [List.length_take, min_eq_left (hk p)]

theorem cutAll_eq_nil {k : List α → ℕ} (hk : ∀ p, k p ≤ p.length) {pieces : List (List α)} :
    cutAll k pieces = [] ↔ ∀ p ∈ pieces, k p = 0 := by
  rw [cutAll, List.flatMap_eq_nil_iff]
  refine forall₂_congr fun p _ => ?_
  rw [List.take_eq_nil_iff]
  constructor
  · rintro (h | rfl)
    · exact h
    · exact Nat.le_zero.mp (hk [])
  · exact .inl

/-- What stays is a prefix of the whole exactly if nothing stays of the pieces after one
that lost something. -/
theorem cutAll_prefix_iff {k : List α → ℕ} (hk : ∀ p, k p ≤ p.length) {pieces : List (List α)}
    (hnodup : pieces.flatten.Nodup) :
    cutAll k pieces <+: pieces.flatten ↔
      pieces.Pairwise fun p q => k p = p.length ∨ k q = 0 := by
  induction pieces with
  | nil => exact iff_of_true (List.prefix_refl _) .nil
  | cons p pieces ih =>
    rw [List.flatten_cons] at hnodup
    have hrest := hnodup.of_append_right
    have hdisjoint := List.disjoint_of_nodup_append hnodup
    have hcut : cutAll k (p :: pieces) = p.take (k p) ++ cutAll k pieces := rfl
    rw [hcut, List.flatten_cons, List.pairwise_cons]
    rcases Nat.lt_or_ge (k p) p.length with hlt | hge
    · -- a cell is missing behind the first piece, so nothing may follow
      have hfront : p.take (k p) ++ cutAll k pieces <+: p ++ pieces.flatten ↔
          cutAll k pieces = [] := by
        constructor
        · intro hpre
          have hdrop : cutAll k pieces <+: p.drop (k p) ++ pieces.flatten := by
            have hsplit : p ++ pieces.flatten =
                p.take (k p) ++ (p.drop (k p) ++ pieces.flatten) := by
              rw [← List.append_assoc, List.take_append_drop]
            rw [hsplit] at hpre
            exact (List.prefix_append_right_inj _).mp hpre
          cases hcells : cutAll k pieces with
          | nil => rfl
          | cons x cells =>
            rw [hcells, List.drop_eq_getElem_cons hlt, List.cons_append,
              List.cons_prefix_cons] at hdrop
            have hin : x ∈ pieces.flatten := cutAll_subset k (by rw [hcells]; simp)
            exact absurd hin (hdisjoint (hdrop.1 ▸ List.getElem_mem hlt))
        · intro hnil
          rw [hnil, List.append_nil]
          exact (List.take_prefix _ _).trans (List.prefix_append _ _)
      rw [hfront, cutAll_eq_nil hk]
      constructor
      · intro hzero
        refine ⟨fun q hq => .inr (hzero q hq), ?_⟩
        exact List.Pairwise.imp_of_mem (fun _ hq _ => .inr (hzero _ hq))
          (List.pairwise_of_forall (fun _ _ => trivial) : pieces.Pairwise fun _ _ => True)
      · rintro ⟨hafter, -⟩ q hq
        rcases hafter q hq with h | h
        · omega
        · exact h
    · have hall : k p = p.length := Nat.le_antisymm (hk p) hge
      rw [hall, List.take_length, List.prefix_append_right_inj, ih hrest]
      exact ⟨fun h => ⟨fun _ _ => .inl rfl, h⟩, fun h => h.2⟩

theorem eq_take_iff {l whole : List α} {m : ℕ} (hm : m ≤ whole.length) :
    l = whole.take m ↔ l <+: whole ∧ l.length = m := by
  constructor
  · rintro rfl
    exact ⟨List.take_prefix _ _, by rw [List.length_take, min_eq_left hm]⟩
  · rintro ⟨hpre, rfl⟩
    exact List.prefix_iff_eq_take.mp hpre

/-- Cut to whole frames piece by piece. -/
def cutReads (size : ℕ) (pieces : List (List α)) : List α :=
  cutAll (fun p => p.length / size * size) pieces

theorem cutReads_concat (size : ℕ) (pieces : List (List α)) (p : List α) :
    cutReads size (pieces ++ [p]) = cutReads size pieces ++ p.take (p.length / size * size) := by
  rw [cutReads, cutReads, cutAll_append, cutAll, cutAll, List.flatMap_singleton]

/-- Piece by piece and all at once come to the same exactly if all that is cut off is at the
end and comes to no frame. -/
theorem cutReads_eq_iff {size frame : ℕ} (hsize : size ≠ 0) {pieces : List (List α)}
    (hnodup : pieces.flatten.Nodup) :
    cutReads size pieces = wholeFrames frame pieces.flatten ↔
      pieces.Pairwise (fun p q => p.length % size = 0 ∨ q.length < size) ∧
        (pieces.map fun p => p.length % size).sum = pieces.flatten.length % frame := by
  have hk (p : List α) : p.length / size * size ≤ p.length := Nat.div_mul_le_self _ _
  have hlengths : (pieces.map fun p => p.length / size * size).sum +
      (pieces.map fun p => p.length % size).sum = pieces.flatten.length := by
    rw [← List.sum_map_add, List.length_flatten]
    congr 1
    apply List.map_congr_left
    intro p _
    rw [Nat.div_add_mod']
  have hwhole := Nat.div_add_mod' pieces.flatten.length frame
  rw [cutReads, wholeFrames, eq_take_iff (Nat.div_mul_le_self _ _), cutAll_prefix_iff hk hnodup,
    cutAll_length hk]
  refine and_congr (List.Pairwise.iff fun {p q} => ?_) (by omega)
  have hp := Nat.div_add_mod' p.length size
  have hq : q.length / size * size = 0 ↔ q.length < size := by
    rw [Nat.mul_eq_zero, or_iff_left hsize, Nat.div_eq_zero_iff, or_iff_right hsize]
  rw [hq]
  omega

end

/-! ### Runs -/

section

variable {α : Type*} (byte : α → Byte)

/-- What the reads returned. -/
def reads {α : Type*} (tr : List (Event α)) : List (List α) :=
  tr.filterMap fun e => match e with
    | .read data => some data
    | _ => none

theorem reads_append {α : Type*} (a b : List (Event α)) : reads (a ++ b) = reads a ++ reads b :=
  List.filterMap_append

theorem State.syncMuted_reads (s : State α) (a : Answer α) : reads (s.syncMuted a).2 = [] := by
  unfold syncMuted
  split
  · rfl
  · dsimp only
    split
    · cases a.codec <;> rfl
    · rfl

/-- What was played so far of what was read so far. -/
def Accounted (size : ℕ) (pc : Pc α) (tr : List (Event α)) : Prop :=
  match pc with
  | .check piece => ∃ pre, reads tr = pre ++ [piece] ∧ handed tr = cutReads size pre
  | .play piece frames => size ≠ 0 ∧ ∃ pre data, reads tr = pre ++ [data] ∧
      handed tr = cutReads size pre ∧ frames = data.length / size ∧
      piece = data.take (frames * size)
  | .crashed => size = 0 ∧ reads tr ≠ []
  | _ => handed tr = cutReads size (reads tr) ∧ (size = 0 → reads tr = [])

theorem Accounted.quiet {size : ℕ} {pc : Pc α} {tr e : List (Event α)} (h : Accounted size pc tr)
    (hhanded : handed e = []) (hreads : reads e = []) : Accounted size pc (tr ++ e) := by
  have hh : handed (tr ++ e) = handed tr := by rw [handed_append, hhanded, List.append_nil]
  have hr : reads (tr ++ e) = reads tr := by rw [reads_append, hreads, List.append_nil]
  cases pc <;> simpa only [Accounted, hh, hr] using h

/-- An unmuted `play_stdin` along its run. -/
structure Unmuted (ch : ℕ) (s : State α) (tr : List (Event α)) : Prop where
  source : s.source = .stdin
  player : s.player.For ch
  muted : s.muted = false
  accounted : Accounted s.player.clientFs s.pc tr

section

variable {byte} {ch : ℕ} {s s' : State α} {tr e : List (Event α)} {a : Answer α}

theorem Unmuted.listen (h : Unmuted ch s tr) (hpc : s.pc = .top) :
    Unmuted ch { (s.syncMuted a).1 with pc := .read } (tr ++ (s.syncMuted a).2) := by
  have hacc := h.accounted
  obtain ⟨applied, codec, heq⟩ := s.syncMuted_eq a
  rw [heq]
  rw [hpc] at hacc
  have hread : Accounted s.player.clientFs (.read : Pc α) tr := hacc
  exact ⟨h.source, h.player.applied _, h.muted,
    hread.quiet (s.syncMuted_handed a) (s.syncMuted_reads a)⟩

theorem Unmuted.got (h : Unmuted ch s tr) (hpc : s.pc = .read) (data : List α) :
    Unmuted ch { s with pc := .check data } (tr ++ [.read data]) := by
  have hacc := h.accounted
  rw [hpc] at hacc
  refine ⟨h.source, h.player, h.muted, reads tr, ?_, ?_⟩
  · rw [reads_append]
    rfl
  · rw [handed_append]
    exact (List.append_nil _).trans hacc.1

/- A read without a whole frame hands nothing on. -/
theorem Unmuted.short (h : Unmuted ch s tr) {piece : List α} (hpc : s.pc = .check piece)
    (hfs : s.player.clientFs ≠ 0) (hframes : piece.length / s.player.clientFs = 0) :
    Unmuted ch { s with pc := s.source.after } tr := by
  have hacc := h.accounted
  rw [hpc] at hacc
  obtain ⟨pre, hreads, hhanded⟩ := hacc
  rw [h.source]
  refine ⟨rfl, h.player, h.muted, ?_, fun h0 => absurd h0 hfs⟩
  rw [hreads, cutReads_concat, hframes, hhanded, Nat.zero_mul, List.take_zero, List.append_nil]

variable (byte) in
theorem Unmuted.played (h : Unmuted ch s tr) {piece : List α} {frames : ℕ}
    (hpc : s.pc = .play piece frames) :
    ∃ buf out, s.player.play (piece.map byte) frames (Mixer.gainOf s.volume) =
      some ({ s.player with outBuf := buf }, out) := by
  have hacc := h.accounted
  rw [hpc] at hacc
  obtain ⟨-, pre, data, -, -, rfl, rfl⟩ := hacc
  obtain ⟨buf, out, hsome, -⟩ := Player.play_spec h.player (Mixer.gainOf s.volume)
    (cut_fits byte s.player.clientFs data)
  exact ⟨buf, out, hsome⟩

theorem Unmuted.convert (h : Unmuted ch s tr) {piece : List α} {frames : ℕ}
    (hpc : s.pc = .play piece frames) {player : Player} {out : Bytes}
    (hplay : s.player.play (piece.map byte) frames (Mixer.gainOf s.volume) = some (player, out)) :
    Unmuted ch { s with player := player, pc := .write out piece.length }
      (tr ++ [.played piece frames]) := by
  obtain ⟨buf, out', hsome⟩ := h.played byte hpc
  rw [hsome] at hplay
  cases hplay
  have hacc := h.accounted
  rw [hpc] at hacc
  obtain ⟨hfs, pre, data, hreads, hhanded, rfl, rfl⟩ := hacc
  refine ⟨h.source, h.player.outBuf buf, h.muted, ?_, fun h0 => absurd h0 hfs⟩
  rw [handed_append, reads_append, hhanded, hreads]
  simp [handed, reads, cutReads_concat]

variable (byte)

theorem Unmuted.thread (h : Unmuted ch s tr) (hs : s.thread byte a = some (s', e)) :
    Unmuted ch s' (tr ++ e) := by
  have hacc := h.accounted
  have hheard : s.Heard := fun hmute => by rw [h.muted] at hmute; cases hmute.2
  cases thread_turn byte hs with
  | listen hpc hsrc => exact h.listen hpc
  | look data off hpc hsrc | done data off hpc hsrc =>
    rw [h.source] at hsrc
    cases hsrc
  | eof hpc =>
    rw [hpc] at hacc
    rw [List.append_nil]
    exact ⟨h.source, h.player, h.muted, hacc⟩
  | got data hpc => exact h.got hpc data
  | skip piece hpc hmute => exact absurd hheard hmute
  | divide piece hpc hheard hfs =>
    rw [hpc] at hacc
    obtain ⟨pre, hreads, -⟩ := hacc
    rw [List.append_nil]
    exact ⟨h.source, h.player, h.muted, hfs, by rw [hreads]; simp⟩
  | short piece hpc hheard hfs hframes =>
    rw [List.append_nil]
    exact h.short hpc hfs hframes
  | cut piece hpc hheard hfs hframes =>
    rw [hpc] at hacc
    obtain ⟨pre, hreads, hhanded⟩ := hacc
    rw [List.append_nil]
    exact ⟨h.source, h.player, h.muted, hfs, pre, piece, hreads, hhanded, rfl, rfl⟩
  | fault piece frames hpc hplay =>
    obtain ⟨buf, out, hsome⟩ := h.played byte hpc
    rw [hplay] at hsome
    cases hsome
  | convert piece frames player out hpc hplay => exact h.convert hpc hplay
  | finish consumed hpc =>
    rw [hpc] at hacc
    rw [List.append_nil]
    refine ⟨by rw [h.source]; rfl, h.player, h.muted, hacc⟩
  | write rest consumed hpc =>
    rw [hpc] at hacc
    have hwrite : Accounted s.player.clientFs
        (.write (rest.drop (writeTurn rest a)) consumed : Pc α) tr := hacc
    exact ⟨h.source, h.player, h.muted, hwrite.quiet rfl rfl⟩
  | stay =>
    rw [List.append_nil]
    exact h

end

theorem Unmuted.step {ch : ℕ} {s s' : State α} {tr e : List (Event α)} {i : Input α}
    (hi : i ≠ .command true) (h : Unmuted ch s tr) (hs : step byte s i = some (s', e)) :
    Unmuted ch s' (tr ++ e) := by
  cases i with
  | thread a => exact h.thread byte hs
  | command mute =>
    cases hs
    rw [List.append_nil]
    cases mute with
    | true => exact absurd rfl hi
    | false => exact ⟨h.source, h.player, rfl, h.accounted⟩
  | setVolume percent =>
    cases hs
    rw [List.append_nil]
    exact ⟨h.source, h.player, h.muted, h.accounted⟩

theorem unmuted_start (rate ch : ℕ) (hwMute : Bool) (volume : F32) :
    Unmuted ch (start .stdin (.new rate ch formatS16Le) hwMute volume : State α) [] :=
  ⟨rfl, Player.open_for rate ch hwMute, rfl, rfl, fun _ => rfl⟩

/- For cells that can be told apart. -/
theorem frames_played_iff {rate ch : ℕ} {hwMute : Bool} {volume : F32} {is : List (Input α)}
    {s : State α} {es : List (Event α)} (hunmuted : ∀ i ∈ is, i ≠ .command true)
    (hrun : (machine byte).run (start .stdin (.new rate ch formatS16Le) hwMute volume) is =
      some (s, es))
    (hend : s.pc = .drain ∨ s.pc = .crashed) (hnodup : (reads es).flatten.Nodup) :
    (s.pc = .drain ∧ handed es = wholeFrames (2 * ch) (reads es).flatten) ↔
      (2 * ch % 65536 = 0 → reads es = []) ∧
      (reads es).Pairwise (fun p q =>
        p.length % (2 * ch % 65536) = 0 ∨ q.length < 2 * ch % 65536) ∧
      ((reads es).map fun p => p.length % (2 * ch % 65536)).sum =
        (reads es).flatten.length % (2 * ch) := by
  have hinv : Unmuted ch s ([] ++ es) := (machine byte).run_inv_of_meets
    (fun s tr i s' e hi h hs => h.step byte hi hs) (unmuted_start rate ch hwMute volume)
    ((machine byte).meets_of_all _ is hunmuted) hrun
  rw [List.nil_append] at hinv
  have hacc := hinv.accounted
  rw [hinv.player.clientFs] at hacc
  rcases hend with hpc | hpc
  · rw [hpc] at hacc
    obtain ⟨hhanded, hzero⟩ := hacc
    rw [hhanded]
    rcases Nat.eq_zero_or_pos (2 * ch % 65536) with h0 | hpos
    · have hnil := hzero h0
      rw [hnil]
      simp [hpc, cutReads, cutAll, wholeFrames]
    · rw [cutReads_eq_iff (by omega) hnodup]
      exact ⟨fun h => ⟨hzero, h.2⟩, fun h => ⟨hpc, h.2⟩⟩
  · rw [hpc] at hacc
    constructor
    · rintro ⟨hdrain, -⟩
      rw [hpc] at hdrain
      cases hdrain
    · exact fun h => absurd (h.1 hacc.1) hacc.2

end

/-- The bytes of a stream carry their places in it. An unmuted `play_stdin` that has read the
stream and is through has played its frames exactly if no read came while the frame size was
zero, every read but the last ones was a multiple of it, and what is cut off of those is what
is left of the stream. -/
theorem stdin_frames_iff {stream : Bytes} {rate ch : ℕ} {hwMute : Bool} {volume : F32}
    {is : List (Input (Byte × ℕ))} {s : State (Byte × ℕ)} {es : List (Event (Byte × ℕ))}
    (hunmuted : ∀ i ∈ is, i ≠ .command true)
    (hrun : (machine Prod.fst).run (start .stdin (.new rate ch formatS16Le) hwMute volume) is =
      some (s, es))
    (hend : s.pc = .drain ∨ s.pc = .crashed) (hstream : (reads es).flatten = stream.zipIdx) :
    (s.pc = .drain ∧ handed es = wholeFrames (2 * ch) stream.zipIdx) ↔
      (2 * ch % 65536 = 0 → reads es = []) ∧
      (reads es).Pairwise (fun p q =>
        p.length % (2 * ch % 65536) = 0 ∨ q.length < 2 * ch % 65536) ∧
      ((reads es).map fun p => p.length % (2 * ch % 65536)).sum = stream.length % (2 * ch) := by
  have hnodup : (reads es).flatten.Nodup := by
    rw [hstream]
    exact (List.nodup_zipIdx_map_snd stream).of_map Prod.snd
  have hiff := frames_played_iff Prod.fst hunmuted hrun hend hnodup
  rwa [hstream, List.length_zipIdx] at hiff

/-- An answer to whatever is asked: a read, and a ring that is empty. -/
def ready {α : Type*} (data : Option (List α)) : Answer α := ⟨data, 0, 16384, .done⟩

/- Two frames in two reads and the end of the input. -/
theorem stdin_frames_stereo :
    ∃ (s : State (Byte × ℕ)) (es : List (Event (Byte × ℕ))),
      (machine Prod.fst).run (start .stdin (.new 48000 2 formatS16Le) true (.fin 100))
        [.thread (ready none), .thread (ready (some [1, 2, 3, 4, 5, 6, 7, 8].zipIdx)),
          .thread (ready none), .thread (ready none), .thread (ready none), .thread (ready none),
          .thread (ready none), .thread (ready (some [(9, 8)])), .thread (ready none),
          .thread (ready none), .thread (ready none)] = some (s, es) ∧
      s.pc = .drain ∧ handed es = [1, 2, 3, 4, 5, 6, 7, 8].zipIdx := by
  let s : State (Byte × ℕ) :=
    { start .stdin (.new 48000 2 formatS16Le) true (.fin 100) with pc := .drain }
  let es : List (Event (Byte × ℕ)) := [.read [1, 2, 3, 4, 5, 6, 7, 8].zipIdx,
    .played [1, 2, 3, 4, 5, 6, 7, 8].zipIdx 2, .wrote 8, .read [(9, 8)]]
  have hrun : (machine Prod.fst).run (start .stdin (.new 48000 2 formatS16Le) true (.fin 100))
      [.thread (ready none), .thread (ready (some [1, 2, 3, 4, 5, 6, 7, 8].zipIdx)),
        .thread (ready none), .thread (ready none), .thread (ready none), .thread (ready none),
        .thread (ready none), .thread (ready (some [(9, 8)])), .thread (ready none),
        .thread (ready none), .thread (ready none)] = some (s, es) := by
    decide +kernel
  have hstream : (reads es).flatten = ([1, 2, 3, 4, 5, 6, 7, 8, 9] : Bytes).zipIdx := by decide
  have hframes := (stdin_frames_iff (by simp) hrun (.inl rfl) hstream).mpr
    ⟨by decide, by decide, by decide⟩
  exact ⟨s, es, hrun, hframes.1, hframes.2.trans (by decide)⟩

/- A read of three bytes is thrown away, and the frame after it starts at the fourth byte. -/
theorem short_read_shifts :
    ∃ (s : State Byte) (es : List (Event Byte)),
      (machine id).run (start .stdin (.new 48000 2 formatS16Le) true (.fin 100))
        [.thread (ready none), .thread (ready (some [1, 2, 3])), .thread (ready none),
          .thread (ready none), .thread (ready (some [4, 5, 6, 7, 8])), .thread (ready none),
          .thread (ready none), .thread (ready none), .thread (ready none),
          .thread (ready none), .thread (ready none)] = some (s, es) ∧
      s.pc = .drain ∧ (reads es).flatten = [1, 2, 3, 4, 5, 6, 7, 8] ∧ handed es = [4, 5, 6, 7] ∧
      handed es ≠ wholeFrames (2 * 2) (reads es).flatten := by
  refine ⟨{ start .stdin (.new 48000 2 formatS16Le) true (.fin 100) with pc := .drain },
    [.read [1, 2, 3], .read [4, 5, 6, 7, 8], .played [4, 5, 6, 7] 1, .wrote 4], ?_, rfl, ?_, ?_, ?_⟩
  all_goals decide +kernel

end Audiod.Cli
