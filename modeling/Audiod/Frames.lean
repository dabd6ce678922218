import Audiod.Protocol

/-!
# What a connection says (`docs/protocol.md`, "Control opcodes" and "PCM data frames")

The frames of a byte string, and the bytes of a frame: what `reader_client` and
`handle_control` decode does not depend on how the bytes arrive.
-/

namespace Audiod

/-! ### Bytes -/

theorem leBytes_leVal {w : ℕ} {bs : Bytes} (h : bs.length = w) : leBytes w (leVal bs) = bs := by
  induction bs generalizing w with
  | nil =>
    subst h
    rfl
  | cons b bs ih =>
    subst h
    have hb := b.isLt
    have hlow : (b.val + 256 * leVal bs) % 256 = b.val := by omega
    have hhigh : (b.val + 256 * leVal bs) / 256 = leVal bs := by omega
    simp only [leVal, List.length_cons, leBytes, hlow, hhigh, ih rfl]

theorem leVal_lt (bs : Bytes) : leVal bs < 256 ^ bs.length := by
  induction bs with
  | nil => simp [leVal]
  | cons b bs ih =>
    have hb := b.isLt
    rw [List.length_cons, pow_succ, leVal]
    omega

theorem readExact_bytes (n : ℕ) (s : Segments) :
    (readExact n s).map (fun r => (r.1, r.2.flatten)) =
      if n ≤ s.flatten.length then some (s.flatten.take n, s.flatten.drop n) else none := by
  rcases Nat.eq_zero_or_pos n with rfl | hn
  · rfl
  have h := fill_spec hn n n s (le_refl n)
  rcases hf : fill n n n s with ⟨d, s'⟩
  rw [hf] at h
  simp only at h
  simp only [readExact, hf]
  rw [h.1, List.length_take]
  by_cases hle : n ≤ s.flatten.length
  · rw [if_pos hle, if_pos (by omega), Option.map_some, h.2]
  · rw [if_neg hle, if_neg (by omega), Option.map_none]

/-! ### One frame -/

/-- The first frame of a byte string and what follows it. -/
def frameOf (bs : Bytes) : Option (ReaderEvent × Bytes) :=
  if bs.length < 4 then none
  else
    let len := leVal (bs.take 4)
    let rest := bs.drop 4
    if len = 0 then
      match rest with
      | [] => none
      | op :: rest =>
        if op = msgVolume then
          if rest.length < 4 then none
          else some (.cmd (.volume (leVal (rest.take 4))), rest.drop 4)
        else (Cmd.read op []).map fun (c, _) => (.cmd c, rest)
    else if rest.length < len then none
    else some (.chunk (rest.take len), rest.drop len)

/- But for the volume, an opcode is the whole command. -/
theorem cmdRead_of_ne {op : Byte} (h : op ≠ msgVolume) (s : Segments) :
    Cmd.read op s = (Cmd.read op []).map fun r => (r.1, s) := by
  unfold Cmd.read
  rw [if_neg h, if_neg h]
  repeat' split
  all_goals rfl

theorem cmdRead_volume (s : Segments) :
    Cmd.read msgVolume s = (readExact 4 s).map fun r => (.volume (leVal r.1), r.2) := rfl

/- What one turn of the loop decodes and leaves, however the bytes arrive. -/
theorem readerStep_bytes (s : Segments) :
    (readerStep s).map (fun r => (r.1, r.2.flatten)) = frameOf s.flatten := by
  have hlen := readExact_bytes 4 s
  by_cases hshort : s.flatten.length < 4
  · rw [if_neg (by omega), Option.map_eq_none_iff] at hlen
    simp only [readerStep, hlen, Option.bind_none, Option.map_none, frameOf, if_pos hshort]
  · rw [if_pos (by omega)] at hlen
    obtain ⟨⟨lenBuf, s₁⟩, hs₁, heq⟩ := Option.map_eq_some_iff.mp hlen
    simp only [Prod.mk.injEq] at heq
    obtain ⟨rfl, hrest⟩ := heq
    simp only [readerStep, hs₁, Option.bind_some, frameOf, if_neg hshort, ← hrest]
    by_cases hzero : leVal (s.flatten.take 4) = 0
    · rw [if_pos hzero, if_pos hzero]
      have hop := readExact_bytes 1 s₁
      cases hfl : s₁.flatten with
      | nil =>
        rw [hfl, if_neg (by simp), Option.map_eq_none_iff] at hop
        rw [hop]
        rfl
      | cons op rest =>
        rw [hfl, if_pos (by simp)] at hop
        obtain ⟨⟨b, s₂⟩, hs₂, heq⟩ := Option.map_eq_some_iff.mp hop
        simp only [Prod.mk.injEq, List.take_succ_cons, List.take_zero, List.drop_succ_cons,
          List.drop_zero] at heq
        obtain ⟨rfl, hrest₂⟩ := heq
        simp only [hs₂, Option.bind_some, List.headD_cons]
        by_cases hvol : op = msgVolume
        · subst hvol
          have hval := readExact_bytes 4 s₂
          rw [if_pos rfl, cmdRead_volume, ← hrest₂]
          by_cases hshort₂ : s₂.flatten.length < 4
          · rw [if_neg (by omega), Option.map_eq_none_iff] at hval
            rw [if_pos hshort₂, hval]
            rfl
          · rw [if_pos (by omega)] at hval
            obtain ⟨⟨v, s₃⟩, hs₃, heq⟩ := Option.map_eq_some_iff.mp hval
            simp only [Prod.mk.injEq] at heq
            obtain ⟨rfl, hrest₃⟩ := heq
            rw [if_neg hshort₂, hs₃, ← hrest₃]
            rfl
        · rw [if_neg hvol, cmdRead_of_ne hvol]
          cases Cmd.read op [] with
          | none => rfl
          | some c => simp [hrest₂]
    · rw [if_neg hzero, if_neg hzero]
      have hfill := fill_spec (by decide : 0 < readBufSz) (leVal (s.flatten.take 4))
        (leVal (s.flatten.take 4)) s₁ (le_refl _)
      rcases hf : fill readBufSz (leVal (s.flatten.take 4)) (leVal (s.flatten.take 4)) s₁ with
        ⟨d, s₂⟩
      rw [hf] at hfill
      simp only at hfill
      simp only
      rw [hfill.1, List.length_take]
      by_cases hpart : s₁.flatten.length < leVal (s.flatten.take 4)
      · rw [if_pos hpart, if_pos (by omega)]
        rfl
      · rw [if_neg hpart, if_neg (by omega), Option.map_some, hfill.2]

/-! ### All frames -/

theorem frameOf_shorter {bs rest : Bytes} {e : ReaderEvent} (h : frameOf bs = some (e, rest)) :
    rest.length < bs.length := by
  unfold frameOf at h
  split at h
  · cases h
  · rename_i hlen
    dsimp only at h
    split at h
    · split at h
      · cases h
      · rename_i op rest' hdrop
        have hl : (bs.drop 4).length = rest'.length + 1 := by rw [hdrop, List.length_cons]
        rw [List.length_drop] at hl
        split at h
        · split at h <;> cases h
          rw [List.length_drop]
          omega
        · obtain ⟨_, -, heq⟩ := Option.map_eq_some_iff.mp h
          cases heq
          omega
    · split at h <;> cases h
      rw [List.length_drop, List.length_drop]
      omega

/-- What a byte string says, up to the first frame that is cut short or unknown. -/
def frames (bs : Bytes) : List ReaderEvent := readerClient [bs]

/- The loop looks at the bytes only, and never runs out of fuel. -/
theorem readerLoop_congr (fuel : ℕ) : ∀ (fuel' : ℕ) (s s' : Segments), s.flatten = s'.flatten →
    s.flatten.length < fuel → s'.flatten.length < fuel' →
    readerLoop fuel s = readerLoop fuel' s' := by
  induction fuel with
  | zero => intro _ s _ _ h _; exact absurd h (Nat.not_lt_zero _)
  | succ fuel ih =>
    intro fuel' s s' hs hlt hlt'
    cases fuel' with
    | zero => exact absurd hlt' (Nat.not_lt_zero _)
    | succ fuel' =>
      have h := readerStep_bytes s
      have h' := readerStep_bytes s'
      rw [← hs, ← h] at h'
      rw [readerLoop, readerLoop]
      cases hstep : readerStep s with
      | none =>
        rw [hstep, Option.map_none, Option.map_eq_none_iff] at h'
        rw [h']
      | some r =>
        obtain ⟨e, s₁⟩ := r
        rw [hstep, Option.map_some] at h h'
        obtain ⟨⟨e', s₁'⟩, hstep', heq⟩ := Option.map_eq_some_iff.mp h'
        simp only [Prod.mk.injEq] at heq
        obtain ⟨rfl, hs₁⟩ := heq
        have hshort : s₁.flatten.length < s.flatten.length := frameOf_shorter h.symm
        rw [← hs] at hlt'
        rw [hstep']
        exact congrArg (e' :: ·) (ih fuel' s₁ s₁' hs₁.symm (by omega) (by rw [hs₁]; omega))

/-- The pieces do not matter. -/
theorem readerClient_eq (s : Segments) : readerClient s = frames s.flatten := by
  have hflat : ([s.flatten] : Segments).flatten = s.flatten := by simp
  exact readerLoop_congr _ _ s [s.flatten] hflat.symm (Nat.lt_succ_self _) (Nat.lt_succ_self _)

theorem frames_eq (bs : Bytes) :
    frames bs = (frameOf bs).elim [] fun r => r.1 :: frames r.2 := by
  have hflat : ([bs] : Segments).flatten = bs := by simp
  have h := readerStep_bytes [bs]
  rw [hflat] at h
  rw [← h, frames, readerClient, readerLoop]
  cases hstep : readerStep [bs] with
  | none => rfl
  | some r =>
    obtain ⟨e, s'⟩ := r
    rw [hstep, Option.map_some] at h
    have hshort := frameOf_shorter h.symm
    refine congrArg (e :: ·) ?_
    have hflat' : ([s'.flatten] : Segments).flatten = s'.flatten := by simp
    exact readerLoop_congr _ _ s' [s'.flatten] hflat'.symm (by rw [hflat]; exact hshort)
      (by rw [hflat']; exact Nat.lt_succ_self _)

theorem frames_none {bs : Bytes} (h : frameOf bs = none) : frames bs = [] := by
  rw [frames_eq, h]
  rfl

theorem frames_some {bs rest : Bytes} {e : ReaderEvent} (h : frameOf bs = some (e, rest)) :
    frames bs = e :: frames rest := by
  rw [frames_eq, h]
  rfl

theorem frameOf_append {bs rest : Bytes} {e : ReaderEvent} (h : frameOf bs = some (e, rest))
    (more : Bytes) : frameOf (bs ++ more) = some (e, rest ++ more) := by
  unfold frameOf at h ⊢
  split at h
  · cases h
  · rename_i hlen
    have hle : 4 ≤ bs.length := by omega
    rw [if_neg (by rw [List.length_append]; omega), List.take_append_of_le_length hle,
      List.drop_append_of_le_length hle]
    dsimp only at h ⊢
    split at h
    · rename_i hzero
      rw [if_pos hzero]
      cases hdrop : bs.drop 4 with
      | nil =>
        rw [hdrop] at h
        cases h
      | cons op tail =>
        rw [hdrop] at h
        dsimp only [List.cons_append] at h ⊢
        split at h
        · rename_i hvol
          rw [if_pos hvol]
          split at h
          · cases h
          · have hle' : 4 ≤ tail.length := by omega
            cases h
            rw [if_neg (by rw [List.length_append]; omega), List.take_append_of_le_length hle',
              List.drop_append_of_le_length hle']
        · rename_i hvol
          rw [if_neg hvol]
          obtain ⟨c, hread, heq⟩ := Option.map_eq_some_iff.mp h
          cases heq
          rw [hread]
          rfl
    · rename_i hpos
      rw [if_neg hpos]
      split at h
      · cases h
      · cases h
        rw [if_neg (by rw [List.length_append]; omega), List.take_append_of_le_length (by omega),
          List.drop_append_of_le_length (by omega)]

theorem frames_append (bs more : Bytes) : frames bs <+: frames (bs ++ more) := by
  induction hn : bs.length using Nat.strong_induction_on generalizing bs with
  | _ n ih =>
    cases hframe : frameOf bs with
    | none =>
      rw [frames_none hframe]
      exact List.nil_prefix
    | some r =>
      have hshort := frameOf_shorter hframe
      rw [frames_some hframe, frames_some (frameOf_append hframe more), List.cons_prefix_cons]
      exact ⟨rfl, ih r.2.length (hn ▸ hshort) r.2 rfl⟩

/-! ### Writing frames -/

def Cmd.opcode : Cmd → Byte
  | .mute => msgMute
  | .unmute => msgUnmute
  | .flush => msgFlush
  | .volume _ => msgVolume
  | .status => msgStatus

/-- What follows the opcode. -/
def Cmd.args : Cmd → Bytes
  | .volume bits => leBytes 4 bits
  | _ => []

/-- The bytes of a frame: the length, nought for a command. -/
def ReaderEvent.frame : ReaderEvent → Bytes
  | .cmd c => leBytes 4 0 ++ c.opcode :: c.args
  | .chunk data => sendFrame data

/-- What fits its fields. -/
def ReaderEvent.Fits : ReaderEvent → Prop
  | .cmd (.volume bits) => bits < 256 ^ 4
  | .cmd _ => True
  | .chunk data => data ≠ [] ∧ data.length < 256 ^ 4

theorem frameOf_zero (rest : Bytes) : frameOf (leBytes 4 0 ++ rest) =
    match rest with
    | [] => none
    | op :: rest =>
      if op = msgVolume then
        if rest.length < 4 then none
        else some (.cmd (.volume (leVal (rest.take 4))), rest.drop 4)
      else (Cmd.read op []).map fun (c, _) => (.cmd c, rest) := by
  have hlen := leBytes_length 4 0
  have hzero : leVal (leBytes 4 0) = 0 := leVal_leBytes (by decide)
  unfold frameOf
  rw [if_neg (by rw [List.length_append, hlen]; omega), List.take_left' hlen,
    List.drop_left' hlen]
  dsimp only
  rw [if_pos hzero]
  cases rest <;> rfl

theorem frameOf_data {n : ℕ} (hn : n ≠ 0) (hlt : n < 256 ^ 4) (rest : Bytes) :
    frameOf (leBytes 4 n ++ rest) =
      if rest.length < n then none else some (.chunk (rest.take n), rest.drop n) := by
  have hlen := leBytes_length 4 n
  unfold frameOf
  rw [if_neg (by rw [List.length_append, hlen]; omega), List.take_left' hlen,
    List.drop_left' hlen]
  dsimp only
  rw [leVal_leBytes hlt, if_neg hn]

theorem frameOf_frame {e : ReaderEvent} (h : e.Fits) (rest : Bytes) :
    frameOf (e.frame ++ rest) = some (e, rest) := by
  cases e with
  | chunk data =>
    have hn : data.length ≠ 0 := fun h0 => h.1 (List.length_eq_zero_iff.mp h0)
    rw [ReaderEvent.frame, sendFrame, List.append_assoc, frameOf_data hn h.2,
      if_neg (by rw [List.length_append]; omega), List.take_left' rfl, List.drop_left' rfl]
  | cmd c =>
    rw [ReaderEvent.frame, List.append_assoc, frameOf_zero]
    cases c with
    | volume bits =>
      have hlen := leBytes_length 4 bits
      change (if msgVolume = msgVolume then
        if (leBytes 4 bits ++ rest).length < 4 then none
        else some (ReaderEvent.cmd (.volume (leVal ((leBytes 4 bits ++ rest).take 4))),
          (leBytes 4 bits ++ rest).drop 4)
        else _) = _
      rw [if_pos rfl, if_neg (by rw [List.length_append, hlen]; omega), List.take_left' hlen,
        List.drop_left' hlen, leVal_leBytes h]
    | mute | unmute | flush | status => rfl

/-- Every conversation of commands and chunks is heard as it was said, in whatever pieces it
arrives. -/
theorem frames_flatMap (es : List ReaderEvent) (h : ∀ e ∈ es, e.Fits) (rest : Bytes) :
    frames (es.flatMap ReaderEvent.frame ++ rest) = es ++ frames rest := by
  induction es with
  | nil => rfl
  | cons e es ih =>
    have he := frameOf_frame (h e (List.mem_cons_self ..)) (es.flatMap ReaderEvent.frame ++ rest)
    rw [List.flatMap_cons, List.append_assoc, frames_some he,
      ih fun e' he' => h e' (List.mem_cons_of_mem _ he')]
    rfl

theorem frameOf_cut {e : ReaderEvent} (h : e.Fits) {bs : Bytes} (hbs : bs <+: e.frame)
    (hshort : bs.length < e.frame.length) : frameOf bs = none := by
  obtain ⟨more, hmore⟩ := hbs
  cases hframe : frameOf bs with
  | none => rfl
  | some r =>
    have hwhole := frameOf_append hframe more
    have hsame := frameOf_frame h []
    rw [List.append_nil] at hsame
    rw [hmore, hsame] at hwhole
    have hnil : more = [] := (List.append_eq_nil_iff.mp (congrArg Prod.snd
      (Option.some.inj hwhole)).symm).2
    rw [← hmore, hnil, List.append_nil] at hshort
    exact absurd hshort (Nat.lt_irrefl _)

theorem frames_cut (es : List ReaderEvent) (h : ∀ e ∈ es, e.Fits) (bs : Bytes)
    (hbs : bs <+: es.flatMap ReaderEvent.frame) :
    ∃ next, es = frames bs ++ next ∧ (frames bs).flatMap ReaderEvent.frame <+: bs ∧
      ∀ e ∈ next.head?, bs.length < ((frames bs ++ [e]).flatMap ReaderEvent.frame).length := by
  induction es generalizing bs with
  | nil =>
    have hnil : bs = [] := List.prefix_nil.mp hbs
    subst hnil
    exact ⟨[], by rw [frames_none (by decide)]; rfl, by rw [frames_none (by decide)]; exact
      List.nil_prefix, fun e he => by cases he⟩
  | cons e es ih =>
    have he := h e (List.mem_cons_self ..)
    rw [List.flatMap_cons] at hbs
    by_cases hshort : bs.length < e.frame.length
    · have hcut : bs <+: e.frame :=
        List.prefix_of_prefix_length_le hbs (List.prefix_append ..) (Nat.le_of_lt hshort)
      have hnone := frames_none (frameOf_cut he hcut hshort)
      rw [hnone]
      refine ⟨e :: es, rfl, List.nil_prefix, fun e' he' => ?_⟩
      cases he'
      rwa [List.nil_append, List.flatMap_cons, List.flatMap_nil, List.append_nil]
    · obtain ⟨tail, rfl⟩ : e.frame <+: bs :=
        List.prefix_of_prefix_length_le (List.prefix_append ..) hbs (Nat.le_of_not_lt hshort)
      rw [List.prefix_append_right_inj] at hbs
      obtain ⟨next, heq, hpre, hnext⟩ := ih (fun e' he' => h e' (List.mem_cons_of_mem _ he'))
        tail hbs
      rw [frames_some (frameOf_frame he tail)]
      refine ⟨next, congrArg (e :: ·) heq, ?_, fun e' he' => ?_⟩
      · rw [List.flatMap_cons, List.prefix_append_right_inj]
        exact hpre
      · have hlt := hnext e' he'
        rw [List.cons_append, List.flatMap_cons, List.length_append, List.length_append]
        omega

/-- A conversation cut anywhere and split anyhow: what is heard are its first frames, as
they were said, and these are all that are whole. -/
theorem readerClient_cut (es : List ReaderEvent) (h : ∀ e ∈ es, e.Fits) (s : Segments)
    (hs : s.flatten <+: es.flatMap ReaderEvent.frame) :
    ∃ next, es = readerClient s ++ next ∧
      (readerClient s).flatMap ReaderEvent.frame <+: s.flatten ∧
      ∀ e ∈ next.head?,
        s.flatten.length < ((readerClient s ++ [e]).flatMap ReaderEvent.frame).length := by
  rw [readerClient_eq]
  exact frames_cut es h s.flatten hs

/- A chunk after a command, its last byte missing. -/
theorem readerClient_cut_chunk : ∃ next,
    [.cmd .mute, .chunk [1, 2]] = readerClient [[0, 0], [0, 0, msgMute, 2], [0, 0, 0, 1]] ++ next ∧
      ∀ e ∈ next.head?, [[0, 0], [0, 0, msgMute, 2], [0, 0, 0, 1]].flatten.length <
        ((readerClient [[0, 0], [0, 0, msgMute, 2], [0, 0, 0, 1]] ++ [e]).flatMap
          ReaderEvent.frame).length := by
  have hfits : ∀ e ∈ [ReaderEvent.cmd .mute, .chunk [1, 2]], e.Fits := by
    intro e he
    simp only [List.mem_cons, List.not_mem_nil, or_false] at he
    rcases he with rfl | rfl
    · trivial
    · exact ⟨List.cons_ne_nil 1 [2], by decide⟩
  obtain ⟨next, heq, -, hnext⟩ := readerClient_cut [.cmd .mute, .chunk [1, 2]] hfits
    [[0, 0], [0, 0, msgMute, 2], [0, 0, 0, 1]] (by decide)
  exact ⟨next, heq, hnext⟩

end Audiod
