import Audiod.Frames
import Audiod.PeerAuth

/-!
# What comes of the bytes of a connection (`server/src/main.rs:203-223`, `438-681`)

What a connection has the server do is what its bytes say read in one piece, however they
arrive, whatever the loop, the mixer and the other connections do in between.
-/

namespace Audiod.Daemon

/-- What a connection has the server do. -/
inductive Act
  | cmd (c : Cmd)
  | push (data : Bytes)
  deriving DecidableEq

/-- Where a connection is: `away` before it is there and once the loop has dropped it. -/
inductive Stage (σ : Type*)
  | away
  | queued
  | heading (got : Bytes)
  | served (th : Thread σ)

/-- The header the loop is reading from `c`. -/
def LoopPc.got (c : ℕ) : LoopPc → Option Bytes
  | .header d got _ => if d = c then some got else none
  | _ => none

def Server.stage {σ : Type*} (s : Server σ) (c : ℕ) : Stage σ :=
  match s.threads c with
  | some th => .served th
  | none =>
    match s.loop.got c with
    | some got => .heading got
    | none => if c ∈ s.backlog then .queued else .away

/-- The thread has left its loop. -/
def Thread.Gone {σ : Type*} : Thread σ → Prop
  | .finish _ | .done => True
  | _ => False

/-- The thread waits for bytes. -/
def Thread.Listens {σ : Type*} : Thread σ → Prop
  | .poll _ | .read _ _ _ => True
  | _ => False

/-- The bytes of the frame a thread is in. -/
def Field.raw : Field → Bytes → Bytes
  | .len, got => got
  | .op, got => leBytes 4 0 ++ got
  | .volume, got => leBytes 4 0 ++ msgVolume :: got
  | .data n, got => leBytes 4 n ++ got

/-- A field that is being read. -/
def Field.Fits (f : Field) (got : Bytes) : Prop :=
  got.length < f.size ∧ match f with
    | .data n => n < 256 ^ 4
    | _ => True

def Thread.Fits {σ : Type*} : Thread σ → Prop
  | .read _ f got => f.Fits got
  | _ => True

section

variable {σ : Type*} [PackArith σ]

/-- What frames come to: without a stream the first chunk is the end, with one it is what
the reader makes of it. -/
def turns : Option (Reader σ) → List ReaderEvent → List Act
  | _, [] => []
  | r, .cmd c :: es => .cmd c :: turns r es
  | none, .chunk _ :: _ => []
  | some r, .chunk data :: es =>
    match r.chunk data with
    | none => []
    | some (r, none) => turns (some r) es
    | some (r, some out) => .push out :: turns (some r) es

variable (δ : Type*) [WideArith δ] [FloatCasts δ σ] (u : Setup)

def Setup.reader (cfg : Option AudioCfg) : Option (Reader σ) :=
  cfg.map fun cfg => Reader.new δ cfg u.mixRate u.resampler

variable (σ) in
/-- What the bytes of a connection say, its header first. -/
def meaning (bs : Bytes) : List Act :=
  if bs.length < hdrSz then []
  else (dispatch (bs.take hdrSz)).elim [] fun cfg =>
    turns (u.reader δ cfg : Option (Reader σ)) (frames (bs.drop hdrSz))

/-- What a thread is still to do if these are the bytes to come. -/
def Thread.future : Thread σ → Bytes → List Act
  | .start cfg, bs => turns (u.reader δ cfg : Option (Reader σ)) (frames bs)
  | .limit cfg, bs | .register cfg, bs =>
    turns (u.reader δ (some cfg) : Option (Reader σ)) (frames bs)
  | .poll s, bs | .count s _, bs => turns (some s.reader) (frames bs)
  | .read s f got, bs => turns (s.map (·.reader)) (frames (f.raw got ++ bs))
  | .apply s cmd, bs => .cmd cmd :: turns (s.map (·.reader)) (frames bs)
  | .status s _ _, bs => turns (s.map (·.reader)) (frames bs)
  | .push s data, bs => .push data :: turns (some s.reader) (frames bs)
  | .finish _, _ | .done, _ => []

def Stage.future : Stage σ → Bytes → List Act
  | .away, _ => []
  | .queued, bs => meaning σ δ u bs
  | .heading got, bs => meaning σ δ u (got ++ bs)
  | .served th, bs => th.future δ u bs

end

/-! ### What a run has done -/

def ThreadEvent.acts : ThreadEvent → List Act
  | .applied cmd => [.cmd cmd]
  | .mixer (.pushed _ cells) => [.push (Mixer.bytes cells)]
  | _ => []

def Event.actsOf (c : ℕ) : Event → List Act
  | .thread d e => if d = c then e.acts else []
  | _ => []

/-- What connection `c` has had the server do. -/
def acts (c : ℕ) (tr : List Event) : List Act := tr.flatMap (Event.actsOf c)

/-- What its peer has sent. -/
def sent (c : ℕ) (is : List Input) : Bytes :=
  is.flatMap fun
    | .send d data => if d = c then data else []
    | _ => []

theorem acts_append (c : ℕ) (tr tr' : List Event) : acts c (tr ++ tr') = acts c tr ++ acts c tr' :=
  List.flatMap_append

theorem acts_thread (c d : ℕ) (fs : List ThreadEvent) :
    acts c (fs.map (.thread d)) = if d = c then fs.flatMap ThreadEvent.acts else [] := by
  rw [acts, List.flatMap_map]
  split
  · rename_i h
    exact List.flatMap_congr fun e _ => if_pos h
  · rename_i h
    exact List.flatMap_eq_nil_iff.mpr fun e _ => if_neg h

theorem acts_mixer (c : ℕ) (es : List Mixer.Event) : acts c (es.map .mixer) = [] := by
  rw [acts, List.flatMap_map]
  exact List.flatMap_eq_nil_iff.mpr fun _ _ => rfl

theorem sent_snoc (c : ℕ) (is : List Input) (i : Input) :
    sent c (is ++ [i]) = sent c is ++ sent c [i] :=
  List.flatMap_append

/-! ### One step of a thread -/

section

variable {σ : Type*} [PackArith σ]

@[simp] theorem turns_nil (r : Option (Reader σ)) : turns r [] = [] := by
  cases r <;> rfl

@[simp] theorem turns_cmd (r : Option (Reader σ)) (c : Cmd) (es : List ReaderEvent) :
    turns r (.cmd c :: es) = .cmd c :: turns r es := by
  cases r <;> rfl

theorem Field.size_pos {f : Field} {got : Bytes} (h : f.Fits got) : 0 < f.size := by
  have hlt := h.1
  omega

theorem Field.most_le (f : Field) (got : Bytes) : f.most got ≤ f.size - got.length := by
  cases f with
  | data n => exact Nat.min_le_left ..
  | len | op | volume => exact le_refl _

theorem Field.raw_append (f : Field) (got bs : Bytes) : f.raw got ++ bs = f.raw (got ++ bs) := by
  cases f <;> simp [Field.raw]

theorem Peer.read_spec {p q : Peer} {max : ℕ} {a : Answer} {r : Except ReadError Bytes}
    (h : p.read max a = some (r, q)) :
    (q = p ∧ ∀ d, r = .ok d → d = []) ∨
      ∃ b bs, r = .ok (b :: bs) ∧ p.unread = (b :: bs) ++ q.unread ∧ (b :: bs).length ≤ max ∧
        q.closed = p.closed := by
  cases a with
  | error e =>
    cases h
    exact .inl ⟨rfl, fun _ hd => by cases hd⟩
  | bytes k =>
    simp only [Peer.read] at h
    split at h
    · split at h <;> cases h
      exact .inl ⟨rfl, fun _ hd => by cases hd; rfl⟩
    · rename_i b bs hun
      split at h
      · rename_i hk
        obtain ⟨k, rfl⟩ := Nat.exists_eq_succ_of_ne_zero (Nat.pos_iff_ne_zero.mp hk.1)
        cases h
        refine .inr ⟨b, bs.take k, rfl, ?_, ?_, rfl⟩
        · rw [hun]
          exact (List.take_append_drop (k + 1) (b :: bs)).symm
        · rw [List.length_cons, List.length_take]
          omega
      · cases h

variable {δ : Type*} [WideArith δ] [FloatCasts δ σ] {u : Setup}

variable (δ u) in
/-- The thread is to do what `spoken` makes of the bytes to come, or has left. -/
def Thread.Does (th : Thread σ) (spoken : Bytes → List Act) : Prop :=
  th.Fits ∧ ∀ bs, th.future δ u bs <+: spoken bs ∧ (¬ th.Gone → th.future δ u bs = spoken bs)

theorem Thread.does_leave (s : Option (Stream σ)) (spoken : Bytes → List Act) :
    (Thread.leave s).Does δ u spoken := by
  cases s with
  | none => exact ⟨trivial, fun bs => ⟨List.nil_prefix, fun h => absurd trivial h⟩⟩
  | some s => exact ⟨trivial, fun bs => ⟨List.nil_prefix, fun h => absurd trivial h⟩⟩

theorem Thread.does_of_eq {th : Thread σ} {spoken : Bytes → List Act} (hfits : th.Fits)
    (h : ∀ bs, th.future δ u bs = spoken bs) : th.Does δ u spoken :=
  ⟨hfits, fun bs => ⟨h bs ▸ List.prefix_refl _, fun _ => h bs⟩⟩

theorem decode_op (s : Option (Stream σ)) {op : Byte} (h : op ≠ msgVolume) :
    Thread.decode s .op [op] =
      (Cmd.read op []).elim (some (.leave s)) fun r => some (.apply s r.1) := by
  simp only [Thread.decode, List.headD_cons, h, if_false]
  cases Cmd.read op [] <;> rfl

section

variable {s : Option (Stream σ)} {d : Bytes} {th : Thread σ}

theorem decode_len (hlen : d.length = 4) (h : Thread.decode s .len d = some th) :
    th.Does δ u fun bs => turns (s.map (·.reader)) (frames (Field.raw .len d ++ bs)) := by
  simp only [Thread.decode] at h
  have hback : leBytes 4 (leVal d) = d := leBytes_leVal hlen
  split at h
  · rename_i hzero
    cases h
    rw [hzero] at hback
    refine Thread.does_of_eq ⟨Nat.zero_lt_one, trivial⟩ fun bs => ?_
    rw [Thread.future, Field.raw, Field.raw, hback, List.append_nil]
  · rename_i hne
    cases s with
    | none =>
      cases h
      exact Thread.does_leave none _
    | some s =>
      cases h
      have hbound := leVal_lt d
      rw [hlen] at hbound
      refine Thread.does_of_eq ⟨Nat.pos_of_ne_zero hne, hbound⟩ fun bs => ?_
      rw [Thread.future, Field.raw, Field.raw, hback, List.append_nil]

theorem decode_opcode {op : Byte} (h : Thread.decode s .op [op] = some th) :
    th.Does δ u fun bs => turns (s.map (·.reader)) (frames (Field.raw .op [op] ++ bs)) := by
  by_cases hvol : op = msgVolume
  · subst hvol
    cases h
    refine Thread.does_of_eq ⟨by decide, trivial⟩ fun bs => ?_
    simp [Thread.future, Field.raw]
  · have hframe : ∀ bs, frameOf (Field.raw .op [op] ++ bs) =
        (Cmd.read op []).map fun r => (.cmd r.1, bs) := fun bs => by
      rw [Field.raw, List.append_assoc, frameOf_zero]
      exact if_neg hvol
    rw [decode_op s hvol] at h
    cases hread : Cmd.read op [] with
    | none =>
      rw [hread] at h
      cases h
      exact Thread.does_leave s _
    | some r =>
      rw [hread] at h
      cases h
      refine Thread.does_of_eq trivial fun bs => ?_
      rw [frames_some (by rw [hframe, hread]; rfl), turns_cmd]
      rfl

theorem decode_volume (hlen : d.length = 4) (h : Thread.decode s .volume d = some th) :
    th.Does δ u fun bs => turns (s.map (·.reader)) (frames (Field.raw .volume d ++ bs)) := by
  cases h
  refine Thread.does_of_eq trivial fun bs => ?_
  have hframe : frameOf (Field.raw .volume d ++ bs) =
      some (.cmd (.volume (leVal d)), bs) := by
    rw [Field.raw, List.append_assoc, frameOf_zero]
    change (if msgVolume = msgVolume then
      if (d ++ bs).length < 4 then none
      else some (ReaderEvent.cmd (.volume (leVal ((d ++ bs).take 4))), (d ++ bs).drop 4)
      else _) = _
    rw [if_pos rfl, if_neg (by rw [List.length_append]; omega), List.take_left' hlen,
      List.drop_left' hlen]
  rw [frames_some hframe, turns_cmd]
  rfl

theorem decode_data (hne : d ≠ []) (hlt : d.length < 256 ^ 4)
    (h : Thread.decode s (.data d.length) d = some th) :
    th.Does δ u fun bs =>
      turns (s.map (·.reader)) (frames (Field.raw (.data d.length) d ++ bs)) := by
  have hn : d.length ≠ 0 := fun h0 => hne (List.length_eq_zero_iff.mp h0)
  have hframe : ∀ bs, frames (Field.raw (.data d.length) d ++ bs) = .chunk d :: frames bs :=
    fun bs => by
      refine frames_some ?_
      rw [Field.raw, List.append_assoc, frameOf_data hn hlt,
        if_neg (by rw [List.length_append]; omega), List.take_left' rfl, List.drop_left' rfl]
  cases s with
  | none =>
    cases h
    exact Thread.does_leave none _
  | some s =>
    obtain ⟨⟨r, out⟩, hchunk, rfl⟩ := Option.map_eq_some_iff.mp h
    cases out with
    | none =>
      have hturns : ∀ bs, turns (some s.reader) (.chunk d :: frames bs) =
          turns (some r) (frames bs) := fun bs => by simp only [turns, hchunk]
      exact Thread.does_of_eq trivial fun bs => by rw [hframe]; exact (hturns bs).symm
    | some out =>
      have hturns : ∀ bs, turns (some s.reader) (.chunk d :: frames bs) =
          .push out :: turns (some r) (frames bs) := fun bs => by simp only [turns, hchunk]
      exact Thread.does_of_eq trivial fun bs => by rw [hframe]; exact (hturns bs).symm

/- A field that has arrived: the thread goes on with the frame, does what it says, or
leaves. -/
theorem decode_does {f : Field} (hlen : d.length = f.size) (hlt : d.length < 256 ^ 4)
    (hpos : 0 < f.size) (h : Thread.decode s f d = some th) :
    th.Does δ u fun bs => turns (s.map (·.reader)) (frames (f.raw d ++ bs)) := by
  cases f with
  | len => exact decode_len hlen h
  | op =>
    obtain ⟨op, rfl⟩ := List.length_eq_one_iff.mp hlen
    exact decode_opcode h
  | volume => exact decode_volume hlen h
  | data n =>
    have hn : n = d.length := hlen.symm
    subst hn
    exact decode_data (List.ne_nil_of_length_pos hpos) hlt h

end

/-- The steps of the mixer that push nothing, and are not its own. -/
def Aside : Mixer.Input → Prop
  | .push _ _ | .mix _ => False
  | _ => True

theorem mixed_aside {g g' : Shared} {j : Mixer.Input} {fs : List ThreadEvent} (hj : Aside j)
    (h : g.mixed j = some (g', fs)) : fs.flatMap ThreadEvent.acts = [] := by
  obtain ⟨es, hstep, rfl⟩ := mixed_cases h
  generalize g'.mixer = m at hstep
  cases j with
  | mix delay => exact hj.elim
  | push id data => exact hj.elim
  | register _ | elapse _ | setMuted _ | setVolume _ =>
    cases hstep
    rfl
  | requestFlush id | finish id =>
    simp only [Mixer.step] at hstep
    split at hstep <;> cases hstep
    rfl

theorem mixed_push {g g' : Shared} {id : ℕ} {data : Bytes} {fs : List ThreadEvent}
    (h : g.mixed (.push id data) = some (g', fs)) :
    fs.flatMap ThreadEvent.acts = [.push data] := by
  obtain ⟨es, hstep, rfl⟩ := mixed_cases h
  generalize g'.mixer = m at hstep
  simp only [Mixer.step] at hstep
  split at hstep
  · obtain ⟨ring, -, hstep⟩ := Option.map_eq_some_iff.mp hstep
    cases hstep
    simp [ThreadEvent.acts, Mixer.bytes, Function.comp_def]
  · cases hstep

theorem applyInput_aside {id : Option ℕ} {cmd : Cmd} {j : Mixer.Input}
    (h : applyInput id cmd = some j) : Aside j := by
  cases cmd with
  | flush =>
    obtain ⟨i, -, rfl⟩ := Option.map_eq_some_iff.mp h
    trivial
  | status => cases h
  | mute | unmute | volume bits =>
    cases h
    trivial

variable (δ u) in
/-- With `done` and what it is still to do, a thread has what it was to do before, or it has
left. -/
def Moves (p : Peer) (th : Thread σ) (done : List Act) (p' : Peer) (th' : Thread σ) : Prop :=
  th'.Fits ∧ ∀ more,
    done ++ th'.future δ u (p'.unread ++ more) <+: th.future δ u (p.unread ++ more) ∧
    (¬ th'.Gone → done ++ th'.future δ u (p'.unread ++ more) = th.future δ u (p.unread ++ more))

theorem moves_of_eq {p p' : Peer} {th th' : Thread σ} {done : List Act} (hfits : th'.Fits)
    (h : ∀ more, done ++ th'.future δ u (p'.unread ++ more) = th.future δ u (p.unread ++ more)) :
    Moves δ u p th done p' th' :=
  ⟨hfits, fun more => ⟨h more ▸ List.prefix_refl _, fun _ => h more⟩⟩

theorem moves_of_gone {p p' : Peer} {th th' : Thread σ} (hgone : th'.Gone) :
    Moves δ u p th [] p' th' := by
  cases th' with
  | finish _ | done => exact ⟨trivial, fun _ => ⟨List.nil_prefix, fun h => absurd trivial h⟩⟩
  | start _ | limit _ | register _ | poll _ | read _ _ _ | apply _ _ | status _ _ _ | push _ _
  | count _ _ => exact hgone.elim

theorem moves_leave {p p' : Peer} {th : Thread σ} (s : Option (Stream σ)) :
    Moves δ u p th [] p' (.leave s) := by
  cases s with
  | none => exact moves_of_gone trivial
  | some s => exact moves_of_gone trivial

omit [PackArith σ] in
theorem received_acts (r : Except ReadError Bytes) :
    (received r).flatMap ThreadEvent.acts = [] := by
  unfold received
  split <;> rfl

theorem read_moves {s : Option (Stream σ)} {f : Field} {got : Bytes} {g g' : Shared} {p q : Peer}
    {a : Answer} {allowed : Bool} {th : Thread σ} {fs : List ThreadEvent} (hfits : f.Fits got)
    (hs : Thread.step δ u allowed g p a (.read s f got) = some (g', q, th, fs)) :
    fs.flatMap ThreadEvent.acts = [] ∧ Moves δ u p (.read s f got) [] q th := by
  obtain ⟨⟨r, q'⟩, hread, hend⟩ := Option.bind_eq_some_iff.mp hs
  dsimp only at hend
  rcases Peer.read_spec hread with ⟨rfl, hempty⟩ | ⟨b, bs, rfl, hun, hle, -⟩
  · -- nothing has come
    have hprogress : f.progress got r = .failed ∨ f.progress got r = .more got := by
      cases r with
      | ok d =>
        rw [hempty d rfl]
        exact .inl rfl
      | error e =>
        cases e with
        | other => exact .inl rfl
        | interrupted => cases f <;> simp [Field.progress]
    rcases hprogress with h | h
    · rw [h] at hend
      cases hend
      exact ⟨rfl, moves_leave s⟩
    · rw [h] at hend
      cases hend
      exact ⟨received_acts r, moves_of_eq hfits fun _ => rfl⟩
  · -- the bytes go from what is unread to the frame
    have hmost := f.most_le got
    have hfuture : ∀ more, (Thread.read s f got).future δ u (p.unread ++ more) =
        turns (s.map (·.reader)) (frames (f.raw (got ++ b :: bs) ++ (q'.unread ++ more))) := by
      intro more
      rw [Thread.future, hun, List.append_assoc, ← List.append_assoc, Field.raw_append]
    by_cases hmore : (got ++ b :: bs).length < f.size
    · have h : f.progress got (.ok (b :: bs)) = .more (got ++ b :: bs) := if_pos hmore
      rw [h] at hend
      cases hend
      exact ⟨rfl, moves_of_eq ⟨hmore, hfits.2⟩ fun more => (hfuture more).symm⟩
    · have h : f.progress got (.ok (b :: bs)) = .filled (got ++ b :: bs) := if_neg hmore
      rw [h] at hend
      obtain ⟨th', hdecode, hend⟩ := Option.map_eq_some_iff.mp hend
      cases hend
      have hlen : (got ++ b :: bs).length = f.size := by
        have hlt := hfits.1
        rw [List.length_append] at hmore ⊢
        omega
      have hbound : (got ++ b :: bs).length < 256 ^ 4 := by
        rw [hlen]
        cases f with
        | data n => exact hfits.2
        | len | op | volume => decide
      have hdoes := decode_does (δ := δ) (u := u) hlen hbound (Field.size_pos hfits) hdecode
      refine ⟨rfl, hdoes.1, fun more => ?_⟩
      rw [hfuture]
      exact hdoes.2 _

section

variable {allowed : Bool} {g g' : Shared} {p p' : Peer} {a : Answer} {th' : Thread σ}
  {fs : List ThreadEvent}

theorem start_moves {cfg : Option AudioCfg}
    (hs : Thread.step δ u allowed g p a (.start cfg) = some (g', p', th', fs)) :
    Moves δ u p (.start cfg) (fs.flatMap ThreadEvent.acts) p' th' := by
  simp only [Thread.step] at hs
  split at hs
  · split at hs <;> cases hs
    · exact moves_of_eq ⟨by decide, trivial⟩ fun _ => rfl
    · exact moves_of_eq trivial fun _ => rfl
  · cases hs
    exact moves_of_gone trivial

theorem poll_moves {s : Stream σ}
    (hs : Thread.step δ u allowed g p a (.poll s) = some (g', p', th', fs)) :
    Moves δ u p (.poll s) (fs.flatMap ThreadEvent.acts) p' th' := by
  simp only [Thread.step] at hs
  repeat' split at hs
  all_goals cases hs
  · exact moves_of_gone trivial
  · exact moves_of_eq trivial fun _ => rfl
  · exact moves_of_eq ⟨by decide, trivial⟩ fun _ => rfl
  · exact moves_of_eq trivial fun _ => rfl
  · exact moves_of_gone trivial

theorem apply_moves {s : Option (Stream σ)} {cmd : Cmd}
    (hs : Thread.step δ u allowed g p a (.apply s cmd) = some (g', p', th', fs)) :
    Moves δ u p (.apply s cmd) (fs.flatMap ThreadEvent.acts) p' th' := by
  have hturn : ∀ {fs' : List ThreadEvent}, fs'.flatMap ThreadEvent.acts = [] →
      Moves δ u p (.apply s cmd)
        ((ThreadEvent.applied cmd :: fs').flatMap ThreadEvent.acts) p (.turn s) := by
    intro fs' hfs
    rw [List.flatMap_cons, hfs, List.append_nil]
    cases s with
    | none => exact moves_of_eq ⟨by decide, trivial⟩ fun _ => rfl
    | some s => exact moves_of_eq trivial fun _ => rfl
  simp only [Thread.step] at hs
  split at hs
  · cases hs
    split
    · exact moves_of_eq trivial fun _ => rfl
    · exact hturn List.flatMap_nil
  · rename_i j hj
    obtain ⟨⟨g₁, fs₁⟩, hm, hs⟩ := Option.map_eq_some_iff.mp hs
    cases hs
    exact hturn (mixed_aside (applyInput_aside hj) hm)

theorem status_moves {s : Option (Stream σ)} {todo : List Load} {st : Status}
    (hs : Thread.step δ u allowed g p a (.status s todo st) = some (g', p', th', fs)) :
    Moves δ u p (.status s todo st) (fs.flatMap ThreadEvent.acts) p' th' := by
  cases todo with
  | nil =>
    cases hs
    cases s with
    | none => exact moves_of_eq ⟨by decide, trivial⟩ fun _ => rfl
    | some s => exact moves_of_eq trivial fun _ => rfl
  | cons l todo =>
    cases hs
    exact moves_of_eq trivial fun _ => rfl

/-- What any step of a thread does, with what the thread is still to do. -/
theorem Thread.step_moves {th : Thread σ} (hfits : th.Fits)
    (hs : Thread.step δ u allowed g p a th = some (g', p', th', fs)) :
    Moves δ u p th (fs.flatMap ThreadEvent.acts) p' th' := by
  cases th with
  | start cfg => exact start_moves hs
  | limit cfg =>
    simp only [Thread.step] at hs
    split at hs <;> cases hs
    · exact moves_of_gone trivial
    · exact moves_of_eq trivial fun _ => rfl
  | register cfg =>
    cases hs
    exact moves_of_eq trivial fun _ => rfl
  | poll s => exact poll_moves hs
  | read s f got =>
    obtain ⟨hacts, hmoves⟩ := read_moves hfits hs
    rw [hacts]
    exact hmoves
  | apply s cmd => exact apply_moves hs
  | status s todo st => exact status_moves hs
  | push s data =>
    obtain ⟨⟨g₁, fs₁⟩, hm, hs⟩ := Option.map_eq_some_iff.mp hs
    cases hs
    rw [mixed_push hm]
    exact moves_of_eq trivial fun _ => rfl
  | count s n =>
    cases hs
    exact moves_of_eq trivial fun _ => rfl
  | finish id =>
    obtain ⟨⟨g₁, fs₁⟩, hm, hs⟩ := Option.map_eq_some_iff.mp hs
    cases hs
    have haside : Aside (.finish id) := trivial
    rw [mixed_aside haside hm]
    exact moves_of_gone trivial
  | done => cases hs

end

/-! ### A connection from its first byte on -/

omit [PackArith σ] in
theorem stage_congr {s s' : Server σ} {c : ℕ} (hthreads : s'.threads c = s.threads c)
    (hloop : s'.loop.got c = s.loop.got c) (hback : c ∈ s'.backlog ↔ c ∈ s.backlog) :
    s'.stage c = s.stage c := by
  unfold Server.stage
  rw [hthreads, hloop]
  simp only [hback]

omit [PackArith σ] in
theorem stage_served {s : Server σ} {c : ℕ} {th : Thread σ} (h : s.threads c = some th) :
    s.stage c = .served th := by
  unfold Server.stage
  rw [h]

omit [PackArith σ] in
theorem stage_heading {s : Server σ} {c : ℕ} {got : Bytes} (hthread : s.threads c = none)
    (hgot : s.loop.got c = some got) : s.stage c = .heading got := by
  unfold Server.stage
  rw [hthread, hgot]

omit [PackArith σ] in
theorem stage_queued {s : Server σ} {c : ℕ} (hthread : s.threads c = none)
    (hgot : s.loop.got c = none) (hback : c ∈ s.backlog) : s.stage c = .queued := by
  unfold Server.stage
  rw [hthread, hgot]
  exact if_pos hback

omit [PackArith σ] in
theorem stage_away {s : Server σ} {c : ℕ} (hthread : s.threads c = none)
    (hgot : s.loop.got c = none) (hback : c ∉ s.backlog) : s.stage c = .away := by
  unfold Server.stage
  rw [hthread, hgot]
  exact if_neg hback

def Stage.Fits : Stage σ → Prop
  | .heading got => got.length < hdrSz
  | .served th => th.Fits
  | _ => True

/-- The connection has not been given up. -/
def Stage.Open : Stage σ → Prop
  | .away => False
  | .queued | .heading _ => True
  | .served th => ¬ th.Gone

variable (δ u) in
/-- What a connection has done is the beginning of what the bytes sent say, and of what they
will say with any more of them; with what is to come all of it, unless it is given up. -/
structure Told (st : Stage σ) (p : Option Peer) (bs : Bytes) (done : List Act) : Prop where
  fits : st.Fits
  absent : p = none → bs = [] ∧ done = []
  isPrefix : ∀ q, p = some q → ∀ more,
    done ++ st.future δ u (q.unread ++ more) <+: meaning σ δ u (bs ++ more)
  whole : ∀ q, p = some q → st.Open → ∀ more,
    done ++ st.future δ u (q.unread ++ more) = meaning σ δ u (bs ++ more)

namespace Told

variable {st : Stage σ} {p : Peer} {bs : Bytes} {done : List Act}

theorem connect : Told δ u (.queued : Stage σ) (some ⟨[], false⟩) [] [] := by
  refine ⟨trivial, fun h => (by cases h), ?_, ?_⟩
  · rintro q ⟨⟩ more
    exact List.prefix_refl _
  · rintro q ⟨⟩ - more
    rfl

theorem send (h : Told δ u st (some p) bs done) (data : Bytes) :
    Told δ u st (some { p with unread := p.unread ++ data }) (bs ++ data) done := by
  refine ⟨h.fits, fun hnone => (by cases hnone), ?_, ?_⟩
  · rintro q ⟨⟩ more
    rw [List.append_assoc, List.append_assoc]
    exact h.isPrefix p rfl (data ++ more)
  · rintro q ⟨⟩ hopen more
    rw [List.append_assoc, List.append_assoc]
    exact h.whole p rfl hopen (data ++ more)

theorem hangup (h : Told δ u st (some p) bs done) :
    Told δ u st (some { p with closed := true }) bs done := by
  refine ⟨h.fits, fun hnone => (by cases hnone), ?_, ?_⟩
  · rintro q ⟨⟩ more
    exact h.isPrefix p rfl more
  · rintro q ⟨⟩ hopen more
    exact h.whole p rfl hopen more

theorem drop (h : Told δ u st (some p) bs done) (q : Peer) :
    Told δ u (.away : Stage σ) (some q) bs done := by
  refine ⟨trivial, fun hnone => (by cases hnone), ?_, fun _ _ hopen => hopen.elim⟩
  rintro q' - more
  rw [Stage.future, List.append_nil]
  exact (List.prefix_append ..).trans (h.isPrefix p rfl more)

theorem go (h : Told δ u st (some p) bs done) {st' : Stage σ} {q : Peer} (hfits : st'.Fits)
    (hopen : st.Open)
    (heq : ∀ more, st'.future δ u (q.unread ++ more) = st.future δ u (p.unread ++ more)) :
    Told δ u st' (some q) bs done := by
  refine ⟨hfits, fun hnone => (by cases hnone), ?_, ?_⟩
  · rintro q' ⟨⟩ more
    rw [heq]
    exact h.isPrefix p rfl more
  · rintro q' ⟨⟩ - more
    rw [heq]
    exact h.whole p rfl hopen more

theorem thread {th th' : Thread σ} {q : Peer} {new : List Act}
    (h : Told δ u (.served th) (some p) bs done) (hmoves : Moves δ u p th new q th')
    (hgone : th.Gone → th'.Gone) : Told δ u (.served th') (some q) bs (done ++ new) := by
  refine ⟨hmoves.1, fun hnone => (by cases hnone), ?_, ?_⟩
  · rintro q' ⟨⟩ more
    rw [List.append_assoc]
    exact ((List.prefix_append_right_inj done).mpr (hmoves.2 more).1).trans (h.isPrefix p rfl more)
  · rintro q' ⟨⟩ hopen more
    rw [List.append_assoc, Stage.future, (hmoves.2 more).2 hopen]
    exact h.whole p rfl (fun hg => hopen (hgone hg)) more

end Told

omit [PackArith σ] in
theorem Thread.Gone.step [PackArith σ] {allowed : Bool} {g g' : Shared} {p p' : Peer} {a : Answer}
    {th th' : Thread σ} {fs : List ThreadEvent} (hgone : th.Gone)
    (hs : Thread.step δ u allowed g p a th = some (g', p', th', fs)) : th'.Gone := by
  cases th with
  | finish id =>
    obtain ⟨⟨g₁, fs₁⟩, hm, hs⟩ := Option.map_eq_some_iff.mp hs
    cases hs
    trivial
  | done => cases hs
  | start _ | limit _ | register _ | poll _ | read _ _ _ | apply _ _ | status _ _ _ | push _ _
  | count _ _ => exact hgone.elim

theorem meaning_header {hdr : Bytes} (hlen : hdr.length = hdrSz) (bs : Bytes) :
    meaning σ δ u (hdr ++ bs) = (dispatch hdr).elim [] fun cfg =>
      turns (u.reader δ cfg : Option (Reader σ)) (frames bs) := by
  rw [meaning, if_neg (by rw [List.length_append]; omega), List.take_left' hlen,
    List.drop_left' hlen]

/-! ### Runs of the server -/

/-- A connection in the queue or with the loop has no thread, and is in one place. -/
structure Placed (s : Server σ) : Prop where
  nodup : s.backlog.Nodup
  queued : ∀ c ∈ s.backlog, s.peers c ≠ none ∧ s.threads c = none ∧ s.loop.got c = none
  heading : ∀ c, s.loop.got c ≠ none → s.peers c ≠ none ∧ s.threads c = none
  served : ∀ c, s.threads c ≠ none → s.peers c ≠ none

omit [PackArith σ] in
theorem Placed.stage_absent {s : Server σ} (h : Placed s) {c : ℕ} (hc : s.peers c = none) :
    s.stage c = .away := by
  have hthread : s.threads c = none := by
    by_contra hth
    exact h.served c hth hc
  have hloop : s.loop.got c = none := by
    by_contra hgot
    exact (h.heading c hgot).1 hc
  have hback : c ∉ s.backlog := fun hmem => (h.queued c hmem).1 hc
  exact stage_away hthread hloop hback

omit [PackArith σ] in
theorem placed_init (volume : F32) : Placed (Server.init volume : Server σ) :=
  ⟨List.nodup_nil, fun _ h => (List.not_mem_nil h).elim, fun _ h => (h rfl).elim,
    fun _ h => (h rfl).elim⟩

omit [PackArith σ] in
theorem Placed.setPeer {s : Server σ} (h : Placed s) (c : ℕ) (p : Peer) :
    Placed (s.setPeer c p) := by
  have hpeers : ∀ d, s.peers d ≠ none → (s.setPeer c p).peers d ≠ none := fun d hd => by
    rw [s.setPeer_peers]
    split
    · exact Option.some_ne_none p
    · exact hd
  exact ⟨h.nodup, fun d hd => ⟨hpeers d (h.queued d hd).1, (h.queued d hd).2⟩,
    fun d hd => ⟨hpeers d (h.heading d hd).1, (h.heading d hd).2⟩,
    fun d hd => hpeers d (h.served d hd)⟩

variable (δ u) in
def Heard (s : Server σ) (is : List Input) (tr : List Event) : Prop :=
  Placed s ∧ ∀ c, Told δ u (s.stage c) (s.peers c) (sent c is) (acts c tr)

theorem heard_init (volume : F32) : Heard δ u (Server.init volume : Server σ) [] [] :=
  ⟨placed_init volume, fun _ => ⟨trivial, fun _ => ⟨rfl, rfl⟩, fun _ h => (by cases h),
    fun _ h => (by cases h)⟩⟩

section

variable {s s' : Server σ} {is : List Input} {tr es : List Event}

theorem Heard.same (h : Heard δ u s is tr) {d : ℕ} {i : Input} (hstage : s'.stage d = s.stage d)
    (hpeer : s'.peers d = s.peers d) (hsent : sent d [i] = []) (hacts : acts d es = []) :
    Told δ u (s'.stage d) (s'.peers d) (sent d (is ++ [i])) (acts d (tr ++ es)) := by
  rw [hstage, hpeer, sent_snoc, hsent, List.append_nil, acts_append, hacts, List.append_nil]
  exact h.2 d

theorem Heard.connect (h : Heard δ u s is tr) {c : ℕ} (hc : s.peers c = none) :
    Heard δ u { s.setPeer c ⟨[], false⟩ with backlog := s.backlog ++ [c] }
      (is ++ [.connect c]) (tr ++ []) := by
  have haway := h.1.stage_absent hc
  have hnot : c ∉ s.backlog := fun hmem => (h.1.queued c hmem).1 hc
  have hthread : s.threads c = none := by
    by_contra hth
    exact h.1.served c hth hc
  have hloop : s.loop.got c = none := by
    by_contra hgot
    exact (h.1.heading c hgot).1 hc
  have hplaced := h.1.setPeer c ⟨[], false⟩
  refine ⟨⟨?_, ?_, hplaced.heading, hplaced.served⟩, fun d => ?_⟩
  · exact List.nodup_append.mpr ⟨h.1.nodup, List.nodup_singleton c, fun a ha b hb hab =>
      hnot (List.mem_singleton.mp hb ▸ hab ▸ ha)⟩
  · intro d hd
    rcases List.mem_append.mp hd with hd | hd
    · exact hplaced.queued d hd
    · rw [List.mem_singleton.mp hd]
      refine ⟨?_, hthread, hloop⟩
      show Function.update s.peers c _ c ≠ none
      rw [Function.update_self]
      exact Option.some_ne_none _
  · by_cases hd : d = c
    · subst hd
      have hold := (h.2 d).absent hc
      have hstage : ({ s.setPeer d ⟨[], false⟩ with backlog := s.backlog ++ [d] } :
          Server σ).stage d = .queued :=
        stage_queued hthread hloop (List.mem_append_right _ (List.mem_singleton_self d))
      have hpeer : ({ s.setPeer d ⟨[], false⟩ with backlog := s.backlog ++ [d] } :
          Server σ).peers d = some ⟨[], false⟩ := Function.update_self ..
      rw [hstage, hpeer, sent_snoc, hold.1, List.append_nil, hold.2]
      exact Told.connect
    · refine h.same (stage_congr rfl rfl ?_) (Function.update_of_ne hd ..) rfl rfl
      simp [hd]

theorem Heard.send (h : Heard δ u s is tr) {c : ℕ} {p : Peer} (hp : s.peers c = some p)
    (data : Bytes) :
    Heard δ u (s.setPeer c { p with unread := p.unread ++ data }) (is ++ [.send c data])
      (tr ++ []) := by
  refine ⟨h.1.setPeer c _, fun d => ?_⟩
  by_cases hd : d = c
  · subst hd
    have hold := h.2 d
    rw [hp] at hold
    have hpeer : (s.setPeer d { p with unread := p.unread ++ data }).peers d =
        some { p with unread := p.unread ++ data } := Function.update_self ..
    have hsent : sent d [.send d data] = data := by simp [sent]
    rw [hpeer, sent_snoc, hsent, List.append_nil]
    exact hold.send data
  · refine h.same rfl (Function.update_of_ne hd ..) ?_ rfl
    simp [sent, Ne.symm hd]

theorem Heard.hangup (h : Heard δ u s is tr) {c : ℕ} {p : Peer} (hp : s.peers c = some p) :
    Heard δ u (s.setPeer c { p with closed := true }) (is ++ [.hangup c]) (tr ++ []) := by
  refine ⟨h.1.setPeer c _, fun d => ?_⟩
  by_cases hd : d = c
  · subst hd
    have hold := h.2 d
    rw [hp] at hold
    have hpeer : (s.setPeer d { p with closed := true }).peers d =
        some { p with closed := true } := Function.update_self ..
    have hsent : sent d [.hangup d] = [] := rfl
    rw [hpeer, sent_snoc, hsent, List.append_nil, List.append_nil]
    exact hold.hangup
  · exact h.same rfl (Function.update_of_ne hd ..) rfl rfl

theorem Heard.thread (h : Heard δ u s is tr) {c : ℕ} {a : Answer}
    (hs : s.threadStep δ u c a = some (s', es)) :
    Heard δ u s' (is ++ [.thread c a]) (tr ++ es) := by
  obtain ⟨p, th, g, q, th', fs, hp, hth, hstep, rfl, rfl⟩ := threadStep_cases hs
  have hloop : s.loop.got c = none := by
    by_contra hgot
    rw [(h.1.heading c hgot).2] at hth
    cases hth
  have hback : c ∉ s.backlog := fun hmem => by
    rw [(h.1.queued c hmem).2.1] at hth
    cases hth
  have hplaced := h.1.setPeer c q
  have hthreads : ∀ d, d ≠ c → Function.update s.threads c (some th') d = s.threads d :=
    fun d hd => Function.update_of_ne hd ..
  refine ⟨⟨h.1.nodup, fun d hd => ?_, fun d hd => ?_, fun d hd => ?_⟩, fun d => ?_⟩
  · have hne : d ≠ c := fun heq => hback (heq ▸ hd)
    have hq := hplaced.queued d hd
    exact ⟨hq.1, (hthreads d hne).trans hq.2.1, hq.2.2⟩
  · have hne : d ≠ c := fun heq => hd (heq ▸ hloop)
    have hg := hplaced.heading d hd
    exact ⟨hg.1, (hthreads d hne).trans hg.2⟩
  · by_cases hdc : d = c
    · subst hdc
      have hsome : s.threads d ≠ none := by
        rw [hth]
        exact Option.some_ne_none th
      exact hplaced.served d hsome
    · have hsome : s.threads d ≠ none := hthreads d hdc ▸ hd
      exact hplaced.served d hsome
  · by_cases hd : d = c
    · subst hd
      have hold := h.2 d
      have hstage : s.stage d = .served th := stage_served hth
      have hstage' : ({ s.setPeer d q with
          shared := g, threads := Function.update s.threads d (some th') } : Server σ).stage d =
          .served th' := stage_served (Function.update_self ..)
      have hpeer : ({ s.setPeer d q with
          shared := g, threads := Function.update s.threads d (some th') } : Server σ).peers d =
          some q := Function.update_self ..
      have hsent : sent d [.thread d a] = [] := rfl
      rw [hstage, hp] at hold
      rw [hstage', hpeer, sent_snoc, hsent, List.append_nil, acts_append, acts_thread, if_pos rfl]
      exact hold.thread (Thread.step_moves hold.fits hstep) fun hgone => hgone.step hstep
    · refine h.same (stage_congr (hthreads d hd) rfl Iff.rfl) (Function.update_of_ne hd ..) rfl ?_
      rw [acts_thread, if_neg (Ne.symm hd)]

theorem Heard.accept (h : Heard δ u s is tr) {c deadline : ℕ} {rest : List ℕ} (a : Answer)
    (hl : s.loop = .accept) (hback : s.backlog = c :: rest) :
    Heard δ u { s with backlog := rest, loop := .header c [] deadline } (is ++ [.loop a])
      (tr ++ [.accepted c]) := by
  have hnodup := h.1.nodup
  rw [hback] at hnodup
  have hnot : c ∉ rest := (List.nodup_cons.mp hnodup).1
  have hmem : ∀ d ∈ rest, d ∈ s.backlog := fun d hd => hback ▸ List.mem_cons_of_mem c hd
  have hnone : ∀ d, s.loop.got d = none := fun d => by
    rw [hl]
    rfl
  obtain ⟨hpeer, hthread, -⟩ := h.1.queued c (hback ▸ List.mem_cons_self ..)
  have hgot : ∀ d, d ≠ c → (LoopPc.header c [] deadline).got d = none := fun d hd =>
    if_neg (Ne.symm hd)
  refine ⟨⟨(List.nodup_cons.mp hnodup).2, fun d hd => ?_, fun d hd => ?_, h.1.served⟩, fun d => ?_⟩
  · have hq := h.1.queued d (hmem d hd)
    exact ⟨hq.1, hq.2.1, hgot d fun heq => hnot (heq ▸ hd)⟩
  · by_cases hdc : d = c
    · rw [hdc]
      exact ⟨hpeer, hthread⟩
    · exact absurd (hgot d hdc) hd
  · by_cases hd : d = c
    · subst hd
      obtain ⟨p, hp⟩ := Option.ne_none_iff_exists'.mp hpeer
      have hold := h.2 d
      have hstage : s.stage d = .queued :=
        stage_queued hthread (hnone d) (hback ▸ List.mem_cons_self ..)
      have hstage' : ({ s with backlog := rest, loop := .header d [] deadline } :
          Server σ).stage d = .heading [] := stage_heading hthread (if_pos rfl)
      have hsent : sent d [.loop a] = [] := rfl
      have hacts : acts d [.accepted d] = [] := rfl
      rw [hstage, hp] at hold
      rw [hstage', sent_snoc, hsent, List.append_nil, acts_append, hacts, List.append_nil]
      show Told δ u _ (s.peers d) _ _
      rw [hp]
      exact hold.go (by simp [Stage.Fits, hdrSz]) trivial fun _ => rfl
    · refine h.same (stage_congr rfl ?_ ?_) rfl rfl rfl
      · rw [hnone d]
        exact hgot d hd
      · rw [hback, List.mem_cons]
        exact ⟨.inr, fun hor => hor.resolve_left hd⟩

theorem Heard.turn (h : Heard δ u s is tr) (a : Answer) {pc : LoopPc}
    (hl : ∀ d, s.loop.got d = none) (hpc : ∀ d, pc.got d = none) :
    Heard δ u { s with loop := pc } (is ++ [.loop a]) (tr ++ []) := by
  refine ⟨⟨h.1.nodup, fun d hd => ?_, fun d hd => absurd (hpc d) hd, h.1.served⟩, fun d => ?_⟩
  · have hq := h.1.queued d hd
    exact ⟨hq.1, hq.2.1, hpc d⟩
  · exact h.same (stage_congr rfl ((hpc d).trans (hl d).symm) Iff.rfl) rfl rfl rfl

/-- Where a read of the header brings the connection. -/
def HeaderRead.stage (hd : HeaderRead) (c : ℕ) : Stage σ :=
  hd.started.elim ((hd.loop.got c).elim .away .heading) fun cfg => .served (.start cfg)

theorem headerRead_told {now c deadline : ℕ} {got : Bytes} {p q : Peer} {a : Answer}
    {r : Except ReadError Bytes} {bs : Bytes} {done : List Act}
    (h : Told δ u (.heading got : Stage σ) (some p) bs done)
    (hr : p.read (hdrSz - got.length) a = some (r, q)) :
    Told δ u ((headerRead now c got deadline r).stage c : Stage σ) (some q) bs done := by
  have hdrop : ∀ es, Told δ u ((HeaderRead.drop c es).stage c : Stage σ) (some q) bs done :=
    fun es => h.drop q
  have hstill : ∀ got' es, (HeaderRead.stage ⟨.header c got' deadline, none, es⟩ c : Stage σ) =
      .heading got' := fun got' es => by
    simp [HeaderRead.stage, LoopPc.got]
  rcases Peer.read_spec hr with ⟨rfl, hempty⟩ | ⟨b, rest, rfl, hun, hle, -⟩
  · have hnone : ∀ b rest, r ≠ .ok (b :: rest) := fun b rest heq => by
      cases hempty _ heq
    rcases headerRead_none now c got deadline hnone with heq | heq
    · rw [heq]
      exact hdrop []
    · rw [heq, hstill]
      exact h
  · have hall : ∀ more, got ++ (p.unread ++ more) = (got ++ b :: rest) ++ (q.unread ++ more) :=
      fun more => by rw [hun, List.append_assoc, List.append_assoc]
    by_cases hshort : (got ++ b :: rest).length < hdrSz
    · have heq : headerRead now c got deadline (.ok (b :: rest)) =
          ⟨.header c (got ++ b :: rest) deadline, none, [.header c (b :: rest)]⟩ := if_pos hshort
      rw [heq, hstill]
      refine h.go hshort trivial fun more => ?_
      simp only [Stage.future, hall]
    · have hlen : (got ++ b :: rest).length = hdrSz := by
        have hfits : got.length < hdrSz := h.fits
        rw [List.length_append] at hshort ⊢
        omega
      cases hdisp : dispatch (got ++ b :: rest) with
      | none =>
        have heq : headerRead now c got deadline (.ok (b :: rest)) =
            .drop c [.header c (b :: rest)] := by
          simp only [headerRead, if_neg hshort, hdisp]
        rw [heq]
        exact hdrop _
      | some cfg =>
        have heq : headerRead now c got deadline (.ok (b :: rest)) =
            ⟨.top, some cfg, [.header c (b :: rest)]⟩ := by
          simp only [headerRead, if_neg hshort, hdisp]
        have hserved : (HeaderRead.stage ⟨.top, some cfg, [.header c (b :: rest)]⟩ c : Stage σ) =
            .served (.start cfg) := rfl
        rw [heq, hserved]
        refine h.go trivial trivial fun more => ?_
        simp only [Stage.future, hall]
        rw [meaning_header hlen, hdisp]
        rfl

omit [PackArith σ] in
/- A thread is started only when the loop is through with the header. -/
theorem headerRead_started (now c : ℕ) (got : Bytes) (deadline : ℕ) (r : Except ReadError Bytes) :
    (headerRead now c got deadline r).started = none ∨
      (headerRead now c got deadline r).loop = .top := by
  unfold headerRead
  dsimp only
  repeat' split
  all_goals first | exact .inl rfl | exact .inr rfl

theorem acts_ofLoop (h : ∀ e ∈ es, e.OfLoop) (d : ℕ) : acts d es = [] := by
  refine List.flatMap_eq_nil_iff.mpr fun e he => ?_
  cases e with
  | accepted _ | header _ _ | dropped _ | mixer _ => rfl
  | thread _ _ => exact (h _ he).elim

theorem Heard.header_on (h : Heard δ u s is tr) {c : ℕ} {q : Peer} {pc : LoopPc} {a : Answer}
    (hthread : s.threads c = none) (hback : c ∉ s.backlog)
    (hothers : ∀ d, d ≠ c → s.loop.got d = none) (hnone : ∀ d, d ≠ c → pc.got d = none)
    (hacts : ∀ d, acts d es = [])
    (htold : Told δ u ((pc.got c).elim .away .heading : Stage σ) (some q) (sent c is)
      (acts c tr)) :
    Heard δ u { s.setPeer c q with loop := pc } (is ++ [.loop a]) (tr ++ es) := by
  have hpeer : Function.update s.peers c (some q) c = some q := Function.update_self ..
  have hsome : Function.update s.peers c (some q) c ≠ none := by
    rw [hpeer]
    exact Option.some_ne_none q
  have hplaced := h.1.setPeer c q
  refine ⟨⟨h.1.nodup, fun d hmem => ?_, fun d hd' => ?_, hplaced.served⟩, fun d => ?_⟩
  · have hq := hplaced.queued d hmem
    exact ⟨hq.1, hq.2.1, hnone d fun heq => hback (heq ▸ hmem)⟩
  · by_cases hdc : d = c
    · subst hdc
      exact ⟨hsome, hthread⟩
    · exact absurd (hnone d hdc) hd'
  · by_cases hdc : d = c
    · subst hdc
      have hstage : ({ s.setPeer d q with loop := pc } : Server σ).stage d =
          (pc.got d).elim .away .heading := by
        cases hg : pc.got d with
        | none => exact stage_away hthread hg hback
        | some got' => exact stage_heading hthread hg
      rw [sent_snoc, show sent d [.loop a] = [] from rfl, List.append_nil, acts_append, hacts,
        List.append_nil]
      show Told δ u (({ s.setPeer d q with loop := pc } : Server σ).stage d)
        (Function.update s.peers d (some q) d) _ _
      rw [hstage, hpeer]
      exact htold
    · refine h.same (stage_congr rfl ?_ Iff.rfl) (Function.update_of_ne hdc ..) rfl (hacts d)
      rw [hothers d hdc]
      exact hnone d hdc

theorem Heard.header_started (h : Heard δ u s is tr) {c : ℕ} {q : Peer} {cfg : Option AudioCfg}
    {a : Answer} (hback : c ∉ s.backlog) (hothers : ∀ d, d ≠ c → s.loop.got d = none)
    (hacts : ∀ d, acts d es = [])
    (htold : Told δ u (.served (.start cfg) : Stage σ) (some q) (sent c is) (acts c tr)) :
    Heard δ u { (s.setPeer c q).start c cfg with loop := .top } (is ++ [.loop a]) (tr ++ es) := by
  have hpeer : Function.update s.peers c (some q) c = some q := Function.update_self ..
  have hplaced := h.1.setPeer c q
  have hthreads : ∀ d, d ≠ c →
      Function.update s.threads c (some (.start cfg)) d = s.threads d :=
    fun d hdc => Function.update_of_ne hdc ..
  refine ⟨⟨h.1.nodup, fun d hmem => ?_, fun d hd' => absurd rfl hd', fun d hd' => ?_⟩,
    fun d => ?_⟩
  · have hq := hplaced.queued d hmem
    exact ⟨hq.1, (hthreads d fun heq => hback (heq ▸ hmem)).trans hq.2.1, rfl⟩
  · by_cases hdc : d = c
    · subst hdc
      exact hpeer.trans_ne (Option.some_ne_none q)
    · have hsome : s.threads d ≠ none := hthreads d hdc ▸ hd'
      exact hplaced.served d hsome
  · by_cases hdc : d = c
    · subst hdc
      have hstage : ({ (s.setPeer d q).start d cfg with loop := .top } : Server σ).stage d =
          .served (.start cfg) := stage_served (Function.update_self ..)
      rw [sent_snoc, show sent d [.loop a] = [] from rfl, List.append_nil, acts_append, hacts,
        List.append_nil]
      show Told δ u (({ (s.setPeer d q).start d cfg with loop := .top } : Server σ).stage d)
        (Function.update s.peers d (some q) d) _ _
      rw [hstage, hpeer]
      exact htold
    · refine h.same (stage_congr (hthreads d hdc) ?_ Iff.rfl) (Function.update_of_ne hdc ..)
        rfl (hacts d)
      rw [hothers d hdc]
      rfl

theorem Heard.header (h : Heard δ u s is tr) {c deadline : ℕ} {got : Bytes} {a : Answer}
    (hl : s.loop = .header c got deadline) (hs : s.loopStep a = some (s', es)) :
    Heard δ u s' (is ++ [.loop a]) (tr ++ es) := by
  have hacts := acts_ofLoop (loopStep_ofLoop hs)
  obtain ⟨p, q, r, hp, hr, rfl, rfl⟩ := loopStep_header hl hs
  have hgot : s.loop.got c = some got := by
    rw [hl]
    exact if_pos rfl
  have hothers : ∀ d, d ≠ c → s.loop.got d = none := fun d hd => by
    rw [hl]
    exact if_neg (Ne.symm hd)
  have hthread : s.threads c = none :=
    (h.1.heading c (by rw [hgot]; exact Option.some_ne_none _)).2
  have hback : c ∉ s.backlog := fun hmem => by
    rw [(h.1.queued c hmem).2.2] at hgot
    cases hgot
  have hold := h.2 c
  rw [stage_heading hthread hgot, hp] at hold
  have htold : Told δ u ((headerRead s.shared.mixer.now c got deadline r).stage c : Stage σ)
      (some q) _ _ := headerRead_told hold hr
  have hloop := headerRead_loop s.shared.mixer.now c got deadline r
  have hstarted := headerRead_started s.shared.mixer.now c got deadline r
  generalize headerRead s.shared.mixer.now c got deadline r = hd at htold hloop hstarted hacts ⊢
  have hnone : ∀ d, d ≠ c → hd.loop.got d = none := fun d hne => by
    rcases hloop with htop | ⟨got', hsame⟩
    · rw [htop]
      rfl
    · rw [hsame]
      exact if_neg (Ne.symm hne)
  cases hcfg : hd.started with
  | none =>
    rw [HeaderRead.stage, hcfg] at htold
    exact h.header_on hthread hback hothers hnone hacts htold
  | some cfg =>
    rw [HeaderRead.stage, hcfg] at htold
    have htop : hd.loop = .top := hstarted.resolve_left (by rw [hcfg]; exact Option.some_ne_none _)
    rw [htop]
    exact h.header_started hback hothers hacts htold

theorem Heard.step (h : Heard δ u s is tr) {i : Input} (hs : s.step δ u i = some (s', es)) :
    Heard δ u s' (is ++ [i]) (tr ++ es) := by
  have hquiet : ∀ g : Shared, (∀ d, sent d [i] = []) → (∀ d, acts d es = []) →
      Heard δ u { s with shared := g } (is ++ [i]) (tr ++ es) := fun g hsent hacts =>
    ⟨⟨h.1.nodup, h.1.queued, h.1.heading, h.1.served⟩,
      fun d => h.same rfl rfl (hsent d) (hacts d)⟩
  cases i with
  | connect c =>
    simp only [Server.step] at hs
    split at hs
    · rename_i hnone
      cases hs
      exact h.connect hnone
    · cases hs
  | send c data =>
    obtain ⟨p, hp, hs⟩ := Option.bind_eq_some_iff.mp hs
    split at hs <;> cases hs
    exact h.send hp data
  | hangup c =>
    obtain ⟨p, hp, hs⟩ := Option.map_eq_some_iff.mp hs
    cases hs
    exact h.hangup hp
  | loop a =>
    cases hl : s.loop with
    | top =>
      simp only [Server.step, Server.loopStep, hl] at hs
      cases hs
      refine h.turn a (fun d => by rw [hl]; rfl) fun d => ?_
      split <;> rfl
    | accept =>
      simp only [Server.step, Server.loopStep, hl] at hs
      split at hs
      · rename_i hback
        cases hs
        exact h.accept _ hl hback
      · cases hs
        exact h.turn _ (fun d => by rw [hl]; rfl) fun _ => rfl
    | header c got deadline => exact h.header hl hs
    | stopped =>
      simp only [Server.step, Server.loopStep, hl] at hs
      cases hs
  | thread c a => exact h.thread hs
  | mix delay =>
    obtain ⟨rfl, rfl⟩ := Prod.mk.inj (Option.some.inj hs)
    exact hquiet _ (fun _ => rfl) fun d => acts_mixer d _
  | elapse ns | signal =>
    cases hs
    exact hquiet _ (fun _ => rfl) fun _ => rfl

end

/- A frame that is cut short says nothing. -/
theorem frames_raw {f : Field} {got : Bytes} (h : f.Fits got) : frames (f.raw got) = [] := by
  refine frames_none ?_
  cases f with
  | len => exact if_pos h.1
  | op =>
    have hnil : got = [] := List.length_eq_zero_iff.mp (Nat.lt_one_iff.mp h.1)
    rw [Field.raw, frameOf_zero, hnil]
  | volume =>
    rw [Field.raw, frameOf_zero]
    exact (if_pos rfl).trans (if_pos h.1)
  | data n =>
    have hlt : got.length < n := h.1
    rw [Field.raw, frameOf_data (by omega) h.2, if_pos hlt]

theorem Thread.future_listens {th : Thread σ} (h : th.Listens) (hfits : th.Fits) :
    th.future δ u [] = [] := by
  cases th with
  | poll s => rfl
  | read s f got =>
    rw [Thread.future, List.append_nil, frames_raw hfits, turns_nil]
  | start _ | limit _ | register _ | apply _ _ | status _ _ _ | push _ _ | count _ _ | finish _
  | done => exact h.elim

omit [PackArith σ] in
theorem Thread.Listens.not_gone {th : Thread σ} (h : th.Listens) : ¬ th.Gone := by
  cases th <;> first | exact id | exact h.elim

theorem turns_prefix {r : Option (Reader σ)} {es es' : List ReaderEvent} (h : es <+: es') :
    turns r es <+: turns r es' := by
  induction es generalizing r es' with
  | nil =>
    rw [turns_nil]
    exact List.nil_prefix
  | cons e es ih =>
    obtain ⟨tail, rfl⟩ := h
    have htail : es <+: es ++ tail := List.prefix_append ..
    rw [List.cons_append]
    cases e with
    | cmd c =>
      rw [turns_cmd, turns_cmd, List.cons_prefix_cons]
      exact ⟨rfl, ih htail⟩
    | chunk data =>
      cases r with
      | none => exact List.prefix_refl _
      | some r =>
        simp only [turns]
        split
        · exact List.prefix_refl _
        · exact ih htail
        · rw [List.cons_prefix_cons]
          exact ⟨rfl, ih htail⟩

theorem meaning_append (bs more : Bytes) : meaning σ δ u bs <+: meaning σ δ u (bs ++ more) := by
  by_cases hshort : bs.length < hdrSz
  · rw [meaning, if_pos hshort]
    exact List.nil_prefix
  · have hle : hdrSz ≤ bs.length := Nat.le_of_not_lt hshort
    rw [meaning, meaning, if_neg hshort, if_neg (by rw [List.length_append]; omega),
      List.take_append_of_le_length hle, List.drop_append_of_le_length hle]
    cases dispatch (bs.take hdrSz) with
    | none => exact List.prefix_refl _
    | some cfg => exact turns_prefix (frames_append ..)

/-- In every run of the server, for every connection: what it has done is the beginning of
what the bytes sent on it say, and all of what they say when its thread waits with nothing
left to read. -/
theorem run_told (δ : Type*) [WideArith δ] [FloatCasts δ σ] (u : Setup) (volume : F32)
    (is : List Input) {t : Server σ} {tr : List Event}
    (hrun : (Server.machine δ u).run (Server.init volume : Server σ) is = some (t, tr)) (c : ℕ) :
    acts c tr <+: meaning σ δ u (sent c is) ∧
      ∀ th p, t.threads c = some th → th.Listens → t.peers c = some p → p.unread = [] →
        acts c tr = meaning σ δ u (sent c is) := by
  have hheard : Heard δ u t ([] ++ is) ([] ++ tr) :=
    (Server.machine δ u).run_inv_inputs (fun s js tr i s' es h hs => h.step hs)
      (heard_init volume) hrun
  obtain ⟨hfits, habsent, hpre, hwhole⟩ := hheard.2 c
  simp only [List.nil_append] at habsent hpre hwhole
  constructor
  · cases hp : t.peers c with
    | none =>
      rw [(habsent hp).2]
      exact List.nil_prefix
    | some p =>
      have hnow := hpre p hp []
      rw [List.append_nil, List.append_nil] at hnow
      exact (List.prefix_append ..).trans hnow
  · intro th p hth hlistens hp hun
    rw [stage_served hth] at hfits hwhole
    have hnow := hwhole p hp hlistens.not_gone []
    rwa [hun, List.append_nil, List.append_nil, Stage.future, Thread.future_listens hlistens hfits,
      List.append_nil] at hnow

/-- A client that asks for the status, all of it there at once. -/
def askStatus : List Input :=
  [.connect 0, .send 0 (List.replicate 12 0 ++ [0, 0, 0, 0, msgStatus]), .loop (.bytes 0),
    .loop (.bytes 1), .loop (.bytes 12), .thread 0 (.bytes 0), .thread 0 (.bytes 4),
    .thread 0 (.bytes 1)] ++ List.replicate 7 (.thread 0 (.bytes 0))

def rootOnly : Setup := ⟨none, 0, fun _ => some 0, 4, 65536, 48000, "sinc"⟩

def askEvents : List Event :=
  [.accepted 0, .header 0 (List.replicate 12 0), .thread 0 .served,
    .thread 0 (.read [0, 0, 0, 0]), .thread 0 (.read [msgStatus]), .thread 0 (.applied .status),
    .thread 0 (.answered ⟨false, .fin 100, 0, 0, -1⟩)]

theorem run_askStatus : ∃ t,
    (Server.machine ℝ rootOnly).run (Server.init (.fin 100) : Server ℝ) askStatus =
      some (t, askEvents) ∧
      t.threads 0 = some (.read none .len []) ∧ t.peers 0 = some ⟨[], false⟩ :=
  ⟨_, rfl, rfl, rfl⟩

theorem run_told_status : acts 0 askEvents = meaning ℝ ℝ rootOnly (sent 0 askStatus) := by
  obtain ⟨t, hrun, hthread, hpeer⟩ := run_askStatus
  exact (run_told ℝ rootOnly (.fin 100) askStatus hrun 0).2 _ _ hthread trivial hpeer rfl

end

end Audiod.Daemon
