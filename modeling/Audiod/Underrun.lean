import Audiod.Paced

/-!
# A tick after an underrun

The DMA engine does not stop at the write position. A tick that starts with a
frame in some ring reads the delay once; it writes if and only if that reading,
the difference of two positions modulo the ring, is below the target. Once the
DMA engine has passed the write position the reading is close to a full ring.
-/

namespace Audiod.Paced

/-- The readings of the delay, as the byte counts they stand for. -/
def readings (tr : List Event) : List (ℕ × ℕ) :=
  tr.filterMap fun | .mixer (.paced _) p f => some (p, f) | _ => none

def Event.frames : Event → ℕ
  | .mixer (.wrote _ _ out) _ _ => out.length / 4
  | _ => 0

def framesWritten (tr : List Event) : ℕ := (tr.map Event.frames).sum

def Event.isTick : Event → Bool
  | .mixer .tick _ _ => true
  | _ => false

def ticks (tr : List Event) : ℕ := tr.countP Event.isTick

/-- A reading after `p` bytes pushed and `f` fetched leaves room for a frame. -/
def ShowsRoom (p f : ℕ) : Prop := ((p : ℤ) - f) % ringSize < 4 * shimServerFrames

theorem readings_append (a b : List Event) : readings (a ++ b) = readings a ++ readings b :=
  List.filterMap_append

theorem framesWritten_append (a b : List Event) :
    framesWritten (a ++ b) = framesWritten a + framesWritten b := by
  simp [framesWritten]

theorem ticks_append (a b : List Event) : ticks (a ++ b) = ticks a + ticks b :=
  List.countP_append

theorem writable_pos_iff (delay : ℤ) : 0 < Mixer.writable delay ↔ delay < shimServerFrames := by
  simp only [Mixer.writable, Mixer.chunkFrames, shimServerFrames]
  omega

theorem writable_delayFrames_pos_iff {h : Hda} (hp : h.Positions) :
    0 < Mixer.writable h.delayFrames ↔ ShowsRoom h.pushed.length h.fetched.length := by
  rw [writable_pos_iff, ShowsRoom, ← Hda.delayBytes_eq hp, Hda.delayFrames]
  simp only [frameSize, shimServerFrames]
  omega

/-! ### A tick keeps track of a stream with data -/

/-- Where stream `id` is while the tick has not read the delay yet. -/
def Tracks (id : ℕ) (m : Mixer.Mix) : Prop :=
  match m.pc with
  | .recv => id ∈ m.queue ++ m.slots
  | .flushScan _ _ => id ∈ m.slots
  | .flushClear s _ => s ≠ id ∧ id ∈ m.slots
  | .haltScan todo => id ∈ todo ∧ id ∈ m.slots
  | .retain todo kept => id ∈ todo ++ kept
  | .retainFilled s todo kept => s = id ∨ id ∈ todo ++ kept
  | .dryScan todo => id ∈ todo ∧ id ∈ m.slots
  | .pace => id ∈ m.slots
  | _ => False

/-- While it mixes `w` frames, it has data or is going to pop the stream. -/
def Mixes (id w : ℕ) (m : Mixer.Mix) : Prop :=
  match m.pc with
  | .mixFilled todo w' _ had =>
    w' = w ∧ (had = true ∨ id ∈ todo ∧ 4 ≤ (m.streams id).ring.filled)
  | .mixPop _ _ _ w' _ => w' = w
  | .gainLoad w' _ => w' = w
  | .muteLoad w' _ _ => w' = w
  | .push w' _ _ _ => w' = w
  | _ => False

/-- Events that neither concern the backend nor begin a tick. -/
def Silent : Mixer.Event → Prop
  | .tick | .paced _ | .wrote _ _ _ | .stopped => False
  | _ => True

/-- The stream stays in sight, with its frame, and nothing heard of the step is a write. -/
def Tracked (id : ℕ) (p : Mixer.Mix × List Mixer.Event) : Prop :=
  Tracks id p.1 ∧ 4 ≤ (p.1.streams id).ring.filled ∧ ∀ e ∈ p.2, Silent e

section

variable {id : ℕ} {m : Mixer.Mix} {todo kept : List ℕ} {s : ℕ}

theorem tracked_flushScan {flushed : Bool} (delay : ℤ) (h : Tracks id m)
    (hfill : 4 ≤ (m.streams id).ring.filled) (hp : m.pc = .flushScan todo flushed)
    (hnc : ∀ n, .consumed id n ∉ (m.mix delay).2) : Tracked id (m.mix delay) := by
  simp only [Tracks, hp] at h
  cases todo with
  | nil =>
    simp only [Mixer.Mix.mix, hp]
    split
    · exact ⟨⟨h, h⟩, hfill, List.forall_mem_nil _⟩
    · exact ⟨by simpa [Tracks] using h, hfill, List.forall_mem_nil _⟩
  | cons s todo =>
    by_cases hf : (m.streams s).flush = true
    · have hne : s ≠ id := by
        intro heq
        subst heq
        apply hnc (m.streams s).flushesRead
        simp [Mixer.Mix.mix, hp, hf]
      simp only [Mixer.Mix.mix, hp, hf, if_true]
      refine ⟨⟨hne, h⟩, ?_, by simp [Silent]⟩
      simpa [Mixer.Mix.setStream, Function.update_of_ne (Ne.symm hne)] using hfill
    · simp only [Mixer.Mix.mix, hp, hf]
      exact ⟨h, hfill, List.forall_mem_nil _⟩

theorem tracked_flushClear (delay : ℤ) (h : Tracks id m)
    (hfill : 4 ≤ (m.streams id).ring.filled) (hp : m.pc = .flushClear s todo) :
    Tracked id (m.mix delay) := by
  simp only [Tracks, hp] at h
  simp only [Mixer.Mix.mix, hp]
  refine ⟨h.2, ?_, by simp [Silent]⟩
  simpa [Mixer.Mix.setStream, Function.update_of_ne (Ne.symm h.1)] using hfill

/- The two scans for a ring with data do not get past this one. -/
theorem tracked_haltScan (delay : ℤ) (h : Tracks id m)
    (hfill : 4 ≤ (m.streams id).ring.filled) (hp : m.pc = .haltScan todo) :
    Tracked id (m.mix delay) := by
  simp only [Tracks, hp] at h
  cases todo with
  | nil => exact absurd h.1 List.not_mem_nil
  | cons s todo =>
    simp only [Mixer.Mix.mix, hp]
    split
    · rename_i hempty
      have hne : id ≠ s := by
        intro heq
        subst heq
        omega
      exact ⟨⟨(List.mem_cons.mp h.1).resolve_left hne, h.2⟩, hfill, List.forall_mem_nil _⟩
    · exact ⟨by simpa [Tracks] using h.2, hfill, List.forall_mem_nil _⟩

theorem tracked_dryScan (delay : ℤ) (h : Tracks id m)
    (hfill : 4 ≤ (m.streams id).ring.filled) (hp : m.pc = .dryScan todo) :
    Tracked id (m.mix delay) := by
  simp only [Tracks, hp] at h
  cases todo with
  | nil => exact absurd h.1 List.not_mem_nil
  | cons s todo =>
    simp only [Mixer.Mix.mix, hp]
    split
    · exact ⟨h.2, hfill, List.forall_mem_nil _⟩
    · rename_i hempty
      have hne : id ≠ s := by
        intro heq
        subst heq
        omega
      exact ⟨⟨(List.mem_cons.mp h.1).resolve_left hne, h.2⟩, hfill, List.forall_mem_nil _⟩

theorem tracked_retain (delay : ℤ) (h : Tracks id m)
    (hfill : 4 ≤ (m.streams id).ring.filled) (hp : m.pc = .retain todo kept) :
    Tracked id (m.mix delay) := by
  simp only [Tracks, hp] at h
  cases todo with
  | nil =>
    simp only [Mixer.Mix.mix, hp]
    have hk : id ∈ kept := by simpa using h
    have hne : kept.isEmpty = false := by
      cases kept with
      | nil => exact absurd hk List.not_mem_nil
      | cons => rfl
    simp only [hne, Bool.false_eq_true, if_false]
    exact ⟨⟨hk, hk⟩, hfill, List.forall_mem_nil _⟩
  | cons s todo =>
    simp only [Mixer.Mix.mix, hp]
    simp only [List.cons_append, List.mem_cons, List.mem_append] at h
    split
    · refine ⟨?_, hfill, List.forall_mem_nil _⟩
      simp only [Tracks, List.mem_append]
      tauto
    · refine ⟨?_, hfill, List.forall_mem_nil _⟩
      simp only [Tracks, List.mem_append, List.mem_singleton]
      tauto

theorem tracked_retainFilled (delay : ℤ) (h : Tracks id m)
    (hfill : 4 ≤ (m.streams id).ring.filled) (hp : m.pc = .retainFilled s todo kept) :
    Tracked id (m.mix delay) := by
  simp only [Tracks, hp] at h
  simp only [Mixer.Mix.mix, hp]
  split
  · rename_i hempty
    have hne : s ≠ id := by
      intro heq
      subst heq
      omega
    exact ⟨h.resolve_left hne, hfill, by simp [Silent]⟩
  · refine ⟨?_, hfill, List.forall_mem_nil _⟩
    simp only [Tracks, List.mem_append, List.mem_singleton] at h ⊢
    tauto

theorem tracks_mix (delay : ℤ) (h : Tracks id m)
    (hfill : 4 ≤ (m.streams id).ring.filled) (hpc : m.pc ≠ .pace)
    (hnc : ∀ n, .consumed id n ∉ (m.mix delay).2) : Tracked id (m.mix delay) := by
  cases hp : m.pc with
  | recv =>
    simp only [Tracks, hp] at h
    cases hq : m.queue with
    | nil =>
      rw [hq] at h
      simpa [Mixer.Mix.mix, hp, hq, Tracked, Tracks, hfill] using h
    | cons s rest =>
      rw [hq] at h
      simp only [Mixer.Mix.mix, hp, hq]
      refine ⟨?_, hfill, List.forall_mem_nil _⟩
      simp only [Tracks, List.cons_append, List.mem_cons, List.mem_append] at h ⊢
      tauto
  | flushScan todo flushed => exact tracked_flushScan delay h hfill hp hnc
  | flushClear s todo => exact tracked_flushClear delay h hfill hp
  | haltScan todo => exact tracked_haltScan delay h hfill hp
  | retain todo kept => exact tracked_retain delay h hfill hp
  | retainFilled s todo kept => exact tracked_retainFilled delay h hfill hp
  | dryScan todo => exact tracked_dryScan delay h hfill hp
  | pace => exact absurd hp hpc
  | _ => simp only [Tracks, hp] at h

end

theorem mixes_mix {id w : ℕ} {m : Mixer.Mix} (delay : ℤ) (hw : 0 < w) (h : Mixes id w m) :
    ((m.mix delay).2 = [] ∨ ∃ s cells, (m.mix delay).2 = [.took s cells]) ∧
        Mixes id w (m.mix delay).1 ∨
      ∃ gain muted out, (m.mix delay).2 = [.wrote gain muted out] ∧
        out.length = 4 * w ∧ (m.mix delay).1.pc = .report := by
  unfold Mixes at h
  cases hp : m.pc with
  | mixFilled todo w' acc had =>
    simp only [hp] at h
    obtain ⟨rfl, h⟩ := h
    left
    cases todo with
    | nil =>
      have hhad : had = true := h.resolve_right fun hm => absurd hm.1 List.not_mem_nil
      simp [Mixer.Mix.mix, hp, hhad, Mixes]
    | cons s todo =>
      simp only [Mixer.Mix.mix, hp]
      split
      · rename_i hwant
        refine ⟨Or.inl rfl, rfl, h.imp_right fun hm => ⟨?_, hm.2⟩⟩
        have hne : id ≠ s := by
          intro heq
          subst heq
          omega
        exact (List.mem_cons.mp hm.1).resolve_left hne
      · exact ⟨Or.inl rfl, rfl⟩
  | mixPop s want todo w' acc =>
    simp only [hp] at h
    subst h
    left
    simp only [Mixer.Mix.mix, hp]
    exact ⟨Or.inr ⟨_, _, rfl⟩, rfl, Or.inl rfl⟩
  | gainLoad w' acc =>
    simp only [hp] at h
    subst h
    left
    simp [Mixer.Mix.mix, hp, Mixes]
  | muteLoad w' acc gain =>
    simp only [hp] at h
    subst h
    left
    simp [Mixer.Mix.mix, hp, Mixes]
  | push w' acc gain muted =>
    simp only [hp] at h
    subst h
    right
    refine ⟨gain, muted, Mixer.render gain muted acc (w' * 2), ?_, ?_, ?_⟩
    · simp only [Mixer.Mix.mix, hp]
    · rw [Mixer.render_length]
      omega
    · simp only [Mixer.Mix.mix, hp]
  | _ => simp only [hp] at h

/-! ### From the start of a tick to its end -/

theorem stamp_silent (s : State) {es : List Mixer.Event} (h : ∀ e ∈ es, Silent e) :
    readings (stamp s es) = [] ∧ framesWritten (stamp s es) = 0 ∧ ticks (stamp s es) = 0 := by
  induction es with
  | nil => exact ⟨rfl, rfl, rfl⟩
  | cons e es ih =>
    have he := h e (List.mem_cons_self ..)
    obtain ⟨hr, hf, ht⟩ := ih fun x hx => h x (List.mem_cons_of_mem _ hx)
    have hcons : stamp s (e :: es) = [.mixer e s.hda.pushed.length s.hda.fetched.length] ++
        stamp s es := rfl
    rw [hcons, readings_append, framesWritten_append, ticks_append, hr, hf, ht]
    cases e <;> first | exact ⟨rfl, rfl, rfl⟩ | exact he.elim

theorem backend_silent (s : State) (m : Mixer.Mix) {es : List Mixer.Event}
    (h : ∀ e ∈ es, Silent e) : backend s m es = { s with mix := m } := by
  rcases backend_cases s m es with ⟨rfl, -⟩ | ⟨gain, muted, out, rfl, -⟩ | heq
  · exact (h _ (List.mem_singleton_self _)).elim
  · exact (h _ (List.mem_singleton_self _)).elim
  · exact heq

theorem other_silent {m m' : Mixer.Mix} {es : List Mixer.Event} {i : Mixer.Input}
    (hi : ∀ delay, i ≠ .mix delay) (hs : Mixer.step m i = some (m', es)) : ∀ e ∈ es, Silent e := by
  cases i with
  | mix delay => exact absurd rfl (hi delay)
  | push id data =>
    obtain ⟨-, ring, cells, -, -, -, rfl⟩ := Mixer.step_push hs
    simp [Silent]
  | requestFlush id =>
    obtain ⟨-, -, rfl⟩ := Mixer.step_requestFlush hs
    simp [Silent]
  | finish id =>
    obtain ⟨-, -, rfl⟩ := Mixer.step_finish hs
    simp [Silent]
  | register ringBytes | elapse ns | setMuted b | setVolume percent =>
    cases hs
    exact nofun

/-- Stream `id` has a frame, nothing has been pushed or read yet. -/
structure Ready (id p₀ f₀ : ℕ) (s : State) (tr : List Event) : Prop where
  filled : 4 ≤ (s.mix.streams id).ring.filled
  pushed : s.hda.pushed.length = p₀
  fetched : f₀ ≤ s.hda.fetched.length
  readings : readings tr = []
  written : framesWritten tr = 0

def ReadRoom (p₀ f₀ : ℕ) (tr : List Event) : Prop :=
  ∃ f, f₀ ≤ f ∧ readings tr = [(p₀, f)] ∧ ShowsRoom p₀ f

/-- The one reading of the tick decides whether it writes. -/
def Settled (p₀ f₀ : ℕ) (tr : List Event) : Prop :=
  ∃ f, f₀ ≤ f ∧ readings tr = [(p₀, f)] ∧ (0 < framesWritten tr ↔ ShowsRoom p₀ f)

inductive Segment (id p₀ f₀ : ℕ) (s : State) (tr : List Event) : Prop
  | start (hpush : s.push = none) (hpc : s.mix.pc = .top)
      (hid : id ∈ s.mix.queue ++ s.mix.slots) (hready : Ready id p₀ f₀ s tr) (ht : ticks tr = 0)
  | searching (hpush : s.push = none) (htracks : Tracks id s.mix) (hready : Ready id p₀ f₀ s tr)
      (ht : ticks tr = 1)
  | mixing (hpush : s.push = none) (w : ℕ) (hw : 0 < w) (hmix : Mixes id w s.mix)
      (hroom : ReadRoom p₀ f₀ tr) (ht : ticks tr = 1)
  | writing (hpc : s.mix.pc = .report) (hroom : ReadRoom p₀ f₀ tr) (hwrote : 0 < framesWritten tr)
      (ht : ticks tr = 1)
  | done (hpush : s.push = none) (hpc : s.mix.pc = .top) (hsettled : Settled p₀ f₀ tr)
      (ht : ticks tr = 1)

/-- Events that leave the readings and the frames written as they are. -/
structure Idle (es : List Event) : Prop where
  readings : Paced.readings es = []
  written : framesWritten es = 0
  ticks : Paced.ticks es = 0

theorem idle_stamp (s : State) {es : List Mixer.Event} (h : ∀ e ∈ es, Silent e) :
    Idle (stamp s es) := ⟨(stamp_silent s h).1, (stamp_silent s h).2.1, (stamp_silent s h).2.2⟩

theorem ReadRoom.append {p₀ f₀ : ℕ} {tr es : List Event} (h : ReadRoom p₀ f₀ tr) (he : Idle es) :
    ReadRoom p₀ f₀ (tr ++ es) := by
  obtain ⟨f, hf, hr, hroom⟩ := h
  refine ⟨f, hf, ?_, hroom⟩
  rw [readings_append, he.readings, List.append_nil, hr]

theorem Settled.append {p₀ f₀ : ℕ} {tr es : List Event} (h : Settled p₀ f₀ tr) (he : Idle es) :
    Settled p₀ f₀ (tr ++ es) := by
  obtain ⟨f, hf, hr, hiff⟩ := h
  refine ⟨f, hf, ?_, ?_⟩
  · rw [readings_append, he.readings, List.append_nil, hr]
  · rw [framesWritten_append, he.written, Nat.add_zero]
    exact hiff

theorem Ready.append {id p₀ f₀ : ℕ} {s s' : State} {tr es : List Event}
    (h : Ready id p₀ f₀ s tr) (he : Idle es)
    (hfill : (s.mix.streams id).ring.filled ≤ (s'.mix.streams id).ring.filled)
    (hpu : s'.hda.pushed = s.hda.pushed) (hfe : s.hda.fetched.length ≤ s'.hda.fetched.length) :
    Ready id p₀ f₀ s' (tr ++ es) := by
  refine ⟨h.filled.trans hfill, ?_, h.fetched.trans hfe, ?_, ?_⟩
  · rw [hpu, h.pushed]
  · rw [readings_append, h.readings, he.readings]
    rfl
  · rw [framesWritten_append, h.written, he.written]

theorem ticks_idle {tr es : List Event} (he : Idle es) : ticks (tr ++ es) = ticks tr := by
  rw [ticks_append, he.ticks, Nat.add_zero]

/-- What another thread or the DMA engine may change between two steps of the mixer. -/
structure Drift (s s' : State) : Prop where
  push : s'.push = s.push
  pc : s'.mix.pc = s.mix.pc
  slots : s'.mix.slots = s.mix.slots
  queue : s.mix.queue <+: s'.mix.queue
  filled : ∀ id, (s.mix.streams id).ring.filled ≤ (s'.mix.streams id).ring.filled
  pushed : s'.hda.pushed = s.hda.pushed
  fetched : s.hda.fetched.length ≤ s'.hda.fetched.length

theorem Tracks.drift {id : ℕ} {m m' : Mixer.Mix} (h : Tracks id m) (hpc : m'.pc = m.pc)
    (hslots : m'.slots = m.slots) (hqueue : m.queue <+: m'.queue) : Tracks id m' := by
  unfold Tracks at h ⊢
  rw [hpc, hslots]
  cases hp : m.pc with
  | recv =>
    simp only [hp, List.mem_append] at h ⊢
    exact h.imp_left fun hm => hqueue.subset hm
  | _ =>
    simp only [hp] at h ⊢
    try exact h

theorem Mixes.drift {id w : ℕ} {m m' : Mixer.Mix} (h : Mixes id w m) (hpc : m'.pc = m.pc)
    (hfill : (m.streams id).ring.filled ≤ (m'.streams id).ring.filled) : Mixes id w m' := by
  unfold Mixes at h ⊢
  rw [hpc]
  cases hp : m.pc with
  | mixFilled todo w' acc had =>
    simp only [hp] at h ⊢
    exact ⟨h.1, h.2.imp_right fun hm => ⟨hm.1, hm.2.trans hfill⟩⟩
  | _ =>
    simp only [hp] at h ⊢
    try exact h

theorem Segment.drift {id p₀ f₀ : ℕ} {s s' : State} {tr es : List Event}
    (h : Segment id p₀ f₀ s tr) (hd : Drift s s') (he : Idle es) :
    Segment id p₀ f₀ s' (tr ++ es) := by
  cases h with
  | start hpush hpc hid hready ht =>
    refine .start (hd.push.trans hpush) (hd.pc.trans hpc) ?_
      (hready.append he (hd.filled id) hd.pushed hd.fetched) ((ticks_idle he).trans ht)
    rw [hd.slots]
    rw [List.mem_append] at hid ⊢
    exact hid.imp_left fun hm => hd.queue.subset hm
  | searching hpush htracks hready ht =>
    exact .searching (hd.push.trans hpush) (htracks.drift hd.pc hd.slots hd.queue)
      (hready.append he (hd.filled id) hd.pushed hd.fetched) ((ticks_idle he).trans ht)
  | mixing hpush w hw hmix hroom ht =>
    exact .mixing (hd.push.trans hpush) w hw (hmix.drift hd.pc (hd.filled id)) (hroom.append he)
      ((ticks_idle he).trans ht)
  | writing hpc hroom hwrote ht =>
    refine .writing (hd.pc.trans hpc) (hroom.append he) ?_ ((ticks_idle he).trans ht)
    rw [framesWritten_append]
    omega
  | done hpush hpc hsettled ht =>
    exact .done (hd.push.trans hpush) (hd.pc.trans hpc) (hsettled.append he)
      ((ticks_idle he).trans ht)

theorem segment_pace {id p₀ f₀ : ℕ} {s s' : State} {tr es : List Event} (hb : Base s)
    (hpush : s.push = none) (hpc : s.mix.pc = .pace) (hid : id ∈ s.mix.slots)
    (hready : Ready id p₀ f₀ s tr) (ht : ticks tr = 1) (hs : step s .mixer = some (s', es)) :
    Segment id p₀ f₀ s' (tr ++ es) := by
  obtain ⟨rfl, rfl⟩ := step_mixer hpush hs
  have hiff := writable_delayFrames_pos_iff hb.positions
  have hpu := hready.pushed
  have hev : (s.mix.mix s.hda.delayFrames).2 = [.paced s.hda.delayFrames] := by
    simp only [Mixer.Mix.mix, hpc]
    split <;> rfl
  have hr : readings (tr ++ stamp s (s.mix.mix s.hda.delayFrames).2) =
      [(p₀, s.hda.fetched.length)] := by
    rw [readings_append, hready.readings, hev, ← hpu]
    rfl
  have hf : framesWritten (tr ++ stamp s (s.mix.mix s.hda.delayFrames).2) = 0 := by
    rw [framesWritten_append, hready.written, hev]
    rfl
  have ht' : ticks (tr ++ stamp s (s.mix.mix s.hda.delayFrames).2) = 1 := by
    rw [ticks_append, ht, hev]
    rfl
  by_cases hw : Mixer.writable s.hda.delayFrames = 0
  · refine .done ?_ ?_ ⟨s.hda.fetched.length, hready.fetched, hr, ?_⟩ ht'
    · simp only [Mixer.Mix.mix, hpc, hw, if_true, backend, hpush]
    · simp only [Mixer.Mix.mix, hpc, hw, if_true, backend]
    · rw [hf, ← hpu, ← hiff, hw]
  · refine .mixing ?_ _ (Nat.pos_of_ne_zero hw) ?_
      ⟨s.hda.fetched.length, hready.fetched, hr, ?_⟩ ht'
    · simp only [Mixer.Mix.mix, hpc, hw, if_false, backend, hpush]
    · simp only [Mixer.Mix.mix, hpc, hw, if_false, backend]
      exact ⟨rfl, Or.inr ⟨hid, hready.filled⟩⟩
    · rw [← hpu]
      exact hiff.mp (Nat.pos_of_ne_zero hw)

theorem segment_search {id p₀ f₀ : ℕ} {s s' : State} {tr es : List Event} (hb : Base s)
    (hpush : s.push = none) (htracks : Tracks id s.mix) (hready : Ready id p₀ f₀ s tr)
    (ht : ticks tr = 1) (hnc : ∀ n p f, .mixer (.consumed id n) p f ∉ es)
    (hs : step s .mixer = some (s', es)) : Segment id p₀ f₀ s' (tr ++ es) := by
  by_cases hpace : s.mix.pc = .pace
  · have hid : id ∈ s.mix.slots := by simpa [Tracks, hpace] using htracks
    exact segment_pace hb hpush hpace hid hready ht hs
  · obtain ⟨rfl, rfl⟩ := step_mixer hpush hs
    have hnc' : ∀ n, .consumed id n ∉ (s.mix.mix s.hda.delayFrames).2 :=
      fun n hn => hnc n _ _ (List.mem_map_of_mem hn)
    obtain ⟨htr, hfill, hsil⟩ := tracks_mix s.hda.delayFrames htracks hready.filled hpace hnc'
    have he := idle_stamp s hsil
    rw [backend_silent s _ hsil]
    refine .searching hpush htr ⟨hfill, hready.pushed, hready.fetched, ?_, ?_⟩ ?_
    · rw [readings_append, hready.readings, he.readings]
      rfl
    · rw [framesWritten_append, hready.written, he.written]
    · rw [ticks_idle he, ht]

theorem segment_mix {id p₀ f₀ w : ℕ} {s s' : State} {tr es : List Event}
    (hpush : s.push = none) (hw : 0 < w) (hmix : Mixes id w s.mix) (hroom : ReadRoom p₀ f₀ tr)
    (ht : ticks tr = 1) (hs : step s .mixer = some (s', es)) :
    Segment id p₀ f₀ s' (tr ++ es) := by
  obtain ⟨rfl, rfl⟩ := step_mixer hpush hs
  rcases mixes_mix s.hda.delayFrames hw hmix with ⟨hev, hmix'⟩ |
    ⟨gain, muted, out, hev, hlen, hpc⟩
  · have hsil : ∀ e ∈ (s.mix.mix s.hda.delayFrames).2, Silent e := by
      rcases hev with hev | ⟨x, cells, hev⟩ <;> rw [hev] <;> simp [Silent]
    have he := idle_stamp s hsil
    rw [backend_silent s _ hsil]
    exact .mixing hpush w hw hmix' (hroom.append he) ((ticks_idle he).trans ht)
  · obtain ⟨f, hf, hr, hshow⟩ := hroom
    rw [hev]
    refine .writing hpc ⟨f, hf, ?_, hshow⟩ ?_ ?_
    · rw [readings_append, hr]
      rfl
    · have hfr : framesWritten (stamp s [.wrote gain muted out]) = out.length / 4 := rfl
      rw [framesWritten_append, hfr]
      omega
    · rw [ticks_append, ht]
      rfl

theorem Segment.mixer {id p₀ f₀ : ℕ} {s s' : State} {tr es : List Event} (hb : Base s)
    (h : Segment id p₀ f₀ s tr) (hticks : ticks (tr ++ es) ≤ 1)
    (hnc : ∀ n p f, .mixer (.consumed id n) p f ∉ es) (hs : step s .mixer = some (s', es)) :
    Segment id p₀ f₀ s' (tr ++ es) := by
  cases h with
  | start hpush hpc hid hready ht =>
    obtain ⟨rfl, rfl⟩ := step_mixer hpush hs
    simp only [Mixer.Mix.mix, hpc, backend] at hticks ⊢
    refine .searching hpush hid ⟨hready.filled, hready.pushed, hready.fetched, ?_, ?_⟩ ?_
    · rw [readings_append, hready.readings]
      rfl
    · rw [framesWritten_append, hready.written]
      rfl
    · rw [ticks_append, ht]
      rfl
  | searching hpush htracks hready ht => exact segment_search hb hpush htracks hready ht hnc hs
  | mixing hpush w hw hmix hroom ht => exact segment_mix hpush hw hmix hroom ht hs
  | writing hpc hroom hwrote ht =>
    cases hpush : s.push with
    | none =>
      obtain ⟨rfl, rfl⟩ := step_mixer hpush hs
      obtain ⟨f, hf, hr, hshow⟩ := hroom
      simp only [Mixer.Mix.mix, hpc, backend, stamp, List.map_nil, List.append_nil]
      exact .done hpush rfl ⟨f, hf, hr, fun _ => hshow, fun _ => hwrote⟩ ht
    | some pc =>
      have hidle : Idle es ∧ s'.mix.pc = s.mix.pc := by
        cases pc <;> simp only [step, hpush, Option.some.injEq, Prod.mk.injEq] at hs <;>
          obtain ⟨rfl, rfl⟩ := hs <;> exact ⟨⟨rfl, rfl, rfl⟩, rfl⟩
      obtain ⟨he, hpc'⟩ := hidle
      refine .writing (hpc'.trans hpc) (hroom.append he) ?_ ((ticks_idle he).trans ht)
      rw [framesWritten_append]
      omega
  | done hpush hpc hsettled ht =>
    -- the next tick would begin
    obtain ⟨rfl, rfl⟩ := step_mixer hpush hs
    rw [ticks_append, ht] at hticks
    have hev : (s.mix.mix s.hda.delayFrames).2 = [.tick] := by simp only [Mixer.Mix.mix, hpc]
    have hone : ticks (stamp s [.tick]) = 1 := rfl
    rw [hev] at hticks
    omega

theorem Segment.step {id p₀ f₀ : ℕ} {s s' : State} {tr es : List Event} {i : Input} (hb : Base s)
    (h : Segment id p₀ f₀ s tr) (hticks : ticks (tr ++ es) ≤ 1)
    (hnc : ∀ n p f, .mixer (.consumed id n) p f ∉ es) (hs : step s i = some (s', es)) :
    Segment id p₀ f₀ s' (tr ++ es) := by
  cases i with
  | mixer => exact h.mixer hb hticks hnc hs
  | other i =>
    obtain ⟨hi, m, es', hm, rfl, rfl⟩ := step_other hs
    obtain ⟨trm, hl⟩ := hb.ledger
    obtain ⟨hpc, hslots, hqueue, -⟩ := Mixer.step_pc hi hm
    exact h.drift ⟨rfl, hpc, hslots, hqueue, (Mixer.step_env hl hi hm).filled, rfl, le_rfl⟩
      (idle_stamp s (other_silent hi hm))
  | dma k =>
    obtain ⟨-, rfl, rfl⟩ := step_dma hs
    refine h.drift ⟨rfl, rfl, rfl, List.prefix_rfl, fun _ => le_rfl, rfl, ?_⟩ ⟨rfl, rfl, rfl⟩
    simp [Hda.dma]

theorem segment_run {id p₀ f₀ : ℕ} (is : List Input) :
    ∀ {s t : State} {pre tr : List Event}, Base s → Segment id p₀ f₀ s pre →
      machine.run s is = some (t, tr) → ticks (pre ++ tr) ≤ 1 →
      (∀ n p f, .mixer (.consumed id n) p f ∉ tr) → Segment id p₀ f₀ t (pre ++ tr) := by
  induction is with
  | nil =>
    intro s t pre tr hb h hrun _ _
    simp only [Machine.run_nil, Option.some.injEq, Prod.mk.injEq] at hrun
    obtain ⟨rfl, rfl⟩ := hrun
    simpa using h
  | cons i is ih =>
    intro s t pre tr hb h hrun hticks hnc
    obtain ⟨mid, e, es, hs, hr, rfl⟩ := (Machine.run_cons machine).mp hrun
    rw [← List.append_assoc] at hticks ⊢
    have hle : ticks (pre ++ e) ≤ 1 := by
      rw [ticks_append] at hticks
      omega
    have hmid := h.step hb hle (fun n p f hm => hnc n p f (List.mem_append_left _ hm)) hs
    exact ih (hb.step hs) hmid hr hticks fun n p f hm => hnc n p f (List.mem_append_right _ hm)

/-! ### A tick comes to its end -/

/-- An upper bound on the steps the mixer still makes in its tick. -/
def mixRank (m : Mixer.Mix) : ℕ :=
  let n := m.slots.length
  match m.pc with
  | .top => 0
  | .report | .idleCheck => 1
  | .idle => 2
  | .push w _ _ _ => 12 * w + 5
  | .muteLoad w _ _ => 12 * w + 6
  | .gainLoad w _ => 12 * w + 7
  | .mixFilled todo w _ _ => 12 * w + 8 + 2 * todo.length
  | .mixPop _ _ todo w _ => 12 * w + 9 + 2 * todo.length
  | .pace => 12297 + 2 * n
  | .dryScan todo => 12298 + 2 * n + todo.length
  | .retain todo kept => 12299 + 3 * (todo.length + kept.length) + 2 * todo.length
  | .retainFilled _ todo kept => 12303 + 3 * (todo.length + kept.length) + 2 * todo.length
  | .haltScan todo => 12300 + 5 * n + todo.length
  | .flushScan todo _ => 12301 + 6 * n + 2 * todo.length
  | .flushClear _ todo => 12302 + 6 * n + 2 * todo.length
  | .recv => 12302 + 8 * (m.queue.length + n) + m.queue.length

def rank (s : State) : ℕ :=
  match s.push with
  | none => mixRank s.mix
  | some (.play rest) => 3 * rest.length + 4
  | some (.write rest) => 3 * rest.length + 3
  | some (.copy rest _) => 3 * rest.length + 2

theorem mixRank_mix {m : Mixer.Mix} (delay : ℤ) (hpc : m.pc ≠ .top) :
    mixRank (m.mix delay).1 < mixRank m := by
  have hw : Mixer.writable delay ≤ 1024 := by
    simp only [Mixer.writable, Mixer.chunkFrames, shimServerFrames]
    omega
  cases hp : m.pc with
  | top => exact absurd hp hpc
  | recv =>
    cases hq : m.queue with
    | nil =>
      simp only [Mixer.Mix.mix, hp, hq, mixRank, List.length_nil]
      omega
    | cons s rest =>
      simp only [Mixer.Mix.mix, hp, hq, mixRank, List.length_cons, List.length_append,
        List.length_nil]
      omega
  | _ =>
    simp only [Mixer.Mix.mix, hp]
    repeat' split
    all_goals
      simp [mixRank, hp, Mixer.Mix.halted, Mixer.Mix.setStream]
      try omega

theorem frames_le_mixRank {m : Mixer.Mix} (h : 0 < m.pc.frames) :
    12 * m.pc.frames + 5 ≤ mixRank m := by
  unfold mixRank
  cases hp : m.pc <;> simp only [hp, Mixer.Pc.frames] at h ⊢ <;> omega

theorem ticks_mix {m : Mixer.Mix} (s : State) (delay : ℤ) (hpc : m.pc ≠ .top) :
    ticks (stamp s (m.mix delay).2) = 0 := by
  cases hp : m.pc with
  | top => exact absurd hp hpc
  | _ =>
    simp only [Mixer.Mix.mix, hp]
    repeat' split
    all_goals rfl

/- The retry loop of a push advances: there is always a free byte in the ring. -/
theorem write_pos {h : Hda} (hp : h.Positions) (rd : ℕ) {data : Bytes} (hne : data ≠ []) :
    0 < (h.write rd data).2 := by
  have hlen : 0 < data.length := List.length_pos_iff.mpr hne
  have hw : h.writePos < ringSize := by
    rw [hp.write_eq]
    exact Nat.mod_lt _ Hda.ringSize_pos
  have hfree : 0 < h.freeSpace rd := by
    unfold Hda.freeSpace
    split <;> omega
  simp only [Hda.write]
  split
  · omega
  · dsimp only
    omega

theorem rank_pushing {s : State} {rest : Bytes} (hpush : s.push = pushing rest)
    (hpc : s.mix.pc = .report) : rank s ≤ 3 * rest.length + 4 ∧ (rest = [] → rank s = 1) := by
  rcases pushing_cases rest with hp | hp <;> rw [hp] at hpush
  · simp only [rank, hpush, mixRank, hpc]
    exact ⟨by omega, fun _ => trivial⟩
  · refine ⟨by simp only [rank, hpush]; omega, fun hnil => ?_⟩
    rw [hnil] at hp
    cases hp

theorem rank_step {s : State} (hb : Base s) (hbusy : s.push ≠ none ∨ s.mix.pc ≠ .top) :
    ∃ s' es, step s .mixer = some (s', es) ∧ rank s' < rank s ∧ ticks es = 0 := by
  have hbp := hb.push
  cases hpush : s.push with
  | none =>
    have hpc : s.mix.pc ≠ .top := hbusy.resolve_left fun h => h hpush
    have hlt := mixRank_mix s.hda.delayFrames hpc
    have hs : step s .mixer =
        some (backend s (s.mix.mix s.hda.delayFrames).1 (s.mix.mix s.hda.delayFrames).2,
          stamp s (s.mix.mix s.hda.delayFrames).2) := by simp only [step, hpush]
    refine ⟨_, _, hs, ?_, ticks_mix s _ hpc⟩
    rcases backend_cases s (s.mix.mix s.hda.delayFrames).1 (s.mix.mix s.hda.delayFrames).2 with
      ⟨-, heq⟩ | ⟨gain, muted, out, hes, heq⟩ | heq
    · simpa only [heq, rank, hpush] using hlt
    · obtain ⟨hlen, hrep⟩ := Mixer.mix_wrote hes
      rw [heq]
      obtain ⟨hle, hnil⟩ := rank_pushing
        (s := ⟨(s.mix.mix s.hda.delayFrames).1, s.hda, pushing out⟩) rfl hrep
      have hrank : rank s = mixRank s.mix := by simp only [rank, hpush]
      rw [hrank]
      rcases Nat.eq_zero_or_pos s.mix.pc.frames with h0 | hpos
      · have hout : out = [] := List.length_eq_zero_iff.mp (by omega)
        rw [hnil hout]
        have hrep' : mixRank (s.mix.mix s.hda.delayFrames).1 = 1 := by simp only [mixRank, hrep]
        omega
      · have hm := frames_le_mixRank hpos
        omega
    · simpa only [heq, rank, hpush] using hlt
  | some pc =>
    simp only [hpush] at hbp
    cases pc with
    | play rest =>
      refine ⟨{ s with hda := s.hda.start, push := some (.write rest) }, [],
        by simp only [step, hpush], ?_, rfl⟩
      simp only [rank, hpush]
      omega
    | write rest =>
      refine ⟨{ s with push := some (.copy rest s.hda.readLpib) }, [],
        by simp only [step, hpush], ?_, rfl⟩
      simp only [rank, hpush]
      omega
    | copy rest rd =>
      refine ⟨{ s with
        hda := (s.hda.write rd rest).1
        push := pushing (rest.drop (s.hda.write rd rest).2) },
        [.accepted rest.length (s.hda.write rd rest).2], by simp only [step, hpush], ?_, rfl⟩
      obtain ⟨hle, hnil⟩ := rank_pushing (s := ⟨s.mix, (s.hda.write rd rest).1,
        pushing (rest.drop (s.hda.write rd rest).2)⟩) rfl hbp.1
      have hrank : rank s = 3 * rest.length + 2 := by simp only [rank, hpush]
      rw [hrank]
      by_cases hrest : rest = []
      · rw [hnil (by rw [hrest, List.drop_nil])]
        omega
      · have hn := write_pos hb.positions rd hrest
        have hpos := List.length_pos_iff.mpr hrest
        rw [List.length_drop] at hle
        omega

theorem finish_tick (n : ℕ) : ∀ s : State, rank s ≤ n → Base s →
    ∃ k t tr, machine.run s (List.replicate k .mixer) = some (t, tr) ∧ t.mix.pc = .top ∧
      ticks tr = 0 := by
  induction n with
  | zero =>
    intro s hr hb
    by_cases hbusy : s.push ≠ none ∨ s.mix.pc ≠ .top
    · obtain ⟨s', es, -, hlt, -⟩ := rank_step hb hbusy
      omega
    · simp only [not_or, not_not] at hbusy
      exact ⟨0, s, [], rfl, hbusy.2, rfl⟩
  | succ n ih =>
    intro s hr hb
    by_cases hbusy : s.push ≠ none ∨ s.mix.pc ≠ .top
    · obtain ⟨s', es, hs, hlt, ht⟩ := rank_step hb hbusy
      obtain ⟨k, t, tr, hrun, hpc, ht'⟩ := ih s' (by omega) (hb.step hs)
      refine ⟨k + 1, t, es ++ tr, ?_, hpc, by rw [ticks_append, ht, ht']⟩
      rw [List.replicate_succ, Machine.run_cons]
      exact ⟨s', es, tr, hs, hrun, rfl⟩
    · simp only [not_or, not_not] at hbusy
      exact ⟨0, s, [], rfl, hbusy.2, rfl⟩

theorem push_none_of_top {s : State} (hb : Base s) (hstart : s.mix.pc = .top) : s.push = none := by
  exact hb.push_none (by rw [hstart]; exact Mixer.Pc.noConfusion)

/- Left alone, the mixer completes the tick it is about to start. -/
theorem tick_completes {s : State} (hb : Base s) (hstart : s.mix.pc = .top) :
    ∃ k t tr, machine.run s (List.replicate k .mixer) = some (t, tr) ∧ t.mix.pc = .top ∧
      ticks tr = 1 := by
  have hpush := push_none_of_top hb hstart
  have hs : step s .mixer =
      some ({ s with mix := { s.mix with pc := .recv } }, stamp s [.tick]) := by
    simp only [step, hpush, Mixer.Mix.mix, hstart, backend]
  obtain ⟨k, t, tr, hrun, hpc, ht⟩ := finish_tick _ _ le_rfl (hb.step hs)
  refine ⟨k + 1, t, stamp s [.tick] ++ tr, ?_, hpc, ?_⟩
  · rw [List.replicate_succ, Machine.run_cons]
    exact ⟨_, _, _, hs, hrun, rfl⟩
  · rw [ticks_append, ht]
    rfl

theorem showsRoom_of_le {p f₀ f : ℕ} (hout : p - f₀ < 4 * 4096) (hf : f₀ ≤ f) (hle : f ≤ p) :
    ShowsRoom p f := by
  have hs : ringSize = 262144 := rfl
  simp only [ShowsRoom, hs, shimServerFrames]
  omega

/-- From a reachable state with less than the target outstanding and a frame in
the ring of stream `id`, the next tick completes; unless it consumes a FLUSH of
the stream it reads the delay once, and writes if and only if this reading shows
room. So it does as long as the DMA engine has not passed the write position. -/
theorem next_tick_writes_iff {volume : F32} {is₀ : List Input} {s : State} {tr₀ : List Event}
    (hreach : machine.run (init volume) is₀ = some (s, tr₀)) (hstart : s.mix.pc = .top)
    (hout : s.hda.pushed.length - s.hda.fetched.length < 4 * 4096)
    {id : ℕ} (hid : id ∈ s.mix.queue ++ s.mix.slots)
    (hframe : 4 ≤ (s.mix.streams id).ring.filled) :
    (∃ k t tr, machine.run s (List.replicate k .mixer) = some (t, tr) ∧ t.mix.pc = .top ∧
      ticks tr = 1) ∧
    ∀ is t tr, machine.run s is = some (t, tr) → t.mix.pc = .top → ticks tr = 1 →
      (∀ n p f, .mixer (.consumed id n) p f ∉ tr) →
      ∃ f, readings tr = [(s.hda.pushed.length, f)] ∧
        (0 < framesWritten tr ↔ ShowsRoom s.hda.pushed.length f) ∧
        (f ≤ s.hda.pushed.length → 0 < framesWritten tr) := by
  have hb := base_run hreach
  refine ⟨tick_completes hb hstart, fun is t tr hrun hend htick hflush => ?_⟩
  have hseg : Segment id s.hda.pushed.length s.hda.fetched.length s [] :=
    .start (push_none_of_top hb hstart) hstart hid ⟨hframe, rfl, le_rfl, rfl, rfl⟩ rfl
  have hlast := segment_run is hb hseg hrun (by rw [List.nil_append, htick]) hflush
  rw [List.nil_append] at hlast
  cases hlast with
  | start _ _ _ _ ht => omega
  | searching _ htracks _ _ => simp [Tracks, hend] at htracks
  | mixing _ w _ hmix _ _ => simp [Mixes, hend] at hmix
  | writing hpc _ _ _ =>
    rw [hend] at hpc
    cases hpc
  | done _ _ hsettled _ =>
    obtain ⟨f, hf, hr, hiff⟩ := hsettled
    exact ⟨f, hr, hiff, fun hle => hiff.mpr (showsRoom_of_le hout hf hle)⟩

/-! ### One tick written, and the DMA engine one frame past it -/

/-- A full tick, `k` bytes fetched, and a fresh frame in the ring. -/
def afterTick (k : ℕ) : List Input :=
  [.other (.register 16), .other (.push 0 [1, 0, 2, 0])] ++ List.replicate 19 .mixer ++
    [.dma k, .other (.push 0 [3, 0, 4, 0])]

/-- The hypotheses of `next_tick_writes_iff` on stream 0. -/
def aboutToTick (s : State) : Bool :=
  s.mix.pc.isTop && decide (s.hda.pushed.length - s.hda.fetched.length < 4 * 4096) &&
    decide (0 ∈ s.mix.queue ++ s.mix.slots) && decide (4 ≤ (s.mix.streams 0).ring.filled)

theorem aboutToTick_spec {s : State} (h : aboutToTick s = true) :
    s.mix.pc = .top ∧ s.hda.pushed.length - s.hda.fetched.length < 4 * 4096 ∧
      0 ∈ s.mix.queue ++ s.mix.slots ∧ 4 ≤ (s.mix.streams 0).ring.filled := by
  simp only [aboutToTick, Bool.and_eq_true, decide_eq_true_eq] at h
  exact ⟨Mixer.Pc.eq_top h.1.1.1, h.1.1.2, h.1.2, h.2⟩

theorem next_tick_writes_iff_after_tick :
    ∃ s tr₀, machine.run (init (.fin 100)) (afterTick 4000) = some (s, tr₀) ∧
    (∃ k t tr, machine.run s (List.replicate k .mixer) = some (t, tr) ∧ t.mix.pc = .top ∧
      ticks tr = 1) ∧
    ∀ is t tr, machine.run s is = some (t, tr) → t.mix.pc = .top → ticks tr = 1 →
      (∀ n p f, .mixer (.consumed 0 n) p f ∉ tr) →
      ∃ f, readings tr = [(s.hda.pushed.length, f)] ∧
        (0 < framesWritten tr ↔ ShowsRoom s.hda.pushed.length f) ∧
        (f ≤ s.hda.pushed.length → 0 < framesWritten tr) := by
  have hcheck : ((machine.run (init (.fin 100)) (afterTick 4000)).map fun p => aboutToTick p.1) =
      some true := by decide +kernel
  obtain ⟨⟨s, tr₀⟩, hrun, hs⟩ := Option.map_eq_some_iff.mp hcheck
  obtain ⟨hpc, hout, hid, hframe⟩ := aboutToTick_spec hs
  exact ⟨s, tr₀, hrun, next_tick_writes_iff hrun hpc hout hid hframe⟩

/-- The outcome of the tick that follows. -/
def silentTick (s : State) : Bool :=
  match machine.run s (List.replicate 8 .mixer) with
  | some (t, tr) => t.mix.pc.isTop && decide (ticks tr = 1) && decide (framesWritten tr = 0) &&
      tr.all fun e => match e with | .mixer (.consumed _ _) _ _ => false | _ => true
  | none => false

/- The DMA engine is one frame past the write position: the delay reads as an
almost full ring, and the tick writes nothing. -/
theorem underrun_tick_is_silent :
    ¬ ∀ (volume : F32) (is₀ : List Input) (s : State) (tr₀ : List Event) (id : ℕ),
      machine.run (init volume) is₀ = some (s, tr₀) → s.mix.pc = .top →
      s.hda.pushed.length - s.hda.fetched.length < 4 * 4096 →
      id ∈ s.mix.queue ++ s.mix.slots → 4 ≤ (s.mix.streams id).ring.filled →
      ∀ is t tr, machine.run s is = some (t, tr) → t.mix.pc = .top → ticks tr = 1 →
        (∀ n p f, .mixer (.consumed id n) p f ∉ tr) → 0 < framesWritten tr := by
  intro h
  have hcheck : ((machine.run (init (.fin 100)) (afterTick 4100)).map fun p =>
      aboutToTick p.1 && silentTick p.1) = some true := by decide +kernel
  obtain ⟨⟨s, tr₀⟩, hrun, hs⟩ := Option.map_eq_some_iff.mp hcheck
  simp only [Bool.and_eq_true] at hs
  obtain ⟨hpc, hout, hid, hframe⟩ := aboutToTick_spec hs.1
  have hsilent := hs.2
  unfold silentTick at hsilent
  split at hsilent
  · rename_i t tr hrun'
    simp only [Bool.and_eq_true, decide_eq_true_eq, List.all_eq_true] at hsilent
    obtain ⟨⟨⟨htop, hticks⟩, hnone⟩, hall⟩ := hsilent
    have hwrote := h (.fin 100) (afterTick 4100) s tr₀ 0 hrun hpc hout hid hframe _ t tr hrun'
      (Mixer.Pc.eq_top htop) hticks fun n p f hm => by cases hall _ hm
    omega
  · cases hsilent

end Audiod.Paced
