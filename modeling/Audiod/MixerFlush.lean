import Audiod.Mixer

/-!
# What a server-side FLUSH discards

`request_flush` sets a flag; the mixer swaps it at its next tick and then clears
the whole ring. Audio queued before the FLUSH is never mixed after the swap. The
clear, though, takes everything in the ring, with the chunks the reader has
pushed after the FLUSH.
-/

namespace Audiod.Mixer

/-- After the mixer has consumed `n` FLUSH frames it takes only audio younger than these. -/
def FlushMixed (pre : List Event) : Event → Prop
  | .took id cells => ∀ n, .consumed id n ∈ pre → ∀ c ∈ cells, n ≤ c.born
  | _ => True

/-- And a clear drops only audio older than a FLUSH already read. -/
def FlushExact (pre : List Event) : Event → Prop
  | .dropped id cells => ∀ c ∈ cells, c.born < pre.count (.flushRead id)
  | .took id cells => ∀ n, .consumed id n ∈ pre → ∀ c ∈ cells, n ≤ c.born
  | _ => True

/-- Between the swap of the flag and the clear of the ring. -/
def Clearing (m : Mix) (id : ℕ) : Prop := ∃ todo, m.pc = .flushClear id todo

instance (m : Mix) (id : ℕ) : Decidable (Clearing m id) :=
  match h : m.pc with
  | .flushClear s todo =>
    decidable_of_iff (s = id) ⟨fun hs => ⟨todo, by rw [h, hs]⟩, fun ⟨_, ht⟩ => by
      rw [h] at ht
      cases ht
      rfl⟩
  | .top | .recv | .flushScan _ _ | .haltScan _ | .retain _ _ | .retainFilled _ _ _ | .dryScan _
  | .idle | .idleCheck | .pace | .mixFilled _ _ _ _ | .mixPop _ _ _ _ _ | .gainLoad _ _
  | .muteLoad _ _ _ | .push _ _ _ _ | .report => isFalse fun ⟨_, ht⟩ => by simp [h] at ht

/-- A FLUSH of stream `id` is on its way: its flag is set, or the mixer has
swapped it and not cleared the ring yet. -/
def FlushPending (m : Mix) (id : ℕ) : Prop := (m.streams id).flush = true ∨ Clearing m id

instance (m : Mix) (id : ℕ) : Decidable (FlushPending m id) :=
  inferInstanceAs (Decidable (_ ∨ _))

/-- The reader pushes only when no FLUSH of its stream is on its way. -/
def WaitsForFlush (m : Mix) : Input → Prop
  | .push id _ => ¬FlushPending m id
  | _ => True

instance (m : Mix) (i : Input) : Decidable (WaitsForFlush m i) :=
  match i with
  | .push id _ => inferInstanceAs (Decidable ¬FlushPending m id)
  | .mix _ | .register _ | .requestFlush _ | .finish _ | .elapse _ | .setMuted _ | .setVolume _ =>
    isTrue trivial

/-- What is queued is older than a pending FLUSH only if the readers wait. -/
structure StreamFlush (waits : Prop) (x : MixerStream) (clearing : Prop) (consumed : ℕ → Prop) :
    Prop where
  born_le : ∀ c ∈ x.ring.contents, c.born ≤ x.flushesRead
  consumed_le : ∀ n, consumed n → n ≤ x.flushesRead
  settled : ¬clearing → ∀ n, consumed n → ∀ c ∈ x.ring.contents, n ≤ c.born
  pending : waits → x.flush = true ∨ clearing → ∀ c ∈ x.ring.contents, c.born < x.flushesRead

structure FlushInv (waits : Prop) (m : Mix) (tr : List Event) : Prop where
  ledger : Ledger m tr
  stream : ∀ id, StreamFlush waits (m.streams id) (Clearing m id) (fun n => .consumed id n ∈ tr)
  past : Always (fun pre e => FlushMixed pre e ∧ (waits → FlushExact pre e)) tr

variable {waits : Prop}

theorem FlushInv.same {m m' : Mix} {tr es : List Event} (h : FlushInv waits m tr)
    (hl : Ledger m' (tr ++ es)) (hs : m'.streams = m.streams)
    (hclr : ∀ id, Clearing m' id ↔ Clearing m id) (he : ∀ e ∈ es, e.isLocal) :
    FlushInv waits m' (tr ++ es) := by
  refine ⟨hl, fun id => ?_, ?_⟩
  · have hold (n : ℕ) : .consumed id n ∈ tr ++ es ↔ .consumed id n ∈ tr := by
      rw [List.mem_append]
      exact or_iff_left fun hm => he _ hm
    simp only [hs, hclr id, hold]
    exact h.stream id
  · refine h.past.append_of_forall fun pre e post hsplit => ?_
    have hloc := he e (by rw [hsplit]; simp)
    cases e <;> first | exact hloc.elim | exact ⟨trivial, fun _ => trivial⟩

theorem FlushInv.update {m m' : Mix} {tr : List Event} {e : Event} {s : ℕ} {x : MixerStream}
    (h : FlushInv waits m tr) (hl : Ledger m' (tr ++ [e]))
    (hs : m'.streams = Function.update m.streams s x)
    (hclr : ∀ id, id ≠ s → (Clearing m' id ↔ Clearing m id))
    (hcons : ∀ id n, id ≠ s → .consumed id n ≠ e)
    (hself : StreamFlush waits x (Clearing m' s) (fun n => .consumed s n ∈ tr ++ [e]))
    (he : FlushMixed tr e ∧ (waits → FlushExact tr e)) : FlushInv waits m' (tr ++ [e]) := by
  refine ⟨hl, fun id => ?_, always_concat.mpr ⟨h.past, he⟩⟩
  rw [hs]
  by_cases hids : id = s
  · subst hids
    rw [Function.update_self]
    exact hself
  · have hold (n : ℕ) : .consumed id n ∈ tr ++ [e] ↔ .consumed id n ∈ tr := by
      rw [List.mem_append, List.mem_singleton]
      exact or_iff_left (hcons id n hids)
    simp only [Function.update_of_ne hids, hclr id hids, hold]
    exact h.stream id

theorem FlushInv.mix {m : Mix} {tr : List Event} (h : FlushInv waits m tr) (delay : ℤ) :
    FlushInv waits (m.mix delay).1 (tr ++ (m.mix delay).2) := by
  have hl := h.ledger.mix delay
  rcases mix_cases m delay with ⟨hs, -, he, hpc⟩ | ⟨s, todo, flushed, hpc, hf, heq⟩ |
    ⟨s, todo, hpc, heq⟩ | ⟨s, want, todo, w, acc, hpc, heq⟩
  · refine h.same hl hs (fun id => ?_) he
    constructor
    · intro ⟨todo, ht⟩
      exact absurd ht (hpc id todo).2
    · intro ⟨todo, ht⟩
      exact absurd ht (hpc id todo).1
  · -- the swap: what is queued is older than the FLUSH just consumed
    rw [heq] at hl ⊢
    obtain ⟨hborn, hcons, hset, hpend⟩ := h.stream s
    refine h.update hl rfl (fun id hne => ?_) (fun id n hne => ?_) ⟨hborn, fun n hn => ?_,
      fun hc => absurd ⟨todo, rfl⟩ hc, fun hw _ => hpend hw (Or.inl hf)⟩
      ⟨trivial, fun _ => trivial⟩
    · simp [Clearing, hpc, Ne.symm hne]
    · intro heq
      cases heq
      exact hne rfl
    · rcases List.mem_append.mp hn with hn | hn
      · exact hcons n hn
      · cases List.mem_singleton.mp hn
        exact le_rfl
  · rw [heq] at hl ⊢
    obtain ⟨-, hcons, -, hpend⟩ := h.stream s
    refine h.update hl rfl (fun id hne => ?_) nofun ⟨nofun, fun n hn => ?_, fun _ _ _ => nofun,
      fun _ _ => nofun⟩ ⟨trivial, fun hw c hc => ?_⟩
    · simp [Clearing, hpc, Ne.symm hne]
    · exact hcons n (by simpa using hn)
    · rw [← h.ledger.flushes s]
      exact hpend hw (Or.inr ⟨todo, hpc⟩) c hc
  · rw [heq] at hl ⊢
    obtain ⟨hborn, hcons, hset, hpend⟩ := h.stream s
    obtain ⟨hd, hc, -, -⟩ := Ring.tryPop_spec want (h.ledger.live s)
    have hdrop : ∀ c ∈ ((m.streams s).ring.tryPop want).2.contents,
        c ∈ (m.streams s).ring.contents := by
      rw [hc]
      exact fun c => List.mem_of_mem_drop
    have hnc : ¬Clearing m s := by simp [Clearing, hpc]
    have htook : FlushMixed tr (.took s ((m.streams s).ring.tryPop want).1) := fun n hn c hm => by
      rw [hd] at hm
      exact hset hnc n hn c (List.mem_of_mem_take hm)
    refine h.update hl rfl (fun id _ => ?_) nofun ⟨fun c hm => hborn c (hdrop c hm), fun n hn => ?_,
      fun _ n hn c hm => ?_, fun hw hp c hm => ?_⟩ ⟨htook, fun _ => htook⟩
    · simp [Clearing, hpc]
    · exact hcons n (by simpa using hn)
    · exact hset hnc n (by simpa using hn) c (hdrop c hm)
    · refine hpend hw (hp.imp_right fun hclr => ?_) c (hdrop c hm)
      simp [Clearing] at hclr

theorem FlushInv.register {m : Mix} {tr : List Event} (h : FlushInv waits m tr) (ringBytes : ℕ)
    (hl : Ledger (m.register ringBytes) tr) : FlushInv waits (m.register ringBytes) tr := by
  refine ⟨hl, fun id => ?_, h.past⟩
  by_cases hids : id = m.registered
  · subst hids
    have hfr := h.ledger.fresh m.registered le_rfl
    have hle := (h.stream m.registered).consumed_le
    rw [hfr.flushesRead] at hle
    simp only [Mix.register, Mix.setStream, Function.update_self]
    exact ⟨nofun, hle, fun _ _ _ => nofun, fun _ _ => nofun⟩
  · simp only [Mix.register, Mix.setStream, Function.update_of_ne hids]
    exact h.stream id

/- What is pushed is born after the flushes that its reader has read. -/
theorem FlushInv.push {m m' : Mix} {tr es : List Event} {id : ℕ} {data : Bytes}
    (h : FlushInv waits m tr) (hok : waits → WaitsForFlush m (.push id data))
    (hs : Mixer.step m (.push id data) = some (m', es)) : FlushInv waits m' (tr ++ es) := by
  have hl := h.ledger.step hs
  obtain ⟨-, ring, cells, hcells, hring, rfl, rfl⟩ := step_push hs
  obtain ⟨hborn, hcons, hset, -⟩ := h.stream id
  obtain ⟨-, hc, -, -⟩ := Ring.push_spec hring
  have hnew : ∀ c ∈ cells, c.born = (m.streams id).flushesRead := by
    intro c hm
    rw [hcells] at hm
    obtain ⟨b, -, rfl⟩ := List.mem_map.mp hm
    rfl
  refine h.update hl rfl (fun _ _ => Iff.rfl) nofun ⟨fun c hm => ?_, fun n hn => ?_,
    fun hclr n hn c hm => ?_, fun hw hp => absurd hp (hok hw)⟩ ⟨trivial, fun _ => trivial⟩
  · rw [hc] at hm
    rcases List.mem_append.mp hm with hm | hm
    · exact hborn c hm
    · exact (hnew c hm).le
  · exact hcons n (by simpa using hn)
  · have hn' : .consumed id n ∈ tr := by simpa using hn
    rw [hc] at hm
    rcases List.mem_append.mp hm with hm | hm
    · exact hset hclr n hn' c hm
    · rw [hnew c hm]
      exact hcons n hn'

theorem FlushInv.step {m m' : Mix} {tr es : List Event} {i : Input} (h : FlushInv waits m tr)
    (hok : waits → WaitsForFlush m i) (hs : step m i = some (m', es)) :
    FlushInv waits m' (tr ++ es) := by
  have hl := h.ledger.step hs
  cases i with
  | mix delay =>
    have heq : m.mix delay = (m', es) := Option.some.inj hs
    have hm := h.mix delay
    rw [heq] at hm
    exact hm
  | register ringBytes =>
    cases hs
    rw [List.append_nil] at hl ⊢
    exact h.register ringBytes hl
  | push id data => exact h.push hok hs
  | requestFlush id =>
    obtain ⟨-, rfl, rfl⟩ := step_requestFlush hs
    obtain ⟨hborn, hcons, hset, -⟩ := h.stream id
    refine h.update hl rfl (fun _ _ => Iff.rfl) nofun
      ⟨fun c hm => (hborn c hm).trans (Nat.le_succ _), fun n hn => ?_,
        fun hclr n hn => ?_, fun _ _ c hm => Nat.lt_succ_of_le (hborn c hm)⟩
      ⟨trivial, fun _ => trivial⟩
    · exact (hcons n (by simpa using hn)).trans (Nat.le_succ _)
    · exact hset hclr n (by simpa using hn)
  | finish id =>
    obtain ⟨-, rfl, rfl⟩ := step_finish hs
    obtain ⟨hborn, hcons, hset, hpend⟩ := h.stream id
    refine h.update hl rfl (fun _ _ => Iff.rfl) nofun
      ⟨hborn, fun n hn => hcons n (by simpa using hn),
      fun hclr n hn => hset hclr n (by simpa using hn), hpend⟩ ⟨trivial, fun _ => trivial⟩
  | elapse ns | setMuted b | setVolume percent =>
    cases hs
    exact h.same hl rfl (fun _ => Iff.rfl) nofun

/- The rule for both kinds of run. -/
theorem run_flushInv (volume : F32) {is : List Input}
    (hok : machine.Meets (fun m i => waits → WaitsForFlush m i) (Mix.init volume) is) {m : Mix}
    {tr : List Event} (hrun : machine.run (Mix.init volume) is = some (m, tr)) :
    FlushInv waits m tr := by
  have hinit : FlushInv waits (Mix.init volume) [] :=
    ⟨ledger_init volume, fun _ => ⟨nofun, nofun, fun _ _ => nofun, fun _ _ => nofun⟩, always_nil⟩
  have hstep : ∀ m tr i m' es, (waits → WaitsForFlush m i) → FlushInv waits m tr →
      machine.step m i = some (m', es) → FlushInv waits m' (tr ++ es) :=
    fun m tr i m' es hok h hs => h.step hok hs
  exact machine.run_inv_of_meets hstep hinit hok hrun

/-- In every run nothing that was queued before a FLUSH is mixed once the mixer has seen the
FLUSH, and in every run whose readers hold back their chunks until then nothing else is
dropped. -/
theorem run_flush_exact (volume : F32) (is : List Input) {m : Mix} {tr : List Event}
    (hrun : machine.run (Mix.init volume) is = some (m, tr)) :
    Always FlushMixed tr ∧
      (machine.Meets WaitsForFlush (Mix.init volume) is → Always FlushExact tr) := by
  constructor
  · have hany : machine.Meets (fun m i => False → WaitsForFlush m i) (Mix.init volume) is :=
      (machine.meets_true (Mix.init volume) is).mono fun _ _ _ hw => hw.elim
    exact fun pre e post h => ((run_flushInv volume hany hrun).past pre e post h).1
  · intro hok
    have hall : machine.Meets (fun m i => True → WaitsForFlush m i) (Mix.init volume) is :=
      hok.mono fun _ _ h _ => h
    exact fun pre e post h => ((run_flushInv volume hall hrun).past pre e post h).2 trivial

/-- The reader waits for the clear before it pushes the next chunk. -/
def waitingRun : List Input :=
  [.register 16, .push 0 [1, 0, 2, 0], .requestFlush 0, .mix 0, .mix 0, .mix 0, .mix 0, .mix 0,
    .push 0 [3, 0, 4, 0]]

theorem run_flush_exact_waiting :
    ∃ m tr, machine.run (Mix.init (.fin 100)) waitingRun = some (m, tr) ∧ Always FlushExact tr :=
  ⟨_, _, rfl, (run_flush_exact (.fin 100) waitingRun rfl).2 (by decide)⟩

/- The chunk pushed right after the FLUSH is discarded with the old one. -/
theorem flush_drops_next_chunk :
    ¬ ∀ (volume : F32) (is : List Input) (m : Mix) (tr : List Event),
      machine.run (Mix.init volume) is = some (m, tr) → Always FlushExact tr := by
  intro h
  have hrun := h (.fin 100) [.register 16, .push 0 [1, 0, 2, 0], .requestFlush 0,
    .push 0 [3, 0, 4, 0], .mix 0, .mix 0, .mix 0, .mix 0, .mix 0] _ _ rfl
  have hdrop := hrun [.pushed 0 [⟨1, 0⟩, ⟨0, 0⟩, ⟨2, 0⟩, ⟨0, 0⟩], .flushRead 0,
    .pushed 0 [⟨3, 1⟩, ⟨0, 1⟩, ⟨4, 1⟩, ⟨0, 1⟩], .tick, .consumed 0 1]
    (.dropped 0 [⟨1, 0⟩, ⟨0, 0⟩, ⟨2, 0⟩, ⟨0, 0⟩, ⟨3, 1⟩, ⟨0, 1⟩, ⟨4, 1⟩, ⟨0, 1⟩]) [] rfl
  have hlate := hdrop ⟨3, 1⟩ (by decide)
  revert hlate
  decide

end Audiod.Mixer
