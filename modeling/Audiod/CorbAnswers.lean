import Audiod.Corb

/-!
# Whose answer a codec command returns

Responses carry no verb number: `wait_response` takes the first solicited entry
of its codec. A response that lands after its call has timed out is therefore
taken by the next call to the same codec. Without such late responses every
command returns its own answer.
-/

namespace Audiod.Corb

/-- A call returns only what its own verb was answered with. -/
def OwnAnswer (pre : List Event) : Event → Prop
  | .returned id (.ok r) => .answered id r ∈ pre
  | _ => True

/-- The driver would take a response that lands now for the one it waits for. -/
def Takes (c : Controller) (r ex : U32) : Prop :=
  match c.phase with
  | .send | .poll | .drain _ | .deadline =>
    c.hw.running = true ∧ (routeEntry r ex c.cad).answer ≠ none
  | .pioSet irsValid => c.hw.running = false ∧ irsValid = false
  | .pioPoll | .pioIr | .pioDeadline => c.hw.running = false
  | .idle | .pioSpin _ | .pioClear | .pioIc | .pioRead => False

instance (c : Controller) (r ex : U32) : Decidable (Takes c r ex) := by
  unfold Takes
  split <;> infer_instance

/-- A response that comes late is not there when the next call to its codec
starts, and does not land while a later call would take it. -/
def Undisturbed (c : Controller) : Input → Prop
  | .cmd cad _ _ _ => c.engine = .corb →
      c.pending = [] ∧ ∀ e ∈ c.unread, (routeEntry e.1 e.2 cad).answer = none
  | .answer r ex => Takes c r ex → ∀ v ∈ c.hw.link.head?, v.id = c.cmdword.id
  | _ => True

instance (c : Controller) (i : Input) : Decidable (Undisturbed c i) :=
  match i with
  | .cmd cad _ _ _ =>
    -- By running through the list, not through all entries there are.
    have : Decidable (∀ e ∈ c.unread, (routeEntry e.1 e.2 cad).answer = none) :=
      List.decidableBAll _ _
    inferInstanceAs (Decidable (_ → _))
  | .answer _ _ => inferInstanceAs (Decidable (_ → _))
  | .drive _ | .wpOutside _ | .fetch | .lose | .unsolicited _ _ => isTrue trivial

/-! ### The invariant -/

variable {c c' : Controller} {tr es : List Event}

/-- What the driver makes of an entry is the answer to the current verb. -/
def Own (tr : List Event) (c : Controller) (e : U32 × U32) : Prop :=
  ∀ r, (routeEntry e.1 e.2 c.cad).answer = some r → .answered c.cmdword.id r ∈ tr

def PhaseInv (c : Controller) (tr : List Event) : Prop :=
  match c.phase with
  | .idle | .pioSpin _ | .pioClear | .pioIc | .pioRead => True
  | .send | .poll | .deadline =>
    c.pending = [] ∧ ∀ e ∈ between c.count c.hw.rirb c.swRp c.hw.rirbWp, Own tr c e
  | .drain hwWp =>
    c.pending = [] ∧ hwWp < c.count ∧ (∀ e ∈ between c.count c.hw.rirb c.swRp hwWp, Own tr c e) ∧
      ∀ e ∈ between c.count c.hw.rirb hwWp c.hw.rirbWp, Own tr c e
  | .pioSet irsValid =>
    c.hw.irsValid = true → irsValid = true ∨ .answered c.cmdword.id c.hw.ir ∈ tr
  | .pioPoll | .pioDeadline => c.hw.irsValid = true → .answered c.cmdword.id c.hw.ir ∈ tr
  | .pioIr => .answered c.cmdword.id c.hw.ir ∈ tr

structure Bounds (c : Controller) : Prop where
  sw_lt : c.swRp < c.count
  wp_lt : c.hw.rirbWp < c.count

structure AnswerInv (c : Controller) (tr : List Event) : Prop where
  bounds : Bounds c
  phase : PhaseInv c tr
  past : Always OwnAnswer tr

theorem Own.append {e : U32 × U32} (h : Own tr c e) (es : List Event) : Own (tr ++ es) c e :=
  fun r hr => List.mem_append_left es (h r hr)

theorem PhaseInv.append (h : PhaseInv c tr) (es : List Event) : PhaseInv c (tr ++ es) := by
  have happ : ∀ e : Event, e ∈ tr → e ∈ tr ++ es := fun e => List.mem_append_left es
  unfold PhaseInv at h ⊢
  cases hph : c.phase <;> rw [hph] at h <;> dsimp only at h ⊢
  case send | poll | deadline => exact ⟨h.1, fun e he => (h.2 e he).append es⟩
  case drain hwWp =>
    obtain ⟨hpend, hlt, hread, hnew⟩ := h
    exact ⟨hpend, hlt, fun e he => (hread e he).append es, fun e he => (hnew e he).append es⟩
  case pioSet irsValid => exact fun hv => (h hv).imp_right (happ _)
  case pioPoll | pioDeadline => exact fun hv => happ _ (h hv)
  case pioIr => exact happ _ h

/-! ### The driver -/

theorem inv_ok (hb : Bounds c) (hp : Always OwnAnswer tr) {r : U32}
    (hr : .answered c.cmdword.id r ∈ tr) : AnswerInv (c.ret (.ok r)).1 (tr ++ (c.ret (.ok r)).2) :=
  ⟨⟨hb.sw_lt, hb.wp_lt⟩, trivial, always_concat.mpr ⟨hp, hr⟩⟩

theorem inv_err (hb : Bounds c) (hp : Always OwnAnswer tr) (e : Err) :
    AnswerInv (c.ret (.error e)).1 (tr ++ (c.ret (.error e)).2) :=
  ⟨⟨hb.sw_lt, hb.wp_lt⟩, trivial, always_concat.mpr ⟨hp, trivial⟩⟩

theorem inv_quiet (hb : Bounds c) (hp : Always OwnAnswer tr) (hph : PhaseInv c tr) :
    AnswerInv c (tr ++ []) := by
  rw [List.append_nil]
  exact ⟨hb, hph, hp⟩

theorem inv_corbErr (hb : Bounds c) (hp : Always OwnAnswer tr) (e : Err) :
    AnswerInv (c.corbErr e).1 (tr ++ (c.corbErr e).2) := by
  have hfall : ∀ c : Controller, Bounds c →
      AnswerInv { c.degradeToPio with phase := .pioSpin 50 } (tr ++ []) :=
    fun c hb => inv_quiet ⟨hb.sw_lt, hb.wp_lt⟩ hp trivial
  cases e with
  | timedOut =>
    dsimp only [Controller.corbErr]
    split
    · exact hfall _ ⟨hb.sw_lt, hb.wp_lt⟩
    · have hb' : Bounds { c with corbTimeouts := c.corbTimeouts + 1 } := ⟨hb.sw_lt, hb.wp_lt⟩
      exact inv_err hb' hp .timedOut
  | wouldBlock | wpOutside =>
    dsimp only [Controller.corbErr]
    split
    · exact hfall c hb
    · exact inv_err hb hp _

theorem inv_popPending (hb : Bounds c) (hp : Always OwnAnswer tr) (next : Phase)
    (hall : ∀ r ∈ c.pending, .answered c.cmdword.id r ∈ tr)
    (hnext : c.pending = [] → PhaseInv { c with phase := next } tr) :
    AnswerInv (c.popPending next).1 (tr ++ (c.popPending next).2) := by
  unfold Controller.popPending
  split
  · rename_i r rest hpe
    have hr : .answered c.cmdword.id r ∈ tr := hall r (by rw [hpe]; exact List.mem_cons_self)
    have hb' : Bounds { c with pending := rest, corbTimeouts := 0 } := ⟨hb.sw_lt, hb.wp_lt⟩
    exact inv_ok hb' hp hr
  · rename_i hpe
    exact inv_quiet ⟨hb.sw_lt, hb.wp_lt⟩ hp (hnext hpe)

theorem inv_send (h : AnswerInv c tr) (hph : c.phase = .send) :
    AnswerInv c.send.1 (tr ++ c.send.2) := by
  have hinv := h.phase
  simp only [PhaseInv, hph] at hinv
  unfold Controller.send
  dsimp only
  split
  · exact inv_corbErr h.bounds h.past _
  · rename_i hroom
    have hb : Bounds { c with
        hw.corb := Function.update c.hw.corb ((c.hw.corbWp + 1) % c.count) c.cmdword
        hw.corbWp := (c.hw.corbWp + 1) % c.count } := ⟨h.bounds.sw_lt, h.bounds.wp_lt⟩
    refine inv_popPending hb h.past .poll ?_ fun _ => hinv
    intro r hr
    simp only [hinv.1, List.not_mem_nil] at hr

theorem inv_drain (h : AnswerInv c tr) {hwWp : ℕ} (hph : c.phase = .drain hwWp) :
    AnswerInv (c.drain hwWp).1 (tr ++ (c.drain hwWp).2) := by
  have hinv := h.phase
  simp only [PhaseInv, hph] at hinv
  obtain ⟨hpe, hlt, hread, hleft⟩ := hinv
  let entries := collectEntries c.hw.rirb c.swRp hwWp c.count
  have hb : Bounds { c with
      swRp := hwWp
      pending := c.pending ++ entries.filterMap fun e : U32 × U32 =>
        (routeEntry e.1 e.2 c.cad).answer } := ⟨hlt, h.bounds.wp_lt⟩
  refine inv_popPending hb h.past .deadline ?_ fun hnil => ⟨hnil, hleft⟩
  intro r hr
  simp only [entries, hpe, List.nil_append, List.mem_filterMap] at hr
  obtain ⟨e, he, hroute⟩ := hr
  rw [collectEntries_eq _ h.bounds.sw_lt hlt] at he
  exact hread e he r hroute

theorem inv_drive (h : AnswerInv c tr) (expired : Bool) :
    AnswerInv (c.drive expired).1 (tr ++ (c.drive expired).2) := by
  have hp := h.past
  have hinv := h.phase
  have hb : ∀ hw : Hw, hw.rirbWp = c.hw.rirbWp → ∀ ph, Bounds { c with hw := hw, phase := ph } :=
    fun hw heq ph => ⟨h.bounds.sw_lt, by rw [heq]; exact h.bounds.wp_lt⟩
  unfold Controller.drive
  split <;> rename_i hph
  · exact inv_quiet h.bounds hp hinv
  · exact inv_send h hph
  · simp only [PhaseInv, hph] at hinv
    split
    · exact inv_quiet (hb _ rfl _) hp hinv
    · refine inv_quiet (hb _ rfl _) hp ⟨hinv.1, h.bounds.wp_lt, hinv.2, ?_⟩
      intro e he
      rw [between_self] at he
      cases he
  · exact inv_drain h hph
  · simp only [PhaseInv, hph] at hinv
    split
    · exact inv_corbErr h.bounds hp _
    · exact inv_quiet (hb _ rfl _) hp hinv
  · split
    · split
      · exact inv_err h.bounds hp _
      · exact inv_quiet (hb _ rfl _) hp trivial
    · exact inv_quiet (hb _ rfl _) hp trivial
  · exact inv_quiet (hb { c.hw with irsValid := false } rfl _) hp trivial
  · exact inv_quiet (hb { c.hw with ic := c.cmdword } rfl _) hp trivial
  · exact inv_quiet (hb _ rfl _) hp fun hv => .inl hv
  · rename_i irsValid
    simp only [PhaseInv, hph] at hinv
    refine inv_quiet (hb { c.hw with
      irsValid := c.hw.irsValid && !irsValid
      irsBusy := true
      link := c.hw.link ++ [c.hw.ic] } rfl _) hp fun hv => ?_
    -- A response latched before IRS was read is wiped by the write back.
    simp only [Bool.and_eq_true, Bool.not_eq_true'] at hv
    have hor := hinv hv.1
    rw [hv.2] at hor
    exact hor.resolve_left nofun
  · simp only [PhaseInv, hph] at hinv
    split
    · rename_i hv
      exact inv_quiet (hb _ rfl _) hp (hinv hv)
    · exact inv_quiet (hb _ rfl _) hp hinv
  · simp only [PhaseInv, hph] at hinv
    exact inv_ok h.bounds hp hinv
  · simp only [PhaseInv, hph] at hinv
    split
    · exact inv_err h.bounds hp _
    · exact inv_quiet (hb _ rfl _) hp hinv

/-! ### The controller and the codecs -/

theorem answer_of_routeEntry {r ex cad q : U32} (h : (routeEntry r ex cad).answer = some q) :
    r = q := by
  unfold routeEntry at h
  dsimp only at h
  split at h
  · cases h
  · split at h
    · cases h
    · exact Option.some.inj h

theorem bounds_writeEntry (hb : Bounds c) (e : U32 × U32) : Bounds (c.writeEntry e) :=
  ⟨hb.sw_lt, Nat.mod_lt _ (Nat.zero_lt_of_lt hb.sw_lt)⟩

theorem phase_writeEntry (hb : Bounds c) (hrun : c.hw.running = true) (h : PhaseInv c tr)
    {e : U32 × U32} (htakes : Takes c e.1 e.2 → Own tr c e) : PhaseInv (c.writeEntry e) tr := by
  have hown : (c.hw.running = true ∧ (routeEntry e.1 e.2 c.cad).answer ≠ none → Own tr c e) →
      Own tr c e := fun himp r hr => himp ⟨hrun, by rw [hr]; nofun⟩ r hr
  have hnew : ∀ rp, Own tr c e → rp < c.count →
      (∀ x ∈ between c.count c.hw.rirb rp c.hw.rirbWp, Own tr c x) →
      ∀ x ∈ between c.count (c.writeEntry e).hw.rirb rp (c.writeEntry e).hw.rirbWp,
        Own tr (c.writeEntry e) x := by
    intro rp he hrp hold x hx
    rcases mem_between_advance hrp hb.wp_lt hx with heq | hx'
    · rw [heq]
      exact he
    · exact hold x hx'
  cases hph : c.phase with
  | idle | pioSpin _ | pioClear | pioIc | pioRead =>
    simp only [PhaseInv, Controller.writeEntry, hph]
  | pioSet _ | pioPoll | pioIr | pioDeadline =>
    simp only [PhaseInv, Controller.writeEntry, hph] at h ⊢
    exact h
  | send | poll | deadline =>
    simp only [PhaseInv, Takes, hph] at h htakes
    simp only [PhaseInv, show (c.writeEntry e).phase = c.phase from rfl, hph]
    exact ⟨h.1, hnew c.swRp (hown htakes) hb.sw_lt h.2⟩
  | drain hwWp =>
    simp only [PhaseInv, Takes, hph] at h htakes
    simp only [PhaseInv, show (c.writeEntry e).phase = c.phase from rfl, hph]
    refine ⟨h.1, h.2.1, ?_, hnew hwWp (hown htakes) h.2.1 h.2.2.2⟩
    intro x hx
    rcases mem_between_update hx with heq | hx'
    · rw [heq]
      exact hown htakes
    · exact h.2.2.1 x hx'

theorem inv_answer (h : AnswerInv c tr) {r ex : U32} (hok : Undisturbed c (.answer r ex))
    (hs : c.answer r ex = some (c', es)) : AnswerInv c' (tr ++ es) := by
  unfold Controller.answer at hs
  split at hs
  · cases hs
  · rename_i v rest hlink
    have hown : Takes c r ex → v.id = c.cmdword.id := fun ht => hok ht v (by rw [hlink]; rfl)
    have hpast : Always OwnAnswer (tr ++ [.answered v.id r]) :=
      always_concat.mpr ⟨h.past, trivial⟩
    have hphase : PhaseInv { c with hw.link := rest } (tr ++ [.answered v.id r]) :=
      h.phase.append _
    have hlast : Takes c r ex → .answered c.cmdword.id r ∈ tr ++ [.answered v.id r] := by
      intro ht
      rw [hown ht]
      exact List.mem_concat_self
    have hb : Bounds { c with hw.link := rest } := ⟨h.bounds.sw_lt, h.bounds.wp_lt⟩
    dsimp only at hs
    split at hs
    · rename_i hrun
      split at hs
      · cases hs
        refine ⟨bounds_writeEntry hb _, phase_writeEntry hb hrun hphase ?_, hpast⟩
        intro ht q hq
        rw [← answer_of_routeEntry hq]
        exact hlast ht
      · cases hs
    · rename_i hrun
      cases hs
      refine ⟨⟨h.bounds.sw_lt, h.bounds.wp_lt⟩, ?_, hpast⟩
      have hoff : c.hw.running = false := by simpa using hrun
      cases hph : c.phase with
      | idle | pioSpin _ | pioClear | pioIc | pioRead => simp only [PhaseInv]
      | send | poll | deadline | drain _ =>
        simp only [PhaseInv, hph] at hphase ⊢
        exact hphase
      | pioSet irsValid =>
        simp only [PhaseInv, Takes, hph] at hlast ⊢
        intro _
        cases irsValid with
        | true => exact .inl rfl
        | false => exact .inr (hlast ⟨hoff, rfl⟩)
      | pioPoll | pioDeadline =>
        simp only [PhaseInv, Takes, hph] at hlast ⊢
        exact fun _ => hlast hoff
      | pioIr =>
        simp only [PhaseInv, Takes, hph] at hlast ⊢
        exact hlast hoff

theorem inv_cmd (h : AnswerInv c tr) {cad nid verb payload : U32}
    (hok : Undisturbed c (.cmd cad nid verb payload))
    (hs : c.cmd cad nid verb payload = some (c', es)) : AnswerInv c' (tr ++ es) := by
  unfold Controller.cmd at hs
  split at hs
  · cases hs
    refine inv_quiet ⟨h.bounds.sw_lt, h.bounds.wp_lt⟩ h.past ?_
    cases heng : c.engine with
    | pio => trivial
    | corb =>
      obtain ⟨hpe, hun⟩ := hok heng
      refine ⟨hpe, fun e he r hr => ?_⟩
      rw [← collectEntries_eq _ h.bounds.sw_lt h.bounds.wp_lt] at he
      have hnone := hun e he
      rw [show (routeEntry e.1 e.2 cad).answer = some r from hr] at hnone
      cases hnone
  · cases hs

theorem AnswerInv.step (h : AnswerInv c tr) {i : Input} (hok : Undisturbed c i)
    (hs : step c i = some (c', es)) : AnswerInv c' (tr ++ es) := by
  have hb : ∀ hw : Hw, hw.rirbWp = c.hw.rirbWp → Bounds { c with hw := hw } :=
    fun hw heq => ⟨h.bounds.sw_lt, by rw [heq]; exact h.bounds.wp_lt⟩
  cases i with
  | cmd cad nid verb payload => exact inv_cmd h hok hs
  | drive expired =>
    have hd := inv_drive h expired
    rw [show c.drive expired = (c', es) from Option.some.inj hs] at hd
    exact hd
  | wpOutside reg =>
    simp only [Corb.step] at hs
    split at hs
    · split at hs
      · have he := inv_corbErr h.bounds h.past .wpOutside
        rw [show c.corbErr .wpOutside = (c', es) from Option.some.inj hs] at he
        exact he
      · cases hs
    · cases hs
  | fetch =>
    simp only [Corb.step] at hs
    split at hs
    · cases hs
      exact inv_quiet (hb _ rfl) h.past h.phase
    · cases hs
  | answer r ex => exact inv_answer h hok hs
  | lose =>
    simp only [Corb.step] at hs
    split at hs
    · cases hs
      exact inv_quiet (hb _ rfl) h.past h.phase
    · cases hs
  | unsolicited r ex =>
    simp only [Corb.step] at hs
    split at hs
    · rename_i hun
      cases hs
      refine inv_quiet (bounds_writeEntry h.bounds _) h.past
        (phase_writeEntry h.bounds hun.1 h.phase fun _ q hq => ?_)
      rw [routeEntry, if_pos hun.2] at hq
      cases hq
    · cases hs

theorem answerInv_init (size : RingSize) (engine : Engine) : AnswerInv (init size engine) [] := by
  have hpos : 0 < size.entries := by cases size <;> decide
  cases engine with
  | corb => exact ⟨⟨hpos, hpos⟩, trivial, always_nil⟩
  | pio => exact ⟨⟨hpos, hpos⟩, trivial, always_nil⟩

/-- Every codec command returns its own answer in every run without a late
response that disturbs a call. -/
theorem run_own_answer (size : RingSize) (engine : Engine) (is : List Input)
    (hok : machine.Meets Undisturbed (init size engine) is) {c : Controller} {tr : List Event}
    (hrun : machine.run (init size engine) is = some (c, tr)) : Always OwnAnswer tr := by
  have hstep : ∀ c tr i c' es, Undisturbed c i → AnswerInv c tr →
      machine.step c i = some (c', es) → AnswerInv c' (tr ++ es) :=
    fun c tr i c' es hok h hs => h.step hok hs
  have hend := machine.run_inv_of_meets hstep (answerInv_init size engine) hok hrun
  exact hend.past

/-- A call is answered in time; the next one times out, with no call after it. -/
def answeredRun : List Input :=
  [.cmd 0#32 1#32 0xf00#32 4#32, .drive false, .fetch, .answer 0x11#32 0#32, .drive false,
    .drive false, .cmd 0#32 1#32 0xf00#32 5#32, .drive false, .fetch, .drive false, .drive true]

theorem run_own_answer_in_time : ∃ c tr,
    machine.run (init .n256 .corb) answeredRun = some (c, tr) ∧ Always OwnAnswer tr :=
  ⟨_, _, rfl, run_own_answer .n256 .corb answeredRun (by decide +kernel) rfl⟩

/- The first call times out, its response lands, and the second call, to the same
codec, returns it. -/
theorem late_answer_returned :
    ¬ ∀ (size : RingSize) (engine : Engine) (is : List Input) (c : Controller) (tr : List Event),
      machine.run (init size engine) is = some (c, tr) → Always OwnAnswer tr := by
  intro h
  have hrun := h .n256 .corb [.cmd 0#32 1#32 0xf00#32 4#32, .drive false, .fetch, .drive false,
    .drive true, .answer 0x11#32 0#32, .cmd 0#32 1#32 0xf00#32 5#32, .drive false, .drive false,
    .drive false] _ _ rfl
  have hret : OwnAnswer [.returned 1 (.error .timedOut), .answered 1 0x11#32]
      (.returned 2 (.ok 0x11#32)) := hrun _ _ [] rfl
  simp [OwnAnswer] at hret

end Audiod.Corb
