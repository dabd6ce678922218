import Audiod.ShimHeader

/-!
# The connections of a process

Every connection of the process, over any number of handles and any interleaving
of their calls and drain threads.
-/

namespace Audiod.Shim

variable {p' : Process} {h h' : Handle}

structure HeaderInv (w : World) : Prop where
  logs : Logs w.proc.net
  own : ∀ i, ∀ h ∈ w.handles i, Owned w.proc.net h
  apart : ∀ i j, ∀ h ∈ w.handles i, ∀ h' ∈ w.handles j, ∀ fd,
    h.fd = some fd → h'.fd = some fd → i = j

theorem Attached.hangup {c : Conn Origin} (ha : Attached h c) :
    Attached h { c with alive := false } := by
  unfold Attached at ha ⊢
  split at ha
  · exact .inl rfl
  · trivial
  · trivial
  · exact ha
  · cases hc : h.configured with
    | true => exact atRest_true.mpr (.inl rfl)
    | false =>
      rw [hc, atRest_false] at ha
      exact atRest_false.mpr ha

theorem behind_ne_none {w : World} (hi : HeaderInv w) {i fd : ℕ} {h : Handle}
    (hh : w.handles i = some h) (hfd : h.fd = some fd) : w.proc.net.behind fd ≠ none := by
  obtain ⟨c, hc, -⟩ := (hi.own i h hh).conn fd hfd
  rw [hc]
  nofun

/- A handle is put in its place: the descriptors of the others are neither touched
nor taken. -/
theorem headerInv_put {w : World} (hi : HeaderInv w) (i n : ℕ) (hl : Logs p'.net)
    (ho : Owned p'.net h')
    (hframe : ∀ j, j ≠ i → ∀ x ∈ w.handles j, ∀ fd, x.fd = some fd →
      p'.net.behind fd = w.proc.net.behind fd ∧ h'.fd ≠ some fd) :
    HeaderInv { proc := p', handles := Function.update w.handles i (some h'), opened := n } := by
  refine ⟨hl, fun j x hx => ?_, fun j k x hx y hy fd hxf hyf => ?_⟩
  · simp only [Function.update_apply] at hx
    split at hx
    · cases hx
      exact ho
    · rename_i hji
      have hold := hi.own j x hx
      refine ⟨hold.loc, fun fd hfd => ?_⟩
      rw [(hframe j hji x hx fd hfd).1]
      exact hold.conn fd hfd
  · simp only [Function.update_apply] at hx hy
    split at hx <;> split at hy
    · rename_i hj hk
      rw [hj, hk]
    · rename_i hki
      cases hx
      exact absurd hxf (hframe k hki y hy fd hyf).2
    · rename_i hji _
      cases hy
      exact absurd hyf (hframe j hji x hx fd hxf).2
    · exact hi.apart j k x hx y hy fd hxf hyf

theorem headerInv_handle {w : World} (hi : HeaderInv w) {i : ℕ} (hh : w.handles i = some h)
    (hs : StepOk w.proc h p' h') :
    HeaderInv { w with proc := p', handles := Function.update w.handles i (some h') } := by
  refine headerInv_put hi i w.opened hs.logs hs.own fun j hji x hx fd hfd => ?_
  have hopen := behind_ne_none hi hx hfd
  have hother : h.fd ≠ some fd := fun hfd' => hji (hi.apart j i x hx h hh fd hfd hfd')
  refine ⟨hs.frame fd hother hopen, fun hfd' => ?_⟩
  rcases hs.fresh fd hfd' with hold | hnew
  · exact hother hold
  · exact hopen hnew

theorem owned_opened {net net' : Net Origin} (ringBytes fd : ℕ) (hc : net.connect fd = some net') :
    Owned net' (Handle.opened ringBytes fd) := by
  refine ⟨⟨fun _ => ⟨trivial, rfl⟩, nofun, nofun, nofun, nofun, nofun, nofun, nofun, nofun, nofun⟩,
    fun fd' hfd => ?_⟩
  cases hfd
  exact ⟨_, (Net.connect_behind hc).2, rfl⟩

theorem headerInv_open {w : World} (hi : HeaderInv w) {ringBytes fd : ℕ} {net : Net Origin}
    (hc : w.proc.net.connect fd = some net) :
    HeaderInv { proc := { w.proc with net := net }
                handles := Function.update w.handles w.opened (some (Handle.opened ringBytes fd))
                opened := w.opened + 1 } := by
  refine headerInv_put hi w.opened (w.opened + 1)
    (hi.logs.connect hc) (owned_opened ringBytes fd hc) fun j _ x hx fd' hfd => ?_
  have hne : fd' ≠ fd := fun heq =>
    behind_ne_none hi hx hfd (heq ▸ (Net.connect_behind hc).1)
  refine ⟨Net.connect_behind_ne hi.logs.wf hc hne, fun hfd' => ?_⟩
  cases hfd'
  exact hne rfl

theorem headerInv_hangup {w : World} (hi : HeaderInv w) (c : ℕ) :
    HeaderInv { w with proc := { w.proc with net := w.proc.net.hangup c } } := by
  refine ⟨⟨hi.logs.wf.hangup c, fun d => ?_⟩, fun j x hx => ?_, hi.apart⟩
  · simp only [Net.hangup, Function.update_apply]
    split
    · rename_i hd
      exact hd ▸ hi.logs.first c
    · exact hi.logs.first d
  · have ho := hi.own j x hx
    refine ⟨ho.loc, fun fd hfd => ?_⟩
    obtain ⟨y, hy, hatt⟩ := ho.conn fd hfd
    rcases Net.hangup_behind w.proc.net c fd with hsame | ⟨z, hz, hdead⟩
    · exact ⟨y, by rw [hsame, hy], hatt⟩
    · rw [hy, Option.some.injEq] at hz
      exact ⟨_, hdead, hz ▸ hatt.hangup⟩

theorem HeaderInv.step {w w' : World} (hi : HeaderInv w) {x : Action} (hok : HeaderSafe w x)
    {tr : List (ℕ × Event)} (hs : w.step x = some (w', tr)) : HeaderInv w' := by
  cases x with
  | «open» ringBytes fd =>
    simp only [World.step] at hs
    split at hs
    · cases hs
    · rename_i net hc
      cases hs
      exact headerInv_open hi hc
  | handle i y =>
    simp only [World.step] at hs
    split at hs
    · cases hs
    · rename_i h hh
      have ho := hi.own i h hh
      split at hs
      · cases hs
      · rename_i p' h' es hstep
        cases hs
        apply headerInv_handle hi hh
        cases y with
        | call c =>
          simp only [Shim.step] at hstep
          split at hstep
          · exact stepOk_call hi.logs ho c (Option.some.inj hstep)
          · cases hstep
        | app a => exact stepOk_app hi.logs ho (hok h hh) hstep
        | drain a => exact stepOk_drain hi.logs ho (hok h hh) hstep
  | hangup c =>
    cases hs
    exact headerInv_hangup hi c
  | elapse dt =>
    simp only [World.step] at hs
    split at hs
    · cases hs
      exact ⟨hi.logs, hi.own, hi.apart⟩
    · cases hs

theorem headerInv_init : HeaderInv World.init := by
  refine ⟨⟨Net.wf_init, fun _ => headerFirst_nil⟩, ?_, ?_⟩
  · intro i h hh
    cases hh
  · intro i j h hh
    cases hh

/-- Every connection of the process carries one header and then frames, in every
run in which no drain thread takes a command before its handle is configured and
no header send goes wrong on a live connection. -/
theorem run_header_first (xs : List Action) (hok : world.Meets HeaderSafe World.init xs) {w : World}
    {tr : List (ℕ × Event)} (hrun : world.run World.init xs = some (w, tr)) (c : ℕ) :
    HeaderFirst (w.proc.net.conns c).sent := by
  have hstep : ∀ w x w' es, HeaderSafe w x → HeaderInv w → world.step w x = some (w', es) →
      HeaderInv w' := fun w x w' es hx hi hs => hi.step hx hs
  have hend := world.run_state_inv_of_meets hstep headerInv_init hok hrun
  exact hend.logs.first c

/-- One handle is configured and plays a frame; the peer hangs up, and the drain
thread reconnects. -/
def reconnectRun : List Action :=
  [.open 4096 3, .handle 0 (.call (.setParams 2 2 48000)), .handle 0 (.app .go),
    .handle 0 (.app .go), .handle 0 (.app (.accept 12)), .handle 0 (.call (.writei [1, 0, 2, 0])),
    .handle 0 (.app .go), .handle 0 (.app .go), .handle 0 (.app .go), .handle 0 (.app .go),
    .handle 0 (.drain .go), .handle 0 (.drain .go), .handle 0 (.drain .go), .handle 0 (.drain .go),
    .handle 0 (.drain (.accept 6)), .hangup 0, .handle 0 (.drain .error), .handle 0 (.drain .go),
    .handle 0 (.drain .go), .handle 0 (.drain .go), .handle 0 (.drain (.connected 3)),
    .handle 0 (.drain (.accept 12))]

theorem run_header_first_reconnect : ∃ w tr, world.run World.init reconnectRun = some (w, tr) ∧
    HeaderFirst (w.proc.net.conns 0).sent ∧ HeaderFirst (w.proc.net.conns 1).sent :=
  have hok : world.Meets HeaderSafe World.init reconnectRun := by decide +kernel
  ⟨_, _, rfl, run_header_first reconnectRun hok rfl 0, run_header_first reconnectRun hok rfl 1⟩

/- `snd_pcm_pause` on a handle that is open and not configured: its drain thread
sends the FLUSH frame on a connection without a header. -/
theorem pause_sends_before_header :
    ¬ ∀ (xs : List Action) (w : World) (tr : List (ℕ × Event)) (c : ℕ),
      world.run World.init xs = some (w, tr) → HeaderFirst (w.proc.net.conns c).sent := by
  intro h
  have hlog := h [.open 4096 3, .handle 0 (.call (.pause true)), .handle 0 (.drain .go),
    .handle 0 (.drain .go), .handle 0 (.drain .go), .handle 0 (.drain (.accept 5))] _ _ 0 rfl
  obtain ⟨hd, frames, -, rest, hsplit⟩ := hlog
  -- The first byte is part of a frame.
  have hhead : some (Origin.frame, (1 : Byte)) = (headed hd frames).head? := by
    rw [← hsplit]
    rfl
  have horigin := congrArg (Option.map Prod.fst) hhead
  cases horigin

end Audiod.Shim
