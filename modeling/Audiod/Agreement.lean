import Audiod.Fence
import Audiod.StreamBlock

/-!
# The converters and the stream agree (`hda/src/codec.rs:189-250`, `stream.rs:93-124`)

From `open` on, the codec is the playback path, but for the mutes of its two converters.
While the engine runs, both converters listen to the tag in the control word of the stream
and in its format.
-/

namespace Audiod.Driver

open Dialogue
open Corb (makeVerb)

/-! ### The mutes of the converters -/

/-- The link with both converters at their gain, each muted or not. -/
def Link.withMutes (l : Link) (cad : BitVec 4) (spk hp : Bool) : Link :=
  (l.change cad 0x02#8 (ampOut 0x44#7 spk)).change cad 0x03#8 (ampOut 0x44#7 hp)

theorem change_comm (l : Link) (cad : BitVec 4) {nid nid' : U8} (hne : nid ≠ nid')
    (f g : Node → Node) :
    (l.change cad nid f).change cad nid' g = (l.change cad nid' g).change cad nid f := by
  funext c n
  simp only [Link.change]
  by_cases hn : n = nid
  · have hn' : n ≠ nid' := fun h => hne (hn.symm.trans h)
    simp [hn, hne]
  · simp [hn]

theorem change_withMutes_spk (l : Link) (cad : BitVec 4) (spk hp mute : Bool) :
    (l.withMutes cad spk hp).change cad 0x02#8 (ampOut 0x44#7 mute) = l.withMutes cad mute hp := by
  rw [Link.withMutes, change_comm _ _ (by decide), change_change]
  rfl

theorem change_withMutes_hp (l : Link) (cad : BitVec 4) (spk hp mute : Bool) :
    (l.withMutes cad spk hp).change cad 0x03#8 (ampOut 0x44#7 mute) = l.withMutes cad spk mute := by
  rw [Link.withMutes, change_change]
  rfl

theorem playbackPath_unmuted (l : Link) (cad : BitVec 4) (fmt : U16) (tag : U8) :
    (l.playbackPath cad fmt tag).withMutes cad false false = l.playbackPath cad fmt tag := by
  funext c n
  simp only [Link.withMutes, Link.playbackPath, Link.change]
  by_cases hspk : c = cad ∧ n = 0x02#8
  · obtain ⟨rfl, rfl⟩ := hspk
    simp [dacOn, ampOut]
  by_cases hhp : c = cad ∧ n = 0x03#8
  · obtain ⟨rfl, rfl⟩ := hhp
    simp [dacOn, ampOut]
  simp only [hspk, hhp, if_false]

/-! ### What leaves the link as it is -/

def Op.Silent (o : Op) : Prop := ∀ (l : Link) x, l.next o x = l

theorem Op.Gets.silent {o : Op} (h : o.Gets) : o.Silent := by
  intro l x
  cases o with
  | verb word =>
    simp only [Link.next]
    split
    · have hexec : (·.exec word) = fun n : Node => n := funext h
      rw [Link.exec, hexec, change_self]
    · rfl
  | _ => exact h.elim

theorem Op.Streams.silent {c : Controller} {o : Op} (h : o.Streams c) : o.Silent := by
  intro l x
  cases o with
  | verb word => exact (h.elim not_sd_verb not_global_verb).elim
  | _ => rfl

theorem Op.Passive.silent {o : Op} (h : o.Passive) : o.Silent := by
  rcases h with rfl | h | h | h | ⟨c, h⟩
  · exact fun _ _ => rfl
  · cases o <;> first | exact h.elim | exact fun _ _ => rfl
  · cases o with
    | verb word => exact (h.elim id not_global_verb).elim
    | _ => exact fun _ _ => rfl
  · exact h.silent
  · exact h.silent

theorem ensures_silent {p : Prog α} (hp : p.Asks Op.Silent) (l : Link) :
    Ensures watch p l fun _ l' => l' = l := by
  refine hp.ensures (m := watch) (I := fun l' => l' = l) (fun _ _ _ _ => trivial) ?_ rfl
  rintro l' o x ho rfl -
  exact ho l' x

theorem after_silent {p : Prog α} (hp : p.Asks Op.Silent) (env : Env) (h : History) (l : Link) :
    l.after (run env p h).2 = l.after h :=
  Ensures.follow env (ensures_silent hp (l.after h))

/-! ### Over a session -/

namespace HdaPlayback

/-- The link a session leaves, from what it found. -/
def pathOf (first : HdaPlayback) (l : Link) : Link :=
  l.playbackPath (low4 first.controller.cad) (formatVal first.rate)
    (first.controller.sd0Tag.setWidth 8)

/-- Everything as the session set it up, but for mutes. -/
def OnPath (first : HdaPlayback) (l l' : Link) : Prop :=
  ∃ spk hp, l' = (first.pathOf l).withMutes (low4 first.controller.cad) spk hp

theorem open_path {opts : DebugOpts} (hskip : opts.skipCodecInit = false) (rate : ℕ) (l : Link) :
    Ensures watch («open» opts rate) l (OnOk fun first l' =>
      first.controller.captureStreams < 15 → l' = first.pathOf l) := by
  have hbring := ensures_silent ((bringUp_asks opts rate).mono fun _ ho => ho.silent) l
  refine hbring.onOk.seqOk fun p l' hl' => ?_
  subst hl'
  by_cases htag : p.1.captureStreams < 15
  · have hlt : p.1.sd0Tag.toNat < 16 := by
      simp only [Controller.sd0Tag, Controller.sdIndex, BitVec.toNat_add, BitVec.toNat_ofNat]
      omega
    have hinit : Ensures watch (initCodec opts rate p.1) l' (OnOk fun _ l'' =>
        l'' = l'.playbackPath (low4 p.1.cad) (formatVal rate) (p.1.sd0Tag.setWidth 8)) := by
      simp only [initCodec, hskip, Bool.false_eq_true, if_false]
      refine (Codec.initPlayback_leaves hlt l').seqOk fun _ l'' hl'' => ?_
      have hdump : (if opts.dumpState = true then Codec.dumpState p.1 else pure ()).Asks
          Op.Silent := by
        simp [(Codec.dumpState_asks p.1).mono fun _ ho => ho.silent]
      exact (ensures_silent hdump l'').onOk.mono fun r l hl a ha => (hl a ha).trans hl''
    exact hinit.seqOk fun _ l'' hl'' => onOk_ok.mpr fun _ => hl''
  · have hrest : Ensures watch (initCodec opts rate p.1) l' fun _ _ => True :=
      (asks_true _).ensures (m := watch) (I := fun _ => True) (fun _ _ _ _ => trivial)
        (fun _ _ _ _ _ _ => trivial) trivial
    exact (hrest.onOk).seqOk fun _ l'' _ => onOk_ok.mpr fun h => (htag h).elim

end HdaPlayback

/-! ### The verbs of a mute -/

def Op.Mutes (cad : U32) (o : Op) : Prop :=
  ∃ nid ∈ [nidDacSpk, nidDacHp], ∃ mute,
    o = .verb (makeVerb cad nid verbSetAmpGainMute (outputAmp defaultGain mute))

theorem setMute_mutes (c : Controller) (mute : Bool) :
    (Codec.setMute c mute).Asks (Op.Mutes c.cad) := by
  have hamp : ∀ nid ∈ [nidDacSpk, nidDacHp], (Op.verb (makeVerb c.cad nid verbSetAmpGainMute
      (outputAmp defaultGain mute))).Mutes c.cad := fun nid hnid => ⟨nid, hnid, mute, rfl⟩
  simp [Codec.setMute, setOutputAmp, hamp]

theorem exec_mute (l : Link) (cad nid : U32) (mute : Bool) :
    l.exec (makeVerb cad nid verbSetAmpGainMute (outputAmp defaultGain mute)) =
      l.change (low4 cad) (low8 nid) (ampOut 0x44#7 mute) := by
  rw [exec_makeVerb]
  congr 1
  funext n
  rw [exec_amp, setAmp_outputAmp (g := 0x44#7) (by decide)]

namespace HdaPlayback

variable {first pb : HdaPlayback} {l l' : Link}

theorem OnPath.mutes (h : OnPath first l l') {o : Op} (ho : o.Mutes first.controller.cad)
    (x : o.Ans) : OnPath first l (l'.next o x) := by
  obtain ⟨nid, hnid, mute, rfl⟩ := ho
  simp only [Link.next]
  split
  · obtain ⟨spk, hp, rfl⟩ := h
    rw [exec_mute]
    simp only [List.mem_cons, List.not_mem_nil, or_false] at hnid
    rcases hnid with rfl | rfl
    · exact ⟨mute, hp, change_withMutes_spk _ _ _ _ _⟩
    · exact ⟨spk, mute, change_withMutes_hp _ _ _ _ _⟩
  · exact h

theorem call_silent {k : Call} (hk : ∀ m, k ≠ .setMute m) : (call pb k).Asks Op.Silent := by
  have hsrst := (streams_of_sd (Stream.srst_asks pb.controller)).mono fun _ ho => ho.silent
  have hstop := (Stream.stop_asks pb.controller).mono fun _ ho => ho.silent
  cases k with
  | setMute mute => exact (hk mute rfl).elim
  | play len => exact (play_asks pb len).mono fun _ ho => ho.silent
  | outputPath =>
    have hpath := (Codec.outputPath_asks pb.controller).mono fun _ ho => ho.silent
    simp [call, hpath]
  | delayFrames =>
    have hdelay := (streams_of_sd (Stream.delayBytes_asks pb.stream pb.controller)).mono
      fun _ ho => ho.silent
    simp [call, hdelay]
  | stopImmediate => simp [call, dropAll, hstop, hsrst]
  | stop => simp [call, stop, hstop]

theorem call_silent_or_mutes (k : Call) :
    (call pb k).Asks fun o => o.Silent ∨ o.Mutes pb.controller.cad := by
  by_cases hk : ∀ m, k ≠ .setMute m
  · exact (call_silent hk).mono fun _ => .inl
  · simp only [ne_eq, not_forall, not_not] at hk
    obtain ⟨mute, rfl⟩ := hk
    have hmute := (setMute_mutes pb.controller mute).mono (ψ := fun o =>
      o.Silent ∨ o.Mutes pb.controller.cad) fun _ => .inr
    simp [call, hmute]

theorem calls_silent_or_mutes (calls : List Call) :
    (calls.foldlM call first).Asks fun o => o.Silent ∨ o.Mutes first.controller.cad :=
  Asks.foldlM_keeping (P := fun pb => pb.controller = first.controller)
    (fun _ k _ hpb => hpb ▸ call_silent_or_mutes k)
    (fun _ _ _ hpb h => (call_yields h).controller.trans hpb) rfl

/-- From `open` on, the codec is at every moment the playback path, but for the mutes. -/
theorem session_path (env : Env) (opts : DebugOpts) (rate : ℕ) (calls : List Call)
    (first : HdaPlayback) (hopen : (run env («open» opts rate) []).1 = .ok first)
    (hskip : opts.skipCodecInit = false) (htag : first.controller.captureStreams < 15) (l : Link) :
    ∀ pre, (run env («open» opts rate) []).2 <+: pre → pre <+: history env opts rate calls →
      OnPath first l (l.after pre) := by
  intro pre hfrom hto
  have hpath := Ensures.follow env (h := []) (open_path hskip rate l)
  have hstart : OnPath first l (l.after (run env («open» opts rate) []).2) :=
    ⟨false, false, (hpath first hopen htag).trans (playbackPath_unmuted _ _ _ _).symm⟩
  have hmutes : (calls.foldlM call first).Asks
      fun o => o.Silent ∨ o.Mutes first.controller.cad := calls_silent_or_mutes calls
  have hcalls := hmutes.ensures
    (m := Monitor.always (OnPath first l) (fun _ _ _ => True) Link.next)
    (I := OnPath first l) (fun _ _ _ h => h) ?_ hstart
  · rw [history, session_run hopen] at hto
    have henv : (Monitor.always (OnPath first l) (fun _ _ _ => True) Link.next).Heeds l env :=
      fun _ _ => trivial
    exact hcalls.always henv hfrom hto
  · rintro l' o x (ho | ho) h -
    · change OnPath first l (l'.next o x)
      rw [ho l' x]
      exact h
    · exact h.mutes ho x

theorem session_path_plain : ∃ first : HdaPlayback, OnPath first (fun _ _ => Node.reset)
    (Link.after (fun _ _ => Node.reset)
      (history (steady 0x100 stale) .plain 48000 [.setMute true, .play 4096])) := by
  obtain ⟨first, hopen, hstreams⟩ := plain_opens
  have hpre : (run (steady 0x100 stale) («open» .plain 48000) []).2 <+:
      history (steady 0x100 stale) .plain 48000 [.setMute true, .play 4096] := by
    rw [history, session_run hopen]
    exact prefix_run _ _ _
  exact ⟨first, session_path (steady 0x100 stale) .plain 48000 [.setMute true, .play 4096] first
    hopen rfl (by rw [hstreams]; decide) (fun _ _ => Node.reset) _ hpre List.prefix_rfl⟩

/-- A converter that plays what the stream of the block carries. -/
structure Hears (n : Node) (b : Block) : Prop where
  power : n.power = 0x00#8
  tag : n.channelStream = b.tag.setWidth 8 <<< 4
  format : n.format = b.format

theorem OnPath.converter (h : OnPath first l l') :
    ∀ nid ∈ [0x02#8, 0x03#8], ∃ mute n, l' (low4 first.controller.cad) nid =
      ampOut 0x44#7 mute (dacOn (formatVal first.rate) (first.controller.sd0Tag.setWidth 8) n) := by
  obtain ⟨spk, hp, rfl⟩ := h
  intro nid hnid
  simp only [List.mem_cons, List.not_mem_nil, or_false] at hnid
  rcases hnid with rfl | rfl
  · exact ⟨spk, l (low4 first.controller.cad) 0x02#8, by
      simp [pathOf, Link.withMutes, Link.playbackPath, Link.change]⟩
  · exact ⟨hp, l (low4 first.controller.cad) 0x03#8, by
      simp [pathOf, Link.withMutes, Link.playbackPath, Link.change]⟩

theorem OnPath.hears (h : OnPath first l l') {b : Block}
    (hb : b.Programmed first.controller first.stream first.rate) :
    ∀ nid ∈ [0x02#8, 0x03#8], Hears (l' (low4 first.controller.cad) nid) b := by
  have htag : first.controller.sd0Tag.setWidth 8 <<< 4 = b.tag.setWidth 8 <<< 4 := by
    rw [hb.tag]
    apply BitVec.eq_of_getLsbD_eq
    intro i hi
    interval_cases i <;> simp
  intro nid hnid
  obtain ⟨mute, n, hn⟩ := h.converter nid hnid
  rw [hn]
  exact ⟨rfl, htag, hb.format.symm⟩

/-- While the engine runs, both converters of the codec in use are powered and hear the
stream: its tag and its format are those of the block. Only a stream that was found running
plays past them, on the block it was found with, until `open` resets it. -/
theorem session_agrees (env : Env) (opts : DebugOpts) (rate : ℕ) (calls : List Call)
    (first : HdaPlayback) (hopen : (run env («open» opts rate) []).1 = .ok first)
    (hskip : opts.skipCodecInit = false) (htag : first.controller.captureStreams < 15) (b₀ : Block)
    (henv : ReadsBack first.controller.sd0Base b₀ env) (l : Link) :
    ∀ pre, pre <+: history env opts rate calls →
      (Block.after first.controller.sd0Base b₀ pre).run = true →
        (∀ nid ∈ [0x02#8, 0x03#8], Hears (l.after pre (low4 first.controller.cad) nid)
          (Block.after first.controller.sd0Base b₀ pre)) ∨
        Block.after first.controller.sd0Base b₀ pre = b₀ ∧
          pre <+: (run env («open» opts rate) []).2 := by
  intro pre hpre ht
  obtain ⟨-, rfl, -⟩ := open_yields (run_yields hopen)
  have hall := hpre
  rw [history, session_run hopen] at hall
  rcases List.prefix_or_prefix_of_prefix hall (prefix_run env (calls.foldlM call first) _) with
    hbefore | hopened
  · exact .inr ⟨open_runs hopen henv hbefore ht, hbefore⟩
  rcases (session_programmed env opts _ calls first hopen b₀ henv).1 pre hpre ht with
    hprogrammed | hfound
  · exact .inl
      ((session_path env opts _ calls first hopen hskip htag l pre hopened hpre).hears hprogrammed)
  · exact .inr hfound

theorem session_agrees_plain : ∃ first : HdaPlayback, stale.run = true ∧
    ∀ nid ∈ [0x02#8, 0x03#8],
      Hears (Link.after (fun _ _ => Node.reset)
          (history (steady 0x100 stale) .plain 48000 playDropPlay)
          (low4 first.controller.cad) nid)
        (Block.after 0x100 stale (history (steady 0x100 stale) .plain 48000 playDropPlay)) := by
  obtain ⟨first, hopen, hstreams⟩ := plain_opens
  have hbase := base_of_streams hstreams
  have h := session_agrees (steady 0x100 stale) .plain 48000 playDropPlay first hopen rfl
    (by rw [hstreams]; decide) stale (by rw [hbase]; exact steady_readsBack 0x100 stale)
    (fun _ _ => Node.reset) _ List.prefix_rfl
  rw [hbase] at h
  have hmoved : Block.after 0x100 stale
      (history (steady 0x100 stale) .plain 48000 playDropPlay) ≠ stale := by decide +kernel
  refine ⟨first, rfl, ?_⟩
  rcases h (by decide +kernel) with hhears | hfound
  · exact hhears
  · exact (hmoved hfound.1).elim

theorem setMute_leaves (c : Controller) (mute : Bool) :
    Leaves (Codec.setMute c mute) fun l => l.withMutes (low4 c.cad) mute mute := by
  have hspk : Sets (setOutputAmp c nidDacSpk defaultGain mute) c.cad nidDacSpk
      (ampOut 0x44#7 mute) := setOutputAmp_sets (by decide) mute
  have hhp : Sets (setOutputAmp c nidDacHp defaultGain mute) c.cad nidDacHp
      (ampOut 0x44#7 mute) := setOutputAmp_sets (by decide) mute
  have hall := Leaves.seq hspk fun _ => hhp
  exact hall

theorem withMutes_withMutes (l : Link) (cad : BitVec 4) (spk hp mute : Bool) :
    (l.withMutes cad spk hp).withMutes cad mute mute = l.withMutes cad mute mute := by
  calc (l.withMutes cad spk hp).withMutes cad mute mute
      = (l.withMutes cad mute hp).change cad 0x03#8 (ampOut 0x44#7 mute) := by
        rw [← change_withMutes_spk l cad spk hp mute]
        rfl
    _ = l.withMutes cad mute mute := change_withMutes_hp l cad mute hp mute

/-- A `set_mute` that went through holds until the next one: both converters are muted or
not, as it said, with everything else as the session set it up. -/
theorem session_muted (env : Env) (opts : DebugOpts) (rate : ℕ) (before later : List Call)
    (mute : Bool) (first pb : HdaPlayback)
    (hopen : (run env («open» opts rate) []).1 = .ok first)
    (hskip : opts.skipCodecInit = false) (htag : first.controller.captureStreams < 15)
    (hbefore : (run env (session opts rate before) []).1 = .ok pb)
    (hset : (run env (Codec.setMute pb.controller mute) (history env opts rate before)).1 = .ok ())
    (hlater : ∀ m, Call.setMute m ∉ later) (l : Link) :
    l.after (history env opts rate (before ++ .setMute mute :: later)) =
      (first.pathOf l).withMutes (low4 first.controller.cad) mute mute := by
  have hcalls := hbefore
  rw [session_run hopen] at hcalls
  have hsame := calls_yields (run_yields hcalls)
  have hpath := session_path env opts rate before first hopen hskip htag l
    (history env opts rate before)
    (by rw [history, session_run hopen]; exact prefix_run env _ _) List.prefix_rfl
  obtain ⟨spk, hp, hpath⟩ := hpath
  have hmuted : l.after (run env (Codec.setMute pb.controller mute)
      (history env opts rate before)).2 =
      (first.pathOf l).withMutes (low4 first.controller.cad) mute mute := by
    refine (Ensures.follow env (setMute_leaves pb.controller mute _) () hset).trans ?_
    change (l.after (history env opts rate before)).withMutes _ mute mute = _
    rw [hpath, hsame.controller, withMutes_withMutes]
  have hcall : run env (call pb (.setMute mute)) (history env opts rate before) =
      (.ok pb, (run env (Codec.setMute pb.controller mute) (history env opts rate before)).2) := by
    rw [call, run_bind, run_attempt]
    rfl
  have hhistory : history env opts rate (before ++ .setMute mute :: later) =
      (run env (later.foldlM call pb) (run env (Codec.setMute pb.controller mute)
        (history env opts rate before)).2).2 := by
    rw [history, session_run hopen, List.foldlM_append, run_bind_ok hcalls, List.foldlM_cons,
      ← session_run hopen, ← history, run_bind, hcall]
  have hlast : (later.foldlM call pb).Asks Op.Silent :=
    Asks.foldlM fun pb k hk => call_silent fun m hm => hlater m (hm ▸ hk)
  rw [hhistory, after_silent hlast, hmuted]

theorem session_muted_plain : ∃ first : HdaPlayback, Link.after (fun _ _ => Node.reset)
    (history (steady 0x100 stale) .plain 48000 ([.play 4096] ++ .setMute true :: [.delayFrames])) =
      (first.pathOf fun _ _ => Node.reset).withMutes (low4 first.controller.cad) true true := by
  obtain ⟨first, hopen, hstreams⟩ := plain_opens
  have hset : ∃ pb, (run (steady 0x100 stale) (session .plain 48000 [.play 4096]) []).1 = .ok pb ∧
      (run (steady 0x100 stale) (Codec.setMute pb.controller true)
        (history (steady 0x100 stale) .plain 48000 [.play 4096])).1 = .ok () := by
    have h : (match (run (steady 0x100 stale) (session .plain 48000 [.play 4096]) []).1 with
        | .ok pb => (run (steady 0x100 stale) (Codec.setMute pb.controller true)
            (history (steady 0x100 stale) .plain 48000 [.play 4096])).1.isOk
        | .error _ => false) = true := by
      decide +kernel
    split at h
    · rename_i pb hpb
      refine ⟨pb, hpb, ?_⟩
      revert h
      cases (run (steady 0x100 stale) (Codec.setMute pb.controller true)
        (history (steady 0x100 stale) .plain 48000 [.play 4096])).1 <;>
          simp [Except.isOk, Except.toBool]
    · cases h
  obtain ⟨pb, hbefore, hset⟩ := hset
  exact ⟨first, session_muted (steady 0x100 stale) .plain 48000 [.play 4096] [.delayFrames] true
    first pb hopen rfl (by rw [hstreams]; decide) hbefore hset (by simp) fun _ _ => Node.reset⟩

end HdaPlayback

end Audiod.Driver
