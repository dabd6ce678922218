import Audiod.Reply

/-!
# The control tool (`ctl/src/main.rs`)

`audiod-ctl` from its arguments to the bytes it writes, and from the bytes of a reply to
what it prints. `str::parse::<f32>` is a parameter, which gives the bits.
-/

namespace Audiod.Ctl

open Daemon

def socketPathStr : String := "/tmp/audiod.sock"

/-- What the arguments come to. -/
inductive Parsed
  | help
  | refused
  | ask (socket : String) (cmd : String) (volArg : Option String)
  deriving DecidableEq

/-- The loop over the arguments; a `-s` at the end gives the default path. -/
def parseArgs : String → Option String → Option String → List String → Parsed
  | socket, cmd, volArg, [] => .ask socket (cmd.getD "status") volArg
  | _, cmd, volArg, ["-s"] => .ask socketPathStr (cmd.getD "status") volArg
  | _, cmd, volArg, "-s" :: path :: rest => parseArgs path cmd volArg rest
  | socket, cmd, volArg, a :: rest =>
    if a = "-h" ∨ a = "--help" then .help
    else
      match cmd, volArg with
      | none, _ => parseArgs socket (some a) volArg rest
      | some _, none => parseArgs socket cmd (some a) rest
      | some _, some _ => .refused

abbrev F32Bits := Fin (256 ^ 4)

def percent100 : F32Bits := 0x42c80000

/-- `pct.clamp(0.0, 100.0)` -/
def clampPercent (bits : F32Bits) : F32Bits :=
  match F32.ofBits bits with
  | .nan => bits
  | .inf s => if s then 0 else percent100
  | .fin q => if q < 0 then 0 else if 100 < q then percent100 else bits

section

variable (parse : String → Option F32Bits)

/-- The command a name stands for. -/
def request (cmd : String) (volArg : Option String) : Option Cmd :=
  match cmd with
  | "mute" => some .mute
  | "unmute" => some .unmute
  | "volume" => some (.volume (clampPercent ((volArg.bind parse).getD percent100)))
  | "status" => some .status
  | _ => none

/-- What is written, one `write_all` after the other; an unknown command ends after the
header. -/
def writes (r : Option Cmd) : List Bytes :=
  List.replicate hdrSz 0 :: r.elim [] fun c =>
    match c with
    | .volume bits => [leBytes 4 0, [msgVolume], leBytes 4 bits]
    | c => [leBytes 4 0, [c.opcode]]

/-- The command of `main`, if it gets to one. -/
def commandOf (args : List String) : Option Cmd :=
  match parseArgs socketPathStr none none args with
  | .ask _ cmd volArg => request parse cmd volArg
  | _ => none

/-- All that `main` writes. -/
def mainWrites (args : List String) : Bytes :=
  match parseArgs socketPathStr none none args with
  | .ask _ cmd volArg => (writes (request parse cmd volArg)).flatten
  | _ => []

end

/-- The reply of STATUS as `main` reads it. -/
def readStatus (s : Segments) : Option Bytes :=
  (readExact 4 s).bind fun (len, s) => (readExact (leVal len) s).map Prod.fst

example : mainWrites (fun _ => none) ["-s", "/run/a", "mute"] =
    List.replicate 12 0 ++ [0, 0, 0, 0, msgMute] := by decide

example : mainWrites (fun _ => some 0x42480000) ["volume", "50"] =
    List.replicate 12 0 ++ [0, 0, 0, 0, msgVolume, 0, 0, 72, 66] := by decide +kernel

/-! ### What the server hears -/

theorem writes_flatten (r : Option Cmd) : (writes r).flatten =
    List.replicate hdrSz 0 ++ r.elim [] fun c => (ReaderEvent.cmd c).frame := by
  cases r with
  | none => rfl
  | some c => cases c <;> simp [writes, ReaderEvent.frame, Cmd.opcode, Cmd.args]

theorem request_fits (parse : String → Option F32Bits) (cmd : String) (volArg : Option String)
    {c : Cmd} (h : request parse cmd volArg = some c) : (ReaderEvent.cmd c).Fits := by
  unfold request at h
  split at h <;> cases h
  · trivial
  · trivial
  · exact (clampPercent ((volArg.bind parse).getD percent100)).isLt
  · trivial

theorem meaning_writes {σ : Type*} [PackArith σ] (δ : Type*) [WideArith δ] [FloatCasts δ σ]
    (u : Setup) {r : Option Cmd} (h : ∀ c, r = some c → (ReaderEvent.cmd c).Fits) :
    meaning σ δ u (writes r).flatten = (r.map Act.cmd).toList := by
  have hlen : (List.replicate hdrSz (0 : Byte)).length = hdrSz := List.length_replicate ..
  have hdisp : dispatch (List.replicate hdrSz 0) = some none := by decide
  rw [writes_flatten, meaning_header hlen, hdisp]
  cases r with
  | none =>
    change turns (none : Option (Reader σ)) (frames []) = []
    rw [frames_none (by decide), turns_nil]
  | some c =>
    have hframes := frames_flatMap [.cmd c] (by simpa using h c rfl) []
    have hnil : frames [] = [] := frames_none (by decide)
    rw [List.flatMap_cons, List.flatMap_nil, List.append_nil, List.append_nil, hnil] at hframes
    change turns (none : Option (Reader σ)) (frames (ReaderEvent.cmd c).frame) = [.cmd c]
    rw [hframes]
    rfl

theorem meaning_main {σ : Type*} [PackArith σ] (δ : Type*) [WideArith δ] [FloatCasts δ σ]
    (u : Setup) (parse : String → Option F32Bits) (args : List String) :
    meaning σ δ u (mainWrites parse args) = ((commandOf parse args).map Act.cmd).toList := by
  unfold mainWrites commandOf
  split
  · exact meaning_writes δ u fun c hc => request_fits parse _ _ hc
  · rfl

/-- However much of what the tool writes comes through, and whatever else the server is
doing: nothing but the command of its arguments is done for it, and that at most once. -/
theorem run_command {σ : Type*} [PackArith σ] (δ : Type*) [WideArith δ] [FloatCasts δ σ]
    (u : Setup) (volume : F32) (is : List Input) {t : Server σ} {tr : List Event}
    (hrun : (Server.machine δ u).run (Server.init volume : Server σ) is = some (t, tr))
    (parse : String → Option F32Bits) (args : List String) (c : ℕ)
    (hsent : sent c is <+: mainWrites parse args) :
    acts c tr <+: ((commandOf parse args).map Act.cmd).toList ∧
      ∀ th p, sent c is = mainWrites parse args → t.threads c = some th → th.Listens →
        t.peers c = some p → p.unread = [] →
        acts c tr = ((commandOf parse args).map Act.cmd).toList := by
  obtain ⟨hpre, hwhole⟩ := run_told δ u volume is hrun c
  have hmain := meaning_main (σ := σ) δ u parse args
  constructor
  · obtain ⟨rest, hrest⟩ := hsent
    have hmore := meaning_append (σ := σ) (δ := δ) (u := u) (sent c is) rest
    rw [hrest, hmain] at hmore
    exact hpre.trans hmore
  · intro th p hall hth hlistens hp hun
    rw [hwhole th p hth hlistens hp hun, hall, hmain]

/-! ### The reply -/

/-- The text of a reply is ASCII. -/
def statusBody (negZero : Bool) (out : OutputPath) (st : Status) : Bytes :=
  (statusText negZero out st).map fun ch => Fin.ofNat 256 ch.toNat

theorem statusBody_length (negZero : Bool) (out : OutputPath) {st : Status} (h : st.Fits) :
    (statusBody negZero out st).length < 256 ^ 4 := by
  rw [statusBody, List.length_map]
  exact (statusText_length negZero out h).trans (by norm_num)

def writeStatus (body : Bytes) : Bytes := leBytes 4 body.length ++ body

theorem readStatus_bytes (s : Segments) : readStatus s =
    if s.flatten.length < 4 then none
    else if (s.flatten.drop 4).length < leVal (s.flatten.take 4) then none
    else some ((s.flatten.drop 4).take (leVal (s.flatten.take 4))) := by
  have hlen := readExact_bytes 4 s
  by_cases hshort : s.flatten.length < 4
  · rw [if_neg (by omega), Option.map_eq_none_iff] at hlen
    rw [readStatus, hlen, if_pos hshort]
    rfl
  · rw [if_pos (by omega)] at hlen
    obtain ⟨⟨len, s'⟩, hs', heq⟩ := Option.map_eq_some_iff.mp hlen
    simp only [Prod.mk.injEq] at heq
    obtain ⟨rfl, hrest⟩ := heq
    have hbody := congrArg (Option.map Prod.fst) (readExact_bytes (leVal (s.flatten.take 4)) s')
    rw [Option.map_map] at hbody
    rw [readStatus, hs', if_neg hshort, Option.bind_some, ← hrest]
    refine Eq.trans hbody ?_
    by_cases hpart : s'.flatten.length < leVal (s.flatten.take 4)
    · rw [if_pos hpart, if_neg (by omega)]
      rfl
    · rw [if_neg hpart, if_pos (by omega)]
      rfl

/-- A reply is read as it was written, in whatever pieces it arrives, and not before all of it
is there. -/
theorem readStatus_prefix {s : Segments} {body b : Bytes} (hlen : body.length < 256 ^ 4)
    (hs : s.flatten <+: writeStatus body) (hread : readStatus s = some b) : b = body := by
  obtain ⟨rest, hrest⟩ := hs
  have hfour := leBytes_length 4 body.length
  rw [readStatus_bytes] at hread
  split at hread
  · cases hread
  · rename_i hlong
    have htake : s.flatten.take 4 = leBytes 4 body.length := by
      have hall := congrArg (List.take 4) hrest
      rwa [writeStatus, List.take_left' hfour, List.take_append_of_le_length (by omega)] at hall
    have hdrop : s.flatten.drop 4 ++ rest = body := by
      have hall := congrArg (List.drop 4) hrest
      rwa [writeStatus, List.drop_left' hfour, List.drop_append_of_le_length (by omega)] at hall
    rw [htake, leVal_leBytes hlen] at hread
    split at hread
    · cases hread
    · rename_i hbody
      cases hread
      have hnil : rest = [] := by
        have hl := congrArg List.length hdrop
        rw [List.length_append] at hl
        exact List.length_eq_zero_iff.mp (by omega)
      rw [hnil, List.append_nil] at hdrop
      rw [hdrop, List.take_length]

/-! ### What the tool is told -/

def answerOf : ThreadEvent → Option Status
  | .answered st => some st
  | _ => none

/-- The answers that connection `c` has been given. -/
def answers (c : ℕ) (tr : List Event) : List Status :=
  tr.filterMap fun
    | .thread d e => if d = c then answerOf e else none
    | _ => none

/-- What the server has written to it. -/
def replies (negZero : Bool) (out : OutputPath) (c : ℕ) (tr : List Event) : Bytes :=
  (answers c tr).flatMap fun st => writeStatus (statusBody negZero out st)

theorem answers_append (c : ℕ) (tr tr' : List Event) :
    answers c (tr ++ tr') = answers c tr ++ answers c tr' := List.filterMap_append

theorem answers_thread (c d : ℕ) (fs : List ThreadEvent) :
    answers c (fs.map (.thread d)) = if d = c then fs.filterMap answerOf else [] := by
  rw [answers, List.filterMap_map]
  split
  · rename_i h
    exact List.filterMap_congr fun e _ => if_pos h
  · rename_i h
    exact List.filterMap_eq_nil_iff.mpr fun e _ => if_neg h

theorem mem_answers {c : ℕ} {tr : List Event} {st : Status} (h : st ∈ answers c tr) :
    .thread c (.answered st) ∈ tr := by
  obtain ⟨e, he, hst⟩ := List.mem_filterMap.mp h
  cases e with
  | thread d f =>
    dsimp only at hst
    split at hst
    · rename_i hd
      subst hd
      cases f with
      | answered st' =>
        cases hst
        exact he
      | read _ | rejected | full _ | served | registered _ _ | applied _ | mixer _ => cases hst
    · cases hst
  | accepted _ | header _ _ | dropped _ | mixer _ => cases hst

/-- One STATUS is applied and not answered. -/
def asked {σ : Type*} : Thread σ → ℕ
  | .status _ _ _ => 1
  | _ => 0

/-- The same of connection `c`. -/
def askedOf {σ : Type*} (s : Server σ) (c : ℕ) : ℕ := (s.threads c).elim 0 asked

section

variable {σ : Type*} [PackArith σ] {δ : Type*} [WideArith δ] [FloatCasts δ σ] {u : Setup}

/-- A step answers a STATUS that was applied before, and no more than that one. -/
theorem step_answers {allowed : Bool} {g g' : Shared} {p p' : Peer} {a : Answer}
    {th th' : Thread σ} {fs : List ThreadEvent}
    (hs : Thread.step δ u allowed g p a th = some (g', p', th', fs)) :
    (fs.filterMap answerOf).length + asked th' ≤
      (fs.flatMap ThreadEvent.acts).count (.cmd .status) + asked th := by
  obtain ⟨hanswered, hstatus⟩ := Thread.step_status hs
  by_cases hth : ∃ q todo st, th = .status q todo st
  · obtain ⟨q, todo, st, rfl⟩ := hth
    cases todo with
    | nil =>
      cases hs
      cases q <;> exact le_rfl
    | cons l todo =>
      cases hs
      exact le_rfl
  · have hnone : fs.filterMap answerOf = [] := by
      refine List.filterMap_eq_nil_iff.mpr fun e he => ?_
      cases e with
      | answered st =>
        obtain ⟨q, rfl⟩ := hanswered st he
        exact absurd ⟨q, [], st, rfl⟩ hth
      | read _ | rejected | full _ | served | registered _ _ | applied _ | mixer _ => rfl
    have hasked : asked th' ≤ (fs.flatMap ThreadEvent.acts).count (.cmd .status) := by
      cases th' with
      | status q todo st =>
        rcases hstatus q todo st rfl with ⟨-, -, -, -, rfl⟩ | ⟨l, st₀, rfl, -⟩
        · exact le_rfl
        · exact absurd ⟨q, l :: todo, st₀, rfl⟩ hth
      | _ => exact Nat.zero_le _
    rw [hnone]
    simp only [List.length_nil]
    omega

omit [PackArith σ] in
theorem quiet_answers {s s' : Server σ} {es : List Event} {c : ℕ}
    (hes : ∀ e ∈ es, ∀ d f, e ≠ .thread d f) (hasked : askedOf s' c ≤ askedOf s c) :
    (answers c es).length + askedOf s' c ≤
      (acts c es).count (.cmd .status) + askedOf s c := by
  have hanswers : answers c es = [] := List.filterMap_eq_nil_iff.mpr fun e he => by
    cases e with
    | thread d f => exact absurd rfl (hes _ he d f)
    | accepted _ | header _ _ | dropped _ | mixer _ => rfl
  rw [hanswers, List.length_nil]
  omega

omit [PackArith σ] in
theorem loop_asked {s s' : Server σ} {es : List Event} {a : Answer}
    (hs : s.loopStep a = some (s', es)) (c : ℕ) : askedOf s' c ≤ askedOf s c := by
  cases hth : s'.threads c with
  | none =>
    rw [askedOf, hth]
    exact Nat.zero_le _
  | some th =>
    rcases (loopStep_starts hs).2 c th hth with hold | ⟨cfg, rfl⟩
    · rw [askedOf, askedOf, hth, hold]
    · rw [askedOf, hth]
      exact Nat.zero_le _

theorem server_answers {s s' : Server σ} {i : Input} {es : List Event}
    (hs : s.step δ u i = some (s', es)) (c : ℕ) :
    (answers c es).length + askedOf s' c ≤
      (acts c es).count (.cmd .status) + askedOf s c := by
  cases i with
  | thread d a =>
    obtain ⟨p, th, g, q, th', fs, -, hth, hstep, hs', rfl⟩ := threadStep_cases hs
    have hthreads : s'.threads = Function.update s.threads d (some th') :=
      congrArg Server.threads hs'
    rw [answers_thread, acts_thread, askedOf, askedOf, hthreads]
    split
    · rename_i hd
      subst hd
      rw [Function.update_self, hth]
      exact step_answers hstep
    · rename_i hd
      rw [Function.update_of_ne (Ne.symm hd)]
      exact le_rfl
  | loop a =>
    refine quiet_answers (fun e he d f heq => ?_) (loop_asked hs c)
    have hloop := loopStep_ofLoop hs e he
    rw [heq] at hloop
    exact hloop
  | mix delay =>
    obtain ⟨rfl, rfl⟩ := Prod.mk.inj (Option.some.inj hs)
    refine quiet_answers (fun e he d f heq => ?_) le_rfl
    obtain ⟨m, -, rfl⟩ := List.mem_map.mp he
    cases heq
  | connect d =>
    simp only [Server.step] at hs
    split at hs <;> cases hs
    exact quiet_answers (fun _ he => (List.not_mem_nil he).elim) le_rfl
  | send d data =>
    obtain ⟨p, -, hs⟩ := Option.bind_eq_some_iff.mp hs
    split at hs <;> cases hs
    exact quiet_answers (fun _ he => (List.not_mem_nil he).elim) le_rfl
  | hangup d =>
    obtain ⟨p, -, hs⟩ := Option.map_eq_some_iff.mp hs
    cases hs
    exact quiet_answers (fun _ he => (List.not_mem_nil he).elim) le_rfl
  | elapse ns | signal =>
    cases hs
    exact quiet_answers (fun _ he => (List.not_mem_nil he).elim) le_rfl

theorem run_answers {volume : F32} {t : Server σ} {is : List Input} {tr : List Event}
    (hrun : (Server.machine δ u).run (Server.init volume) is = some (t, tr)) (c : ℕ) :
    (answers c tr).length ≤ (acts c tr).count (.cmd .status) := by
  let I (s : Server σ) (tr : List Event) : Prop :=
    (answers c tr).length + askedOf s c ≤ (acts c tr).count (.cmd .status)
  have hstart : I (Server.init volume) [] := le_rfl
  have hend : I t tr := by
    refine (Server.machine δ u).run_inv (I := I) (fun s tr i s' es h hs => ?_) hstart hrun
    have hstep := server_answers hs c
    simp only [I, answers_append, acts_append, List.length_append, List.count_append] at h ⊢
    omega
  exact le_trans (Nat.le_add_right _ _) hend

/-- What the tool prints was loaded in this run, one number after the other, once its STATUS
was applied. -/
theorem run_status (δ : Type*) [WideArith δ] [FloatCasts δ σ] (u : Setup) (gain : F32)
    (is : List Input) {t : Server σ} {tr : List Event}
    (hrun : (Server.machine δ u).run (Server.init (configVolume gain) : Server σ) is =
      some (t, tr))
    (hfits : ∀ i ∈ is, i.Fits) (hlen : is.length < 2 ^ 64) (parse : String → Option F32Bits)
    (args : List String) (c : ℕ) (hsent : sent c is <+: mainWrites parse args) (negZero : Bool)
    (out : OutputPath) (got : Segments) (hgot : got.flatten <+: replies negZero out c tr)
    {b : Bytes} (hread : readStatus got = some b) :
    commandOf parse args = some .status ∧
      ∃ st, Observed σ δ u (configVolume gain) c is st ∧ b = statusBody negZero out st := by
  have hacts := (run_command δ u (configVolume gain) is hrun parse args c hsent).1
  have hcount := run_answers hrun c
  have hone : (answers c tr).length ≤ 1 := by
    refine hcount.trans ((hacts.sublist.count_le _).trans ?_)
    cases (commandOf parse args) with
    | none => exact Nat.zero_le 1
    | some cmd => exact List.count_le_length
  rcases hans : answers c tr with _ | ⟨st, _ | ⟨st', rest⟩⟩
  · rw [replies, hans, List.flatMap_nil, List.prefix_nil] at hgot
    rw [readStatus_bytes, hgot] at hread
    cases hread
  · rw [replies, hans, List.flatMap_cons, List.flatMap_nil, List.append_nil] at hgot
    have hst : st ∈ answers c tr := by
      rw [hans]
      exact List.mem_singleton_self st
    have hloads := run_observed hrun (mem_answers hst)
    have hbody := statusBody_length negZero out (hloads.fits hfits hlen)
    refine ⟨?_, st, hloads, readStatus_prefix hbody hgot hread⟩
    rw [hans, List.length_singleton] at hcount
    have hin := hacts.subset (List.count_pos_iff.mp hcount)
    cases hcmd : commandOf parse args with
    | none =>
      rw [hcmd] at hin
      exact (List.not_mem_nil hin).elim
    | some cmd =>
      rw [hcmd] at hin
      cases List.mem_singleton.mp hin
      rfl
  · rw [hans, List.length_cons, List.length_cons] at hone
    omega

theorem sent_askStatus : sent 0 askStatus = mainWrites (fun _ => none) ["-s", "/run/a"] := by
  decide

theorem run_command_status : acts 0 askEvents = [.cmd .status] := by
  obtain ⟨t, hrun, hthread, hpeer⟩ := run_askStatus
  have hsent : sent 0 askStatus <+: mainWrites (fun _ => none) ["-s", "/run/a"] :=
    sent_askStatus ▸ List.prefix_refl _
  exact (run_command ℝ rootOnly (.fin 100) askStatus hrun (fun _ => none) ["-s", "/run/a"] 0
    hsent).2 _ _ sent_askStatus hthread trivial hpeer rfl

def askedText : Bytes := statusBody false .unknown ⟨false, .fin 100, 0, 0, -1⟩

/- The reply in two pieces, its length cut. -/
theorem run_status_asked : commandOf (fun _ => none) ["-s", "/run/a"] = some .status ∧
    ∃ st, Observed ℝ ℝ rootOnly (configVolume (.fin 1)) 0 askStatus st ∧
      askedText = statusBody false .unknown st := by
  have hvolume : configVolume (.fin 1) = .fin 100 := by decide +kernel
  obtain ⟨t, hrun, -, -⟩ := run_askStatus
  rw [← hvolume] at hrun
  have hsent : sent 0 askStatus <+: mainWrites (fun _ => none) ["-s", "/run/a"] :=
    sent_askStatus ▸ List.prefix_refl _
  have hfits : ∀ i ∈ askStatus, i.Fits := by
    simp [askStatus, Input.Fits]
  have hread : readStatus [[113, 0], 0 :: 0 :: askedText] = some askedText := by decide +kernel
  have hgot : List.flatten [[113, 0], 0 :: 0 :: askedText] <+:
      replies false .unknown 0 askEvents := by
    decide +kernel
  exact run_status ℝ rootOnly (.fin 1) askStatus hrun hfits (by decide) (fun _ => none)
    ["-s", "/run/a"] 0 hsent false .unknown _ hgot hread

end

end Audiod.Ctl
