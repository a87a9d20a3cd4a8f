import Memwatch.Lib.Keeps
import Memwatch.Shell.NullData
import Memwatch.Shell.Replay
import Memwatch.Shell.Unfreeze

/-!
# Sessions

All commands of the shell, one line after another. Of the commands that act on the
process only what they do to the shell is said here, by `Process`; a watched command is a
line of its own. What a line may do is said once, by `LineChange`.
-/

namespace Memwatch

open Lib Text RegionFreezer

/-- The process as the commands find it. `find` has new results unless it throws before,
`attach` may have another name for the process even if it throws, and the other commands
that act on the process leave the shell as it is. -/
structure Process extends Target where
  find : MemwatchShell → String → Except Fault (List Nat)
  attach : MemwatchShell → String → String × Except Fault Unit
  act : MemwatchShell.Handler → MemwatchShell → String → Except Fault Unit

/-- A process where nothing is found and nothing fails. -/
def idleProcess : Process where
  toTarget := idleTarget
  find _ _ := .ok []
  attach st _ := (st.processName, .ok ())
  act _ _ _ := .ok ()

namespace MemwatchShell

/-! ## Commands -/

def commandFind (p : Process) (argsStr : String) : Command Unit := do
  let st ← get
  let findResults ← p.find st argsStr
  set { st with findResults := findResults }

def commandAttach (p : Process) (argsStr : String) : Command Unit := do
  let st ← get
  set { st with processName := (p.attach st argsStr).1 }
  (p.attach st argsStr).2

def commandIterations (argsStr : String) : Command Unit := do
  let st ← get
  st.checkInteractive
  let _ ← st.getSearches (if argsStr = "" then none else some argsStr)

def commandFrozen : Command Unit := do
  let st ← get
  st.checkInteractive

def commandQuit : Command Unit := do
  let st ← get
  set { st with run := false }

/-- `execute_command`: an exception is printed. -/
def report : EStateM.Result Fault MemwatchShell Unit → Except Fault MemwatchShell
  | .ok () st => .ok st
  | .error (.exception _) st => .ok st
  | .error fault _ => .error fault

/-- A command whose exception is printed. -/
def watched (command : Command Unit) : Command Unit := fun st =>
  match report (command st) with
  | .ok st => .ok () st
  | .error fault => .error fault st

theorem report_watched (command : Command Unit) (st : MemwatchShell) :
    report (watched command st) = report (command st) := by
  unfold watched
  cases command st with
  | ok _ st => rfl
  | error fault st => cases fault <;> rfl

section Lines

variable [Phosg] [PhosgText] [FloatText]

/-- The commands that are not in `Handler.command`. A watched line is shorter than the line
of the command, so that `depth` need not be greater than the length of that line. -/
def otherCommands (p : Process) : Nat → Handler → String → Command Unit
  | _, .attach, argsStr => commandAttach p argsStr
  | _, .disable, argsStr => commandEnableDisable argsStr false
  | _, .enable, argsStr => commandEnableDisable argsStr true
  | _, .find, argsStr => commandFind p argsStr
  | _, .frozen, _ => commandFrozen
  | _, .iterations, argsStr => commandIterations argsStr
  | _, .quit, _ => commandQuit
  | _, .unfreeze, argsStr => commandUnfreeze argsStr
  | 0, .watch, _ => pure ()
  | depth + 1, .watch, argsStr =>
    watched (dispatchCommand (otherCommands p depth) p.toTarget argsStr)
  | _, handler, argsStr => do
    let st ← get
    p.act handler st argsStr

/-- A line of the session. -/
def executeLine (p : Process) (line : String) (st : MemwatchShell) : Except Fault MemwatchShell :=
  report (dispatchCommand (otherCommands p line.length) p.toTarget line st)

/-- Lines one after another, with the process as each finds it. -/
def executeLines (lines : List (Process × String)) (st : MemwatchShell) :
    Except Fault MemwatchShell :=
  lines.foldlM (fun st line => executeLine line.1 line.2 st) st

/-- Lines one after another, of which none throws. -/
inductive Succeeds : List (Process × String) → MemwatchShell → MemwatchShell → Prop where
  | nil (st : MemwatchShell) : Succeeds [] st st
  | cons {p : Process} {line : String} {lines : List (Process × String)}
      {st st₁ st' : MemwatchShell}
      (hline : dispatchCommand (otherCommands p line.length) p.toTarget line st = .ok () st₁)
      (hlines : Succeeds lines st₁ st') : Succeeds ((p, line) :: lines) st st'

theorem executeLine_of_dispatch {p : Process} {line : String} {st st' : MemwatchShell}
    (h : dispatchCommand (otherCommands p line.length) p.toTarget line st = .ok () st') :
    executeLine p line st = .ok st' := by
  unfold executeLine
  rw [h]
  rfl

/-- The loop prints an exception and goes on. -/
theorem executeLine_of_exception {p : Process} {line : String} {st st' : MemwatchShell}
    {e : Exception}
    (h : dispatchCommand (otherCommands p line.length) p.toTarget line st =
      .error (.exception e) st') : executeLine p line st = .ok st' := by
  unfold executeLine
  rw [h]
  rfl

theorem not_exception_of_executeLine {p : Process} {line : String} {st : MemwatchShell}
    {fault : Fault} (h : executeLine p line st = .error fault) (e : Exception) :
    fault ≠ .exception e := by
  rintro rfl
  unfold executeLine at h
  cases hdispatch : dispatchCommand (otherCommands p line.length) p.toTarget line st with
  | ok _ st' =>
    rw [hdispatch] at h
    cases h
  | error fault st' =>
    rw [hdispatch] at h
    cases fault <;> cases h

theorem Succeeds.executeLines {lines : List (Process × String)} {st st' : MemwatchShell}
    (h : Succeeds lines st st') : executeLines lines st = .ok st' := by
  induction h with
  | nil => rfl
  | cons hline _ ih =>
    rw [MemwatchShell.executeLines, List.foldlM_cons, executeLine_of_dispatch hline]
    exact ih

/-! ## Watched lines -/

section Watch

variable {p : Process} {line argsStr : String} {others others' : Handler → String → Command Unit}
  {target : Target} {depth : Nat} {handler : Handler} {st : MemwatchShell}

theorem otherCommands_of_ne (hwatch : handler ≠ .watch) :
    otherCommands p depth handler = otherCommands p 0 handler := by
  cases depth with
  | zero => rfl
  | succ depth =>
    cases handler with
    | watch => exact absurd rfl hwatch
    | _ => rfl

variable [LawfulPhosgText]

omit [Phosg] [FloatText] in
theorem pos_of_handler (h : commandHandlers.lookup
      (substrTo line (PhosgText.skipNonWhitespace line 0)) = some handler) :
    0 < PhosgText.skipWhitespace line (PhosgText.skipNonWhitespace line 0) := by
  have hpos : 0 < PhosgText.skipNonWhitespace line 0 := by
    by_contra hzero
    rw [Nat.eq_zero_of_not_pos hzero] at h
    cases h
  rw [LawfulPhosgText.skipWhitespace_eq]
  omega

theorem dispatchCommand_congr (h : line ≠ "" → ∀ handler pos, 0 < pos →
      others handler (substr line pos) = others' handler (substr line pos)) :
    dispatchCommand others target line = dispatchCommand others' target line := by
  unfold dispatchCommand
  split
  · rfl
  · next hne =>
    dsimp only
    cases hhandler : commandHandlers.lookup
        (substrTo line (PhosgText.skipNonWhitespace line 0)) with
    | none => rfl
    | some handler =>
      have hother := h hne handler _ (pos_of_handler hhandler)
      cases handler <;> first | rfl | exact hother

omit [Phosg] [PhosgText] [FloatText] [LawfulPhosgText] in
theorem length_substr (line : String) (pos : Nat) :
    (substr line pos).length = line.length - pos := by
  rw [substr, String.length_ofList, List.length_drop, String.length_toList]

/-- The depth makes no difference if it is not less than the length of the line. -/
theorem dispatchCommand_depth (hdepth : line.length ≤ depth) :
    dispatchCommand (otherCommands p depth) p.toTarget line =
      dispatchCommand (otherCommands p line.length) p.toTarget line := by
  induction hlen : line.length using Nat.strong_induction_on generalizing line depth with
  | _ n ih =>
    refine dispatchCommand_congr fun hne handler pos hpos => ?_
    by_cases hwatch : handler = .watch
    · subst hwatch
      have hline : line.length ≠ 0 := fun hzero => hne (String.length_eq_zero_iff.mp hzero)
      obtain ⟨m, rfl⟩ := Nat.exists_eq_succ_of_ne_zero (hlen ▸ hline)
      obtain ⟨d, rfl⟩ := Nat.exists_eq_succ_of_ne_zero (show depth ≠ 0 by omega)
      have hlt : (substr line pos).length < m + 1 := by rw [length_substr]; omega
      have hrest : ∀ d, (substr line pos).length ≤ d →
          dispatchCommand (otherCommands p d) p.toTarget (substr line pos) =
            dispatchCommand (otherCommands p (substr line pos).length) p.toTarget
              (substr line pos) := fun d hd => ih _ hlt hd rfl
      show watched (dispatchCommand (otherCommands p d) p.toTarget (substr line pos)) =
        watched (dispatchCommand (otherCommands p m) p.toTarget (substr line pos))
      rw [hrest d (by omega), hrest m (by omega)]
    · exact congrFun ((otherCommands_of_ne hwatch).trans (otherCommands_of_ne hwatch).symm) _

theorem executeLine_watch (hline : line ≠ "") (hwatch : commandHandlers.lookup
      (substrTo line (PhosgText.skipNonWhitespace line 0)) = some .watch) :
    executeLine p line st = executeLine p
      (substr line (PhosgText.skipWhitespace line (PhosgText.skipNonWhitespace line 0))) st := by
  have hlen : line.length ≠ 0 := fun hzero => hline (String.length_eq_zero_iff.mp hzero)
  obtain ⟨depth, hdepth⟩ := Nat.exists_eq_succ_of_ne_zero hlen
  generalize htext : substr line
    (PhosgText.skipWhitespace line (PhosgText.skipNonWhitespace line 0)) = text
  have hle : text.length ≤ depth := by
    have hpos := pos_of_handler hwatch
    rw [← htext, length_substr]
    omega
  have hdispatch : dispatchCommand (otherCommands p line.length) p.toTarget line =
      watched (dispatchCommand (otherCommands p depth) p.toTarget text) := by
    unfold dispatchCommand
    rw [if_neg hline]
    dsimp only
    rw [hwatch, hdepth, htext]
    rfl
  unfold executeLine
  rw [hdispatch, report_watched, dispatchCommand_depth hle]

end Watch

/-! ## New iterations -/

/-- What `search` has read when it has a new iteration. -/
inductive Iterates (target : Target) (st : MemwatchShell) (argsStr : String) :
    String → MemorySearch → Prop where
  | intro {arg name valueText annotation : String} {args : List String} {predicate : Predicate}
      {searches : List MemorySearch} {latest newSearch : MemorySearch} {value : Bytes}
      {regions : List Region} (hargs : splitArgs argsStr 1 3 = .ok (arg :: args))
      (hsearchArgs : searchArgs st.currentSearchName arg args =
        .ok (name, predicate, valueText, annotation))
      (hfind : st.nameToSearches.find? name = some searches)
      (hlatest : searches.getLast? = some latest)
      (hvalue : (if valueText = "" then pure [] else readTypedValue latest.type valueText) =
        .ok value)
      (hcan : latest.checkCanUpdate predicate value = .ok ())
      (hregions : (if latest.resultsValid then target.getTargetRegions latest.results
        else target.getAllRegions) = .ok regions)
      (hupdate : ({ latest with annotation := annotation ++ target.now }.update regions predicate
        value st.maxResults.toNat).result = .ok newSearch) :
      Iterates target st argsStr name newSearch

omit [Phosg] [PhosgText] [FloatText] in
theorem ite_bind_eq_ok {α β : Type} {c : Prop} [Decidable c] {x y : Except Exception α}
    {f : α → Except Exception β} {b : β} : (if c then x >>= f else y >>= f) = .ok b ↔
      ∃ a, (if c then x else y) = .ok a ∧ f a = .ok b := by
  split
  · exact except_bind_eq_ok
  · exact except_bind_eq_ok

theorem iterates_of_newIteration {target : Target} {st : MemwatchShell} {argsStr name : String}
    {newSearch : MemorySearch} (h : newIteration st target argsStr = .ok (name, newSearch)) :
    Iterates target st argsStr name newSearch := by
  unfold newIteration at h
  obtain ⟨args, hargs, h⟩ := except_bind_eq_ok.mp h
  have hargs := mapError_eq_ok.mp hargs
  cases args with
  | nil => cases h
  | cons arg args =>
    obtain ⟨⟨name', search, u⟩, hprepare, h⟩ := except_bind_eq_ok.mp h
    have hprepare := mapError_eq_ok.mp hprepare
    obtain ⟨newSearch', hupdate, h⟩ := except_bind_eq_ok.mp h
    have hupdate := mapError_eq_ok.mp hupdate
    cases h
    unfold prepareUpdate at hprepare
    obtain ⟨⟨name'', predicate, valueText, annotation⟩, hsearchArgs, hprepare⟩ :=
      except_bind_eq_ok.mp hprepare
    obtain ⟨searches, hsearches, hprepare⟩ := except_bind_eq_ok.mp hprepare
    have hfind := getSearches_eq_ok.mp hsearches
    dsimp only at hprepare
    cases hlatest : searches.getLast? with
    | none => rw [hlatest] at hprepare; cases hprepare
    | some latest =>
      rw [hlatest] at hprepare
      dsimp only at hprepare
      obtain ⟨value, hvalue, hprepare⟩ := ite_bind_eq_ok.mp hprepare
      obtain ⟨_, hcan, hprepare⟩ := except_bind_eq_ok.mp hprepare
      obtain ⟨regions, hregions, hprepare⟩ := ite_bind_eq_ok.mp hprepare
      cases hprepare
      exact .intro hargs hsearchArgs hfind hlatest hvalue (mapError_eq_ok.mp hcan) hregions hupdate

/-! ## What a line does -/

theorem Change.freezer {target : Target} {st st' : MemwatchShell} {call : Call}
    (h : Change target st st' call) : st'.freezer = st.freezer := by
  have hopened : ∀ {args opened initialSearch}, Opened st args opened initialSearch →
      opened.freezer = st.freezer := by
    intro args opened initialSearch hopened
    cases hopened <;> rfl
  cases h with
  | keep hst' => rw [hst']
  | set hset =>
    unfold setField at hset
    split_ifs at hset
    · obtain ⟨n, -, hset⟩ := except_bind_eq_ok.mp hset
      cases hset; rfl
    · cases hset; rfl
    · obtain ⟨n, -, hset⟩ := except_bind_eq_ok.mp hset
      cases hset; rfl
    · obtain ⟨n, -, hset⟩ := except_bind_eq_ok.mp hset
      cases hset; rfl
    · obtain ⟨n, -, hset⟩ := except_bind_eq_ok.mp hset
      cases hset; rfl
    · obtain ⟨n, -, hset⟩ := except_bind_eq_ok.mp hset
      cases hset; rfl
  | opens _ hopening hst' => rw [hst']; exact hopened (opened_of_opening hopening)
  | opensAndSearches _ hopening hsearched =>
    obtain ⟨_, _, _, _, -, -, -, hst'⟩ := hsearched
    have hkept := hopened (opened_of_opening hopening)
    rw [hst']
    exact hkept
  | search hsearched =>
    obtain ⟨_, _, _, _, -, -, -, hst'⟩ := hsearched
    rw [hst']
    rfl
  | fork _ _ _ hst' => rw [hst']; rfl
  | copy _ _ hst' => rw [hst']; rfl
  | lose _ _ hst' => rw [hst']
  | delete _ _ hst' => rw [hst']; rfl
  | truncate _ _ _ _ hst' => rw [hst']; rfl
  | undo _ _ hst' => rw [hst']; rfl
  | close _ hst' => rw [hst']

/-- The shell after calls of the freezer that freeze nothing. -/
def Operated (st st' : MemwatchShell) : Prop :=
  ∃ ops : List Op, (∀ op ∈ ops, op.isFreeze = false) ∧
    st' = { st with freezer := st.freezer.run ops }

/-- What a line may do to the shell. The texts that its commands take are ends of it. -/
inductive LineChange (p : Process) (line : String) (st : MemwatchShell) : MemwatchShell → Prop where
  | keep (findResults : List Nat) (processName : String) (run : Bool) :
      LineChange p line st
        { st with findResults := findResults, processName := processName, run := run }
  | operate {st' : MemwatchShell} (hi : st.interactive = true) (hst' : Operated st st') :
      LineChange p line st st'
  | freeze {argsStr : String} {created : RegionFreezer.Region}
      (hargs : argsStr.toList <:+ line.toList)
      (hfreeze : commandFreeze p.toTarget argsStr st =
        .ok () { st with freezer := st.freezer.addRegion created }) :
      LineChange p line st { st with freezer := st.freezer.addRegion created }
  | call (call : Call) {st' : MemwatchShell} (hargs : call.argsStr.toList <:+ line.toList)
      (hrun : st.executeCommand p.toTarget call = .ok st') : LineChange p line st st'

section Changes

variable {p : Process} {line line' argsStr : String} {st st' : MemwatchShell}
  {others : Handler → String → Command Unit} {target : Target}

omit [Phosg] [PhosgText] [FloatText] in
theorem Operated.refl (st : MemwatchShell) : Operated st st := ⟨[], nofun, rfl⟩

omit [Phosg] [PhosgText] [FloatText] in
/-- A command that is for interactive use does nothing in a shell that is not. -/
theorem report_of_not_interactive {f : MemwatchShell → Unit → Command Unit}
    (hi : ¬ st.interactive = true) :
    report ((get >>= fun st => liftM st.checkInteractive >>= f st : Command Unit) st) = .ok st := by
  have hcheck : st.checkInteractive = .error _ := if_neg hi
  rw [get_bind, hcheck]
  rfl

omit [Phosg] [PhosgText] [FloatText] in
theorem keeps_raise {α : Type} {Q : MemwatchShell → Prop} {x : Except Exception α} :
    Keeps Q (liftM x : Command α) := by
  intro s hs
  cases x <;> exact hs

omit [Phosg] [PhosgText] [FloatText] in
theorem keeps_callFreezer {α : Type} {f : RegionFreezer → RegionFreezer × α} (op : Op)
    (hop : op.isFreeze = false) (hf : ∀ freezer, (f freezer).1 = freezer.step op) :
    Keeps (Operated st) (callFreezer f) := by
  rintro s ⟨ops, hops, rfl⟩
  refine ⟨ops ++ [op], fun op' hmem => ?_, ?_⟩
  · rcases List.mem_append.mp hmem with hmem | hmem
    · exact hops op' hmem
    · exact List.mem_singleton.mp hmem ▸ hop
  · rw [run_concat, ← hf]
    rfl

omit [Phosg] [PhosgText] [FloatText] in
theorem commandEnableDisable_keeps (enable : Bool) :
    Keeps (Operated st) (commandEnableDisable argsStr enable) := by
  refine keeps_get_bind fun _ => keeps_bind keeps_raise fun _ => keeps_ite ?_ (keeps_ite ?_ ?_)
  · exact keeps_bind (keeps_callFreezer (.enableAll enable) rfl fun _ => rfl) fun _ =>
      keeps_pure
  · refine keeps_bind (keeps_callFreezer (.enableName argsStr enable) rfl fun _ => rfl)
      fun _ => keeps_ite keeps_pure ?_
    refine keeps_get_bind fun _ => keeps_bind keeps_raise fun addr => ?_
    refine keeps_bind (keeps_callFreezer (.enableAddr addr enable) rfl fun _ => rfl)
      fun _ => keeps_ite keeps_pure ?_
    refine keeps_bind keeps_raise fun number => keeps_ite keeps_throw ?_
    exact keeps_bind (keeps_callFreezer (.enableIndex number.1 enable) rfl fun _ => rfl)
      fun _ => keeps_ite keeps_pure keeps_throw
  · exact keeps_pure

omit [Phosg] [PhosgText] [FloatText] in
theorem commandUnfreeze_keeps : Keeps (Operated st) (commandUnfreeze argsStr) := by
  refine keeps_get_bind fun _ => keeps_bind keeps_raise fun _ => keeps_ite ?_ (keeps_ite ?_ ?_)
  · exact keeps_bind (keeps_callFreezer (.unfreezeAll) rfl fun _ => rfl) fun _ => keeps_pure
  · refine keeps_bind (keeps_callFreezer (.unfreezeName argsStr) rfl fun _ => rfl)
      fun _ => keeps_ite keeps_pure ?_
    refine keeps_get_bind fun _ => keeps_bind keeps_raise fun addr => ?_
    refine keeps_bind (keeps_callFreezer (.unfreezeAddr addr) rfl fun _ => rfl)
      fun _ => keeps_ite keeps_pure ?_
    refine keeps_bind keeps_raise fun number => keeps_ite keeps_throw ?_
    exact keeps_bind (keeps_callFreezer (.unfreezeIndex number.1) rfl fun _ => rfl)
      fun _ => keeps_ite keeps_pure keeps_throw
  · exact keeps_pure

omit [Phosg] [PhosgText] [FloatText] in
theorem report_eq_ok {result : EStateM.Result Fault MemwatchShell Unit}
    (h : report result = .ok st') : endState result = st' := by
  unfold report at h
  split at h
  · cases h; rfl
  · cases h; rfl
  · cases h

omit [Phosg] [PhosgText] [FloatText] in
theorem Keeps.report {Q : MemwatchShell → Prop} {m : Command Unit} (hm : Keeps Q m) (hst : Q st)
    (h : report (m st) = .ok st') : Q st' := report_eq_ok h ▸ hm st hst

/-- A line does nothing, or runs the command of a handler on an end of it. -/
theorem of_report_dispatch (h : report (dispatchCommand others target line st) = .ok st') :
    st' = st ∨ ∃ handler pos,
      report (Handler.command others target handler (substr line pos) st) = .ok st' := by
  unfold dispatchCommand at h
  split at h
  · cases h
    exact .inl rfl
  · dsimp only at h
    cases hhandler : commandHandlers.lookup
        (substrTo line (PhosgText.skipNonWhitespace line 0)) with
    | none =>
      simp only [hhandler] at h
      cases h
      exact .inl rfl
    | some handler =>
      simp only [hhandler] at h
      exact .inr ⟨handler, _, h⟩

omit [Phosg] [PhosgText] [FloatText] in
theorem suffix_substr (line : String) (pos : Nat) : (substr line pos).toList <:+ line.toList := by
  rw [substr, String.toList_ofList]
  exact List.drop_suffix pos line.toList

theorem LineChange.of_suffix (h : LineChange p line' st st')
    (hline : line'.toList <:+ line.toList) : LineChange p line st st' := by
  cases h with
  | keep findResults processName run => exact .keep findResults processName run
  | operate hi hst' => exact .operate hi hst'
  | freeze hargs hfreeze => exact .freeze (hargs.trans hline) hfreeze
  | call call hargs hrun => exact .call call (hargs.trans hline) hrun

theorem lineChange_of_freeze (hargs : argsStr.toList <:+ line.toList)
    (h : report (commandFreeze p.toTarget argsStr st) = .ok st') : LineChange p line st st' := by
  cases hresult : commandFreeze p.toTarget argsStr st with
  | ok _ st'' =>
    rw [hresult] at h
    cases h
    obtain ⟨_, _, _, _, _, _, _, _, rfl⟩ := commandFreeze_eq_ok.mp hresult
    exact .freeze hargs hresult
  | error e st'' =>
    obtain ⟨_, rfl⟩ := commandFreeze_fails e st'' hresult
    have hend := report_eq_ok h
    rw [hresult] at hend
    obtain rfl : st'' = st' := hend
    exact .keep st''.findResults st''.processName st''.run

/-- The commands that are not in `Handler.command`, but for `watch` and those with an id. Only
`quit` sets `run`. -/
theorem kept_of_other {handler : Handler} (hwatch : handler ≠ .watch)
    (hid : handler ≠ .enable ∧ handler ≠ .disable ∧ handler ≠ .unfreeze)
    (h : report (otherCommands p 0 handler argsStr st) = .ok st') :
    ∃ findResults processName run, (handler ≠ .quit → run = st.run) ∧
      st' = { st with findResults := findResults, processName := processName, run := run } := by
  have hread : ∀ {m : Command Unit}, Keeps (· = st) m → report (m st) = .ok st' →
      ∃ findResults processName run, (handler ≠ .quit → run = st.run) ∧
        st' = { st with findResults := findResults, processName := processName, run := run } :=
    fun hm h => ⟨st.findResults, st.processName, st.run, fun _ => rfl,
      (report_eq_ok h).symm.trans (hm st rfl)⟩
  have hact : report ((get >>= fun st => liftM (p.act handler st argsStr) : Command Unit) st) =
      .ok st' → ∃ findResults processName run, (handler ≠ .quit → run = st.run) ∧
        st' = { st with findResults := findResults, processName := processName, run := run } :=
    hread (keeps_get_bind fun _ => keeps_lift)
  cases handler with
  | watch => exact absurd rfl hwatch
  | enable => exact absurd rfl hid.1
  | disable => exact absurd rfl hid.2.1
  | unfreeze => exact absurd rfl hid.2.2
  | attach =>
    have hkeeps : Keeps (· = { st with processName := (p.attach st argsStr).1 })
        (liftM (p.attach st argsStr).2 : Command Unit) := keeps_lift
    obtain rfl := (report_eq_ok h).symm.trans (hkeeps _ rfl)
    exact ⟨st.findResults, _, st.run, fun _ => rfl, rfl⟩
  | find =>
    cases hfind : p.find st argsStr with
    | error e =>
      have hend : endState (commandFind p argsStr st) = st := by
        unfold commandFind
        rw [get_bind, hfind]
        rfl
      exact ⟨st.findResults, st.processName, st.run, fun _ => rfl,
        (report_eq_ok h).symm.trans hend⟩
    | ok findResults =>
      have hend : endState (commandFind p argsStr st) =
          { st with findResults := findResults } := by
        unfold commandFind
        rw [get_bind, lift_bind_of_ok hfind]
        rfl
      exact ⟨findResults, st.processName, st.run, fun _ => rfl,
        (report_eq_ok h).symm.trans hend⟩
  | frozen => exact hread (keeps_get_bind fun _ => keeps_raise) h
  | iterations =>
    refine hread (keeps_get_bind fun _ => keeps_bind keeps_raise fun _ => ?_) h
    exact keeps_bind keeps_raise fun _ => keeps_pure
  | quit =>
    cases h
    exact ⟨st.findResults, st.processName, false, fun hquit => absurd rfl hquit, rfl⟩
  | access | data | dump | list | pause | read | resume | set | signal | write => exact hact h
  | close | delete | fork | freeze | openSearch | results | search | state | truncate | undo =>
    exact hact h

theorem lineChange_of_other {handler : Handler} (hwatch : handler ≠ .watch)
    (h : report (otherCommands p 0 handler argsStr st) = .ok st') : LineChange p line st st' := by
  have hoperate : ∀ {f : MemwatchShell → Unit → Command Unit},
      Keeps (Operated st) (get >>= fun st => liftM st.checkInteractive >>= f st) →
      report ((get >>= fun st => liftM st.checkInteractive >>= f st : Command Unit) st) =
        .ok st' → LineChange p line st st' := by
    intro f hkeeps h
    by_cases hi : st.interactive = true
    · exact .operate hi (Keeps.report hkeeps (.refl st) h)
    · obtain rfl := Except.ok.inj (h.symm.trans (report_of_not_interactive hi))
      exact .keep st'.findResults st'.processName st'.run
  by_cases hid : handler ≠ .enable ∧ handler ≠ .disable ∧ handler ≠ .unfreeze
  · obtain ⟨findResults, processName, run, -, rfl⟩ := kept_of_other hwatch hid h
    exact .keep findResults processName run
  · cases handler with
    | enable => exact hoperate (commandEnableDisable_keeps true) h
    | disable => exact hoperate (commandEnableDisable_keeps false) h
    | unfreeze => exact hoperate commandUnfreeze_keeps h
    | _ => exact absurd ⟨nofun, nofun, nofun⟩ hid

theorem lineChange_of_handler {depth : Nat} {handler : Handler}
    (hargs : argsStr.toList <:+ line.toList)
    (hwatch : report (otherCommands p depth .watch argsStr st) = .ok st' →
      LineChange p argsStr st st')
    (h : report (handler.command (otherCommands p depth) p.toTarget argsStr st) = .ok st') :
    LineChange p line st st' := by
  have hother : handler ≠ .watch → report (otherCommands p depth handler argsStr st) = .ok st' →
      LineChange p line st st' := by
    intro hne h
    exact lineChange_of_other hne (otherCommands_of_ne hne ▸ h)
  cases handler with
  | close => exact .call (.close argsStr) hargs h
  | delete => exact .call (.delete argsStr) hargs h
  | fork => exact .call (.fork argsStr) hargs h
  | freeze => exact lineChange_of_freeze hargs h
  | openSearch => exact .call (.openSearch argsStr) hargs h
  | results => exact .call (.results argsStr) hargs h
  | search => exact .call (.search argsStr) hargs h
  | state => exact .call (.state argsStr) hargs h
  | truncate => exact .call (.truncate argsStr) hargs h
  | undo => exact .call (.undo argsStr) hargs h
  | watch => exact (hwatch h).of_suffix hargs
  | access | attach | data | disable | dump | enable | find | frozen | iterations | list | pause
  | quit | read | resume | set | signal | unfreeze | write => exact hother nofun h

theorem lineChange_of_dispatch (depth : Nat)
    (h : report (dispatchCommand (otherCommands p depth) p.toTarget line st) = .ok st') :
    LineChange p line st st' := by
  induction depth generalizing line st st' with
  | zero =>
    rcases of_report_dispatch h with rfl | ⟨handler, pos, h⟩
    · exact .keep st'.findResults st'.processName st'.run
    · refine lineChange_of_handler (suffix_substr line pos) (fun hwatch => ?_) h
      cases hwatch
      exact .keep st.findResults st.processName st.run
  | succ depth ih =>
    rcases of_report_dispatch h with rfl | ⟨handler, pos, h⟩
    · exact .keep st'.findResults st'.processName st'.run
    · refine lineChange_of_handler (suffix_substr line pos) (fun hwatch => ih ?_) h
      exact (report_watched _ st).symm.trans hwatch

/-- What a line of a session may do. -/
theorem lineChange_of_executeLine (h : executeLine p line st = .ok st') :
    LineChange p line st st' := lineChange_of_dispatch _ h

/-! ## Sessions -/

/-- The states of an interactive session with processes of a kind: the user enters lines,
which are C strings, and the write thread makes its passes between them. -/
inductive Session (Q : Process → Prop) : MemwatchShell → Prop where
  | new (processName : String) (maxResults maxSearchIterations : UInt64)
      (pauseTarget useColor : Bool) :
      Session Q (new processName maxResults maxSearchIterations pauseTarget true useColor)
  | line {st st' : MemwatchShell} {p : Process} {line : String} (hst : Session Q st)
      (hline : '\x00' ∉ line.toList) (hp : Q p) (hrun : executeLine p line st = .ok st') :
      Session Q st'
  | pass {st : MemwatchShell} {σ : Type} (hst : Session Q st) (A : Adapter σ) (mem : σ) :
      Session Q { st with freezer := (st.freezer.writePass A mem).1 }

end Changes

end Lines

end MemwatchShell
end Memwatch
