import Memwatch.Shell.FrozenList

/-!
# The interactive loop

`execute_commands` reads a line, executes it, and goes on while `run` is true. What a line
throws is printed, so that nothing ends the loop but the end of the input, `quit` and `state`.
-/

namespace Memwatch.MemwatchShell

open Lib Text

section Loop

variable [Phosg] [PhosgText] [FloatText]

/-! ## The loop -/

/-- The text from the first character that is not blank. -/
def commandToExecute (command : String) : String :=
  substr command (PhosgText.skipWhitespace command 0)

/-- `execute_commands`, on what `readline` returns, with the process as each line finds it.
There is no line where the input ends. -/
def executeInputs : List (Process × Option String) → MemwatchShell → Except Fault MemwatchShell
  | [], st => .ok st
  | (p, command) :: inputs, st =>
    if st.run then
      match command with
      | none => .ok st
      | some command => do
        let st ← executeLine p (commandToExecute command) st
        executeInputs inputs st
    else .ok st

/-- The lines before the end of the input. -/
def linesOf : List (Process × Option String) → List (Process × String)
  | (p, some command) :: inputs => (p, commandToExecute command) :: linesOf inputs
  | _ => []

/-- The line is `quit` or `state`, or watches one that is. -/
inductive MayQuit : String → Prop where
  | quit {line argsStr : String} (h : handled line = some (.quit, argsStr)) : MayQuit line
  | state {line argsStr : String} (h : handled line = some (.state, argsStr)) : MayQuit line
  | watch {line argsStr : String} (h : handled line = some (.watch, argsStr))
      (hargs : MayQuit argsStr) : MayQuit line

/-- The loop has executed some lines and not the ones after them. It was running before each
of them, and if there are lines after them, the last one has ended it. -/
structure Executed (lines back : List (Process × String)) (st st' : MemwatchShell) : Prop where
  execute : executeLines lines st = .ok st'
  running : ∀ front line rest, lines = front ++ line :: rest →
    ∃ st₁, executeLines front st = .ok st₁ ∧ st₁.run = true
  quits : back ≠ [] → st'.run = false ∧ ∃ front line, lines = front ++ [line] ∧ MayQuit line.2

variable {p : Process} {line argsStr : String} {st st' st₁ : MemwatchShell} {handler : Handler}
  {target : Target} {call : Call} {lines back : List (Process × String)}
  {inputs : List (Process × Option String)} {Q : Process → Prop}

/-! ## What quits -/

theorem Change.run (h : Change target st st' call) (hcall : ∀ argsStr, call ≠ .state argsStr) :
    st'.run = st.run := by
  have hopened : ∀ {args opened initialSearch}, Opened st args opened initialSearch →
      opened.run = st.run := by
    intro args opened initialSearch hopened
    cases hopened <;> rfl
  cases h with
  | keep hst' => rw [hst']
  | set => exact absurd rfl (hcall _)
  | opens _ hopening hst' => exact hst' ▸ hopened (opened_of_opening hopening)
  | opensAndSearches _ hopening hsearched =>
    obtain ⟨_, _, _, _, -, -, -, hst'⟩ := hsearched
    have hkept := hopened (opened_of_opening hopening)
    rw [hst']
    exact hkept
  | search hsearched =>
    obtain ⟨_, _, _, _, -, -, -, hst'⟩ := hsearched
    rw [hst']
    rfl
  | fork _ _ _ hst' => rw [hst']; rfl
  | copy _ _ hst' => rw [hst']; rfl
  | lose _ _ hst' => rw [hst']
  | delete _ _ hst' => rw [hst']; rfl
  | truncate _ _ _ _ hst' => rw [hst']; rfl
  | undo _ _ hst' => rw [hst']; rfl
  | close _ hst' => rw [hst']

theorem run_of_handled (hhandled : handled line = some (handler, argsStr))
    (hwatch : handler ≠ .watch) (hquit : ¬ MayQuit line) (h : executeLine p line st = .ok st') :
    st'.run = st.run := by
  rw [executeLine_of_some hhandled] at h
  have hcall : ∀ call : Call, (∀ argsStr, call ≠ .state argsStr) →
      st.executeCommand p.toTarget call = .ok st' → st'.run = st.run :=
    fun call hcall hrun => (change_of_execute hrun).run hcall
  have hoperated : ∀ {m : Command Unit}, Keeps (Operated st) m → report (m st) = .ok st' →
      st'.run = st.run := by
    intro m hm h
    obtain ⟨ops, -, rfl⟩ := Keeps.report hm (.refl st) h
    rfl
  have hother : handler ≠ .enable ∧ handler ≠ .disable ∧ handler ≠ .unfreeze →
      handler ≠ .quit → report (otherCommands p line.length handler argsStr st) = .ok st' →
      st'.run = st.run := by
    intro hid hne h
    rw [otherCommands_of_ne hwatch] at h
    obtain ⟨_, _, run, hrun, rfl⟩ := kept_of_other hwatch hid h
    exact hrun hne
  cases handler with
  | watch => exact absurd rfl hwatch
  | quit => exact absurd (.quit hhandled) hquit
  | state => exact absurd (.state hhandled) hquit
  | enable =>
    rw [(handler_of_trial (show trialOf .enable = some _ from rfl)).2.2] at h
    exact hoperated (commandEnableDisable_keeps true) h
  | disable =>
    rw [(handler_of_trial (show trialOf .disable = some _ from rfl)).2.2] at h
    exact hoperated (commandEnableDisable_keeps false) h
  | unfreeze =>
    rw [(handler_of_trial (show trialOf .unfreeze = some _ from rfl)).2.2] at h
    exact hoperated commandUnfreeze_keeps h
  | freeze =>
    have hend : endState (commandFreeze p.toTarget argsStr st) = st' := report_eq_ok h
    cases hresult : commandFreeze p.toTarget argsStr st with
    | ok _ st'' =>
      obtain ⟨_, _, _, _, _, _, _, _, rfl⟩ := commandFreeze_eq_ok.mp hresult
      rw [hresult] at hend
      exact hend ▸ rfl
    | error e st'' =>
      rw [hresult] at hend
      exact hend ▸ (commandFreeze_fails e st'' hresult).2 ▸ rfl
  | close => exact hcall (.close argsStr) nofun h
  | delete => exact hcall (.delete argsStr) nofun h
  | fork => exact hcall (.fork argsStr) nofun h
  | openSearch => exact hcall (.openSearch argsStr) nofun h
  | results => exact hcall (.results argsStr) nofun h
  | search => exact hcall (.search argsStr) nofun h
  | truncate => exact hcall (.truncate argsStr) nofun h
  | undo => exact hcall (.undo argsStr) nofun h
  | _ => exact hother ⟨nofun, nofun, nofun⟩ nofun h

/-- Only `quit` and `state` set `run`. -/
theorem run_of_executeLine [LawfulPhosgText] (hquit : ¬ MayQuit line)
    (h : executeLine p line st = .ok st') : st'.run = st.run := by
  induction hlen : line.length using Nat.strong_induction_on generalizing line with
  | _ n ih =>
    cases hhandled : handled line with
    | none =>
      obtain rfl := Except.ok.inj ((executeLine_of_none hhandled).symm.trans h)
      rfl
    | some command =>
      obtain ⟨handler, argsStr⟩ := command
      by_cases hwatch : handler = .watch
      · subst hwatch
        rw [executeLine_of_watch hhandled] at h
        exact ih argsStr.length (hlen ▸ length_of_handled hhandled)
          (fun hargs => hquit (.watch hhandled hargs)) h rfl
      · exact run_of_handled hhandled hwatch hquit h

/-! ## The lines of a loop -/

theorem executeLines_cons (h : executeLine p line st = .ok st₁) :
    executeLines ((p, line) :: lines) st = executeLines lines st₁ := by
  rw [executeLines, List.foldlM_cons, h]
  rfl

theorem Executed.cons (hst : st.run = true) (hline : executeLine p line st = .ok st₁)
    (h : Executed lines back st₁ st') : Executed ((p, line) :: lines) back st st' := by
  refine ⟨(executeLines_cons hline).trans h.execute, fun front line' rest heq => ?_,
    fun hback => ?_⟩
  · cases front with
    | nil => exact ⟨st, rfl, hst⟩
    | cons first front =>
      obtain ⟨rfl, hlines⟩ := List.cons.inj heq
      obtain ⟨st₂, hfront, hrun⟩ := h.running front line' rest hlines
      exact ⟨st₂, (executeLines_cons hline).trans hfront, hrun⟩
  · obtain ⟨hrun, front, line', heq, hmay⟩ := h.quits hback
    exact ⟨hrun, (p, line) :: front, line', congrArg _ heq, hmay⟩

theorem executed_last (hst : st.run = true) (hline : executeLine p line st = .ok st')
    (hrun : st'.run = false) (hmay : MayQuit line) : Executed [(p, line)] back st st' := by
  refine ⟨executeLines_cons hline, fun front line' rest heq => ?_,
    fun _ => ⟨hrun, [], (p, line), rfl, hmay⟩⟩
  cases front with
  | nil => exact ⟨st, rfl, hst⟩
  | cons first front => simp at heq

theorem executeInputs_of_not_run (hst : st.run = false) : executeInputs inputs st = .ok st := by
  cases inputs with
  | nil => rfl
  | cons input inputs =>
    unfold executeInputs
    rw [if_neg (by rw [hst]; decide)]

theorem executed_of_executeInputs [LawfulPhosgText] (hst : st.run = true)
    (h : executeInputs inputs st = .ok st') :
    ∃ lines back, linesOf inputs = lines ++ back ∧ Executed lines back st st' := by
  have hnone : ∀ st, Executed [] [] st st := fun st =>
    ⟨rfl, fun front line rest heq => by simp at heq, nofun⟩
  induction inputs generalizing st with
  | nil =>
    obtain rfl := Except.ok.inj h
    exact ⟨[], [], rfl, hnone st⟩
  | cons input inputs ih =>
    obtain ⟨p, command⟩ := input
    unfold executeInputs at h
    rw [if_pos hst] at h
    cases command with
    | none =>
      obtain rfl := Except.ok.inj h
      exact ⟨[], [], rfl, hnone st⟩
    | some command =>
      obtain ⟨st₁, hline, h⟩ := except_bind_eq_ok.mp h
      by_cases hrun : st₁.run = true
      · obtain ⟨lines, back, hlines, hexecuted⟩ := ih hrun h
        exact ⟨_ :: lines, back, congrArg _ hlines, hexecuted.cons hst hline⟩
      · have hfalse : st₁.run = false := Bool.eq_false_iff.mpr hrun
        obtain rfl := Except.ok.inj ((executeInputs_of_not_run hfalse).symm.trans h)
        refine ⟨[_], linesOf inputs, rfl, executed_last hst hline hfalse ?_⟩
        by_contra hmay
        exact hrun ((run_of_executeLine hmay hline).trans hst)

theorem session_executeInputs (hst : Session Q st) (hinputs : ∀ input ∈ inputs,
      Q input.1 ∧ ∀ command ∈ input.2, '\x00' ∉ command.toList)
    (h : executeInputs inputs st = .ok st') : Session Q st' := by
  induction inputs generalizing st with
  | nil => exact Except.ok.inj h ▸ hst
  | cons input inputs ih =>
    obtain ⟨p, command⟩ := input
    obtain ⟨hp, hcommand⟩ := hinputs _ List.mem_cons_self
    unfold executeInputs at h
    split at h
    · cases command with
      | none => exact Except.ok.inj h ▸ hst
      | some command =>
        obtain ⟨st₁, hline, h⟩ := except_bind_eq_ok.mp h
        have hnull : '\x00' ∉ (commandToExecute command).toList := fun hmem =>
          hcommand command rfl ((suffix_substr command _).subset hmem)
        exact ih (hst.line hnull hp hline)
          (fun input hinput => hinputs input (List.mem_cons_of_mem _ hinput)) h
    · exact Except.ok.inj h ▸ hst

/-- Only a line whose behavior is undefined keeps the loop from going on. -/
theorem not_exception_of_executeInputs {fault : Fault}
    (h : executeInputs inputs st = .error fault) (e : Exception) : fault ≠ .exception e := by
  induction inputs generalizing st with
  | nil => cases h
  | cons input inputs ih =>
    obtain ⟨p, command⟩ := input
    unfold executeInputs at h
    split at h
    · cases command with
      | none => cases h
      | some command =>
        rcases except_bind_eq_error.mp h with hline | ⟨st₁, -, hrest⟩
        · exact not_exception_of_executeLine hline e
        · exact ih hrest
    · cases h

/-- In the interactive loop every line is executed, whatever the ones before it throw, until the
input ends or a `quit` or `state` sets `run` to false, and this is a session. The loop never
ends in an exception. -/
theorem loop_executes [LawfulPhosgText] (hst : st.run = true) :
    (∀ st', executeInputs inputs st = .ok st' →
      (∃ lines back, linesOf inputs = lines ++ back ∧ Executed lines back st st') ∧
      ∀ Q : Process → Prop, Session Q st →
        (∀ input ∈ inputs, Q input.1 ∧ ∀ command ∈ input.2, '\x00' ∉ command.toList) →
        Session Q st') ∧
    ∀ fault, executeInputs inputs st = .error fault → ∀ e, fault ≠ .exception e :=
  ⟨fun _ h => ⟨executed_of_executeInputs hst h,
    fun _ hsession hinputs => session_executeInputs hsession hinputs h⟩,
    fun _ h => not_exception_of_executeInputs h⟩

end Loop

section

open Plain

theorem loop_executes_three :
    let start := new "target" 10 5 false true false
    let inputs := [(idleProcess, some "undone"), (idleProcess, some " wa quit"),
      (idleProcess, some "open u8")]
    ∃ lines back, linesOf inputs = lines ++ back ∧
      Executed lines back start { start with run := false } := by
  have : LawfulPhosgText := plainPhosg_lawful
  exact ((loop_executes rfl).1 _ rfl).1

end

end Memwatch.MemwatchShell
