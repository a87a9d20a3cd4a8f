import Memwatch.Adapter.Model
import Memwatch.Lib.Machines
import Memwatch.Shell.Model

/-!
# Attaching to a process

The process that the shell works on is kept twice: the shell has its pid and its name,
the adapter, which the freezer shares, its pid and its task. `attach` changes them one
after another and asks for the task last.
-/

namespace Memwatch

open Lib Text

/-- `vm_map_t`. -/
abbrev VmMap := BitVec 32

/-- What the system answers about its processes. A `task_for_pid` that fails may write to
the task all the same. -/
structure System where
  pidForName : String → Except Exception Int
  nameForPid : Int → Except Exception String
  taskForPid : Int → Except (KernReturn × Option VmMap) VmMap

/-- The pid that an argument of `attach` stands for. -/
def System.findPid (sys : System) (name : String) : Except Exception Int :=
  let newPid :=
    match stoi name 10 with
    | .ok pid => pid
    | .error _ => 0
  if newPid = 0 then sys.pidForName name else .ok newPid

/-- `ProcessMemoryAdapter` with its task. -/
structure TaskAdapter extends ProcessMemoryAdapter where
  task : VmMap

namespace TaskAdapter

def attach (sys : System) (pid : Int) (adapter : TaskAdapter) :
    EStateM.Result Exception TaskAdapter Unit :=
  let adapter := { adapter with pid := pid }
  match sys.taskForPid adapter.pid with
  | .error (ret, written) =>
    .error (runtimeError ("can't get task for pid " ++ toString adapter.pid ++ " (" ++
      toString ret ++ ")")) { adapter with task := written.getD adapter.task }
  | .ok task => .ok () { adapter with task := task }

/-- The constructor, which finds its fields with any values. -/
def new (sys : System) (pid : Int) : Except Exception TaskAdapter :=
  match attach sys pid ⟨⟨0⟩, 0⟩ with
  | .error e _ => .error e
  | .ok () adapter => .ok adapter

end TaskAdapter

/-- The shell with its pid and its adapter. -/
structure AttachedShell extends MemwatchShell where
  pid : Int
  adapter : TaskAdapter

namespace AttachedShell

def new (sys : System) (pid : Int) (maxResults maxSearchIterations : UInt64)
    (pauseTarget interactive useColor : Bool) : Except Exception AttachedShell := do
  let adapter ← TaskAdapter.new sys pid
  let processName ← sys.nameForPid pid
  pure ⟨MemwatchShell.new processName maxResults maxSearchIterations pauseTarget interactive
    useColor, pid, adapter⟩

def commandAttach (sys : System) (argsStr : String) (st : AttachedShell) :
    EStateM.Result Exception AttachedShell Unit :=
  let name := if argsStr = "" then st.processName else argsStr
  match sys.findPid name with
  | .error e => .error e st
  | .ok newPid =>
    match sys.nameForPid newPid with
    | .error e => .error e st
    | .ok newName =>
      let st := { st with pid := newPid, processName := newName }
      match st.adapter.attach sys st.pid with
      | .error e adapter => .error e { st with adapter := adapter }
      | .ok () adapter => .ok () { st with adapter := adapter }

/-- The shell after a series of `attach` commands, each with the system as it is at the
time. What a command throws is only printed. -/
def afterAttaches (st : AttachedShell) (calls : List (System × String)) : AttachedShell :=
  calls.foldl (fun st call => endState (commandAttach call.1 call.2 st)) st

/-! ## One process -/

/-- The shell and its adapter name one process of the system. -/
structure OneProcess (sys : System) (st : AttachedShell) : Prop where
  pid : st.adapter.pid = st.pid
  processName : sys.nameForPid st.pid = .ok st.processName
  task : sys.taskForPid st.pid = .ok st.adapter.task

/-- `attach` changes nothing about the process when it throws. -/
def KeptOnFailure (sys : System) (argsStr : String) (st : AttachedShell) : Prop :=
  ∀ e st', commandAttach sys argsStr st = .error e st' →
    st'.pid = st.pid ∧ st'.processName = st.processName ∧
      st'.adapter.pid = st.adapter.pid ∧ st'.adapter.task = st.adapter.task

/-- `pid` is the process that an argument of `attach` names: a number other than 0, or else
what the system finds for the name. -/
def Names (sys : System) (name : String) (pid : Int) : Prop :=
  (stoi name 10 = .ok pid ∧ pid ≠ 0) ∨
    (sys.pidForName name = .ok pid ∧ ∀ n, stoi name 10 = .ok n → n = 0)

/-- The kernel gives the task of a process that is named and found. It may refuse it only
for the process that the shell and its adapter have already, and leaves the task alone. -/
def Granted (sys : System) (argsStr : String) (st : AttachedShell) : Prop :=
  ∀ pid newName ret written, Names sys (if argsStr = "" then st.processName else argsStr) pid →
    sys.nameForPid pid = .ok newName → sys.taskForPid pid = .error (ret, written) →
      (pid = st.pid ∧ newName = st.processName) ∧
        pid = st.adapter.pid ∧ ∀ task ∈ written, task = st.adapter.task

/-- The shell with another process. -/
def moved (st : AttachedShell) (pid : Int) (processName : String) (task : VmMap) : AttachedShell :=
  { st with pid := pid, processName := processName, adapter := ⟨⟨pid⟩, task⟩ }

section Attach

variable {sys : System} {argsStr name newName : String} {st : AttachedShell} {pid : Int}

theorem names_iff : Names sys name pid ↔ sys.findPid name = .ok pid := by
  unfold Names System.findPid
  cases stoi name 10 with
  | error e => simp
  | ok n =>
    by_cases hn : n = 0
    · subst hn
      simp only [Except.ok.injEq, forall_eq', if_true, and_true, or_iff_right_iff_imp]
      rintro ⟨h0, hne⟩
      exact absurd h0.symm hne
    · simp only [Except.ok.injEq, forall_eq', hn, if_false, and_false, or_false]
      refine ⟨fun h => h.1, fun h => ⟨h, h ▸ hn⟩⟩

theorem names_unique {pid' : Int} (h : Names sys name pid) (h' : Names sys name pid') :
    pid = pid' :=
  Except.ok.inj ((names_iff.mp h).symm.trans (names_iff.mp h'))

/-- What `attach` can do: it throws before it changes anything, or it knows the process and
moves to it, whether it gets the task or not. -/
theorem commandAttach_cases (sys : System) (argsStr : String) (st : AttachedShell) :
    (∃ e, commandAttach sys argsStr st = .error e st ∧ ∀ pid newName,
      Names sys (if argsStr = "" then st.processName else argsStr) pid →
        sys.nameForPid pid ≠ .ok newName) ∨
    ∃ pid newName, Names sys (if argsStr = "" then st.processName else argsStr) pid ∧
      sys.nameForPid pid = .ok newName ∧
      ((∃ task, sys.taskForPid pid = .ok task ∧
        commandAttach sys argsStr st = .ok () (st.moved pid newName task)) ∨
      ∃ ret written e, sys.taskForPid pid = .error (ret, written) ∧
        commandAttach sys argsStr st =
          .error e (st.moved pid newName (written.getD st.adapter.task))) := by
  unfold commandAttach TaskAdapter.attach
  dsimp only
  cases hpid : sys.findPid (if argsStr = "" then st.processName else argsStr) with
  | error e =>
    refine .inl ⟨e, rfl, fun pid newName hnames => ?_⟩
    rw [names_iff, hpid] at hnames
    cases hnames
  | ok pid =>
    have hnames := names_iff.mpr hpid
    dsimp only
    cases hname : sys.nameForPid pid with
    | error e =>
      refine .inl ⟨e, rfl, fun pid' newName hnames' heq => ?_⟩
      rw [← names_unique hnames hnames', hname] at heq
      cases heq
    | ok newName =>
      refine .inr ⟨pid, newName, hnames, hname, ?_⟩
      dsimp only
      cases htask : sys.taskForPid pid with
      | error fault => exact .inr ⟨fault.1, fault.2, _, rfl, rfl⟩
      | ok task => exact .inl ⟨task, rfl, rfl⟩

/-- `attach` keeps the process when it throws exactly if it throws for another reason than
the task, or has the process already. -/
theorem keptOnFailure_iff : KeptOnFailure sys argsStr st ↔ Granted sys argsStr st := by
  unfold KeptOnFailure Granted
  rcases commandAttach_cases sys argsStr st with ⟨e, hrun, hnot⟩ |
    ⟨pid, newName, hnames, hname, ⟨task, htask, hrun⟩ | ⟨ret, written, e, htask, hrun⟩⟩
  · refine iff_of_true (fun e' st' h => ?_) fun pid newName _ _ hnames hname =>
      absurd hname (hnot pid newName hnames)
    rw [hrun] at h
    cases h
    exact ⟨rfl, rfl, rfl, rfl⟩
  · refine iff_of_true (fun e' st' h => ?_) fun pid' _ _ _ hnames' _ htask' => ?_
    · rw [hrun] at h
      cases h
    · rw [names_unique hnames' hnames, htask] at htask'
      cases htask'
  · rw [hrun]
    constructor
    · intro h pid' newName' ret' written' hnames' hname' htask'
      obtain rfl := names_unique hnames hnames'
      rw [hname] at hname'
      rw [htask] at htask'
      cases hname'
      cases htask'
      obtain ⟨h1, h2, h3, h4⟩ := h e _ rfl
      refine ⟨⟨h1, h2⟩, h3, fun task hmem => ?_⟩
      rw [Option.mem_def.mp hmem] at h4
      exact h4
    · rintro h e' st' heq
      cases heq
      obtain ⟨⟨h1, h2⟩, h3, h4⟩ := h pid newName ret written hnames hname htask
      refine ⟨h1, h2, h3, ?_⟩
      cases written with
      | none => rfl
      | some task => exact h4 task rfl

/-! ## Series of commands -/

theorem OneProcess.congr {st' : AttachedShell} (h : OneProcess sys st) (hpid : st'.pid = st.pid)
    (hname : st'.processName = st.processName) (hadapter : st'.adapter.pid = st.adapter.pid)
    (htask : st'.adapter.task = st.adapter.task) : OneProcess sys st' where
  pid := by rw [hadapter, hpid, h.pid]
  processName := by rw [hpid, hname, h.processName]
  task := by rw [hpid, htask, h.task]

/-- The constructor attaches the shell to one process. -/
theorem oneProcess_new {maxResults maxSearchIterations : UInt64}
    {pauseTarget interactive useColor : Bool}
    (h : new sys pid maxResults maxSearchIterations pauseTarget interactive useColor = .ok st) :
    OneProcess sys st := by
  obtain ⟨adapter, hadapter, h⟩ := except_bind_eq_ok.mp h
  obtain ⟨processName, hname, h⟩ := except_bind_eq_ok.mp h
  cases h
  unfold TaskAdapter.new TaskAdapter.attach at hadapter
  dsimp only at hadapter
  cases htask : sys.taskForPid pid with
  | error fault =>
    rw [htask] at hadapter
    cases hadapter
  | ok task =>
    rw [htask] at hadapter
    cases hadapter
    exact ⟨rfl, hname, htask⟩

theorem oneProcess_of_ok {st' : AttachedShell} (h : commandAttach sys argsStr st = .ok () st') :
    OneProcess sys st' := by
  rcases commandAttach_cases sys argsStr st with ⟨e, hrun, -⟩ |
    ⟨pid, newName, -, hname, ⟨task, htask, hrun⟩ | ⟨ret, written, e, -, hrun⟩⟩
  · rw [hrun] at h
    cases h
  · rw [hrun] at h
    cases h
    exact ⟨rfl, hname, htask⟩
  · rw [hrun] at h
    cases h

theorem OneProcess.attach {sys' : System} (h : OneProcess sys' st)
    (hgranted : Granted sys argsStr st) :
    OneProcess sys' (endState (commandAttach sys argsStr st)) ∨
      OneProcess sys (endState (commandAttach sys argsStr st)) := by
  cases hrun : commandAttach sys argsStr st with
  | ok u st' => exact .inr (oneProcess_of_ok hrun)
  | error e st' =>
    obtain ⟨hpid, hname, hadapter, htask⟩ := keptOnFailure_iff.mpr hgranted e st' hrun
    exact .inl (h.congr hpid hname hadapter htask)

theorem afterAttaches_concat (st : AttachedShell) (calls : List (System × String))
    (call : System × String) : st.afterAttaches (calls ++ [call]) =
      endState (commandAttach call.1 call.2 (st.afterAttaches calls)) :=
  List.foldl_concat _ _ _ _

def AllGranted (st : AttachedShell) (calls : List (System × String)) : Prop :=
  EachStep (fun before call => Granted call.1 call.2 (st.afterAttaches before)) calls

theorem OneProcess.afterAttaches (h : OneProcess sys st) {calls : List (System × String)}
    (hgranted : AllGranted st calls) :
    ∃ sys' ∈ sys :: calls.map Prod.fst, OneProcess sys' (st.afterAttaches calls) := by
  refine hgranted.invariant (I := fun before =>
    ∃ sys' ∈ sys :: before.map Prod.fst, OneProcess sys' (st.afterAttaches before))
    ⟨sys, List.mem_cons_self, h⟩ ?_
  rintro before call ⟨sys', hmem, hone⟩ hcall
  rw [afterAttaches_concat]
  rcases hone.attach hcall with hone | hone
  · refine ⟨sys', ?_, hone⟩
    rw [List.map_append]
    exact List.mem_append_left _ hmem
  · refine ⟨call.1, ?_, hone⟩
    simp

end Attach

/-- In a series of commands each keeps the process when it throws exactly if each is
granted, and then shell and adapter name one process after each of them. -/
theorem attach_keptOnFailure_iff (sys : System) (st : AttachedShell) (h : OneProcess sys st)
    (calls : List (System × String)) :
    (EachStep (fun before call => KeptOnFailure call.1 call.2 (st.afterAttaches before)) calls ↔
      AllGranted st calls) ∧
    (AllGranted st calls → ∀ before, before <+: calls →
      ∃ sys' ∈ sys :: before.map Prod.fst, OneProcess sys' (st.afterAttaches before)) := by
  refine ⟨?_, fun hgranted before hbefore => h.afterAttaches fun _ _ hp => ?_⟩
  · exact forall_congr' fun _ => forall_congr' fun _ => forall_congr' fun _ => keptOnFailure_iff
  · exact hgranted _ _ (hp.trans hbefore)

/-! ## A task that is refused -/

/-- Processes 1 and 2. The kernel refuses the task of process 2. -/
def refusing : System where
  pidForName name := if name = "one" then .ok 1 else if name = "two" then .ok 2
    else .error (outOfRange "no process")
  nameForPid pid := if pid = 1 then .ok "one" else if pid = 2 then .ok "two"
    else .error (runtimeError "no process")
  taskForPid pid := if pid = 1 then .ok 0x107 else .error (5, some 0)

def atOne : AttachedShell :=
  ⟨MemwatchShell.new "one" 1024 64 true true true, 1, ⟨⟨1⟩, 0x107⟩⟩

theorem oneProcess_atOne : OneProcess refusing atOne := ⟨rfl, rfl, rfl⟩

/-- The shell goes on at process 1 after an attempt to find a third one. -/
theorem attach_missing : ∃ sys' ∈ refusing :: [refusing, refusing],
    OneProcess sys' (atOne.afterAttaches [(refusing, ""), (refusing, "three")]) := by
  have hfound : AllGranted atOne ([] ++ [(refusing, "")]) := by
    refine eachStep_concat.mpr ⟨eachStep_nil, keptOnFailure_iff.mp fun e st' h => ?_⟩
    cases h
  have hgranted : AllGranted atOne ([(refusing, "")] ++ [(refusing, "three")]) := by
    refine eachStep_concat.mpr ⟨hfound, keptOnFailure_iff.mp fun e st' h => ?_⟩
    cases h
    exact ⟨rfl, rfl, rfl, rfl⟩
  exact (attach_keptOnFailure_iff refusing atOne oneProcess_atOne _).2 hgranted _ List.prefix_rfl

/-- The shell takes pid and name of a process whose task it does not get. -/
theorem attach_refused : OneProcess refusing atOne ∧ ¬ KeptOnFailure refusing "two" atOne ∧
    ¬ OneProcess refusing (atOne.afterAttaches [(refusing, "two")]) := by
  refine ⟨oneProcess_atOne, fun h => ?_, fun h => ?_⟩
  · have := h (runtimeError "can't get task for pid 2 (5)") (atOne.moved 2 "two" 0) rfl
    have hpid : (2 : Int) = 1 := this.1
    omega
  · have htask : (.error (5, some 0) : Except (KernReturn × Option VmMap) VmMap) = .ok 0 := h.task
    cases htask

end AttachedShell
end Memwatch
