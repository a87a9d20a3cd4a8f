import Memwatch.Shell.Dump

/-!
# Pauses

Whatever the kernel refuses, a command leaves the target suspended as often as it found it,
but for `pause` and `resume` themselves. With `pause_target`, commands read and write the
target only while it is suspended.
-/

namespace Memwatch

open Lib Text ProcessMemoryAdapter

/-- Commands that have to do with the target, those that read and write a block after their
arguments. `rounds` is how often a watched read is repeated. -/
inductive WorldCall where
  | pause
  | resume
  | list
  | dump (args : String)
  | find (args : String)
  | read (addr size : Nat) (filename : Option String) (rounds : Nat)
  | write (addr : Nat) (data : Bytes)
  | set (args : String)

namespace World

section Runs

variable {σ : Type} [Phosg] [PhosgText] [FloatText] (k : Kernel σ)
  (adapter : ProcessMemoryAdapter) (formatSize : Nat → String)

def action (st : MemwatchShell) : WorldCall → WorldAction σ Unit
  | .pause => commandPause k adapter
  | .resume => commandResume k adapter
  | .list => commandList k adapter st
  | .dump args => commandDump k adapter st formatSize args
  | .find args => do
    let _ ← commandFind k adapter st args
  | .read addr size filename rounds => readLoop k adapter st addr size filename rounds
  | .write addr data => writeBlock k adapter st addr data
  | .set args => commandSet k adapter st args

/-- What `execute_command` leaves: an exception is only printed. There is no world after
memwatch has terminated. -/
def reported : EStateM.Result WorldFault (World σ) Unit → Option (World σ)
  | .ok () w => some w
  | .error (.fault _) w => some w
  | .error .terminated _ => none

def executeCall (st : MemwatchShell) (call : WorldCall) (w : World σ) : Option (World σ) :=
  reported (action k adapter formatSize st call w)

/-- Commands one after another, with the shell as each finds it. -/
def executeCalls (calls : List (MemwatchShell × WorldCall)) (w : World σ) : Option (World σ) :=
  calls.foldlM (fun w call => executeCall k adapter formatSize call.1 call.2 w) w

/-- How a command changes the number of times the target is suspended. -/
def granted (w : World σ) : WorldCall → Int
  | .pause => if (k.taskSuspend w).isOk then 1 else 0
  | .resume => if w.suspendCount ≠ 0 ∧ (k.taskResume w).isOk then -1 else 0
  | _ => 0

/-- The sum over all commands of a run. -/
def grantedBy : List (MemwatchShell × WorldCall) → World σ → Int
  | [], _ => 0
  | call :: calls, w => granted k w call.2 +
    match executeCall k adapter formatSize call.1 call.2 w with
    | some w => grantedBy calls w
    | none => 0

end Runs

/-! ## Balance -/

section Balance

variable {σ α : Type} {k : Kernel σ} {adapter : ProcessMemoryAdapter} {w w' : World σ}
  {pauseTarget : Bool} {scope : WorldAction σ α} {st : MemwatchShell} {call : WorldCall}
  {formatSize : Nat → String}

/-- The kernel refuses to resume a target that is suspended. -/
def RefusesResume (k : Kernel σ) : Prop :=
  ∃ w, w.suspendCount ≠ 0 ∧ (k.taskResume w).isOk = false

theorem resume_cases (k : Kernel σ) (adapter : ProcessMemoryAdapter) (w : World σ) :
    (∃ e, resume k adapter w = .error (.fault e) w ∧
      ¬ (w.suspendCount ≠ 0 ∧ (k.taskResume w).isOk = true)) ∨
    resume k adapter w = .ok () { w with suspendCount := w.suspendCount - 1 } ∧
      w.suspendCount ≠ 0 ∧ (k.taskResume w).isOk = true := by
  unfold resume
  by_cases hzero : w.suspendCount = 0
  · rw [if_pos hzero]
    exact .inl ⟨_, rfl, fun h => h.1 hzero⟩
  · rw [if_neg hzero]
    cases hresume : k.taskResume w with
    | error ret => exact .inl ⟨_, rfl, fun h => Bool.false_ne_true h.2⟩
    | ok _ => exact .inr ⟨rfl, hzero, rfl⟩

theorem pause_cases (k : Kernel σ) (adapter : ProcessMemoryAdapter) (w : World σ) :
    (∃ e, pause k adapter w = .error (.fault e) w ∧ (k.taskSuspend w).isOk = false) ∨
      pause k adapter w = .ok () { w with suspendCount := w.suspendCount + 1 } ∧
        (k.taskSuspend w).isOk = true := by
  unfold pause
  cases k.taskSuspend w with
  | error ret => exact .inl ⟨_, rfl, rfl⟩
  | ok _ => exact .inr ⟨rfl, rfl⟩

/-- The destructor of a guard takes one suspension away. -/
theorem settles_resume {n : Nat} {result : World σ → EStateM.Result WorldFault (World σ) α}
    (hw : w.suspendCount = n + 1)
    (hresult : ∀ w, w.suspendCount = n → Settles (RefusesResume k) n (result w)) :
    Settles (RefusesResume k) n (match resume k adapter w with
      | .ok () w => result w
      | .error _ w => .error .terminated w) := by
  rcases resume_cases k adapter w with ⟨e, herror, hrefused⟩ | ⟨hok, -, -⟩
  · simp only [herror]
    exact ⟨w, by omega, by simpa [hw] using hrefused⟩
  · simp only [hok]
    exact hresult _ (by simp [hw])

theorem settles_unguard (hscope : Balanced False scope) {n : Nat} (hw : w.suspendCount = n + 1) :
    Settles (RefusesResume k) n (unguard k adapter scope w) := by
  have hend := hscope w
  unfold unguard
  cases hrun : scope w with
  | ok a w₁ =>
    rw [hrun] at hend
    exact settles_resume (Eq.trans hend hw) fun _ h => h
  | error e w₁ =>
    rw [hrun] at hend
    cases e with
    | terminated => exact hend.elim
    | fault f => exact settles_resume (Eq.trans hend hw) fun _ h => h

theorem Balanced.mono {R R' : Prop} (h : Balanced R scope) (hR : R → R') : Balanced R' scope := by
  intro w
  have hend := h w
  cases hrun : scope w with
  | ok a w₁ => rwa [hrun] at hend
  | error e w₁ =>
    rw [hrun] at hend
    cases e with
    | fault f => exact hend
    | terminated => exact hR hend

theorem balanced_guarded (hscope : Balanced False scope) :
    Balanced (RefusesResume k) (guarded k adapter pauseTarget scope) := by
  cases pauseTarget with
  | false => exact hscope.mono False.elim
  | true =>
    intro w
    show Settles _ _ (EStateM.bind (pause k adapter) (fun _ => unguard k adapter scope) w)
    unfold EStateM.bind
    rcases pause_cases k adapter w with ⟨e, herror, -⟩ | ⟨hok, -⟩
    · rw [herror]
      rfl
    · rw [hok]
      exact settles_unguard hscope rfl

theorem balanced_readLoop (addr size : Nat) (filename : Option String) (rounds : Nat) :
    Balanced (RefusesResume k) (readLoop k adapter st addr size filename rounds) := by
  have hround : Balanced (RefusesResume k) (readRound k adapter st addr size filename) := by
    refine balanced_tried (balanced_bind (balanced_guarded (balanced_read addr size)) ?_)
    intro data
    cases filename with
    | none => exact balanced_pure ()
    | some filename => exact balanced_saveFile filename _
  induction rounds with
  | zero => exact hround
  | succ rounds ih => exact balanced_bind hround fun _ => ih

theorem balanced_saveRegions {R : Prop} (args : String)
    (regions : List ProcessMemoryAdapter.Region) : Balanced R (saveRegions k args regions) := by
  induction regions with
  | nil => exact balanced_pure ()
  | cons r regions ih =>
    refine balanced_bind ?_ fun _ => ih
    exact balanced_ite (balanced_pure ()) (balanced_saveFile _ _)

variable [Phosg] [PhosgText] [FloatText]

/-- Every command is balanced, but for `pause` and `resume`. -/
theorem balanced_action (hpause : call ≠ .pause) (hresume : call ≠ .resume) :
    Balanced (RefusesResume k) (action k adapter formatSize st call) := by
  cases call with
  | pause => exact absurd rfl hpause
  | resume => exact absurd rfl hresume
  | list =>
    exact balanced_bind (balanced_guarded (balanced_getAllRegions false)) fun _ => balanced_pure ()
  | dump args =>
    refine balanced_bind (balanced_guarded (balanced_getAllRegions true)) fun regions => ?_
    refine balanced_ite (balanced_pure ()) ?_
    exact balanced_bind (balanced_saveFile _ _) fun _ => balanced_saveRegions args regions
  | find args =>
    refine balanced_bind (balanced_bind (balanced_raise _) fun parsed => ?_) fun _ =>
      balanced_pure ()
    exact balanced_ite (balanced_raise _) (balanced_guarded (balanced_getAllRegions true))
  | read addr size filename rounds => exact balanced_readLoop addr size filename rounds
  | write addr data => exact balanced_tried (balanced_guarded (balanced_write addr data))
  | set args =>
    exact balanced_bind (balanced_raise _) fun _ => balanced_guarded (balanced_setScope _ _ _)

/-- A command changes the number of suspensions by what it is granted. -/
theorem settles_action (k : Kernel σ) (adapter : ProcessMemoryAdapter)
    (formatSize : Nat → String) (st : MemwatchShell) (call : WorldCall) (w : World σ) : ∃ n : Nat,
    Settles (RefusesResume k) n (action k adapter formatSize st call w) ∧
      (n : Int) = w.suspendCount + granted k w call := by
  have hother : granted k w call = 0 → call ≠ .pause → call ≠ .resume → ∃ n : Nat,
      Settles (RefusesResume k) n (action k adapter formatSize st call w) ∧
        (n : Int) = w.suspendCount + granted k w call := by
    intro hzero hpause hresume
    exact ⟨w.suspendCount, balanced_action hpause hresume w, by rw [hzero, add_zero]⟩
  cases call with
  | pause =>
    show ∃ n : Nat, Settles (RefusesResume k) n (pause k adapter w) ∧
      (n : Int) = w.suspendCount + if (k.taskSuspend w).isOk then 1 else 0
    rcases pause_cases k adapter w with ⟨e, herror, hrefused⟩ | ⟨hok, hgranted⟩
    · rw [herror, hrefused]
      exact ⟨w.suspendCount, rfl, by simp⟩
    · rw [hok, hgranted]
      exact ⟨w.suspendCount + 1, rfl, by simp⟩
  | resume =>
    show ∃ n : Nat, Settles (RefusesResume k) n (resume k adapter w) ∧ (n : Int) =
      w.suspendCount + if w.suspendCount ≠ 0 ∧ (k.taskResume w).isOk then -1 else 0
    rcases resume_cases k adapter w with
      ⟨e, herror, hrefused⟩ | ⟨hok, hne, hgranted⟩
    · rw [herror, if_neg hrefused]
      exact ⟨w.suspendCount, rfl, by simp⟩
    · rw [hok, if_pos ⟨hne, hgranted⟩]
      exact ⟨w.suspendCount - 1, rfl, by omega⟩
  | _ => exact hother rfl nofun nofun

omit [Phosg] [PhosgText] [FloatText] in
theorem reported_of_settles {R : Prop} {n : Nat} {result : EStateM.Result WorldFault (World σ) Unit}
    (h : Settles R n result) :
    (∀ w', reported result = some w' → w'.suspendCount = n) ∧ (reported result = none → R) := by
  cases result with
  | ok _ w₁ => exact ⟨fun w' heq => Option.some.inj heq ▸ h, nofun⟩
  | error e w₁ =>
    cases e with
    | fault f => exact ⟨fun w' heq => Option.some.inj heq ▸ h, nofun⟩
    | terminated => exact ⟨nofun, fun _ => h⟩

/-- After any run of commands the target is suspended as often as `pause` and `resume` have
been granted, whatever fails; and memwatch terminates on the way only if the kernel refuses
to resume a target that is suspended. -/
theorem pauses_balanced (k : Kernel σ) (adapter : ProcessMemoryAdapter)
    (formatSize : Nat → String) (calls : List (MemwatchShell × WorldCall)) (w : World σ) :
    (∀ w', executeCalls k adapter formatSize calls w = some w' →
      (w'.suspendCount : Int) = w.suspendCount + grantedBy k adapter formatSize calls w) ∧
    (executeCalls k adapter formatSize calls w = none → RefusesResume k) := by
  induction calls generalizing w with
  | nil =>
    refine ⟨fun w' heq => ?_, nofun⟩
    cases heq
    exact (add_zero _).symm
  | cons call calls ih =>
    obtain ⟨n, hsettles, hn⟩ := settles_action k adapter formatSize call.1 call.2 w
    obtain ⟨hcount, hnone⟩ := reported_of_settles hsettles
    have hrun : executeCalls k adapter formatSize (call :: calls) w =
        executeCall k adapter formatSize call.1 call.2 w >>=
          executeCalls k adapter formatSize calls := List.foldlM_cons
    rw [hrun, grantedBy]
    cases hcall : executeCall k adapter formatSize call.1 call.2 w with
    | none => exact ⟨nofun, fun _ => hnone hcall⟩
    | some w₁ =>
      obtain ⟨hrest, hrefuses⟩ := ih w₁
      refine ⟨fun w' heq => ?_, hrefuses⟩
      have hw₁ := hcount w₁ hcall
      have hw' := hrest w' heq
      show (w'.suspendCount : Int) = w.suspendCount + (granted k w call.2 +
        grantedBy k adapter formatSize calls w₁)
      omega

end Balance

/-! ## A target that stands still -/

section Still

variable {σ α : Type} {k k' : Kernel σ} {adapter : ProcessMemoryAdapter}
  {scope scope' : WorldAction σ α} {st : MemwatchShell} {formatSize : Nat → String}

def Suspended (w : World σ) : Prop := 0 < w.suspendCount

/-- The kernels give the same answers about a target that is suspended. Of a target that is
running they may tell anything. -/
structure SameSuspended (k k' : Kernel σ) : Prop where
  taskSuspend : k.taskSuspend = k'.taskSuspend
  taskResume : k.taskResume = k'.taskResume
  save : k.save = k'.save
  read : ∀ w, Suspended w → k.read w = k'.read w
  write : ∀ w, Suspended w → k.write w = k'.write w
  allRegions : ∀ w, Suspended w → k.allRegions w = k'.allRegions w

theorem keeps_suspended (h : Balanced False scope) : Keeps Suspended scope := by
  intro w hw
  have hend := h w
  unfold Suspended at hw ⊢
  cases hrun : scope w with
  | ok a w₁ =>
    rw [hrun] at hend
    exact hend.symm ▸ hw
  | error e w₁ =>
    rw [hrun] at hend
    cases e with
    | fault f => exact hend.symm ▸ hw
    | terminated => exact hend.elim

theorem SameSuspended.pause (h : SameSuspended k k') : pause k adapter = pause k' adapter := by
  unfold World.pause
  rw [h.taskSuspend]

theorem SameSuspended.resume (h : SameSuspended k k') : resume k adapter = resume k' adapter := by
  unfold World.resume
  rw [h.taskResume]

theorem SameSuspended.saveFile (h : SameSuspended k k') : saveFile k = saveFile k' := by
  unfold World.saveFile
  rw [h.save]

/-- A guarded scope is the same if it is in the states in which the target is suspended. -/
theorem SameSuspended.guarded (h : SameSuspended k k') (hscope : SameOn Suspended scope scope') :
    guarded k adapter true scope = guarded k' adapter true scope' := by
  funext w
  show EStateM.bind (World.pause k adapter) (fun _ => unguard k adapter scope) w =
    EStateM.bind (World.pause k' adapter) (fun _ => unguard k' adapter scope') w
  unfold EStateM.bind
  rw [← h.pause]
  rcases pause_cases k adapter w with ⟨e, herror, -⟩ | ⟨hok, -⟩
  · rw [herror]
  · have hunguard : ∀ w, Suspended w → unguard k adapter scope w = unguard k' adapter scope' w := by
      intro w hw
      unfold unguard
      rw [hscope w hw, h.resume]
    rw [hok]
    exact hunguard _ (Nat.succ_pos w.suspendCount)

theorem SameSuspended.sameOn_read (h : SameSuspended k k') (addr size : Nat) :
    SameOn Suspended (World.read k addr size) (World.read k' addr size) := by
  intro w hw
  unfold World.read
  rw [h.read w hw]

theorem SameSuspended.sameOn_write (h : SameSuspended k k') (addr : Nat) (data : Bytes) :
    SameOn Suspended (World.write k addr data) (World.write k' addr data) := by
  intro w hw
  unfold World.write
  rw [h.write w hw]

theorem SameSuspended.sameOn_getAllRegions (h : SameSuspended k k') (readData : Bool) :
    SameOn Suspended (getAllRegions k readData) (getAllRegions k' readData) := by
  intro w hw
  unfold getAllRegions
  rw [h.allRegions w hw]

theorem sameOn_tried {action action' : WorldAction σ Unit} (h : SameOn Suspended action action') :
    SameOn Suspended (tried action) (tried action') := by
  intro w hw
  unfold tried
  rw [h w hw]

/-- Between the writes of `set` the target stays suspended. -/
theorem SameSuspended.sameOn_writeResults (h : SameSuspended k k') (data : Bytes)
    (results : List Nat) :
    SameOn Suspended (writeResults k data results) (writeResults k' data results) := by
  induction results with
  | nil => exact fun _ _ => rfl
  | cons result results ih =>
    refine sameOn_bind (sameOn_tried (h.sameOn_write result data)) ?_ fun _ => ih
    exact keeps_suspended (balanced_tried (balanced_write result data))

theorem SameSuspended.sameOn_setScope (h : SameSuspended k k') (resultIndex : Int)
    (results : List Nat) (data : Bytes) :
    SameOn Suspended (setScope k resultIndex results data)
      (setScope k' resultIndex results data) := by
  unfold setScope
  split
  · exact h.sameOn_writeResults data results
  · split
    · exact h.sameOn_writeResults data _
    · exact fun _ _ => rfl

theorem SameSuspended.readLoop (h : SameSuspended k k') (hp : st.pauseTarget = true)
    (addr size : Nat) (filename : Option String) (rounds : Nat) :
    readLoop k adapter st addr size filename rounds =
      readLoop k' adapter st addr size filename rounds := by
  have hround : readRound k adapter st addr size filename =
      readRound k' adapter st addr size filename := by
    unfold readRound
    rw [hp, h.guarded (h.sameOn_read addr size), h.saveFile]
  induction rounds with
  | zero => exact hround
  | succ rounds ih =>
    unfold World.readLoop
    rw [hround, ih]

theorem SameSuspended.saveRegions (h : SameSuspended k k') (args : String)
    (regions : List ProcessMemoryAdapter.Region) :
    saveRegions k args regions = saveRegions k' args regions := by
  induction regions with
  | nil => rfl
  | cons r regions ih =>
    unfold World.saveRegions saveRegion
    rw [ih, h.saveFile]

variable [Phosg] [PhosgText] [FloatText]

theorem SameSuspended.action (h : SameSuspended k k') (hp : st.pauseTarget = true)
    (call : WorldCall) :
    action k adapter formatSize st call = action k' adapter formatSize st call := by
  cases call with
  | pause => exact h.pause
  | resume => exact h.resume
  | list =>
    unfold World.action commandList
    dsimp only
    rw [hp, h.guarded (h.sameOn_getAllRegions false)]
  | dump args =>
    unfold World.action commandDump
    dsimp only
    rw [hp, h.guarded (h.sameOn_getAllRegions true), h.saveFile]
    simp only [h.saveRegions]
  | find args =>
    unfold World.action commandFind
    dsimp only
    rw [hp, h.guarded (h.sameOn_getAllRegions true)]
  | read addr size filename rounds => exact h.readLoop hp addr size filename rounds
  | write addr data =>
    unfold World.action writeBlock
    dsimp only
    rw [hp, h.guarded (h.sameOn_write addr data)]
  | set args =>
    unfold World.action commandSet
    dsimp only
    rw [hp]
    exact congrArg (raise (setWrites st args) >>= ·)
      (funext fun writes => h.guarded (h.sameOn_setScope _ _ _))

/-- With `pause_target`, no command of a run looks at the target, or writes to it, while it
is running: what the kernel would answer then makes no difference. -/
theorem touched_suspended (h : SameSuspended k k') {calls : List (MemwatchShell × WorldCall)}
    (hp : ∀ call ∈ calls, call.1.pauseTarget = true) (w : World σ) :
    executeCalls k adapter formatSize calls w = executeCalls k' adapter formatSize calls w := by
  induction calls generalizing w with
  | nil => rfl
  | cons call calls ih =>
    obtain ⟨hfirst, hrest⟩ := List.forall_mem_cons.mp hp
    unfold executeCalls at ih ⊢
    rw [List.foldlM_cons, List.foldlM_cons]
    unfold executeCall at ih ⊢
    rw [h.action hfirst]
    cases reported (World.action k' adapter formatSize call.1 call.2 w) with
    | none => rfl
    | some w₁ => exact ih hrest w₁

end Still

section

open Plain

/-- A kernel that tells nothing of a target that is running. -/
def blindKernel : Kernel AddressMap where
  taskSuspend _ := .ok ()
  taskResume _ := .ok ()
  read w _ size :=
    if w.suspendCount = 0 then .error (runtimeError "running") else .ok (List.replicate size 0)
  write w _ _ := (if w.suspendCount = 0 then .error (runtimeError "running") else .ok (), w.mem)
  allRegions w readData := (if w.suspendCount = 0 then .error (runtimeError "running")
    else .ok (w.mem.regions.map (found granting readData)), w.mem)
  save _ _ := .ok ()

theorem touched_suspended_list :
    executeCalls grantingKernel ⟨1⟩ (fun _ => "")
        [(.new "target" 10 5 true true false, .list),
          (.new "target" 10 5 true true false, .write 0x1000 [1])] beforeDump =
      executeCalls blindKernel ⟨1⟩ (fun _ => "")
        [(.new "target" 10 5 true true false, .list),
          (.new "target" 10 5 true true false, .write 0x1000 [1])] beforeDump := by
  have hsame : SameSuspended grantingKernel blindKernel := by
    refine ⟨rfl, rfl, rfl, fun w hw => ?_, fun w hw => ?_, fun w hw => ?_⟩
    · simp [grantingKernel, blindKernel, Nat.pos_iff_ne_zero.mp hw]
    · simp [grantingKernel, blindKernel, Nat.pos_iff_ne_zero.mp hw]
    · simp [grantingKernel, blindKernel, Nat.pos_iff_ne_zero.mp hw]
  exact touched_suspended hsame (by decide) beforeDump

end

end World

end Memwatch
