import Memwatch.Adapter.Model
import Memwatch.Lib.Keeps
import Memwatch.Shell.ReadWrite

/-!
# Commands and the world

What the commands do outside of the shell: they read and write the memory of the target,
pause and resume it, and save files. A `PauseGuard` pauses the target for a scope, and its
destructor resumes it however the scope is left; a destructor that throws terminates
memwatch. What a command prints is left out.
-/

namespace Memwatch

open Lib Text ProcessMemoryAdapter

inductive Contents where
  | lines (text : List String)
  | data (bytes : Bytes)
  deriving DecidableEq

/-- The memory of the target, how many times it is suspended, and the files. -/
structure World (σ : Type) where
  mem : σ
  suspendCount : Nat
  files : String → Option Contents

/-- The answers of the kernel. Reads of regions may change protections. -/
structure Kernel (σ : Type) where
  taskSuspend : World σ → Except KernReturn Unit
  taskResume : World σ → Except KernReturn Unit
  read : World σ → (addr size : Nat) → Except Exception Bytes
  write : World σ → (addr : Nat) → (data : Bytes) → Except Exception Unit × σ
  allRegions : World σ → (readData : Bool) → Except Exception (List ProcessMemoryAdapter.Region) × σ
  save : World σ → (filename : String) → Except Exception Unit

/-- `task_resume` of a task that is not suspended. -/
def kernFailure : KernReturn := 5

/-- Why a command does not get to its end. -/
inductive WorldFault where
  | fault (f : Fault)
  | terminated
  deriving DecidableEq

abbrev WorldAction (σ : Type) := EStateM WorldFault (World σ)

namespace World

def raise {σ α : Type} (x : Except Exception α) : WorldAction σ α := fun w =>
  match x with
  | .ok a => .ok a w
  | .error e => .error (.fault (.exception e)) w

/-- `try { … } catch (const exception& e) { … }`, where the exception is only printed. -/
def tried {σ : Type} (action : WorldAction σ Unit) : WorldAction σ Unit := fun w =>
  match action w with
  | .error (.fault (.exception _)) w => .ok () w
  | result => result

section Calls

variable {σ α : Type} (k : Kernel σ) (adapter : ProcessMemoryAdapter)

/-! ## Pauses -/

def pause : WorldAction σ Unit := fun w =>
  match k.taskSuspend w with
  | .ok () => .ok () { w with suspendCount := w.suspendCount + 1 }
  | .error ret => raise (.error (runtimeError ("can't pause process " ++ toString adapter.pid ++
      " (" ++ toString ret ++ ")"))) w

def resume : WorldAction σ Unit := fun w =>
  match (if w.suspendCount = 0 then .error kernFailure else k.taskResume w) with
  | .ok () => .ok () { w with suspendCount := w.suspendCount - 1 }
  | .error ret => raise (.error (runtimeError ("can't resume process " ++ toString adapter.pid ++
      " (" ++ toString ret ++ ")"))) w

/-- The end of a scope with a guard. -/
def unguard (scope : WorldAction σ α) : WorldAction σ α := fun w =>
  match scope w with
  | .ok a w =>
    match resume k adapter w with
    | .ok () w => .ok a w
    | .error _ w => .error .terminated w
  | .error e w =>
    match resume k adapter w with
    | .ok () w => .error e w
    | .error _ w => .error .terminated w

/-- A scope that begins with `PauseGuard g(this->pause_target ? this->adapter : NULL)`. -/
def guarded (pauseTarget : Bool) (scope : WorldAction σ α) : WorldAction σ α :=
  if pauseTarget then do
    pause k adapter
    unguard k adapter scope
  else scope

/-! ## Memory and files -/

def getAllRegions (readData : Bool) : WorldAction σ (List ProcessMemoryAdapter.Region) := fun w =>
  raise (k.allRegions w readData).1 { w with mem := (k.allRegions w readData).2 }

def read (addr size : Nat) : WorldAction σ Bytes := fun w => raise (k.read w addr size) w

def write (addr : Nat) (data : Bytes) : WorldAction σ Unit := fun w =>
  raise (k.write w addr data).1 { w with mem := (k.write w addr data).2 }

def saveFile (filename : String) (contents : Contents) : WorldAction σ Unit := fun w =>
  match k.save w filename with
  | .ok () => .ok () { w with
      files := fun name => if name = filename then some contents else w.files name }
  | .error e => raise (.error e) w

end Calls

/-! ## Commands -/

section Commands

variable {σ : Type} (k : Kernel σ) (adapter : ProcessMemoryAdapter) (st : MemwatchShell)

def commandPause : WorldAction σ Unit := pause k adapter

def commandResume : WorldAction σ Unit := resume k adapter

def commandList : WorldAction σ Unit := do
  let _ ← guarded k adapter st.pauseTarget (getAllRegions k false)

def commandFind [PhosgText] (argsStr : String) :
    WorldAction σ (List ProcessMemoryAdapter.Region) := do
  let (data, _) ← raise (PhosgText.parseDataString argsStr)
  if data = [] then raise (.error (invalidArgument "no data was specified"))
  else guarded k adapter st.pauseTarget (getAllRegions k true)

def readRound (addr size : Nat) (filename : Option String) : WorldAction σ Unit :=
  tried do
    let data ← guarded k adapter st.pauseTarget (read k addr size)
    match filename with
    | some filename => saveFile k filename (.data data)
    | none => pure ()

/-- The loop of `read`, with as many rounds after the first one as there are under `watch`
before a signal. -/
def readLoop (addr size : Nat) (filename : Option String) : Nat → WorldAction σ Unit
  | 0 => readRound k adapter st addr size filename
  | rounds + 1 => do
    readRound k adapter st addr size filename
    readLoop addr size filename rounds

def writeBlock (addr : Nat) (data : Bytes) : WorldAction σ Unit :=
  tried (guarded k adapter st.pauseTarget (write k addr data))

/-- `result_index` and `value_arg`. -/
def setArgs (args : String) : Except Exception (Int × String) :=
  if charAt args 0 = 's' then
    match find args ' ' with
    | none => .error (invalidArgument "no data was specified")
    | some spacePos => do
      let resultIndex ← stoll (substr (substrTo args spacePos) 1) 0
      pure (resultIndex, substr args (spacePos + 1))
  else .ok (-1, args)

/-- What `set` writes: the results and the value. -/
def setWrites [Phosg] [PhosgText] [FloatText] (args : String) :
    Except Exception (Int × List Nat × Bytes) := do
  st.checkInteractive
  let (resultIndex, valueArg) ← setArgs args
  let search ← st.getLatestSearch none
  if search.memory.isNone then throw (invalidArgument "no initial search performed")
  else do
    let data ← MemwatchShell.readTypedValue search.type valueArg
    if data = [] then throw (invalidArgument "no data was specified")
    else pure (resultIndex, search.results, data)

/-- A failed write is only printed. -/
def writeResults (data : Bytes) : List Nat → WorldAction σ Unit
  | [] => pure ()
  | result :: results => do
    tried (write k result data)
    writeResults data results

/-- All results are written if the index is negative, which it is where none is given. -/
def setScope (resultIndex : Int) (results : List Nat) (data : Bytes) : WorldAction σ Unit :=
  if resultIndex < 0 then writeResults k data results
  else
    match results[resultIndex.toNat]? with
    | some result => writeResults k data [result]
    | none => raise (.error (outOfRange "vector"))

def commandSet [Phosg] [PhosgText] [FloatText] (args : String) : WorldAction σ Unit := do
  let (resultIndex, results, data) ← raise (setWrites st args)
  guarded k adapter st.pauseTarget (setScope k resultIndex results data)

end Commands

/-! ## Guards -/

section Guards

variable {σ α β : Type} {k : Kernel σ} {adapter : ProcessMemoryAdapter} {w w' : World σ}
  {scope : WorldAction σ α} {pauseTarget : Bool} {a : α}

/-- The target is left suspended `n` times, and memwatch terminates only if `R`. -/
def Settles (R : Prop) (n : Nat) : EStateM.Result WorldFault (World σ) α → Prop
  | .ok _ w => w.suspendCount = n
  | .error (.fault _) w => w.suspendCount = n
  | .error .terminated _ => R

/-- The action leaves the target suspended as often as it is. -/
def Balanced (R : Prop) (action : WorldAction σ α) : Prop :=
  ∀ w, Settles R w.suspendCount (action w)

variable {R : Prop}

theorem balanced_pure (a : α) : Balanced R (pure a : WorldAction σ α) := fun _ => rfl

theorem balanced_raise (x : Except Exception α) : Balanced R (raise x : WorldAction σ α) := by
  intro w
  cases x <;> rfl

theorem balanced_bind {f : α → WorldAction σ β} (hscope : Balanced R scope)
    (hf : ∀ a, Balanced R (f a)) : Balanced R (scope >>= f) := by
  intro w
  have hend := hscope w
  show Settles R w.suspendCount (EStateM.bind scope f w)
  unfold EStateM.bind
  cases hrun : scope w with
  | ok a w₁ =>
    rw [hrun] at hend
    have hrest := hf a w₁
    rwa [show w₁.suspendCount = w.suspendCount from hend] at hrest
  | error e w₁ =>
    rw [hrun] at hend
    cases e <;> exact hend

theorem balanced_ite {p : Prop} [Decidable p] {scope' : WorldAction σ α}
    (hscope : Balanced R scope) (hscope' : Balanced R scope') :
    Balanced R (if p then scope else scope') := by
  split
  · exact hscope
  · exact hscope'

theorem balanced_tried {action : WorldAction σ Unit} (h : Balanced R action) :
    Balanced R (tried action) := by
  intro w
  have hend := h w
  unfold tried
  split
  · next heq =>
    rw [heq] at hend
    exact hend
  · exact hend

theorem balanced_read (addr size : Nat) : Balanced R (read k addr size) :=
  fun w => balanced_raise (k.read w addr size) w

theorem balanced_write (addr : Nat) (data : Bytes) : Balanced R (write k addr data) :=
  fun w => balanced_raise _ { w with mem := (k.write w addr data).2 }

theorem balanced_getAllRegions (readData : Bool) : Balanced R (getAllRegions k readData) :=
  fun w => balanced_raise _ { w with mem := (k.allRegions w readData).2 }

theorem balanced_saveFile (filename : String) (contents : Contents) :
    Balanced R (saveFile k filename contents) := by
  intro w
  unfold saveFile
  cases k.save w filename <;> rfl

theorem balanced_writeResults (data : Bytes) (results : List Nat) :
    Balanced R (writeResults k data results) := by
  induction results with
  | nil => exact balanced_pure ()
  | cons result results ih =>
    exact balanced_bind (balanced_tried (balanced_write result data)) fun _ => ih

theorem balanced_setScope (resultIndex : Int) (results : List Nat) (data : Bytes) :
    Balanced R (setScope k resultIndex results data) := by
  refine balanced_ite (balanced_writeResults _ _) ?_
  split
  · exact balanced_writeResults _ _
  · exact balanced_raise _

/-- How often the target is suspended in a scope with a guard. -/
def countIn (pauseTarget : Bool) (w : World σ) : Nat :=
  if pauseTarget then w.suspendCount + 1 else w.suspendCount

/-- A scope with a guard that is left at its end. -/
theorem guarded_eq_ok (hscope : Balanced False scope)
    (h : guarded k adapter pauseTarget scope w = .ok a w') :
    ∃ w₁, scope { w with suspendCount := countIn pauseTarget w } = .ok a w₁ ∧
      w' = { w₁ with suspendCount := w.suspendCount } := by
  cases pauseTarget with
  | false =>
    have hcount := hscope w
    rw [show scope w = .ok a w' from h] at hcount
    refine ⟨w', h, ?_⟩
    rw [← show w'.suspendCount = w.suspendCount from hcount]
  | true =>
    obtain ⟨_, w₀, hpause, h⟩ := run_bind_eq_ok.mp (show (pause k adapter >>= _) w = _ from h)
    obtain rfl : { w with suspendCount := w.suspendCount + 1 } = w₀ := by
      unfold pause at hpause
      split at hpause
      · cases hpause; rfl
      · cases hpause
    have hcount := hscope { w with suspendCount := w.suspendCount + 1 }
    unfold unguard at h
    split at h
    · next a₁ w₁ hrun =>
      rw [hrun] at hcount
      split at h
      · next w₂ hresume =>
        cases h
        refine ⟨w₁, hrun, ?_⟩
        unfold resume at hresume
        split at hresume
        · cases hresume
          rw [show w₁.suspendCount = w.suspendCount + 1 from hcount]
          rfl
        · cases hresume
      · cases h
    · split at h <;> cases h

end Guards

end World

end Memwatch
