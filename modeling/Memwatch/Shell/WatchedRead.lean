import Memwatch.Lib.Machines
import Memwatch.Shell.Text

/-!
# Watched reads

Under `watch` the loop of `read` has two buffers, one for the data and one for the data
before it, and swaps them after each round, also after one that has read nothing. After
an odd number of such rounds the data that was read last is in the wrong buffer.
`markedReads` is what the loop is for.
-/

namespace Memwatch

open Lib

namespace MemwatchShell

/-! ## The loop -/

/-- What a round of `read` shows. -/
inductive Shown where
  | printed (data : Bytes) (prevData : Option Bytes)
  | saved (filename : String) (data : Bytes)
  | failed (e : Exception)
  deriving DecidableEq

/-- The variables of the loop of `read`: `prevData` is there when the read is repeated. -/
structure ReadLoop where
  data : Bytes
  prevData : Option Bytes
  firstRead : Bool

namespace ReadLoop

def new (watch : Bool) (size : Nat) : ReadLoop where
  data := List.replicate size 0
  prevData := if watch then some (List.replicate size 0) else none
  firstRead := true

/-- What a round shows whose read ends with `read`. -/
def tell (saveFile : String → Bytes → Except Exception Unit) (filename : Option String)
    (s : ReadLoop) (read : Except Exception Bytes) : Shown :=
  match read with
  | .error e => .failed e
  | .ok data =>
    match filename with
    | some filename =>
      match saveFile filename data with
      | .error e => .failed e
      | .ok () => .saved filename data
    | none => .printed data (if s.firstRead then none else s.prevData)

/-- The buffers are swapped if there are two. -/
def next (s : ReadLoop) (read : Except Exception Bytes) : ReadLoop :=
  let data :=
    match read with
    | .ok data => data
    | .error _ => s.data
  match s.prevData with
  | some prevData => ⟨prevData, some data, false⟩
  | none => ⟨data, none, false⟩

end ReadLoop

/-- What `read` shows when its reads end with `reads`, round after round. -/
def readLoop (watch : Bool) (saveFile : String → Bytes → Except Exception Unit)
    (filename : Option String) (size : Nat) (reads : List (Except Exception Bytes)) : List Shown :=
  outputs (ReadLoop.tell saveFile filename) ReadLoop.next (.new watch size)
    (if watch then reads else reads.take 1)

/-! ## Reads against the last one -/

/-- What is to be shown after the read of `lastRead`. -/
def mark (lastRead : Option Bytes) : Except Exception Bytes → Shown
  | .ok data => .printed data lastRead
  | .error e => .failed e

/-- The data that was read last. -/
def keepRead (lastRead : Option Bytes) : Except Exception Bytes → Option Bytes
  | .ok data => some data
  | .error _ => lastRead

/-- Data that is read is printed against the data that was read before it. -/
def markedReads (reads : List (Except Exception Bytes)) : List Shown :=
  outputs mark keepRead none reads

def successes (reads : List (Except Exception Bytes)) : List Bytes :=
  reads.filterMap Except.toOption

def failuresSince (reads : List (Except Exception Bytes)) : Nat :=
  (reads.rtakeWhile fun read => !read.isOk).length

/-- What a buffer holds that starts with zeros and has taken some data. -/
def contents (size : Nat) (taken : List Bytes) : Bytes :=
  taken.getLast?.getD (List.replicate size 0)

/-- Data that is read next is printed against the right data: nothing was tried before, or
something was read and the failures since then are even in number, or it was no other
than the data before it, which is zeros if there was none. -/
def InStep (size : Nat) (before : List (Except Exception Bytes)) : Prop :=
  before = [] ∨ successes before ≠ [] ∧ (Even (failuresSince before) ∨
    contents size (successes before) = contents size (successes before).dropLast)

instance instDecidableInStep (size : Nat) (before : List (Except Exception Bytes)) :
    Decidable (InStep size before) :=
  inferInstanceAs (Decidable (before = [] ∨ _ ∧ (_ ∨ contents size (successes before) = _)))

section Reads

variable {size : Nat} {reads : List (Except Exception Bytes)} {data : Bytes} {e : Exception}

theorem successes_concat_ok : successes (reads ++ [.ok data]) = successes reads ++ [data] := by
  simp [successes, Except.toOption]

theorem successes_concat_error : successes (reads ++ [.error e]) = successes reads := by
  simp [successes, Except.toOption]

theorem failuresSince_concat_ok : failuresSince (reads ++ [.ok data]) = 0 := by
  unfold failuresSince
  rw [List.rtakeWhile_concat_neg _ _ _ (by simp [Except.isOk, Except.toBool]), List.length_nil]

theorem failuresSince_concat_error :
    failuresSince (reads ++ [.error e]) = failuresSince reads + 1 := by
  unfold failuresSince
  rw [List.rtakeWhile_concat_pos _ _ _ (by simp [Except.isOk, Except.toBool]),
    List.length_append, List.length_singleton]

theorem contents_concat (taken : List Bytes) : contents size (taken ++ [data]) = data := by
  simp [contents]

/-- The last read as the reference keeps it. -/
theorem foldl_keepRead (reads : List (Except Exception Bytes)) :
    reads.foldl keepRead none = (successes reads).getLast? := by
  induction reads using List.reverseRecOn with
  | nil => rfl
  | append_singleton reads read ih =>
    rw [List.foldl_concat, ih]
    cases read with
    | ok data => rw [successes_concat_ok, List.getLast?_concat]; rfl
    | error e => rw [successes_concat_error]; rfl

end Reads

/-! ## The buffers -/

/-- The buffers after a list of reads: one has the data that was read last, and the other
one the data before it. -/
structure Buffers (size : Nat) (before : List (Except Exception Bytes)) (s : ReadLoop) :
    Prop where
  firstRead : s.firstRead = true ↔ before = []
  prevData : s.prevData = some (if Even (failuresSince before)
    then contents size (successes before) else contents size (successes before).dropLast)
  data : s.data = if Even (failuresSince before)
    then contents size (successes before).dropLast else contents size (successes before)

section Buffers

variable {size : Nat} {before : List (Except Exception Bytes)} {s : ReadLoop} {data : Bytes}
  {e : Exception}

theorem buffers_new : Buffers size [] (.new true size) where
  firstRead := iff_of_true rfl rfl
  prevData := rfl
  data := rfl

theorem Buffers.error (h : Buffers size before s) :
    Buffers size (before ++ [.error e]) (s.next (.error e)) := by
  have hparity : Even (failuresSince (before ++ [.error e])) ↔ ¬ Even (failuresSince before) := by
    rw [failuresSince_concat_error, Nat.even_add_one]
  unfold ReadLoop.next
  rw [h.prevData]
  refine ⟨by simp, ?_, ?_⟩
  · simp only [hparity, ite_not, successes_concat_error]
    rw [h.data]
  · simp only [hparity, ite_not, successes_concat_error]

theorem buffers_ok (hprev : s.prevData = some (contents size (successes before))) :
    Buffers size (before ++ [.ok data]) (s.next (.ok data)) := by
  unfold ReadLoop.next
  rw [hprev]
  refine ⟨by simp, ?_, ?_⟩
  · simp only [failuresSince_concat_ok, successes_concat_ok, contents_concat, Even.zero, if_true]
  · simp only [failuresSince_concat_ok, successes_concat_ok, List.dropLast_concat, Even.zero,
      if_true]

theorem Buffers.prevData_eq_iff (h : Buffers size before s) :
    s.prevData = some (contents size (successes before)) ↔ Even (failuresSince before) ∨
      contents size (successes before) = contents size (successes before).dropLast := by
  rw [h.prevData, Option.some_inj]
  by_cases heven : Even (failuresSince before)
  · rw [if_pos heven]
    exact iff_of_true rfl (.inl heven)
  · rw [if_neg heven, or_iff_right heven, eq_comm]

theorem Buffers.prevData_of_inStep (h : Buffers size before s) (hstep : InStep size before) :
    s.prevData = some (contents size (successes before)) := by
  rw [h.prevData_eq_iff]
  rcases hstep with rfl | ⟨-, hstep⟩
  · exact .inl Even.zero
  · exact hstep

/-- The baseline of the next data is right if the loop is in step. -/
theorem Buffers.baseline_iff (h : Buffers size before s) :
    (if s.firstRead then none else s.prevData) = (successes before).getLast? ↔
      InStep size before := by
  by_cases hnil : before = []
  · rw [if_pos (h.firstRead.mpr hnil), hnil]
    exact iff_of_true rfl (.inl rfl)
  · rw [if_neg fun hfirst => hnil (h.firstRead.mp hfirst), InStep, or_iff_right hnil]
    cases hlast : (successes before).getLast? with
    | none =>
      have hempty : successes before = [] := List.getLast?_eq_none_iff.mp hlast
      rw [h.prevData]
      exact iff_of_false nofun fun hstep => hstep.1 hempty
    | some last =>
      have hne : successes before ≠ [] := by
        intro hempty
        rw [hempty] at hlast
        cases hlast
      have hcontents : contents size (successes before) = last := by
        rw [contents, hlast, Option.getD_some]
      rw [and_iff_right hne, ← h.prevData_eq_iff, hcontents]

theorem Buffers.tell_eq_iff (h : Buffers size before s)
    (saveFile : String → Bytes → Except Exception Unit) (read : Except Exception Bytes) :
    s.tell saveFile none read = mark (successes before).getLast? read ↔
      ∀ data, read = .ok data → InStep size before := by
  cases read with
  | error e => exact iff_of_true rfl nofun
  | ok data =>
    rw [ReadLoop.tell, mark, Shown.printed.injEq, and_iff_right rfl, h.baseline_iff]
    exact ⟨fun hstep _ _ => hstep, fun hstep => hstep data rfl⟩

theorem Buffers.next (h : Buffers size before s) {read : Except Exception Bytes}
    (hstep : ∀ data, read = .ok data → InStep size before) :
    Buffers size (before ++ [read]) (s.next read) := by
  cases read with
  | error e => exact h.error
  | ok data => exact buffers_ok (h.prevData_of_inStep (hstep data rfl))

end Buffers

/-! ## Whole loops -/

/-- Watched reads are printed against the last successful one exactly if the loop is in
step whenever a read succeeds. -/
theorem readLoop_eq_markedReads_iff (saveFile : String → Bytes → Except Exception Unit)
    (size : Nat) (reads : List (Except Exception Bytes)) :
    readLoop true saveFile none size reads = markedReads reads ↔
      ∀ before data, before ++ [.ok data] <+: reads → InStep size before := by
  unfold readLoop markedReads
  rw [if_pos rfl, outputs_eq_iff]
  have hsame : ∀ before read, Buffers size before (before.foldl ReadLoop.next (.new true size)) →
      (ReadLoop.tell saveFile none (before.foldl ReadLoop.next (.new true size)) read =
          mark (before.foldl keepRead none) read ↔
        ∀ data, read = .ok data → InStep size before) := by
    intro before read h
    rw [foldl_keepRead]
    exact h.tell_eq_iff saveFile read
  rw [eachStep_congr buffers_new ?_ hsame]
  · exact ⟨fun h before data hp => h before _ hp data rfl,
      fun h before read hp data hok => h before data (hok ▸ hp)⟩
  · intro before read h htell
    rw [List.foldl_concat]
    exact h.next ((hsame before read h).mp htell)

/-- A failure between two reads is enough for the second one to be printed against the
zeros of a new buffer. -/
theorem readLoop_after_failure : readLoop true (fun _ _ => .ok ()) none 1
      [.ok [1], .error (runtimeError "can't read"), .ok [1]] ≠
    markedReads [.ok [1], .error (runtimeError "can't read"), .ok [1]] := by
  decide

end MemwatchShell
end Memwatch
