import Memwatch.Region

/-!
# `find`

`command_find` of `MemwatchShell.cc`. Worker threads claim the regions of a
snapshot through a list of flags, and look for the pattern at every offset of
the regions they have claimed. Each exchange of a flag and each iteration of the
inner loop is a step of its worker; the steps of the workers and the signals of
`Signalable::signal_all` come in any order. Progress output is left out.
-/

namespace Memwatch

namespace Find

/-- What no worker changes: the regions, in the order of their sort by size, the
pattern with its mask, and what a read past the end of a region finds. -/
structure Job where
  regions : List Region
  data : Bytes
  mask : Bytes
  stray : Region → Nat → UInt8

/-- A result: the address and the protection of its region. -/
def found (region : Region) (y : Nat) : Nat × Nat := (add64 region.addr y, region.protection)

namespace Job

variable (job : Job)

def byteAt (region : Region) (off : Nat) : UInt8 := (region.data[off]?).getD (job.stray region off)

/-- The loop over the bytes of the pattern gets to its end. -/
def matchesAt (region : Region) (y : Nat) : Bool :=
  (List.range job.data.length).all fun z =>
    job.mask.getD z 0 == 0 || job.byteAt region (add64 y z) == job.data.getD z 0

/-- The last offset of a region that is looked at. -/
def lastOffset (region : Region) : Nat := sub64 region.size job.data.length

def totalSize : Nat :=
  job.regions.foldl (fun total region =>
    if region.data.isEmpty then total else add64 total region.data.length) 0

end Job

/-! ## Workers -/

/-- Where a worker is: not started, at the flag of region `x`, at offset `y` of
region `x`, or done. -/
inductive Pc where
  | start
  | claim (x : Nat)
  | scan (x y : Nat)
  | done
  deriving DecidableEq

structure Worker where
  pc : Pc
  signaled : Bool
  results : List (Nat × Nat)
  deriving DecidableEq

structure State where
  claimed : List Bool
  searchedSize : Nat
  workers : List Worker
  deriving DecidableEq

/-- What a step does. -/
inductive Event where
  | start (i : Nat)
  | claim (i x : Nat)
  | taken (i x : Nat)
  | look (i x y : Nat)
  | stop (i x y : Nat)
  | leave (i x : Nat)
  | finish (i : Nat)
  | signal
  deriving DecidableEq

def init (job : Job) (numThreads : Nat) : State where
  claimed := List.replicate job.regions.length false
  searchedSize := 0
  workers := List.replicate numThreads ⟨.start, false, []⟩

def State.setWorker (s : State) (i : Nat) (w : Worker) : State :=
  { s with workers := s.workers.set i w }

/-- The next step of worker `i`. -/
def advance (job : Job) (s : State) (i : Nat) (w : Worker) : Option (Event × State) :=
  match w.pc with
  | .start => some (.start i, s.setWorker i { w with pc := .claim 0, signaled := false })
  | .claim x =>
    match s.claimed[x]?, job.regions[x]? with
    | some true, _ => some (.taken i x, s.setWorker i { w with pc := .claim (x + 1) })
    | some false, some region =>
      some (.claim i x, { s with claimed := s.claimed.set x true }.setWorker i
        { w with pc := if region.data.isEmpty then .claim (x + 1) else .scan x 0 })
    | _, _ => some (.finish i, s.setWorker i { w with pc := .done })
  | .scan x y =>
    match job.regions[x]? with
    | none => none
    | some region =>
      if y ≤ job.lastOffset region then
        if y % 0x1000 = 0 ∧ w.signaled then
          some (.stop i x y, s.setWorker i { w with pc := .claim (x + 1) })
        else
          some (.look i x y,
            { s with searchedSize :=
                if y % 0x1000 = 0 then add64 s.searchedSize 0x1000 else s.searchedSize }.setWorker i
              { w with
                pc := .scan x (add64 y 1)
                results := if job.matchesAt region y then w.results ++ [found region y]
                  else w.results })
      else some (.leave i x, s.setWorker i { w with pc := .claim (x + 1) })
  | .done => none

def workerStep (job : Job) (s : State) (i : Nat) : Option (Event × State) :=
  (s.workers[i]?).bind (advance job s i)

/-- A signal reaches the workers whose `Signalable` exists. -/
def Worker.signal (w : Worker) : Worker :=
  match w.pc with
  | .claim _ | .scan _ _ => { w with signaled := true }
  | .start | .done => w

def State.signalAll (s : State) : State := { s with workers := s.workers.map Worker.signal }

/-- The runs of a job on some threads, with what happened. -/
inductive Run (job : Job) (numThreads : Nat) : List Event → State → Prop
  | init : Run job numThreads [] (init job numThreads)
  | worker {es : List Event} {s s' : State} {i : Nat} {e : Event} : Run job numThreads es s →
      workerStep job s i = some (e, s') → Run job numThreads (es ++ [e]) s'
  | signal {es : List Event} {s : State} : Run job numThreads es s →
      Run job numThreads (es ++ [.signal]) s.signalAll

/-- A schedule: the worker that takes each step, or a signal. -/
def execute (job : Job) : List (Option Nat) → List Event × State → Option (List Event × State)
  | [], out => some out
  | some i :: schedule, (es, s) =>
    (workerStep job s i).bind fun step => execute job schedule (es ++ [step.1], step.2)
  | none :: schedule, (es, s) => execute job schedule (es ++ [.signal], s.signalAll)

theorem Run.execute {job : Job} {numThreads : Nat} {schedule : List (Option Nat)}
    {es es' : List Event} {s s' : State} (h : Run job numThreads es s)
    (hex : execute job schedule (es, s) = some (es', s')) : Run job numThreads es' s' := by
  induction schedule generalizing es s with
  | nil => cases hex; exact h
  | cons turn schedule ih =>
    cases turn with
    | none => exact ih h.signal hex
    | some i =>
      obtain ⟨step, hstep, hex⟩ := Option.bind_eq_some_iff.mp hex
      exact ih (h.worker hstep) hex

def State.Finished (s : State) : Prop := ∀ w ∈ s.workers, w.pc = .done

instance (s : State) : Decidable s.Finished := inferInstanceAs (Decidable (∀ w ∈ s.workers, _))

/-! ## Results -/

/-- `std::sort` on pairs. -/
def sortResults (l : List (Nat × Nat)) : List (Nat × Nat) :=
  l.mergeSort fun a b => decide (toLex a ≤ toLex b)

/-- `find_results` after the threads are joined. -/
def State.findResults (s : State) : List Nat :=
  (sortResults (s.workers.flatMap Worker.results)).map Prod.fst

def Job.regionMatches (job : Job) (region : Region) : List (Nat × Nat) :=
  if region.data.isEmpty then []
  else ((List.range (job.lastOffset region + 1)).filter (job.matchesAt region)).map
    (found region)

/-- What one worker finds that scans the regions one after another. -/
def Job.sequentialResults (job : Job) (regions : List Region) : List Nat :=
  (sortResults (regions.flatMap job.regionMatches)).map Prod.fst

/-! ## Steps by cases -/

section Moves

variable (job : Job) (s : State) (i : Nat) (w : Worker)

/-- The steps of a worker, with what they depend on. -/
inductive Move : Event → State → Prop
  | start (hpc : w.pc = .start) :
      Move (.start i) (s.setWorker i { w with pc := .claim 0, signaled := false })
  | claim {x : Nat} {region : Region} (hpc : w.pc = .claim x) (hfree : s.claimed[x]? = some false)
      (hregion : job.regions[x]? = some region) :
      Move (.claim i x) ({ s with claimed := s.claimed.set x true }.setWorker i
        { w with pc := if region.data.isEmpty then .claim (x + 1) else .scan x 0 })
  | taken {x : Nat} (hpc : w.pc = .claim x) (htaken : s.claimed[x]? = some true) :
      Move (.taken i x) (s.setWorker i { w with pc := .claim (x + 1) })
  | look {x y : Nat} {region : Region} (hpc : w.pc = .scan x y)
      (hregion : job.regions[x]? = some region) (hy : y ≤ job.lastOffset region)
      (hgo : ¬ (y % 0x1000 = 0 ∧ w.signaled)) :
      Move (.look i x y)
        ({ s with searchedSize :=
            if y % 0x1000 = 0 then add64 s.searchedSize 0x1000 else s.searchedSize }.setWorker i
          { w with
            pc := .scan x (add64 y 1)
            results := if job.matchesAt region y then w.results ++ [found region y]
              else w.results })
  | stop {x y : Nat} {region : Region} (hpc : w.pc = .scan x y)
      (hregion : job.regions[x]? = some region) (hy : y ≤ job.lastOffset region)
      (hpage : y % 0x1000 = 0) (hsignaled : w.signaled = true) :
      Move (.stop i x y) (s.setWorker i { w with pc := .claim (x + 1) })
  | leave {x y : Nat} {region : Region} (hpc : w.pc = .scan x y)
      (hregion : job.regions[x]? = some region) (hy : job.lastOffset region < y) :
      Move (.leave i x) (s.setWorker i { w with pc := .claim (x + 1) })
  | finish {x : Nat} (hpc : w.pc = .claim x)
      (hend : s.claimed[x]? = none ∨ s.claimed[x]? = some false ∧ job.regions[x]? = none) :
      Move (.finish i) (s.setWorker i { w with pc := .done })

variable {job s i}

theorem move_of_workerStep {e : Event} {s' : State} (h : workerStep job s i = some (e, s')) :
    ∃ w, s.workers[i]? = some w ∧ Move job s i w e s' := by
  obtain ⟨w, hw, h⟩ := Option.bind_eq_some_iff.mp h
  refine ⟨w, hw, ?_⟩
  unfold advance at h
  cases hpc : w.pc with
  | start => simp only [hpc] at h; cases h; exact .start hpc
  | claim x =>
    simp only [hpc] at h
    cases hflag : s.claimed[x]? with
    | none => simp only [hflag] at h; cases h; exact .finish hpc (.inl hflag)
    | some flag =>
      cases flag with
      | true => simp only [hflag] at h; cases h; exact .taken hpc hflag
      | false =>
        cases hregion : job.regions[x]? with
        | none =>
          simp only [hflag, hregion] at h
          cases h
          exact .finish hpc (.inr ⟨hflag, hregion⟩)
        | some region => simp only [hflag, hregion] at h; cases h; exact .claim hpc hflag hregion
  | scan x y =>
    simp only [hpc] at h
    cases hregion : job.regions[x]? with
    | none => simp only [hregion] at h; cases h
    | some region =>
      simp only [hregion] at h
      split at h
      · next hy =>
        split at h
        · next hstop => cases h; exact .stop hpc hregion hy hstop.1 hstop.2
        · next hgo => cases h; exact .look hpc hregion hy hgo
      · next hy => cases h; exact .leave hpc hregion (by omega)
  | done => simp only [hpc] at h; cases h

end Moves

end Find
end Memwatch
