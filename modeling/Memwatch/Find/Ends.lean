import Memwatch.Find.Parallel

/-!
# The workers finish

Every step of a worker but a look takes it nearer to the end of the list of regions, and
every cell is looked at once, so that no run is longer than a bound, signals apart. A
worker that has not returned can take a step.
-/

namespace Memwatch

namespace Find

variable {job : Job} {numThreads i bound : Nat} {es : List Event} {s s' : State} {w w' : Worker}
  {e : Event}

/-- The steps of workers in a run. -/
def steps (es : List Event) : Nat := es.countP (· ≠ .signal)

/-- No run takes more steps than `bound`, and workers that have not all returned can take
one. -/
structure Ends (job : Job) (numThreads bound : Nat) : Prop where
  steps_le {es : List Event} {s : State} : Run job numThreads es s → steps es ≤ bound
  progress {es : List Event} {s : State} : Run job numThreads es s → ¬ s.Finished →
    ∃ i out, workerStep job s i = some out

/-! ## The bound -/

/-- The flags a worker has ahead of it, and the steps with them. -/
def Pc.ahead (job : Job) : Pc → Nat
  | .start => 2 * job.regions.length + 2
  | .claim x => 2 * (job.regions.length - x) + 1
  | .scan x _ => 2 * (job.regions.length - x)
  | .done => 0

def Event.moves : Event → Nat
  | .look _ _ _ | .signal => 0
  | _ => 1

theorem steps_concat (es : List Event) (e : Event) :
    steps (es ++ [e]) = steps es + if e = .signal then 0 else 1 := by
  unfold steps
  rw [List.countP_append]
  by_cases he : e = .signal <;> simp [he]

theorem steps_eq (es : List Event) :
    steps es = (looked es).card + (es.map Event.moves).sum := by
  induction es using List.reverseRecOn with
  | nil => rfl
  | append_singleton es e ih =>
    rw [steps_concat, looked_concat, Multiset.card_add, List.map_append, List.sum_append, ih]
    cases e <;> simp [Event.looked, Event.moves] <;> omega

/-- A move takes its worker nearer to the end. -/
theorem Move.ahead_le (hmove : Move job s i w e s')
    (hflags : s.claimed.length = job.regions.length) :
    ∃ w', s'.workers = s.workers.set i w' ∧
      e.moves + w'.pc.ahead job ≤ w.pc.ahead job := by
  have hlt : ∀ {x region}, job.regions[x]? = some region → x < job.regions.length :=
    fun h => (List.getElem?_eq_some_iff.mp h).1
  cases hmove with
  | start hpc | look hpc | finish hpc =>
    refine ⟨_, rfl, ?_⟩
    rw [hpc]
    simp only [Event.moves, Pc.ahead]
    omega
  | claim hpc hfree hregion =>
    have := hlt hregion
    refine ⟨_, rfl, ?_⟩
    rw [hpc]
    dsimp only
    split <;> simp only [Event.moves, Pc.ahead] <;> omega
  | taken hpc htaken =>
    have := (List.getElem?_eq_some_iff.mp htaken).1
    refine ⟨_, rfl, ?_⟩
    rw [hpc]
    simp only [Event.moves, Pc.ahead]
    omega
  | stop hpc hregion | leave hpc hregion =>
    have := hlt hregion
    refine ⟨_, rfl, ?_⟩
    rw [hpc]
    simp only [Event.moves, Pc.ahead]
    omega

/-- Through any run, the moves made and the flags ahead of the workers do not grow. -/
theorem Run.moves_le (h : Run job numThreads es s) :
    (es.map Event.moves).sum + (s.workers.map fun w => w.pc.ahead job).sum ≤
      numThreads * (2 * job.regions.length + 2) := by
  induction h with
  | init => simp [Find.init, Pc.ahead]
  | @worker es s s' i e hrun hstep ih =>
    obtain ⟨w, hw, hmove⟩ := move_of_workerStep hstep
    obtain ⟨w', hs', hle⟩ := hmove.ahead_le hrun.claims.flags
    have hset := sum_map_set hw (fun w => w.pc.ahead job) w'
    rw [hs', List.map_append, List.sum_append, List.map_singleton, List.sum_singleton]
    omega
  | @signal es s hrun ih =>
    have hsame : s.signalAll.workers.map (fun w => w.pc.ahead job) =
        s.workers.map fun w => w.pc.ahead job := by
      unfold State.signalAll
      rw [List.map_map]
      exact List.map_congr_left fun w _ => congrArg (Pc.ahead job) (pc_signal w)
    rw [hsame, List.map_append, List.sum_append]
    exact ih

/-- No cell is looked at twice. -/
theorem Run.looked_le (h : Run job numThreads es s) (hfin : NoEndless job) :
    looked es ≤ allCells job := by
  have hcells := h.conserved hfin
  unfold Conserved at hcells
  rw [← hcells, add_assoc, add_assoc]
  exact Multiset.le_add_right _ _

/-! ## Progress -/

theorem exists_advance (hscan : ∀ x y, w.pc = .scan x y → x < job.regions.length)
    (hdone : w.pc ≠ .done) : ∃ out, advance job s i w = some out := by
  unfold advance
  cases hpc : w.pc with
  | start => exact ⟨_, rfl⟩
  | claim x => dsimp only; split <;> exact ⟨_, rfl⟩
  | scan x y =>
    dsimp only
    rw [List.getElem?_eq_getElem (hscan x y hpc)]
    dsimp only
    split_ifs <;> exact ⟨_, rfl⟩
  | done => exact absurd hpc hdone

theorem Run.progress (h : Run job numThreads es s) (hopen : ¬ s.Finished) :
    ∃ i out, workerStep job s i = some out := by
  unfold State.Finished at hopen
  push Not at hopen
  obtain ⟨w, hmem, hdone⟩ := hopen
  obtain ⟨i, hw⟩ := List.getElem?_of_mem hmem
  have hscan : ∀ x y, w.pc = .scan x y → x < job.regions.length := by
    intro x y hpc
    have hclaimed := (h.claims.claimed_iff x).mpr
      (mem_claims.mpr ⟨i, (h.claims.owns i w x y hw hpc).1⟩)
    rw [← h.claims.flags]
    exact (List.getElem?_eq_some_iff.mp hclaimed).1
  obtain ⟨out, hout⟩ := exists_advance (s := s) (i := i) hscan hdone
  exact ⟨i, out, by rw [workerStep, hw]; exact hout⟩

theorem ends_of_noEndless (job : Job) (numThreads : Nat) (hfin : NoEndless job) :
    Ends job numThreads
      ((allCells job).card + numThreads * (2 * job.regions.length + 2)) where
  steps_le h := by
    have hlooked := Multiset.card_le_card (h.looked_le hfin)
    have hmoves := h.moves_le
    rw [steps_eq]
    omega
  progress h := h.progress

theorem Move.ne_signal (hmove : Move job s i w e s') : e ≠ .signal := by
  cases hmove <;> exact Event.noConfusion

theorem steps_of_no_signal (hsig : Event.signal ∉ es) : steps es = es.length := by
  refine List.countP_eq_length.mpr fun e he => decide_eq_true fun heq => ?_
  exact hsig (heq ▸ he)

/-- Steps of workers alone finish a run that ends. -/
theorem Ends.exists_finished (hends : Ends job numThreads bound) :
    ∃ es s, Run job numThreads es s ∧ Event.signal ∉ es ∧ s.Finished := by
  have hgo : ∀ k es s, Run job numThreads es s → Event.signal ∉ es → bound < es.length + k →
      ∃ es s, Run job numThreads es s ∧ Event.signal ∉ es ∧ s.Finished := by
    intro k
    induction k with
    | zero =>
      intro es s hrun hsig hlt
      have hle := hends.steps_le hrun
      rw [steps_of_no_signal hsig] at hle
      omega
    | succ k ih =>
      intro es s hrun hsig hlt
      by_cases hdone : s.Finished
      · exact ⟨es, s, hrun, hsig, hdone⟩
      · obtain ⟨i, ⟨e, s'⟩, hstep⟩ := hends.progress hrun hdone
        obtain ⟨w, -, hmove⟩ := move_of_workerStep hstep
        apply ih _ _ (hrun.worker hstep)
        · intro hmem
          rcases List.mem_append.mp hmem with hmem | hmem
          · exact hsig hmem
          · exact hmove.ne_signal (List.mem_singleton.mp hmem).symm
        · rw [List.length_append, List.length_singleton]
          omega
  apply hgo (bound + 1) [] _ .init List.not_mem_nil
  omega

end Find
end Memwatch
