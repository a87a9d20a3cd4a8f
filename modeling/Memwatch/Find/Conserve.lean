import Memwatch.Find.Model

/-!
# Every cell is looked at once

Through any run, the cells that were looked at, those that workers have ahead of
them in regions they claimed, those of regions nobody has claimed and those that
were dropped on a signal are together the cells of all regions.
-/

namespace Memwatch

namespace Find

theorem sum_set_add {M : Type*} [AddCommMonoid M] {l : List M} {i : Nat} {a : M}
    (h : l[i]? = some a) (b : M) : (l.set i b).sum + a = l.sum + b := by
  induction l generalizing i with
  | nil => cases h
  | cons c l ih =>
    cases i with
    | zero =>
      cases h
      rw [List.set_cons_zero, List.sum_cons, List.sum_cons, add_comm (b + l.sum), add_comm b,
        ← add_assoc]
    | succ i =>
      rw [List.set_cons_succ, List.sum_cons, List.sum_cons, add_assoc, ih h, add_assoc]

theorem sum_map_set {α M : Type*} [AddCommMonoid M] {l : List α} {i : Nat} {a : α}
    (h : l[i]? = some a) (f : α → M) (b : α) :
    ((l.set i b).map f).sum + f a = (l.map f).sum + f b := by
  rw [List.map_set]
  apply sum_set_add
  rw [List.getElem?_map, h]
  rfl

variable {job : Job} {numThreads i : Nat} {es : List Event} {s s' : State} {w : Worker}

/-! ## Cells -/

/-- A cell is an offset of a region. -/
abbrev Cells := Multiset (Nat × Nat)

/-- The cells of region `x` from offset `y` on. -/
def restCells (job : Job) (x y : Nat) : Cells :=
  match job.regions[x]? with
  | none => 0
  | some region => ((List.range' y (job.lastOffset region + 1 - y)).map (Prod.mk x) : List _)

def regionCells (job : Job) (x : Nat) : Cells :=
  match job.regions[x]? with
  | none => 0
  | some region => if region.data.isEmpty then 0 else restCells job x 0

def allCells (job : Job) : Cells := ((List.range job.regions.length).map (regionCells job)).sum

/-- The cells a worker has ahead of it in its region. -/
def ahead (job : Job) (w : Worker) : Cells :=
  match w.pc with
  | .scan x y => restCells job x y
  | _ => 0

def unclaimed (job : Job) (claimed : List Bool) : Cells :=
  (claimed.mapIdx fun x flag => if flag then 0 else regionCells job x).sum

def Event.looked : Event → Cells
  | .look _ x y => {(x, y)}
  | _ => 0

/-- The cells a worker leaves behind on a signal. -/
def Event.dropped (job : Job) : Event → Cells
  | .stop _ x y => restCells job x y
  | _ => 0

def looked (es : List Event) : Cells := (es.map Event.looked).sum

def dropped (job : Job) (es : List Event) : Cells := (es.map (Event.dropped job)).sum

@[simp] theorem looked_concat (es : List Event) (e : Event) :
    looked (es ++ [e]) = looked es + e.looked := by
  simp [looked]

@[simp] theorem dropped_concat (es : List Event) (e : Event) :
    dropped job (es ++ [e]) = dropped job es + e.dropped job := by
  simp [dropped]

section Region

variable {x y : Nat} {region : Region} (hregion : job.regions[x]? = some region)

include hregion

theorem restCells_eq (y : Nat) : restCells job x y =
    ((List.range' y (job.lastOffset region + 1 - y)).map (Prod.mk x) : List _) := by
  unfold restCells; rw [hregion]

theorem restCells_eq_cons (hy : y ≤ job.lastOffset region) :
    restCells job x y = {(x, y)} + restCells job x (y + 1) := by
  rw [restCells_eq hregion, restCells_eq hregion,
    show job.lastOffset region + 1 - y = job.lastOffset region + 1 - (y + 1) + 1 by omega,
    List.range'_succ, List.map_cons, ← Multiset.cons_coe, ← Multiset.singleton_add]

theorem restCells_eq_zero (hy : job.lastOffset region < y) : restCells job x y = 0 := by
  rw [restCells_eq hregion, show job.lastOffset region + 1 - y = 0 by omega]
  rfl

theorem regionCells_eq :
    regionCells job x = if region.data.isEmpty then 0 else restCells job x 0 := by
  unfold regionCells; rw [hregion]

end Region

theorem unclaimed_set {claimed : List Bool} {x : Nat} (h : claimed[x]? = some false) :
    unclaimed job (claimed.set x true) + regionCells job x = unclaimed job claimed := by
  unfold unclaimed
  rw [List.mapIdx_set]
  refine (sum_set_add ?_ 0).trans (add_zero _)
  rw [List.getElem?_mapIdx, h]
  rfl

/-! ## Conservation -/

/-- No region makes the loop over its offsets endless. -/
def NoEndless (job : Job) : Prop :=
  ∀ region ∈ job.regions, region.HasData → job.lastOffset region + 1 < 2 ^ 64

/-- Where every cell is. -/
def Conserved (job : Job) (es : List Event) (s : State) : Prop :=
  looked es + (s.workers.map (ahead job)).sum + unclaimed job s.claimed + dropped job es =
    allCells job

theorem conserved_init : Conserved job [] (init job numThreads) := by
  have hworkers : ((init job numThreads).workers.map (ahead job)).sum = 0 := by
    simp [init, ahead]
  have hclaimed : unclaimed job (init job numThreads).claimed = allCells job := by
    unfold unclaimed allCells init
    congr 1
    refine List.ext_getElem (by simp) fun x _ _ => ?_
    simp
  unfold Conserved
  rw [hworkers, hclaimed]
  simp [looked, dropped]

/-- When one worker changes, its cells and those of the flags must add up. -/
theorem Conserved.set {e : Event} {w' : Worker} (h : Conserved job es s)
    (hw : s.workers[i]? = some w) (hs' : s'.workers = s.workers.set i w')
    (hcells : e.looked + ahead job w' + unclaimed job s'.claimed + e.dropped job =
      ahead job w + unclaimed job s.claimed) : Conserved job (es ++ [e]) s' := by
  have hset := sum_map_set hw (ahead job) w'
  unfold Conserved at h ⊢
  rw [looked_concat, dropped_concat, hs', ← h]
  apply add_right_cancel (b := ahead job w)
  calc looked es + e.looked + ((s.workers.set i w').map (ahead job)).sum +
        unclaimed job s'.claimed + (dropped job es + e.dropped job) + ahead job w
      = looked es + e.looked + (((s.workers.set i w').map (ahead job)).sum + ahead job w) +
          unclaimed job s'.claimed + dropped job es + e.dropped job := by abel
    _ = looked es + (s.workers.map (ahead job)).sum + dropped job es +
          (e.looked + ahead job w' + unclaimed job s'.claimed + e.dropped job) := by
        rw [hset]; abel
    _ = looked es + (s.workers.map (ahead job)).sum + unclaimed job s.claimed + dropped job es +
          ahead job w := by
        rw [hcells]; abel

/-- Workers scan regions that were read. -/
def ScansRead (job : Job) (s : State) : Prop :=
  ∀ w ∈ s.workers, ∀ x y region, w.pc = .scan x y → job.regions[x]? = some region → region.HasData

theorem Conserved.move (h : Conserved job es s) (hfin : NoEndless job) (hread : ScansRead job s)
    (hw : s.workers[i]? = some w) {e : Event} (hmove : Move job s i w e s') :
    Conserved job (es ++ [e]) s' := by
  cases hmove with
  | start hpc =>
    exact h.set hw rfl (by simp [Event.looked, Event.dropped, ahead, hpc, State.setWorker])
  | @claim x region hpc hfree hregion =>
    refine h.set hw rfl ?_
    have hahead : ahead job { w with
        pc := if region.data.isEmpty then .claim (x + 1) else .scan x 0 } = regionCells job x := by
      rw [regionCells_eq hregion]
      unfold ahead
      split_ifs <;> rfl
    have hself : ahead job w = 0 := by unfold ahead; rw [hpc]
    rw [hahead, hself, ← @unclaimed_set job _ _ hfree]
    simp only [Event.looked, Event.dropped, State.setWorker]
    abel
  | taken hpc htaken =>
    exact h.set hw rfl (by simp [Event.looked, Event.dropped, ahead, hpc, State.setWorker])
  | @look x y region hpc hregion hy hgo =>
    refine h.set hw rfl ?_
    have hlast := hfin region (List.mem_of_getElem? hregion)
      (hread w (List.mem_of_getElem? hw) x y region hpc hregion)
    have hself : ahead job w = {(x, y)} + restCells job x (y + 1) := by
      unfold ahead; rw [hpc]; exact restCells_eq_cons hregion hy
    rw [hself]
    simp only [Event.looked, Event.dropped, ahead, State.setWorker,
      show add64 y 1 = y + 1 from add64_eq (by omega), add_zero]
  | @stop x y region hpc hregion hy hpage hsignaled =>
    refine h.set hw rfl ?_
    simp only [Event.looked, Event.dropped, ahead, hpc, State.setWorker]
    abel
  | @leave x y region hpc hregion hy =>
    refine h.set hw rfl ?_
    simp [Event.looked, Event.dropped, ahead, hpc, State.setWorker, restCells_eq_zero hregion hy]
  | finish hpc hend =>
    exact h.set hw rfl (by simp [Event.looked, Event.dropped, ahead, hpc, State.setWorker])

theorem Conserved.signal (h : Conserved job es s) :
    Conserved job (es ++ [.signal]) s.signalAll := by
  have hahead : s.signalAll.workers.map (ahead job) = s.workers.map (ahead job) := by
    unfold State.signalAll
    rw [List.map_map]
    refine List.map_congr_left fun w _ => ?_
    unfold Function.comp ahead Worker.signal
    cases hpc : w.pc <;> simp [hpc]
  unfold Conserved at h ⊢
  rw [looked_concat, dropped_concat, hahead, ← h]
  simp only [Event.looked, Event.dropped, add_zero]
  rfl

end Find
end Memwatch
