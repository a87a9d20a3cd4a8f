import Memwatch.Find.Claims

/-!
# The results do not depend on the schedule

Without a signal, workers that have all returned have looked at every cell of
every region once, so that their results, joined and sorted, are those of one
worker that scans the regions one after another.
-/

namespace Memwatch

namespace Find

variable {job : Job} {numThreads i : Nat} {es : List Event} {s s' : State} {w w' : Worker}
  {e : Event}

theorem Run.claims (h : Run job numThreads es s) : Claims job es s := by
  induction h with
  | init => exact Claims.init
  | worker _ hstep ih =>
    obtain ⟨w, hw, hmove⟩ := move_of_workerStep hstep
    exact ih.move hw hmove
  | signal _ ih => exact ih.signal

theorem Run.conserved (h : Run job numThreads es s) (hfin : NoEndless job) :
    Conserved job es s := by
  induction h with
  | init => exact conserved_init
  | worker hrun hstep ih =>
    obtain ⟨w, hw, hmove⟩ := move_of_workerStep hstep
    exact ih.move hfin hrun.claims.read hw hmove
  | signal _ ih => exact ih.signal

theorem Run.length_workers (h : Run job numThreads es s) : s.workers.length = numThreads := by
  induction h with
  | init => exact List.length_replicate
  | worker _ hstep ih =>
    obtain ⟨w, hw, hmove⟩ := move_of_workerStep hstep
    cases hmove <;> exact List.length_set.trans ih
  | signal _ ih => exact (List.length_map _).trans ih

/-! ## Finished runs -/

/-- Workers that have returned have no cells ahead, and have left no flag clear. -/
theorem Run.finished (h : Run job numThreads es s) (hn : 0 < numThreads) (hdone : s.Finished) :
    (s.workers.map (ahead job)).sum = 0 ∧ unclaimed job s.claimed = 0 ∧
      ∀ x < job.regions.length, s.claimed[x]? = some true := by
  have hflags : ∀ x < job.regions.length, s.claimed[x]? = some true := by
    intro x hx
    have hw : 0 < s.workers.length := by rw [h.length_workers]; exact hn
    refine h.claims.passed s.workers[0] (List.getElem_mem hw) x hx ?_
    rw [hdone _ (List.getElem_mem hw)]
    exact trivial
  refine ⟨?_, ?_, hflags⟩
  · refine List.sum_eq_zero fun c hc => ?_
    obtain ⟨w, hw, rfl⟩ := List.mem_map.mp hc
    unfold ahead
    rw [hdone w hw]
  · refine List.sum_eq_zero fun c hc => ?_
    obtain ⟨x, hx, rfl⟩ := List.mem_mapIdx.mp hc
    have := hflags x (h.claims.flags ▸ hx)
    rw [List.getElem?_eq_getElem hx] at this
    rw [Option.some.inj this]
    rfl

theorem Run.looked_add_dropped (h : Run job numThreads es s) (hfin : NoEndless job)
    (hn : 0 < numThreads) (hdone : s.Finished) : looked es + dropped job es = allCells job := by
  obtain ⟨hahead, hunclaimed, -⟩ := h.finished hn hdone
  have hcells := h.conserved hfin
  unfold Conserved at hcells
  rwa [hahead, hunclaimed, add_zero, add_zero] at hcells

/-! ## Without a signal -/

theorem Run.not_signaled (h : Run job numThreads es s) (hsig : Event.signal ∉ es) :
    (∀ w ∈ s.workers, w.signaled = false) ∧ ∀ i x y, Event.stop i x y ∉ es := by
  induction h with
  | init => exact ⟨fun w hw => by rw [List.eq_of_mem_replicate hw], nofun⟩
  | @worker es s s' i e hrun hstep ih =>
    obtain ⟨hworkers, hstops⟩ := ih fun hmem => hsig (List.mem_append_left _ hmem)
    obtain ⟨w, hw, hmove⟩ := move_of_workerStep hstep
    have hwsig := hworkers w (List.mem_of_getElem? hw)
    have hset : ∀ {w' : Worker}, w'.signaled = false →
        ∀ v ∈ s.workers.set i w', v.signaled = false := by
      intro w' hw' v hv
      rcases List.mem_or_eq_of_mem_set hv with hv | rfl
      · exact hworkers v hv
      · exact hw'
    have hevent : (∀ j x y, e ≠ .stop j x y) → ∀ j x y, Event.stop j x y ∉ es ++ [e] := by
      intro hne j x y hmem
      rcases List.mem_append.mp hmem with hmem | hmem
      · exact hstops j x y hmem
      · exact hne j x y (List.mem_singleton.mp hmem).symm
    cases hmove with
    | stop hpc hregion hy hpage hsignaled => rw [hwsig] at hsignaled; cases hsignaled
    | start hpc => exact ⟨hset rfl, hevent nofun⟩
    | claim | taken | look | leave | finish => exact ⟨hset hwsig, hevent nofun⟩
  | signal => exact absurd (List.mem_append_right _ (List.mem_singleton_self _)) hsig

theorem Run.endless (h : Run job numThreads es s) (hsig : Event.signal ∉ es) {x : Nat}
    {region : Region} (hregion : job.regions[x]? = some region) (hd : region.HasData)
    (hend : 2 ^ 64 ≤ job.lastOffset region + 1) (hclaim : Event.claim i x ∈ es) :
    ∃ w y, s.workers[i]? = some w ∧ w.pc = .scan x y := by
  induction h with
  | init => cases hclaim
  | @worker es s s' j e hrun hstep ih =>
    have hsig' : Event.signal ∉ es := fun hmem => hsig (List.mem_append_left _ hmem)
    obtain ⟨v, hv, hmove⟩ := move_of_workerStep hstep
    have hvlt : j < s.workers.length := (List.getElem?_eq_some_iff.mp hv).1
    rcases List.mem_append.mp hclaim with hold | hnew
    · obtain ⟨w, y, hw, hpc⟩ := ih hsig' hold
      have hlt := (hrun.claims.owns i w x y hw hpc).2
      by_cases hij : i = j
      · -- the worker itself can only look at one more cell
        subst hij
        cases hw.symm.trans hv
        cases hmove with
        | look hpc' =>
          cases hpc.symm.trans hpc'
          exact ⟨_, _, List.getElem?_set_self hvlt, rfl⟩
        | stop hpc' _ _ _ hsignaled =>
          rw [(hrun.not_signaled hsig').1 _ (List.mem_of_getElem? hv)] at hsignaled
          cases hsignaled
        | leave hpc' hregion' hy =>
          cases hpc.symm.trans hpc'
          cases hregion.symm.trans hregion'
          omega
        | start hpc' => cases hpc.symm.trans hpc'
        | claim hpc' => cases hpc.symm.trans hpc'
        | taken hpc' => cases hpc.symm.trans hpc'
        | finish hpc' => cases hpc.symm.trans hpc'
      · refine ⟨w, y, ?_, hpc⟩
        cases hmove <;> exact (List.getElem?_set_ne (Ne.symm hij)).trans hw
    · cases List.mem_singleton.mp hnew
      cases hmove with
      | claim hpc hfree hregion' =>
        cases hregion.symm.trans hregion'
        refine ⟨_, 0, List.getElem?_set_self hvlt, ?_⟩
        exact if_neg (Region.hasData_iff.mp hd)
  | signal => exact absurd (List.mem_append_right _ (List.mem_singleton_self _)) hsig

/-- Where all workers have returned, no region was endless. -/
theorem Run.noEndless (h : Run job numThreads es s) (hsig : Event.signal ∉ es)
    (hn : 0 < numThreads) (hdone : s.Finished) : NoEndless job := by
  intro region hmem hd
  by_contra hend
  obtain ⟨x, hx⟩ := List.getElem?_of_mem hmem
  have hlt := (List.getElem?_eq_some_iff.mp hx).1
  obtain ⟨i, hclaim⟩ := mem_claims.mp
    ((h.claims.claimed_iff x).mp ((h.finished hn hdone).2.2 x hlt))
  obtain ⟨w, y, hw, hpc⟩ := h.endless hsig hx hd (by omega) hclaim
  rw [hdone w (List.mem_of_getElem? hw)] at hpc
  cases hpc

theorem Run.not_dropped (h : Run job numThreads es s) (hsig : Event.signal ∉ es) :
    dropped job es = 0 := by
  refine List.sum_eq_zero fun c hc => ?_
  obtain ⟨e, he, rfl⟩ := List.mem_map.mp hc
  cases e with
  | stop i x y => exact absurd he ((h.not_signaled hsig).2 i x y)
  | _ => rfl

/-! ## Results -/

def foundAt (job : Job) (c : Nat × Nat) : Multiset (Nat × Nat) :=
  match job.regions[c.1]? with
  | none => 0
  | some region => if job.matchesAt region c.2 then {found region c.2} else 0

theorem coe_flatMap {α β : Type*} (l : List α) (f : α → List β) :
    ((l.flatMap f : List β) : Multiset β) = (l.map fun a => (f a : Multiset β)).sum := by
  induction l with
  | nil => rfl
  | cons a l ih => rw [List.flatMap_cons, ← Multiset.coe_add, ih, List.map_cons, List.sum_cons]

theorem sum_bind {α β : Type*} (l : List (Multiset α)) (f : α → Multiset β) :
    l.sum.bind f = (l.map fun m => m.bind f).sum := by
  induction l with
  | nil => rfl
  | cons m l ih => rw [List.sum_cons, Multiset.add_bind, ih, List.map_cons, List.sum_cons]

/-- The workers hold what is found at the cells that were looked at. -/
theorem Run.results (h : Run job numThreads es s) :
    ((s.workers.flatMap Worker.results : List _) : Multiset _) =
      (looked es).bind (foundAt job) := by
  rw [coe_flatMap]
  induction h with
  | init => simp [Find.init, looked]
  | @worker es s s' i e hrun hstep ih =>
    obtain ⟨w, hw, hmove⟩ := move_of_workerStep hstep
    rw [looked_concat, Multiset.add_bind, ← ih]
    have hset := sum_map_set hw fun w => (w.results : Multiset (Nat × Nat))
    have hkeep : ∀ (w' : Worker) (e : Event), w'.results = w.results → e.looked = 0 →
        ((s.workers.set i w').map fun w => (w.results : Multiset (Nat × Nat))).sum =
          (s.workers.map fun w => (w.results : Multiset (Nat × Nat))).sum +
            e.looked.bind (foundAt job) := by
      intro w' e hres hlooked
      have hsame := hset w'
      rw [hres] at hsame
      rw [hlooked, Multiset.zero_bind, add_zero]
      exact add_right_cancel hsame
    cases hmove with
    | @look x y region hpc hregion hy hgo =>
      have hfound : (Event.looked (.look i x y)).bind (foundAt job) =
          if job.matchesAt region y then {found region y} else 0 := by
        show Multiset.bind {(x, y)} _ = _
        rw [Multiset.singleton_bind]
        unfold foundAt
        rw [hregion]
      rw [hfound]
      refine add_right_cancel ((hset _).trans ?_)
      rw [add_assoc, add_comm _ (w.results : Multiset (Nat × Nat))]
      dsimp only
      split_ifs
      · rw [← Multiset.coe_add, Multiset.coe_singleton]
      · rw [add_zero]
    | start | claim | taken | stop | leave | finish => exact hkeep _ _ rfl rfl
  | @signal es s _ ih =>
    have hsame : s.signalAll.workers.map (fun w => (w.results : Multiset (Nat × Nat))) =
        s.workers.map fun w => (w.results : Multiset (Nat × Nat)) := by
      unfold State.signalAll
      rw [List.map_map]
      refine List.map_congr_left fun w _ => ?_
      unfold Function.comp Worker.signal
      cases w.pc <;> rfl
    rw [looked_concat, Multiset.add_bind, ← ih, hsame]
    exact (add_zero _).symm

theorem regionCells_bind {x : Nat} {region : Region} (hregion : job.regions[x]? = some region) :
    (regionCells job x).bind (foundAt job) = (job.regionMatches region : List _) := by
  have hoffsets : ∀ ys : List Nat, ((ys.map (Prod.mk x) : List _) : Cells).bind (foundAt job) =
      ((ys.filter (job.matchesAt region)).map (found region) : List _) := by
    intro ys
    induction ys with
    | nil => rfl
    | cons y ys ih =>
      have hy : foundAt job (x, y) = if job.matchesAt region y then {found region y} else 0 := by
        unfold foundAt; rw [hregion]
      rw [List.map_cons, ← Multiset.cons_coe, Multiset.cons_bind, ih, hy, List.filter_cons]
      split_ifs
      · rw [Multiset.singleton_add, Multiset.cons_coe, List.map_cons]
      · rw [zero_add]
  rw [regionCells_eq hregion]
  unfold Job.regionMatches
  split_ifs with hd
  · rfl
  · rw [restCells_eq hregion, Nat.sub_zero, ← List.range_eq_range']
    exact hoffsets _

theorem allCells_bind (job : Job) :
    (allCells job).bind (foundAt job) = (job.regions.flatMap job.regionMatches : List _) := by
  rw [allCells, sum_bind, coe_flatMap, List.map_map]
  congr 1
  refine List.ext_getElem (by simp) fun x hx hx' => ?_
  have hlt : x < job.regions.length := by simpa using hx
  simp only [List.getElem_map, List.getElem_range, Function.comp_apply]
  exact regionCells_bind (List.getElem?_eq_getElem hlt)

theorem sortResults_perm (l : List (Nat × Nat)) : (sortResults l).Perm l :=
  List.mergeSort_perm l _

theorem sortResults_pairwise (l : List (Nat × Nat)) :
    (sortResults l).Pairwise fun a b => decide (toLex a ≤ toLex b) = true := by
  refine List.pairwise_mergeSort (fun a b c hab hbc => ?_) (fun a b => ?_) l
  · exact decide_eq_true ((of_decide_eq_true hab).trans (of_decide_eq_true hbc))
  · simpa using le_total (toLex a) (toLex b)

/-- `std::sort` gives the same list for the same results in any order. -/
theorem sortResults_congr {l l' : List (Nat × Nat)} (h : l.Perm l') :
    sortResults l = sortResults l' := by
  refine List.Perm.eq_of_pairwise (fun a b _ _ hab hba => ?_) (sortResults_pairwise l)
    (sortResults_pairwise l') ?_
  · exact toLex.injective (le_antisymm (of_decide_eq_true hab) (of_decide_eq_true hba))
  · exact (sortResults_perm l).trans (h.trans (sortResults_perm l').symm)

theorem sortResults_addresses (l : List (Nat × Nat)) :
    ((sortResults l).map Prod.fst).Pairwise (· ≤ ·) := by
  refine List.pairwise_map.mpr ((sortResults_pairwise l).imp fun {r t} hle => ?_)
  have hle : toLex r ≤ toLex t := of_decide_eq_true hle
  exact Prod.Lex.monotone_fst _ _ hle

section Finished

variable (h : Run job numThreads es s) (hn : 0 < numThreads) (hdone : s.Finished)

include h hn hdone

theorem Run.existsUnique_claim {x : Nat} (hx : x < job.regions.length) :
    ∃! i, Event.claim i x ∈ es := by
  obtain ⟨-, -, hflags⟩ := h.finished hn hdone
  obtain ⟨i, hi⟩ := mem_claims.mp ((h.claims.claimed_iff x).mp (hflags x hx))
  exact ⟨i, hi, fun j hj => h.claims.unique hj hi⟩

theorem Run.perm_range : (Find.claims es).Perm (List.range job.regions.length) := by
  have hclaims := h.claims
  obtain ⟨-, -, hflags⟩ := h.finished hn hdone
  refine (List.perm_ext_iff_of_nodup hclaims.once List.nodup_range).mpr fun x => ?_
  rw [← hclaims.claimed_iff, List.mem_range]
  refine ⟨fun hx => ?_, hflags x⟩
  rw [← hclaims.flags]
  exact (List.getElem?_eq_some_iff.mp hx).1

variable (hsig : Event.signal ∉ es)

include hsig

theorem Run.results_perm :
    (s.workers.flatMap Worker.results).Perm (job.regions.flatMap job.regionMatches) := by
  have hfin := h.noEndless hsig hn hdone
  have hlooked := h.looked_add_dropped hfin hn hdone
  rw [h.not_dropped hsig, add_zero] at hlooked
  have hresults := h.results
  rw [hlooked, allCells_bind] at hresults
  exact Multiset.coe_eq_coe.mp hresults

theorem Run.findResults_eq {regions : List Region} (hregions : job.regions.Perm regions) :
    s.findResults = job.sequentialResults regions := by
  have hperm := (h.results_perm hn hdone hsig).trans (hregions.flatMap_right job.regionMatches)
  unfold State.findResults Job.sequentialResults
  rw [sortResults_congr hperm]

end Finished

/-- However the workers take turns, each region is scanned by one of them, and the results
are the matches of all regions sorted by address, with none lost or reported twice. They are
those of a sequential scan, in whatever order the regions come. -/
theorem parallel_find_sequential (h : Run job numThreads es s) (hn : 0 < numThreads)
    (hsig : Event.signal ∉ es) (hdone : s.Finished) {regions : List Region}
    (hregions : job.regions.Perm regions) :
    (∀ x < job.regions.length, ∃! i, Event.claim i x ∈ es) ∧
      (claims es).Perm (List.range job.regions.length) ∧
      (∀ i x y, Event.look i x y ∈ es → Event.claim i x ∈ es) ∧
      s.findResults.Pairwise (· ≤ ·) ∧
      s.findResults.Perm ((regions.flatMap job.regionMatches).map Prod.fst) ∧
      s.findResults = job.sequentialResults regions := by
  have heq := h.findResults_eq hn hdone hsig hregions
  refine ⟨fun x hx => h.existsUnique_claim hn hdone hx, h.perm_range hn hdone, h.claims.looks,
    sortResults_addresses _, ?_, heq⟩
  rw [heq]
  exact (sortResults_perm _).map Prod.fst

/-- Two regions that hold the pattern, the larger one behind the other. -/
def smallJob : Job where
  regions :=
    [{ twoBytes 5 6 with addr := 0x2000, addr_lt := by decide, fits := by decide }, oneByte 5]
  data := [5]
  mask := [0xFF]
  stray _ _ := 0

/-- Two workers take turns; the second one finds the first region taken. -/
def smallSchedule : List (Option Nat) :=
  [some 0, some 1, some 0, some 1, some 1, some 1, some 0, some 1, some 0, some 0, some 1, some 0,
    some 0]

theorem parallel_find_small :
    (execute smallJob smallSchedule ([], init smallJob 2)).map (fun out => out.2.findResults) =
      some [0x1000, 0x2000] := by
  obtain ⟨⟨es, s⟩, hex, hsig, hdone⟩ : ∃ out : List Event × State,
      execute smallJob smallSchedule ([], init smallJob 2) = some out ∧
        Event.signal ∉ out.1 ∧ out.2.Finished := ⟨_, rfl, by decide, by decide⟩
  have hrun : Run smallJob 2 es s := Run.init.execute hex
  obtain ⟨-, -, -, hsorted, hperm, -⟩ := parallel_find_sequential hrun (by decide) hsig hdone
    (List.Perm.refl smallJob.regions)
  have hfound : (smallJob.regions.flatMap smallJob.regionMatches).map Prod.fst =
      [0x2000, 0x1000] := by decide
  rw [hfound] at hperm
  have hresults : s.findResults = [0x1000, 0x2000] :=
    (hperm.trans (List.Perm.swap 0x1000 0x2000 [])).eq_of_pairwise
      (fun _ _ _ _ => Nat.le_antisymm) hsorted (by decide)
  rw [hex, Option.map_some, hresults]

end Find
end Memwatch
