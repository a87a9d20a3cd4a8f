import Memwatch.Find.Parallel

/-!
# The progress loop

The main thread waits until `searched_size` has reached `total_size`. A worker
adds a page for every offset it looks at that begins one, so that a region comes
to fewer pages than it has where the pattern is longer than a page, and where the
worker leaves it on a signal.
-/

namespace Memwatch

namespace Find

variable {job : Job} {numThreads i : Nat} {es : List Event} {s s' : State} {w : Worker}
  {e : Event}

/-! ## Pages -/

abbrev BeginsPage (c : Nat × Nat) : Prop := c.2 % 0x1000 = 0

def pages (c : Cells) : Nat := c.countP BeginsPage

@[simp] theorem pages_add (c d : Cells) : pages (c + d) = pages c + pages d :=
  Multiset.countP_add _ c d

theorem pages_singleton (x y : Nat) : pages {(x, y)} = if y % 0x1000 = 0 then 1 else 0 := by
  unfold pages
  rw [Multiset.countP_eq_card_filter, Multiset.filter_singleton]
  split <;> rfl

theorem pages_sum (l : List Cells) : pages l.sum = (l.map pages).sum := by
  induction l with
  | nil => rfl
  | cons c l ih => rw [List.sum_cons, pages_add, ih, List.map_cons, List.sum_cons]

theorem pages_range (x n : Nat) :
    pages (((List.range n).map (Prod.mk x) : List _) : Cells) = (n + 0xFFF) / 0x1000 := by
  induction n with
  | zero => rfl
  | succ n ih =>
    rw [List.range_succ, List.map_append, ← Multiset.coe_add, pages_add, ih]
    simp only [List.map_cons, List.map_nil, Multiset.coe_singleton, pages_singleton]
    split <;> omega

/-- The workers have added a page for every cell they looked at that begins one. -/
theorem Run.searchedSize (h : Run job numThreads es s) :
    s.searchedSize = 0x1000 * pages (looked es) % 2 ^ 64 := by
  induction h with
  | init => rfl
  | worker _ hstep ih =>
    obtain ⟨w, hw, hmove⟩ := move_of_workerStep hstep
    rw [looked_concat, pages_add]
    cases hmove with
    | @look x y region hpc hregion hy hgo =>
      show (if y % 0x1000 = 0 then add64 _ 0x1000 else _) = _
      rw [show Event.looked (.look _ x y) = {(x, y)} from rfl, pages_singleton, ih]
      unfold add64
      split <;> omega
    | start | claim | taken | stop | leave | finish => exact ih
  | signal _ ih =>
    rw [looked_concat, pages_add]
    exact ih

/-! ## What is not counted -/

/-- Regions of whole pages that were read in full or not at all, and a pattern. -/
structure Paged (job : Job) : Prop where
  pattern : job.data ≠ []
  paged : ∀ region ∈ job.regions, 0x1000 ∣ region.size
  complete : ∀ region ∈ job.regions, region.HasData → region.data.length = region.size

/-- The pattern fits into every region that was read. -/
def Fits (job : Job) : Prop :=
  ∀ region ∈ job.regions, region.HasData → job.data.length ≤ region.size

/-- A pattern that is looked for is no longer than a page. -/
def ShortPattern (job : Job) : Prop :=
  (∃ region ∈ job.regions, region.HasData) → job.data.length ≤ 0x1000

def NoStop (es : List Event) : Prop := ∀ i x y, Event.stop i x y ∉ es

/-- The bytes at the end of a region that no page is added for. -/
def uncounted (job : Job) (region : Region) : Nat :=
  if region.data.isEmpty then 0 else 0x1000 * ((job.data.length - 1) / 0x1000)

def dataSize (job : Job) : Nat := (job.regions.map fun region => region.data.length).sum

theorem totalSize_eq (job : Job) : job.totalSize = dataSize job % 2 ^ 64 := by
  have hfold : ∀ (regions : List Region) (total : Nat), total < 2 ^ 64 →
      regions.foldl (fun total region =>
          if region.data.isEmpty then total else add64 total region.data.length) total =
        (total + (regions.map fun region => region.data.length).sum) % 2 ^ 64 := by
    intro regions
    induction regions with
    | nil => intro total ht; exact (Nat.mod_eq_of_lt ht).symm
    | cons region regions ih =>
      intro total ht
      rw [List.foldl_cons, List.map_cons, List.sum_cons]
      split
      · next hempty =>
        rw [ih total ht, List.isEmpty_iff.mp hempty, List.length_nil, Nat.zero_add]
      · refine (ih _ (Nat.mod_lt _ (by decide))).trans ?_
        omega
  rw [Job.totalSize, hfold _ _ (by decide), Nat.zero_add, dataSize]

theorem Fits.noEndless (h : Fits job) (hjob : Paged job) : NoEndless job := by
  intro region hmem hd
  have hle := h region hmem hd
  have hpos := List.length_pos_iff.mpr hjob.pattern
  have hlt := region.size_lt
  unfold Job.lastOffset
  rw [sub64_eq hlt hle]
  omega

theorem pages_regionCells (h : Fits job) (hjob : Paged job) {x : Nat} {region : Region}
    (hregion : job.regions[x]? = some region) :
    0x1000 * pages (regionCells job x) + uncounted job region = region.data.length := by
  have hmem := List.mem_of_getElem? hregion
  rw [regionCells_eq hregion]
  unfold uncounted
  split
  · next hempty => rw [List.isEmpty_iff.mp hempty]; rfl
  · next hd =>
    have hd : region.HasData := Region.hasData_iff.mpr hd
    have hle := h region hmem hd
    have hpos := List.length_pos_iff.mpr hjob.pattern
    obtain ⟨k, hk⟩ := hjob.paged region hmem
    rw [restCells_eq hregion, Nat.sub_zero, ← List.range_eq_range', pages_range,
      hjob.complete region hmem hd]
    unfold Job.lastOffset
    rw [sub64_eq region.size_lt hle]
    omega

theorem pages_allCells (h : Fits job) (hjob : Paged job) :
    0x1000 * pages (allCells job) + (job.regions.map (uncounted job)).sum = dataSize job := by
  have hcells : pages (allCells job) =
      (job.regions.mapIdx fun x _ => pages (regionCells job x)).sum := by
    rw [allCells, pages_sum, List.map_map]
    congr 1
    exact List.ext_getElem (by simp) fun x _ _ => by simp
  have hsum : ∀ (regions : List Region) (f : Nat → Nat),
      (∀ x region, regions[x]? = some region →
        0x1000 * f x + uncounted job region = region.data.length) →
      0x1000 * (regions.mapIdx fun x _ => f x).sum + (regions.map (uncounted job)).sum =
        (regions.map fun region => region.data.length).sum := by
    intro regions
    induction regions with
    | nil => intro _ _; rfl
    | cons region regions ih =>
      intro f hf
      have hhead := hf 0 region rfl
      have htail := ih (fun x => f (x + 1)) fun x r hr => hf (x + 1) r hr
      rw [List.mapIdx_cons, List.map_cons, List.map_cons, List.sum_cons, List.sum_cons,
        List.sum_cons]
      omega
  rw [hcells]
  exact hsum job.regions _ fun x region => pages_regionCells h hjob

theorem shortPattern_iff (hjob : Paged job) :
    ShortPattern job ↔ (job.regions.map (uncounted job)).sum = 0 := by
  have hpos := List.length_pos_iff.mpr hjob.pattern
  rw [List.sum_eq_zero_iff]
  refine ⟨fun hshort n hn => ?_, fun hzero hread => ?_⟩
  · obtain ⟨region, hmem, rfl⟩ := List.mem_map.mp hn
    unfold uncounted
    split
    · rfl
    · next hd =>
      have hle := hshort ⟨region, hmem, Region.hasData_iff.mpr hd⟩
      omega
  · obtain ⟨region, hmem, hd⟩ := hread
    have hzero := hzero _ (List.mem_map_of_mem hmem)
    unfold uncounted at hzero
    rw [if_neg (Region.hasData_iff.mp hd)] at hzero
    omega

/-- A short pattern fits, as a region that was read has a page. -/
theorem ShortPattern.fits (h : ShortPattern job) (hjob : Paged job) : Fits job := by
  intro region hmem hd
  have hle := h ⟨region, hmem, hd⟩
  have hsize := hjob.complete region hmem hd
  obtain ⟨k, hk⟩ := hjob.paged region hmem
  have hpos : 0 < region.data.length :=
    List.length_pos_iff.mpr fun hnil => Region.hasData_iff.mp hd (List.isEmpty_iff.mpr hnil)
  omega

/-! ## Regions left on a signal -/

theorem Run.stop_page (h : Run job numThreads es s) {j x y : Nat} (hmem : Event.stop j x y ∈ es) :
    ∃ region, job.regions[x]? = some region ∧ y ≤ job.lastOffset region ∧ y % 0x1000 = 0 := by
  induction h with
  | init => cases hmem
  | worker _ hstep ih =>
    obtain ⟨w, hw, hmove⟩ := move_of_workerStep hstep
    rcases List.mem_append.mp hmem with hold | hnew
    · exact ih hold
    · cases List.mem_singleton.mp hnew
      cases hmove with
      | stop hpc hregion hy hpage hsignaled => exact ⟨_, hregion, hy, hpage⟩
  | signal _ ih =>
    rcases List.mem_append.mp hmem with hold | hnew
    · exact ih hold
    · cases List.mem_singleton.mp hnew

theorem Run.noStop_iff (h : Run job numThreads es s) :
    NoStop es ↔ pages (dropped job es) = 0 := by
  unfold dropped
  rw [pages_sum, List.sum_eq_zero_iff]
  refine ⟨fun hno n hn => ?_, fun hzero j x y hmem => ?_⟩
  · obtain ⟨c, hc, rfl⟩ := List.mem_map.mp hn
    obtain ⟨e, he, rfl⟩ := List.mem_map.mp hc
    cases e with
    | stop j x y => exact absurd he (hno j x y)
    | start | claim | taken | look | leave | finish | signal => rfl
  · obtain ⟨region, hregion, hy, hpage⟩ := h.stop_page hmem
    have hcells := hzero _ (List.mem_map_of_mem (List.mem_map_of_mem hmem))
    rw [show Event.dropped job (.stop j x y) = restCells job x y from rfl,
      restCells_eq_cons hregion hy, pages_add, pages_singleton, if_pos hpage] at hcells
    omega

/-- Once every worker has returned, the loop of the main thread ends where the
pattern is no longer than a page and no worker has left a region on a signal; and
only there, if the pattern fits into the regions. -/
theorem progress_loop_ends_iff (h : Run job numThreads es s) (hn : 0 < numThreads)
    (hdone : s.Finished) (hjob : Paged job) :
    (ShortPattern job ∧ NoStop es → job.totalSize ≤ s.searchedSize) ∧
      (Fits job → dataSize job < 2 ^ 64 → job.totalSize ≤ s.searchedSize →
        ShortPattern job ∧ NoStop es) := by
  have hcount : Fits job →
      0x1000 * pages (looked es) + 0x1000 * pages (dropped job es) +
        (job.regions.map (uncounted job)).sum = dataSize job := by
    intro hfits
    have hcells := h.looked_add_dropped (hfits.noEndless hjob) hn hdone
    rw [← pages_allCells hfits hjob, ← hcells, pages_add]
    omega
  rw [shortPattern_iff hjob, h.noStop_iff, h.searchedSize, totalSize_eq]
  refine ⟨fun hcond => ?_, fun hfits hlt hle => ?_⟩
  · have := hcount (((shortPattern_iff hjob).mpr hcond.1).fits hjob)
    omega
  · have := hcount hfits
    omega

/-- A page without the pattern, which is as long as the page. -/
def pageJob : Job where
  regions := [filledPage 0x10000 0 (by decide)]
  data := 1 :: List.replicate 0xFFF 0
  mask := List.replicate 0x1000 0xFF
  stray _ _ := 0

theorem pageJob_paged : Paged pageJob := by
  refine ⟨List.cons_ne_nil _ _, fun region hmem => ?_, fun region hmem _ => ?_⟩
  · cases List.mem_singleton.mp hmem; exact ⟨1, rfl⟩
  · cases List.mem_singleton.mp hmem; exact List.length_replicate

theorem progress_loop_ends_page :
    ((execute pageJob (List.replicate 5 (some 0)) ([], init pageJob 1)).map fun out =>
      decide (pageJob.totalSize ≤ out.2.searchedSize)) = some true := by
  obtain ⟨⟨es, s⟩, hex, hstop, hdone⟩ : ∃ out : List Event × State,
      execute pageJob (List.replicate 5 (some 0)) ([], init pageJob 1) = some out ∧
        out.1 = [.start 0, .claim 0 0, .look 0 0 0, .leave 0 0, .finish 0] ∧ out.2.Finished :=
    ⟨([.start 0, .claim 0 0, .look 0 0 0, .leave 0 0, .finish 0],
      ⟨[true], 0x1000, [⟨.done, false, []⟩]⟩), by decide +kernel, rfl, by decide⟩
  have hrun : Run pageJob 1 es s := Run.init.execute hex
  have hle := (progress_loop_ends_iff hrun (by decide) hdone pageJob_paged).1
    ⟨fun _ => by decide +kernel, fun i x y => by rw [show es = _ from hstop]; simp⟩
  rw [hex]
  simpa using hle

/-- The worker leaves the page on a signal that comes before it has looked at a
byte, and nothing is added. -/
theorem progress_loop_stuck :
    ¬ ∀ (job : Job) (numThreads : Nat) (es : List Event) (s : State), Run job numThreads es s →
      0 < numThreads → s.Finished → Paged job → job.totalSize ≤ s.searchedSize := by
  intro hall
  have hex : execute pageJob [some 0, none, some 0, some 0, some 0] ([], init pageJob 1) =
      some ([.start 0, .signal, .claim 0 0, .stop 0 0 0, .finish 0],
        ⟨[true], 0, [⟨.done, true, []⟩]⟩) := by decide +kernel
  have hle := hall _ _ _ _ (Run.init.execute hex) (by decide) (by decide) pageJob_paged
  rw [totalSize_eq, dataSize, pageJob] at hle
  revert hle
  decide +kernel

end Find
end Memwatch
