import Memwatch.Find.Ends

/-!
# What is found

The workers look at the offsets up to the difference of the sizes of a region and the
pattern. Where the pattern is no longer than any region that was read, they find exactly
the places where it stands, and read inside the regions. Otherwise the difference wraps
around, and they run past the region's data.
-/

namespace Memwatch

namespace Find

namespace Job

variable (job : Job)

/-- The bytes of a region that the loop over the pattern reads at offset `y`, from byte `z`
of the pattern on: it passes over the masked bytes and ends at the first difference. -/
def readLoop (region : Region) (y : Nat) : Nat → Nat → List Nat
  | 0, _ => []
  | n + 1, z =>
    if job.mask.getD z 0 = 0 then readLoop region y n (z + 1)
    else add64 y z ::
      if job.byteAt region (add64 y z) = job.data.getD z 0 then readLoop region y n (z + 1) else []

def reads (region : Region) (y : Nat) : List Nat := job.readLoop region y job.data.length 0

/-- The pattern stands in the region at offset `y`. -/
def StandsAt (region : Region) (y : Nat) : Prop :=
  y + job.data.length ≤ region.size ∧ ∀ z < job.data.length, job.mask.getD z 0 ≠ 0 →
    region.data[y + z]? = some (job.data.getD z 0)

/-- The pattern stands at the address in a region that was read. -/
def IsMatch (a : Nat) : Prop :=
  ∃ region ∈ job.regions, region.HasData ∧ ∃ y, job.StandsAt region y ∧ a = region.addr + y

/-- No region that was read is shorter than the pattern. -/
def Covered : Prop :=
  ∀ region ∈ job.regions, region.HasData → job.data.length ≤ region.size

end Job

/-- What `command_find` gets: disjoint regions, each read in full or not at all, and a
pattern with its mask. -/
structure Proper (job : Job) : Prop where
  disjoint : job.regions.Pairwise fun r s => ∀ a, ¬ (r.Contains a ∧ s.Contains a)
  complete : ∀ region ∈ job.regions, region.data = [] ∨ region.data.length = region.size
  nonempty : job.data ≠ []
  length_lt : job.data.length < 2 ^ 64
  masked : job.mask.length = job.data.length

/-- The workers read inside the regions, return, and together report each match once and
nothing else. -/
structure Exact (job : Job) (numThreads : Nat) : Prop where
  inside {es : List Event} {s : State} : Run job numThreads es s → ∀ i x y region,
    Event.look i x y ∈ es → job.regions[x]? = some region →
    ∀ off ∈ job.reads region y, off < region.data.length
  ends : ∃ bound, Ends job numThreads bound
  reports {es : List Event} {s : State} : Run job numThreads es s → Event.signal ∉ es →
    s.Finished → s.findResults.Pairwise (· < ·) ∧ ∀ a, a ∈ s.findResults ↔ job.IsMatch a

variable {job : Job} {numThreads i : Nat} {es : List Event} {s s' : State} {region : Region}
  {y : Nat}

/-! ## One offset -/

theorem Proper.length_data (h : Proper job) (hmem : region ∈ job.regions) (hd : region.HasData) :
    region.data.length = region.size :=
  (h.complete region hmem).resolve_left fun he => Region.not_hasData.mpr he hd

theorem Proper.length_pos (h : Proper job) : 0 < job.data.length :=
  List.length_pos_iff.mpr h.nonempty

theorem mem_readLoop {n z off : Nat} (h : off ∈ job.readLoop region y n z) :
    ∃ z' < z + n, off = add64 y z' := by
  induction n generalizing z with
  | zero => exact absurd h List.not_mem_nil
  | succ n ih =>
    have hrest : off ∈ job.readLoop region y n (z + 1) → ∃ z' < z + (n + 1), off = add64 y z' := by
      intro hmem
      obtain ⟨z', hz', hoff⟩ := ih hmem
      exact ⟨z', by omega, hoff⟩
    unfold Job.readLoop at h
    split at h
    · exact hrest h
    · rcases List.mem_cons.mp h with hoff | hmem
      · exact ⟨z, by omega, hoff⟩
      · split at hmem
        · exact hrest hmem
        · exact absurd hmem List.not_mem_nil

theorem mem_readLoop_of_first {n z z' : Nat} (hz : z ≤ z') (hn : z' < z + n)
    (hfirst : job.mask.getD z' 0 ≠ 0) (hmasked : ∀ v < z', job.mask.getD v 0 = 0) :
    add64 y z' ∈ job.readLoop region y n z := by
  induction n generalizing z with
  | zero => omega
  | succ n ih =>
    unfold Job.readLoop
    rcases Nat.eq_or_lt_of_le hz with rfl | hlt
    · rw [if_neg hfirst]
      exact List.mem_cons_self
    · rw [if_pos (hmasked z hlt)]
      apply ih hlt
      omega

section Covered

variable (h : Proper job) (hmem : region ∈ job.regions) (hd : region.HasData)
  (hle : job.data.length ≤ region.size)

theorem lastOffset_eq (hle : job.data.length ≤ region.size) :
    job.lastOffset region = region.size - job.data.length := sub64_eq region.size_lt hle

include h hmem hd hle

theorem reads_inside (hy : y ≤ job.lastOffset region) {off : Nat}
    (hoff : off ∈ job.reads region y) : off < region.data.length := by
  have hsize := region.size_lt
  rw [lastOffset_eq hle] at hy
  obtain ⟨z, hz, rfl⟩ := mem_readLoop hoff
  rw [h.length_data hmem hd, add64_eq (by omega)]
  omega

/-- The loop over the pattern gets to its end where the pattern stands. -/
theorem matchesAt_iff (hy : y ≤ job.lastOffset region) :
    job.matchesAt region y = true ↔ job.StandsAt region y := by
  have hsize := region.size_lt
  rw [lastOffset_eq hle] at hy
  have hbyte : ∀ z < job.data.length,
      region.data[y + z]? = some (job.byteAt region (add64 y z)) := by
    intro z hz
    have hlt : y + z < region.data.length := by rw [h.length_data hmem hd]; omega
    rw [add64_eq (by omega), Job.byteAt, List.getElem?_eq_getElem hlt]
    rfl
  unfold Job.matchesAt Job.StandsAt
  rw [and_iff_right (by omega), List.all_eq_true]
  simp only [List.mem_range, Bool.or_eq_true, beq_iff_eq]
  refine forall_congr' fun z => forall_congr' fun hz => ?_
  rw [hbyte z hz, Option.some.injEq, or_iff_not_imp_left]

end Covered

/-! ## All results -/

section Covered

variable (h : Proper job) (hcov : job.Covered)

include h hcov

theorem mem_regionMatches (hmem : region ∈ job.regions) {result : Nat × Nat} :
    result ∈ job.regionMatches region ↔ region.HasData ∧
      ∃ y, job.StandsAt region y ∧ result = (region.addr + y, region.protection) := by
  unfold Job.regionMatches
  by_cases hd : region.HasData
  · have hle := hcov region hmem hd
    have hlen := h.length_pos
    have hfits := region.fits
    rw [if_neg (Region.hasData_iff.mp hd), and_iff_right hd, List.mem_map]
    refine exists_congr fun y => ?_
    rw [List.mem_filter, List.mem_range, Nat.lt_succ_iff]
    have hfound : y ≤ job.lastOffset region →
        found region y = (region.addr + y, region.protection) := by
      intro hy
      rw [lastOffset_eq hle] at hy
      unfold found
      rw [add64_eq (by omega)]
    refine ⟨?_, ?_⟩
    · rintro ⟨⟨hy, hmatch⟩, rfl⟩
      exact ⟨(matchesAt_iff h hmem hd hle hy).mp hmatch, hfound hy⟩
    · rintro ⟨hstands, rfl⟩
      have hy : y ≤ job.lastOffset region := by
        rw [lastOffset_eq hle]
        have := hstands.1
        omega
      exact ⟨⟨hy, (matchesAt_iff h hmem hd hle hy).mpr hstands⟩, hfound hy⟩
  · rw [if_pos (Region.isEmpty_of_not_hasData hd)]
    exact iff_of_false List.not_mem_nil fun hboth => hd hboth.1

theorem mem_sequentialResults (a : Nat) :
    a ∈ job.sequentialResults job.regions ↔ job.IsMatch a := by
  unfold Job.sequentialResults
  rw [List.mem_map]
  refine ⟨?_, ?_⟩
  · rintro ⟨result, hres, rfl⟩
    obtain ⟨region, hmem, hres⟩ :=
      List.mem_flatMap.mp ((sortResults_perm _).mem_iff.mp hres)
    obtain ⟨hd, y, hstands, rfl⟩ := (mem_regionMatches h hcov hmem).mp hres
    exact ⟨region, hmem, hd, y, hstands, rfl⟩
  · rintro ⟨region, hmem, hd, y, hstands, rfl⟩
    refine ⟨(region.addr + y, region.protection), (sortResults_perm _).mem_iff.mpr ?_, rfl⟩
    apply List.mem_flatMap_of_mem hmem
    exact (mem_regionMatches h hcov hmem).mpr ⟨hd, y, hstands, rfl⟩

theorem contains_of_mem_regionMatches (hmem : region ∈ job.regions) {a : Nat}
    (ha : a ∈ (job.regionMatches region).map Prod.fst) : region.Contains a := by
  obtain ⟨result, hres, rfl⟩ := List.mem_map.mp ha
  obtain ⟨-, y, hstands, rfl⟩ := (mem_regionMatches h hcov hmem).mp hres
  have hlen := h.length_pos
  have hle := hstands.1
  refine ⟨Nat.le_add_right _ _, ?_⟩
  show region.addr + y < _
  omega

theorem addresses_nodup : ((job.regions.flatMap job.regionMatches).map Prod.fst).Nodup := by
  rw [List.map_flatMap, List.nodup_flatMap]
  refine ⟨fun region hmem => ?_, ?_⟩
  · unfold Job.regionMatches
    split
    · exact List.nodup_nil
    · next hd =>
      have hlen := h.length_pos
      have hle := hcov region hmem (Region.hasData_iff.mpr hd)
      have hfits := region.fits
      rw [List.map_map]
      refine (List.nodup_range.filter _).map_on fun y hy z hz heq => ?_
      have hy := List.mem_range.mp (List.mem_filter.mp hy).1
      have hz := List.mem_range.mp (List.mem_filter.mp hz).1
      rw [lastOffset_eq hle] at hy hz
      have heq : add64 region.addr y = add64 region.addr z := heq
      rw [add64_eq (by omega), add64_eq (by omega)] at heq
      omega
  · refine h.disjoint.imp_of_mem fun {r s} hr hs hdis => ?_
    exact fun a ha hb => hdis a
      ⟨contains_of_mem_regionMatches h hcov hr ha, contains_of_mem_regionMatches h hcov hs hb⟩

theorem sequentialResults_ascending : (job.sequentialResults job.regions).Pairwise (· < ·) := by
  have hnodup : (job.sequentialResults job.regions).Nodup :=
    ((sortResults_perm _).map Prod.fst).nodup_iff.mpr (addresses_nodup h hcov)
  have hsorted : (job.sequentialResults job.regions).Pairwise (· ≤ ·) :=
    sortResults_addresses _
  exact (hsorted.and hnodup).imp fun hboth => lt_of_le_of_ne hboth.1 hboth.2

end Covered

/-! ## Cells of a region -/

theorem mem_list_sum {l : List Cells} {c : Nat × Nat} : c ∈ l.sum ↔ ∃ m ∈ l, c ∈ m := by
  rw [← Multiset.sum_coe]
  exact Multiset.mem_join

theorem exists_look {x : Nat} (hlook : (x, y) ∈ looked es) : ∃ i, Event.look i x y ∈ es := by
  obtain ⟨c, hc, hcell⟩ := mem_list_sum.mp hlook
  obtain ⟨e, he, rfl⟩ := List.mem_map.mp hc
  cases e with
  | look i x' y' =>
    obtain ⟨rfl, rfl⟩ := Prod.mk.inj (Multiset.mem_singleton.mp hcell)
    exact ⟨i, he⟩
  | _ => exact absurd hcell (Multiset.notMem_zero _)

theorem mem_allCells {x : Nat} : (x, y) ∈ allCells job ↔
    ∃ region, job.regions[x]? = some region ∧ region.HasData ∧ y ≤ job.lastOffset region := by
  unfold allCells
  rw [mem_list_sum]
  refine ⟨?_, ?_⟩
  · rintro ⟨c, hc, hcell⟩
    obtain ⟨x', hx', rfl⟩ := List.mem_map.mp hc
    have hregion := List.getElem?_eq_getElem (List.mem_range.mp hx')
    rw [regionCells_eq hregion] at hcell
    split at hcell
    · exact absurd hcell (Multiset.notMem_zero _)
    · next hd =>
      rw [restCells_eq hregion, Multiset.mem_coe, List.mem_map] at hcell
      obtain ⟨y', hy', heq⟩ := hcell
      obtain ⟨rfl, rfl⟩ := Prod.mk.inj heq
      have hy' := (List.mem_range'_1.mp hy').2
      exact ⟨_, hregion, Region.hasData_iff.mpr hd, by omega⟩
  · rintro ⟨region, hregion, hd, hy⟩
    have hx := (List.getElem?_eq_some_iff.mp hregion).1
    refine ⟨_, List.mem_map_of_mem (List.mem_range.mpr hx), ?_⟩
    rw [regionCells_eq hregion, if_neg (Region.hasData_iff.mp hd), restCells_eq hregion,
      Multiset.mem_coe]
    apply List.mem_map_of_mem
    rw [List.mem_range'_1]
    omega

theorem Run.look_le (hrun : Run job numThreads es s) (hfin : NoEndless job) {x : Nat}
    (hlook : Event.look i x y ∈ es) : ∃ region, job.regions[x]? = some region ∧ region.HasData ∧
      y ≤ job.lastOffset region := by
  apply mem_allCells.mp
  apply Multiset.mem_of_le (hrun.looked_le hfin)
  exact mem_list_sum.mpr ⟨_, List.mem_map_of_mem hlook, Multiset.mem_singleton_self _⟩

/-! ## The condition -/

theorem Job.Covered.noEndless (hcov : job.Covered) (h : Proper job) : NoEndless job := by
  intro region hmem hd
  have hlen := h.length_pos
  have hsize := region.size_lt
  rw [lastOffset_eq (hcov region hmem hd)]
  omega

theorem exact_of_covered (h : Proper job) (hcov : job.Covered) (hn : 0 < numThreads) :
    Exact job numThreads where
  inside hrun i x y region hlook hregion off hoff := by
    obtain ⟨region', hregion', hd, hy⟩ := hrun.look_le (hcov.noEndless h) hlook
    obtain rfl := Option.some.inj (hregion.symm.trans hregion')
    have hmem := List.mem_of_getElem? hregion
    exact reads_inside h hmem hd (hcov region hmem hd) hy hoff
  ends := ⟨_, ends_of_noEndless job numThreads (hcov.noEndless h)⟩
  reports hrun hsig hdone := by
    rw [hrun.findResults_eq hn hdone hsig (List.Perm.refl _)]
    exact ⟨sequentialResults_ascending h hcov, mem_sequentialResults h hcov⟩

theorem Proper.unique (h : Proper job) {r t : Region} {a : Nat} (hr : r ∈ job.regions)
    (ht : t ∈ job.regions) (hra : r.Contains a) (hta : t.Contains a) : r = t := by
  by_contra hne
  have hsymm : Std.Symm fun r t : Region => ∀ a, ¬ (r.Contains a ∧ t.Contains a) :=
    ⟨fun r t hdis a hboth => hdis a hboth.symm⟩
  exact h.disjoint.forall hr ht hne a ⟨hra, hta⟩

/-! ### A region shorter than the pattern -/

section Short

variable {region : Region} (hmem : region ∈ job.regions) (hd : region.HasData)

include hmem hd

/-- The first byte that is not masked meets the end of the data, or is past it at once. -/
theorem exists_read_past (h : Proper job) (hshort : region.size < job.data.length)
    (hmask : ∃ z < job.data.length, job.mask.getD z 0 ≠ 0) :
    ∃ y ≤ region.size, ∃ off ∈ job.reads region y, region.data.length ≤ off := by
  obtain ⟨hz, hne⟩ := Nat.find_spec hmask
  have hbefore : ∀ v < Nat.find hmask, job.mask.getD v 0 = 0 := by
    intro v hv
    by_contra hv'
    exact Nat.find_min hmask hv ⟨by omega, hv'⟩
  generalize Nat.find hmask = z at hz hne hbefore
  refine ⟨region.size - z, Nat.sub_le _ _, add64 (region.size - z) z, ?_, ?_⟩
  · apply mem_readLoop_of_first (Nat.zero_le z) _ hne hbefore
    omega
  · have hlen := h.length_lt
    rw [add64_eq (by omega), h.length_data hmem hd]
    omega

theorem found_of_matchesAt (hrun : Run job numThreads es s) (hn : 0 < numThreads)
    (hsig : Event.signal ∉ es) (hdone : s.Finished) (hmatch : job.matchesAt region 0 = true) :
    region.addr ∈ s.findResults := by
  rw [hrun.findResults_eq hn hdone hsig (List.Perm.refl _)]
  have haddr : found region 0 = (region.addr, region.protection) := by
    unfold found
    rw [add64_eq (by exact region.addr_lt), Nat.add_zero]
  refine List.mem_map.mpr ⟨found region 0, ?_, congrArg Prod.fst haddr⟩
  apply (sortResults_perm _).mem_iff.mpr
  apply List.mem_flatMap_of_mem hmem
  unfold Job.regionMatches
  rw [if_neg (Region.hasData_iff.mp hd)]
  apply List.mem_map_of_mem
  exact List.mem_filter.mpr ⟨List.mem_range.mpr (Nat.succ_pos _), hmatch⟩

end Short

theorem matchesAt_of_blank (hmask : ¬ ∃ z < job.data.length, job.mask.getD z 0 ≠ 0)
    (region : Region) (y : Nat) : job.matchesAt region y = true := by
  refine List.all_eq_true.mpr fun z hz => ?_
  have hzero : job.mask.getD z 0 = 0 := by
    by_contra hne
    exact hmask ⟨z, List.mem_range.mp hz, hne⟩
  rw [hzero]
  rfl

/-- In a region shorter than the pattern, a worker gets to the end of the region's data: it
reads the byte after it, or, under a mask of zeros, finds a pattern that does not fit. -/
theorem covered_of_exact (h : Proper job) (hex : Exact job numThreads) (hn : 0 < numThreads) :
    job.Covered := by
  intro region hmem hd
  by_contra hshort
  have hlen := h.length_lt
  obtain ⟨bound, hends⟩ := hex.ends
  obtain ⟨es, s, hrun, hsig, hdone⟩ := hends.exists_finished
  have hall := hrun.looked_add_dropped (hrun.noEndless hsig hn hdone) hn hdone
  rw [hrun.not_dropped hsig, add_zero] at hall
  by_cases hmask : ∃ z < job.data.length, job.mask.getD z 0 ≠ 0
  · obtain ⟨y, hy, off, hread, hpast⟩ := exists_read_past hmem hd h (by omega) hmask
    obtain ⟨x, hregion⟩ := List.getElem?_of_mem hmem
    have hlast : region.size ≤ job.lastOffset region := by
      rw [Job.lastOffset, sub64_wrap hlen (by omega)]
      omega
    obtain ⟨i, hlook⟩ : ∃ i, Event.look i x y ∈ es := by
      apply exists_look
      rw [hall]
      exact mem_allCells.mpr ⟨region, hregion, hd, hy.trans hlast⟩
    exact absurd (hex.inside hrun i x y region hlook hregion off hread) (Nat.not_lt.mpr hpast)
  · have hfound := found_of_matchesAt hmem hd hrun hn hsig hdone (matchesAt_of_blank hmask region 0)
    obtain ⟨region', hmem', hd', y, ⟨hfit, -⟩, heq⟩ :=
      ((hex.reports hrun hsig hdone).2 region.addr).mp hfound
    -- disjoint regions do not share the address
    have hpos : 0 < region.size := by
      rw [← h.length_data hmem hd]
      exact List.length_pos_iff.mpr fun he => Region.not_hasData.mpr he hd
    have hlenpos := h.length_pos
    obtain rfl := h.unique (a := region.addr) hmem hmem' ⟨le_refl _, by omega⟩
      ⟨by omega, by omega⟩
    omega

/-- The scan is exact and stays in bounds iff no region that was read is shorter than the
pattern. -/
theorem find_exact_iff (h : Proper job) (hn : 0 < numThreads) :
    Exact job numThreads ↔ job.Covered :=
  ⟨fun hex => covered_of_exact h hex hn, fun hcov => exact_of_covered h hcov hn⟩

def twoByteJob (data : Bytes) : Job where
  regions := [twoBytes 5 6]
  data := data
  mask := List.replicate data.length 0xFF
  stray _ _ := 0

theorem twoByteJob_proper {data : Bytes} (hne : data ≠ []) (hlt : data.length < 2 ^ 64) :
    Proper (twoByteJob data) where
  disjoint := List.pairwise_singleton _ _
  complete region hmem := by
    obtain rfl := List.mem_singleton.mp hmem
    exact .inr rfl
  nonempty := hne
  length_lt := hlt
  masked := List.length_replicate

theorem find_exact_byte : Exact (twoByteJob [5]) 2 ↔ (twoByteJob [5]).Covered :=
  find_exact_iff (twoByteJob_proper (List.cons_ne_nil _ _) (by decide)) (by decide)

/-- Three bytes are not found in two. -/
theorem find_overruns :
    ¬ ∀ (job : Job) (numThreads : Nat), Proper job → 0 < numThreads → Exact job numThreads := by
  intro hall
  have hproper : Proper (twoByteJob [5, 6, 7]) :=
    twoByteJob_proper (List.cons_ne_nil _ _) (by decide)
  have hcov := covered_of_exact hproper (hall _ 1 hproper (by decide)) (by decide)
  exact absurd (hcov (twoBytes 5 6) (List.mem_singleton_self _) rfl) (by decide)

end Find
end Memwatch
