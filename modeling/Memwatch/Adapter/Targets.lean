import Memwatch.Adapter.Scans

/-!
# Regions that hold a target

`get_target_regions` filters the regions of `get_all_regions`, as long as no region
starts above the last target: there it compares what lies behind the targets with the
end of the region.
-/

namespace Memwatch

open Lib

namespace ProcessMemoryAdapter

def Region.Contains (r : Region) (a : Nat) : Prop := r.addr ≤ a ∧ a < r.addr + r.size

instance Region.instDecidableContains (r : Region) (a : Nat) : Decidable (r.Contains a) :=
  inferInstanceAs (Decidable (_ ∧ _))

section Targets

variable (mach : Mach) (adapter : ProcessMemoryAdapter) (readData : Bool) (m : AddressMap)

/-- `get_target_regions` returns the regions of `get_all_regions` that hold a target, in
ascending order, without a look past the end of the targets. -/
def FindsTargets (targets : List Nat) : Prop :=
  ∃ turns ret m', adapter.getTargetRegions mach turns targets readData m = some (.ok ret m') ∧
    ret.Pairwise (fun r s => r.addr < s.addr) ∧
    ∃ turns all m', adapter.getAllRegions mach turns readData m = some (.ok all m') ∧
      ret = all.filter fun r => ∃ t ∈ targets, r.Contains t

variable {mach adapter readData m} {targets : List Nat}

theorem contains_found {e : VmRegion} {a : Nat} :
    (found mach readData e).Contains a ↔ e.Contains a := by
  unfold Region.Contains VmRegion.Contains
  rw [addr_found, size_found]

theorem ascending_found : (m.regions.map (found mach readData)).Pairwise
    fun r s => r.addr < s.addr := by
  refine List.pairwise_map.mpr (m.apart.imp fun {e f} h => ?_)
  have := e.pos
  rw [addr_found, addr_found]
  omega

theorem findsTargets_of_not_overrun (hasc : targets.Pairwise (· ≤ ·))
    (h : ¬ Overrun targets m.regions) : FindsTargets mach adapter readData m targets := by
  obtain ⟨m', -, turns, hret⟩ := getTargetRegions_spec mach adapter readData m targets
  obtain ⟨m'', -, turns', hall⟩ := getAllRegions_spec mach adapter readData m
  rw [targetResult, if_neg h, List.nil_append] at hret
  have hfilter : (m.regions.filter fun e => Aimed targets e).map (found mach readData) =
      (m.regions.map (found mach readData)).filter fun r => ∃ t ∈ targets, r.Contains t := by
    rw [List.filter_map]
    refine congrArg _ (List.filter_congr fun e _ => ?_)
    simp only [Function.comp, contains_found, aimed_iff hasc]
  rw [hfilter] at hret
  exact ⟨turns, _, m', hret, ascending_found.filter _, turns', _, m'', hall, rfl⟩

theorem not_findsTargets_of_overrun (h : Overrun targets m.regions) :
    ¬ FindsTargets mach adapter readData m targets := by
  rintro ⟨turns, ret, m', hret, -⟩
  obtain ⟨m'', -, turns', hover⟩ := getTargetRegions_spec mach adapter readData m targets
  rw [targetResult, if_pos h] at hover
  have := Returns.unique ⟨turns, hret⟩ ⟨turns', hover⟩
  cases this

/-- The scan finds the regions that hold a target exactly if there are no targets, or no
region starts above all of them. -/
theorem findsTargets_iff (mach : Mach) (adapter : ProcessMemoryAdapter) (readData : Bool)
    (m : AddressMap) (targets : List Nat) (hasc : targets.Pairwise (· ≤ ·)) :
    FindsTargets mach adapter readData m targets ↔
      targets = [] ∨ ∀ e ∈ m.regions, ∃ t ∈ targets, e.addr ≤ t := by
  have hover : ¬ Overrun targets m.regions ↔
      targets = [] ∨ ∀ e ∈ m.regions, ∃ t ∈ targets, e.addr ≤ t := by
    unfold Overrun
    push Not
    exact or_iff_not_imp_left.symm
  rw [← hover]
  constructor
  · intro h hn
    exact not_findsTargets_of_overrun hn h
  · exact findsTargets_of_not_overrun hasc

theorem findsTargets_last : FindsTargets granting ⟨1⟩ true twoPages [0x1010, 0x3010] :=
  (findsTargets_iff granting ⟨1⟩ true twoPages [0x1010, 0x3010] (by decide)).mpr (.inr (by decide))

/-- With the only target in the first of two pages, the scan looks past it at the second. -/
theorem overrun_first : ¬ FindsTargets granting ⟨1⟩ true twoPages [0x1010] :=
  not_findsTargets_of_overrun (by decide)

end Targets

end ProcessMemoryAdapter
end Memwatch
