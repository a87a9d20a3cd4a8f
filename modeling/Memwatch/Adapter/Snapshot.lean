import Memwatch.Adapter.Targets

/-!
# Snapshots of the address map

`get_all_regions` finds every region of the map once, in the order of the map. What a
region is found with depends on the kernel: `Snapshot` says which data it has.
-/

namespace Memwatch

open Lib

namespace ProcessMemoryAdapter

/-- `r` is what `mach_vm_region` tells of the region `e`, with all of its contents if they
were to be read and could be, and no data otherwise. -/
structure Snapshot (mach : Mach) (readData : Bool) (e : VmRegion) (r : Region) : Prop where
  told : r = (Region.ofVmRegion e).withData r.data
  full : ∀ data, readData = true → ReadMade mach e →
    mach.vmReadOverwrite e.addr e.size = .ok data → r.data = data ∧ data.length = e.size
  empty : ¬ (readData = true ∧ ReadMade mach e ∧
    (mach.vmReadOverwrite e.addr e.size).isOk = true) → r.data = []

section Snapshots

variable {mach : Mach} {readData : Bool} {e : VmRegion}

theorem found_eq_withData :
    found mach readData e = (Region.ofVmRegion e).withData (found mach readData e).data := by
  cases readData <;> rfl

/-- A region as it is found, if a read tells all bytes or none. -/
theorem snapshot_found
    (hread : ∀ addr size data, mach.vmReadOverwrite addr size = .ok data → data.length = size) :
    Snapshot mach readData e (found mach readData e) where
  told := found_eq_withData
  full := by
    intro data hdata hmade hok
    subst hdata
    refine ⟨?_, hread _ _ _ hok⟩
    have hafter := dataAfter_of_readMade hmade
    rw [hok] at hafter
    exact hafter
  empty := by
    intro hnot
    cases readData with
    | false => rfl
    | true =>
      show dataAfter mach e = []
      by_cases hmade : ReadMade mach e
      · rw [dataAfter_of_readMade hmade]
        cases hok : mach.vmReadOverwrite e.addr e.size with
        | error ret => rfl
        | ok data => exact absurd ⟨rfl, hmade, by rw [hok]; rfl⟩ hnot
      · exact dataAfter_of_not_readMade hmade

theorem disjoint_found {m : AddressMap} : (m.regions.map (found mach readData)).Pairwise
    fun r s => ∀ a, ¬ (r.Contains a ∧ s.Contains a) := by
  refine List.pairwise_map.mpr (m.apart.imp fun {e f} h a => ?_)
  rw [contains_found, contains_found]
  rintro ⟨⟨-, he⟩, hf, -⟩
  omega

end Snapshots

/-- `get_all_regions` ends, and returns the regions of the map one by one, ascending and
disjoint, whatever the kernel refuses. -/
theorem getAllRegions_snapshot (mach : Mach) (adapter : ProcessMemoryAdapter) (readData : Bool)
    (m : AddressMap)
    (hread : ∀ addr size data, mach.vmReadOverwrite addr size = .ok data → data.length = size) :
    ∃ ret m', (∃ turns, adapter.getAllRegions mach turns readData m = some (.ok ret m')) ∧
      List.Forall₂ (Snapshot mach readData) m.regions ret ∧
      (ret.Pairwise fun r s => r.addr < s.addr) ∧
      ret.Pairwise fun r s => ∀ a, ¬ (r.Contains a ∧ s.Contains a) := by
  obtain ⟨m', -, hturns⟩ := getAllRegions_spec mach adapter readData m
  refine ⟨_, m', hturns, ?_, ascending_found, disjoint_found⟩
  exact List.forall₂_map_right_iff.mpr (List.forall₂_same.mpr fun e _ => snapshot_found hread)

theorem getAllRegions_snapshot_twoPages : ∃ ret m',
    (∃ turns, (⟨1⟩ : ProcessMemoryAdapter).getAllRegions granting turns true twoPages =
      some (.ok ret m')) ∧
      List.Forall₂ (Snapshot granting true) twoPages.regions ret ∧
      (ret.Pairwise fun r s => r.addr < s.addr) ∧
      ret.Pairwise fun r s => ∀ a, ¬ (r.Contains a ∧ s.Contains a) :=
  getAllRegions_snapshot granting ⟨1⟩ true twoPages fun addr size data h => by
    cases h
    exact List.length_replicate

end ProcessMemoryAdapter
end Memwatch
