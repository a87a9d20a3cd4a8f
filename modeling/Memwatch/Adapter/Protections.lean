import Memwatch.Adapter.Scans

/-!
# Protections after reads

A read of a region that is not readable changes its protection, and restores it only if
nothing fails in between. The scans go on after a read that failed, so that the region
keeps the protection it was read with.
-/

namespace Memwatch

open Lib AddressMap

namespace ProcessMemoryAdapter

inductive ReadCall (m : AddressMap) where
  | region (e : VmRegion) (he : e ∈ m.regions)
  | allRegions
  | targetRegions (targetAddresses : List Nat)

namespace ReadCall

variable (mach : Mach) (adapter : ProcessMemoryAdapter) {m : AddressMap}

/-- The call returns or throws, and leaves this map. -/
def EndsWith (m' : AddressMap) : ReadCall m → Prop
  | region e _ => (endState (adapter.readRegion mach (.ofVmRegion e) m)).1 = m'
  | allRegions => ∃ turns res, adapter.getAllRegions mach turns true m = some res ∧
      endState res = m'
  | targetRegions targets => ∃ turns res,
      adapter.getTargetRegions mach turns targets true m = some res ∧ endState res = m'

def regionsRead : ReadCall m → List VmRegion
  | region e _ => [e]
  | allRegions => m.regions
  | targetRegions targets => m.regions.filter fun e => Aimed targets e

end ReadCall

section Protections

variable {mach : Mach} {adapter : ProcessMemoryAdapter} {m m' : AddressMap} {e : VmRegion}

theorem sameProtections_protect (he : e ∈ m.regions) (prot : VmProt) :
    SameProtections m (m.protect e.addr e.size prot) ↔ prot = e.info.protection := by
  rw [sameProtections_iff (regions_protect he prot)]
  · constructor
    · intro h
      have := h e he
      rwa [if_pos rfl] at this
    · intro h f _
      split
      · next heq =>
        subst heq
        exact h
      · rfl
  · intro f
    split <;> rfl
  · intro f
    split <;> rfl

theorem sameProtections_left (hm : m'.regions = m.regions.map (left mach true)) :
    SameProtections m m' ↔ ∀ e ∈ m.regions, Restored mach e := by
  rw [sameProtections_iff hm (fun _ => addr_left) fun _ => size_left]
  exact forall₂_congr fun e _ => protectionAfter_eq_iff

theorem sameProtections_leftAimed {targets : List Nat}
    (hm : m'.regions = m.regions.map (leftAimed mach true targets)) :
    SameProtections m m' ↔ ∀ e ∈ m.regions, Aimed targets e → Restored mach e := by
  rw [sameProtections_iff hm (addr_leftAimed targets) (size_leftAimed targets)]
  refine forall₂_congr fun e _ => ?_
  unfold leftAimed
  split
  · next h => exact protectionAfter_eq_iff.trans ⟨fun hr _ => hr, fun hr => hr h⟩
  · next h => exact ⟨fun _ ha => absurd ha h, fun _ => rfl⟩

theorem endState_targetResult {readData : Bool} {targets : List Nat} {ret : List Region}
    {rest : List VmRegion} : endState (targetResult mach readData targets ret rest m) = m := by
  unfold targetResult
  split <;> rfl

theorem ReadCall.spec (mach : Mach) (adapter : ProcessMemoryAdapter) (call : ReadCall m) :
    ∃ m', call.EndsWith mach adapter m' ∧
      (SameProtections m m' ↔ ∀ e ∈ call.regionsRead, Restored mach e) := by
  cases call with
  | region e he =>
    refine ⟨_, rfl, ?_⟩
    rw [endState_readRegion he, sameProtections_protect he, protectionAfter_eq_iff]
    exact (List.forall_mem_singleton).symm
  | allRegions =>
    obtain ⟨m', hm', turns, hret⟩ := getAllRegions_spec mach adapter true m
    exact ⟨m', ⟨turns, _, hret, rfl⟩, sameProtections_left hm'⟩
  | targetRegions targets =>
    obtain ⟨m', hm', turns, hret⟩ := getTargetRegions_spec mach adapter true m targets
    refine ⟨m', ⟨turns, _, hret, endState_targetResult⟩, ?_⟩
    simp only [sameProtections_leftAimed hm', ReadCall.regionsRead, List.mem_filter,
      decide_eq_true_eq, and_imp]

end Protections

end ProcessMemoryAdapter
end Memwatch
