import Memwatch.Lib.Overlays

/-!
# Cells of a memory

A memory is a function of the address. Writes of data of one size at multiples of the size
leave the data in the cells that are written, and the other cells as they are.
-/

namespace Memwatch.Lib

universe u

variable {β : Type u}

def cellOf (mem : Nat → β) (addr size : Nat) : List β :=
  (List.range size).map fun i => mem (addr + i)

/-- A write of data. -/
def patchAt (addr : Nat) (data : List β) : Nat → Option β := fun a =>
  if addr ≤ a then data[a - addr]? else none

variable {mem : Nat → β} {addr a n size : Nat} {data : List β} {written : List Nat}

theorem length_cellOf : (cellOf mem addr size).length = size := by
  simp [cellOf]

theorem patchAt_inside {i : Nat} (hi : i < data.length) :
    patchAt addr data (addr + i) = some data[i] := by
  simp [patchAt, hi]

theorem patchAt_outside (h : a < addr ∨ addr + data.length ≤ a) : patchAt addr data a = none := by
  unfold patchAt
  split
  · exact List.getElem?_eq_none (by omega)
  · rfl

theorem add_le_of_dvd_of_lt (hn : n ∣ addr) (ha : n ∣ a) (h : addr < a) : addr + n ≤ a := by
  have hle := Nat.le_of_dvd (by omega) (Nat.dvd_sub ha hn)
  omega

theorem eq_of_cells (hn : n ∣ addr) (ha : n ∣ a) {i : Nat} (hi : i < n) (hle : addr ≤ a + i)
    (hlt : a + i < addr + n) : a = addr := by
  rcases Nat.lt_trichotomy a addr with h | h | h
  · have := add_le_of_dvd_of_lt ha hn h
    omega
  · exact h
  · have := add_le_of_dvd_of_lt hn ha h
    omega

theorem cellOf_written (ha : a ∈ written) (hdvd : ∀ r ∈ written, data.length ∣ r) :
    cellOf (overlayAll mem (written.map fun r => patchAt r data)) a data.length = data := by
  refine List.ext_getElem length_cellOf fun i _ hi => ?_
  simp only [cellOf, List.getElem_map, List.getElem_range]
  refine overlayAll_of_agree ?_ fun write hwrite => ?_
  · refine ⟨_, List.mem_map_of_mem ha, ?_⟩
    rw [patchAt_inside hi]
    exact nofun
  · obtain ⟨r, hr, rfl⟩ := List.mem_map.mp hwrite
    by_cases hin : r ≤ a + i ∧ a + i < r + data.length
    · right
      rw [← eq_of_cells (hdvd r hr) (hdvd a ha) hi hin.1 hin.2, patchAt_inside hi]
    · exact .inl (patchAt_outside (by omega))

theorem cellOf_not_written (ha : a ∉ written) (hdvd : ∀ r ∈ written, data.length ∣ r)
    (haligned : data.length ∣ a) :
    cellOf (overlayAll mem (written.map fun r => patchAt r data)) a data.length =
      cellOf mem a data.length := by
  refine List.map_congr_left fun i hi => overlayAll_of_none fun write hwrite => ?_
  obtain ⟨r, hr, rfl⟩ := List.mem_map.mp hwrite
  have hi := List.mem_range.mp hi
  refine patchAt_outside ?_
  by_contra hin
  have heq := eq_of_cells (hdvd r hr) haligned hi (by omega) (by omega)
  exact ha (heq ▸ hr)

end Memwatch.Lib
