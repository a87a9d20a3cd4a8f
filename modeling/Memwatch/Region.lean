import Memwatch.Bytes
import Memwatch.Lib.Tiling

/-!
# Regions of the target's memory

`ProcessMemoryAdapter::Region` as the searches read it. A snapshot is the list
`get_all_regions` returns: ascending, disjoint regions whose data was read in
full or not at all.
-/

namespace Memwatch

open Lib

/-! ## Regions -/

/-- A region lies inside the 64-bit address space. -/
structure Region where
  addr : Nat
  size : Nat
  protection : Nat
  data : Bytes
  addr_lt : addr < 2 ^ 64
  size_lt : size < 2 ^ 64
  fits : addr + size ≤ 2 ^ 64
  deriving DecidableEq

namespace Region

def endAddr (r : Region) : Nat := add64 r.addr r.size

def HasData (r : Region) : Prop := r.data.isEmpty = false

instance (r : Region) : Decidable r.HasData := inferInstanceAs (Decidable (_ = _))

def Contains (r : Region) (a : Nat) : Prop := r.addr ≤ a ∧ a < r.addr + r.size

instance (r : Region) (a : Nat) : Decidable (r.Contains a) := inferInstanceAs (Decidable (_ ∧ _))

/-- The end of a region for a merge that passes over regions without data. -/
def bearingEnd (r : Region) : Nat := if r.data.isEmpty then 0 else r.endAddr

/-- `a` lies in the region as its end address tells. -/
abbrev Covers (r : Region) (a : Nat) : Prop := Lib.Covers addr endAddr r a

theorem contains_of_covers {r : Region} {a : Nat} (h : r.Covers a) : r.Contains a := by
  have := r.fits
  obtain ⟨h1, h2⟩ := h
  refine ⟨h1, ?_⟩
  unfold endAddr add64 at h2
  omega

theorem covers_iff {r : Region} {a : Nat} (h : r.addr + r.size < 2 ^ 64) :
    r.Covers a ↔ r.Contains a := by
  unfold Region.Covers Lib.Covers Contains endAddr
  rw [add64_eq h]

theorem covers_bearingEnd {r : Region} {a : Nat} :
    Lib.Covers addr bearingEnd r a ↔ r.HasData ∧ r.Covers a := by
  unfold Region.Covers Lib.Covers bearingEnd HasData
  cases r.data.isEmpty <;> simp

theorem not_hasData {r : Region} : ¬ r.HasData ↔ r.data = [] := by
  simp [HasData]

theorem hasData_iff {r : Region} : r.HasData ↔ ¬ r.data.isEmpty = true := by
  simp [HasData]

theorem isEmpty_of_not_hasData {r : Region} (h : ¬ r.HasData) : r.data.isEmpty = true := by
  simpa [HasData] using h

end Region

/-! ## Snapshots -/

/-- Ascending, disjoint regions, each read in full or not at all. -/
structure WellFormed (S : List Region) : Prop where
  ascending : S.Pairwise fun r s => r.addr ≤ s.addr
  disjoint : S.Pairwise fun r s => ∀ a, ¬ (r.Contains a ∧ s.Contains a)
  complete : ∀ r ∈ S, r.data = [] ∨ r.data.length = r.size

/-- Every address and size is a multiple of `w`. -/
def Aligned (w : Nat) (S : List Region) : Prop := ∀ r ∈ S, w ∣ r.addr ∧ w ∣ r.size

/-- A snapshot of whole pages that ends below the top of the address space. -/
structure PageSnapshot (S : List Region) : Prop extends WellFormed S where
  pages : Aligned 4096 S
  below : ∀ r ∈ S, r.addr + r.size < 2 ^ 64

/-- `a` lies in a region of `S` that was read. -/
def Bears (S : List Region) (a : Nat) : Prop := ∃ r ∈ S, r.HasData ∧ r.Contains a

/-- The `w` bytes of the snapshot at `a`. -/
def cellAt (w : Nat) (S : List Region) (a : Nat) : Option Bytes :=
  (S.find? fun r => decide (r.HasData ∧ r.Contains a)).map fun r => slice r.data (a - r.addr) w

theorem Aligned.dvd {w v : Nat} {S : List Region} (h : Aligned w S) (hv : v ∣ w) : Aligned v S :=
  fun r hr => ⟨hv.trans (h r hr).1, hv.trans (h r hr).2⟩

theorem Aligned.one (S : List Region) : Aligned 1 S := fun _ _ => ⟨one_dvd _, one_dvd _⟩

namespace WellFormed

variable {S : List Region}

theorem length_data (h : WellFormed S) {r : Region} (hr : r ∈ S) (hd : r.HasData) :
    r.data.length = r.size :=
  (h.complete r hr).resolve_left fun he => Region.not_hasData.mpr he hd

theorem size_pos (h : WellFormed S) {r : Region} (hr : r ∈ S) (hd : r.HasData) : 0 < r.size := by
  rw [← h.length_data hr hd]
  exact List.length_pos_iff.mpr fun he => Region.not_hasData.mpr he hd

theorem sublist {S' : List Region} (h : WellFormed S) (hs : S'.Sublist S) : WellFormed S' :=
  ⟨h.ascending.sublist hs, h.disjoint.sublist hs, fun r hr => h.complete r (hs.subset hr)⟩

theorem tiled (h : WellFormed S) : Tiled Region.addr Region.endAddr S := by
  refine List.Pairwise.imp (fun ⟨hle, hdis⟩ => ⟨hle, fun a ha => ?_⟩)
    (List.Pairwise.and h.ascending h.disjoint)
  exact hdis a ⟨Region.contains_of_covers ha.1, Region.contains_of_covers ha.2⟩

theorem tiledBearing (h : WellFormed S) : Tiled Region.addr Region.bearingEnd S :=
  h.tiled.shrink fun _ _ _ hx => (Region.covers_bearingEnd.mp hx).2

theorem apart (h : WellFormed S) : S.Pairwise fun r s => s.HasData → r.addr + r.size ≤ s.addr := by
  refine List.Pairwise.imp_of_mem (fun {r s} _ hs ⟨hle, hdis⟩ hd => ?_)
    (List.Pairwise.and h.ascending h.disjoint)
  have hpos := h.size_pos hs hd
  by_contra hlt
  exact hdis s.addr ⟨⟨hle, by omega⟩, le_refl _, by omega⟩

theorem unique (h : WellFormed S) {r s : Region} {a : Nat} (hr : r ∈ S) (hs : s ∈ S)
    (hra : r.Contains a) (hsa : s.Contains a) : r = s := by
  have ht : Tiled Region.addr (fun r => r.addr + r.size) S :=
    List.Pairwise.imp (fun ⟨hle, hdis⟩ => ⟨hle, hdis⟩) (List.Pairwise.and h.ascending h.disjoint)
  exact ht.unique hr hs hra hsa

theorem cellAt_eq (h : WellFormed S) {r : Region} {a : Nat} (hr : r ∈ S) (hd : r.HasData)
    (ha : r.Contains a) (w : Nat) : cellAt w S a = some (slice r.data (a - r.addr) w) := by
  unfold cellAt
  cases hf : S.find? fun r => decide (r.HasData ∧ r.Contains a) with
  | none => exact absurd (List.find?_eq_none.mp hf r hr) (by simp [hd, ha])
  | some s =>
    have hsa : s.HasData ∧ s.Contains a := by simpa using List.find?_some hf
    rw [h.unique (List.mem_of_find?_eq_some hf) hr hsa.2 ha]
    rfl

end WellFormed

theorem bears_of_cellAt {w : Nat} {S : List Region} {a : Nat} {c : Bytes}
    (h : cellAt w S a = some c) : Bears S a := by
  unfold cellAt at h
  obtain ⟨r, hf, -⟩ := Option.map_eq_some_iff.mp h
  have hra : r.HasData ∧ r.Contains a := by simpa using List.find?_some hf
  exact ⟨r, List.mem_of_find?_eq_some hf, hra.1, hra.2⟩

theorem cellAt_of_not_bears {w : Nat} {S : List Region} {a : Nat} (h : ¬ Bears S a) :
    cellAt w S a = none := by
  cases hc : cellAt w S a with
  | none => rfl
  | some c => exact absurd (bears_of_cellAt hc) h

namespace PageSnapshot

variable {S : List Region}

theorem sublist {S' : List Region} (h : PageSnapshot S) (hs : S'.Sublist S) : PageSnapshot S' :=
  ⟨h.toWellFormed.sublist hs, fun r hr => h.pages r (hs.subset hr),
    fun r hr => h.below r (hs.subset hr)⟩

theorem covers_iff (h : PageSnapshot S) {r : Region} (hr : r ∈ S) {a : Nat} :
    r.Covers a ↔ r.Contains a := Region.covers_iff (h.below r hr)

end PageSnapshot

def filledPage (addr : Nat) (b : UInt8) (h : addr + 4096 ≤ 2 ^ 64) : Region where
  addr := addr
  size := 4096
  protection := 7
  data := List.replicate 4096 b
  addr_lt := by omega
  size_lt := by decide
  fits := h

theorem filledPage_snapshot {addr : Nat} (b : UInt8) (h : addr + 4096 < 2 ^ 64) (hd : 4096 ∣ addr) :
    PageSnapshot [filledPage addr b h.le] where
  ascending := List.pairwise_singleton _ _
  disjoint := List.pairwise_singleton _ _
  complete r hr := .inr (by rw [List.mem_singleton.mp hr]; exact List.length_replicate)
  pages r hr := by rw [List.mem_singleton.mp hr]; exact ⟨hd, dvd_refl 4096⟩
  below r hr := by rw [List.mem_singleton.mp hr]; exact h

def oneByte (x : UInt8) : Region := ⟨0x1000, 1, 7, [x], by decide, by decide, by decide⟩

theorem oneByte_wellFormed (x : UInt8) : WellFormed [oneByte x] where
  ascending := List.pairwise_singleton _ _
  disjoint := List.pairwise_singleton _ _
  complete r hr := by rw [List.mem_singleton.mp hr]; exact .inr rfl

def twoBytes (x y : UInt8) : Region := ⟨0x1000, 2, 7, [x, y], by decide, by decide, by decide⟩

theorem twoBytes_wellFormed (x y : UInt8) : WellFormed [twoBytes x y] where
  ascending := List.pairwise_singleton _ _
  disjoint := List.pairwise_singleton _ _
  complete r hr := by rw [List.mem_singleton.mp hr]; exact .inr rfl

end Memwatch
