import Memwatch.Search.Plan

/-!
# What the plans ask

Which calls are in a plan, in which order, when they stay inside the buffers
the update holds, and what they answer.
-/

namespace Memwatch

open Lib Traced

namespace EvalCall

/-- The next `n` bytes at both pointers lie in buffers the update holds: those of
`current` in a region of the new snapshot that was read, those of `target` in the
value or in a region of the old snapshot that was read. -/
structure Inside (news olds : List Region) (data : Bytes) (n : Nat) (c : EvalCall) : Prop where
  current : ∃ r ∈ news, r.HasData ∧ c.current.base = .region r
  currentHolds : c.current.Holds n
  target : c.target.base = .value data ∨ ∃ o ∈ olds, o.HasData ∧ c.target.base = .region o
  targetHolds : c.target.Holds n

variable {ev : Evaluator} {news olds : List Region} {data : Bytes} {n : Nat} {c : EvalCall}

theorem Inside.mono {m : Nat} (h : c.Inside news olds data n) (hmn : m ≤ n) :
    c.Inside news olds data m where
  current := h.current
  currentHolds := by have := h.currentHolds; unfold Ptr.Holds at this ⊢; omega
  target := h.target
  targetHolds := by have := h.targetHolds; unfold Ptr.Holds at this ⊢; omega

/-- A call that is answered reads inside its buffers. -/
theorem holds_of_test {b : Bool} (h : c.test ev = .ok b) :
    c.current.Holds (ev.reads c.size) ∧ c.target.Holds (ev.reads c.size) := by
  unfold test at h
  split at h
  · assumption
  · cases h

theorem Inside.test_eq (h : c.Inside news olds data n) (hr : ev.reads c.size ≤ n) :
    c.test ev = .ok (ev.run c.current.bytes c.target.bytes c.size) :=
  if_pos ⟨(h.mono hr).currentHolds, (h.mono hr).targetHolds⟩

theorem Inside.passes_eq (h : c.Inside news olds data n) (hl : ev.Local)
    (hr : ev.reads c.size ≤ n) :
    passes (EvalCall.test ev) c =
      ev.run (slice c.current.base.bytes c.current.off n) (slice c.target.base.bytes c.target.off n)
        c.size := by
  rw [passes_of_ok (h.test_eq hr)]
  refine hl.run_congr ?_ ?_ <;>
    rw [slice, List.take_take, Nat.min_eq_left hr, Ptr.bytes]

end EvalCall

namespace MemorySearch

variable {ev : Evaluator} {fieldSize prevSize n a : Nat} {data : Bytes} {news olds : List Region}
  {r o : Region} {c : EvalCall}

/-! ## First search -/

theorem mem_firstPlan (hw : 0 < fieldSize) :
    c ∈ firstPlan fieldSize data news ↔ ∃ r ∈ news, r.HasData ∧ ∃ y, y < r.size - data.length ∧
      fieldSize ∣ y ∧ c = firstCall data r y := by
  simp only [firstPlan, List.mem_flatMap, regionPlan, Region.HasData]
  refine exists_congr fun r => and_congr_right fun _ => ?_
  by_cases hd : r.data.isEmpty <;> simp [hd, mem_strides hw, and_assoc, eq_comm]

theorem firstCall_inside (hS : WellFormed news) (hr : r ∈ news) (hd : r.HasData) {y : Nat} :
    (firstCall data r y).Inside news [] data data.length ↔ y + data.length ≤ r.size := by
  rw [← hS.length_data hr hd]
  constructor
  · exact fun h => h.currentHolds
  · exact fun h => ⟨⟨r, hr, hd, rfl⟩, h, .inl rfl, by show 0 + _ ≤ _; exact (Nat.zero_add _).le⟩

/-! ## Searches that compare with an old snapshot -/

/-- The call that compares the address `a` of `r` with the value or with `o`. -/
def compareAt (data : Bytes) (prevSize : Nat) (r o : Region) (a : Nat) : EvalCall :=
  callAt data prevSize r o a (a - r.addr) (a - o.addr)

/-- The length a comparison is given. -/
def comparedSize (data : Bytes) (prevSize : Nat) : Nat :=
  if data.isEmpty then prevSize else data.length

theorem compareAt_inside (hr : r ∈ news) (hrd : r.HasData) (ho : o ∈ olds) (hod : o.HasData) :
    (compareAt data prevSize r o a).Inside news olds data n ↔
      a - r.addr + n ≤ r.data.length ∧
        if data.isEmpty then a - o.addr + n ≤ o.data.length else n ≤ data.length := by
  constructor
  · intro h
    refine ⟨h.currentHolds, ?_⟩
    have := h.targetHolds
    by_cases hd : data.isEmpty <;>
      simpa [compareAt, callAt, Ptr.Holds, Buffer.bytes, hd] using this
  · rintro ⟨hc, ht⟩
    refine ⟨⟨r, hr, hrd, rfl⟩, hc, ?_, ?_⟩
    · by_cases hd : data.isEmpty
      · exact .inr ⟨o, ho, hod, by simp [compareAt, callAt, hd]⟩
      · exact .inl (by simp [compareAt, callAt, hd])
    · by_cases hd : data.isEmpty <;>
        simpa [compareAt, callAt, Ptr.Holds, Buffer.bytes, hd] using ht

theorem mem_secondPlan (hw : 0 < fieldSize) (hO : WellFormed olds) :
    c ∈ secondPlan fieldSize data prevSize news olds ↔
      ∃ a, ∃ r ∈ news, r.HasData ∧ r.Contains a ∧ fieldSize ∣ a - r.addr ∧
        ∃ o ∈ olds, o.HasData ∧ o.Covers a ∧ c = compareAt data prevSize r o a := by
  simp only [secondPlan, List.mem_flatMap]
  constructor
  · rintro ⟨r, hr, hc⟩
    unfold regionPlan₂ at hc
    split at hc
    · cases hc
    · next hd =>
      obtain ⟨y, hy, hcall⟩ := List.mem_filterMap.mp hc
      obtain ⟨-, hlt, hdvd⟩ := (mem_strides hw).mp hy
      obtain ⟨o, hloc, rfl⟩ := Option.map_eq_some_iff.mp hcall
      obtain ⟨ho, hcov⟩ := hO.tiledBearing.locate_eq_some_iff.mp hloc
      obtain ⟨hod, hcov⟩ := Region.covers_bearingEnd.mp hcov
      have hsub : r.addr + y - r.addr = y := Nat.add_sub_cancel_left _ _
      refine ⟨r.addr + y, r, hr, Region.hasData_iff.mpr hd, ⟨by omega, by omega⟩, ?_,
        o, ho, hod, hcov, ?_⟩
      · rw [hsub]; exact hdvd
      · rw [compareAt, hsub]
  · rintro ⟨a, r, hr, hd, ⟨hle, hlt⟩, hdvd, o, ho, hod, hcov, rfl⟩
    refine ⟨r, hr, ?_⟩
    have hadd : r.addr + (a - r.addr) = a := Nat.add_sub_cancel' hle
    rw [regionPlan₂, if_neg (Region.hasData_iff.mp hd)]
    have hmem := (mem_strides hw).mpr ⟨Nat.zero_le (a - r.addr), (by omega : _ < r.size), hdvd⟩
    refine List.mem_filterMap.mpr ⟨a - r.addr, hmem, ?_⟩
    rw [secondCall, hadd, hO.tiledBearing.locate_eq_some_iff.mpr
      ⟨ho, Region.covers_bearingEnd.mpr ⟨hod, hcov⟩⟩]
    rfl

theorem mem_verifyPlan (hN : WellFormed news) (hO : WellFormed olds) {results : List Nat} :
    c ∈ verifyPlan data prevSize news olds results ↔
      ∃ a ∈ results, ∃ r ∈ news, r.HasData ∧ r.Covers a ∧
        ∃ o ∈ olds, o.Covers a ∧ c = compareAt data prevSize r o a := by
  rw [verifyPlan, List.mem_filterMap]
  refine exists_congr fun a => and_congr_right fun _ => ?_
  constructor
  · intro h
    unfold verifyCall at h
    split at h
    · next r o hr ho =>
      obtain ⟨hr, hrc⟩ := hN.tiled.locate_eq_some_iff.mp hr
      obtain ⟨ho, hoc⟩ := hO.tiled.locate_eq_some_iff.mp ho
      split at h
      · cases h
      · next hd =>
        cases h
        exact ⟨r, hr, Region.hasData_iff.mpr hd, hrc, o, ho, hoc, rfl⟩
    · cases h
  · rintro ⟨r, hr, hd, hrc, o, ho, hoc, rfl⟩
    rw [verifyCall, hN.tiled.locate_eq_some_iff.mpr ⟨hr, hrc⟩,
      hO.tiled.locate_eq_some_iff.mpr ⟨ho, hoc⟩]
    exact if_neg (Region.hasData_iff.mp hd)

/-! ## Order -/

theorem ascending_flatMap (hS : WellFormed news) {f : Region → List EvalCall}
    (hin : ∀ r ∈ news, ∀ c ∈ f r, r.HasData ∧ r.Contains c.addr)
    (hf : ∀ r ∈ news, (f r).Pairwise fun c d => c.addr < d.addr) :
    (news.flatMap f).Pairwise fun c d => c.addr < d.addr := by
  rw [List.pairwise_flatMap]
  refine ⟨hf, List.Pairwise.imp_of_mem (fun {r s} hr hs hapart c hc d hd => ?_) hS.apart⟩
  obtain ⟨-, -, hlt⟩ := hin r hr c hc
  obtain ⟨hsd, hle, -⟩ := hin s hs d hd
  have := hapart hsd
  omega

theorem firstPlan_ascending (hw : 0 < fieldSize) (hS : WellFormed news) :
    (firstPlan fieldSize data news).Pairwise fun c d => c.addr < d.addr := by
  refine ascending_flatMap hS (fun r hr c hc => ?_) fun r hr => ?_
  · obtain ⟨s, hs, hd, y, hy, -, rfl⟩ := (mem_firstPlan hw).mp
      (List.mem_flatMap.mpr ⟨r, List.mem_singleton_self r, hc⟩ : c ∈ firstPlan fieldSize data [r])
    cases List.mem_singleton.mp hs
    exact ⟨hd, Nat.le_add_right _ _, by show r.addr + y < _; omega⟩
  · unfold regionPlan
    split
    · exact List.Pairwise.nil
    · exact List.pairwise_map.mpr
        ((strides_pairwise hw).imp fun h => Nat.add_lt_add_left h _)

theorem secondPlan_ascending (hw : 0 < fieldSize) (hN : WellFormed news) (hO : WellFormed olds) :
    (secondPlan fieldSize data prevSize news olds).Pairwise fun c d => c.addr < d.addr := by
  refine ascending_flatMap hN (fun r hr c hc => ?_) fun r hr => ?_
  · obtain ⟨a, s, hs, hd, hca, -, o, -, -, -, rfl⟩ := (mem_secondPlan hw hO).mp
      (List.mem_flatMap.mpr ⟨r, List.mem_singleton_self r, hc⟩ :
        c ∈ secondPlan fieldSize data prevSize [r] olds)
    cases List.mem_singleton.mp hs
    exact ⟨hd, hca⟩
  · unfold regionPlan₂
    split
    · exact List.Pairwise.nil
    · refine (strides_pairwise hw).filterMap _ fun y z hyz c hc d hd => ?_
      obtain ⟨o, -, rfl⟩ := Option.map_eq_some_iff.mp hc
      obtain ⟨o', -, rfl⟩ := Option.map_eq_some_iff.mp hd
      exact Nat.add_lt_add_left hyz _

theorem verifyPlan_ascending {results : List Nat} (h : results.Pairwise (· < ·)) :
    (verifyPlan data prevSize news olds results).Pairwise fun c d => c.addr < d.addr := by
  refine h.filterMap _ fun a b hab c hc d hd => ?_
  rw [addr_of_verifyCall hc, addr_of_verifyCall hd]
  exact hab

end MemorySearch
end Memwatch
