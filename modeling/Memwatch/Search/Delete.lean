import Memwatch.Search.Invariant

/-!
# Deleting a range of results

`delete_results` turns the inclusive end of its range into `end + 1`, so a range that
ends at the last address ends at `0`.
-/

namespace Memwatch

namespace MemorySearch

variable {s : MemorySearch} {l : List Nat} {start last x y : Nat}

theorem lowerBound_cons (a : Nat) (l : List Nat) (x : Nat) :
    lowerBound (a :: l) x = if a < x then lowerBound l x + 1 else 0 := by
  unfold lowerBound
  split
  · next h => rw [List.takeWhile_cons_of_pos (by simpa using h)]; rfl
  · next h => rw [List.takeWhile_cons_of_neg (by simpa using h)]; rfl

theorem lowerBound_eq_zero (h : ∀ a ∈ l, x ≤ a) : lowerBound l x = 0 := by
  cases l with
  | nil => rfl
  | cons a l => rw [lowerBound_cons, if_neg (not_lt.mpr (h a List.mem_cons_self))]

theorem take_append_drop_lowerBound (h : l.Pairwise (· < ·)) (hxy : x ≤ y) :
    l.take (lowerBound l x) ++ l.drop (lowerBound l y) = l.filter fun a => a < x ∨ y ≤ a := by
  induction l with
  | nil => rfl
  | cons a l ih =>
    obtain ⟨hhead, htail⟩ := List.pairwise_cons.mp h
    rw [lowerBound_cons, lowerBound_cons]
    by_cases hx : a < x
    · rw [if_pos hx, if_pos (by omega), List.take_succ_cons, List.drop_succ_cons,
        List.filter_cons_of_pos (by simpa using .inl hx), List.cons_append, ih htail]
    · have hz : lowerBound l x = 0 := lowerBound_eq_zero fun b hb => by
        have := hhead b hb
        omega
      rw [if_neg hx, List.take_zero, List.nil_append]
      by_cases hy : a < y
      · rw [if_pos hy, List.drop_succ_cons, List.filter_cons_of_neg (by simp; omega), ← ih htail,
          hz, List.take_zero, List.nil_append]
      · rw [if_neg hy, List.drop_zero]
        refine (List.filter_eq_self.mpr fun b hb => ?_).symm
        have : a ≤ b := by
          rcases List.mem_cons.mp hb with rfl | hb
          · exact le_rfl
          · exact (hhead b hb).le
        simp only [decide_eq_true_eq]
        omega

/-- A range that ends before the last address is deleted exactly. -/
theorem deleteResults_exact (h : s.results.Pairwise (· < ·)) (hle : start ≤ last)
    (hlast : last < 2 ^ 64 - 1) : s.deleteResults start last =
      .ok { s with results := s.results.filter fun a => a < start ∨ last < a } := by
  have hadd : add64 last 1 = last + 1 := add64_eq (by omega)
  unfold deleteResults
  dsimp only
  rw [hadd, if_pos (lowerBound_mono s.results (by omega)),
    take_append_drop_lowerBound h (by omega)]
  rfl

/-- A range that ends at the last address ends before all results: nothing is deleted, or
the erasure is undefined. -/
theorem deleteResults_last (s : MemorySearch) (start : Nat) : s.deleteResults start (2 ^ 64 - 1) =
    if lowerBound s.results start = 0 then .ok s else .error .badErase := by
  have hend : lowerBound s.results (add64 (2 ^ 64 - 1) 1) = 0 :=
    lowerBound_eq_zero fun a _ => Nat.zero_le a
  unfold deleteResults
  dsimp only
  rw [hend]
  by_cases hstart : lowerBound s.results start = 0
  · rw [if_pos hstart.le, if_pos hstart, hstart]
    rfl
  · rw [if_neg (by omega), if_neg hstart]

/-- The results are the former ones outside of the range iff the range does not end at the
last address, or there are no results. -/
theorem deleteResults_exact_iff (h : s.results.Pairwise (· < ·))
    (hlt : ∀ a ∈ s.results, a < 2 ^ 64) (hle : start ≤ last) (hlast : last < 2 ^ 64) :
    s.deleteResults start last =
        .ok { s with results := s.results.filter fun a => a < start ∨ last < a } ↔
      last ≠ 2 ^ 64 - 1 ∨ s.results = [] := by
  constructor
  · intro heq
    by_contra hnot
    obtain ⟨hmax, hne⟩ := not_or.mp hnot
    obtain rfl := not_not.mp hmax
    obtain ⟨a, l, hcons⟩ := List.exists_cons_of_ne_nil hne
    rw [deleteResults_last] at heq
    split at heq
    · next hstart =>
      have hkept : a ∈ s.results := hcons ▸ List.mem_cons_self
      have ha : a < 2 ^ 64 := hlt a hkept
      rw [show s.results = _ from congrArg results (Except.ok.inj heq)] at hkept
      rw [hcons, lowerBound_cons] at hstart
      simp only [List.mem_filter, decide_eq_true_eq] at hkept
      split at hstart <;> omega
    · cases heq
  · rintro (hmax | hnil)
    · exact deleteResults_exact h hle (by omega)
    · unfold deleteResults
      rw [hnil]
      rfl

/-- Results of a `uint8` search around a deleted range. -/
def fourResults : MemorySearch :=
  { new .uint8 true with resultsValid := true, memory := some [], results := [1, 2, 5, 9] }

theorem deleteResults_exact_middle :
    fourResults.deleteResults 2 5 =
        .ok { fourResults with
          results := fourResults.results.filter fun a => a < 2 ∨ 5 < a } ↔
      5 ≠ 2 ^ 64 - 1 ∨ fourResults.results = [] :=
  deleteResults_exact_iff (by decide) (by decide) (by decide) (by decide)

/-- All results from `2` on. -/
theorem deleteResults_open_end :
    fourResults.deleteResults 2 (2 ^ 64 - 1) ≠
      .ok { fourResults with
        results := fourResults.results.filter fun a => a < 2 ∨ 2 ^ 64 - 1 < a } := by
  decide +kernel

end MemorySearch
end Memwatch
