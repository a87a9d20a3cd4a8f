import Mathlib

/-!
# Strided offsets

`strides w n y` is the list `y, y + w, y + 2 w, …` of the offsets below `n`
that a loop `for (; y < n; y += w)` visits from `y` on.
-/

namespace Memwatch.Lib

/-- The offsets `y, y + w, …` below `n`. -/
def strides (w n y : Nat) : List Nat := List.range' y ((n - y + w - 1) / w) w

variable {w n y : Nat}

theorem strides_of_le (hw : 0 < w) (h : n ≤ y) : strides w n y = [] := by
  have : (n - y + w - 1) / w = 0 := by
    rw [show n - y = 0 by omega, Nat.zero_add]
    exact Nat.div_eq_of_lt (by omega)
  rw [strides, this]; rfl

theorem strides_of_lt (hw : 0 < w) (h : y < n) : strides w n y = y :: strides w n (y + w) := by
  have : (n - y + w - 1) / w = (n - (y + w) + w - 1) / w + 1 := by
    rcases Nat.lt_or_ge n (y + w) with hn | hn
    · rw [show n - (y + w) = 0 by omega, Nat.zero_add, Nat.div_eq_of_lt (show w - 1 < w by omega),
        show n - y + w - 1 = (n - y - 1) + w by omega, Nat.add_div_right _ hw,
        Nat.div_eq_of_lt (by omega)]
    · rw [show n - y + w - 1 = (n - (y + w) + w - 1) + w by omega, Nat.add_div_right _ hw]
  rw [strides, this, List.range'_succ]; rfl

theorem mem_strides (hw : 0 < w) {x : Nat} : x ∈ strides w n y ↔ y ≤ x ∧ x < n ∧ w ∣ x - y := by
  rw [strides, List.mem_range']
  constructor
  · rintro ⟨i, hi, rfl⟩
    have := (Nat.lt_div_iff_mul_lt hw).mp hi
    refine ⟨Nat.le_add_right _ _, ?_, ?_⟩
    · rw [Nat.mul_comm] at this; omega
    · rw [Nat.add_sub_cancel_left]; exact Nat.dvd_mul_right w i
  · rintro ⟨hy, hn, ⟨i, hi⟩⟩
    refine ⟨i, (Nat.lt_div_iff_mul_lt hw).mpr ?_, by omega⟩
    rw [Nat.mul_comm]; omega

theorem lt_of_mem_strides {x : Nat} (h : x ∈ strides w n y) : x < n := by
  rcases Nat.eq_zero_or_pos w with rfl | hw
  · simp [strides] at h
  · exact ((mem_strides hw).mp h).2.1

theorem length_strides_mono {m : Nat} (h : n ≤ m) :
    (strides w n y).length ≤ (strides w m y).length := by
  simp only [strides, List.length_range']
  exact Nat.div_le_div_right (by omega)

theorem strides_pairwise (hw : 0 < w) : (strides w n y).Pairwise (· < ·) :=
  List.pairwise_lt_range' w hw

theorem strides_jump (hw : 0 < w) {z : Nat} (hyz : y ≤ z) (hd : w ∣ z - y) :
    ∃ l, strides w n y = l ++ strides w n z ∧ ∀ x ∈ l, y ≤ x ∧ x < z := by
  obtain ⟨k, hk⟩ := hd
  induction k generalizing y with
  | zero => exact ⟨[], by rw [show z = y by omega]; rfl, nofun⟩
  | succ k ih =>
    rw [Nat.mul_succ] at hk
    rcases Nat.lt_or_ge y n with hy | hy
    · obtain ⟨l, hl, hlt⟩ := ih (y := y + w) (by omega) (by omega)
      refine ⟨y :: l, by rw [strides_of_lt hw hy, hl]; rfl, fun x hx => ?_⟩
      rcases List.mem_cons.mp hx with rfl | hx
      · omega
      · have := hlt x hx; omega
    · exact ⟨[], by rw [strides_of_le hw hy, strides_of_le hw (by omega)]; rfl, nofun⟩

end Memwatch.Lib
