import Mathlib

/-!
# Numbers with one bit

`x &&& (x - 1)` is `x` without its lowest bit, so a number that is not `0` is a power
of two iff nothing is left of it. Sign extension adds bits above a sign bit, and then
more than one bit is set.
-/

namespace Memwatch.Lib

theorem and_sub_one_eq_zero_iff {x : Nat} (hx : x ≠ 0) : x &&& (x - 1) = 0 ↔ ∃ i, x = 2 ^ i := by
  constructor
  · intro hand
    refine ⟨x.log2, by_contra fun hne => ?_⟩
    -- unless the top bit is the only one, it is set in `x - 1` too
    have hle : 2 ^ x.log2 ≤ x := Nat.log2_self_le hx
    have hlt : x < 2 ^ (x.log2 + 1) := Nat.lt_log2_self
    have htop : x.testBit x.log2 = true :=
      Nat.testBit_of_two_pow_le_and_two_pow_add_one_gt hle hlt
    have htop' : (x - 1).testBit x.log2 = true :=
      Nat.testBit_of_two_pow_le_and_two_pow_add_one_gt (by omega) (by omega)
    have : (x &&& (x - 1)).testBit x.log2 = true := by rw [Nat.testBit_and, htop, htop']; rfl
    rw [hand, Nat.zero_testBit] at this
    cases this
  · rintro ⟨i, rfl⟩
    rw [Nat.and_two_pow_sub_one_eq_mod, Nat.mod_self]

/-- Exactly one bit of a number is set iff it is a power of two. -/
theorem existsUnique_testBit_iff {x : Nat} : (∃! i, x.testBit i = true) ↔ ∃ i, x = 2 ^ i := by
  constructor
  · rintro ⟨i, hi, honly⟩
    refine ⟨i, Nat.eq_of_testBit_eq fun j => ?_⟩
    rw [Nat.testBit_two_pow, Bool.eq_iff_iff, decide_eq_true_iff]
    exact ⟨fun hj => (honly j hj).symm, fun hij => hij ▸ hi⟩
  · rintro ⟨i, rfl⟩
    simp only [Nat.testBit_two_pow, decide_eq_true_iff]
    exact ⟨i, rfl, fun j hj => hj.symm⟩

section BitVec

variable {w v : Nat} {x : BitVec w}

/-- The test for one bit on a machine word. -/
theorem oneBit_iff : (x != 0 && x &&& (x - 1) == 0) = true ↔ ∃ i, x.toNat = 2 ^ i := by
  rw [Bool.and_eq_true, bne_iff_ne, beq_iff_eq]
  by_cases hx : x = 0
  · subst hx
    simp only [ne_eq, not_true_eq_false, false_and, false_iff, not_exists]
    intro i hi
    rw [show (0 : BitVec w).toNat = 0 from BitVec.toNat_zero] at hi
    exact absurd hi.symm (Nat.two_pow_pos i).ne'
  · have hpos : x.toNat ≠ 0 := fun h => hx (BitVec.eq_of_toNat_eq (by simpa using h))
    have hlt := x.isLt
    have hw : 1 < 2 ^ w := by omega
    have hone : (1 : BitVec w).toNat = 1 := by
      rw [show (1 : BitVec w) = BitVec.ofNat w 1 from rfl, BitVec.toNat_ofNat, Nat.mod_eq_of_lt hw]
    have hsub : (x - 1).toNat = x.toNat - 1 := by
      rw [BitVec.toNat_sub, hone, show 2 ^ w - 1 + x.toNat = x.toNat - 1 + 2 ^ w by omega,
        Nat.add_mod_right, Nat.mod_eq_of_lt (by omega)]
    rw [← and_sub_one_eq_zero_iff hpos, ← hsub, ← BitVec.toNat_and]
    simp only [ne_eq, hx, not_false_eq_true, true_and]
    exact ⟨fun h => by rw [h]; exact BitVec.toNat_zero,
      fun h => BitVec.eq_of_toNat_eq (by simpa using h)⟩

/-- A pattern with one bit is not the sign bit iff its sign extension has one bit. -/
theorem exists_signExtend_eq_two_pow (hwv : w < v) :
    (∃ i, (x.signExtend v).toNat = 2 ^ i) ↔ ∃ i, x.toNat = 2 ^ i ∧ i + 1 < w := by
  have hsign : x.msb = x.toNat.testBit (w - 1) := BitVec.msb_eq_getLsbD_last x
  cases hmsb : x.msb with
  | false =>
    have hlt := x.isLt.trans (Nat.pow_lt_pow_right (Nat.lt_succ_self 1) hwv)
    rw [BitVec.signExtend_eq_setWidth_of_msb_false hmsb, BitVec.toNat_setWidth,
      Nat.mod_eq_of_lt hlt]
    refine exists_congr fun i => (and_iff_left_of_imp fun hi => ?_).symm
    have hiw : i < w := (Nat.pow_lt_pow_iff_right (Nat.lt_succ_self 1)).mp (hi ▸ x.isLt)
    by_contra hlast
    rw [hsign, hi, Nat.testBit_two_pow, decide_eq_false_iff_not] at hmsb
    omega
  | true =>
    have hw : 0 < w := by
      rw [hsign] at hmsb
      exact Nat.pos_of_ne_zero fun h0 => by
        subst h0
        rw [BitVec.eq_nil x] at hmsb
        cases hmsb
    constructor
    · -- the sign bit and its copy above it are both set
      rintro ⟨i, hi⟩
      have hbit : ∀ j, w - 1 ≤ j → j < v → i = j := fun j hj hjv => by
        have hset : (x.signExtend v).getLsbD j = true := by
          rw [BitVec.getLsbD_signExtend, decide_eq_true hjv, Bool.true_and]
          split
          · rw [show j = w - 1 by omega, ← BitVec.msb_eq_getLsbD_last, hmsb]
          · exact hmsb
        rw [BitVec.getLsbD, hi, Nat.testBit_two_pow] at hset
        exact of_decide_eq_true hset
      have h1 := hbit (w - 1) le_rfl (by omega)
      have h2 := hbit w (by omega) hwv
      omega
    · rintro ⟨i, hi, hiw⟩
      rw [hsign, hi, Nat.testBit_two_pow] at hmsb
      have := of_decide_eq_true hmsb
      omega

end BitVec

end Memwatch.Lib
