import Memwatch.Lib.OneBit
import Memwatch.Search.Display

/-!
# Flag searches

`$` asks whether two values differ in exactly one bit. The test `x & (x - 1)` is done
after integer promotion, which copies the sign bit of a type narrower than `int`, so
that a difference in that bit alone has many bits then. `data_flag` looks at the first
byte in every iteration.
-/

namespace Memwatch

open Lib

/-! ## Bits of byte strings -/

/-- Bit `i % 8` of byte `i / 8`. -/
def bitAt (a : Bytes) (i : Nat) : Bool := (a.getD (i / 8) 0).toNat.testBit (i % 8)

/-- The byte strings differ in exactly one bit. -/
def OneBitApart (a b : Bytes) : Prop := ∃! i, bitAt a i ≠ bitAt b i

/-- The byte strings differ in the top bit of the last byte only. -/
def TopBitApart (a b : Bytes) : Prop := ∀ i, bitAt a i ≠ bitAt b i ↔ i + 1 = 8 * a.length

theorem testBit_leNat (a : Bytes) (i : Nat) : (leNat a).testBit i = bitAt a i := by
  induction a generalizing i with
  | nil => rw [leNat, Nat.zero_testBit]; exact (Nat.zero_testBit _).symm
  | cons b bs ih =>
    rw [leNat, Nat.add_comm, show 256 = 2 ^ 8 from rfl, Nat.testBit_two_pow_mul_add _ b.toNat_lt]
    split
    · next hi => rw [bitAt, Nat.div_eq_of_lt hi, Nat.mod_eq_of_lt hi]; rfl
    · next hi =>
      rw [ih, bitAt, bitAt, show i / 8 = (i - 8) / 8 + 1 by omega,
        show i % 8 = (i - 8) % 8 by omega]
      rfl

theorem testBit_xor_leNat (a b : Bytes) (i : Nat) :
    (leNat a ^^^ leNat b).testBit i = true ↔ bitAt a i ≠ bitAt b i := by
  rw [Nat.testBit_xor, testBit_leNat, testBit_leNat, bne_iff_ne]

theorem oneBitApart_iff {a b : Bytes} : OneBitApart a b ↔ ∃ i, leNat a ^^^ leNat b = 2 ^ i := by
  rw [← existsUnique_testBit_iff]
  simp only [OneBitApart, testBit_xor_leNat]

theorem topBitApart_iff {a b : Bytes} (ha : a ≠ []) :
    TopBitApart a b ↔ leNat a ^^^ leNat b = 2 ^ (8 * a.length - 1) := by
  have hpos := List.length_pos_iff.mpr ha
  constructor
  · intro htop
    refine Nat.eq_of_testBit_eq fun i => ?_
    rw [Bool.eq_iff_iff, testBit_xor_leNat, htop, Nat.testBit_two_pow, decide_eq_true_iff]
    omega
  · intro heq i
    rw [← testBit_xor_leNat, heq, Nat.testBit_two_pow, decide_eq_true_iff]
    omega

theorem lt_of_xor_leNat {a b : Bytes} {i : Nat} (hlen : b.length = a.length)
    (h : leNat a ^^^ leNat b = 2 ^ i) : i < 8 * a.length := by
  have hlt : leNat a ^^^ leNat b < 2 ^ (8 * a.length) :=
    Nat.xor_lt_two_pow (leNat_lt a) (hlen ▸ leNat_lt b)
  exact (Nat.pow_lt_pow_iff_right (Nat.lt_succ_self 1)).mp (h ▸ hlt)

/-! ## Integers -/

section Integers

variable {t : IntType} {a b : Bytes}

theorem IntType.promote_xor (t : IntType) (x y : BitVec t.width) :
    t.promote x ^^^ t.promote y = t.promote (x ^^^ y) := by
  unfold promote
  split
  · rw [BitVec.signExtend_xor]
  · rw [BitVec.setWidth_xor]

/-- A promoted pattern has one bit iff the pattern has, and that is not the sign bit of
a type narrower than `int`. -/
theorem IntType.exists_promote_eq_two_pow (t : IntType) (x : BitVec t.width) :
    (∃ i, (t.promote x).toNat = 2 ^ i) ↔
      ∃ i, x.toNat = 2 ^ i ∧ (t.signed = true → t.width < 32 → i + 1 < t.width) := by
  unfold promote
  by_cases hnarrow : t.signed = true ∧ t.width < 32
  · rw [if_pos hnarrow.1, exists_signExtend_eq_two_pow (by omega)]
    simp only [hnarrow.1, hnarrow.2, forall_const]
  · have hsame : (if t.signed = true then x.signExtend (max t.width 32)
        else x.setWidth (max t.width 32)).toNat = x.toNat := by
      have hset : (x.setWidth (max t.width 32)).toNat = x.toNat := by
        rw [BitVec.toNat_setWidth]
        exact Nat.mod_eq_of_lt
          (x.isLt.trans_le (Nat.pow_le_pow_right (by decide) (le_max_left _ _)))
      split
      · next hs =>
        have hwide : max t.width 32 = t.width := max_eq_left (not_lt.mp (not_and.mp hnarrow hs))
        rw [BitVec.signExtend_eq_setWidth_of_le _ hwide.le, hset]
      · exact hset
    rw [hsame]
    refine exists_congr fun i => (and_iff_left fun hs hw => absurd ⟨hs, hw⟩ hnarrow).symm

theorem IntType.toNat_load (h : t.width = 8 * a.length) : (t.load a).toNat = leNat a := by
  rw [load, h, Nat.mul_div_cancel_left _ (Nat.succ_pos 7), List.take_length, BitVec.toNat_ofNat,
    Nat.mod_eq_of_lt (leNat_lt a)]

theorem flagOpFunction_iff (ha : t.width = 8 * a.length) (hb : t.width = 8 * b.length) (n : Nat) :
    (flagOpFunction t).run a b n = true ↔
      ∃ i, leNat a ^^^ leNat b = 2 ^ i ∧ (t.signed = true → t.width < 32 → i + 1 < t.width) := by
  unfold flagOpFunction
  dsimp only
  rw [t.promote_xor, oneBit_iff, t.exists_promote_eq_two_pow, BitVec.toNat_xor,
    IntType.toNat_load ha, IntType.toNat_load hb]

/-- The flag function misses the sign bit of a narrow signed type, and nothing else. -/
theorem flagOpFunction_exact_iff (ha : t.width = 8 * a.length) (hb : t.width = 8 * b.length)
    (hne : a ≠ []) (n : Nat) :
    ((flagOpFunction t).run a b n = true ↔ OneBitApart a b) ↔
      ¬ (t.signed = true ∧ t.width < 32 ∧ TopBitApart a b) := by
  have hpos := List.length_pos_iff.mpr hne
  rw [flagOpFunction_iff ha hb, oneBitApart_iff, topBitApart_iff hne]
  constructor
  · rintro hiff ⟨hs, hw, htop⟩
    obtain ⟨i, hi, hlt⟩ := hiff.mpr ⟨_, htop⟩
    have := Nat.pow_right_injective (le_refl 2) (htop.symm.trans hi)
    have := hlt hs hw
    omega
  · intro hnot
    refine ⟨fun ⟨i, hi, _⟩ => ⟨i, hi⟩, fun ⟨i, hi⟩ => ⟨i, hi, fun hs hw => ?_⟩⟩
    have hi8 := lt_of_xor_leNat (by omega) hi
    by_contra hge
    exact hnot ⟨hs, hw, by rw [hi, show i = 8 * a.length - 1 by omega]⟩

end Integers

/-- The signed types narrower than `int`. -/
def SearchType.isNarrowSigned (T : SearchType) : Bool := T = int8 || T = int16 || T = int16Re

/-- A flag search of an integer type is exact but for the sign bit of the native number
in the types narrower than `int`. -/
theorem flag_exact_iff [Phosg] {T : SearchType} (hT : T.isIntegerSearchType = true) {a b : Bytes}
    (ha : a.length = T.fieldSize) (hb : b.length = T.fieldSize) :
    ∃ ev, T.evaluator? .flag = some ev ∧ ∀ n, (ev.run a b n = true ↔ OneBitApart a b) ↔
      ¬ (T.isNarrowSigned = true ∧ TopBitApart a b) := by
  have hne : a ≠ [] := List.ne_nil_of_length_pos (ha ▸ fieldSize_pos T)
  -- every integer type has the flag function of a type of its width
  have hrow : ∀ t : IntType, T.evaluator? .flag = some (flagOpFunction t) →
      t.width = 8 * T.fieldSize → (T.isNarrowSigned = true ↔ t.signed = true ∧ t.width < 32) →
      ∃ ev, T.evaluator? .flag = some ev ∧ ∀ n, (ev.run a b n = true ↔ OneBitApart a b) ↔
        ¬ (T.isNarrowSigned = true ∧ TopBitApart a b) := by
    intro t hev hw hnarrow
    refine ⟨_, hev, fun n => ?_⟩
    rw [flagOpFunction_exact_iff (ha ▸ hw) (hb ▸ hw) hne, hnarrow, and_assoc]
  cases T with
  | uint8 => exact hrow ⟨8, false⟩ rfl rfl (by decide)
  | uint16 | uint16Re => exact hrow ⟨16, false⟩ rfl rfl (by decide)
  | uint32 | uint32Re => exact hrow ⟨32, false⟩ rfl rfl (by decide)
  | uint64 | uint64Re => exact hrow ⟨64, false⟩ rfl rfl (by decide)
  | int8 => exact hrow ⟨8, true⟩ rfl rfl (by decide)
  | int16 | int16Re => exact hrow ⟨16, true⟩ rfl rfl (by decide)
  | int32 | int32Re => exact hrow ⟨32, true⟩ rfl rfl (by decide)
  | int64 | int64Re => exact hrow ⟨64, true⟩ rfl rfl (by decide)
  | float | floatRe | double | doubleRe | data => exact absurd hT (by decide)

/-- The flags `0` and `8` of a `uint32`. -/
theorem flag_exact_uint32 :
    let _ := bytewisePhosg
    ∃ ev, SearchType.uint32.evaluator? .flag = some ev ∧
      ∀ n, (ev.run [0, 0, 0, 0] [8, 0, 0, 0] n = true ↔ OneBitApart [0, 0, 0, 0] [8, 0, 0, 0]) ↔
        ¬ (SearchType.uint32.isNarrowSigned = true ∧ TopBitApart [0, 0, 0, 0] [8, 0, 0, 0]) := by
  intro _
  exact flag_exact_iff (by decide) rfl rfl

/-- The sign bit of an `int16`. -/
theorem flag_misses_sign :
    ¬ ∃ ev, (@SearchType.evaluator? bytewisePhosg .int16 .flag) = some ev ∧
      (ev.run [0, 0] [0, 0x80] 2 = true ↔ OneBitApart [0, 0] [0, 0x80]) := by
  rintro ⟨ev, hev, hiff⟩
  obtain rfl := Option.some.inj hev
  have hone : OneBitApart [0, 0] [0, 0x80] := oneBitApart_iff.mpr ⟨15, by decide⟩
  exact absurd (hiff.mpr hone) (by decide)

/-! ## Byte strings -/

section Data

variable {a b : Bytes}

/-- The first bytes differ in one bit below the top one. -/
def FirstByteFlips (a b : Bytes) : Prop :=
  ∃ i, (a.headD 0 ^^^ b.headD 0).toNat = 2 ^ i ∧ i + 1 < 8

theorem flips_iff : ((a.headD 0 ^^^ b.headD 0).toBitVec.signExtend 32 != 0 &&
    (a.headD 0 ^^^ b.headD 0).toBitVec.signExtend 32 &&&
      ((a.headD 0 ^^^ b.headD 0).toBitVec.signExtend 32 - 1) == 0) = true ↔ FirstByteFlips a b :=
  oneBit_iff.trans (exists_signExtend_eq_two_pow (by decide))

/-- Every iteration counts the first byte again, until there are two. -/
theorem dataFlagLoop_of_flips (h : FirstByteFlips a b) (n : Nat) {k : Nat} (hk : k ≤ 2) :
    dataFlagLoop a b n k = min (k + n) 2 := by
  induction n generalizing k with
  | zero => rw [dataFlagLoop, Nat.add_zero, min_eq_left hk]
  | succ n ih =>
    unfold dataFlagLoop
    split
    · next hlt =>
      dsimp only
      rw [if_pos (flips_iff.mpr h), ih hlt]
      omega
    · omega

theorem dataFlagLoop_of_not_flips (h : ¬ FirstByteFlips a b) (n k : Nat) :
    dataFlagLoop a b n k = k := by
  induction n generalizing k with
  | zero => rfl
  | succ n ih =>
    unfold dataFlagLoop
    split
    · dsimp only
      rw [if_neg fun hflips => h (flips_iff.mp hflips), ih]
    · rfl

theorem dataFlag_iff (n : Nat) : dataFlag.run a b n = true ↔ n = 1 ∧ FirstByteFlips a b := by
  unfold dataFlag
  dsimp only
  rw [beq_iff_eq]
  by_cases h : FirstByteFlips a b
  · rw [dataFlagLoop_of_flips h n (Nat.zero_le 2), and_iff_left h]
    omega
  · rw [dataFlagLoop_of_not_flips h]
    exact ⟨nofun, fun ⟨_, hflips⟩ => absurd hflips h⟩

theorem firstByteFlips_iff (ha : a.length = 1) (hb : b.length = 1) :
    FirstByteFlips a b ↔ OneBitApart a b ∧ ¬ TopBitApart a b := by
  obtain ⟨x, rfl⟩ := List.length_eq_one_iff.mp ha
  obtain ⟨y, rfl⟩ := List.length_eq_one_iff.mp hb
  have hxor : leNat [x] ^^^ leNat [y] = (x ^^^ y).toNat := (UInt8.toNat_xor x y).symm
  rw [oneBitApart_iff, topBitApart_iff (List.cons_ne_nil x []), hxor]
  constructor
  · rintro ⟨i, hi, hlt⟩
    refine ⟨⟨i, hi⟩, fun htop => ?_⟩
    have : i = 7 := Nat.pow_right_injective (le_refl 2) (hi.symm.trans htop)
    omega
  · rintro ⟨⟨i, hi⟩, htop⟩
    have hi8 : i < 8 := lt_of_xor_leNat (a := [x]) (b := [y]) rfl (hxor.trans hi)
    refine ⟨i, hi, ?_⟩
    by_contra hge
    exact htop (by rw [hi, show i = 7 by omega]; rfl)

/-- A flag search for data is right for strings that do not differ in exactly one bit, and
for single bytes that differ in another bit than the top one. -/
theorem dataFlag_exact_iff {n : Nat} (ha : a.length = n) (hb : b.length = n) :
    (dataFlag.run a b n = true ↔ OneBitApart a b) ↔
      (OneBitApart a b → n = 1 ∧ ¬ TopBitApart a b) := by
  rw [dataFlag_iff]
  constructor
  · intro hiff hone
    obtain ⟨rfl, hflips⟩ := hiff.mpr hone
    exact ⟨rfl, ((firstByteFlips_iff ha hb).mp hflips).2⟩
  · intro hcond
    refine ⟨?_, fun hone => ?_⟩
    · rintro ⟨rfl, hflips⟩
      exact ((firstByteFlips_iff ha hb).mp hflips).1
    · obtain ⟨rfl, htop⟩ := hcond hone
      exact ⟨rfl, (firstByteFlips_iff ha hb).mpr ⟨hone, htop⟩⟩

theorem dataFlag_exact_byte : (dataFlag.run [3] [1] 1 = true ↔ OneBitApart [3] [1]) ↔
    (OneBitApart [3] [1] → 1 = 1 ∧ ¬ TopBitApart [3] [1]) :=
  dataFlag_exact_iff rfl rfl

/-- A bit of the second byte. -/
theorem dataFlag_misses_second_byte :
    ¬ (dataFlag.run [0, 0] [0, 1] 2 = true ↔ OneBitApart [0, 0] [0, 1]) := by
  intro hiff
  have hone : OneBitApart [0, 0] [0, 1] := oneBitApart_iff.mpr ⟨8, by decide⟩
  exact absurd (hiff.mpr hone) (by decide)

end Data

end Memwatch
