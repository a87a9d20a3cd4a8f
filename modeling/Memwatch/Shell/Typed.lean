import Mathlib.Data.Int.ModEq
import Mathlib.Order.Interval.Set.Defs
import Memwatch.Shell.Model
import Memwatch.Shell.Numbers

/-!
# Typed values

`read_typed_value` parses every integer as an unsigned one of 64 bits, swaps the bytes
that the type has of it and drops the others; `print_search_results` swaps them back. What
is displayed is the integer of the type that is congruent to the one that was written.
-/

namespace Memwatch

open Text

/-! ## Integers of a type -/

namespace IntType

variable {t : IntType}

/-- The integers of the type. -/
def range (t : IntType) : Set Int :=
  if t.signed then Set.Ico (-2 ^ (t.width - 1)) (2 ^ (t.width - 1)) else Set.Ico 0 (2 ^ t.width)

theorem value_mem_range (t : IntType) (x : BitVec t.width) : t.value x ∈ t.range := by
  unfold value range
  split
  · exact ⟨x.le_toInt, x.toInt_lt⟩
  · have hx := x.isLt
    refine ⟨Int.natCast_nonneg _, ?_⟩
    exact_mod_cast hx

theorem value_modEq (t : IntType) (x : BitVec t.width) :
    t.value x ≡ x.toNat [ZMOD 2 ^ t.width] := by
  unfold value
  split
  · rw [BitVec.toInt_eq_toNat_bmod]
    exact_mod_cast Int.bmod_emod
  · rfl

theorem eq_of_modEq (hpos : 0 < t.width) {m n : Int} (hm : m ∈ t.range) (hn : n ∈ t.range)
    (h : m ≡ n [ZMOD 2 ^ t.width]) : m = n := by
  have habs : |n - m| < 2 ^ t.width := by
    unfold range at hm hn
    by_cases hsigned : t.signed = true
    · rw [if_pos hsigned, Set.mem_Ico] at hm hn
      have hhalf : (2 : Int) ^ t.width = 2 * 2 ^ (t.width - 1) := by
        rw [← pow_succ', Nat.sub_add_cancel hpos]
      rw [abs_lt, hhalf]
      omega
    · rw [if_neg hsigned, Set.mem_Ico] at hm hn
      rw [abs_lt]
      omega
  have hzero := Int.eq_zero_of_abs_lt_dvd h.dvd habs
  omega

theorem shown_toLE {k : Nat} (hk : t.width = 8 * k) (n : Nat) :
    t.shown (toLE k n) ≡ n [ZMOD 2 ^ t.width] := by
  have hload : (t.load (toLE k n)).toNat = n % 2 ^ t.width := by
    rw [load, hk, Nat.mul_div_cancel_left k (by omega), List.take_of_length_le
      (by rw [length_toLE]), leNat_toLE, BitVec.toNat_ofNat, Nat.mod_mod]
  have hvalue := value_modEq t (t.load (toLE k n))
  rw [hload] at hvalue
  refine hvalue.trans ?_
  push_cast
  exact Int.mod_modEq _ _

end IntType

namespace SearchType

variable {T : SearchType}

/-- The types whose numbers are printed with a sign. -/
def isSigned : SearchType → Bool
  | int8 | int16 | int16Re | int32 | int32Re | int64 | int64Re => true
  | _ => false

/-- The C type of the member of `PrimitiveValue` that is printed. -/
def intType (T : SearchType) : IntType := ⟨8 * T.valueSizeForSearchType, T.isSigned⟩

/-- Bytes of a number in the byte order of the type. -/
def ordered (T : SearchType) (data : Bytes) : Bytes :=
  if T.isReverseEndianSearchType then data.reverse else data

theorem length_ordered (T : SearchType) (data : Bytes) : (T.ordered data).length = data.length := by
  unfold ordered
  split
  · exact List.length_reverse
  · rfl

theorem printedNumber_eq [Phosg] (hT : T.isIntegerSearchType = true) (data : Bytes) :
    printedNumber T data = some (if T.isReverseEndianSearchType then T.intType.shownRe data
      else T.intType.shown data) := by
  cases T <;> first | rfl | exact absurd hT (by decide)

theorem intType_width (hT : T.isIntegerSearchType = true) :
    0 < T.intType.width ∧ T.intType.width ≤ 64 := by
  cases T <;> first | exact ⟨by decide, by decide⟩ | exact absurd hT (by decide)

theorem printedNumber_bytes [Phosg] [LawfulPhosg] (hT : T.isIntegerSearchType = true) (n : Nat) :
    ∃ shown, printedNumber T (T.ordered (toLE T.valueSizeForSearchType n)) = some shown ∧
      shown ∈ T.intType.range ∧ shown ≡ n [ZMOD 2 ^ T.intType.width] := by
  have hmod := IntType.shown_toLE (t := T.intType) rfl n
  rw [printedNumber_eq hT, ordered]
  split
  · refine ⟨_, rfl, IntType.value_mem_range _ _, ?_⟩
    have hlen : 8 * (toLE T.valueSizeForSearchType n).reverse.length = T.intType.width := by
      rw [List.length_reverse, length_toLE, intType]
    rw [IntType.shownRe, ← load_reverse hlen, List.reverse_reverse]
    exact hmod
  · exact ⟨_, rfl, IntType.value_mem_range _ _, hmod⟩

end SearchType

/-! ## Texts -/

namespace Text

/-- An integer in decimal digits, perhaps after a minus. -/
def InDecimal (s : String) (v : Int) : Prop :=
  ∃ n : Nat, s.toList = Nat.toDigits 10 n ∧ v = n ∨ s.toList = '-' :: Nat.toDigits 10 n ∧ v = -n

/-- An integer is read modulo `2 ^ 64`. -/
theorem stoull_of_inDecimal {s : String} {v : Int} (hs : InDecimal s v) (hv : |v| < 2 ^ 64) :
    ∃ n endPos, stoull s 0 = .ok (n, endPos) ∧ (n : Int) ≡ v [ZMOD 2 ^ 64] := by
  obtain ⟨n, ⟨hs, rfl⟩ | ⟨hs, rfl⟩⟩ := hs
  · rw [Nat.abs_cast] at hv
    rw [← List.append_nil (Nat.toDigits 10 n)] at hs
    exact ⟨n, _, stoull_count hs ends_nil (by exact_mod_cast hv), rfl⟩
  · rw [abs_neg, Nat.abs_cast] at hv
    have hlt : n < 2 ^ 64 := by exact_mod_cast hv
    obtain ⟨endPos, hstoull⟩ := stoull_minus_count hs hlt
    refine ⟨_, endPos, hstoull, ?_⟩
    unfold Int.ModEq sub64
    omega

end Text

/-! ## Values -/

namespace MemwatchShell

section Values

variable [Phosg] [PhosgText] [FloatText] {T : SearchType} {s : String}

theorem readTypedValue_eq [LawfulPhosg] (hT : T.isIntegerSearchType = true) {n endPos : Nat}
    (hs : stoull s 0 = .ok (n, endPos)) :
    readTypedValue T s = .ok (T.ordered (toLE T.valueSizeForSearchType n)) := by
  have hdata : T ≠ .data := by rintro rfl; exact absurd hT (by decide)
  have hwidth : 8 * T.valueSizeForSearchType ≤ 64 := (SearchType.intType_width hT).2
  unfold readTypedValue
  rw [if_pos hT, hs]
  show Except.ok (if T = .data then _ else List.take _ _) = _
  rw [if_neg hdata]
  rw [SearchType.ordered]
  congr 1
  split
  · -- the swap leaves the bytes in the other order
    have hlen : (toLE T.valueSizeForSearchType n).reverse.length = T.valueSizeForSearchType := by
      rw [List.length_reverse, length_toLE]
    have hswap := LawfulPhosg.bswap_leNat (toLE T.valueSizeForSearchType n)
    rw [length_toLE] at hswap
    rw [take_toLE (by omega), hswap, BitVec.toNat_ofNat, Nat.mod_eq_of_lt (by
      have hlt := leNat_lt (toLE T.valueSizeForSearchType n).reverse
      rwa [hlen] at hlt), List.take_append_of_le_length (by rw [length_toLE]),
      List.take_of_length_le (by rw [length_toLE])]
    have hbytes := toLE_leNat (toLE T.valueSizeForSearchType n).reverse
    rwa [hlen] at hbytes
  · exact take_toLE (by omega) n

/-- An integer that is written for a type has the size of the type, and is displayed as the
only integer of the type that is congruent to it. -/
theorem typed_values_survive [LawfulPhosg] (hT : T.isIntegerSearchType = true) {v : Int}
    (hs : InDecimal s v) (hv : |v| < 2 ^ 64) :
    ∃ data shown, readTypedValue T s = .ok data ∧ data.length = T.valueSizeForSearchType ∧
      printedNumber T data = some shown ∧
      (∀ n, n = shown ↔ n ∈ T.intType.range ∧ n ≡ v [ZMOD 2 ^ T.intType.width]) ∧
      (v ∈ T.intType.range → shown = v) := by
  obtain ⟨n, endPos, hstoull, hmod⟩ := stoull_of_inDecimal hs hv
  obtain ⟨hpos, hle⟩ := SearchType.intType_width hT
  have hmod : (n : Int) ≡ v [ZMOD 2 ^ T.intType.width] := hmod.of_dvd (pow_dvd_pow 2 hle)
  obtain ⟨shown, hprinted, hmem, hcongr⟩ := SearchType.printedNumber_bytes hT n
  have hcongr := hcongr.trans hmod
  refine ⟨_, shown, readTypedValue_eq hT hstoull, ?_, hprinted, fun m => ⟨?_, ?_⟩, ?_⟩
  · rw [SearchType.length_ordered, length_toLE]
  · rintro rfl
    exact ⟨hmem, hcongr⟩
  · rintro ⟨hm, hmv⟩
    exact IntType.eq_of_modEq hpos hm hmem (hmv.trans hcongr.symm)
  · intro hv
    exact IntType.eq_of_modEq hpos hmem hv hcongr

end Values

open Plain in
/-- A number of a signed reverse-endian type. -/
theorem typed_values_survive_minus : ∃ data shown,
    readTypedValue .int16Re "-300" = .ok data ∧
      data.length = SearchType.int16Re.valueSizeForSearchType ∧
      printedNumber .int16Re data = some shown ∧
      (∀ n, n = shown ↔ n ∈ SearchType.int16Re.intType.range ∧
        n ≡ -300 [ZMOD 2 ^ SearchType.int16Re.intType.width]) ∧
      (-300 ∈ SearchType.int16Re.intType.range → shown = -300) := by
  have hlawful : LawfulPhosg := bytewisePhosg_lawful
  exact typed_values_survive rfl ⟨300, .inr ⟨by decide, rfl⟩⟩ (by decide)

end MemwatchShell

end Memwatch
