import Memwatch.Search.Evaluators

/-!
# Comparisons and the numbers the program displays

`printedNumber` is the number `print_search_results` prints for the bytes of a
result. A comparison evaluator agrees with it except where a signed
reverse-endian type is ordered: `bswapN` returns an unsigned type, so those
comparisons put negative numbers above the others.
-/

namespace Memwatch

/-! ## Displayed numbers -/

namespace SearchType

/-- `(int)type < (int)Type::FLOAT`. -/
def isIntegerSearchType (T : SearchType) : Bool := T.ctorIdx < SearchType.float.ctorIdx

/-- The native-endian type of the same width and signedness. -/
def native : SearchType → SearchType
  | uint16Re => uint16
  | uint32Re => uint32
  | uint64Re => uint64
  | int16Re => int16
  | int32Re => int32
  | int64Re => int64
  | floatRe => float
  | doubleRe => double
  | T => T

end SearchType

/-- A case of the switch in `print_search_results` that prints as it reads. -/
def IntType.shown (t : IntType) (data : Bytes) : Int := t.value (t.load data)

/-- A case that swaps the bytes in place first and falls through. -/
def IntType.shownRe [Phosg] (t : IntType) (data : Bytes) : Int :=
  t.value (Phosg.bswap t.width (t.load data))

/-- The number printed for a result, where the type prints an integer. -/
def printedNumber [Phosg] : SearchType → Bytes → Option Int
  | .uint8, data => some (IntType.shown ⟨8, false⟩ data)
  | .uint16Re, data => some (IntType.shownRe ⟨16, false⟩ data)
  | .uint16, data => some (IntType.shown ⟨16, false⟩ data)
  | .uint32Re, data => some (IntType.shownRe ⟨32, false⟩ data)
  | .uint32, data => some (IntType.shown ⟨32, false⟩ data)
  | .uint64Re, data => some (IntType.shownRe ⟨64, false⟩ data)
  | .uint64, data => some (IntType.shown ⟨64, false⟩ data)
  | .int8, data => some (IntType.shown ⟨8, true⟩ data)
  | .int16Re, data => some (IntType.shownRe ⟨16, true⟩ data)
  | .int16, data => some (IntType.shown ⟨16, true⟩ data)
  | .int32Re, data => some (IntType.shownRe ⟨32, true⟩ data)
  | .int32, data => some (IntType.shown ⟨32, true⟩ data)
  | .int64Re, data => some (IntType.shownRe ⟨64, true⟩ data)
  | .int64, data => some (IntType.shown ⟨64, true⟩ data)
  | .float, _ | .floatRe, _ | .double, _ | .doubleRe, _ | .data, _ => none

/-- The predicate an operator is searched with. -/
def CmpOp.predicate : CmpOp → Predicate
  | lt => .less
  | gt => .greater
  | le => .lessOrEqual
  | ge => .greaterOrEqual
  | eq => .equal
  | ne => .notEqual

/-! ## Agreement -/

theorem holds_toNat_iff_toInt {w : Nat} (op : CmpOp) (x y : BitVec w) :
    op.holds x.toNat y.toNat = op.holds x.toInt y.toInt ↔
      op = .eq ∨ op = .ne ∨ (x.toInt < 0 ↔ y.toInt < 0) := by
  have hx := x.isLt
  have hy := y.isLt
  rw [BitVec.toInt_eq_toNat_cond, BitVec.toInt_eq_toNat_cond]
  generalize x.toNat = m at *
  generalize y.toNat = n at *
  generalize 2 ^ w = k at *
  cases op <;> simp only [CmpOp.holds, decide_eq_decide, reduceCtorEq, false_or, true_or, iff_true,
    or_true] <;> split <;> split <;> omega

section Agreement

variable [Phosg]

/-- The evaluator of `(T, op)` orders two cells as the numbers printed for them. -/
def AgreesWithDisplay (T : SearchType) (op : CmpOp) (a b : Bytes) : Prop :=
  ∃ ev va vb, T.evaluator? op.predicate = some ev ∧ printedNumber T a = some va ∧
    printedNumber T b = some vb ∧ ∀ n, ev.run a b n = op.holds va vb

/-- The evaluator of `(T, op)` does on two cells what the native one does on
the cells with their bytes reversed. -/
def AgreesWithNative (T : SearchType) (op : CmpOp) (a b : Bytes) : Prop :=
  ∃ ev ev', T.evaluator? op.predicate = some ev ∧ T.native.evaluator? op.predicate = some ev' ∧
    ∀ n, ev.run a b n = ev'.run a.reverse b.reverse n

/-- The number printed for a cell is negative. -/
def Negative (T : SearchType) (a : Bytes) : Prop := ∃ v ∈ printedNumber T a, v < 0

/-- The order of the swapped patterns is the order of the printed numbers: the
type is not signed reverse-endian, or the operator does not order, or the two
numbers have the same sign. -/
def OrderKept (T : SearchType) (op : CmpOp) (a b : Bytes) : Prop :=
  (T ≠ .int16Re ∧ T ≠ .int32Re ∧ T ≠ .int64Re) ∨ op = .eq ∨ op = .ne ∨
    (Negative T a ↔ Negative T b)

/-- A reverse-endian comparison agrees with what is printed exactly when the
type is unsigned, the operator does not order, or the signs are the same. -/
theorem intOpFunctionRe_agrees_iff (t : IntType) (op : CmpOp) (a b : Bytes) (n : Nat) :
    (intOpFunctionRe t op).run a b n = op.holds (t.shownRe a) (t.shownRe b) ↔
      t.signed = false ∨ op = .eq ∨ op = .ne ∨ (t.shownRe a < 0 ↔ t.shownRe b < 0) := by
  simp only [intOpFunctionRe, IntType.shownRe, IntType.value]
  cases t.signed with
  | false => simp
  | true => simpa using holds_toNat_iff_toInt op _ _

theorem evaluator?_cmp {T : SearchType} {ops : CmpOp → Evaluator} {flag : Option Evaluator}
    (h : (searchTypeConfigs T).evaluators = functionPointers ops flag) (op : CmpOp) :
    T.evaluator? op.predicate = some (ops op) := by
  rw [SearchType.evaluator?, h]; cases op <;> rfl

theorem load_reverse [LawfulPhosg] {t : IntType} {a : Bytes} (h : 8 * a.length = t.width) :
    t.load a.reverse = Phosg.bswap t.width (t.load a) := by
  obtain ⟨w, s⟩ := t
  simp only at h
  subst h
  have hlen : 8 * a.length / 8 = a.length := by omega
  simp only [IntType.load, hlen]
  rw [List.take_of_length_le (le_refl _), List.take_of_length_le (by simp)]
  exact (LawfulPhosg.bswap_leNat a).symm

theorem negative_iff {T : SearchType} {a : Bytes} {v : Int} (h : printedNumber T a = some v) :
    Negative T a ↔ v < 0 := by
  simp [Negative, h]

variable {T : SearchType} {t : IntType} {flag : Option Evaluator} {a b : Bytes}

theorem agreesWithDisplay_native
    (hev : (searchTypeConfigs T).evaluators = functionPointers (opFunction t) flag)
    (hpr : ∀ c, printedNumber T c = some (t.shown c)) (op : CmpOp) :
    AgreesWithDisplay T op a b :=
  ⟨_, _, _, evaluator?_cmp hev op, hpr a, hpr b, fun _ => rfl⟩

/-- Reverse-endian types agree with what is printed unless signs differ. -/
theorem agreesWithDisplay_re_iff
    (hev : (searchTypeConfigs T).evaluators = functionPointers (intOpFunctionRe t) flag)
    (hpr : ∀ c, printedNumber T c = some (t.shownRe c)) (op : CmpOp) :
    AgreesWithDisplay T op a b ↔
      t.signed = false ∨ op = .eq ∨ op = .ne ∨ (Negative T a ↔ Negative T b) := by
  rw [negative_iff (hpr a), negative_iff (hpr b)]
  constructor
  · rintro ⟨ev, va, vb, he, ha, hb, hrun⟩
    rw [evaluator?_cmp hev, Option.some.injEq] at he
    rw [hpr, Option.some.injEq] at ha hb
    subst he ha hb
    exact (intOpFunctionRe_agrees_iff t op a b 0).mp (hrun 0)
  · intro h
    exact ⟨_, _, _, evaluator?_cmp hev op, hpr a, hpr b,
      fun n => (intOpFunctionRe_agrees_iff t op a b n).mpr h⟩

/-- On cells of the type's width, what the native evaluator does on the reversed
bytes is what the display does on the cells. -/
theorem agreesWithNative_iff [LawfulPhosg]
    (hpr : ∀ c, printedNumber T c = some (t.shownRe c))
    (hna : (searchTypeConfigs T.native).evaluators = functionPointers (opFunction t) flag)
    (op : CmpOp) (ha : 8 * a.length = t.width) (hb : 8 * b.length = t.width) :
    AgreesWithNative T op a b ↔ AgreesWithDisplay T op a b := by
  have hrev : ∀ n, (opFunction t op).run a.reverse b.reverse n =
      op.holds (t.shownRe a) (t.shownRe b) := fun n => by
    simp only [opFunction, load_reverse ha, load_reverse hb]; rfl
  constructor
  · rintro ⟨ev, ev', he, he', hrun⟩
    rw [evaluator?_cmp hna, Option.some.injEq] at he'
    subst he'
    exact ⟨ev, _, _, he, hpr a, hpr b, fun n => (hrun n).trans (hrev n)⟩
  · rintro ⟨ev, va, vb, he, hva, hvb, hrun⟩
    rw [hpr, Option.some.injEq] at hva hvb
    subst hva hvb
    exact ⟨ev, _, he, evaluator?_cmp hna op, fun n => (hrun n).trans (hrev n).symm⟩

theorem native_row_agrees
    (hev : (searchTypeConfigs T).evaluators = functionPointers (opFunction t) flag)
    (hpr : ∀ c, printedNumber T c = some (t.shown c))
    (hne : T ≠ .int16Re ∧ T ≠ .int32Re ∧ T ≠ .int64Re)
    (hre : T.isReverseEndianSearchType = false) (op : CmpOp) :
    (AgreesWithDisplay T op a b ↔ OrderKept T op a b) ∧ (T.isReverseEndianSearchType = true →
      (AgreesWithNative T op a b ↔ OrderKept T op a b)) := by
  constructor
  · exact iff_of_true (agreesWithDisplay_native hev hpr op) (.inl hne)
  · intro h
    rw [hre] at h
    cases h

theorem reverse_row_agrees [LawfulPhosg]
    (hev : (searchTypeConfigs T).evaluators = functionPointers (intOpFunctionRe t) flag)
    (hpr : ∀ c, printedNumber T c = some (t.shownRe c))
    (hna : (searchTypeConfigs T.native).evaluators = functionPointers (opFunction t) flag)
    (hw : 8 * T.fieldSize = t.width)
    (hs : t.signed = false ↔ T ≠ .int16Re ∧ T ≠ .int32Re ∧ T ≠ .int64Re) (op : CmpOp)
    (ha : a.length = T.fieldSize) (hb : b.length = T.fieldSize) :
    (AgreesWithDisplay T op a b ↔ OrderKept T op a b) ∧ (T.isReverseEndianSearchType = true →
      (AgreesWithNative T op a b ↔ OrderKept T op a b)) := by
  have hdisp : AgreesWithDisplay T op a b ↔ OrderKept T op a b := by
    rw [agreesWithDisplay_re_iff hev hpr, OrderKept, hs]
  have hnative := agreesWithNative_iff hpr hna op (by rw [ha, hw]) (by rw [hb, hw])
  exact ⟨hdisp, fun _ => hnative.trans hdisp⟩

/-- Comparisons agree with the displayed numbers, and reverse-endian ones with
the native ones on reversed cells, exactly when the order is kept. -/
theorem cells_agree_iff [LawfulPhosg] (hT : T.isIntegerSearchType = true) (op : CmpOp)
    (ha : a.length = T.fieldSize) (hb : b.length = T.fieldSize) :
    (AgreesWithDisplay T op a b ↔ OrderKept T op a b) ∧ (T.isReverseEndianSearchType = true →
      (AgreesWithNative T op a b ↔ OrderKept T op a b)) := by
  cases T with
  | uint8 => exact native_row_agrees (t := ⟨8, false⟩) rfl (fun _ => rfl) (by decide) rfl op
  | uint16 => exact native_row_agrees (t := ⟨16, false⟩) rfl (fun _ => rfl) (by decide) rfl op
  | uint32 => exact native_row_agrees (t := ⟨32, false⟩) rfl (fun _ => rfl) (by decide) rfl op
  | uint64 => exact native_row_agrees (t := ⟨64, false⟩) rfl (fun _ => rfl) (by decide) rfl op
  | int8 => exact native_row_agrees (t := ⟨8, true⟩) rfl (fun _ => rfl) (by decide) rfl op
  | int16 => exact native_row_agrees (t := ⟨16, true⟩) rfl (fun _ => rfl) (by decide) rfl op
  | int32 => exact native_row_agrees (t := ⟨32, true⟩) rfl (fun _ => rfl) (by decide) rfl op
  | int64 => exact native_row_agrees (t := ⟨64, true⟩) rfl (fun _ => rfl) (by decide) rfl op
  | uint16Re =>
    exact reverse_row_agrees (t := ⟨16, false⟩) rfl (fun _ => rfl) rfl rfl (by decide) op ha hb
  | uint32Re =>
    exact reverse_row_agrees (t := ⟨32, false⟩) rfl (fun _ => rfl) rfl rfl (by decide) op ha hb
  | uint64Re =>
    exact reverse_row_agrees (t := ⟨64, false⟩) rfl (fun _ => rfl) rfl rfl (by decide) op ha hb
  | int16Re =>
    exact reverse_row_agrees (t := ⟨16, true⟩) rfl (fun _ => rfl) rfl rfl (by decide) op ha hb
  | int32Re =>
    exact reverse_row_agrees (t := ⟨32, true⟩) rfl (fun _ => rfl) rfl rfl (by decide) op ha hb
  | int64Re =>
    exact reverse_row_agrees (t := ⟨64, true⟩) rfl (fun _ => rfl) rfl rfl (by decide) op ha hb
  | float | floatRe | double | doubleRe | data => exact absurd hT (by decide)

end Agreement

end Memwatch
