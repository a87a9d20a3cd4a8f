import Memwatch.Search.ByteOrder

/-!
# Search types and their evaluators

The comparison functions that `MemorySearch.cc` generates for each pair of
operation and data type, and the table `search_type_configs` that selects
them. An evaluator gets two pointers, here the bytes from each pointer to the
end of its buffer, and a size; `reads` is the number of bytes it dereferences
from each. The host is little-endian; the byte swaps are phosg's.
-/

namespace Memwatch

inductive SearchType where
  | uint8 | uint16 | uint16Re | uint32 | uint32Re | uint64 | uint64Re
  | int8 | int16 | int16Re | int32 | int32Re | int64 | int64Re
  | float | floatRe | double | doubleRe
  | data
  deriving DecidableEq, Repr

inductive Predicate where
  | less | greater | lessOrEqual | greaterOrEqual | equal | notEqual | flag | all
  deriving DecidableEq, Repr

/-- The operators the macros are instantiated with. -/
inductive CmpOp where
  | lt | gt | le | ge | eq | ne
  deriving DecidableEq, Repr

def CmpOp.holds : CmpOp → Int → Int → Bool
  | lt, x, y => x < y
  | gt, x, y => x > y
  | le, x, y => x ≤ y
  | ge, x, y => x ≥ y
  | eq, x, y => x = y
  | ne, x, y => x ≠ y

/-- A comparison function. -/
structure Evaluator where
  /-- Bytes dereferenced from each pointer for a given `size` argument. -/
  reads : Nat → Nat
  run : Bytes → Bytes → Nat → Bool

def nullPred : Evaluator := ⟨fun _ => 0, fun _ _ _ => true⟩

/-! ## Integers -/

/-- A C integer type: `uint8_t` to `int64_t`. -/
structure IntType where
  width : Nat
  signed : Bool
  deriving DecidableEq, Repr

namespace IntType

/-- `*a` for a pointer to this type. -/
def load (t : IntType) (a : Bytes) : BitVec t.width :=
  BitVec.ofNat t.width (leNat (a.take (t.width / 8)))

/-- The integer a bit pattern of this type stands for. -/
def value (t : IntType) (x : BitVec t.width) : Int := if t.signed then x.toInt else x.toNat

/-- Integer promotion: operands narrower than `int` are converted to it. -/
def promote (t : IntType) (x : BitVec t.width) : BitVec (max t.width 32) :=
  if t.signed then x.signExtend _ else x.setWidth _

end IntType

/-- `DECLARE_OP_FUNCTION` at an integer type. -/
def opFunction (t : IntType) (op : CmpOp) : Evaluator :=
  ⟨fun _ => t.width / 8, fun a b _ => op.holds (t.value (t.load a)) (t.value (t.load b))⟩

/-- `DECLARE_INT_OP_FUNCTION_RE`: `bswap` returns an unsigned type, so both
operands are unsigned whatever `t` is. -/
def intOpFunctionRe [Phosg] (t : IntType) (op : CmpOp) : Evaluator :=
  ⟨fun _ => t.width / 8, fun a b _ =>
    op.holds (Phosg.bswap t.width (t.load a)).toNat (Phosg.bswap t.width (t.load b)).toNat⟩

/-- `DECLARE_FLAG_OP_FUNCTION`; the subtraction wraps around. -/
def flagOpFunction (t : IntType) : Evaluator :=
  ⟨fun _ => t.width / 8, fun a b _ =>
    let axb := t.promote (t.load a) ^^^ t.promote (t.load b)
    axb != 0 && axb &&& (axb - 1) == 0⟩

/-! ## Floating point -/

/-- An IEEE 754 binary format. -/
structure FloatType where
  width : Nat
  mantissaBits : Nat

namespace FloatType

def bits (f : FloatType) (a : Bytes) : BitVec f.width :=
  BitVec.ofNat f.width (leNat (a.take (f.width / 8)))

/-- The pattern without its sign. -/
def magnitude (f : FloatType) (x : BitVec f.width) : Nat := x.toNat % 2 ^ (f.width - 1)

def isNaN (f : FloatType) (x : BitVec f.width) : Bool :=
  2 ^ (f.width - 1) - 2 ^ f.mantissaBits < f.magnitude x

/-- Orders the patterns that are not NaN as their values; both zeros are `0`. -/
def key (f : FloatType) (x : BitVec f.width) : Int :=
  if x.msb then -(f.magnitude x) else f.magnitude x

/-- `a op b`: NaN is unordered and unequal to everything. -/
def cmp (f : FloatType) (op : CmpOp) (x y : BitVec f.width) : Bool :=
  if f.isNaN x || f.isNaN y then op = .ne else op.holds (f.key x) (f.key y)

end FloatType

/-- `DECLARE_OP_FUNCTION` at a floating-point type. -/
def floatOpFunction (f : FloatType) (op : CmpOp) : Evaluator :=
  ⟨fun _ => f.width / 8, fun a b _ => f.cmp op (f.bits a) (f.bits b)⟩

/-- `DECLARE_FLOAT_OP_FUNCTION_RE`. -/
def floatOpFunctionRe [Phosg] (f : FloatType) (op : CmpOp) : Evaluator :=
  ⟨fun _ => f.width / 8, fun a b _ =>
    f.cmp op (Phosg.bswap f.width (f.bits a)) (Phosg.bswap f.width (f.bits b))⟩

/-! ## Byte strings -/

/-- `DECLARE_DATA_OP_FUNCTION`. -/
def dataOpFunction (op : CmpOp) : Evaluator :=
  ⟨fun size => size, fun a b size => op.holds (memcmp a b size) 0⟩

/-- The loop of `data_flag`: `n` iterations left. Every iteration looks at the
first byte of each string; `char` is signed. -/
def dataFlagLoop (a b : Bytes) : Nat → Nat → Nat
  | 0, bitFound => bitFound
  | n + 1, bitFound =>
    if bitFound < 2 then
      let axb := (a.headD 0 ^^^ b.headD 0).toBitVec.signExtend 32
      dataFlagLoop a b n (if axb != 0 && axb &&& (axb - 1) == 0 then bitFound + 1 else bitFound)
    else bitFound

def dataFlag : Evaluator :=
  ⟨fun size => min size 1, fun a b size => dataFlagLoop a b size 0 == 1⟩

/-! ## The table -/

/-- The rows of function pointers: a comparison for each operator, the flag
function if there is one, and `null_pred`. -/
def functionPointers (ops : CmpOp → Evaluator) (flag : Option Evaluator) :
    Predicate → Option Evaluator
  | .less => some (ops .lt)
  | .greater => some (ops .gt)
  | .lessOrEqual => some (ops .le)
  | .greaterOrEqual => some (ops .ge)
  | .equal => some (ops .eq)
  | .notEqual => some (ops .ne)
  | .flag => flag
  | .all => some nullPred

structure SearchTypeConfig where
  evaluators : Predicate → Option Evaluator
  fieldSize : Nat

def infixFunctionPointersForType (t : IntType) : Predicate → Option Evaluator :=
  functionPointers (opFunction t) (some (flagOpFunction t))

def infixFunctionPointersForTypeRe [Phosg] (t : IntType) : Predicate → Option Evaluator :=
  functionPointers (intOpFunctionRe t) (some (flagOpFunction t))

def infixFunctionPointersForTypeNoflag (f : FloatType) : Predicate → Option Evaluator :=
  functionPointers (floatOpFunction f) none

def infixFunctionPointersForTypeReNoflag [Phosg] (f : FloatType) : Predicate → Option Evaluator :=
  functionPointers (floatOpFunctionRe f) none

def searchTypeConfigs [Phosg] : SearchType → SearchTypeConfig
  | .uint8 => ⟨infixFunctionPointersForType ⟨8, false⟩, 1⟩
  | .uint16 => ⟨infixFunctionPointersForType ⟨16, false⟩, 2⟩
  | .uint16Re => ⟨infixFunctionPointersForTypeRe ⟨16, false⟩, 2⟩
  | .uint32 => ⟨infixFunctionPointersForType ⟨32, false⟩, 4⟩
  | .uint32Re => ⟨infixFunctionPointersForTypeRe ⟨32, false⟩, 4⟩
  | .uint64 => ⟨infixFunctionPointersForType ⟨64, false⟩, 8⟩
  | .uint64Re => ⟨infixFunctionPointersForTypeRe ⟨64, false⟩, 8⟩
  | .int8 => ⟨infixFunctionPointersForType ⟨8, true⟩, 1⟩
  | .int16 => ⟨infixFunctionPointersForType ⟨16, true⟩, 2⟩
  | .int16Re => ⟨infixFunctionPointersForTypeRe ⟨16, true⟩, 2⟩
  | .int32 => ⟨infixFunctionPointersForType ⟨32, true⟩, 4⟩
  | .int32Re => ⟨infixFunctionPointersForTypeRe ⟨32, true⟩, 4⟩
  | .int64 => ⟨infixFunctionPointersForType ⟨64, true⟩, 8⟩
  | .int64Re => ⟨infixFunctionPointersForTypeRe ⟨64, true⟩, 8⟩
  | .float => ⟨infixFunctionPointersForTypeNoflag ⟨32, 23⟩, 4⟩
  | .floatRe => ⟨infixFunctionPointersForTypeReNoflag ⟨32, 23⟩, 4⟩
  | .double => ⟨infixFunctionPointersForTypeNoflag ⟨64, 52⟩, 8⟩
  | .doubleRe => ⟨infixFunctionPointersForTypeReNoflag ⟨64, 52⟩, 8⟩
  | .data => ⟨functionPointers dataOpFunction (some dataFlag), 1⟩

namespace SearchType

/-- The evaluator selected for a type and a predicate, if there is one. -/
def evaluator? [Phosg] (T : SearchType) (p : Predicate) : Option Evaluator :=
  (searchTypeConfigs T).evaluators p

/-- The `field_size` of the type's row. -/
def fieldSize [Phosg] (T : SearchType) : Nat := (searchTypeConfigs T).fieldSize

def isReverseEndianSearchType (T : SearchType) : Bool :=
  T = uint16Re || T = int16Re || T = uint32Re || T = int32Re || T = uint64Re || T = int64Re ||
    T = floatRe || T = doubleRe

def valueSizeForSearchType : SearchType → Nat
  | uint8 | int8 => 1
  | uint16 | uint16Re | int16 | int16Re => 2
  | uint32 | uint32Re | int32 | int32Re | float | floatRe => 4
  | uint64 | uint64Re | int64 | int64Re | double | doubleRe => 8
  | data => 0

/-- The bytes a comparison of this type is about, for a given `size` argument:
the cell of a fixed-width type, the given size for `data`. -/
def cellWidth [Phosg] (T : SearchType) (size : Nat) : Nat := if T = data then size else T.fieldSize

end SearchType

/-! ## What evaluators read -/

namespace Evaluator

/-- The answer depends on the first `reads` bytes at each pointer only. -/
def Local (ev : Evaluator) : Prop :=
  ∀ a b n, ev.run (a.take (ev.reads n)) (b.take (ev.reads n)) n = ev.run a b n

theorem Local.run_congr {ev : Evaluator} (h : ev.Local) {a a' b b' : Bytes} {n : Nat}
    (ha : a.take (ev.reads n) = a'.take (ev.reads n))
    (hb : b.take (ev.reads n) = b'.take (ev.reads n)) : ev.run a b n = ev.run a' b' n := by
  rw [← h a b n, ha, hb, h a' b' n]

end Evaluator

theorem nullPred_local : nullPred.Local := fun _ _ _ => rfl

theorem IntType.load_take (t : IntType) (a : Bytes) : t.load (a.take (t.width / 8)) = t.load a := by
  simp [IntType.load, List.take_take]

theorem FloatType.bits_take (f : FloatType) (a : Bytes) :
    f.bits (a.take (f.width / 8)) = f.bits a := by
  simp [FloatType.bits, List.take_take]

theorem dataFlagLoop_congr {a b a' b' : Bytes} (ha : a.headD 0 = a'.headD 0)
    (hb : b.headD 0 = b'.headD 0) (n k : Nat) :
    dataFlagLoop a b n k = dataFlagLoop a' b' n k := by
  induction n generalizing k with
  | zero => rfl
  | succ n ih => simp only [dataFlagLoop, ha, hb, ih]

theorem dataFlag_local : dataFlag.Local := by
  intro a b n
  cases n with
  | zero => rfl
  | succ n =>
    have hhead : ∀ c : Bytes, (c.take (min (n + 1) 1)).headD 0 = c.headD 0 := fun c => by
      rw [show min (n + 1) 1 = 1 by omega]; cases c <;> rfl
    simp only [dataFlag, dataFlagLoop_congr (hhead a) (hhead b)]

theorem forall_functionPointers {P : Evaluator → Prop} {ops : CmpOp → Evaluator}
    {flag : Option Evaluator} (hops : ∀ op, P (ops op)) (hflag : ∀ ev, flag = some ev → P ev)
    {p : Predicate} (hnull : p = .all → P nullPred) {ev : Evaluator}
    (h : functionPointers ops flag p = some ev) : P ev := by
  cases p <;> simp only [functionPointers, Option.some.injEq] at h <;>
    first | exact h ▸ hops _ | exact hflag ev h | exact h ▸ hnull rfl

section Table

variable [Phosg] {T : SearchType} {p : Predicate} {ev : Evaluator}

theorem forall_evaluators {P : SearchType → Evaluator → Prop}
    (hint : ∀ T t, 8 * T.fieldSize = t.width → T ≠ .data →
      (∀ op, P T (opFunction t op)) ∧ (∀ op, P T (intOpFunctionRe t op)) ∧ P T (flagOpFunction t))
    (hfloat : ∀ T f, 8 * T.fieldSize = f.width → T ≠ .data →
      (∀ op, P T (floatOpFunction f op)) ∧ ∀ op, P T (floatOpFunctionRe f op))
    (hdata : (∀ op, P .data (dataOpFunction op)) ∧ P .data dataFlag)
    (hnull : p = .all → ∀ T, P T nullPred) (h : T.evaluator? p = some ev) : P T ev := by
  have hrow : ∀ {T ops flag}, (∀ op, P T (ops op)) → (∀ ev, flag = some ev → P T ev) →
      functionPointers ops flag p = some ev → P T ev :=
    fun hops hflag => forall_functionPointers hops hflag fun hp => hnull hp _
  have hi : ∀ {T t}, 8 * T.fieldSize = t.width → T ≠ .data →
      functionPointers (opFunction t) (some (flagOpFunction t)) p = some ev → P T ev :=
    fun hw hT => hrow (hint _ _ hw hT).1 fun _ hf => Option.some.inj hf ▸ (hint _ _ hw hT).2.2
  have hir : ∀ {T t}, 8 * T.fieldSize = t.width → T ≠ .data →
      functionPointers (intOpFunctionRe t) (some (flagOpFunction t)) p = some ev → P T ev :=
    fun hw hT => hrow (hint _ _ hw hT).2.1 fun _ hf => Option.some.inj hf ▸ (hint _ _ hw hT).2.2
  have hf : ∀ {T f}, 8 * T.fieldSize = f.width → T ≠ .data →
      functionPointers (floatOpFunction f) none p = some ev → P T ev :=
    fun hw hT => hrow (hfloat _ _ hw hT).1 fun _ hn => nomatch hn
  have hfr : ∀ {T f}, 8 * T.fieldSize = f.width → T ≠ .data →
      functionPointers (floatOpFunctionRe f) none p = some ev → P T ev :=
    fun hw hT => hrow (hfloat _ _ hw hT).2 fun _ hn => nomatch hn
  cases T with
  | uint8 | uint16 | uint32 | uint64 | int8 | int16 | int32 | int64 => exact hi rfl nofun h
  | uint16Re | uint32Re | uint64Re | int16Re | int32Re | int64Re => exact hir rfl nofun h
  | float | double => exact hf rfl nofun h
  | floatRe | doubleRe => exact hfr rfl nofun h
  | data => exact hrow hdata.1 (fun _ hn => Option.some.inj hn ▸ hdata.2) h

theorem fieldSize_cases (T : SearchType) :
    T.fieldSize = 1 ∨ T.fieldSize = 2 ∨ T.fieldSize = 4 ∨ T.fieldSize = 8 := by
  cases T <;> simp [SearchType.fieldSize, searchTypeConfigs]

theorem fieldSize_pos (T : SearchType) : 0 < T.fieldSize := by
  have := fieldSize_cases T; omega

theorem evaluator_local (h : T.evaluator? p = some ev) : ev.Local := by
  refine forall_evaluators (P := fun _ ev => ev.Local) ?_ ?_ ?_ (fun _ _ => nullPred_local) h
  · exact fun T t _ _ => ⟨fun op a b n => by simp only [opFunction, IntType.load_take],
      fun op a b n => by simp only [intOpFunctionRe, IntType.load_take],
      fun a b n => by simp only [flagOpFunction, IntType.load_take]⟩
  · exact fun T f _ _ => ⟨fun op a b n => by simp only [floatOpFunction, FloatType.bits_take],
      fun op a b n => by simp only [floatOpFunctionRe, FloatType.bits_take]⟩
  · exact ⟨fun op a b n => by simp only [dataOpFunction, memcmp_take], dataFlag_local⟩

/-- No evaluator dereferences more than the cell it compares. -/
theorem reads_le_cellWidth (h : T.evaluator? p = some ev) (n : Nat) :
    ev.reads n ≤ T.cellWidth n := by
  refine forall_evaluators (P := fun T ev => ev.reads n ≤ T.cellWidth n) ?_ ?_ ?_ ?_ h
  · intro T t hw hT
    simp only [SearchType.cellWidth, if_neg hT, opFunction, intOpFunctionRe, flagOpFunction]
    exact ⟨fun _ => by omega, fun _ => by omega, by omega⟩
  · intro T f hw hT
    simp only [SearchType.cellWidth, if_neg hT, floatOpFunction, floatOpFunctionRe]
    exact ⟨fun _ => by omega, fun _ => by omega⟩
  · simp only [SearchType.cellWidth, ↓reduceIte, dataOpFunction, dataFlag]
    exact ⟨fun _ => le_refl _, Nat.min_le_left _ _⟩
  · exact fun _ T => Nat.zero_le _

/-- Every evaluator but that of `all` looks at a field of its operands. -/
theorem fieldSize_le_reads (hp : p ≠ .all) (h : T.evaluator? p = some ev) {n : Nat} (hn : 0 < n) :
    T.fieldSize ≤ ev.reads n := by
  refine forall_evaluators (P := fun T ev => T.fieldSize ≤ ev.reads n) ?_ ?_ ?_
    (fun ha => absurd ha hp) h
  · intro T t hw hT
    simp only [opFunction, intOpFunctionRe, flagOpFunction]
    exact ⟨fun _ => by omega, fun _ => by omega, by omega⟩
  · intro T f hw hT
    simp only [floatOpFunction, floatOpFunctionRe]
    exact ⟨fun _ => by omega, fun _ => by omega⟩
  · exact ⟨fun _ => hn, Nat.le_min.mpr ⟨hn, le_refl 1⟩⟩

theorem run_size_irrelevant (hT : T ≠ .data) (h : T.evaluator? p = some ev) (a b : Bytes)
    (n m : Nat) : ev.run a b n = ev.run a b m := by
  refine forall_evaluators (P := fun T ev => T ≠ .data → ev.run a b n = ev.run a b m)
    ?_ ?_ ?_ (fun _ _ _ => rfl) h hT
  · exact fun _ _ _ _ => ⟨fun _ _ => rfl, fun _ _ => rfl, fun _ => rfl⟩
  · exact fun _ _ _ _ => ⟨fun _ _ => rfl, fun _ _ => rfl⟩
  · exact ⟨fun _ hd => absurd rfl hd, fun hd => absurd rfl hd⟩

/-- Cells never straddle a page. -/
theorem fieldSize_dvd_page (T : SearchType) : T.fieldSize ∣ 4096 := by
  rcases fieldSize_cases T with h | h | h | h <;> rw [h] <;> decide

theorem fieldSize_data : SearchType.data.fieldSize = 1 := rfl

theorem valueSize_eq_fieldSize (hT : T ≠ .data) : T.valueSizeForSearchType = T.fieldSize := by
  cases T <;> first | rfl | exact absurd rfl hT

end Table

end Memwatch
