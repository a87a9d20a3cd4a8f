import Memwatch.Region

/-!
# Byte order

Numbers as little-endian byte strings, and the byte swaps of phosg.
-/

namespace Memwatch

/-- The byte swaps of phosg: `bswapN` takes and returns `uintN_t`. -/
class Phosg where
  bswap : (width : Nat) → BitVec width → BitVec width

/-- The number a little-endian byte string stands for. -/
def leNat : Bytes → Nat
  | [] => 0
  | b :: bs => b.toNat + 256 * leNat bs

/-- The bytes of a little-endian number. -/
def toLE : Nat → Nat → Bytes
  | 0, _ => []
  | n + 1, x => UInt8.ofNat x :: toLE n (x / 256)

theorem toLE_leNat (c : Bytes) : toLE c.length (leNat c) = c := by
  induction c with
  | nil => rfl
  | cons b c ih =>
    have hb := b.toNat_lt
    simp only [List.length_cons, leNat, toLE]
    rw [show (b.toNat + 256 * leNat c) / 256 = leNat c by omega, ih]
    congr 1
    apply UInt8.toNat_inj.mp
    simp only [UInt8.toNat_ofNat']
    omega

theorem leNat_lt (c : Bytes) : leNat c < 2 ^ (8 * c.length) := by
  induction c with
  | nil => decide
  | cons b c ih =>
    have hb := b.toNat_lt
    rw [List.length_cons, show 8 * (c.length + 1) = 8 * c.length + 8 by omega, Nat.pow_add, leNat]
    omega

theorem length_toLE (n x : Nat) : (toLE n x).length = n := by
  induction n generalizing x with
  | zero => rfl
  | succ n ih => rw [toLE, List.length_cons, ih]

theorem leNat_toLE (n x : Nat) : leNat (toLE n x) = x % 2 ^ (8 * n) := by
  induction n generalizing x with
  | zero => rw [toLE, leNat, Nat.mul_zero, Nat.pow_zero, Nat.mod_one]
  | succ n ih =>
    rw [toLE, leNat, ih, UInt8.toNat_ofNat', show 8 * (n + 1) = 8 + 8 * n by omega, Nat.pow_add,
      Nat.mod_mul]

theorem take_toLE {k n : Nat} (h : k ≤ n) (x : Nat) : (toLE n x).take k = toLE k x := by
  induction k generalizing n x with
  | zero => rfl
  | succ k ih =>
    cases n with
    | zero => exact absurd h (by omega)
    | succ n => rw [toLE, toLE, List.take_succ_cons, ih (by omega)]

/-- The swaps of phosg reverse bytes. -/
class LawfulPhosg [Phosg] : Prop where
  bswap_leNat (c : Bytes) : Phosg.bswap (8 * c.length) (BitVec.ofNat _ (leNat c)) =
    BitVec.ofNat _ (leNat c.reverse)

/-- Swaps computed byte by byte. -/
@[reducible] def bytewisePhosg : Phosg where
  bswap width x := BitVec.ofNat width (leNat (toLE (width / 8) x.toNat).reverse)

theorem bytewisePhosg_lawful : @LawfulPhosg bytewisePhosg := by
  let _ := bytewisePhosg
  refine ⟨fun c => ?_⟩
  show BitVec.ofNat _ (leNat (toLE (8 * c.length / 8) (BitVec.ofNat _ (leNat c)).toNat).reverse) = _
  rw [BitVec.toNat_ofNat, Nat.mod_eq_of_lt (leNat_lt c),
    Nat.mul_div_cancel_left _ (by decide), toLE_leNat]

end Memwatch
