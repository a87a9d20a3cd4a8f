import Mathlib

/-!
# Byte strings and 64-bit arithmetic
-/

namespace Memwatch

abbrev Bytes := List UInt8

/-- `n` bytes at `off`. -/
def slice (b : Bytes) (off n : Nat) : Bytes := (b.drop off).take n

theorem length_slice {b : Bytes} {off n : Nat} (h : off + n ≤ b.length) :
    (slice b off n).length = n := by
  simp [slice]; omega

def memcmp : Bytes → Bytes → Nat → Int
  | x :: xs, y :: ys, n + 1 => if x < y then -1 else if y < x then 1 else memcmp xs ys n
  | _, _, _ => 0

theorem memcmp_take (a b : Bytes) (n : Nat) : memcmp (a.take n) (b.take n) n = memcmp a b n := by
  induction n generalizing a b with
  | zero => cases a <;> cases b <;> rfl
  | succ n ih =>
    cases a with
    | nil => cases b <;> rfl
    | cons x xs =>
      cases b with
      | nil => rfl
      | cons y ys => simp only [List.take_succ_cons, memcmp, ih]

/-! ## 64-bit arithmetic -/

def add64 (a b : Nat) : Nat := (a + b) % 2 ^ 64

def sub64 (a b : Nat) : Nat := (a + (2 ^ 64 - b % 2 ^ 64)) % 2 ^ 64

theorem add64_eq {a b : Nat} (h : a + b < 2 ^ 64) : add64 a b = a + b := Nat.mod_eq_of_lt h

theorem sub64_eq {a b : Nat} (ha : a < 2 ^ 64) (h : b ≤ a) : sub64 a b = a - b := by
  unfold sub64; omega

theorem sub64_wrap {a b : Nat} (hb : b < 2 ^ 64) (h : a < b) : sub64 a b = 2 ^ 64 - (b - a) := by
  unfold sub64; omega

end Memwatch
