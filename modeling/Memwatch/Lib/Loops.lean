import Mathlib

/-!
# Loops

A loop without a counter repeats its body until the body leaves it. `runLoop` gives it
a number of turns, and is `none` when they are not enough; `Returns` says that some
number of turns is enough.
-/

namespace Memwatch.Lib

universe u v

/-- What a turn of a loop ends with. -/
inductive Turn (σ : Type u) (α : Type v) where
  | next (s : σ)
  | leave (a : α)

variable {σ : Type u} {α : Type v} {body : σ → Turn σ α} {s t : σ} {a b : α}

def runLoop (body : σ → Turn σ α) : Nat → σ → Option α
  | 0, _ => none
  | n + 1, s =>
    match body s with
    | .next t => runLoop body n t
    | .leave a => some a

theorem runLoop_of_next {n : Nat} (h : body s = .next t) :
    runLoop body (n + 1) s = runLoop body n t := by
  rw [runLoop, h]

theorem runLoop_of_leave {n : Nat} (h : body s = .leave a) : runLoop body (n + 1) s = some a := by
  rw [runLoop, h]

/-- More turns end with the same. -/
theorem runLoop_mono {m n : Nat} (hmn : m ≤ n) (h : runLoop body m s = some a) :
    runLoop body n s = some a := by
  induction m generalizing n s with
  | zero => cases h
  | succ m ih =>
    obtain ⟨n, rfl⟩ : ∃ k, n = k + 1 := ⟨n - 1, by omega⟩
    cases hs : body s with
    | next t =>
      rw [runLoop_of_next hs] at h ⊢
      exact ih (by omega) h
    | leave b =>
      rw [runLoop_of_leave hs] at h ⊢
      exact h

def Returns (body : σ → Turn σ α) (s : σ) (a : α) : Prop := ∃ n, runLoop body n s = some a

theorem Returns.of_next (h : body s = .next t) (ht : Returns body t a) : Returns body s a := by
  obtain ⟨n, hn⟩ := ht
  exact ⟨n + 1, by rw [runLoop_of_next h, hn]⟩

theorem Returns.of_leave (h : body s = .leave a) : Returns body s a := ⟨1, runLoop_of_leave h⟩

theorem Returns.unique (ha : Returns body s a) (hb : Returns body s b) : a = b := by
  obtain ⟨m, hm⟩ := ha
  obtain ⟨n, hn⟩ := hb
  have h1 := runLoop_mono (Nat.le_max_left m n) hm
  have h2 := runLoop_mono (Nat.le_max_right m n) hn
  exact Option.some.inj (h1.symm.trans h2)

end Memwatch.Lib
