import Mathlib

/-!
# Runs that may fail

A run takes one input after another through a step that may fail; it ends at the
first failure. `AlongRun P` says that every input meets `P` in the state in which
it comes.
-/

namespace Memwatch.Lib

universe u v

variable {ε σ : Type u} {α : Type v} {step : σ → α → Except ε σ}

def AlongRun (step : σ → α → Except ε σ) (P : σ → α → Prop) : σ → List α → Prop
  | _, [] => True
  | s, a :: as => P s a ∧ ∀ s', step s a = .ok s' → AlongRun step P s' as

/-- Every beginning of a run ends well if every step does. -/
theorem forall_prefix_iff {P : Except ε σ → Prop} {s : σ} {as : List α} (hs : P (.ok s)) :
    (∀ as', as' <+: as → P (as'.foldlM step s)) ↔ AlongRun step (fun s a => P (step s a)) s as := by
  induction as generalizing s with
  | nil =>
    refine ⟨fun _ => trivial, fun _ as' h => ?_⟩
    rw [List.prefix_nil.mp h]
    exact hs
  | cons a as ih =>
    have hstep : ∀ as', (a :: as').foldlM step s = step s a >>= fun s' => as'.foldlM step s' :=
      fun as' => List.foldlM_cons
    refine ⟨fun h => ?_, fun h as' has' => ?_⟩
    · have hP : P (step s a) := by
        have := h [a] ⟨as, rfl⟩
        rw [hstep] at this
        revert this
        cases step s a <;> exact id
      refine ⟨hP, fun s' hs' => (ih (hs' ▸ hP)).mp fun as' has' => ?_⟩
      have := h (a :: as') (List.cons_prefix_cons.mpr ⟨rfl, has'⟩)
      rw [hstep, hs'] at this
      exact this
    · cases as' with
      | nil => exact hs
      | cons a' as' =>
        obtain ⟨rfl, htail⟩ := List.cons_prefix_cons.mp has'
        obtain ⟨hP, hnext⟩ := h
        rw [hstep]
        cases hr : step s a' with
        | error e =>
          rw [hr] at hP
          exact hP
        | ok s' =>
          rw [hr] at hP
          exact (ih hP).mpr (hnext s' hr) as' htail

/-- Conditions on a step that are equivalent under an invariant are equivalent along
every run. -/
theorem alongRun_congr {I : σ → Prop} {P Q : σ → α → Prop} {as : List α}
    (hPQ : ∀ s, ∀ a ∈ as, I s → (P s a ↔ Q s a))
    (hI : ∀ s, ∀ a ∈ as, I s → P s a → ∀ s', step s a = .ok s' → I s') {s : σ} (hs : I s) :
    AlongRun step P s as ↔ AlongRun step Q s as := by
  induction as generalizing s with
  | nil => exact Iff.rfl
  | cons a as ih =>
    have ih : ∀ {s}, I s → (AlongRun step P s as ↔ AlongRun step Q s as) :=
      ih (fun s a ha => hPQ s a (List.mem_cons_of_mem _ ha))
        fun s a ha => hI s a (List.mem_cons_of_mem _ ha)
    have hiff := hPQ s a List.mem_cons_self hs
    refine and_congr_right_iff.mpr ?_ |>.trans (and_congr_left' hiff)
    intro hP
    exact forall_congr' fun s' => forall_congr' fun hs' =>
      ih (hI s a List.mem_cons_self hs hP s' hs')

/-- An invariant of the steps holds at the end of a run. -/
theorem foldlM_invariant {I : σ → Prop} {s t : σ} {as : List α} (h : as.foldlM step s = .ok t)
    (hs : I s) (hI : ∀ s, ∀ a ∈ as, I s → ∀ s', step s a = .ok s' → I s') : I t := by
  induction as generalizing s with
  | nil =>
    cases h
    exact hs
  | cons a as ih =>
    rw [List.foldlM_cons] at h
    cases hstep : step s a with
    | error e => rw [hstep] at h; cases h
    | ok s' =>
      rw [hstep] at h
      exact ih h (hI s a List.mem_cons_self hs s' hstep)
        fun s a ha => hI s a (List.mem_cons_of_mem _ ha)

end Memwatch.Lib
