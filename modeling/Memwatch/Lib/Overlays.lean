import Mathlib

/-!
# Overlapping writes

A write replaces a function where it is defined. Of several writes, the last one that is
defined at a point counts there (`overlayAll_of_last`), and doing all of them again
changes nothing (`overlayAll_idem`).
-/

namespace Memwatch.Lib

universe u v

variable {α : Type u} {β : Type v}

def overlay (f : α → β) (w : α → Option β) : α → β := fun a => (w a).getD (f a)

def overlayAll (f : α → β) (ws : List (α → Option β)) : α → β := ws.foldl overlay f

variable {f g : α → β} {w : α → Option β} {ws ws' : List (α → Option β)} {a : α} {b : β}

theorem overlayAll_append (f : α → β) (ws ws' : List (α → Option β)) :
    overlayAll f (ws ++ ws') = overlayAll (overlayAll f ws) ws' := List.foldl_append

theorem overlayAll_cons (f : α → β) (w : α → Option β) (ws : List (α → Option β)) :
    overlayAll f (w :: ws) = overlayAll (overlay f w) ws := rfl

theorem overlayAll_of_none (h : ∀ w ∈ ws, w a = none) : overlayAll f ws a = f a := by
  induction ws generalizing f with
  | nil => rfl
  | cons w ws ih =>
    rw [overlayAll_cons, ih fun w' hw' => h w' (List.mem_cons_of_mem _ hw'), overlay,
      h w List.mem_cons_self, Option.getD_none]

/-- The last write that is defined at a point counts. -/
theorem overlayAll_of_last (h : w a = some b) (hlast : ∀ w' ∈ ws', w' a = none) :
    overlayAll f (ws ++ w :: ws') a = b := by
  rw [overlayAll_append, overlayAll_cons, overlayAll_of_none hlast, overlay, h, Option.getD_some]

/-- What the writes leave at a point they define does not depend on what was there. -/
theorem overlayAll_congr (h : f a = g a ∨ ∃ w ∈ ws, w a ≠ none) :
    overlayAll f ws a = overlayAll g ws a := by
  induction ws generalizing f g with
  | nil =>
    rcases h with h | ⟨w, hw, -⟩
    · exact h
    · cases hw
  | cons w ws ih =>
    rw [overlayAll_cons, overlayAll_cons]
    refine ih ?_
    rcases h with h | ⟨w', hw', hne⟩
    · left
      rw [overlay, overlay, h]
    · rcases List.mem_cons.mp hw' with rfl | hw'
      · left
        obtain ⟨b, hb⟩ := Option.ne_none_iff_exists'.mp hne
        rw [overlay, overlay, hb, Option.getD_some, Option.getD_some]
      · exact .inr ⟨w', hw', hne⟩

theorem overlayAll_of_agree (hw : ∃ w ∈ ws, w a ≠ none)
    (hagree : ∀ w ∈ ws, w a = none ∨ w a = some b) : overlayAll f ws a = b := by
  rw [overlayAll_congr (g := fun _ => b) (.inr hw)]
  clear hw
  induction ws with
  | nil => rfl
  | cons w ws ih =>
    rw [overlayAll_cons]
    refine (overlayAll_congr (.inl ?_)).trans (ih fun v hv => hagree v (List.mem_cons_of_mem _ hv))
    rcases hagree w List.mem_cons_self with h | h
    · rw [overlay, h, Option.getD_none]
    · rw [overlay, h, Option.getD_some]

/-- The same writes again change nothing. -/
theorem overlayAll_idem (f : α → β) (ws : List (α → Option β)) :
    overlayAll (overlayAll f ws) ws = overlayAll f ws := by
  funext a
  refine overlayAll_congr ?_
  by_cases h : ∃ w ∈ ws, w a ≠ none
  · exact .inr h
  · push Not at h
    exact .inl (overlayAll_of_none h)

end Memwatch.Lib
