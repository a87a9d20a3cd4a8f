import Mathlib

/-!
# The first group with something to do

Groups of elements are tried in order: the first one with an element that is off is
turned on, and the others are left alone. A second try finds nothing to do if and
only if every element of the groups is on already or is in that group
(`settled_iff`).
-/

namespace Memwatch.Lib

variable {α : Type*} {on : α → Bool} {groups : List (List α)}

/-- The first group with an element that is off, if there is one. -/
def firstOff (on : α → Bool) : List (List α) → List α
  | [] => []
  | g :: groups => if g.all on then firstOff on groups else g

theorem firstOff_eq_nil (h : ∀ g ∈ groups, ∀ a ∈ g, on a = true) : firstOff on groups = [] := by
  induction groups with
  | nil => rfl
  | cons g groups ih =>
    obtain ⟨hg, hgroups⟩ := List.forall_mem_cons.mp h
    rw [firstOff, if_pos (List.all_eq_true.mpr hg), ih hgroups]

theorem on_of_firstOff (h : ∀ a ∈ firstOff on groups, on a = true) :
    ∀ g ∈ groups, ∀ a ∈ g, on a = true := by
  induction groups with
  | nil => nofun
  | cons g groups ih =>
    rw [firstOff] at h
    split at h
    · next hg => exact List.forall_mem_cons.mpr ⟨List.all_eq_true.mp hg, ih h⟩
    · next hg => exact absurd (List.all_eq_true.mpr h) hg

variable [DecidableEq α]

/-- The elements of a group are turned on. -/
def turnOn (on : α → Bool) (g : List α) (a : α) : Bool := on a || decide (a ∈ g)

theorem turnOn_eq_true {g : List α} {a : α} : turnOn on g a = true ↔ on a = true ∨ a ∈ g := by
  simp [turnOn]

theorem settled_iff :
    (∀ a ∈ firstOff (turnOn on (firstOff on groups)) groups,
      turnOn on (firstOff on groups) a = true) ↔
      ∀ g ∈ groups, ∀ a ∈ g, on a = true ∨ a ∈ firstOff on groups := by
  constructor
  · intro h g hg a ha
    exact turnOn_eq_true.mp (on_of_firstOff h g hg a ha)
  · intro h
    rw [firstOff_eq_nil fun g hg a ha => turnOn_eq_true.mpr (h g hg a ha)]
    exact fun a ha => absurd ha List.not_mem_nil

end Memwatch.Lib
