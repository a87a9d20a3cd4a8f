import Mathlib

/-!
# Machines with output

A machine takes one input after another, tells something for each and changes its state.
`EachStep P` says that every input meets `P` after the ones before it. Two machines tell
the same if they do so at each step.
-/

namespace Memwatch.Lib

universe u v w

variable {σ τ : Type u} {α : Type v} {β : Type w}

/-- What a machine tells for its inputs. -/
def outputs (tell : σ → α → β) (next : σ → α → σ) : σ → List α → List β
  | _, [] => []
  | s, a :: as => tell s a :: outputs tell next (next s a) as

def EachStep (P : List α → α → Prop) (as : List α) : Prop :=
  ∀ before a, before ++ [a] <+: as → P before a

/-! ## Steps -/

section Steps

variable {P Q : List α → α → Prop} {I : List α → Prop} {as : List α} {a : α}

theorem eachStep_nil : EachStep P [] := by
  intro before a h
  have := h.length_le
  simp at this

theorem eachStep_concat : EachStep P (as ++ [a]) ↔ EachStep P as ∧ P as a := by
  unfold EachStep
  refine ⟨fun h => ⟨fun before b hb => ?_, ?_⟩, fun ⟨hstep, hlast⟩ before b hb => ?_⟩
  · exact h before b (hb.trans (List.prefix_append as [a]))
  · exact h as a List.prefix_rfl
  · rcases List.prefix_concat_iff.mp hb with heq | hb
    · obtain ⟨rfl, hab⟩ := List.append_inj' heq rfl
      obtain rfl := List.singleton_inj.mp hab
      exact hlast
    · exact hstep before b hb

/-- What each step keeps holds after all of them. -/
theorem EachStep.invariant (h : EachStep P as) (hnil : I [])
    (hI : ∀ as a, I as → P as a → I (as ++ [a])) : I as := by
  induction as using List.reverseRecOn with
  | nil => exact hnil
  | append_singleton as a ih =>
    obtain ⟨hbefore, hlast⟩ := eachStep_concat.mp h
    exact hI as a (ih hbefore) hlast

theorem eachStep_congr (hnil : I []) (hI : ∀ as a, I as → P as a → I (as ++ [a]))
    (hPQ : ∀ as a, I as → (P as a ↔ Q as a)) (as : List α) : EachStep P as ↔ EachStep Q as := by
  induction as using List.reverseRecOn with
  | nil => exact iff_of_true eachStep_nil eachStep_nil
  | append_singleton as a ih =>
    rw [eachStep_concat, eachStep_concat, ← ih]
    exact and_congr_right fun h => hPQ as a (h.invariant hnil hI)

end Steps

/-! ## Outputs -/

section Outputs

variable {tell : σ → α → β} {next : σ → α → σ} {tell' : τ → α → β} {next' : τ → α → τ}

theorem outputs_concat (s : σ) (as : List α) (a : α) :
    outputs tell next s (as ++ [a]) = outputs tell next s as ++ [tell (as.foldl next s) a] := by
  induction as generalizing s with
  | nil => rfl
  | cons b as ih =>
    rw [List.cons_append, outputs, outputs, ih, List.cons_append, List.foldl_cons]

theorem outputs_eq_iff (s : σ) (t : τ) (as : List α) :
    outputs tell next s as = outputs tell' next' t as ↔
      EachStep (fun before a =>
        tell (before.foldl next s) a = tell' (before.foldl next' t) a) as := by
  induction as using List.reverseRecOn with
  | nil => exact iff_of_true rfl eachStep_nil
  | append_singleton as a ih =>
    rw [outputs_concat, outputs_concat, eachStep_concat, ← ih]
    constructor
    · intro h
      obtain ⟨has, ha⟩ := List.append_inj' h rfl
      exact ⟨has, List.singleton_inj.mp ha⟩
    · rintro ⟨has, ha⟩
      rw [has, ha]

end Outputs

end Memwatch.Lib
