import Memwatch.Lib.Failures

/-!
# Programs that keep a property

`Keeps Q` says that a program that starts in a state with the property `Q` ends in one,
in success or failure. A program keeps what its parts keep. Where its parts do the same as
those of another one in the states with a property that they keep, so does it (`SameOn`).
-/

namespace Memwatch.Lib

universe u

variable {ε σ α β : Type u} {Q : σ → Prop} {m : EStateM ε σ α} {f : α → EStateM ε σ β}

def Keeps (Q : σ → Prop) (m : EStateM ε σ α) : Prop := ∀ s, Q s → Q (endState (m s))

theorem keeps_pure {a : α} : Keeps Q (pure a : EStateM ε σ α) := fun _ hs => hs

theorem keeps_throw {e : ε} : Keeps Q (throw e : EStateM ε σ α) := fun _ hs => hs

theorem keeps_lift {x : Except ε α} : Keeps Q (liftM x : EStateM ε σ α) := by
  intro s hs
  cases x <;> exact hs

theorem keeps_bind (hm : Keeps Q m) (hf : ∀ a, Keeps Q (f a)) : Keeps Q (m >>= f) := by
  intro s hs
  have hend := hm s hs
  show Q (endState (EStateM.bind m f s))
  unfold EStateM.bind
  cases h : m s with
  | ok a t =>
    rw [h] at hend
    exact hf a t hend
  | error e t =>
    rw [h] at hend
    exact hend

theorem keeps_get_bind {f : σ → EStateM ε σ β} (hf : ∀ s, Keeps Q (f s)) :
    Keeps Q (get >>= f) := fun s hs => hf s s hs

theorem keeps_ite {p : Prop} [Decidable p] {m' : EStateM ε σ α} (hm : Keeps Q m)
    (hm' : Keeps Q m') : Keeps Q (if p then m else m') := by
  split
  · exact hm
  · exact hm'

/-! ## Programs that are the same somewhere -/

/-- The programs do the same in all states with the property. -/
def SameOn (Q : σ → Prop) (m m' : EStateM ε σ α) : Prop := ∀ s, Q s → m s = m' s

theorem sameOn_bind {m' : EStateM ε σ α} {f' : α → EStateM ε σ β} (h : SameOn Q m m')
    (hm : Keeps Q m) (hf : ∀ a, SameOn Q (f a) (f' a)) : SameOn Q (m >>= f) (m' >>= f') := by
  intro s hs
  have hend := hm s hs
  show EStateM.bind m f s = EStateM.bind m' f' s
  unfold EStateM.bind
  rw [← h s hs]
  cases hrun : m s with
  | ok a t =>
    rw [hrun] at hend
    exact hf a t hend
  | error e t => rfl

end Memwatch.Lib
