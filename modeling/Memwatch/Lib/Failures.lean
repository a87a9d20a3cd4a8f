import Mathlib

/-!
# Programs that fail

A program in `EStateM` keeps the state it has reached when it fails. `Fails Q` says
that every failure of a program, with the state it is in then, meets `Q`; its rules
go through a program step by step. Computations without a state are steps that leave
the state alone.
-/

namespace Memwatch.Lib

universe u

variable {ε σ α β : Type u} {m : EStateM ε σ α} {f : α → EStateM ε σ β} {x : Except ε α}
  {s s' t : σ} {a : α} {b : β} {e : ε}

instance liftExcept : MonadLift (Except ε) (EStateM ε σ) where
  monadLift x s :=
    match x with
    | .ok a => .ok a s
    | .error e => .error e s

/-! ## Steps -/

theorem run_bind_eq_ok : (m >>= f) s = .ok b s' ↔ ∃ a t, m s = .ok a t ∧ f a t = .ok b s' := by
  show EStateM.bind m f s = _ ↔ _
  unfold EStateM.bind
  cases m s <;> simp

theorem run_bind_eq_error :
    (m >>= f) s = .error e s' ↔ m s = .error e s' ∨ ∃ a t, m s = .ok a t ∧ f a t = .error e s' := by
  show EStateM.bind m f s = _ ↔ _
  unfold EStateM.bind
  cases m s <;> simp

theorem lift_eq_ok : (liftM x : EStateM ε σ α) s = .ok a s' ↔ x = .ok a ∧ s' = s := by
  show (match x with | .ok a => EStateM.Result.ok a s | .error e => .error e s) = _ ↔ _
  cases x <;> simp [eq_comm]

theorem lift_eq_error : (liftM x : EStateM ε σ α) s = .error e s' ↔ x = .error e ∧ s' = s := by
  show (match x with | .ok a => EStateM.Result.ok a s | .error e => .error e s) = _ ↔ _
  cases x <;> simp [eq_comm]

theorem set_eq_ok : (set s' : EStateM ε σ PUnit) s = .ok ⟨⟩ t ↔ t = s' := by
  show EStateM.Result.ok _ s' = _ ↔ _
  simp [eq_comm]

theorem get_bind {f : σ → EStateM ε σ β} : (get >>= f) s = f s s := rfl

theorem set_bind {f : PUnit → EStateM ε σ β} : (set s' >>= f) s = f ⟨⟩ s' := rfl

theorem lift_bind_of_ok (h : x = .ok a) : (liftM x >>= f) s = f a s := by rw [h]; rfl

theorem lift_bind_eq_ok : (liftM x >>= f) s = .ok b s' ↔ ∃ a, x = .ok a ∧ f a s = .ok b s' := by
  rw [run_bind_eq_ok]
  refine exists_congr fun a => ?_
  simp only [lift_eq_ok, and_assoc, exists_and_left, exists_eq_left]

theorem lift_bind_eq_error : (liftM x >>= f) s = .error e s' ↔
    x = .error e ∧ s' = s ∨ ∃ a, x = .ok a ∧ f a s = .error e s' := by
  rw [run_bind_eq_error, lift_eq_error]
  refine or_congr_right (exists_congr fun a => ?_)
  simp only [lift_eq_ok, and_assoc, exists_and_left, exists_eq_left]

theorem except_ok_bind {f : α → Except ε β} : (.ok a >>= f) = f a := rfl

theorem except_bind_eq_ok {f : α → Except ε β} :
    (x >>= f) = .ok b ↔ ∃ a, x = .ok a ∧ f a = .ok b := by
  show Except.bind x f = _ ↔ _
  unfold Except.bind
  cases x <;> simp

theorem except_bind_eq_error {f : α → Except ε β} :
    (x >>= f) = .error e ↔ x = .error e ∨ ∃ a, x = .ok a ∧ f a = .error e := by
  show Except.bind x f = _ ↔ _
  unfold Except.bind
  cases x <;> simp

theorem except_toOption_bind {f : α → Except ε β} :
    (x >>= f).toOption = x.toOption.bind fun a => (f a).toOption := by
  cases x <;> rfl

theorem toOption_eq_some : x.toOption = some a ↔ x = .ok a := by
  cases x <;> simp [Except.toOption]

theorem mapError_eq_ok {ε' : Type u} {g : ε → ε'} : x.mapError g = .ok a ↔ x = .ok a := by
  unfold Except.mapError
  cases x <;> simp

theorem mapError_eq_error {ε' : Type u} {g : ε → ε'} {e' : ε'} :
    x.mapError g = .error e' ↔ ∃ e, x = .error e ∧ g e = e' := by
  unfold Except.mapError
  cases x <;> simp

section Lists

variable {g : α → Except ε β} {l : List α}

theorem mapM_eq_ok {g' : α → β} (h : ∀ a ∈ l, g a = .ok (g' a)) : l.mapM g = .ok (l.map g') := by
  induction l with
  | nil => rfl
  | cons a l ih =>
    rw [List.mapM_cons, h a List.mem_cons_self, except_ok_bind,
      ih fun a' ha' => h a' (List.mem_cons_of_mem _ ha')]
    rfl

theorem mapM_eq_error (h : ∃ a ∈ l, ∃ e, g a = .error e) : ∃ e, l.mapM g = .error e := by
  induction l with
  | nil =>
    obtain ⟨a, ha, -⟩ := h
    cases ha
  | cons a l ih =>
    rw [List.mapM_cons]
    cases hb : g a with
    | error e => exact ⟨e, rfl⟩
    | ok b =>
      obtain ⟨a', ha', e, he⟩ := h
      obtain ⟨e', he'⟩ : ∃ e, l.mapM g = .error e := by
        rcases List.mem_cons.mp ha' with rfl | ha'
        · rw [hb] at he
          cases he
        · exact ih ⟨a', ha', e, he⟩
      rw [except_ok_bind, he']
      exact ⟨e', rfl⟩

end Lists

/-- The state in which a program ends, in success or failure. -/
def endState : EStateM.Result ε σ α → σ
  | .ok _ s => s
  | .error _ s => s

/-! ## Failures -/

/-- Every failure of the program meets `Q`. -/
def Fails (Q : ε → σ → Prop) (m : EStateM ε σ α) (s : σ) : Prop :=
  ∀ e s', m s = .error e s' → Q e s'

variable {Q : ε → σ → Prop}

theorem fails_throw (h : Q e s) : Fails Q (throw e : EStateM ε σ α) s := by
  intro e' s' heq
  cases heq
  exact h

theorem fails_pure : Fails Q (pure a : EStateM ε σ α) s := nofun

theorem fails_set : Fails Q (set s' : EStateM ε σ PUnit) s := nofun

theorem fails_bind (hm : Fails Q m s) (hf : ∀ a t, m s = .ok a t → Fails Q (f a) t) :
    Fails Q (m >>= f) s := by
  intro e s' h
  rcases run_bind_eq_error.mp h with hfail | ⟨a, t, hok, hfail⟩
  · exact hm e s' hfail
  · exact hf a t hok e s' hfail

theorem fails_get_bind {f : σ → EStateM ε σ β} (hf : Fails Q (f s) s) :
    Fails Q (get >>= f) s := hf

theorem fails_lift_bind (hx : ∀ e, x = .error e → Q e s)
    (hf : ∀ a, x = .ok a → Fails Q (f a) s) : Fails Q (liftM x >>= f) s := by
  refine fails_bind (fun e s' h => ?_) fun a t h => ?_
  · obtain ⟨hfail, rfl⟩ := lift_eq_error.mp h
    exact hx e hfail
  · obtain ⟨hok, rfl⟩ := lift_eq_ok.mp h
    exact hf a hok

end Memwatch.Lib
