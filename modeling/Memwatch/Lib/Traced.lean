import Mathlib

/-!
# Computations that leave a trace

`Traced ε ω α` is a computation that emits events of type `ε` and ends with a
value of type `α` or with a reason `ω` for having none. `query test e` asks
`test` about `e` and records the question. `collect` is the loop that asks a
list of questions in order and keeps the answers' outputs, up to a limit; its
lemmas say which questions are asked and what is kept.
-/

namespace Memwatch.Lib

universe u v w

/-- A computation with its emitted events. -/
structure Traced (ε : Type u) (ω : Type v) (α : Type w) where
  events : List ε
  result : Except ω α

namespace Traced

variable {ε : Type u} {ω : Type v} {α β γ : Type w}

@[ext] theorem ext {x y : Traced ε ω α} (he : x.events = y.events) (hr : x.result = y.result) :
    x = y := by
  cases x; cases y; cases he; cases hr; rfl

instance : Monad (Traced ε ω) where
  pure a := ⟨[], .ok a⟩
  bind x f :=
    match x.result with
    | .ok a => ⟨x.events ++ (f a).events, (f a).result⟩
    | .error e => ⟨x.events, .error e⟩

/-- End without a value. -/
def stop (e : ω) : Traced ε ω α := ⟨[], .error e⟩

@[simp] theorem events_pure (a : α) : (pure a : Traced ε ω α).events = [] := rfl

@[simp] theorem result_pure (a : α) : (pure a : Traced ε ω α).result = .ok a := rfl

theorem bind_of_ok {x : Traced ε ω α} {a : α} (h : x.result = .ok a) (f : α → Traced ε ω β) :
    x >>= f = ⟨x.events ++ (f a).events, (f a).result⟩ := by
  show (match x.result with | .ok a => _ | .error e => _) = _
  rw [h]

theorem bind_of_error {x : Traced ε ω α} {e : ω} (h : x.result = .error e)
    (f : α → Traced ε ω β) : x >>= f = ⟨x.events, .error e⟩ := by
  show (match x.result with | .ok a => _ | .error e => _) = _
  rw [h]

instance : LawfulMonad (Traced ε ω) := LawfulMonad.mk' (Traced ε ω)
  (fun x => by
    show x >>= pure = x
    cases h : x.result with
    | ok a => rw [bind_of_ok h]; ext1 <;> simp [h]
    | error e => rw [bind_of_error h]; ext1 <;> simp [h])
  (fun a f => by rw [bind_of_ok (result_pure a)]; rfl)
  (fun x f g => by
    cases h : x.result with
    | error e => rw [bind_of_error h, bind_of_error rfl, bind_of_error h]
    | ok a =>
      rw [bind_of_ok h, bind_of_ok h]
      cases h' : (f a).result with
      | error e => rw [bind_of_error h', bind_of_error rfl]
      | ok b => rw [bind_of_ok h', bind_of_ok rfl, List.append_assoc])

theorem bind_eq_ok {x : Traced ε ω α} {f : α → Traced ε ω β} {b : β}
    (h : (x >>= f).result = .ok b) : ∃ a, x.result = .ok a ∧ (f a).result = .ok b := by
  cases hx : x.result with
  | ok a => rw [bind_of_ok hx] at h; exact ⟨a, rfl, h⟩
  | error e => rw [bind_of_error hx] at h; cases h

/-- The events of a bind are those of the first part and, past it, of the second. -/
theorem mem_events_bind {x : Traced ε ω α} {f : α → Traced ε ω β} {e : ε} :
    e ∈ (x >>= f).events ↔ e ∈ x.events ∨ ∃ a, x.result = .ok a ∧ e ∈ (f a).events := by
  cases hx : x.result with
  | ok a => rw [bind_of_ok hx]; simp
  | error w => rw [bind_of_error hx]; simp

@[simp] theorem events_bind_pure (x : Traced ε ω α) (f : α → β) :
    (x >>= fun a => pure (f a)).events = x.events := by
  cases hx : x.result with
  | ok a => rw [bind_of_ok hx]; simp
  | error w => rw [bind_of_error hx]

theorem result_bind_pure {x : Traced ε ω α} {a : α} (f : α → β) (h : x.result = .ok a) :
    (x >>= fun a => pure (f a)).result = .ok (f a) := by
  rw [bind_of_ok h]; rfl

end Traced

/-! ## Queries -/

section Queries

open Traced

variable {ε : Type u} {ω : Type v} {β : Type}

/-- Ask `test` about `e`. -/
def query (test : ε → Except ω Bool) (e : ε) : Traced ε ω Bool := ⟨[e], test e⟩

/-- `test` answers `true`. -/
def passes (test : ε → Except ω Bool) (e : ε) : Bool :=
  match test e with
  | .ok b => b
  | .error _ => false

theorem passes_of_ok {test : ε → Except ω Bool} {e : ε} {b : Bool} (h : test e = .ok b) :
    passes test e = b := by simp [passes, h]

/-- The limit, if there is one, is reached. -/
def reached : Option Nat → List β → Bool
  | none, _ => false
  | some m, acc => decide (m ≤ acc.length)

/-- Ask about every item of the plan in order and append the outputs of those
that pass, as long as the limit is not reached. -/
def collect (limit : Option Nat) (test : ε → Except ω Bool) (out : ε → β) :
    List ε → List β → Traced ε ω (List β)
  | [], acc => pure acc
  | e :: plan, acc =>
    if reached limit acc then pure acc
    else query test e >>= fun hit =>
      collect limit test out plan (if hit then acc ++ [out e] else acc)

/-- What a run of `collect` that asks everything keeps. -/
def hits (test : ε → Except ω Bool) (out : ε → β) (plan : List ε) : List β :=
  (plan.filter (passes test)).map out

variable {limit : Option Nat} {test : ε → Except ω Bool} {out : ε → β}

@[simp] theorem hits_nil : hits test out [] = [] := rfl

theorem hits_cons (e : ε) (plan : List ε) :
    hits test out (e :: plan) = (if passes test e then [out e] else []) ++ hits test out plan := by
  by_cases h : passes test e <;> simp [hits, h]

theorem hits_append (p q : List ε) :
    hits test out (p ++ q) = hits test out p ++ hits test out q := by
  simp [hits]

theorem mem_hits {plan : List ε} {b : β} :
    b ∈ hits test out plan ↔ ∃ e ∈ plan, passes test e = true ∧ out e = b := by
  simp [hits, and_assoc]

theorem pairwise_hits {R : β → β → Prop} {plan : List ε}
    (h : plan.Pairwise fun d e => R (out d) (out e)) : (hits test out plan).Pairwise R :=
  List.pairwise_map.mpr (h.sublist List.filter_sublist)

theorem collect_reached {acc : List β} (h : reached limit acc = true) (plan : List ε) :
    collect limit test out plan acc = pure acc := by
  cases plan with
  | nil => rfl
  | cons e plan => simp [collect, h]

theorem collect_cons {acc : List β} (h : reached limit acc = false) (e : ε) (plan : List ε) :
    collect limit test out (e :: plan) acc = query test e >>= fun hit =>
      collect limit test out plan (if hit then acc ++ [out e] else acc) := by
  simp [collect, h]

theorem collect_append (p q : List ε) (acc : List β) :
    collect limit test out (p ++ q) acc =
      collect limit test out p acc >>= collect limit test out q := by
  induction p generalizing acc with
  | nil => simp [collect]
  | cons e p ih =>
    cases h : reached limit acc with
    | true => rw [collect_reached h, collect_reached h, pure_bind, collect_reached h]
    | false =>
      rw [List.cons_append, collect_cons h, collect_cons h, bind_assoc]
      exact bind_congr fun hit => ih _

/-- Only questions of the plan are asked. -/
theorem mem_plan_of_mem_events {plan : List ε} {acc : List β} {e : ε}
    (h : e ∈ (collect limit test out plan acc).events) : e ∈ plan := by
  induction plan generalizing acc with
  | nil => cases h
  | cons d plan ih =>
    cases hr : reached limit acc with
    | true => rw [collect_reached hr] at h; cases h
    | false =>
      rw [collect_cons hr, mem_events_bind] at h
      rcases h with h | ⟨hit, -, h⟩
      · exact List.mem_cons.mpr (.inl (List.mem_singleton.mp h))
      · exact List.mem_cons_of_mem _ (ih h)

/-- Without a limit, all questions asked satisfy `P` exactly when all questions
of the plan do, if a question that satisfies `P` has an answer. -/
theorem forall_mem_events_iff {plan : List ε} {P : ε → Prop}
    (hP : ∀ e ∈ plan, P e → ∃ b, test e = .ok b) (acc : List β) :
    (∀ e ∈ (collect none test out plan acc).events, P e) ↔ ∀ e ∈ plan, P e := by
  refine ⟨fun h => ?_, fun h e he => h e (mem_plan_of_mem_events he)⟩
  induction plan generalizing acc with
  | nil => intro e he; cases he
  | cons d plan ih =>
    rw [collect_cons rfl] at h
    have hd : P d := h d (mem_events_bind.mpr (.inl List.mem_cons_self))
    obtain ⟨b, hb⟩ := hP d List.mem_cons_self hd
    have hrest := ih (fun e he => hP e (List.mem_cons_of_mem _ he)) _ fun e he =>
      h e (mem_events_bind.mpr (.inr ⟨b, hb, he⟩))
    exact List.forall_mem_cons.mpr ⟨hd, hrest⟩

/-- Without a limit, a plan whose questions all have answers is kept in full. -/
theorem collect_result {plan : List ε} (h : ∀ e ∈ plan, ∃ b, test e = .ok b) (acc : List β) :
    (collect none test out plan acc).result = .ok (acc ++ hits test out plan) := by
  induction plan generalizing acc with
  | nil => simp [collect]
  | cons d plan ih =>
    obtain ⟨b, hb⟩ := h d List.mem_cons_self
    rw [collect_cons rfl, bind_of_ok (show (query test d).result = .ok b from hb),
      ih (fun e he => h e (List.mem_cons_of_mem _ he)), hits_cons, passes_of_ok hb]
    cases b <;> simp

/-- With a limit, the first `m` outputs are kept. -/
theorem collect_result_limit {plan : List ε} (h : ∀ e ∈ plan, ∃ b, test e = .ok b) {m : Nat}
    {acc : List β} (hm : acc.length ≤ m) :
    (collect (some m) test out plan acc).result = .ok ((acc ++ hits test out plan).take m) := by
  induction plan generalizing acc with
  | nil => simp [collect, List.take_of_length_le hm]
  | cons d plan ih =>
    cases hr : reached (some m) acc with
    | true =>
      have hlen : acc.length = m := by simp [reached] at hr; omega
      rw [collect_reached hr, ← hlen, List.take_left']
      · rfl
      · rfl
    | false =>
      have hlt : acc.length < m := by simpa [reached] using hr
      obtain ⟨b, hb⟩ := h d List.mem_cons_self
      rw [collect_cons hr, bind_of_ok (show (query test d).result = .ok b from hb),
        ih (fun e he => h e (List.mem_cons_of_mem _ he)) (by cases b <;> simp <;> omega),
        hits_cons, passes_of_ok hb]
      cases b <;> simp

/-- Whatever is asked, only hits are kept, each at most once and in order. -/
theorem collect_sublist {plan : List ε} {acc l : List β}
    (h : (collect limit test out plan acc).result = .ok l) :
    ∃ k, l = acc ++ k ∧ k.Sublist (hits test out plan) := by
  induction plan generalizing acc with
  | nil => cases h; exact ⟨[], by simp, List.nil_sublist _⟩
  | cons e plan ih =>
    cases hr : reached limit acc with
    | true => rw [collect_reached hr] at h; cases h; exact ⟨[], by simp, List.nil_sublist _⟩
    | false =>
      rw [collect_cons hr] at h
      obtain ⟨hit, hask, h⟩ := bind_eq_ok h
      obtain ⟨k, rfl, hk⟩ := ih h
      rw [hits_cons, passes_of_ok (show test e = .ok hit from hask)]
      cases hit with
      | false => exact ⟨k, rfl, hk⟩
      | true => exact ⟨out e :: k, by simp, hk.cons_cons _⟩

/-- A plan whose questions all have answers gives a result. -/
theorem collect_isOk {plan : List ε} (h : ∀ e ∈ plan, ∃ b, test e = .ok b) (acc : List β) :
    ∃ l, (collect limit test out plan acc).result = .ok l := by
  induction plan generalizing acc with
  | nil => exact ⟨acc, rfl⟩
  | cons e plan ih =>
    cases hr : reached limit acc with
    | true => rw [collect_reached hr]; exact ⟨acc, rfl⟩
    | false =>
      obtain ⟨b, hb⟩ := h e List.mem_cons_self
      rw [collect_cons hr, bind_of_ok (show (query test e).result = .ok b from hb)]
      exact ih (fun d hd => h d (List.mem_cons_of_mem _ hd)) _

/-- Without a limit, a result needs an answer to every question of the plan. -/
theorem answered_of_collect {plan : List ε} {acc l : List β}
    (h : (collect none test out plan acc).result = .ok l) : ∀ e ∈ plan, ∃ b, test e = .ok b := by
  induction plan generalizing acc with
  | nil => exact fun e he => absurd he List.not_mem_nil
  | cons d plan ih =>
    rw [collect_cons rfl] at h
    obtain ⟨hit, hask, h⟩ := bind_eq_ok h
    exact List.forall_mem_cons.mpr ⟨⟨hit, hask⟩, ih h⟩

theorem collect_acc (plan : List ε) (acc : List β) :
    collect none test out plan acc =
      collect none test out plan [] >>= fun l => pure (acc ++ l) := by
  induction plan generalizing acc with
  | nil => simp [collect]
  | cons e plan ih =>
    rw [collect_cons rfl, collect_cons rfl, bind_assoc]
    refine bind_congr fun hit => ?_
    cases hit with
    | false => exact ih acc
    | true =>
      simp only [↓reduceIte, List.nil_append]
      rw [ih (acc ++ [out e]), ih [out e], bind_assoc]
      exact bind_congr fun l => by simp

end Queries

end Memwatch.Lib
