import Mathlib

/-!
# Requests for slots of a list

A request puts its value into the first slot whose content it takes. `place`
serves one request and `placeAll` a list of them in order. When no request takes
the value of another one, a request that was served stays where it is
(`served_placeAll`), and serving all of them again changes nothing
(`placeAll_of_served`).
-/

namespace Memwatch.Lib

universe u

variable {α : Type u}

/-- A value, and the contents it may be put over. -/
structure Request (α : Type u) where
  value : α
  takes : α → Bool

/-- The first slot a request takes. -/
def Request.slot (r : Request α) (l : List α) : Option Nat := l.findIdx? r.takes

def place (l : List α) (r : Request α) : List α :=
  match r.slot l with
  | some x => l.set x r.value
  | none => l

def placeAll (l : List α) (rs : List (Request α)) : List α := rs.foldl place l

variable {l : List α} {r r' : Request α} {rs : List (Request α)} {x y : Nat}

theorem slot_eq_some : r.slot l = some x ↔
    (∃ a, l[x]? = some a ∧ r.takes a = true) ∧
      ∀ y < x, ∀ a, l[y]? = some a → r.takes a = false := by
  unfold Request.slot
  rw [List.findIdx?_eq_some_iff_getElem]
  constructor
  · rintro ⟨hx, ht, hbefore⟩
    refine ⟨⟨_, List.getElem?_eq_getElem hx, ht⟩, fun y hy a ha => ?_⟩
    obtain ⟨hylt, rfl⟩ := List.getElem?_eq_some_iff.mp ha
    simpa using hbefore y hy
  · rintro ⟨⟨a, ha, ht⟩, hbefore⟩
    obtain ⟨hx, rfl⟩ := List.getElem?_eq_some_iff.mp ha
    refine ⟨hx, ht, fun y hy => ?_⟩
    have hylt : y < l.length := hy.trans hx
    simpa using hbefore y hy _ (List.getElem?_eq_getElem hylt)

theorem slot_eq_none : r.slot l = none ↔ ∀ a ∈ l, r.takes a = false := by
  simp [Request.slot]

theorem slot_lt (h : r.slot l = some x) : x < l.length := by
  obtain ⟨⟨a, ha, -⟩, -⟩ := slot_eq_some.mp h
  exact (List.getElem?_eq_some_iff.mp ha).1

theorem slot_congr (h : ∀ a ∈ l, r.takes a = r'.takes a) : r.slot l = r'.slot l := by
  unfold Request.slot
  induction l with
  | nil => rfl
  | cons a l ih =>
    rw [List.findIdx?_cons, List.findIdx?_cons, h a List.mem_cons_self,
      ih fun b hb => h b (List.mem_cons_of_mem _ hb)]

theorem slot_set (h : r.slot l = some x) (hne : y ≠ x) {v : α} (hv : r.takes v = false) :
    r.slot (l.set y v) = some x := by
  obtain ⟨⟨a, ha, ht⟩, hbefore⟩ := slot_eq_some.mp h
  refine slot_eq_some.mpr ⟨⟨a, by rwa [List.getElem?_set_ne hne], ht⟩, fun z hz b hb => ?_⟩
  by_cases hyz : y = z
  · subst hyz
    rw [List.getElem?_set_self (hz.trans (slot_lt h))] at hb
    cases hb; exact hv
  · rw [List.getElem?_set_ne hyz] at hb
    exact hbefore z hz b hb

theorem slot_set_none (h : r.slot l = none) {v : α} (hv : r.takes v = false) :
    r.slot (l.set y v) = none := by
  refine slot_eq_none.mpr fun a ha => ?_
  rcases List.mem_or_eq_of_mem_set ha with ha | rfl
  · exact slot_eq_none.mp h a ha
  · exact hv

/-! ## Served requests -/

/-- The request's slot, if it has one, holds its value. -/
def Served (l : List α) (r : Request α) : Prop := ∀ x, r.slot l = some x → l[x]? = some r.value

theorem Served.place_eq (h : Served l r) : place l r = l := by
  unfold place
  split
  · next x hx =>
    obtain ⟨hlt, hval⟩ := List.getElem?_eq_some_iff.mp (h x hx)
    rw [← hval, List.set_getElem_self]
  · rfl

/-- A request that takes its own value is served where it was placed. -/
theorem slot_place (hself : r.takes r.value = true) (h : r.slot l = some x) :
    r.slot (place l r) = some x ∧ (place l r)[x]? = some r.value := by
  have hlt := slot_lt h
  have hval : (place l r)[x]? = some r.value := by
    simp only [place, h, List.getElem?_set_self hlt]
  refine ⟨slot_eq_some.mpr ⟨⟨_, hval, hself⟩, fun y hy a ha => ?_⟩, hval⟩
  simp only [place, h, List.getElem?_set_ne hy.ne'] at ha
  exact (slot_eq_some.mp h).2 y hy a ha

theorem served_place (hself : r.takes r.value = true) : Served (place l r) r := by
  intro x hx
  cases h : r.slot l with
  | none => rw [place, h, h] at hx; cases hx
  | some y =>
    obtain ⟨hslot, hval⟩ := slot_place hself h
    rw [hslot] at hx
    cases hx; exact hval

/-- Neither request takes the value of the other. -/
def Compatible (r r' : Request α) : Prop := r.takes r'.value = false ∧ r'.takes r.value = false

/-- A served request keeps its slot and its value. -/
theorem Served.slot_place (h : Served l r) (hc : Compatible r r') (hx : r.slot l = some x) :
    r.slot (place l r') = some x ∧ (place l r')[x]? = some r.value := by
  have hval := h x hx
  unfold place
  split
  · next y hy =>
    have hne : y ≠ x := by
      rintro rfl
      obtain ⟨⟨a, ha, ht⟩, -⟩ := slot_eq_some.mp hy
      rw [hval] at ha
      cases ha
      rw [hc.2] at ht; cases ht
    exact ⟨slot_set hx hne hc.1, by rwa [List.getElem?_set_ne hne]⟩
  · exact ⟨hx, hval⟩

theorem slot_place_none (h : r.slot l = none) (hc : Compatible r r') :
    r.slot (place l r') = none := by
  unfold place
  split
  · exact slot_set_none h hc.1
  · exact h

theorem Served.place (h : Served l r) (hc : Compatible r r') : Served (place l r') r := by
  intro x hx
  cases hs : r.slot l with
  | none => rw [slot_place_none hs hc] at hx; cases hx
  | some y =>
    obtain ⟨hslot, hval⟩ := h.slot_place hc hs
    rw [hslot] at hx
    cases hx; exact hval

/-! ## Passes -/

theorem placeAll_cons (l : List α) (r : Request α) (rs : List (Request α)) :
    placeAll l (r :: rs) = placeAll (place l r) rs := rfl

theorem placeAll_append (l : List α) (rs rs' : List (Request α)) :
    placeAll l (rs ++ rs') = placeAll (placeAll l rs) rs' := List.foldl_append

theorem Served.placeAll (h : Served l r) (hc : ∀ r' ∈ rs, Compatible r r') :
    Served (placeAll l rs) r := by
  induction rs generalizing l with
  | nil => exact h
  | cons r' rs ih =>
    exact ih (h.place (hc r' List.mem_cons_self)) fun q hq => hc q (List.mem_cons_of_mem _ hq)

theorem Served.slot_placeAll (h : Served l r) (hc : ∀ r' ∈ rs, Compatible r r')
    (hx : r.slot l = some x) : (Lib.placeAll l rs)[x]? = some r.value := by
  induction rs generalizing l with
  | nil => exact h x hx
  | cons r' rs ih =>
    have hr' := hc r' List.mem_cons_self
    exact ih (h.place hr') (fun q hq => hc q (List.mem_cons_of_mem _ hq)) (h.slot_place hr' hx).1

theorem slot_placeAll_none (h : r.slot l = none) (hc : ∀ r' ∈ rs, Compatible r r') :
    r.slot (placeAll l rs) = none := by
  induction rs generalizing l with
  | nil => exact h
  | cons r' rs ih =>
    exact ih (slot_place_none h (hc r' List.mem_cons_self)) fun q hq =>
      hc q (List.mem_cons_of_mem _ hq)

/-- Every request of a pass is served after it. -/
theorem served_placeAll (hself : ∀ r ∈ rs, r.takes r.value = true) (hrs : rs.Pairwise Compatible) :
    ∀ r ∈ rs, Served (placeAll l rs) r := by
  induction rs generalizing l with
  | nil => nofun
  | cons r rs ih =>
    obtain ⟨hr, hrs⟩ := List.pairwise_cons.mp hrs
    intro q hq
    rcases List.mem_cons.mp hq with rfl | hq
    · exact (served_place (hself q List.mem_cons_self)).placeAll hr
    · exact ih (fun p hp => hself p (List.mem_cons_of_mem _ hp)) hrs q hq

/-- A pass over served requests changes nothing. -/
theorem placeAll_of_served (h : ∀ r ∈ rs, Served l r) : placeAll l rs = l := by
  induction rs with
  | nil => rfl
  | cons r rs ih =>
    rw [placeAll_cons, (h r List.mem_cons_self).place_eq]
    exact ih fun q hq => h q (List.mem_cons_of_mem _ hq)

/-- What a pass does for a request depends on what there was at its turn. -/
theorem mem_placeAll (l : List α) (pre : List (Request α)) {post : List (Request α)}
    (hself : r.takes r.value = true)
    (hpost : ∀ r' ∈ post, Compatible r r') :
    if (∃ a ∈ placeAll l pre, r.takes a = true) then r.value ∈ placeAll l (pre ++ r :: post)
    else ∀ a ∈ placeAll l (pre ++ r :: post), r.takes a = false := by
  rw [placeAll_append, placeAll_cons]
  split
  · next h =>
    cases hs : r.slot (placeAll l pre) with
    | none =>
      obtain ⟨a, ha, ht⟩ := h
      rw [slot_eq_none.mp hs a ha] at ht; cases ht
    | some x =>
      obtain ⟨hslot, -⟩ := slot_place hself hs
      exact List.mem_of_getElem? ((served_place hself).slot_placeAll hpost hslot)
  · next h =>
    have hs : r.slot (placeAll l pre) = none :=
      slot_eq_none.mpr fun a ha => by
        by_contra ht
        exact h ⟨a, ha, by simpa using ht⟩
    rw [show place (placeAll l pre) r = placeAll l pre by rw [place, hs]]
    exact slot_eq_none.mp (slot_placeAll_none hs hpost)

end Memwatch.Lib
