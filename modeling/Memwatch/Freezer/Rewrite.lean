import Memwatch.Freezer.Settle

/-!
# Writing an array again

A write of an array region serves its request for a slot. A served request keeps its slot,
so that the second write finds the data where the first one put it.
-/

namespace Memwatch

open Lib

namespace RegionFreezer

variable {r : Region} {items : ArrayItems} {stray : Bytes → Nat → UInt8} {mem mem' : Nat → UInt8}

def SameArray (r : Region) (items : ArrayItems) (mem mem' : Nat → UInt8) : Prop :=
  ∀ a, r.addr ≤ a → a < r.addr + items.numItems * r.data.length → mem' a = mem a

/-- What a write of an array and its repetition do: at most one item changes and nothing
outside the array; unless no item matches or is null, the array holds the data; and as long
as the array is left alone, the repetition changes nothing. -/
structure WritesOnce (stray : Bytes → Nat → UInt8) (r : Region) (items : ArrayItems)
    (mem : Nat → UInt8) (out : Region × (Nat → UInt8)) : Prop where
  oneSlot : ∀ x y, x < items.numItems → y < items.numItems →
    itemAt out.2 r.addr r.data.length x ≠ itemAt mem r.addr r.data.length x →
    itemAt out.2 r.addr r.data.length y ≠ itemAt mem r.addr r.data.length y → x = y
  outside : ∀ a, a < r.addr ∨ r.addr + items.numItems * r.data.length ≤ a → out.2 a = mem a
  present : (∃ item ∈ r.itemsOf items mem, Agrees item r.data items.dataMask ∨ IsNull items item) →
    r.data ∈ r.itemsOf items out.2
  again : ∀ mem', SameArray r items out.2 mem' →
    (out.1.write (flatMemory stray) mem').2 = mem'

/-- A region changes by its error only, and asks for what it asked for. -/
theorem UpToError.wellSized {r r' : Region} (h : UpToError r r') (hr : WellSized r items) :
    WellSized r' items := by
  rw [h]
  exact ⟨hr.isArray, hr.dataMask, hr.null, hr.size_lt, hr.fits⟩

theorem itemsOf_congr (h : SameArray r items mem mem') :
    r.itemsOf items mem' = r.itemsOf items mem := by
  refine List.map_congr_left fun x hx => List.map_congr_left fun i hi => h _ (by omega) ?_
  have hend := Nat.mul_le_mul_right r.data.length (List.mem_range.mp hx)
  have := List.mem_range.mp hi
  rw [Nat.succ_mul] at hend
  omega

theorem getElem?_itemsOf_write (stray : Bytes → Nat → UInt8) (h : WellSized r items) {x : Nat}
    (hx : (r.request items).slot (r.itemsOf items mem) ≠ some x) :
    (r.itemsOf items (r.write (flatMemory stray) mem).2)[x]? = (r.itemsOf items mem)[x]? := by
  rw [itemsOf_write stray mem h]
  unfold place
  cases hs : (r.request items).slot (r.itemsOf items mem) with
  | none => rfl
  | some y =>
    refine List.getElem?_set_ne ?_
    rintro rfl
    exact hx hs

theorem slot_of_changed (h : WellSized r items) {x : Nat} (hx : x < items.numItems)
    (hne : itemAt (r.write (flatMemory stray) mem).2 r.addr r.data.length x ≠
      itemAt mem r.addr r.data.length x) :
    (r.request items).slot (r.itemsOf items mem) = some x := by
  by_contra hslot
  have := getElem?_itemsOf_write stray h hslot
  rw [Region.itemsOf, Region.itemsOf, getElem?_itemsAt hx, getElem?_itemsAt hx] at this
  exact hne (Option.some.inj this)

theorem data_mem_of_slot (h : WellSized r items) {x : Nat}
    (hx : (r.request items).slot (r.itemsOf items mem) = some x) :
    r.data ∈ r.itemsOf items (r.write (flatMemory stray) mem).2 := by
  rw [itemsOf_write stray mem h]
  have hself : (r.request items).takes r.data = true := request_takes.mpr (.inl (Agrees.refl _ _))
  exact List.mem_of_getElem? (slot_place hself hx).2

/-- A write of an array writes its data once. -/
theorem array_writes_once (h : WellSized r items) (stray : Bytes → Nat → UInt8)
    (mem : Nat → UInt8) : WritesOnce stray r items mem (r.write (flatMemory stray) mem) where
  oneSlot x y hx hy hxne hyne := by
    have hslot := slot_of_changed h hx hxne
    rw [slot_of_changed h hy hyne] at hslot
    exact (Option.some.inj hslot).symm
  outside a ha := write_outside h ha
  present := by
    rintro ⟨item, hitem, htakes⟩
    cases hs : (r.request items).slot (r.itemsOf items mem) with
    | none =>
      have := slot_eq_none.mp hs item hitem
      rw [request_takes.mpr htakes] at this
      cases this
    | some x => exact data_mem_of_slot h hs
  again mem' hsame := by
    have hup : UpToError r (r.write (flatMemory stray) mem).1 := write_upToError h
    have hwell := hup.wellSized h
    refine write_served hwell ?_
    have hreq : (r.write (flatMemory stray) mem).1.request items = r.request items := by
      rw [hup]
      rfl
    have hitems : (r.write (flatMemory stray) mem).1.itemsOf items mem' =
        r.itemsOf items mem' := by
      rw [hup]
      rfl
    rw [hreq, hitems, itemsOf_congr hsame, itemsOf_write stray mem h]
    exact served_place (request_takes.mpr (.inl (Agrees.refl _ _)))

/-- The null item before the data is filled, and then left alone. -/
theorem array_writes_once_pair :
    WritesOnce (fun _ _ => 0) (pairRegion 5) ⟨2, [0xFF], [], []⟩ (pairMemory 0 5)
      ((pairRegion 5).write (flatMemory fun _ _ => 0) (pairMemory 0 5)) :=
  array_writes_once (pairRegion_wellSized 5) _ _

end RegionFreezer
end Memwatch
