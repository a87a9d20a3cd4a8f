import Memwatch.Freezer.ArrayWrite

/-!
# The bounds of an array write

`ArrayRegion::write` reads `num_items * data.size()` bytes, a product of 64-bit
numbers, and its loop is bounded by `num_items` alone. A write stays inside what
it read for every target if and only if the first item was read and, where some
item can be passed over, the product did not wrap around (`array_in_bounds_iff`).
-/

namespace Memwatch

open Lib

namespace RegionFreezer

section Bounds

variable {σ : Type}

/-- A read throws or returns exactly the bytes it was asked for. -/
def ExactReads (A : Adapter σ) : Prop :=
  ∀ mem addr size contents, A.read mem addr size = .ok contents → contents.length = size

/-- An adapter that notes the address of every write. -/
def recording (A : Adapter σ) : Adapter (σ × List Nat) where
  read mem addr size := A.read mem.1 addr size
  write mem addr data := ((A.write mem.1 addr data).1, (A.write mem.1 addr data).2, mem.2 ++ [addr])
  stray := A.stray

/-- The addresses that a write of the region writes to. -/
def Region.targets (A : Adapter σ) (r : Region) (mem : σ) : List Nat :=
  (r.write (recording A) (mem, [])).2.2

/-- The items the loop of `findSlot` looks at: it goes on until one of them ends it. -/
def examined (A : Adapter σ) (data : Bytes) (items : ArrayItems) (contents : Bytes) :
    Nat → Nat → List Nat
  | 0, _ => []
  | n + 1, x =>
    x :: if findSlot A data items contents 1 x = .none then examined A data items contents n (x + 1)
      else []

/-- One write of an array region looks at bytes it read only, and writes to an
item of the array only. -/
structure InBounds (A : Adapter σ) (r : Region) (items : ArrayItems) (mem : σ) : Prop where
  examines : ∀ contents,
    A.read mem r.addr (items.numItems * r.data.length % 2 ^ 64) = .ok contents →
      ∀ x ∈ examined A r.data items contents items.numItems 0,
        x * r.data.length % 2 ^ 64 + r.data.length ≤ contents.length
  targets : ∀ a ∈ r.targets A mem, ∃ x < items.numItems, a = r.addr + x * r.data.length

end Bounds

/-- Every write of the region is in bounds, for every target with exact reads. -/
def AlwaysInBounds (r : Region) (items : ArrayItems) : Prop :=
  ∀ (σ : Type) (A : Adapter σ), ExactReads A → ∀ mem, InBounds A r items mem

/-- Some item is neither the data nor null, since some byte of each is compared. -/
def Passable (items : ArrayItems) : Prop :=
  (∃ m ∈ items.dataMask, m ≠ 0) ∧ (items.nullData = [] ∨ ∃ m ∈ items.nullDataMask, m ≠ 0)

/-- Some item is written over: it differs from the data under a mask, or is null. -/
def Replaceable (r : Region) (items : ArrayItems) : Prop :=
  (∃ m ∈ items.dataMask, m = 0) ∨
    if items.nullData = [] then ∃ b ∈ r.data, b ≠ 0
    else items.nullData ≠ r.data ∨ ∃ m ∈ items.nullDataMask, m = 0

/-- The first item is read; if items can be passed over, the size of the array does
not wrap around, and neither does the address of an item that can be written over. -/
structure FitsRead (r : Region) (items : ArrayItems) : Prop where
  first : r.data.length ≤ items.numItems * r.data.length % 2 ^ 64
  product : Passable items → items.numItems * r.data.length < 2 ^ 64
  last : Passable items → Replaceable r items →
    r.addr + (items.numItems - 1) * r.data.length < 2 ^ 64

/-! ## Items that are passed over and items that are written over -/

section Items

variable {r : Region} {items : ArrayItems} {item data mask : Bytes}

theorem exists_byte_ne (a b : UInt8) : ∃ c : UInt8, c ≠ a ∧ c ≠ b := by
  by_cases h : a + 1 = b
  · have h21 : a + 2 ≠ a + 1 := fun heq => absurd (add_left_cancel heq) (by decide)
    exact ⟨a + 2, by simp, h ▸ h21⟩
  · exact ⟨a + 1, by simp, h⟩

/-- A byte string that differs from two others everywhere. -/
theorem exists_differing (data : Bytes) : ∀ other : Bytes, ∃ item : Bytes,
    item.length = data.length ∧ ∀ i < data.length, item[i]? ≠ data[i]? ∧ item[i]? ≠ other[i]? := by
  induction data with
  | nil => exact fun _ => ⟨[], rfl, fun i hi => absurd hi (Nat.not_lt_zero i)⟩
  | cons x data ih =>
    intro other
    obtain ⟨item, hlen, hitem⟩ := ih other.tail
    obtain ⟨c, hx, ho⟩ := exists_byte_ne x (other.headD 0)
    refine ⟨c :: item, by rw [List.length_cons, hlen, List.length_cons], fun i hi => ?_⟩
    cases i with
    | zero =>
      cases other with
      | nil => simpa using hx
      | cons y other => simpa using ⟨hx, ho⟩
    | succ i =>
      have := hitem i (by simpa using hi)
      rw [List.getElem?_cons_succ, List.getElem?_cons_succ]
      cases other with
      | nil => simpa using this
      | cons y other => simpa using this

theorem not_agrees_of_differing (hm : mask.length = data.length)
    (hne : ∀ i < data.length, item[i]? ≠ data[i]?) (hmask : ∃ m ∈ mask, m ≠ 0) :
    ¬ Agrees item data mask := by
  obtain ⟨m, hmem, hm0⟩ := hmask
  obtain ⟨i, hi, rfl⟩ := List.mem_iff_getElem.mp hmem
  intro h
  refine hne i (by omega) (h i (by omega) ?_)
  rw [List.getElem?_eq_getElem hi]
  exact fun h0 => hm0 (Option.some.inj h0)

theorem agrees_of_blank (hm : mask.length = data.length) (hmask : ¬ ∃ m ∈ mask, m ≠ 0) :
    Agrees item data mask := by
  intro i hi h
  refine absurd ?_ h
  have hlt : i < mask.length := by omega
  rw [List.getElem?_eq_getElem hlt]
  push Not at hmask
  rw [hmask _ (List.getElem_mem hlt)]

theorem exists_agrees_ne (hm : mask.length = data.length) (hmask : ∃ m ∈ mask, m = 0) :
    ∃ item, item.length = data.length ∧ Agrees item data mask ∧ item ≠ data := by
  obtain ⟨m, hmem, rfl⟩ := hmask
  obtain ⟨i, hi, h0⟩ := List.mem_iff_getElem.mp hmem
  have hlt : i < data.length := by omega
  obtain ⟨c, hc, -⟩ := exists_byte_ne data[i] data[i]
  refine ⟨data.set i c, List.length_set, fun j hj hmj => ?_, fun heq => hc ?_⟩
  · refine List.getElem?_set_ne ?_
    rintro rfl
    exact hmj (by rw [List.getElem?_eq_getElem hi, h0])
  · have hget : (data.set i c)[i]? = some c := List.getElem?_set_self hlt
    rw [heq, List.getElem?_eq_getElem hlt] at hget
    exact (Option.some.inj hget).symm

theorem exists_passed (h : Masked r items) (hpass : Passable items) (hdata : r.data ≠ []) :
    ∃ item, item.length = r.data.length ∧ (r.request items).takes item = false := by
  obtain ⟨hmask, hnullMask⟩ := hpass
  obtain ⟨item, hlen, hitem⟩ := exists_differing r.data
    (if items.nullData = [] then List.replicate r.data.length 0 else items.nullData)
  refine ⟨item, hlen, Bool.eq_false_iff.mpr fun htakes => ?_⟩
  rcases request_takes.mp htakes with ha | hn
  · exact not_agrees_of_differing h.dataMask (fun i hi => (hitem i hi).1) hmask ha
  · by_cases hnull : items.nullData = []
    · have hpos : 0 < r.data.length := List.length_pos_iff.mpr hdata
      have h0 := (hitem 0 hpos).2
      rw [IsNull, if_pos (by rw [hnull]; rfl)] at hn
      rw [if_pos hnull, List.getElem?_replicate_of_lt hpos,
        List.getElem?_eq_getElem (by omega)] at h0
      exact h0 (congrArg some (hn _ (List.getElem_mem _)))
    · obtain ⟨hlenNull, hlenMask⟩ := h.null.resolve_left hnull
      rw [IsNull, if_neg (by simpa using hnull)] at hn
      refine not_agrees_of_differing (by omega) (fun i hi => ?_) (hnullMask.resolve_left hnull) hn
      have := (hitem i (by omega)).2
      rwa [if_neg hnull] at this

theorem takes_of_not_passable (h : Masked r items) (hpass : ¬ Passable items) :
    (r.request items).takes item = true := by
  rw [request_takes]
  rcases not_and_or.mp hpass with hmask | hnull
  · exact .inl (agrees_of_blank h.dataMask hmask)
  · right
    obtain ⟨hne, hnullMask⟩ := not_or.mp hnull
    obtain ⟨hlenNull, hlenMask⟩ := h.null.resolve_left hne
    rw [IsNull, if_neg (by simpa using hne)]
    exact agrees_of_blank (by omega) hnullMask

theorem exists_replaced (h : Masked r items) (hrep : Replaceable r items) :
    ∃ item, item.length = r.data.length ∧ (r.request items).takes item = true ∧ item ≠ r.data := by
  rcases hrep with hmask | hrep
  · obtain ⟨item, hlen, hagree, hne⟩ := exists_agrees_ne h.dataMask hmask
    exact ⟨item, hlen, request_takes.mpr (.inl hagree), hne⟩
  by_cases hnull : items.nullData = []
  · rw [if_pos hnull] at hrep
    obtain ⟨b, hb, hb0⟩ := hrep
    refine ⟨List.replicate r.data.length 0, List.length_replicate, request_takes.mpr (.inr ?_), ?_⟩
    · rw [IsNull, if_pos (by rw [hnull]; rfl)]
      exact fun b hb => List.eq_of_mem_replicate hb
    · intro heq
      rw [← heq] at hb
      exact hb0 (List.eq_of_mem_replicate hb)
  · rw [if_neg hnull] at hrep
    obtain ⟨hlenNull, hlenMask⟩ := h.null.resolve_left hnull
    have htakes : ∀ item, Agrees item items.nullData items.nullDataMask →
        (r.request items).takes item = true := by
      intro item hagree
      refine request_takes.mpr (.inr ?_)
      rw [IsNull, if_neg (by simpa using hnull)]
      exact hagree
    by_cases hne : items.nullData = r.data
    · obtain ⟨item, hlen, hagree, hitem⟩ :=
        exists_agrees_ne (by omega) (hrep.resolve_left (not_not.mpr hne))
      exact ⟨item, hlen, htakes item (by rw [hne]; exact hagree), hitem⟩
    · exact ⟨items.nullData, hlenNull, htakes _ (Agrees.refl _ _), hne⟩

theorem replaceable_of_takes (h : Masked r items) (hlen : item.length = r.data.length)
    (htakes : (r.request items).takes item = true) (hne : item ≠ r.data) : Replaceable r items := by
  by_contra hrep
  obtain ⟨hmask, hrep⟩ := not_or.mp hrep
  push Not at hmask
  rcases request_takes.mp htakes with hagree | hnullItem
  · exact hne ((agrees_full hlen h.dataMask hmask).mp hagree)
  by_cases hnull : items.nullData = []
  · rw [if_pos hnull] at hrep
    rw [IsNull, if_pos (by rw [hnull]; rfl)] at hnullItem
    push Not at hrep
    refine hne (List.ext_getElem hlen fun i hi hd => ?_)
    rw [hnullItem _ (List.getElem_mem hi), hrep _ (List.getElem_mem hd)]
  · rw [if_neg hnull] at hrep
    rw [IsNull, if_neg (by simpa using hnull)] at hnullItem
    obtain ⟨hlenNull, hlenMask⟩ := h.null.resolve_left hnull
    obtain ⟨hdata, hnullMask⟩ := not_or.mp hrep
    push Not at hnullMask
    have hitem : item = items.nullData :=
      (agrees_full (by omega) (by omega) hnullMask).mp hnullItem
    exact hne (hitem.trans (not_not.mp hdata))

end Items

/-! ## The loop over the items -/

section Loop

variable {σ : Type} {A : Adapter σ} {r : Region} {items : ArrayItems} {contents : Bytes} {mem : σ}
  {n x y : Nat}

/-- The item as the loop reads it, some of it perhaps past the end. -/
def itemOf (A : Adapter σ) (r : Region) (contents : Bytes) (x : Nat) : Bytes :=
  bytesAt A contents (x * r.data.length % 2 ^ 64) r.data.length

theorem length_itemOf : (itemOf A r contents x).length = r.data.length := by simp [itemOf, bytesAt]

theorem findSlot_itemOf (h : Masked r items) : findSlot A r.data items contents (n + 1) x =
    if (r.request items).takes (itemOf A r contents x) then
      (if itemOf A r contents x = r.data then .present else .at x)
    else findSlot A r.data items contents n (x + 1) := findSlot_succ A h rfl length_itemOf

theorem findSlot_one (h : Masked r items) : findSlot A r.data items contents 1 x = .none ↔
    (r.request items).takes (itemOf A r contents x) = false := by
  rw [findSlot_itemOf h]
  split_ifs with ht he
  · simp [ht]
  · simp [ht]
  · simpa [findSlot] using ht

theorem mem_examined (h : Masked r items) : y ∈ examined A r.data items contents n x ↔
    x ≤ y ∧ y < x + n ∧
      ∀ z, x ≤ z → z < y → (r.request items).takes (itemOf A r contents z) = false := by
  induction n generalizing x with
  | zero => simp [examined]; omega
  | succ n ih =>
    rw [examined, List.mem_cons]
    constructor
    · rintro (rfl | hy)
      · exact ⟨le_refl _, by omega, fun z h1 h2 => by omega⟩
      · split_ifs at hy with hgo
        · obtain ⟨h1, h2, hpassed⟩ := ih.mp hy
          refine ⟨by omega, by omega, fun z hxz hzy => ?_⟩
          rcases Nat.eq_or_lt_of_le hxz with rfl | hlt
          · exact (findSlot_one h).mp hgo
          · exact hpassed z hlt hzy
        · cases hy
    · rintro ⟨h1, h2, hpassed⟩
      rcases Nat.eq_or_lt_of_le h1 with rfl | hlt
      · exact .inl rfl
      · right
        rw [if_pos ((findSlot_one h).mpr (hpassed x (le_refl _) hlt))]
        exact ih.mpr ⟨hlt, by omega, fun z hz => hpassed z (by omega)⟩

theorem findSlot_eq_at (h : Masked r items) : findSlot A r.data items contents n x = .at y ↔
    x ≤ y ∧ y < x + n ∧ (r.request items).takes (itemOf A r contents y) = true ∧
      itemOf A r contents y ≠ r.data ∧
      ∀ z, x ≤ z → z < y → (r.request items).takes (itemOf A r contents z) = false := by
  induction n generalizing x with
  | zero => simp [findSlot]; omega
  | succ n ih =>
    rw [findSlot_itemOf h]
    constructor
    · intro hat
      split_ifs at hat with htakes hdata
      · cases hat
        exact ⟨le_refl _, by omega, htakes, hdata, fun z h1 h2 => by omega⟩
      · obtain ⟨h1, h2, h3, h4, hpassed⟩ := ih.mp hat
        refine ⟨by omega, by omega, h3, h4, fun z hxz hzy => ?_⟩
        rcases Nat.eq_or_lt_of_le hxz with rfl | hlt
        · exact Bool.eq_false_iff.mpr htakes
        · exact hpassed z hlt hzy
    · rintro ⟨h1, h2, htakes, hdata, hpassed⟩
      rcases Nat.eq_or_lt_of_le h1 with rfl | hlt
      · rw [if_pos htakes, if_neg hdata]
      · rw [if_neg (Bool.eq_false_iff.mp (hpassed x (le_refl _) hlt))]
        exact ih.mpr ⟨hlt, by omega, htakes, hdata, fun z hz => hpassed z (by omega)⟩

/-- Where no item can be passed over, the loop ends at the first. -/
theorem eq_zero_of_not_passable (h : Masked r items) (hpass : ¬ Passable items)
    (hpassed : ∀ z, 0 ≤ z → z < y → (r.request items).takes (itemOf A r contents z) = false) :
    y = 0 := by
  by_contra hne
  have htakes : (r.request items).takes (itemOf A r contents 0) = true :=
    takes_of_not_passable h hpass
  rw [hpassed 0 (le_refl _) (by omega)] at htakes
  cases htakes

theorem findSlot_recording (data : Bytes) (items : ArrayItems) (contents : Bytes) (n x : Nat) :
    findSlot (recording A) data items contents n x = findSlot A data items contents n x := by
  induction n generalizing x with
  | zero => rfl
  | succ n ih =>
    unfold findSlot
    rw [ih]
    rfl

/-- A write writes to the item that the loop stops at, if any. -/
theorem mem_targets (h : Masked r items) {a : Nat} : a ∈ r.targets A mem ↔
    ∃ contents x, A.read mem r.addr (items.numItems * r.data.length % 2 ^ 64) = .ok contents ∧
      findSlot A r.data items contents items.numItems 0 = .at x ∧
      a = add64 r.addr (x * r.data.length) := by
  have hread : (recording A).read (mem, []) = A.read mem := rfl
  unfold Region.targets Region.write
  rw [h.isArray]
  dsimp only
  rw [hread]
  cases A.read mem r.addr (items.numItems * r.data.length % 2 ^ 64) with
  | error what => simp
  | ok contents =>
    dsimp only
    rw [findSlot_recording]
    match hs : findSlot A r.data items contents items.numItems 0 with
    | .present => simp [hs]
    | .none => simp [hs]
    | .at x =>
      cases hw : (A.write mem (add64 r.addr (x * r.data.length)) r.data).1 <;>
        simp [recording, hw, hs]

end Loop

/-! ## Memory with given items -/

section Layout

variable {base size x : Nat} {f : Nat → Bytes}

/-- Memory that has the item `f x` at the place of item `x` of an array. -/
def layout (base size : Nat) (f : Nat → Bytes) : Nat → UInt8 := fun a =>
  ((f ((a - base) / size))[(a - base) % size]?).getD 0

theorem itemAt_layout (hlen : (f x).length = size) :
    itemAt (layout base size f) base size x = f x := by
  refine List.ext_getElem (length_itemAt.trans hlen.symm) fun i hi hf => ?_
  have hsize : i < size := by rwa [length_itemAt] at hi
  have hdiv : (x * size + i) / size = x := by
    rw [Nat.mul_comm, Nat.mul_add_div (by omega), Nat.div_eq_of_lt hsize, Nat.add_zero]
  have hmod : (x * size + i) % size = i := by
    rw [Nat.mul_comm, Nat.mul_add_mod, Nat.mod_eq_of_lt hsize]
  simp only [itemAt, List.getElem_map, List.getElem_range, layout, Nat.add_assoc,
    Nat.add_sub_cancel_left, hdiv, hmod, List.getElem?_eq_getElem hf, Option.getD_some]

end Layout

theorem flatMemory_exactReads (stray : Bytes → Nat → UInt8) : ExactReads (flatMemory stray) := by
  intro mem addr size contents h
  cases h
  simp

section Main

variable {r : Region} {items : ArrayItems} {x : Nat} {f : Nat → Bytes} {mem : Nat → UInt8}

/-- Memory whose reads past the end find zeros. -/
def plainMemory : Adapter (Nat → UInt8) := flatMemory fun _ _ => 0

/-- What a write of the region reads of memory. -/
def Region.contentsOf (r : Region) (items : ArrayItems) (mem : Nat → UInt8) : Bytes :=
  (List.range (items.numItems * r.data.length % 2 ^ 64)).map fun i => mem (r.addr + i)

theorem itemOf_layout (hf : (f x).length = r.data.length)
    (hx : x * r.data.length + r.data.length ≤ items.numItems * r.data.length % 2 ^ 64) :
    itemOf plainMemory r (r.contentsOf items (layout r.addr r.data.length f)) x = f x := by
  have := Nat.mod_lt (items.numItems * r.data.length) (show 0 < 2 ^ 64 by omega)
  rw [itemOf, Region.contentsOf, bytesAt_contents _ hx (by omega), itemAt_layout hf]

theorem AlwaysInBounds.first (h : AlwaysInBounds r items) (hpos : 0 < items.numItems)
    (hmask : Masked r items) : r.data.length ≤ items.numItems * r.data.length % 2 ^ 64 := by
  have hb := (h _ plainMemory (flatMemory_exactReads _) fun _ => 0).examines _ rfl 0
    ((mem_examined hmask).mpr ⟨le_refl _, by omega, fun z _ hz => absurd hz (Nat.not_lt_zero z)⟩)
  simpa using hb

/-- The read of a product that wrapped around ends inside the array, and the loop
passes over every item up to there. -/
theorem AlwaysInBounds.product (h : AlwaysInBounds r items) (hmask : Masked r items)
    (hdata : r.data ≠ []) (hpass : Passable items) : items.numItems * r.data.length < 2 ^ 64 := by
  by_contra hwrap
  have hlen : 0 < r.data.length := List.length_pos_iff.mpr hdata
  obtain ⟨item, hitem, hpassed⟩ := exists_passed hmask hpass hdata
  have hmod := Nat.mod_lt (items.numItems * r.data.length) (show 0 < 2 ^ 64 by omega)
  generalize hread : items.numItems * r.data.length % 2 ^ 64 = total at hmod
  have hq := Nat.div_add_mod total r.data.length
  have hrest := Nat.mod_lt total hlen
  generalize total / r.data.length = q at hq
  rw [Nat.mul_comm] at hq
  have hlt : q < items.numItems := by
    refine Nat.lt_of_mul_lt_mul_right (a := r.data.length) ?_
    omega
  have hb := (h _ plainMemory (flatMemory_exactReads _)
    (layout r.addr r.data.length fun _ => item)).examines _ rfl q
  have hexam : q ∈ examined plainMemory r.data items
      (r.contentsOf items (layout r.addr r.data.length fun _ => item)) items.numItems 0 := by
    refine (mem_examined hmask).mpr ⟨Nat.zero_le _, by omega, fun z _ hz => ?_⟩
    have := Nat.mul_le_mul_right r.data.length hz
    rw [Nat.succ_mul] at this
    rw [itemOf_layout hitem (by omega)]
    exact hpassed
  have := hb hexam
  rw [Nat.mod_eq_of_lt (show q * r.data.length < 2 ^ 64 by omega), List.length_map,
    List.length_range, hread] at this
  omega

theorem AlwaysInBounds.last (h : AlwaysInBounds r items) (hmask : Masked r items)
    (hdata : r.data ≠ []) (hpos : 0 < items.numItems) (haddr : r.addr < 2 ^ 64)
    (hpass : Passable items) (hrep : Replaceable r items) :
    r.addr + (items.numItems - 1) * r.data.length < 2 ^ 64 := by
  have hproduct := h.product hmask hdata hpass
  obtain ⟨item, hitem, hpassed⟩ := exists_passed hmask hpass hdata
  obtain ⟨old, hold, htakes, hne⟩ := exists_replaced hmask hrep
  have hlast : (items.numItems - 1) * r.data.length + r.data.length =
      items.numItems * r.data.length := by
    rw [← Nat.succ_mul]
    congr 1
    omega
  have hfit : ∀ z ≤ items.numItems - 1,
      z * r.data.length + r.data.length ≤ items.numItems * r.data.length % 2 ^ 64 := by
    intro z hz
    have := Nat.mul_le_mul_right r.data.length hz
    rw [Nat.mod_eq_of_lt hproduct]
    omega
  let f x := if x = items.numItems - 1 then old else item
  have hlen : ∀ x, (f x).length = r.data.length := fun x => by
    dsimp only [f]
    split_ifs
    · exact hold
    · exact hitem
  have hslot : findSlot plainMemory r.data items
      (r.contentsOf items (layout r.addr r.data.length f)) items.numItems 0 =
        .at (items.numItems - 1) := by
    refine (findSlot_eq_at hmask).mpr ⟨Nat.zero_le _, by omega, ?_, ?_, fun z _ hz => ?_⟩
    · rw [itemOf_layout (hlen _) (hfit _ (le_refl _))]
      simpa [f] using htakes
    · rw [itemOf_layout (hlen _) (hfit _ (le_refl _))]
      simpa [f] using hne
    · rw [itemOf_layout (hlen _) (hfit _ (by omega))]
      dsimp only [f]
      rw [if_neg (by omega)]
      exact hpassed
  obtain ⟨x, -, hx⟩ := (h _ plainMemory (flatMemory_exactReads _)
    (layout r.addr r.data.length f)).targets _
      ((mem_targets hmask).mpr ⟨_, _, rfl, hslot, rfl⟩)
  by_contra hwrap
  have := Nat.le_add_right r.addr (x * r.data.length)
  unfold add64 at hx
  omega

/-- A write stays inside what it read, for every target, if and only if the first
item was read and items are passed over in arrays that do not wrap around only. -/
theorem array_in_bounds_iff (hmask : Masked r items) (hdata : r.data ≠ [])
    (hpos : 1 ≤ items.numItems) (haddr : r.addr < 2 ^ 64) :
    AlwaysInBounds r items ↔ FitsRead r items := by
  refine ⟨fun h => ⟨h.first hpos hmask, h.product hmask hdata, h.last hmask hdata hpos haddr⟩,
    fun h σ A hexact mem => ⟨fun contents hread x hx => ?_, fun a ha => ?_⟩⟩
  · obtain ⟨-, hx, hpassed⟩ := (mem_examined hmask).mp hx
    rw [hexact _ _ _ _ hread]
    by_cases hpass : Passable items
    · have hle := Nat.mul_le_mul_right r.data.length (show x + 1 ≤ items.numItems by omega)
      rw [Nat.succ_mul] at hle
      have hproduct := h.product hpass
      rw [Nat.mod_eq_of_lt hproduct, Nat.mod_eq_of_lt (by omega)]
      exact hle
    · obtain rfl := eq_zero_of_not_passable hmask hpass hpassed
      simpa using h.first
  · obtain ⟨contents, x, hread, hslot, rfl⟩ := (mem_targets hmask).mp ha
    obtain ⟨-, hx, htakes, hne, hpassed⟩ := (findSlot_eq_at hmask).mp hslot
    rw [Nat.zero_add] at hx
    refine ⟨x, hx, add64_eq ?_⟩
    by_cases hpass : Passable items
    · have hle := Nat.mul_le_mul_right r.data.length (show x ≤ items.numItems - 1 by omega)
      have := h.last hpass (replaceable_of_takes hmask length_itemOf htakes hne)
      omega
    · obtain rfl := eq_zero_of_not_passable hmask hpass hpassed
      omega

/-- The array of two items is read whole. -/
theorem array_in_bounds_pair : AlwaysInBounds (pairRegion 5) ⟨2, [0xFF], [], []⟩ := by
  refine (array_in_bounds_iff (pairRegion_wellSized 5).masked ?_ ?_ ?_).mpr ⟨?_, ?_, ?_⟩ <;>
    simp [pairRegion, Region.newArray]

/-- An array of 2^63 items of two bytes: its size is 0 as a 64-bit number. -/
def wrappedRegion : Region :=
  Region.newArray "" 0 0x1000 (2 ^ 63) [1, 2] [0xFF, 0xFF] none none true

/-- Nothing is read, and the first item is looked at. -/
theorem array_out_of_bounds :
    wrappedRegion.items = some ⟨2 ^ 63, [0xFF, 0xFF], [], []⟩ ∧
      ¬ AlwaysInBounds wrappedRegion ⟨2 ^ 63, [0xFF, 0xFF], [], []⟩ := by
  refine ⟨rfl, fun h => ?_⟩
  have hfirst := h.first (by decide) ⟨rfl, rfl, .inl rfl⟩
  exact absurd hfirst (by decide)

end Main

end RegionFreezer
end Memwatch
