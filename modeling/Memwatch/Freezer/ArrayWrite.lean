import Memwatch.Freezer.Model
import Memwatch.Lib.Slots

/-!
# Writing an array region

One `ArrayRegion::write` on memory where every read and write succeeds. Its loop
stops at the first item that matches the data or is null, whichever comes first,
so it is a request for a slot of the array.
-/

namespace Memwatch

open Lib

namespace RegionFreezer

/-! ## Flat memory -/

def writeBytes (mem : Nat → UInt8) (addr : Nat) (data : Bytes) : Nat → UInt8 := fun a =>
  if addr ≤ a then (data[a - addr]?).getD (mem a) else mem a

/-- Memory that can be read and written everywhere. -/
def flatMemory (stray : Bytes → Nat → UInt8) : Adapter (Nat → UInt8) where
  read mem addr size := .ok ((List.range size).map fun i => mem (addr + i))
  write mem addr data := (.ok (), writeBytes mem addr data)
  stray := stray

def itemAt (mem : Nat → UInt8) (base size x : Nat) : Bytes :=
  (List.range size).map fun i => mem (base + x * size + i)

def itemsAt (mem : Nat → UInt8) (base numItems size : Nat) : List Bytes :=
  (List.range numItems).map (itemAt mem base size)

section Memory

variable {mem : Nat → UInt8} {base numItems size x y : Nat} {data : Bytes}

@[simp] theorem length_itemAt : (itemAt mem base size x).length = size := by simp [itemAt]

@[simp] theorem length_itemsAt : (itemsAt mem base numItems size).length = numItems := by
  simp [itemsAt]

theorem getElem?_itemsAt (h : x < numItems) :
    (itemsAt mem base numItems size)[x]? = some (itemAt mem base size x) := by
  simp [itemsAt, List.getElem?_map, List.getElem?_range h]

theorem length_of_mem_itemsAt {a : Bytes} (h : a ∈ itemsAt mem base numItems size) :
    a.length = size := by
  obtain ⟨x, -, rfl⟩ := List.mem_map.mp h
  exact length_itemAt

theorem writeBytes_of_outside {addr a : Nat} (h : a < addr ∨ addr + data.length ≤ a) :
    writeBytes mem addr data a = mem a := by
  unfold writeBytes
  split
  · rw [List.getElem?_eq_none (by omega)]; rfl
  · rfl

theorem writeBytes_of_inside {addr i : Nat} (h : i < data.length) :
    writeBytes mem addr data (addr + i) = data[i] := by
  unfold writeBytes
  rw [if_pos (Nat.le_add_right _ _), Nat.add_sub_cancel_left, List.getElem?_eq_getElem h]
  rfl

theorem item_apart (hne : y ≠ x) {i : Nat} (hi : i < size) :
    base + y * size + i < base + x * size ∨ base + x * size + size ≤ base + y * size + i := by
  rcases Nat.lt_or_gt_of_ne hne with hlt | hgt
  · left
    have := Nat.mul_le_mul_right size hlt
    rw [Nat.succ_mul] at this
    omega
  · right
    have := Nat.mul_le_mul_right size hgt
    rw [Nat.succ_mul] at this
    omega

theorem itemAt_writeBytes_self (h : data.length = size) :
    itemAt (writeBytes mem (base + x * size) data) base size x = data := by
  refine List.ext_getElem (by rw [length_itemAt, h]) fun i hi hd => ?_
  simp only [itemAt, List.getElem_map, List.getElem_range]
  exact writeBytes_of_inside hd

theorem itemAt_writeBytes_of_ne (h : data.length = size) (hne : y ≠ x) :
    itemAt (writeBytes mem (base + x * size) data) base size y = itemAt mem base size y := by
  refine List.map_congr_left fun i hi => writeBytes_of_outside ?_
  rw [h]
  exact item_apart hne (List.mem_range.mp hi)

theorem itemsAt_writeBytes (h : data.length = size) (hx : x < numItems) :
    itemsAt (writeBytes mem (base + x * size) data) base numItems size =
      (itemsAt mem base numItems size).set x data := by
  refine List.ext_getElem? fun y => ?_
  rcases Nat.lt_or_ge y numItems with hy | hy
  · rw [getElem?_itemsAt hy]
    by_cases hne : y = x
    · subst hne
      rw [itemAt_writeBytes_self h, List.getElem?_set_self (by simpa using hy)]
    · rw [itemAt_writeBytes_of_ne h hne, List.getElem?_set_ne (Ne.symm hne), getElem?_itemsAt hy]
  · rw [List.getElem?_eq_none (by simpa using hy), List.getElem?_eq_none (by simpa using hy)]

theorem writeBytes_itemAt (h : itemAt mem base size x = data) :
    writeBytes mem (base + x * size) data = mem := by
  funext a
  by_cases hin : base + x * size ≤ a ∧ a < base + x * size + data.length
  · obtain ⟨i, rfl⟩ := Nat.exists_eq_add_of_le hin.1
    have hi : i < data.length := by omega
    rw [writeBytes_of_inside hi]
    subst h
    simp [itemAt]
  · exact writeBytes_of_outside (by omega)

theorem writeBytes_of_outside_array (h : data.length = size) (hx : x < numItems) {a : Nat}
    (ha : a < base ∨ base + numItems * size ≤ a) :
    writeBytes mem (base + x * size) data a = mem a := by
  have := Nat.mul_le_mul_right size hx
  rw [Nat.succ_mul] at this
  exact writeBytes_of_outside (by omega)

end Memory

/-! ## Masked comparisons -/

/-- The bytes are equal where the mask is not zero. -/
def Agrees (item data mask : Bytes) : Prop :=
  ∀ i < data.length, mask[i]? ≠ some 0 → item[i]? = data[i]?

instance (item data mask : Bytes) : Decidable (Agrees item data mask) :=
  inferInstanceAs (Decidable (∀ i < _, _))

theorem Agrees.refl (data mask : Bytes) : Agrees data data mask := fun _ _ _ => rfl

theorem agrees_cons {x y m : UInt8} {item data mask : Bytes} :
    Agrees (x :: item) (y :: data) (m :: mask) ↔ (m ≠ 0 → x = y) ∧ Agrees item data mask := by
  constructor
  · intro h
    refine ⟨fun hm => ?_, fun i hi hmi => ?_⟩
    · simpa using h 0 (by simp) (by simpa using hm)
    · simpa using h (i + 1) (by simpa using hi) (by simpa using hmi)
  · rintro ⟨h0, h⟩ i hi hmi
    cases i with
    | zero => simpa using h0 (by simpa using hmi)
    | succ i => simpa using h i (by simpa using hi) (by simpa using hmi)

theorem agrees_full {item data mask : Bytes} (hi : item.length = data.length)
    (hm : mask.length = data.length) (hfull : ∀ m ∈ mask, m ≠ 0) :
    Agrees item data mask ↔ item = data := by
  constructor
  · intro h
    refine List.ext_getElem hi fun i hii hid => ?_
    have hmi : mask[i]? ≠ some 0 := by
      rw [List.getElem?_eq_getElem (by omega)]
      intro h0
      exact hfull _ (List.getElem_mem _) (Option.some.inj h0)
    simpa [List.getElem?_eq_getElem, hii, hid] using h i hid hmi
  · rintro rfl; exact Agrees.refl _ _

theorem maskedDifferences_eq {item data mask : Bytes} {d : Int} (hi : item.length = data.length)
    (hm : mask.length = data.length) : maskedDifferences item data mask d =
      if Agrees item data mask then if item = data then d else 1 else -1 := by
  induction item generalizing data mask d with
  | nil =>
    obtain rfl : data = [] := List.eq_nil_of_length_eq_zero hi.symm
    obtain rfl : mask = [] := List.eq_nil_of_length_eq_zero hm
    rw [if_pos (Agrees.refl _ _), if_pos rfl]
    rfl
  | cons x item ih =>
    obtain _ | ⟨y, data⟩ := data
    · cases hi
    obtain _ | ⟨m, mask⟩ := mask
    · cases hm
    have ih' := fun d => ih (d := d) (Nat.succ.inj hi) (Nat.succ.inj hm)
    simp only [maskedDifferences, agrees_cons]
    by_cases hxy : x = y
    · subst hxy
      rw [if_neg (not_not.mpr rfl), ih']
      simp
    · rw [if_pos hxy]
      by_cases h0 : m = 0
      · simp [h0, hxy, ih']
      · simp [h0, hxy]

section Write

variable {stray : Bytes → Nat → UInt8} {mem : Nat → UInt8} {r : Region} {items : ArrayItems}

theorem bytesAt_self {σ : Type} (A : Adapter σ) (b : Bytes) : bytesAt A b 0 b.length = b := by
  refine List.ext_getElem (by simp [bytesAt]) fun i hi hb => ?_
  simp [bytesAt, hb]

theorem memcmpMask_eq {σ : Type} (A : Adapter σ) {item data mask : Bytes} {size : Nat}
    (hi : item.length = size) (hd : data.length = size) (hm : mask.length = size) :
    memcmpMask A item data mask size =
      if Agrees item data mask then if item = data then 0 else 1 else -1 := by
  have hself : ∀ b : Bytes, b.length = size → bytesAt A b 0 size = b := by
    rintro b rfl; exact bytesAt_self A b
  rw [memcmpMask, hself _ hi, hself _ hd, hself _ hm]
  exact maskedDifferences_eq (hi.trans hd.symm) (hm.trans hd.symm)

def IsNull (items : ArrayItems) (item : Bytes) : Prop :=
  if items.nullData.isEmpty then ∀ b ∈ item, b = 0
  else Agrees item items.nullData items.nullDataMask

instance (items : ArrayItems) (item : Bytes) : Decidable (IsNull items item) := by
  unfold IsNull; infer_instance

/-- A region asks for an item that matches its data or is null. -/
def Region.request (r : Region) (items : ArrayItems) : Request Bytes where
  value := r.data
  takes item := decide (Agrees item r.data items.dataMask) || decide (IsNull items item)

theorem request_takes {item : Bytes} : (r.request items).takes item = true ↔
    Agrees item r.data items.dataMask ∨ IsNull items item := by
  simp [Region.request]

/-- Masks and null data are as long as the data, and the array ends in the address space. -/
structure WellSized (r : Region) (items : ArrayItems) : Prop where
  isArray : r.items = some items
  dataMask : items.dataMask.length = r.data.length
  null : items.nullData = [] ∨
    items.nullData.length = r.data.length ∧ items.nullDataMask.length = r.data.length
  size_lt : items.numItems * r.data.length < 2 ^ 64
  fits : r.addr + items.numItems * r.data.length ≤ 2 ^ 64

/-- The array's items as the region cuts them. -/
def Region.itemsOf (r : Region) (items : ArrayItems) (mem : Nat → UInt8) : List Bytes :=
  itemsAt mem r.addr items.numItems r.data.length

theorem bytesAt_contents {σ : Type} (A : Adapter σ) {base total size x : Nat}
    (hx : x * size + size ≤ total) (hlt : x * size < 2 ^ 64) :
    bytesAt A ((List.range total).map fun i => mem (base + i)) (x * size % 2 ^ 64) size =
      itemAt mem base size x := by
  rw [Nat.mod_eq_of_lt hlt]
  refine List.map_congr_left fun i hi => ?_
  have hi := List.mem_range.mp hi
  rw [List.getElem?_map, List.getElem?_range (show x * size + i < total by omega)]
  rw [Nat.add_assoc]
  rfl

/-- Masks and null data are as long as the data. -/
structure Masked (r : Region) (items : ArrayItems) : Prop where
  isArray : r.items = some items
  dataMask : items.dataMask.length = r.data.length
  null : items.nullData = [] ∨
    items.nullData.length = r.data.length ∧ items.nullDataMask.length = r.data.length

theorem WellSized.masked (h : WellSized r items) : Masked r items := ⟨h.isArray, h.dataMask, h.null⟩

theorem findSlot_succ {σ : Type} (A : Adapter σ) (h : Masked r items) {contents item : Bytes}
    {n x : Nat} (hitem : bytesAt A contents (x * r.data.length % 2 ^ 64) r.data.length = item)
    (hlen : item.length = r.data.length) :
    findSlot A r.data items contents (n + 1) x =
      if (r.request items).takes item then (if item = r.data then .present else .at x)
      else findSlot A r.data items contents n (x + 1) := by
  simp only [findSlot, hitem, memcmpMask_eq A hlen rfl h.dataMask, request_takes]
  by_cases ha : Agrees item r.data items.dataMask
  · by_cases heq : item = r.data
    · simp [heq, Agrees.refl]
    · simp [ha, heq]
  · have hne : item ≠ r.data := fun heq => ha (heq ▸ Agrees.refl _ _)
    rcases h.null with hnull | ⟨hnull, hnullMask⟩
    · simp [ha, hne, IsNull, hnull]
    · by_cases hempty : items.nullData.isEmpty
      · simp [ha, hne, IsNull, hempty]
      · rw [memcmpMask_eq A hlen hnull hnullMask]
        by_cases hn : Agrees item items.nullData items.nullDataMask
        · have hge : (0 : Int) ≤ if item = items.nullData then 0 else 1 := by split <;> decide
          simp [ha, hne, IsNull, hempty, hn, hge]
        · simp [ha, IsNull, hempty, hn]

/-- The loop over the items finds the first one that is taken. -/
theorem findSlot_eq {σ : Type} (A : Adapter σ) (mem : Nat → UInt8) (h : WellSized r items)
    {n x : Nat}
    (hx : x + n = items.numItems) :
    findSlot A r.data items ((List.range (items.numItems * r.data.length)).map fun i =>
        mem (r.addr + i)) n x =
      match ((List.range' x n).map (itemAt mem r.addr r.data.length)).findIdx?
        (r.request items).takes with
      | none => .none
      | some j =>
        if itemAt mem r.addr r.data.length (x + j) = r.data then .present else .at (x + j) := by
  induction n generalizing x with
  | zero => rfl
  | succ n ih =>
    have hrest := ih (x := x + 1) (by omega)
    have hle := Nat.mul_le_mul_right r.data.length (show x + 1 ≤ items.numItems by omega)
    rw [Nat.succ_mul] at hle
    have hlt := h.size_lt
    rw [findSlot_succ A h.masked (bytesAt_contents A hle (by omega)) length_itemAt, hrest,
      List.range'_succ, List.map_cons, List.findIdx?_cons]
    by_cases ht : (r.request items).takes (itemAt mem r.addr r.data.length x) = true
    · rw [if_pos ht, if_pos ht]; rfl
    · rw [if_neg ht, if_neg ht]
      cases (List.map (itemAt mem r.addr r.data.length) (List.range' (x + 1) n)).findIdx?
        (r.request items).takes with
      | none => rfl
      | some j => simp only [Option.map_some, show x + 1 + j = x + (j + 1) by omega]

theorem write_flatMemory (h : WellSized r items) :
    r.write (flatMemory stray) mem =
      match (r.request items).slot (r.itemsOf items mem) with
      | none => ({ r with error := "no available spaces" }, mem)
      | some x => (if itemAt mem r.addr r.data.length x = r.data then { r with error := "" } else r,
          writeBytes mem (r.addr + x * r.data.length) r.data) := by
  have hread : (flatMemory stray).read mem r.addr (items.numItems * r.data.length % 2 ^ 64) =
      .ok ((List.range (items.numItems * r.data.length)).map fun i => mem (r.addr + i)) := by
    rw [Nat.mod_eq_of_lt h.size_lt]; rfl
  have hfind := findSlot_eq (flatMemory stray) mem h (Nat.zero_add _)
  rw [← List.range_eq_range'] at hfind
  change _ = match (r.request items).slot (r.itemsOf items mem) with
    | none => _
    | some x => _ at hfind
  unfold Region.write
  rw [h.isArray]
  simp only [hread, hfind, Nat.zero_add]
  cases hs : (r.request items).slot (r.itemsOf items mem) with
  | none => rfl
  | some x =>
    have hx : x < items.numItems := by simpa [Region.itemsOf] using slot_lt hs
    have := Nat.mul_le_mul_right r.data.length hx
    have hfits := h.fits
    rw [Nat.succ_mul] at this
    by_cases heq : itemAt mem r.addr r.data.length x = r.data
    · simp only [heq, ↓reduceIte]
      rw [writeBytes_itemAt heq]
    · have hpos : 0 < r.data.length := by
        by_contra hzero
        refine heq (List.ext_getElem length_itemAt fun i _ hi => ?_)
        omega
      have hadd : add64 r.addr (x * r.data.length) = r.addr + x * r.data.length :=
        add64_eq (by omega)
      simp only [heq, ↓reduceIte, hadd]
      rfl

/-- What a write leaves: the region with another error at most, and the slot filled. -/
theorem itemsOf_write (stray : Bytes → Nat → UInt8) (mem : Nat → UInt8) (h : WellSized r items) :
    r.itemsOf items (r.write (flatMemory stray) mem).2 =
      place (r.itemsOf items mem) (r.request items) := by
  rw [write_flatMemory h, place]
  cases hs : (r.request items).slot (r.itemsOf items mem) with
  | none => rfl
  | some x => exact itemsAt_writeBytes rfl (by simpa [Region.itemsOf] using slot_lt hs)

theorem write_outside (h : WellSized r items) {a : Nat}
    (ha : a < r.addr ∨ r.addr + items.numItems * r.data.length ≤ a) :
    (r.write (flatMemory stray) mem).2 a = mem a := by
  rw [write_flatMemory h]
  cases hs : (r.request items).slot (r.itemsOf items mem) with
  | none => rfl
  | some x =>
    exact writeBytes_of_outside_array rfl (by simpa [Region.itemsOf] using slot_lt hs) ha

/-! ## Insertion of absent items -/

def Region.matching (r : Region) (items : ArrayItems) : Request Bytes where
  value := r.data
  takes item := Agrees item r.data items.dataMask

/-- The null items. -/
def Region.vacant (r : Region) (items : ArrayItems) : Request Bytes where
  value := r.data
  takes item := IsNull items item

/-- What freezing an item of an array is documented to do: at most the first item
that matches the data is changed; without one the first null item becomes the
data; without either there is an error. -/
structure InsertsIfAbsent (r : Region) (items : ArrayItems) (mem : Nat → UInt8)
    (out : Region × (Nat → UInt8)) : Prop where
  outside : ∀ a, (a < r.addr ∨ r.addr + items.numItems * r.data.length ≤ a) → out.2 a = mem a
  present : ∀ x, (r.matching items).slot (r.itemsOf items mem) = some x →
    r.itemsOf items out.2 = r.itemsOf items mem ∨
      r.itemsOf items out.2 = (r.itemsOf items mem).set x r.data
  insert : (r.matching items).slot (r.itemsOf items mem) = none →
    ∀ x, (r.vacant items).slot (r.itemsOf items mem) = some x →
      r.itemsOf items out.2 = (r.itemsOf items mem).set x r.data
  full : (r.matching items).slot (r.itemsOf items mem) = none →
    (r.vacant items).slot (r.itemsOf items mem) = none →
      out.2 = mem ∧ out.1.error = "no available spaces"

/-- No null item stands before the first item that matches the data. -/
def NoNullBefore (r : Region) (items : ArrayItems) (l : List Bytes) : Prop :=
  ∀ x, (r.matching items).slot l = some x → ∀ y < x, ∀ a, l[y]? = some a → ¬ IsNull items a

variable {l : List Bytes} {x : Nat}

theorem slot_request_of_matching (hm : (r.matching items).slot l = some x)
    (hno : ∀ y < x, ∀ a, l[y]? = some a → ¬ IsNull items a) :
    (r.request items).slot l = some x := by
  obtain ⟨⟨a, ha, ht⟩, hbefore⟩ := slot_eq_some.mp hm
  refine slot_eq_some.mpr ⟨⟨a, ha, request_takes.mpr (.inl (of_decide_eq_true ht))⟩, ?_⟩
  intro y hy b hb
  have hmatch := of_decide_eq_false (hbefore y hy b hb)
  exact Bool.eq_false_iff.mpr fun htb => (request_takes.mp htb).elim hmatch (hno y hy b hb)

theorem slot_request_of_unmatched (hm : (r.matching items).slot l = none) :
    (r.request items).slot l = (r.vacant items).slot l := by
  refine slot_congr fun a ha => ?_
  have hmatch := slot_eq_none.mp hm a ha
  simp only [Region.matching] at hmatch
  simp [Region.request, Region.vacant, of_decide_eq_false hmatch]

/-- A write inserts an absent item, and only an absent one, if and only if no null
item stands before the first matching one. -/
theorem inserts_if_absent_iff (h : WellSized r items) :
    InsertsIfAbsent r items mem (r.write (flatMemory stray) mem) ↔
      NoNullBefore r items (r.itemsOf items mem) := by
  have hplace := itemsOf_write stray mem h
  constructor
  · intro hins x hx y hy a ha hnull
    obtain ⟨-, hbefore⟩ := slot_eq_some.mp hx
    -- the write goes to some item up to `y`, which does not match
    cases hs : (r.request items).slot (r.itemsOf items mem) with
    | none =>
      have := slot_eq_none.mp hs a (List.mem_of_getElem? ha)
      rw [request_takes.mpr (.inr hnull)] at this; cases this
    | some z =>
      have hzy : z ≤ y := by
        by_contra hlt
        have := (slot_eq_some.mp hs).2 y (by omega) a ha
        rw [request_takes.mpr (.inr hnull)] at this; cases this
      obtain ⟨⟨b, hb, -⟩, -⟩ := slot_eq_some.mp hs
      have hb' : (place (r.itemsOf items mem) (r.request items))[z]? = some r.data := by
        rw [place, hs]; exact List.getElem?_set_self (slot_lt hs)
      have hdata : b ≠ r.data := by
        rintro rfl
        exact of_decide_eq_false (hbefore z (by omega) _ hb) (Agrees.refl _ _)
      rw [← hplace] at hb'
      rcases hins.present x hx with heq | heq
      · rw [heq, hb, Option.some.injEq] at hb'
        exact hdata hb'
      · rw [heq, List.getElem?_set_ne (by omega), hb, Option.some.injEq] at hb'
        exact hdata hb'
  · intro hno
    refine ⟨fun a ha => write_outside h ha, fun x hx => .inr ?_, fun hm x hx => ?_, fun hm hv => ?_⟩
    · rw [hplace, place, slot_request_of_matching hx (hno x hx)]
      rfl
    · rw [hplace, place, slot_request_of_unmatched hm, hx]
      rfl
    · rw [write_flatMemory h, slot_request_of_unmatched hm, hv]
      exact ⟨rfl, rfl⟩

end Write

/-- An array region of two one-byte items at `0x1000`. -/
def pairRegion (data : UInt8) : Region :=
  Region.newArray "" 0 0x1000 2 [data] [0xFF] none none true

def pairMemory (x y : UInt8) : Nat → UInt8 := fun a =>
  if a = 0x1000 then x else if a = 0x1001 then y else 0

theorem pairRegion_wellSized (data : UInt8) :
    WellSized (pairRegion data) ⟨2, [0xFF], [], []⟩ where
  isArray := rfl
  dataMask := rfl
  null := .inl rfl
  size_lt := by show 2 * 1 < 2 ^ 64; decide
  fits := by show 0x1000 + 2 * 1 ≤ 2 ^ 64; decide

/-- The item stands before the null one. -/
theorem inserts_if_absent_pair : InsertsIfAbsent (pairRegion 5) ⟨2, [0xFF], [], []⟩ (pairMemory 5 0)
    ((pairRegion 5).write (flatMemory fun _ _ => 0) (pairMemory 5 0)) := by
  refine (inserts_if_absent_iff (pairRegion_wellSized 5)).mpr fun x hx y hy => ?_
  have : x = 0 := Option.some.inj (hx.symm.trans rfl)
  omega

/-- The null item stands first, and the item is written twice. -/
theorem inserts_duplicate : WellSized (pairRegion 5) ⟨2, [0xFF], [], []⟩ ∧
    ¬ InsertsIfAbsent (pairRegion 5) ⟨2, [0xFF], [], []⟩ (pairMemory 0 5)
      ((pairRegion 5).write (flatMemory fun _ _ => 0) (pairMemory 0 5)) := by
  refine ⟨pairRegion_wellSized 5, fun h => ?_⟩
  rcases h.present 1 (by decide) with heq | heq
  · exact absurd heq (by decide)
  · exact absurd heq (by decide)

end RegionFreezer
end Memwatch
