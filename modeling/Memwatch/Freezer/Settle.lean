import Memwatch.Freezer.ArrayWrite
import Memwatch.Freezer.Reference
import Memwatch.Freezer.Writer

/-!
# Several regions on one array

A pass of the write thread over array regions that share an array serves their
requests for slots in the order of the regions' numbers. When the data are
distinct and null for no region, one pass serves them for good.
-/

namespace Memwatch

open Lib

namespace RegionFreezer

variable {s : RegionFreezer} {stray : Bytes → Nat → UInt8} {mem : Nat → UInt8}
  {base numItems size : Nat} {r : Region} {items : ArrayItems}

/-! ## The regions -/

/-- A region on the array of `numItems` items of `size` bytes at `base`, with a full mask. -/
structure OnArray (base numItems size : Nat) (r : Region) (items : ArrayItems) : Prop
    extends WellSized r items where
  addr : r.addr = base
  numItems : items.numItems = numItems
  size : r.data.length = size
  full : ∀ m ∈ items.dataMask, m ≠ 0

theorem OnArray.itemsOf_eq (h : OnArray base numItems size r items) (mem : Nat → UInt8) :
    r.itemsOf items mem = itemsAt mem base numItems size := by
  rw [Region.itemsOf, h.addr, h.numItems, h.size]

theorem OnArray.takes_iff (h : OnArray base numItems size r items) {item : Bytes}
    (hi : item.length = size) :
    (r.request items).takes item = true ↔ item = r.data ∨ IsNull items item := by
  rw [request_takes, agrees_full (hi.trans h.size.symm) h.dataMask h.full]

def Region.asks (r : Region) : Request Bytes :=
  match r.items with
  | some items => r.request items
  | none => ⟨r.data, fun _ => false⟩

theorem OnArray.asks_eq (h : OnArray base numItems size r items) : r.asks = r.request items := by
  rw [Region.asks, h.isArray]

/-- The array holds the region's data or an item that is null for it. -/
def Region.HasRoom (r : Region) (l : List Bytes) : Prop :=
  ∃ a ∈ l, a = r.data ∨ ∃ items, r.items = some items ∧ IsNull items a

theorem OnArray.hasRoom_iff (h : OnArray base numItems size r items) {l : List Bytes}
    (hl : ∀ a ∈ l, a.length = size) : r.HasRoom l ↔ ∃ a ∈ l, r.asks.takes a = true := by
  refine exists_congr fun a => and_congr_right fun ha => ?_
  rw [h.asks_eq, h.takes_iff (hl a ha), h.isArray]
  simp

theorem OnArray.slot_eq_none_iff (h : OnArray base numItems size r items) {l : List Bytes}
    (hl : ∀ a ∈ l, a.length = size) : r.asks.slot l = none ↔ ¬ r.HasRoom l := by
  rw [slot_eq_none, h.hasRoom_iff hl]
  simp

theorem Region.hasRoom_of_mem {l : List Bytes} (h : r.data ∈ l) : r.HasRoom l := ⟨_, h, .inl rfl⟩

/-- Regions that differ in their errors at most. -/
def UpToError (r r' : Region) : Prop := r' = { r with error := r'.error }

theorem UpToError.refl (r : Region) : UpToError r r := rfl

theorem UpToError.trans {r r' r'' : Region} (h : UpToError r r') (h' : UpToError r' r'') :
    UpToError r r'' := by
  unfold UpToError at *
  rw [h', h]

theorem UpToError.asks {r r' : Region} (h : UpToError r r') : r'.asks = r.asks := by
  rw [h]; rfl

theorem UpToError.onArray {r r' : Region} (h : UpToError r r')
    (hr : OnArray base numItems size r items) : OnArray base numItems size r' items := by
  rw [h]
  exact ⟨⟨hr.isArray, hr.dataMask, hr.null, hr.size_lt, hr.fits⟩, hr.addr, hr.numItems, hr.size,
    hr.full⟩

theorem write_upToError (h : WellSized r items) :
    UpToError r (r.write (flatMemory stray) mem).1 := by
  rw [write_flatMemory h]
  cases (r.request items).slot (r.itemsOf items mem) with
  | none => rfl
  | some x => dsimp only; split <;> rfl

theorem write_served (h : WellSized r items)
    (hs : Served (r.itemsOf items mem) (r.request items)) :
    (r.write (flatMemory stray) mem).2 = mem := by
  rw [write_flatMemory h]
  cases hx : (r.request items).slot (r.itemsOf items mem) with
  | none => rfl
  | some x =>
    have hval := hs x hx
    rw [Region.itemsOf, getElem?_itemsAt (by simpa [Region.itemsOf] using slot_lt hx)] at hval
    exact writeBytes_itemAt (Option.some.inj hval)

theorem write_no_slot (h : WellSized r items)
    (hs : (r.request items).slot (r.itemsOf items mem) = none) :
    (r.write (flatMemory stray) mem).1.error = "no available spaces" := by
  rw [write_flatMemory h, hs]

/-! ## Passes -/

/-- All enabled regions are on one array; their data are distinct and null for none. -/
structure OneArray (s : RegionFreezer) (base numItems size : Nat) : Prop where
  arrays : ∀ e ∈ s.regionsByIndex.entries, (s.heap e.2).enable = true →
    ∃ items, OnArray base numItems size (s.heap e.2) items
  distinct : s.regionsByIndex.entries.Pairwise fun d e =>
    (s.heap d.2).enable = true → (s.heap e.2).enable = true → (s.heap d.2).data ≠ (s.heap e.2).data
  notNull : ∀ d ∈ s.regionsByIndex.entries, ∀ e ∈ s.regionsByIndex.entries,
    (s.heap d.2).enable = true → (s.heap e.2).enable = true →
    ∀ items, (s.heap e.2).items = some items → ¬ IsNull items (s.heap d.2).data

/-- What the enabled regions of some entries ask for. -/
def requests (s : RegionFreezer) (es : List (Nat × Nat)) : List (Request Bytes) :=
  (es.filter fun e => (s.heap e.2).enable).map fun e => (s.heap e.2).asks

/-- Two freezers with the same regions, up to errors. -/
structure UpToErrors (s s' : RegionFreezer) : Prop where
  entries : s'.regionsByIndex = s.regionsByIndex
  region : ∀ p, UpToError (s.heap p) (s'.heap p)

theorem UpToErrors.requests_eq {s s' : RegionFreezer} (h : UpToErrors s s')
    (es : List (Nat × Nat)) : requests s' es = requests s es := by
  have henable : ∀ p, (s'.heap p).enable = (s.heap p).enable := fun p => by rw [h.region p]
  simp only [requests, henable, (h.region _).asks]

theorem OneArray.congr {s s' : RegionFreezer} (h : OneArray s base numItems size)
    (hs : UpToErrors s s') : OneArray s' base numItems size := by
  have henable : ∀ p, (s'.heap p).enable = (s.heap p).enable := fun p => by rw [hs.region p]
  have hdata : ∀ p, (s'.heap p).data = (s.heap p).data := fun p => by rw [hs.region p]
  have hitems : ∀ p, (s'.heap p).items = (s.heap p).items := fun p => by rw [hs.region p]
  refine ⟨fun e he hon => ?_, ?_, ?_⟩
  · rw [hs.entries] at he
    rw [henable] at hon
    obtain ⟨items, ha⟩ := h.arrays e he hon
    exact ⟨items, (hs.region _).onArray ha⟩
  · simpa only [hs.entries, henable, hdata] using h.distinct
  · simpa only [hs.entries, henable, hdata, hitems] using h.notNull

theorem writeEntry_spec (stray : Bytes → Nat → UInt8) (mem : Nat → UInt8) (written : List Nat)
    {e : Nat × Nat}
    (h : (s.heap e.2).enable = true → ∃ items, OnArray base numItems size (s.heap e.2) items) :
    UpToErrors s (writeEntry (flatMemory stray) (s, mem, written) e).1 ∧
      itemsAt (writeEntry (flatMemory stray) (s, mem, written) e).2.1 base numItems size =
        placeAll (itemsAt mem base numItems size) (requests s [e]) ∧
      ((∀ q ∈ requests s [e], Served (itemsAt mem base numItems size) q) →
        (writeEntry (flatMemory stray) (s, mem, written) e).2.1 = mem) := by
  obtain ⟨k, p⟩ := e
  by_cases hon : (s.heap p).enable = true
  · obtain ⟨items, ha⟩ := h hon
    have hreq : requests s [(k, p)] = [(s.heap p).request items] := by
      simp [requests, hon, ha.asks_eq]
    simp only [writeEntry, hon, ↓reduceIte, hreq]
    refine ⟨⟨rfl, fun q => ?_⟩, ?_, fun hserved => ?_⟩
    · by_cases hq : q = p
      · subst hq
        simp only [Function.update_self]
        exact write_upToError ha.toWellSized
      · simp only [Function.update_of_ne hq]
        exact UpToError.refl _
    · rw [← ha.itemsOf_eq, ← ha.itemsOf_eq]
      exact itemsOf_write stray mem ha.toWellSized
    · refine write_served ha.toWellSized ?_
      rw [ha.itemsOf_eq]
      exact hserved _ (List.mem_singleton_self _)
  · have hreq : requests s [(k, p)] = [] := by simp [requests, hon]
    simp only [writeEntry, hon, Bool.false_eq_true, ↓reduceIte, hreq]
    exact ⟨⟨rfl, fun q => UpToError.refl _⟩, rfl, fun _ => trivial⟩

theorem UpToErrors.refl (s : RegionFreezer) : UpToErrors s s := ⟨rfl, fun _ => UpToError.refl _⟩

theorem UpToErrors.trans {s s' s'' : RegionFreezer} (h : UpToErrors s s')
    (h' : UpToErrors s' s'') : UpToErrors s s'' :=
  ⟨h'.entries.trans h.entries, fun p => (h.region p).trans (h'.region p)⟩

/-- The enabled regions of the entries are on the array. -/
def AllOnArray (s : RegionFreezer) (base numItems size : Nat) (es : List (Nat × Nat)) : Prop :=
  ∀ e ∈ es, (s.heap e.2).enable = true → ∃ items, OnArray base numItems size (s.heap e.2) items

theorem AllOnArray.congr {s s' : RegionFreezer} {es : List (Nat × Nat)}
    (h : AllOnArray s base numItems size es) (hs : UpToErrors s s') :
    AllOnArray s' base numItems size es := by
  intro e he hon
  obtain ⟨items, ha⟩ := h e he (by rw [hs.region e.2] at hon; exact hon)
  exact ⟨items, (hs.region _).onArray ha⟩

theorem requests_append (s : RegionFreezer) (es es' : List (Nat × Nat)) :
    requests s (es ++ es') = requests s es ++ requests s es' := by
  simp [requests]

theorem requests_cons_of_enable {e : Nat × Nat} (hon : (s.heap e.2).enable = true)
    (es : List (Nat × Nat)) : requests s (e :: es) = (s.heap e.2).asks :: requests s es := by
  simp [requests, hon]

/-- A pass serves the requests of its entries in order. -/
theorem foldl_writeEntry_spec (stray : Bytes → Nat → UInt8) (mem : Nat → UInt8)
    (written : List Nat) {es : List (Nat × Nat)} (h : AllOnArray s base numItems size es) :
    UpToErrors s (es.foldl (writeEntry (flatMemory stray)) (s, mem, written)).1 ∧
      itemsAt (es.foldl (writeEntry (flatMemory stray)) (s, mem, written)).2.1 base numItems size =
        placeAll (itemsAt mem base numItems size) (requests s es) ∧
      ((∀ q ∈ requests s es, Served (itemsAt mem base numItems size) q) →
        (es.foldl (writeEntry (flatMemory stray)) (s, mem, written)).2.1 = mem) := by
  induction es generalizing s mem written with
  | nil => exact ⟨UpToErrors.refl s, rfl, fun _ => rfl⟩
  | cons e es ih =>
    obtain ⟨hsame, hitems, hkeep⟩ := writeEntry_spec stray mem written (h e List.mem_cons_self)
    rw [List.foldl_cons]
    generalize writeEntry (flatMemory stray) (s, mem, written) e = out at hsame hitems hkeep
    obtain ⟨s', mem', written'⟩ := out
    have hes : AllOnArray s base numItems size es := fun d hd => h d (List.mem_cons_of_mem _ hd)
    obtain ⟨hsame', hitems', hkeep'⟩ := ih mem' written' (hes.congr hsame)
    rw [hsame.requests_eq] at hitems' hkeep'
    refine ⟨hsame.trans hsame', ?_, fun hserved => ?_⟩
    · rw [hitems', ← List.singleton_append, requests_append, placeAll_append]
      exact congrArg (placeAll · _) hitems
    · rw [← List.singleton_append, requests_append] at hserved
      obtain rfl : mem' = mem := hkeep fun q hq => hserved q (List.mem_append_left _ hq)
      exact hkeep' fun q hq => hserved q (List.mem_append_right _ hq)

/-- A region without a slot at its turn reports it, whatever is written later. -/
theorem error_of_no_slot {pre post : List (Nat × Nat)} {e : Nat × Nat} {written : List Nat}
    (h : AllOnArray s base numItems size (pre ++ e :: post)) (hon : (s.heap e.2).enable = true)
    (hlater : ∀ d ∈ post, (s.heap d.2).enable = true → d.2 ≠ e.2)
    (hslot : (s.heap e.2).asks.slot
      (placeAll (itemsAt mem base numItems size) (requests s pre)) = none) :
    ((((pre ++ e :: post).foldl (writeEntry (flatMemory stray)) (s, mem, written)).1).heap
      e.2).error = "no available spaces" := by
  have hpre : AllOnArray s base numItems size pre := fun d hd => h d (List.mem_append_left _ hd)
  have hrest : AllOnArray s base numItems size (e :: post) := fun d hd =>
    h d (List.mem_append_right _ hd)
  obtain ⟨hsame, hitems, -⟩ := foldl_writeEntry_spec stray mem written hpre
  rw [List.foldl_append, List.foldl_cons]
  rw [← hitems] at hslot
  generalize pre.foldl (writeEntry (flatMemory stray)) (s, mem, written) = out at hsame hslot
  obtain ⟨s', mem', written'⟩ := out
  have hon' : (s'.heap e.2).enable = true := by rw [hsame.region e.2]; exact hon
  obtain ⟨items, ha⟩ := hrest e List.mem_cons_self hon
  have ha' := (hsame.region e.2).onArray ha
  obtain ⟨hsame', -, -⟩ := writeEntry_spec stray mem' written'
    ((hrest.congr hsame) e List.mem_cons_self)
  have hlater' : ∀ d ∈ post,
      ((writeEntry (flatMemory stray) (s', mem', written') e).1.heap d.2).enable = true →
        d.2 ≠ e.2 := by
    intro d hd hd'
    rw [hsame'.region, hsame.region] at hd'
    exact hlater d hd hd'
  rw [heap_foldl_writeEntry (flatMemory stray) _ hlater']
  obtain ⟨k, p⟩ := e
  simp only [writeEntry, hon', ↓reduceIte, Function.update_self]
  refine write_no_slot ha'.toWellSized ?_
  rw [ha'.itemsOf_eq, ← ha'.asks_eq, (hsame.region p).asks]
  exact hslot

/-! ## Settled arrays -/

section Settled

variable (h : OneArray s base numItems size)

include h

theorem OneArray.allOnArray : AllOnArray s base numItems size s.regionsByIndex.entries := h.arrays

theorem OneArray.takes_own : ∀ r ∈ requests s s.regionsByIndex.entries, r.takes r.value = true := by
  intro q hq
  obtain ⟨e, he, rfl⟩ := List.mem_map.mp hq
  obtain ⟨he, hon⟩ := List.mem_filter.mp he
  obtain ⟨items, ha⟩ := h.arrays e he hon
  rw [ha.asks_eq]
  exact request_takes.mpr (.inl (Agrees.refl _ _))

theorem OneArray.not_takes {d e : Nat × Nat} (hd : d ∈ s.regionsByIndex.entries)
    (he : e ∈ s.regionsByIndex.entries) (hdon : (s.heap d.2).enable = true)
    (heon : (s.heap e.2).enable = true) (hne : (s.heap d.2).data ≠ (s.heap e.2).data) :
    (s.heap e.2).asks.takes (s.heap d.2).asks.value = false := by
  obtain ⟨items, ha⟩ := h.arrays e he heon
  obtain ⟨items', ha'⟩ := h.arrays d hd hdon
  rw [ha.asks_eq, ha'.asks_eq]
  refine Bool.eq_false_iff.mpr fun ht => ?_
  rcases (ha.takes_iff ha'.size).mp ht with heq | hnull
  · exact hne heq
  · exact h.notNull d hd e he hdon heon items ha.isArray hnull

theorem OneArray.compatible : (requests s s.regionsByIndex.entries).Pairwise Compatible := by
  refine List.pairwise_map.mpr (List.pairwise_filter.mpr ?_)
  refine h.distinct.imp_of_mem fun {d e} hd he hne hdon heon => ?_
  have hne := hne hdon heon
  exact ⟨h.not_takes he hd heon hdon hne.symm, h.not_takes hd he hdon heon hne⟩

theorem OneArray.later_ne {pre post : List (Nat × Nat)} {e : Nat × Nat}
    (hsplit : s.regionsByIndex.entries = pre ++ e :: post) (hon : (s.heap e.2).enable = true) :
    ∀ d ∈ post, (s.heap d.2).enable = true → d.2 ≠ e.2 := by
  intro d hd hdon heq
  have hpair := h.distinct
  rw [hsplit] at hpair
  have hlater := (List.pairwise_cons.mp (List.pairwise_append.mp hpair).2.1).1 d hd hon hdon
  exact hlater (by rw [heq])

/-- After a pass every request is served. -/
theorem OneArray.served_after (stray : Bytes → Nat → UInt8) (mem : Nat → UInt8) :
    ∀ q ∈ requests (s.writePass (flatMemory stray) mem).1 s.regionsByIndex.entries,
      Served (itemsAt (s.writePass (flatMemory stray) mem).2.1 base numItems size) q := by
  obtain ⟨hsame, hitems, -⟩ := foldl_writeEntry_spec stray mem []
    h.allOnArray
  rw [writePass, hsame.requests_eq, hitems]
  exact served_placeAll h.takes_own h.compatible

variable {pre post : List (Nat × Nat)} {e : Nat × Nat}

theorem OneArray.allOnArray_before (hsplit : s.regionsByIndex.entries = pre ++ e :: post) :
    AllOnArray s base numItems size pre := fun d hd =>
  h.allOnArray d (by rw [hsplit]; exact List.mem_append_left _ hd)

theorem OneArray.length_placeAll (stray : Bytes → Nat → UInt8) (mem : Nat → UInt8)
    (hsplit : s.regionsByIndex.entries = pre ++ e :: post) :
    ∀ a ∈ placeAll (itemsAt mem base numItems size) (requests s pre), a.length = size := by
  rw [← (foldl_writeEntry_spec stray mem [] (h.allOnArray_before hsplit)).2.1]
  exact fun a => length_of_mem_itemsAt

/-- What there is room for at its turn is in the array afterwards; for the rest
there is no room then either. -/
theorem OneArray.room_after (stray : Bytes → Nat → UInt8) (mem : Nat → UInt8)
    (hsplit : s.regionsByIndex.entries = pre ++ e :: post)
    (hon : (s.heap e.2).enable = true) :
    ((s.heap e.2).HasRoom (placeAll (itemsAt mem base numItems size) (requests s pre)) →
      (s.heap e.2).data ∈ itemsAt (s.writePass (flatMemory stray) mem).2.1 base numItems size) ∧
    (¬ (s.heap e.2).HasRoom (placeAll (itemsAt mem base numItems size) (requests s pre)) →
      ¬ (s.heap e.2).HasRoom
        (itemsAt (s.writePass (flatMemory stray) mem).2.1 base numItems size)) := by
  obtain ⟨items, ha⟩ := h.arrays e (by rw [hsplit]; simp) hon
  have hreqs : requests s s.regionsByIndex.entries =
      requests s pre ++ (s.heap e.2).asks :: requests s post := by
    rw [hsplit, requests_append, requests_cons_of_enable hon]
  have hpair := h.compatible
  have hitems := (foldl_writeEntry_spec stray mem []
    h.allOnArray).2.1
  rw [hreqs] at hpair hitems
  have hmem := mem_placeAll (itemsAt mem base numItems size) (requests s pre)
    (h.takes_own _ (by rw [hreqs]; simp))
    (List.pairwise_cons.mp (List.pairwise_append.mp hpair).2.1).1
  rw [← hitems] at hmem
  have hlen := h.length_placeAll stray mem hsplit
  constructor
  · intro hroom
    rw [if_pos ((ha.hasRoom_iff hlen).mp hroom), ha.asks_eq] at hmem
    exact hmem
  · intro hroom
    rw [if_neg (fun ht => hroom ((ha.hasRoom_iff hlen).mpr ht))] at hmem
    refine (ha.slot_eq_none_iff fun a => length_of_mem_itemsAt).mp (slot_eq_none.mpr hmem)

theorem OneArray.error_after (stray : Bytes → Nat → UInt8) (mem : Nat → UInt8)
    (hsplit : s.regionsByIndex.entries = pre ++ e :: post)
    (hon : (s.heap e.2).enable = true)
    (hroom : ¬ (s.heap e.2).HasRoom (placeAll (itemsAt mem base numItems size) (requests s pre))) :
    ((s.writePass (flatMemory stray) mem).1.heap e.2).error = "no available spaces" := by
  obtain ⟨items, ha⟩ := h.arrays e (by rw [hsplit]; simp) hon
  have hall := h.allOnArray
  have hlen := h.length_placeAll stray mem hsplit
  rw [hsplit] at hall
  rw [writePass, hsplit]
  exact error_of_no_slot hall hon (h.later_ne hsplit hon) ((ha.slot_eq_none_iff hlen).mpr hroom)

theorem OneArray.error_again (stray : Bytes → Nat → UInt8) (mem : Nat → UInt8)
    (hserved : ∀ q ∈ requests s s.regionsByIndex.entries,
      Served (itemsAt mem base numItems size) q)
    (hsplit : s.regionsByIndex.entries = pre ++ e :: post)
    (hon : (s.heap e.2).enable = true)
    (hroom : ¬ (s.heap e.2).HasRoom (itemsAt mem base numItems size)) :
    ((s.writePass (flatMemory stray) mem).1.heap e.2).error = "no available spaces" := by
  refine h.error_after stray mem hsplit hon ?_
  have hpreServed : ∀ q ∈ requests s pre, Served (itemsAt mem base numItems size) q := by
    intro q hq
    refine hserved q ?_
    rw [hsplit, requests_append]
    exact List.mem_append_left _ hq
  rw [placeAll_of_served hpreServed]
  exact hroom

/-- After one pass a second one changes no byte. A region's data is in the array
then, unless there was no room for it at its turn; then it stays out, and both
passes say so. -/
theorem second_pass_settled {first second : RegionFreezer × (Nat → UInt8) × List Nat}
    (hfirst : s.writePass (flatMemory stray) mem = first)
    (hsecond : first.1.writePass (flatMemory stray) first.2.1 = second) :
    second.2.1 = first.2.1 ∧ ∀ pre e post, s.regionsByIndex.entries = pre ++ e :: post →
      (s.heap e.2).enable = true →
      ((s.heap e.2).HasRoom (itemsAt
          (pre.foldl (writeEntry (flatMemory stray)) (s, mem, [])).2.1 base numItems size) →
        (s.heap e.2).data ∈ itemsAt first.2.1 base numItems size) ∧
      (¬ (s.heap e.2).HasRoom (itemsAt
          (pre.foldl (writeEntry (flatMemory stray)) (s, mem, [])).2.1 base numItems size) →
        (s.heap e.2).data ∉ itemsAt first.2.1 base numItems size ∧
        (s.heap e.2).data ∉ itemsAt second.2.1 base numItems size ∧
        (first.1.heap e.2).error = "no available spaces" ∧
        (second.1.heap e.2).error = "no available spaces") := by
  obtain ⟨hsame, -, -⟩ := foldl_writeEntry_spec stray mem []
    h.allOnArray
  have hserved := h.served_after stray mem
  change UpToErrors s (s.writePass (flatMemory stray) mem).1 at hsame
  rw [hfirst] at hsame hserved
  have h1 : OneArray first.1 base numItems size := h.congr hsame
  have hkeep : second.2.1 = first.2.1 := by
    rw [← hsecond]
    refine (foldl_writeEntry_spec stray first.2.1 [] h1.allOnArray).2.2 ?_
    rw [hsame.entries]
    exact hserved
  refine ⟨hkeep, fun pre e post hsplit hon => ?_⟩
  rw [(foldl_writeEntry_spec stray mem [] (h.allOnArray_before hsplit)).2.1]
  obtain ⟨hin, hout⟩ := h.room_after stray mem hsplit hon
  rw [hfirst] at hin hout
  refine ⟨hin, fun hroom => ?_⟩
  have habsent : (s.heap e.2).data ∉ itemsAt first.2.1 base numItems size := fun hmem =>
    hout hroom (Region.hasRoom_of_mem hmem)
  have herror := h.error_after stray mem hsplit hon hroom
  rw [hfirst] at herror
  have hsplit' : first.1.regionsByIndex.entries = pre ++ e :: post := by
    rw [hsame.entries]
    exact hsplit
  have hon' : (first.1.heap e.2).enable = true := by
    rw [hsame.region]
    exact hon
  have hroom' : ¬ (first.1.heap e.2).HasRoom (itemsAt first.2.1 base numItems size) := by
    rw [hsame.region]
    exact hout hroom
  rw [← hsame.entries] at hserved
  refine ⟨habsent, by rw [hkeep]; exact habsent, herror, ?_⟩
  rw [← hsecond]
  exact h1.error_again stray first.2.1 hserved hsplit' hon' hroom'

end Settled

def pairFreezer : RegionFreezer :=
  new.run [.freezeArray "" 0x1000 2 [5] [0xFF] none none true,
    .freezeArray "" 0x1000 2 [6] [0xFF] none none true]

theorem pairFreezer_entries : pairFreezer.regionsByIndex.entries = [(0, 0), (1, 1)] := rfl

theorem pairFreezer_oneArray : OneArray pairFreezer 0x1000 2 1 where
  arrays e he _ := by
    have hfull : ∀ m ∈ [(0xFF : UInt8)], m ≠ 0 := by simp
    refine ⟨⟨2, [0xFF], [], []⟩, ?_⟩
    rw [pairFreezer_entries] at he
    rcases List.mem_pair.mp he with rfl | rfl
    · exact ⟨⟨rfl, rfl, .inl rfl, by decide, by decide⟩, rfl, rfl, rfl, hfull⟩
    · exact ⟨⟨rfl, rfl, .inl rfl, by decide, by decide⟩, rfl, rfl, rfl, hfull⟩
  distinct := by
    rw [pairFreezer_entries]
    refine List.pairwise_pair.mpr fun _ _ => ?_
    decide
  notNull d hd e he _ _ items hitems := by
    rw [pairFreezer_entries] at hd he
    rcases List.mem_pair.mp hd with rfl | rfl <;> rcases List.mem_pair.mp he with rfl | rfl <;>
      (cases hitems; decide)

/-- Both items are free, and both regions get one. -/
theorem second_pass_settled_pair :
    ((pairFreezer.writePass (flatMemory fun _ _ => 0) fun _ => 0).1.writePass
      (flatMemory fun _ _ => 0)
      (pairFreezer.writePass (flatMemory fun _ _ => 0) fun _ => 0).2.1).2.1 =
    (pairFreezer.writePass (flatMemory fun _ _ => 0) fun _ => 0).2.1 :=
  (second_pass_settled pairFreezer_oneArray rfl rfl).1

end RegionFreezer
end Memwatch
