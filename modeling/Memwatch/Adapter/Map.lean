import Memwatch.Bytes
import Memwatch.Lib.Tiling

/-!
# Address maps

The address map of a process as Mach keeps it: ascending, disjoint regions, each with
one protection. `mach_vm_region` looks a region up; `mach_vm_protect` cuts the regions
at the ends of the range it changes. What a process can do to an address is told by
`protectionAt`.
-/

namespace Memwatch

open Lib

/-- `vm_prot_t`. -/
abbrev VmProt := BitVec 32

def vmProtRead : VmProt := 1

def vmProtWrite : VmProt := 2

def vmProtExecute : VmProt := 4

/-- `vm_region_basic_info_data_64_t`. -/
structure VmRegionBasicInfo where
  protection : VmProt
  maxProtection : VmProt
  inheritance : Nat
  shared : Bool
  reserved : Bool
  behavior : Int
  userWiredCount : Nat
  deriving DecidableEq

structure VmRegion where
  addr : Nat
  size : Nat
  info : VmRegionBasicInfo
  pos : 0 < size
  below : addr + size < 2 ^ 64
  deriving DecidableEq

namespace VmRegion

def Contains (e : VmRegion) (a : Nat) : Prop := e.addr ≤ a ∧ a < e.addr + e.size

instance instDecidableContains (e : VmRegion) (a : Nat) : Decidable (e.Contains a) :=
  inferInstanceAs (Decidable (_ ∧ _))

def withProtection (e : VmRegion) (prot : VmProt) : VmRegion :=
  { e with info := { e.info with protection := prot } }

@[simp] theorem addr_withProtection (e : VmRegion) (prot : VmProt) :
    (e.withProtection prot).addr = e.addr := rfl

@[simp] theorem size_withProtection (e : VmRegion) (prot : VmProt) :
    (e.withProtection prot).size = e.size := rfl

/-- The part of a region between two addresses. -/
def part (e : VmRegion) (lo hi : Nat) : List VmRegion :=
  if h : max lo e.addr < min hi (e.addr + e.size) then
    [⟨max lo e.addr, min hi (e.addr + e.size) - max lo e.addr, e.info, by omega, by
      have := e.below
      omega⟩]
  else []

/-- A region is cut at the ends of a range, and its part in the range changes. -/
def protect (e : VmRegion) (addr size : Nat) (prot : VmProt) : List VmRegion :=
  e.part 0 addr ++ (e.withProtection prot).part addr (addr + size) ++
    e.part (addr + size) (2 ^ 64)

variable {e f : VmRegion} {a lo hi addr size : Nat} {prot : VmProt}

theorem mem_part : f ∈ e.part lo hi ↔ f.addr = max lo e.addr ∧
    f.addr + f.size = min hi (e.addr + e.size) ∧ f.info = e.info := by
  have hpos := f.pos
  unfold part
  split
  · rw [List.mem_singleton]
    constructor
    · intro h
      subst h
      refine ⟨rfl, ?_, rfl⟩
      dsimp only
      omega
    · intro ⟨haddr, hend, hinfo⟩
      cases f
      simp only [VmRegion.mk.injEq] at *
      exact ⟨haddr, by omega, hinfo⟩
  · constructor
    · intro h
      cases h
    · intro ⟨haddr, hend, _⟩
      omega

theorem pairwise_part (R : VmRegion → VmRegion → Prop) (e : VmRegion) (lo hi : Nat) :
    (e.part lo hi).Pairwise R := by
  unfold part
  split
  · exact List.pairwise_singleton _ _
  · exact List.Pairwise.nil

theorem mem_protect : f ∈ e.protect addr size prot ↔
    f ∈ e.part 0 addr ∨ f ∈ (e.withProtection prot).part addr (addr + size) ∨
      f ∈ e.part (addr + size) (2 ^ 64) := by
  simp only [protect, List.mem_append, or_assoc]

theorem bounds_of_mem_protect (h : f ∈ e.protect addr size prot) :
    e.addr ≤ f.addr ∧ f.addr + f.size ≤ e.addr + e.size := by
  rcases mem_protect.mp h with h | h | h
  · obtain ⟨h1, h2, -⟩ := mem_part.mp h
    omega
  · obtain ⟨h1, h2, -⟩ := mem_part.mp h
    simp only [addr_withProtection, size_withProtection] at h1 h2
    omega
  · obtain ⟨h1, h2, -⟩ := mem_part.mp h
    omega

theorem pairwise_protect (e : VmRegion) (addr size : Nat) (prot : VmProt) :
    (e.protect addr size prot).Pairwise fun f g => f.addr + f.size ≤ g.addr := by
  unfold protect
  refine List.pairwise_append.mpr ⟨List.pairwise_append.mpr
    ⟨pairwise_part _ _ _ _, pairwise_part _ _ _ _, ?_⟩, pairwise_part _ _ _ _, ?_⟩
  · intro f hf g hg
    obtain ⟨-, h1, -⟩ := mem_part.mp hf
    obtain ⟨h2, -, -⟩ := mem_part.mp hg
    omega
  · intro f hf g hg
    obtain ⟨h2, -, -⟩ := mem_part.mp hg
    rcases List.mem_append.mp hf with hf | hf
    · obtain ⟨-, h1, -⟩ := mem_part.mp hf
      omega
    · obtain ⟨-, h1, -⟩ := mem_part.mp hf
      omega

theorem exists_mem_protect (he : e.Contains a) : ∃ f ∈ e.protect addr size prot, f.Contains a ∧
    f.info.protection = if addr ≤ a ∧ a < addr + size then prot else e.info.protection := by
  have hbelow := e.below
  obtain ⟨hlo, hhi⟩ := he
  have hpart : ∀ (e' : VmRegion) (lo hi : Nat), e'.addr = e.addr → e'.size = e.size → lo ≤ a →
      a < hi → ∃ f ∈ e'.part lo hi, f.Contains a ∧ f.info = e'.info := by
    intro e' lo hi haddr hsize hle hlt
    unfold part
    rw [dif_pos (by omega)]
    refine ⟨_, List.mem_singleton_self _, ⟨?_, ?_⟩, rfl⟩ <;> dsimp only <;> omega
  rcases lt_or_ge a addr with hlt | hge
  · obtain ⟨f, hf, hfa, hinfo⟩ := hpart e 0 addr rfl rfl (Nat.zero_le a) hlt
    exact ⟨f, mem_protect.mpr (.inl hf), hfa, by rw [hinfo, if_neg (by omega)]⟩
  · rcases lt_or_ge a (addr + size) with hlt | hge'
    · obtain ⟨f, hf, hfa, hinfo⟩ :=
        hpart (e.withProtection prot) addr (addr + size) rfl rfl hge hlt
      exact ⟨f, mem_protect.mpr (.inr (.inl hf)), hfa, by rw [hinfo, if_pos ⟨hge, hlt⟩]; rfl⟩
    · obtain ⟨f, hf, hfa, hinfo⟩ := hpart e (addr + size) (2 ^ 64) rfl rfl hge' (by omega)
      exact ⟨f, mem_protect.mpr (.inr (.inr hf)), hfa, by rw [hinfo, if_neg (by omega)]⟩

theorem protect_of_apart (h : addr + size ≤ e.addr ∨ e.addr + e.size ≤ addr) :
    e.protect addr size prot = [e] := by
  have hpos := e.pos
  have hbelow := e.below
  have hmid : (e.withProtection prot).part addr (addr + size) = [] := by
    refine dif_neg ?_
    simp only [addr_withProtection, size_withProtection]
    omega
  unfold protect
  rw [hmid, List.append_nil]
  rcases h with h | h
  · have h1 : e.part 0 addr = [] := dif_neg (by omega)
    have h2 : max (addr + size) e.addr = e.addr := by omega
    have h3 : min (2 ^ 64) (e.addr + e.size) = e.addr + e.size := by omega
    rw [h1, List.nil_append, part, dif_pos (by omega)]
    simp only [h2, h3, Nat.add_sub_cancel_left]
  · have h1 : e.part (addr + size) (2 ^ 64) = [] := dif_neg (by omega)
    have h2 : max 0 e.addr = e.addr := by omega
    have h3 : min addr (e.addr + e.size) = e.addr + e.size := by omega
    rw [h1, List.append_nil, part, dif_pos (by omega)]
    simp only [h2, h3, Nat.add_sub_cancel_left]

theorem protect_self (e : VmRegion) (prot : VmProt) :
    e.protect e.addr e.size prot = [e.withProtection prot] := by
  have hpos := e.pos
  have h1 : e.part 0 e.addr = [] := dif_neg (by omega)
  have h2 : e.part (e.addr + e.size) (2 ^ 64) = [] := dif_neg (by omega)
  rw [protect, h1, h2, List.append_nil, List.nil_append, part,
    dif_pos (by simp only [addr_withProtection, size_withProtection]; omega)]
  simp only [addr_withProtection, size_withProtection, Nat.max_self, Nat.min_self,
    Nat.add_sub_cancel_left]
  rfl

end VmRegion

/-! ## Maps -/

structure AddressMap where
  regions : List VmRegion
  apart : regions.Pairwise fun e f => e.addr + e.size ≤ f.addr
  deriving DecidableEq

namespace AddressMap

/-- `mach_vm_region`: the region that contains the address, or else the next one. -/
def region (m : AddressMap) (a : Nat) : Option VmRegion :=
  m.regions.find? fun e => decide (a < e.addr + e.size)

/-- `mach_vm_protect`, when it does not fail. -/
def protect (m : AddressMap) (addr size : Nat) (prot : VmProt) : AddressMap where
  regions := m.regions.flatMap fun e => e.protect addr size prot
  apart := by
    refine List.pairwise_flatMap.mpr ⟨fun e _ => e.pairwise_protect addr size prot, ?_⟩
    refine m.apart.imp fun {e f} hef g hg k hk => ?_
    have := VmRegion.bounds_of_mem_protect hg
    have := VmRegion.bounds_of_mem_protect hk
    omega

/-- The protection of the page around an address. -/
def protectionAt (m : AddressMap) (a : Nat) : Option VmProt :=
  (m.regions.find? fun e => decide (e.Contains a)).map fun e => e.info.protection

variable {m : AddressMap} {e f : VmRegion} {a addr size : Nat} {prot p : VmProt}

theorem ext_regions {m m' : AddressMap} (h : m.regions = m'.regions) : m = m' := by
  cases m
  cases m'
  cases h
  rfl

theorem tiled (m : AddressMap) :
    Tiled VmRegion.addr (fun e => e.addr + e.size) m.regions := by
  refine m.apart.imp fun {e f} h => ⟨by omega, fun a ha => ?_⟩
  have h1 : a < e.addr + e.size := ha.1.2
  have h2 : f.addr ≤ a := ha.2.1
  omega

theorem unique (he : e ∈ m.regions) (hf : f ∈ m.regions) (hea : e.Contains a)
    (hfa : f.Contains a) : e = f :=
  m.tiled.unique he hf hea hfa

/-- A lookup finds the first region that ends behind the address. -/
theorem region_spec (h : m.region a = some e) : e ∈ m.regions ∧ a < e.addr + e.size ∧
    ∀ f ∈ m.regions, a < f.addr + f.size → e.addr ≤ f.addr := by
  obtain ⟨hlt, before, behind, hsplit, hbefore⟩ := List.find?_eq_some_iff_append.mp h
  have hmem : e ∈ m.regions := by rw [hsplit]; simp
  refine ⟨hmem, by simpa using hlt, fun f hf hfa => ?_⟩
  have hapart := m.apart
  rw [hsplit] at hf hapart
  rcases List.mem_append.mp hf with hf | hf
  · exact absurd (hbefore f hf) (by simpa using hfa)
  · rcases List.mem_cons.mp hf with rfl | hf
    · exact le_refl _
    · have := (List.pairwise_cons.mp (List.pairwise_append.mp hapart).2.1).1 f hf
      omega

theorem region_eq_none_iff : m.region a = none ↔ ∀ e ∈ m.regions, e.addr + e.size ≤ a := by
  unfold region
  rw [List.find?_eq_none]
  simp

theorem region_of_contains (he : e ∈ m.regions) (hea : e.Contains a) : m.region a = some e := by
  have hlt : a < e.addr + e.size := hea.2
  cases hf : m.region a with
  | none =>
    have := region_eq_none_iff.mp hf e he
    omega
  | some f =>
    obtain ⟨hmem, hfa, hfirst⟩ := region_spec hf
    have hle := hfirst e he hlt
    rw [unique hmem he ⟨hle.trans hea.1, hfa⟩ hea]

theorem contains_addr (e : VmRegion) : e.Contains e.addr := by
  have := e.pos
  exact ⟨le_refl _, by omega⟩

theorem region_addr (he : e ∈ m.regions) : m.region e.addr = some e :=
  region_of_contains he (contains_addr e)

theorem protectionAt_eq_some : m.protectionAt a = some p ↔
    ∃ e ∈ m.regions, e.Contains a ∧ e.info.protection = p := by
  unfold protectionAt
  rw [Option.map_eq_some_iff]
  constructor
  · rintro ⟨e, he, rfl⟩
    exact ⟨e, List.mem_of_find?_eq_some he, by simpa using List.find?_some he, rfl⟩
  · rintro ⟨e, he, hea, rfl⟩
    refine ⟨e, ?_, rfl⟩
    cases hf : m.regions.find? fun e => decide (e.Contains a) with
    | none => exact absurd hea (by simpa using List.find?_eq_none.mp hf e he)
    | some f =>
      have hfa : f.Contains a := by simpa using List.find?_some hf
      rw [unique (List.mem_of_find?_eq_some hf) he hfa hea]

theorem protectionAt_of_contains (he : e ∈ m.regions) (hea : e.Contains a) :
    m.protectionAt a = some e.info.protection :=
  protectionAt_eq_some.mpr ⟨e, he, hea, rfl⟩

theorem protectionAt_eq_none : m.protectionAt a = none ↔ ∀ e ∈ m.regions, ¬ e.Contains a := by
  unfold protectionAt
  rw [Option.map_eq_none_iff, List.find?_eq_none]
  simp

/-- A change sets the pages of its range and no others. -/
theorem protectionAt_protect : (m.protect addr size prot).protectionAt a =
    if addr ≤ a ∧ a < addr + size then (m.protectionAt a).map fun _ => prot
    else m.protectionAt a := by
  cases hp : m.protectionAt a with
  | none =>
    rw [Option.map_none, ite_self]
    refine protectionAt_eq_none.mpr fun f hf hfa => ?_
    obtain ⟨e, he, hfe⟩ := List.mem_flatMap.mp hf
    have hbounds := VmRegion.bounds_of_mem_protect hfe
    obtain ⟨h1, h2⟩ := hfa
    exact protectionAt_eq_none.mp hp e he ⟨by omega, by omega⟩
  | some p =>
    obtain ⟨e, he, hea, rfl⟩ := protectionAt_eq_some.mp hp
    obtain ⟨f, hf, hfa, hprot⟩ := VmRegion.exists_mem_protect hea
    rw [protectionAt_of_contains (List.mem_flatMap.mpr ⟨e, he, hf⟩) hfa, hprot, Option.map_some]
    split <;> rfl

theorem regions_protect (he : e ∈ m.regions) (prot : VmProt) :
    (m.protect e.addr e.size prot).regions =
      m.regions.map fun f => if f = e then f.withProtection prot else f := by
  have hsingle : ∀ f ∈ m.regions, f.protect e.addr e.size prot =
      [if f = e then f.withProtection prot else f] := by
    intro f hf
    split
    · next heq =>
      subst heq
      exact f.protect_self prot
    · next hne =>
      refine VmRegion.protect_of_apart ?_
      by_contra hmeet
      have hpos := e.pos
      have hpos' := f.pos
      have ha : f.Contains (max e.addr f.addr) := ⟨by omega, by omega⟩
      exact hne (unique hf he ha ⟨by omega, by omega⟩)
  show m.regions.flatMap _ = _
  rw [List.flatMap_congr hsingle, List.map_eq_flatMap]

theorem regions_protect_append {before behind : List VmRegion}
    (hm : m.regions = before ++ e :: behind) (prot : VmProt) :
    (m.protect e.addr e.size prot).regions = before ++ e.withProtection prot :: behind := by
  have he : e ∈ m.regions := by
    rw [hm]
    exact List.mem_append_right _ List.mem_cons_self
  have hapart := m.apart
  rw [hm] at hapart
  obtain ⟨-, hbehind, hbefore⟩ := List.pairwise_append.mp hapart
  have hpos := e.pos
  have hsame : ∀ l : List VmRegion, e ∉ l →
      l.map (fun f => if f = e then f.withProtection prot else f) = l := by
    intro l hl
    refine (List.map_congr_left fun f hf => if_neg ?_).trans (List.map_id l)
    exact fun heq => hl (heq ▸ hf)
  rw [regions_protect he, hm, List.map_append, List.map_cons, if_pos rfl, hsame, hsame]
  · intro h
    have := (List.pairwise_cons.mp hbehind).1 e h
    omega
  · intro h
    have := hbefore e h e List.mem_cons_self
    omega

theorem mem_protect (he : e ∈ m.regions) (prot : VmProt) :
    e.withProtection prot ∈ (m.protect e.addr e.size prot).regions := by
  rw [regions_protect he]
  exact List.mem_map.mpr ⟨e, he, if_pos rfl⟩

theorem protect_same (he : e ∈ m.regions) : m.protect e.addr e.size e.info.protection = m := by
  refine ext_regions ?_
  rw [regions_protect he, List.map_congr_left (g := id), List.map_id]
  intro f _
  split
  · next heq =>
    subst heq
    rfl
  · rfl

theorem protect_protect (he : e ∈ m.regions) (prot prot' : VmProt) :
    (m.protect e.addr e.size prot).protect e.addr e.size prot' =
      m.protect e.addr e.size prot' := by
  have h := regions_protect (mem_protect he prot) prot'
  simp only [VmRegion.addr_withProtection, VmRegion.size_withProtection] at h
  refine ext_regions ?_
  rw [h, regions_protect he, regions_protect he, List.map_map]
  refine List.map_congr_left fun f hf => ?_
  by_cases hfe : f = e
  · subst hfe
    simp only [Function.comp, if_true]
    rfl
  · have hne : f ≠ e.withProtection prot := by
      intro heq
      refine hfe (unique hf he (contains_addr f) ?_)
      rw [heq]
      exact contains_addr e
    simp only [Function.comp, hfe, hne, if_false]

/-- Every address has the protection it had. -/
def SameProtections (m m' : AddressMap) : Prop := ∀ a, m'.protectionAt a = m.protectionAt a

theorem sameProtections_iff {m' : AddressMap} {g : VmRegion → VmRegion}
    (hm : m'.regions = m.regions.map g) (haddr : ∀ e, (g e).addr = e.addr)
    (hsize : ∀ e, (g e).size = e.size) :
    SameProtections m m' ↔ ∀ e ∈ m.regions, (g e).info.protection = e.info.protection := by
  have hcontains : ∀ e a, (g e).Contains a ↔ e.Contains a := by
    intro e a
    unfold VmRegion.Contains
    rw [haddr, hsize]
  have hmem : ∀ e ∈ m.regions, g e ∈ m'.regions := fun e he => hm ▸ List.mem_map_of_mem he
  constructor
  · intro h e he
    have := h e.addr
    rw [protectionAt_of_contains he (contains_addr e),
      protectionAt_of_contains (hmem e he) ((hcontains e _).mpr (contains_addr e))] at this
    exact Option.some.inj this
  · intro h a
    cases hp : m.protectionAt a with
    | none =>
      refine protectionAt_eq_none.mpr fun f hf hfa => ?_
      rw [hm] at hf
      obtain ⟨e, he, rfl⟩ := List.mem_map.mp hf
      exact protectionAt_eq_none.mp hp e he ((hcontains e a).mp hfa)
    | some p =>
      obtain ⟨e, he, hea, rfl⟩ := protectionAt_eq_some.mp hp
      rw [protectionAt_of_contains (hmem e he) ((hcontains e a).mpr hea), h e he]

end AddressMap

/-- A region of one page that may be accessed in one way. -/
def page (addr : Nat) (prot : VmProt) (h : addr + 4096 < 2 ^ 64) : VmRegion :=
  ⟨addr, 4096, ⟨prot, 7, 1, false, false, 0, 0⟩, by omega, h⟩

def twoPages : AddressMap :=
  ⟨[page 0x1000 3 (by decide), page 0x3000 3 (by decide)], by decide⟩

end Memwatch
