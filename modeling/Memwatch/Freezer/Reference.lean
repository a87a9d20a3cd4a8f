import Memwatch.Freezer.Indexes

/-!
# The freezer as a list

What the freezer is for: a list of regions in the order of their creation, each
with a number that no other region ever had. The freezer returns what the list
returns, and its index by number visits what the list holds.
-/

namespace Memwatch

open Lib

namespace RegionFreezer

/-! ## The list -/

inductive Returned where
  | nothing
  | count (n : Nat)
  | found (b : Bool)
  deriving DecidableEq

/-- Regions in the order of creation, and how many were ever created. -/
structure RegionList where
  regions : List Region
  numCreated : Nat

namespace RegionList

def new : RegionList := ⟨[], 0⟩

def add (l : RegionList) (rgn : Region) : RegionList := ⟨l.regions ++ [rgn], l.numCreated + 1⟩

def remove (l : RegionList) (isMatch : Region → Bool) : RegionList :=
  { l with regions := l.regions.filter fun r => !isMatch r }

def setEnable (l : RegionList) (isMatch : Region → Bool) (enable : Bool) : RegionList :=
  { l with regions := l.regions.map fun r => if isMatch r then { r with enable } else r }

def numMatches (l : RegionList) (isMatch : Region → Bool) : Nat := l.regions.countP isMatch

/-- The regions that match and have the other flag. -/
def numChanged (l : RegionList) (isMatch : Region → Bool) (enable : Bool) : Nat :=
  l.regions.countP fun r => isMatch r && r.enable != enable

def call (l : RegionList) : Op → RegionList × Returned
  | .freeze name addr data enable =>
    (l.add (Region.new name l.numCreated addr data enable), .nothing)
  | .freezeArray name baseAddr maxItems data dataMask nullData nullDataMask enable =>
    (l.add (Region.newArray name l.numCreated baseAddr maxItems data dataMask nullData nullDataMask
      enable), .nothing)
  | .unfreezeName name =>
    (l.remove fun r => r.name = name, .count (l.numMatches fun r => r.name = name))
  | .unfreezeAddr addr =>
    (l.remove fun r => r.addr = addr, .count (l.numMatches fun r => r.addr = addr))
  | .unfreezeIndex index =>
    (l.remove fun r => r.index = index, .found (l.regions.any fun r => r.index = index))
  | .unfreezeAll => (l.remove fun _ => true, .count l.regions.length)
  | .enableName name enable =>
    (l.setEnable (fun r => r.name = name) enable,
      .count (l.numChanged (fun r => r.name = name) enable))
  | .enableAddr addr enable =>
    (l.setEnable (fun r => r.addr = addr) enable,
      .count (l.numChanged (fun r => r.addr = addr) enable))
  | .enableIndex index enable =>
    (l.setEnable (fun r => r.index = index) enable,
      .found (l.regions.any fun r => r.index = index && r.enable != enable))
  | .enableAll enable =>
    (l.setEnable (fun _ => true) enable, .count (l.numChanged (fun _ => true) enable))

/-- A sequence of calls, with what they return. -/
def calls (l : RegionList) : List Op → RegionList × List Returned
  | [] => (l, [])
  | op :: ops =>
    let (l, r) := l.call op
    let (l, rs) := l.calls ops
    (l, r :: rs)

end RegionList

/-! ## The freezer's calls -/

def call (s : RegionFreezer) : Op → RegionFreezer × Returned
  | .freeze name addr data enable => (s.freeze name addr data enable, .nothing)
  | .freezeArray name baseAddr maxItems data dataMask nullData nullDataMask enable =>
    (s.freezeArray name baseAddr maxItems data dataMask nullData nullDataMask enable, .nothing)
  | .unfreezeName name => (s.unfreezeName name).map id .count
  | .unfreezeAddr addr => (s.unfreezeAddr addr).map id .count
  | .unfreezeIndex index => (s.unfreezeIndex index).map id .found
  | .unfreezeAll => s.unfreezeAll.map id .count
  | .enableName name enable => (s.enableName name enable).map id .count
  | .enableAddr addr enable => (s.enableAddr addr enable).map id .count
  | .enableIndex index enable => (s.enableIndex index enable).map id .found
  | .enableAll enable => (s.enableAll enable).map id .count

theorem call_fst (s : RegionFreezer) (op : Op) : (s.call op).1 = s.step op := by
  cases op <;> rfl

def calls (s : RegionFreezer) : List Op → RegionFreezer × List Returned
  | [] => (s, [])
  | op :: ops =>
    let (s, r) := s.call op
    let (s, rs) := s.calls ops
    (s, r :: rs)

/-- The regions that a walk over the index by number visits. -/
def visited (s : RegionFreezer) : List Region := s.regionsByIndex.entries.map fun e => s.heap e.2

/-- The list has the regions the walk visits, and the freezer the list's next number. -/
structure Represents (s : RegionFreezer) (l : RegionList) : Prop where
  agree : Agree s
  numbered : Numbered s
  visits : s.visited = l.regions
  created : s.allocated = l.numCreated

theorem Represents.new : Represents new RegionList.new where
  agree := Agree.new
  numbered := ⟨rfl, nofun⟩
  visits := rfl
  created := rfl

/-! ## Selections -/

section Select

variable {s : RegionFreezer} {its : List Nat} {isMatch : Region → Bool}

/-- The pointers of the frozen regions that match, each once. -/
structure Selects (s : RegionFreezer) (its : List Nat) (isMatch : Region → Bool) : Prop where
  once : its.Nodup
  iff : ∀ p, p ∈ its ↔ p ∈ s.regionsByIndex.entries.map Prod.snd ∧ isMatch (s.heap p) = true

theorem Agree.selects_name (h : Agree s) (name : String) :
    Selects s (s.regionsByName.equalRange name) fun r => r.name = name where
  once := h.names_nodup.sublist (List.filter_sublist.map Prod.snd)
  iff p := by
    rw [Multimap.mem_equalRange, ← h.names_iff, List.mem_map]
    constructor
    · intro hp; exact ⟨⟨_, hp, rfl⟩, decide_eq_true (h.names _ hp).2⟩
    · rintro ⟨⟨e, he, rfl⟩, hname⟩
      rwa [← of_decide_eq_true hname, (h.names e he).2]

theorem Agree.selects_addr (h : Agree s) (addr : Nat) :
    Selects s (s.regionsByAddr.equalRange addr) fun r => r.addr = addr where
  once := h.addrs_nodup.sublist (List.filter_sublist.map Prod.snd)
  iff p := by
    rw [Multimap.mem_equalRange, ← h.addrs_iff, List.mem_map]
    constructor
    · intro hp; exact ⟨⟨_, hp, rfl⟩, decide_eq_true (h.addrs _ hp).2⟩
    · rintro ⟨⟨e, he, rfl⟩, haddr⟩
      rwa [← of_decide_eq_true haddr, (h.addrs e he).2]

theorem Agree.selects_index (h : Agree s) (index : Nat) :
    Selects s (s.regionsByIndex.find? index).toList fun r => r.index = index where
  once := by cases s.regionsByIndex.find? index <;> simp
  iff p := by
    rw [Option.mem_toList, OrderedMap.find?_eq_some, List.mem_map]
    constructor
    · intro hp; exact ⟨⟨_, hp, rfl⟩, decide_eq_true (h.indexes _ hp).2⟩
    · rintro ⟨⟨e, he, rfl⟩, hindex⟩
      rwa [← of_decide_eq_true hindex, (h.indexes e he).2]

theorem Agree.selects_all (h : Agree s) :
    Selects s (s.regionsByIndex.entries.map Prod.snd) fun _ => true where
  once := h.indexes_nodup
  iff p := by rw [and_iff_left rfl]

theorem Selects.countP (h : Agree s) (hsel : Selects s its isMatch) (q : Region → Bool) :
    its.countP (fun p => q (s.heap p)) = s.visited.countP fun r => isMatch r && q r := by
  have hperm : its.Perm ((s.regionsByIndex.entries.map Prod.snd).filter fun p =>
      isMatch (s.heap p)) := by
    refine (List.perm_ext_iff_of_nodup hsel.once (h.indexes_nodup.filter _)).mpr fun p => ?_
    rw [List.mem_filter]; exact hsel.iff p
  rw [hperm.countP_eq, List.countP_filter, visited]
  simp only [List.countP_map, Function.comp_def]
  exact List.countP_congr fun e _ => by rw [Bool.and_comm]

theorem Selects.length_eq (h : Agree s) (hsel : Selects s its isMatch) :
    its.length = s.visited.countP isMatch := by
  have := hsel.countP h fun _ => true
  simpa using this

theorem Selects.visited_erase (h : Agree s) (hsel : Selects s its isMatch) :
    (s.regionsByIndex.entries.filter fun e => e.1 ∉ its.map fun p => (s.heap p).index).map
        (fun e => s.heap e.2) = s.visited.filter fun r => !isMatch r := by
  rw [visited, List.filter_map]
  congr 1
  refine List.filter_congr fun e he => ?_
  have hmem : (e.1 ∈ its.map fun p => (s.heap p).index) ↔ isMatch (s.heap e.2) = true := by
    rw [List.mem_map]
    constructor
    · rintro ⟨p, hp, hidx⟩
      obtain ⟨hpe, hmatch⟩ := (hsel.iff p).mp hp
      obtain ⟨d, hd, rfl⟩ := List.mem_map.mp hpe
      have heq : d.2 = e.2 := by
        rw [(h.indexes d hd).2] at hidx
        exact s.regionsByIndex.unique hd (hidx ▸ he)
      exact heq ▸ hmatch
    · intro hmatch
      exact ⟨e.2, (hsel.iff _).mpr ⟨List.mem_map_of_mem he, hmatch⟩, (h.indexes e he).2⟩
  by_cases hm : isMatch (s.heap e.2) = true <;> simp [hmem, hm]

theorem Selects.visited_setEnable (hsel : Selects s its isMatch) (enable : Bool) :
    (s.setEnable its enable).1.visited =
      s.visited.map fun r => if isMatch r then { r with enable } else r := by
  obtain ⟨heap, heq, hheap⟩ := setEnable_spec s its enable
  rw [heq]
  simp only [visited, List.map_map]
  refine List.map_congr_left fun e he => ?_
  have hmem : e.2 ∈ its ↔ isMatch (s.heap e.2) = true := by
    rw [hsel.iff]; exact and_iff_right (List.mem_map_of_mem he)
  simp only [hheap, hmem, Function.comp_apply]

theorem setEnable_count (hits : its.Nodup) (enable : Bool) :
    (s.setEnable its enable).2 = its.countP fun p => (s.heap p).enable != enable := by
  induction its generalizing s with
  | nil => rfl
  | cons p its ih =>
    obtain ⟨hp, hits⟩ := List.nodup_cons.mp hits
    rw [setEnable_cons, List.countP_cons]
    by_cases heq : (s.heap p).enable = enable
    · rw [if_pos heq, ih hits]
      simp [heq]
    · have hrest : its.countP (fun q => ((s.withFlag p enable).heap q).enable != enable) =
          its.countP fun q => (s.heap q).enable != enable :=
        List.countP_congr fun q hq => by
          have hne : q ≠ p := fun hqp => hp (hqp ▸ hq)
          rw [heap_withFlag_of_ne hne]
      rw [if_neg heq, ih hits, hrest]
      simp [heq]

end Select

/-! ## Simulation -/

section Simulation

variable {s : RegionFreezer} {l : RegionList}

theorem visited_addRegion (h : Keyed s) (hn : Numbered s) (hlt : s.allocated < 2 ^ 64)
    {rgn : Region} (hidx : rgn.index = s.nextIndex) :
    (s.addRegion rgn).visited = s.visited ++ [rgn] := by
  have hlast : ∀ e ∈ s.regionsByIndex.entries, e.1 < rgn.index := by
    intro e he
    obtain ⟨hp, hk⟩ := h.indexes e he
    rw [hidx, hn.next, ← hk, hn.index _ hp, Nat.mod_eq_of_lt hlt, Nat.mod_eq_of_lt (by omega)]
    exact hp
  show (insertNew rgn.index s.allocated s.regionsByIndex.entries).map _ = _
  rw [insertNew_last hlast, List.map_append]
  congr 1
  · refine List.map_congr_left fun e he => heap_addRegion_of_lt (h.indexes e he).1
  · rw [List.map_singleton, heap_addRegion_self]

theorem Represents.add (h : Represents s l) (hlt : s.allocated < 2 ^ 64) {rgn : Region}
    (hidx : rgn.index = s.nextIndex) : Represents (s.addRegion rgn) (l.add rgn) where
  agree := h.agree.addRegion h.numbered hlt hidx
  numbered := h.numbered.addRegion hidx
  visits := by rw [visited_addRegion h.agree.toKeyed h.numbered hlt hidx, h.visits]; rfl
  created := congrArg (· + 1) h.created

theorem Represents.nextIndex (h : Represents s l) (hlt : s.allocated < 2 ^ 64) :
    s.nextIndex = l.numCreated := by
  rw [h.numbered.next, Nat.mod_eq_of_lt hlt, h.created]

theorem Represents.of_visited (h : Represents s l) {op : Op} (hlt : s.allocated < 2 ^ 64)
    (hop : op.isFreeze = false) (hall : op ≠ .unfreezeAll) {regions : List Region}
    (hv : (s.step op).visited = regions) : Represents (s.step op) { l with regions } where
  agree := h.agree.step h.numbered hlt fun hc => absurd hc hall
  numbered := h.numbered.step op
  visits := hv
  created := by rw [allocated_step, hop]; exact h.created

theorem visited_unfreezeName (h : Agree s) (name : String) :
    (s.unfreezeName name).1.visited = s.visited.filter fun r => !decide (r.name = name) := by
  rw [← (h.selects_name name).visited_erase h, unfreezeName_eq, visited, OrderedMap.foldl_erase]

theorem visited_unfreezeAddr (h : Agree s) (addr : Nat) :
    (s.unfreezeAddr addr).1.visited = s.visited.filter fun r => !decide (r.addr = addr) := by
  rw [← (h.selects_addr addr).visited_erase h, unfreezeAddr_eq, visited, OrderedMap.foldl_erase]

theorem visited_unfreezeIndex (h : Agree s) (index : Nat) :
    (s.unfreezeIndex index).1.visited = s.visited.filter fun r => !decide (r.index = index) := by
  rw [← (h.selects_index index).visited_erase h, unfreezeIndex]
  cases hf : s.regionsByIndex.find? index with
  | none => simp [visited]
  | some p =>
    have hk := (h.indexes _ (OrderedMap.find?_eq_some.mp hf)).2
    simp [visited, OrderedMap.erase, hk]

theorem visited_enableIndex (h : Agree s) (index : Nat) (enable : Bool) :
    (s.enableIndex index enable).1.visited =
      s.visited.map fun r => if decide (r.index = index) then { r with enable } else r := by
  rw [enableIndex_eq, (h.selects_index index).visited_setEnable]

/-- How many of the regions that match were changed. -/
theorem Selects.numChanged (h : Represents s l) {its : List Nat} {isMatch : Region → Bool}
    (hsel : Selects s its isMatch) (enable : Bool) :
    (s.setEnable its enable).2 = l.numChanged isMatch enable := by
  rw [setEnable_count hsel.once, hsel.countP h.agree fun r => r.enable != enable, h.visits]
  rfl

theorem found_unfreezeIndex (h : Represents s l) (index : Nat) :
    (s.unfreezeIndex index).2 = l.regions.any fun r => r.index = index := by
  have hlen := (h.agree.selects_index index).length_eq h.agree
  rw [h.visits] at hlen
  unfold unfreezeIndex
  cases hf : s.regionsByIndex.find? index with
  | none =>
    rw [hf] at hlen
    exact (List.any_eq_false.mpr (List.countP_eq_zero.mp hlen.symm)).symm
  | some p =>
    rw [hf] at hlen
    have hpos : 0 < l.regions.countP fun r => r.index = index := by rw [← hlen]; exact Nat.one_pos
    exact (List.any_eq_true.mpr (List.countP_pos_iff.mp hpos)).symm

theorem found_enableIndex (h : Represents s l) (index : Nat) (enable : Bool) :
    (s.enableIndex index enable).2 =
      l.regions.any fun r => r.index = index && r.enable != enable := by
  have hcount := (h.agree.selects_index index).numChanged h enable
  have hfound : (s.enableIndex index enable).2 =
      decide (0 < (s.setEnable (s.regionsByIndex.find? index).toList enable).2) := by
    unfold enableIndex setEnable
    cases s.regionsByIndex.find? index with
    | none => rfl
    | some p =>
      simp only [Option.toList_some, List.foldl_cons, List.foldl_nil]
      split <;> rfl
  rw [hfound, hcount, RegionList.numChanged, Bool.eq_iff_iff, decide_eq_true_iff,
    List.countP_pos_iff, List.any_eq_true]

/-- Every call but `unfreeze_all` does what it does to the list, and returns the same. -/
theorem Represents.call (h : Represents s l) (hlt : s.allocated < 2 ^ 64) {op : Op}
    (hall : op ≠ .unfreezeAll) :
    Represents (s.call op).1 (l.call op).1 ∧ (s.call op).2 = (l.call op).2 := by
  have hv := h.visits
  cases op with
  | freeze name addr data enable =>
    refine ⟨?_, rfl⟩
    show Represents (s.addRegion (Region.new name s.nextIndex addr data enable))
      (l.add (Region.new name l.numCreated addr data enable))
    rw [← h.nextIndex hlt]
    exact h.add hlt rfl
  | freezeArray name baseAddr maxItems data dataMask nullData nullDataMask enable =>
    refine ⟨?_, rfl⟩
    show Represents
      (s.freezeArray name baseAddr maxItems data dataMask nullData nullDataMask enable)
      (l.add (Region.newArray name l.numCreated baseAddr maxItems data dataMask nullData
        nullDataMask enable))
    rw [← h.nextIndex hlt]
    exact h.add hlt rfl
  | unfreezeName name =>
    refine ⟨h.of_visited hlt rfl hall (by rw [← hv]; exact visited_unfreezeName h.agree name), ?_⟩
    show Returned.count (s.unfreezeName name).2 = _
    rw [unfreezeName_eq, (h.agree.selects_name name).length_eq h.agree, hv]
    rfl
  | unfreezeAddr addr =>
    refine ⟨h.of_visited hlt rfl hall (by rw [← hv]; exact visited_unfreezeAddr h.agree addr), ?_⟩
    show Returned.count (s.unfreezeAddr addr).2 = _
    rw [unfreezeAddr_eq, (h.agree.selects_addr addr).length_eq h.agree, hv]
    rfl
  | unfreezeIndex index =>
    refine ⟨h.of_visited hlt rfl hall (by rw [← hv]; exact visited_unfreezeIndex h.agree index), ?_⟩
    exact congrArg Returned.found (found_unfreezeIndex h index)
  | unfreezeAll => exact absurd rfl hall
  | enableName name enable =>
    have hsel := h.agree.selects_name name
    refine ⟨h.of_visited hlt rfl hall (by rw [← hv]; exact hsel.visited_setEnable enable), ?_⟩
    exact congrArg Returned.count (hsel.numChanged h enable)
  | enableAddr addr enable =>
    have hsel := h.agree.selects_addr addr
    refine ⟨h.of_visited hlt rfl hall (by rw [← hv]; exact hsel.visited_setEnable enable), ?_⟩
    exact congrArg Returned.count (hsel.numChanged h enable)
  | enableIndex index enable =>
    refine ⟨h.of_visited hlt rfl hall
      (by rw [← hv]; exact visited_enableIndex h.agree index enable), ?_⟩
    exact congrArg Returned.found (found_enableIndex h index enable)
  | enableAll enable =>
    have hsel := h.agree.selects_all
    refine ⟨h.of_visited hlt rfl hall (by rw [← hv]; exact hsel.visited_setEnable enable), ?_⟩
    exact congrArg Returned.count (hsel.numChanged h enable)

theorem Represents.calls {ops : List Op} (h : Represents s l)
    (hlt : s.allocated + numFreezes ops < 2 ^ 64) (hall : Op.unfreezeAll ∉ ops) :
    Represents (s.calls ops).1 (l.calls ops).1 ∧ (s.calls ops).2 = (l.calls ops).2 := by
  induction ops generalizing s l with
  | nil => exact ⟨h, rfl⟩
  | cons op ops ih =>
    have hcount : numFreezes (op :: ops) = numFreezes ops + if op.isFreeze then 1 else 0 :=
      List.countP_cons
    obtain ⟨hne, hrest⟩ := not_or.mp (List.mem_cons.not.mp hall)
    obtain ⟨hstep, hret⟩ := h.call (by omega) (Ne.symm hne)
    have halloc : (s.call op).1.allocated = s.allocated + if op.isFreeze then 1 else 0 := by
      rw [call_fst, allocated_step]
    obtain ⟨hrep, hrets⟩ := ih hstep (by omega) hrest
    exact ⟨hrep, congrArg₂ List.cons hret hrets⟩

end Simulation

/-- The freezer behaves like the list: every call returns the same, and afterwards
the index by number visits the list's regions in their order. -/
theorem simulates_list {ops : List Op} (hops : numFreezes ops < 2 ^ 64)
    (hall : Op.unfreezeAll ∉ ops) :
    (new.calls ops).2 = (RegionList.new.calls ops).2 ∧
      (new.calls ops).1.visited = (RegionList.new.calls ops).1.regions := by
  obtain ⟨hrep, hret⟩ := Represents.new.calls (by simpa [new] using hops) hall
  exact ⟨hret, hrep.visits⟩

/-- Two regions share a name and two an address. -/
theorem simulates_list_shared :
    (new.calls [.freeze "a" 1 [1] true, .freeze "a" 2 [2] true, .freeze "b" 2 [3] false,
        .enableAddr 2 true, .unfreezeName "a"]).2 =
      [.nothing, .nothing, .nothing, .count 1, .count 2] ∧
    (new.calls [.freeze "a" 1 [1] true, .freeze "a" 2 [2] true, .freeze "b" 2 [3] false,
        .enableAddr 2 true, .unfreezeName "a"]).1.visited = [Region.new "b" 2 2 [3] true] :=
  simulates_list (by decide) (by simp)

end RegionFreezer
end Memwatch
