import Memwatch.Freezer.Model

/-!
# The three indexes of the freezer

What every operation does to the indexes, the invariant that the index by number
is covered by the other two, and when all three agree: `unfreeze_all` leaves the
index by address as it was.
-/

namespace Memwatch

open Lib

namespace RegionFreezer

variable {s : RegionFreezer} {e : Nat × Nat} {p : Nat} {name : String} {addr index : Nat}
  {enable : Bool} {its : List Nat}

/-! ## What the operations do -/

/-- The loop over the regions found under a key: each is taken out of another index and out
of the index by number, and counted. -/
theorem foldl_unfreeze {M : Type} (put : M → OrderedMap Nat Nat → RegionFreezer)
    (remove : M → Nat → M) (number : Nat → Nat)
    {loop : RegionFreezer × Nat → Nat → RegionFreezer × Nat}
    (hloop : ∀ m i n p, loop (put m i, n) p = (put (remove m p) (i.erase (number p)), n + 1))
    (its : List Nat) (m : M) (i : OrderedMap Nat Nat) (n : Nat) :
    its.foldl loop (put m i, n) =
      (put (its.foldl remove m) (its.foldl (fun i p => i.erase (number p)) i), n + its.length) := by
  induction its generalizing m i n with
  | nil => rfl
  | cons p its ih =>
    rw [List.foldl_cons, hloop, ih, List.foldl_cons, List.foldl_cons, List.length_cons,
      Nat.add_assoc, Nat.add_comm 1]

theorem unfreezeName_eq (s : RegionFreezer) (name : String) : s.unfreezeName name =
    ({ s with
        regionsByName := s.regionsByName.eraseKey name
        regionsByAddr := s.regionsByAddr.filter fun e =>
          e ∉ (s.regionsByName.equalRange name).map fun p => ((s.heap p).addr, p)
        regionsByIndex := (s.regionsByName.equalRange name).foldl
          (fun m p => m.erase (s.heap p).index) s.regionsByIndex },
      (s.regionsByName.equalRange name).length) := by
  unfold unfreezeName
  dsimp only
  rw [foldl_unfreeze (fun m i => { s with regionsByAddr := m, regionsByIndex := i })
    (fun m p => m.eraseEntry (s.heap p).addr p) (fun p => (s.heap p).index) ?_
    (s.regionsByName.equalRange name) s.regionsByAddr s.regionsByIndex 0]
  · rw [← Multimap.foldl_eraseEntry (fun p => ((s.heap p).addr, p)), Nat.zero_add]
  · exact fun _ _ _ _ => rfl

theorem unfreezeAddr_eq (s : RegionFreezer) (addr : Nat) : s.unfreezeAddr addr =
    ({ s with
        regionsByAddr := s.regionsByAddr.eraseKey addr
        regionsByName := s.regionsByName.filter fun e =>
          e ∉ (s.regionsByAddr.equalRange addr).map fun p => ((s.heap p).name, p)
        regionsByIndex := (s.regionsByAddr.equalRange addr).foldl
          (fun m p => m.erase (s.heap p).index) s.regionsByIndex },
      (s.regionsByAddr.equalRange addr).length) := by
  unfold unfreezeAddr
  dsimp only
  rw [foldl_unfreeze (fun m i => { s with regionsByName := m, regionsByIndex := i })
    (fun m p => m.eraseEntry (s.heap p).name p) (fun p => (s.heap p).index) ?_
    (s.regionsByAddr.equalRange addr) s.regionsByName s.regionsByIndex 0]
  · rw [← Multimap.foldl_eraseEntry (fun p => ((s.heap p).name, p)), Nat.zero_add]
  · exact fun _ _ _ _ => rfl

def withFlag (s : RegionFreezer) (p : Nat) (enable : Bool) : RegionFreezer :=
  { s with heap := Function.update s.heap p { s.heap p with enable := enable } }

theorem heap_withFlag_of_ne {p q : Nat} (h : q ≠ p) (s : RegionFreezer) (enable : Bool) :
    (s.withFlag p enable).heap q = s.heap q := Function.update_of_ne h ..

theorem setEnable_eq (s : RegionFreezer) (its : List Nat) (enable : Bool) :
    s.setEnable its enable = its.foldl (fun acc p =>
      if (acc.1.heap p).enable = enable then acc
      else (acc.1.withFlag p enable, acc.2 + 1)) (s, 0) := rfl

theorem setEnable_cons (s : RegionFreezer) (p : Nat) (its : List Nat) (enable : Bool) :
    s.setEnable (p :: its) enable =
      if (s.heap p).enable = enable then s.setEnable its enable
      else (((s.withFlag p enable).setEnable its enable).1,
        ((s.withFlag p enable).setEnable its enable).2 + 1) := by
  have hcount : ∀ (its : List Nat) (s : RegionFreezer) (n : Nat),
      its.foldl (fun acc p =>
        if (acc.1.heap p).enable = enable then acc
        else (acc.1.withFlag p enable, acc.2 + 1)) (s, n) =
        ((s.setEnable its enable).1, (s.setEnable its enable).2 + n) := by
    intro its
    induction its with
    | nil => intro s n; simp [setEnable_eq]
    | cons p its ih =>
      intro s n
      rw [setEnable_eq, List.foldl_cons, List.foldl_cons]
      by_cases hp : (s.heap p).enable = enable
      · simp only [hp, ↓reduceIte]
        rw [ih, ih s 0, Nat.add_zero]
      · simp only [hp, ↓reduceIte]
        rw [ih, ih _ (0 + 1), Nat.zero_add, Nat.add_assoc, Nat.add_comm 1 n]
  rw [setEnable_eq, List.foldl_cons, hcount]
  by_cases hp : (s.heap p).enable = enable
  · simp only [hp, ↓reduceIte, Nat.add_zero]
  · simp only [hp, ↓reduceIte, Nat.zero_add]

/-- Enabling changes nothing but the flags of the regions it is about. -/
theorem setEnable_spec (s : RegionFreezer) (its : List Nat) (enable : Bool) :
    ∃ heap, (s.setEnable its enable).1 = { s with heap := heap } ∧
      ∀ p, heap p = if p ∈ its then { s.heap p with enable := enable } else s.heap p := by
  induction its generalizing s with
  | nil => exact ⟨s.heap, rfl, fun p => rfl⟩
  | cons q its ih =>
    rw [setEnable_cons]
    by_cases hq : (s.heap q).enable = enable
    · rw [if_pos hq]
      obtain ⟨heap, heq, hheap⟩ := ih s
      refine ⟨heap, heq, fun p => ?_⟩
      rw [hheap]
      by_cases hp : p = q
      · subst hp; simp [← hq]
      · simp [hp]
    · rw [if_neg hq]
      obtain ⟨heap, heq, hheap⟩ := ih (s.withFlag q enable)
      refine ⟨heap, heq, fun p => ?_⟩
      rw [hheap, withFlag]
      by_cases hp : p = q
      · subst hp; simp
      · simp [hp]

theorem mem_regionsByIndex_unfreezeName {e : Nat × Nat} :
    e ∈ (s.unfreezeName name).1.regionsByIndex.entries ↔
      e ∈ s.regionsByIndex.entries ∧ ∀ p, (name, p) ∈ s.regionsByName → (s.heap p).index ≠ e.1 := by
  rw [unfreezeName_eq, OrderedMap.foldl_erase]
  simp

theorem mem_regionsByIndex_unfreezeAddr {e : Nat × Nat} :
    e ∈ (s.unfreezeAddr addr).1.regionsByIndex.entries ↔
      e ∈ s.regionsByIndex.entries ∧ ∀ p, (addr, p) ∈ s.regionsByAddr → (s.heap p).index ≠ e.1 := by
  rw [unfreezeAddr_eq, OrderedMap.foldl_erase]
  simp

theorem heap_addRegion_of_lt {rgn : Region} (h : p < s.allocated) :
    (s.addRegion rgn).heap p = s.heap p :=
  Function.update_of_ne h.ne _ _

theorem heap_addRegion_self {rgn : Region} : (s.addRegion rgn).heap s.allocated = rgn :=
  Function.update_self _ _ _

/-! ## The indexes hold allocated regions under their own keys -/

structure Keyed (s : RegionFreezer) : Prop where
  names : ∀ e ∈ s.regionsByName, e.2 < s.allocated ∧ (s.heap e.2).name = e.1
  addrs : ∀ e ∈ s.regionsByAddr, e.2 < s.allocated ∧ (s.heap e.2).addr = e.1
  indexes : ∀ e ∈ s.regionsByIndex.entries, e.2 < s.allocated ∧ (s.heap e.2).index = e.1

/-- Every region in the index by number is in the other two. -/
structure Covered (s : RegionFreezer) : Prop extends Keyed s where
  named : ∀ e ∈ s.regionsByIndex.entries, ((s.heap e.2).name, e.2) ∈ s.regionsByName
  addressed : ∀ e ∈ s.regionsByIndex.entries, ((s.heap e.2).addr, e.2) ∈ s.regionsByAddr

theorem Covered.new : Covered new where
  names := nofun
  addrs := nofun
  indexes := nofun
  named := nofun
  addressed := nofun

theorem Keyed.addRegion (h : Keyed s) (rgn : Region) : Keyed (s.addRegion rgn) where
  names e he := by
    rcases Multimap.mem_emplace.mp he with rfl | he
    · exact ⟨Nat.lt_succ_self _, by rw [heap_addRegion_self]⟩
    · obtain ⟨hlt, hk⟩ := h.names e he
      exact ⟨hlt.trans (Nat.lt_succ_self _), by rw [heap_addRegion_of_lt hlt, hk]⟩
  addrs e he := by
    rcases Multimap.mem_emplace.mp he with rfl | he
    · exact ⟨Nat.lt_succ_self _, by rw [heap_addRegion_self]⟩
    · obtain ⟨hlt, hk⟩ := h.addrs e he
      exact ⟨hlt.trans (Nat.lt_succ_self _), by rw [heap_addRegion_of_lt hlt, hk]⟩
  indexes e he := by
    rcases mem_of_mem_insertNew he with rfl | he
    · exact ⟨Nat.lt_succ_self _, by rw [heap_addRegion_self]⟩
    · obtain ⟨hlt, hk⟩ := h.indexes e he
      exact ⟨hlt.trans (Nat.lt_succ_self _), by rw [heap_addRegion_of_lt hlt, hk]⟩

/-- Regions leave the indexes and nothing else happens. -/
structure Shrinks (s s' : RegionFreezer) : Prop where
  heap : s'.heap = s.heap
  allocated : s'.allocated = s.allocated
  nextIndex : s'.nextIndex = s.nextIndex
  names : s'.regionsByName.Sublist s.regionsByName
  addrs : s'.regionsByAddr.Sublist s.regionsByAddr
  indexes : s'.regionsByIndex.entries.Sublist s.regionsByIndex.entries

theorem Keyed.shrink {s' : RegionFreezer} (h : Keyed s) (hs : Shrinks s s') : Keyed s' where
  names e he := by rw [hs.heap, hs.allocated]; exact h.names e (hs.names.subset he)
  addrs e he := by rw [hs.heap, hs.allocated]; exact h.addrs e (hs.addrs.subset he)
  indexes e he := by rw [hs.heap, hs.allocated]; exact h.indexes e (hs.indexes.subset he)

theorem unfreezeName_shrinks (s : RegionFreezer) (name : String) :
    Shrinks s (s.unfreezeName name).1 := by
  rw [unfreezeName_eq]
  refine ⟨rfl, rfl, rfl, List.filter_sublist, List.filter_sublist, ?_⟩
  rw [OrderedMap.foldl_erase]
  exact List.filter_sublist

theorem unfreezeAddr_shrinks (s : RegionFreezer) (addr : Nat) :
    Shrinks s (s.unfreezeAddr addr).1 := by
  rw [unfreezeAddr_eq]
  refine ⟨rfl, rfl, rfl, List.filter_sublist, List.filter_sublist, ?_⟩
  rw [OrderedMap.foldl_erase]
  exact List.filter_sublist

theorem unfreezeIndex_shrinks (s : RegionFreezer) (index : Nat) :
    Shrinks s (s.unfreezeIndex index).1 := by
  unfold unfreezeIndex
  split
  · exact ⟨rfl, rfl, rfl, List.Sublist.refl _, List.Sublist.refl _, List.Sublist.refl _⟩
  · exact ⟨rfl, rfl, rfl, List.filter_sublist, List.filter_sublist, List.filter_sublist⟩

theorem unfreezeAll_shrinks (s : RegionFreezer) : Shrinks s s.unfreezeAll.1 :=
  ⟨rfl, rfl, rfl, List.nil_sublist _, List.Sublist.refl _, List.nil_sublist _⟩

structure Flags (s s' : RegionFreezer) : Prop where
  allocated : s'.allocated = s.allocated
  nextIndex : s'.nextIndex = s.nextIndex
  names : s'.regionsByName = s.regionsByName
  addrs : s'.regionsByAddr = s.regionsByAddr
  indexes : s'.regionsByIndex = s.regionsByIndex
  name : ∀ p, (s'.heap p).name = (s.heap p).name
  addr : ∀ p, (s'.heap p).addr = (s.heap p).addr
  index : ∀ p, (s'.heap p).index = (s.heap p).index

theorem setEnable_flags (s : RegionFreezer) (its : List Nat) (enable : Bool) :
    Flags s (s.setEnable its enable).1 := by
  obtain ⟨heap, heq, hheap⟩ := setEnable_spec s its enable
  rw [heq]
  refine ⟨rfl, rfl, rfl, rfl, rfl, fun p => ?_, fun p => ?_, fun p => ?_⟩ <;>
    (simp only [hheap]; split <;> rfl)

theorem enableIndex_eq (s : RegionFreezer) (index : Nat) (enable : Bool) :
    (s.enableIndex index enable).1 =
      (s.setEnable (s.regionsByIndex.find? index).toList enable).1 := by
  unfold enableIndex setEnable
  cases s.regionsByIndex.find? index with
  | none => rfl
  | some p =>
    simp only [Option.toList_some, List.foldl_cons, List.foldl_nil]
    split <;> rfl

theorem enableIndex_flags (s : RegionFreezer) (index : Nat) (enable : Bool) :
    Flags s (s.enableIndex index enable).1 := by
  rw [enableIndex_eq]; exact setEnable_flags s _ enable

/-- What one operation can do. -/
theorem step_cases (s : RegionFreezer) (op : Op) :
    (∃ rgn, rgn.index = s.nextIndex ∧ s.step op = s.addRegion rgn) ∨
      Shrinks s (s.step op) ∨ Flags s (s.step op) := by
  cases op with
  | freeze name addr data enable => exact .inl ⟨_, rfl, rfl⟩
  | freezeArray name baseAddr maxItems data dataMask nullData nullDataMask enable =>
    exact .inl ⟨_, rfl, rfl⟩
  | unfreezeName name => exact .inr (.inl (unfreezeName_shrinks s name))
  | unfreezeAddr addr => exact .inr (.inl (unfreezeAddr_shrinks s addr))
  | unfreezeIndex index => exact .inr (.inl (unfreezeIndex_shrinks s index))
  | unfreezeAll => exact .inr (.inl (unfreezeAll_shrinks s))
  | enableName name enable => exact .inr (.inr (setEnable_flags s _ enable))
  | enableAddr addr enable => exact .inr (.inr (setEnable_flags s _ enable))
  | enableIndex index enable => exact .inr (.inr (enableIndex_flags s index enable))
  | enableAll enable => exact .inr (.inr (setEnable_flags s _ enable))

theorem Keyed.flags {s' : RegionFreezer} (h : Keyed s) (hf : Flags s s') : Keyed s' where
  names e he := by rw [hf.allocated, hf.name]; exact h.names e (hf.names ▸ he)
  addrs e he := by rw [hf.allocated, hf.addr]; exact h.addrs e (hf.addrs ▸ he)
  indexes e he := by rw [hf.allocated, hf.index]; exact h.indexes e (hf.indexes ▸ he)

theorem Covered.flags {s' : RegionFreezer} (h : Covered s) (hf : Flags s s') : Covered s' where
  toKeyed := h.toKeyed.flags hf
  named e he := by rw [hf.name, hf.names]; exact h.named e (hf.indexes ▸ he)
  addressed e he := by rw [hf.addr, hf.addrs]; exact h.addressed e (hf.indexes ▸ he)

theorem Covered.addRegion (h : Covered s) (rgn : Region) : Covered (s.addRegion rgn) where
  toKeyed := h.toKeyed.addRegion rgn
  named e he := by
    rcases mem_of_mem_insertNew he with rfl | he
    · exact Multimap.mem_emplace.mpr (.inl (by rw [heap_addRegion_self]))
    · rw [heap_addRegion_of_lt (h.indexes e he).1]
      exact Multimap.mem_emplace.mpr (.inr (h.named e he))
  addressed e he := by
    rcases mem_of_mem_insertNew he with rfl | he
    · exact Multimap.mem_emplace.mpr (.inl (by rw [heap_addRegion_self]))
    · rw [heap_addRegion_of_lt (h.indexes e he).1]
      exact Multimap.mem_emplace.mpr (.inr (h.addressed e he))

/-- The regions that are found leave all three indexes, and no others leave one. -/
structure Leaves (found : Nat → Prop) (s s' : RegionFreezer) : Prop extends Shrinks s s' where
  byName : ∀ e ∈ s.regionsByName, e ∈ s'.regionsByName ↔ ¬ found e.2
  byAddr : ∀ e ∈ s.regionsByAddr, e ∈ s'.regionsByAddr ↔ ¬ found e.2
  byIndex : ∀ e ∈ s.regionsByIndex.entries,
    e ∈ s'.regionsByIndex.entries ↔ ∀ p, found p → (s.heap p).index ≠ e.1

section Keys

variable {K L : Type} [DecidableEq K] [DecidableEq L] {m : Multimap K Nat} {k : K} {d : K × Nat}
  (key : Nat → K)

theorem mem_eraseKey_iff (hkeyed : ∀ d ∈ m, key d.2 = d.1) (hd : d ∈ m) :
    d ∈ m.eraseKey k ↔ (k, d.2) ∉ m := by
  rw [Multimap.mem_eraseKey, and_iff_right hd]
  refine not_congr ⟨?_, fun hk => ?_⟩
  · rintro rfl
    exact hd
  · rw [← hkeyed d hd, hkeyed _ hk]

theorem mem_filter_iff {found : Multimap L Nat} {l : L} (hkey : key d.2 = d.1) (hd : d ∈ m) :
    d ∈ m.filter (fun d => d ∉ (found.equalRange l).map fun p => (key p, p)) ↔
      (l, d.2) ∉ found := by
  rw [List.mem_filter, and_iff_right hd, decide_eq_true_eq, List.mem_map]
  refine not_congr ⟨?_, fun hfound => ⟨d.2, Multimap.mem_equalRange.mpr hfound, ?_⟩⟩
  · rintro ⟨p, hp, rfl⟩
    exact Multimap.mem_equalRange.mp hp
  · rw [hkey]

end Keys

section Keyed

variable (h : Keyed s)

include h

theorem Keyed.leaves_name (name : String) :
    Leaves (fun p => (name, p) ∈ s.regionsByName) s (s.unfreezeName name).1 where
  toShrinks := unfreezeName_shrinks s name
  byName e he := by
    rw [unfreezeName_eq]
    exact mem_eraseKey_iff (fun p => (s.heap p).name) (fun d hd => (h.names d hd).2) he
  byAddr e he := by
    rw [unfreezeName_eq]
    exact mem_filter_iff (fun p => (s.heap p).addr) (h.addrs e he).2 he
  byIndex e he := by rw [mem_regionsByIndex_unfreezeName, and_iff_right he]

theorem Keyed.leaves_addr (addr : Nat) :
    Leaves (fun p => (addr, p) ∈ s.regionsByAddr) s (s.unfreezeAddr addr).1 where
  toShrinks := unfreezeAddr_shrinks s addr
  byName e he := by
    rw [unfreezeAddr_eq]
    exact mem_filter_iff (fun p => (s.heap p).name) (h.names e he).2 he
  byAddr e he := by
    rw [unfreezeAddr_eq]
    exact mem_eraseKey_iff (fun p => (s.heap p).addr) (fun d hd => (h.addrs d hd).2) he
  byIndex e he := by rw [mem_regionsByIndex_unfreezeAddr, and_iff_right he]

theorem Keyed.leaves_index (index : Nat) :
    Leaves (fun p => (index, p) ∈ s.regionsByIndex.entries) s (s.unfreezeIndex index).1 := by
  have hs := unfreezeIndex_shrinks s index
  have hentry : ∀ {K : Type} {d : K × Nat} {k : K} {p : Nat}, (d.2 = p → k = d.1) →
      (d ≠ (k, p) ↔ p ≠ d.2) := by
    rintro K ⟨j, q⟩ k p hk
    refine not_congr ⟨fun heq => (Prod.mk.inj heq).2.symm, fun heq => ?_⟩
    exact Prod.ext (hk heq.symm).symm heq.symm
  unfold RegionFreezer.unfreezeIndex at hs ⊢
  cases hfind : s.regionsByIndex.find? index with
  | none =>
    rw [hfind] at hs
    have hnone : ∀ p, (index, p) ∉ s.regionsByIndex.entries := fun p hp =>
      OrderedMap.find?_eq_none.mp hfind _ hp rfl
    exact ⟨hs, fun e he => iff_of_true he (hnone _), fun e he => iff_of_true he (hnone _),
      fun e he => iff_of_true he fun p hp => absurd hp (hnone p)⟩
  | some p =>
    rw [hfind] at hs
    have hp := OrderedMap.find?_eq_some.mp hfind
    have hone : ∀ q, (index, q) ∈ s.regionsByIndex.entries ↔ p = q := by
      refine fun q => ⟨fun hq => s.regionsByIndex.unique hp hq, ?_⟩
      rintro rfl
      exact hp
    refine ⟨hs, fun e he => ?_, fun e he => ?_, fun e he => ?_⟩
    · rw [Multimap.mem_eraseEntry, and_iff_right he, hone]
      exact hentry fun heq => heq ▸ (h.names e he).2
    · rw [Multimap.mem_eraseEntry, and_iff_right he, hone]
      exact hentry fun heq => heq ▸ (h.addrs e he).2
    · simp only [OrderedMap.mem_erase, he, true_and, hone, forall_eq']
      rw [(h.indexes _ hp).2]
      exact ne_comm

end Keyed

theorem Covered.leave {s' : RegionFreezer} {found : Nat → Prop} (h : Covered s)
    (hl : Leaves found s s') : Covered s' := by
  have hother : ∀ e ∈ s'.regionsByIndex.entries,
      e ∈ s.regionsByIndex.entries ∧ ¬ found e.2 := by
    intro e he
    have hold := hl.indexes.subset he
    exact ⟨hold, fun hf => (hl.byIndex e hold).mp he e.2 hf (h.indexes e hold).2⟩
  refine ⟨h.toKeyed.shrink hl.toShrinks, fun e he => ?_, fun e he => ?_⟩
  · obtain ⟨hold, hnot⟩ := hother e he
    rw [hl.heap]
    exact (hl.byName _ (h.named e hold)).mpr hnot
  · obtain ⟨hold, hnot⟩ := hother e he
    rw [hl.heap]
    exact (hl.byAddr _ (h.addressed e hold)).mpr hnot

/-- Every operation keeps the index by number covered. -/
theorem Covered.step (h : Covered s) (op : Op) : Covered (s.step op) := by
  cases op with
  | unfreezeName name => exact h.leave (h.toKeyed.leaves_name name)
  | unfreezeAddr addr => exact h.leave (h.toKeyed.leaves_addr addr)
  | unfreezeIndex index => exact h.leave (h.toKeyed.leaves_index index)
  | unfreezeAll => exact ⟨h.toKeyed.shrink (unfreezeAll_shrinks s), nofun, nofun⟩
  | freeze name addr data enable => exact h.addRegion _
  | freezeArray name baseAddr maxItems data dataMask nullData nullDataMask enable =>
    exact h.addRegion _
  | enableName name enable => exact h.flags (setEnable_flags s _ enable)
  | enableAddr addr enable => exact h.flags (setEnable_flags s _ enable)
  | enableIndex index enable => exact h.flags (enableIndex_flags s index enable)
  | enableAll enable => exact h.flags (setEnable_flags s _ enable)

/-! ## Agreement -/

/-- Regions are numbered in the order of their allocation. -/
structure Numbered (s : RegionFreezer) : Prop where
  next : s.nextIndex = s.allocated % 2 ^ 64
  index : ∀ p < s.allocated, (s.heap p).index = p % 2 ^ 64

theorem Numbered.inj (h : Numbered s) (hlt : s.allocated ≤ 2 ^ 64) {p q : Nat}
    (hp : p < s.allocated) (hq : q < s.allocated) (heq : (s.heap p).index = (s.heap q).index) :
    p = q := by
  rwa [h.index p hp, h.index q hq, Nat.mod_eq_of_lt (by omega), Nat.mod_eq_of_lt (by omega)] at heq

theorem Numbered.addRegion (h : Numbered s) {rgn : Region} (hidx : rgn.index = s.nextIndex) :
    Numbered (s.addRegion rgn) where
  next := by
    show add64 s.nextIndex 1 = (s.allocated + 1) % 2 ^ 64
    rw [h.next, add64]; omega
  index p hp := by
    rcases Nat.lt_succ_iff_lt_or_eq.mp hp with hp | rfl
    · rw [heap_addRegion_of_lt hp, h.index p hp]
    · rw [heap_addRegion_self, hidx, h.next]

theorem Numbered.flags {s' : RegionFreezer} (h : Numbered s) (hf : Flags s s') : Numbered s' :=
  ⟨by rw [hf.nextIndex, hf.allocated, h.next], fun p hp => by
    rw [hf.index]; exact h.index p (hf.allocated ▸ hp)⟩

theorem Numbered.step (h : Numbered s) (op : Op) : Numbered (s.step op) := by
  rcases step_cases s op with ⟨rgn, hidx, heq⟩ | hs | hf
  · rw [heq]; exact h.addRegion hidx
  · exact ⟨by rw [hs.nextIndex, hs.allocated, h.next], fun p hp => by
      rw [hs.heap]; exact h.index p (hs.allocated ▸ hp)⟩
  · exact h.flags hf

/-- All three indexes hold the same regions, each once. -/
structure Agree (s : RegionFreezer) : Prop extends Covered s where
  nameIndexed : ∀ e ∈ s.regionsByName, ((s.heap e.2).index, e.2) ∈ s.regionsByIndex.entries
  addrIndexed : ∀ e ∈ s.regionsByAddr, ((s.heap e.2).index, e.2) ∈ s.regionsByIndex.entries
  nameOnce : s.regionsByName.Nodup
  addrOnce : s.regionsByAddr.Nodup

theorem Agree.new : Agree new where
  toCovered := Covered.new
  nameIndexed := nofun
  addrIndexed := nofun
  nameOnce := List.nodup_nil
  addrOnce := List.nodup_nil

theorem Agree.flags {s' : RegionFreezer} (h : Agree s) (hf : Flags s s') : Agree s' where
  toCovered := h.toCovered.flags hf
  nameIndexed e he := by rw [hf.index, hf.indexes]; exact h.nameIndexed e (hf.names ▸ he)
  addrIndexed e he := by rw [hf.index, hf.indexes]; exact h.addrIndexed e (hf.addrs ▸ he)
  nameOnce := hf.names ▸ h.nameOnce
  addrOnce := hf.addrs ▸ h.addrOnce

theorem Agree.addRegion (h : Agree s) (hn : Numbered s) (hlt : s.allocated < 2 ^ 64) {rgn : Region}
    (hidx : rgn.index = s.nextIndex) : Agree (s.addRegion rgn) := by
  have hkey : rgn.index = s.allocated := by rw [hidx, hn.next, Nat.mod_eq_of_lt hlt]
  have hfresh : ∀ e ∈ s.regionsByIndex.entries, e.1 ≠ rgn.index := by
    intro e he heq
    obtain ⟨hp, hk⟩ := h.indexes e he
    rw [hn.index _ hp, Nat.mod_eq_of_lt (by omega)] at hk
    omega
  have hnew : (rgn.index, s.allocated) ∈ (s.addRegion rgn).regionsByIndex.entries :=
    mem_insertNew_self hfresh
  refine ⟨h.toCovered.addRegion rgn, fun e he => ?_, fun e he => ?_, ?_, ?_⟩
  · rcases Multimap.mem_emplace.mp he with rfl | he
    · rw [heap_addRegion_self]; exact hnew
    · rw [heap_addRegion_of_lt (h.names e he).1]
      exact mem_insertNew_of_mem (h.nameIndexed e he)
  · rcases Multimap.mem_emplace.mp he with rfl | he
    · rw [heap_addRegion_self]; exact hnew
    · rw [heap_addRegion_of_lt (h.addrs e he).1]
      exact mem_insertNew_of_mem (h.addrIndexed e he)
  · exact List.nodup_cons.mpr ⟨fun he => (h.names _ he).1.ne rfl, h.nameOnce⟩
  · exact List.nodup_cons.mpr ⟨fun he => (h.addrs _ he).1.ne rfl, h.addrOnce⟩

/-- As numbers are not shared, only the regions that are found leave the index by number. -/
theorem Agree.leave {s' : RegionFreezer} {found : Nat → Prop} (h : Agree s) (hn : Numbered s)
    (hlt : s.allocated ≤ 2 ^ 64) (hl : Leaves found s s')
    (hfound : ∀ p, found p → p < s.allocated) : Agree s' := by
  have hstay : ∀ p, p < s.allocated → ((s.heap p).index, p) ∈ s.regionsByIndex.entries →
      ¬ found p → ((s.heap p).index, p) ∈ s'.regionsByIndex.entries := by
    intro p hp hidx hnot
    refine (hl.byIndex _ hidx).mpr fun q hq heq => hnot ?_
    exact hn.inj hlt (hfound q hq) hp heq ▸ hq
  refine ⟨h.toCovered.leave hl, fun e he => ?_, fun e he => ?_, h.nameOnce.sublist hl.names,
    h.addrOnce.sublist hl.addrs⟩
  · have hold := hl.names.subset he
    rw [hl.heap]
    exact hstay e.2 (h.names e hold).1 (h.nameIndexed e hold) ((hl.byName e hold).mp he)
  · have hold := hl.addrs.subset he
    rw [hl.heap]
    exact hstay e.2 (h.addrs e hold).1 (h.addrIndexed e hold) ((hl.byAddr e hold).mp he)

theorem Agree.unfreezeName (h : Agree s) (hn : Numbered s) (hlt : s.allocated ≤ 2 ^ 64)
    (name : String) : Agree (s.unfreezeName name).1 :=
  h.leave hn hlt (h.toKeyed.leaves_name name) fun _ hp => (h.names _ hp).1

theorem Agree.unfreezeAddr (h : Agree s) (hn : Numbered s) (hlt : s.allocated ≤ 2 ^ 64)
    (addr : Nat) : Agree (s.unfreezeAddr addr).1 :=
  h.leave hn hlt (h.toKeyed.leaves_addr addr) fun _ hp => (h.addrs _ hp).1

theorem Agree.unfreezeAll (h : Agree s) (hempty : s.frozenCount = 0) : Agree s.unfreezeAll.1 := by
  have hentries : s.regionsByIndex.entries = [] := List.eq_nil_of_length_eq_zero hempty
  have hs := unfreezeAll_shrinks s
  refine ⟨h.toCovered.step .unfreezeAll, nofun, fun e he => ?_, h.nameOnce.sublist hs.names,
    h.addrOnce.sublist hs.addrs⟩
  have := h.addrIndexed e he
  rw [hentries] at this
  cases this

/-! ## Counts -/

/-- The three indexes hold the same set of regions, each once, under its own name,
address and number; the counts follow. -/
structure Consistent (s : RegionFreezer) : Prop where
  keyed : Keyed s
  names : ∀ p, p ∈ s.regionsByName.map Prod.snd ↔ p ∈ s.regionsByIndex.entries.map Prod.snd
  addrs : ∀ p, p ∈ s.regionsByAddr.map Prod.snd ↔ p ∈ s.regionsByIndex.entries.map Prod.snd
  nameOnce : (s.regionsByName.map Prod.snd).Nodup
  addrOnce : (s.regionsByAddr.map Prod.snd).Nodup
  indexOnce : (s.regionsByIndex.entries.map Prod.snd).Nodup
  nameCount : s.regionsByName.length = s.frozenCount
  addrCount : s.regionsByAddr.length = s.frozenCount
  unfreezeName : ∀ name,
    (s.unfreezeName name).1.frozenCount + (s.unfreezeName name).2 = s.frozenCount
  unfreezeAddr : ∀ addr,
    (s.unfreezeAddr addr).1.frozenCount + (s.unfreezeAddr addr).2 = s.frozenCount

theorem nodup_values {K : Type} {l : List (K × Nat)} (key : Nat → K) (hl : l.Nodup)
    (hkey : ∀ e ∈ l, key e.2 = e.1) : (l.map Prod.snd).Nodup := by
  refine List.Nodup.map_on (fun d hd e he heq => Prod.ext ?_ heq) hl
  rw [← hkey d hd, ← hkey e he, heq]

theorem nodup_entries (m : OrderedMap Nat Nat) : m.entries.Nodup :=
  m.sorted.imp fun hlt heq => hlt.ne (congrArg Prod.fst heq)

section Counts

variable (h : Agree s)

include h

theorem Agree.names_iff (p : Nat) :
    p ∈ s.regionsByName.map Prod.snd ↔ p ∈ s.regionsByIndex.entries.map Prod.snd := by
  simp only [List.mem_map]
  constructor
  · rintro ⟨e, he, rfl⟩; exact ⟨_, h.nameIndexed e he, rfl⟩
  · rintro ⟨e, he, rfl⟩; exact ⟨_, h.named e he, rfl⟩

theorem Agree.addrs_iff (p : Nat) :
    p ∈ s.regionsByAddr.map Prod.snd ↔ p ∈ s.regionsByIndex.entries.map Prod.snd := by
  simp only [List.mem_map]
  constructor
  · rintro ⟨e, he, rfl⟩; exact ⟨_, h.addrIndexed e he, rfl⟩
  · rintro ⟨e, he, rfl⟩; exact ⟨_, h.addressed e he, rfl⟩

theorem Agree.names_nodup : (s.regionsByName.map Prod.snd).Nodup :=
  nodup_values (fun p => (s.heap p).name) h.nameOnce fun e he => (h.names e he).2

theorem Agree.addrs_nodup : (s.regionsByAddr.map Prod.snd).Nodup :=
  nodup_values (fun p => (s.heap p).addr) h.addrOnce fun e he => (h.addrs e he).2

theorem Agree.indexes_nodup : (s.regionsByIndex.entries.map Prod.snd).Nodup :=
  nodup_values (fun p => (s.heap p).index) (nodup_entries _) fun e he => (h.indexes e he).2

theorem Agree.nameCount : s.regionsByName.length = s.frozenCount := by
  have := ((List.perm_ext_iff_of_nodup h.names_nodup h.indexes_nodup).mpr h.names_iff).length_eq
  simpa [frozenCount, OrderedMap.size] using this

theorem Agree.addrCount : s.regionsByAddr.length = s.frozenCount := by
  have := ((List.perm_ext_iff_of_nodup h.addrs_nodup h.indexes_nodup).mpr h.addrs_iff).length_eq
  simpa [frozenCount, OrderedMap.size] using this

theorem Agree.consistent (hn : Numbered s) (hlt : s.allocated ≤ 2 ^ 64) : Consistent s where
  keyed := h.toKeyed
  names := h.names_iff
  addrs := h.addrs_iff
  nameOnce := h.names_nodup
  addrOnce := h.addrs_nodup
  indexOnce := h.indexes_nodup
  nameCount := h.nameCount
  addrCount := h.addrCount
  unfreezeName name := by
    rw [← (h.unfreezeName hn hlt name).nameCount, ← h.nameCount, unfreezeName_eq, Nat.add_comm]
    exact Multimap.length_equalRange_add _ _
  unfreezeAddr addr := by
    rw [← (h.unfreezeAddr hn hlt addr).addrCount, ← h.addrCount, unfreezeAddr_eq, Nat.add_comm]
    exact Multimap.length_equalRange_add _ _

end Counts

/-! ## Runs -/

def Op.isFreeze : Op → Bool
  | .freeze .. | .freezeArray .. => true
  | _ => false

def numFreezes (ops : List Op) : Nat := ops.countP Op.isFreeze

theorem allocated_step (s : RegionFreezer) (op : Op) :
    (s.step op).allocated = s.allocated + if op.isFreeze then 1 else 0 := by
  cases op with
  | freeze | freezeArray => rfl
  | unfreezeName name => exact (unfreezeName_shrinks s name).allocated
  | unfreezeAddr addr => exact (unfreezeAddr_shrinks s addr).allocated
  | unfreezeIndex index => exact (unfreezeIndex_shrinks s index).allocated
  | unfreezeAll => rfl
  | enableName name enable => exact (setEnable_flags s _ enable).allocated
  | enableAddr addr enable => exact (setEnable_flags s _ enable).allocated
  | enableIndex index enable => exact (enableIndex_flags s index enable).allocated
  | enableAll enable => exact (setEnable_flags s _ enable).allocated

/-- Every operation keeps the indexes in agreement, unless it is an `unfreeze_all`
of some regions. -/
theorem Agree.step (h : Agree s) (hn : Numbered s) (hlt : s.allocated < 2 ^ 64) {op : Op}
    (hall : op = .unfreezeAll → s.frozenCount = 0) : Agree (s.step op) := by
  cases op with
  | freeze name addr data enable => exact h.addRegion hn hlt rfl
  | freezeArray name baseAddr maxItems data dataMask nullData nullDataMask enable =>
    exact h.addRegion hn hlt rfl
  | unfreezeName name => exact h.unfreezeName hn hlt.le name
  | unfreezeAddr addr => exact h.unfreezeAddr hn hlt.le addr
  | unfreezeIndex index =>
    exact h.leave hn hlt.le (h.toKeyed.leaves_index index) fun _ hp => (h.indexes _ hp).1
  | unfreezeAll => exact h.unfreezeAll (hall rfl)
  | enableName name enable => exact h.flags (setEnable_flags s _ enable)
  | enableAddr addr enable => exact h.flags (setEnable_flags s _ enable)
  | enableIndex index enable => exact h.flags (enableIndex_flags s index enable)
  | enableAll enable => exact h.flags (setEnable_flags s _ enable)

theorem run_concat (s : RegionFreezer) (ops : List Op) (op : Op) :
    s.run (ops ++ [op]) = (s.run ops).step op := by
  rw [run, List.foldl_append]; rfl

theorem numbered_run (h : Covered s) (hn : Numbered s) (ops : List Op) :
    Covered (s.run ops) ∧ Numbered (s.run ops) := by
  induction ops using List.reverseRecOn with
  | nil => exact ⟨h, hn⟩
  | append_singleton ops op ih =>
    rw [run_concat]
    exact ⟨ih.1.step op, ih.2.step op⟩

theorem run_invariant {ops : List Op} (hops : numFreezes ops < 2 ^ 64)
    (hall : ∀ pre post, ops = pre ++ .unfreezeAll :: post → (new.run pre).frozenCount = 0) :
    Agree (new.run ops) ∧ Numbered (new.run ops) ∧ (new.run ops).allocated = numFreezes ops := by
  induction ops using List.reverseRecOn with
  | nil => exact ⟨Agree.new, ⟨rfl, nofun⟩, rfl⟩
  | append_singleton ops op ih =>
    have hcount : numFreezes (ops ++ [op]) = numFreezes ops + if op.isFreeze then 1 else 0 := by
      rw [numFreezes, List.countP_append, List.countP_singleton]; rfl
    obtain ⟨h, hn, halloc⟩ := ih (by omega) fun pre post heq =>
      hall pre (post ++ [op]) (by rw [heq]; simp)
    rw [run_concat]
    refine ⟨h.step hn (by omega) fun hop => hall ops [] (by rw [hop]), hn.step op, ?_⟩
    rw [allocated_step, halloc, hcount]

/-- The indexes agree in every state of a run if and only if `unfreeze_all` is called
on an empty freezer only. -/
theorem indexes_agree_iff {ops : List Op} (hops : numFreezes ops < 2 ^ 64) :
    (∀ pre post, ops = pre ++ post → Consistent (new.run pre)) ↔
      ∀ pre post, ops = pre ++ .unfreezeAll :: post → (new.run pre).frozenCount = 0 := by
  constructor
  · intro h pre post hsplit
    -- the index by address is as long after the call as before it
    have hbefore := (h pre (.unfreezeAll :: post) hsplit).addrCount
    have hafter := (h (pre ++ [.unfreezeAll]) post (by rw [hsplit]; simp)).addrCount
    rw [run_concat] at hafter
    exact hbefore.symm.trans hafter
  · intro hall pre post hsplit
    have hpre : numFreezes pre < 2 ^ 64 := by
      rw [hsplit, numFreezes, List.countP_append] at hops
      exact (Nat.le_add_right _ _).trans_lt hops
    obtain ⟨h, hn, halloc⟩ := run_invariant hpre fun pre' post' heq =>
      hall pre' (post' ++ post) (by rw [hsplit, heq]; simp)
    exact h.consistent hn (by omega)

/-- Two regions of one name are frozen and unfrozen. -/
theorem indexes_agree_names :
    Consistent (new.run [.freeze "a" 1 [1] true, .freeze "a" 2 [2] true, .unfreezeName "a"]) := by
  refine (indexes_agree_iff (by decide)).mpr (fun pre post heq => ?_) _ [] (List.append_nil _).symm
  have hmem : Op.unfreezeAll ∈ pre ++ .unfreezeAll :: post := by simp
  rw [← heq] at hmem
  simp at hmem

/-- A region is frozen and all are unfrozen. -/
theorem indexes_disagree_all : ¬ ∀ pre post,
    [.freeze "a" 1 [1] true, .unfreezeAll] = pre ++ post → Consistent (new.run pre) := by
  intro h
  have hcount := (h [.freeze "a" 1 [1] true, .unfreezeAll] [] rfl).addrCount
  exact absurd hcount (by decide)

end RegionFreezer
end Memwatch
