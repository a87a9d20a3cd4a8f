import Memwatch.Adapter.Reads

/-!
# Scans of the address map

Both scans look up the region behind the last one until there is none. The regions
ahead are as they were at the start, whatever the reads did to those behind. The scan
for targets reads a region if the first target that is not before it lies in it, and
looks past the end of the targets at a region that starts above all of them.
-/

namespace Memwatch

open Lib

namespace ProcessMemoryAdapter

/-- The first target that is not before the region lies in it. -/
def Aimed (targets : List Nat) (e : VmRegion) : Prop :=
  ∃ t ∈ targets.find? fun t => decide (e.addr ≤ t), t < e.addr + e.size

instance instDecidableAimed (targets : List Nat) (e : VmRegion) : Decidable (Aimed targets e) :=
  inferInstanceAs (Decidable (∃ t ∈ targets.find? fun t => decide (e.addr ≤ t), _))

/-- Some region starts above all targets. -/
def Overrun (targets : List Nat) (regions : List VmRegion) : Prop :=
  targets ≠ [] ∧ ∃ e ∈ regions, ∀ t ∈ targets, t < e.addr

instance instDecidableOverrun (targets : List Nat) (regions : List VmRegion) :
    Decidable (Overrun targets regions) :=
  inferInstanceAs (Decidable (_ ∧ ∃ e ∈ regions, ∀ t ∈ targets, t < e.addr))

/-! ## Targets ahead -/

section Targets

variable {targets : List Nat} {e f : VmRegion} {regions : List VmRegion}

theorem head?_dropWhile_targets (targets : List Nat) (a : Nat) :
    (targets.dropWhile (· < a)).head? = targets.find? fun t => decide (a ≤ t) := by
  simp only [List.find?_eq_head?_dropWhile_not, ← decide_not, not_le]

theorem find?_dropWhile {a b : Nat} (hab : a ≤ b) (targets : List Nat) :
    (targets.dropWhile (· < a)).find? (fun t => decide (b ≤ t)) =
      targets.find? fun t => decide (b ≤ t) := by
  induction targets with
  | nil => rfl
  | cons t targets ih =>
    by_cases ht : t < a
    · have hb : ¬ b ≤ t := by omega
      simp [ht, hb, ih]
    · simp [ht]

theorem find?_eq_none_iff {a : Nat} :
    targets.find? (fun t => decide (a ≤ t)) = none ↔ ∀ t ∈ targets, t < a := by
  simp

theorem aimed_dropWhile {a : Nat} (ha : a ≤ e.addr) :
    Aimed (targets.dropWhile (· < a)) e ↔ Aimed targets e := by
  unfold Aimed
  rw [find?_dropWhile ha]

theorem forall_dropWhile_lt_iff {a : Nat} (ha : a ≤ e.addr) :
    (∀ t ∈ targets.dropWhile (· < a), t < e.addr) ↔ ∀ t ∈ targets, t < e.addr := by
  rw [← find?_eq_none_iff, ← find?_eq_none_iff, find?_dropWhile ha]

theorem not_aimed_of_forall_lt (h : ∀ t ∈ targets, t < e.addr) : ¬ Aimed targets e := by
  rintro ⟨t, ht, -⟩
  rw [find?_eq_none_iff.mpr h] at ht
  cases ht

/-- A region holds a target if it is aimed at, and only then if the targets ascend. -/
theorem aimed_iff (hasc : targets.Pairwise (· ≤ ·)) :
    Aimed targets e ↔ ∃ t ∈ targets, e.Contains t := by
  constructor
  · rintro ⟨t, ht, hlt⟩
    exact ⟨t, List.mem_of_find?_eq_some ht, by simpa using List.find?_some ht, hlt⟩
  · rintro ⟨t, ht, hle, hlt⟩
    cases hf : targets.find? (fun t => decide (e.addr ≤ t)) with
    | none =>
      have := find?_eq_none_iff.mp hf t ht
      omega
    | some u =>
      refine ⟨u, hf, ?_⟩
      obtain ⟨-, before, behind, hsplit, hbefore⟩ := List.find?_eq_some_iff_append.mp hf
      rw [hsplit] at ht hasc
      rcases List.mem_append.mp ht with ht | ht
      · have := hbefore t ht
        simp at this
        omega
      · rcases List.mem_cons.mp ht with rfl | ht
        · exact hlt
        · have := (List.pairwise_cons.mp (List.pairwise_append.mp hasc).2.1).1 t ht
          omega

end Targets

/-! ## The loops -/

section Loops

variable {mach : Mach} {adapter : ProcessMemoryAdapter} {readData : Bool}

theorem region_of_ahead {m : AddressMap} {before behind : List VmRegion} {e : VmRegion} {addr : Nat}
    (hm : m.regions = before ++ e :: behind) (hbefore : ∀ f ∈ before, f.addr + f.size ≤ addr)
    (he : addr ≤ e.addr) : m.region addr = some e := by
  have hpos := e.pos
  unfold AddressMap.region
  rw [hm, List.find?_append, List.find?_eq_none.mpr, Option.none_or, List.find?_cons_of_pos]
  · simp
    omega
  · intro f hf
    have := hbefore f hf
    simp
    omega

theorem region_of_none_ahead {m : AddressMap} {addr : Nat}
    (h : ∀ f ∈ m.regions, f.addr + f.size ≤ addr) : m.region addr = none :=
  AddressMap.region_eq_none_iff.mpr h

theorem ends_append {before : List VmRegion} {e : VmRegion} {addr : Nat}
    (hbefore : ∀ f ∈ before, f.addr + f.size ≤ addr) (he : addr ≤ e.addr) {e' : VmRegion}
    (haddr : e'.addr = e.addr) (hsize : e'.size = e.size) :
    ∀ f ∈ before ++ [e'], f.addr + f.size ≤ e.addr + e.size := by
  intro f hf
  rcases List.mem_append.mp hf with hf | hf
  · have := hbefore f hf
    omega
  · rw [List.mem_singleton.mp hf, haddr, hsize]

theorem ahead_of_cons {m : AddressMap} {before behind : List VmRegion} {e : VmRegion}
    (hm : m.regions = before ++ e :: behind) : ∀ f ∈ behind, e.addr + e.size ≤ f.addr := by
  have hapart := m.apart
  rw [hm] at hapart
  exact (List.pairwise_cons.mp (List.pairwise_append.mp hapart).2.1).1

theorem returns_allRegionsTurn {rest before : List VmRegion} {m : AddressMap} (ret : List Region)
    {addr : Nat} (hm : m.regions = before ++ rest)
    (hbefore : ∀ f ∈ before, f.addr + f.size ≤ addr) (hrest : ∀ e ∈ rest, addr ≤ e.addr) :
    ∃ m', m'.regions = before ++ rest.map (left mach readData) ∧
      Returns (adapter.allRegionsTurn mach readData) ⟨ret, addr, m⟩
        (.ok (ret ++ rest.map (found mach readData)) m') := by
  induction rest generalizing before m ret addr with
  | nil =>
    refine ⟨m, hm, .of_leave ?_⟩
    have hnone : m.region addr = none := region_of_none_ahead (by simpa [hm] using hbefore)
    simp [allRegionsTurn, getRegion_of_none hnone, outOfRange]
  | cons e rest ih =>
    have hahead := hrest e List.mem_cons_self
    have hregion := region_of_ahead hm hbefore hahead
    obtain ⟨m₁, hfound, hm₁⟩ := tryRead_of_mem mach adapter readData hm
    rw [List.append_cons] at hm₁
    obtain ⟨m', hm', hret⟩ := ih (ret ++ [found mach readData e]) hm₁
      (ends_append hbefore hahead addr_left size_left) (ahead_of_cons hm)
    rw [List.append_assoc] at hm' hret
    refine ⟨m', hm', hret.of_next ?_⟩
    unfold allRegionsTurn
    rw [getRegion_of_region hregion, hfound]
    dsimp only
    rw [endAddr_found]

/-- The map at the end of a scan for targets. -/
def leftAimed (mach : Mach) (readData : Bool) (targets : List Nat) (e : VmRegion) : VmRegion :=
  if Aimed targets e then left mach readData e else e

@[simp] theorem addr_leftAimed (targets : List Nat) (e : VmRegion) :
    (leftAimed mach readData targets e).addr = e.addr := by
  unfold leftAimed
  split <;> simp

@[simp] theorem size_leftAimed (targets : List Nat) (e : VmRegion) :
    (leftAimed mach readData targets e).size = e.size := by
  unfold leftAimed
  split <;> simp

/-- What a scan for targets ends with when the regions `rest` are ahead. -/
def targetResult (mach : Mach) (readData : Bool) (targets : List Nat) (ret : List Region)
    (rest : List VmRegion) (m : AddressMap) : EStateM.Result ScanFault AddressMap (List Region) :=
  if Overrun targets rest then .error .pastEnd m
  else .ok (ret ++ (rest.filter fun e => Aimed targets e).map (found mach readData)) m

theorem targetRegionsTurn_of_find? (mach : Mach) (adapter : ProcessMemoryAdapter)
    (readData : Bool) {m : AddressMap} {before behind : List VmRegion} {e : VmRegion}
    {addr t : Nat} {targets : List Nat} (ret : List Region)
    (hregion : m.region addr = some e) (hm : m.regions = before ++ e :: behind)
    (ht : targets.find? (fun t => decide (e.addr ≤ t)) = some t) :
    ∃ m', m'.regions = before ++ leftAimed mach readData targets e :: behind ∧
      adapter.targetRegionsTurn mach readData ⟨⟨ret, addr, m⟩, targets⟩ =
        .next ⟨⟨if Aimed targets e then ret ++ [found mach readData e] else ret,
          e.addr + e.size, m'⟩, targets.dropWhile (· < e.addr)⟩ := by
  have hne : targets ≠ [] := by
    intro hnil
    rw [hnil] at ht
    cases ht
  obtain ⟨targets', hdrop⟩ : ∃ targets', targets.dropWhile (· < e.addr) = t :: targets' := by
    rw [← head?_dropWhile_targets] at ht
    exact ⟨_, (List.eq_cons_of_mem_head? ht)⟩
  have hend : (Region.ofVmRegion e).endAddr = e.addr + e.size := add64_eq e.below
  have haimed : Aimed targets e ↔ t < e.addr + e.size := by
    unfold Aimed
    rw [ht]
    simp
  have hget : adapter.getRegion mach addr false m = .ok (.ofVmRegion e) m :=
    getRegion_of_region hregion
  have hcursor : targets.dropWhile (· < (Region.ofVmRegion e).addr) = t :: targets' := hdrop
  unfold targetRegionsTurn leftAimed
  rw [if_neg hne, hget, hdrop]
  dsimp only
  rw [hcursor, hend]
  dsimp only
  by_cases hlt : t < e.addr + e.size
  · obtain ⟨m', hfound, hm'⟩ := tryRead_of_mem mach adapter readData hm
    refine ⟨m', by rw [if_pos (haimed.mpr hlt)]; exact hm', ?_⟩
    rw [if_pos hlt, hfound, if_pos (haimed.mpr hlt)]
    dsimp only
    rw [endAddr_found]
  · have hnot := fun h => hlt (haimed.mp h)
    exact ⟨m, by rw [if_neg hnot]; exact hm, by rw [if_neg hlt, if_neg hnot]⟩

theorem targetRegionsTurn_of_none {m : AddressMap} {addr : Nat} {targets : List Nat}
    {ret : List Region} (h : m.region addr = none) :
    adapter.targetRegionsTurn mach readData ⟨⟨ret, addr, m⟩, targets⟩ = .leave (.ok ret m) := by
  unfold targetRegionsTurn
  rw [getRegion_of_none h]
  dsimp only
  split
  · rfl
  · rfl

theorem targetRegionsTurn_of_above {m : AddressMap} {e : VmRegion} {addr : Nat}
    {targets : List Nat} {ret : List Region} (hne : targets ≠ []) (hregion : m.region addr = some e)
    (habove : ∀ t ∈ targets, t < e.addr) :
    adapter.targetRegionsTurn mach readData ⟨⟨ret, addr, m⟩, targets⟩ =
      .leave (.error .pastEnd m) := by
  have hget : adapter.getRegion mach addr false m = .ok (.ofVmRegion e) m :=
    getRegion_of_region hregion
  have hcursor : targets.dropWhile (· < (Region.ofVmRegion e).addr) = [] :=
    List.dropWhile_eq_nil_iff.mpr fun t ht => decide_eq_true (habove t ht)
  unfold targetRegionsTurn
  rw [if_neg hne, hget]
  dsimp only
  rw [hcursor]

/-- The regions ahead of a turn are told by what is left of the targets. -/
theorem targetResult_dropWhile {e : VmRegion} {rest : List VmRegion} {targets : List Nat} {t : Nat}
    (ht : targets.find? (fun t => decide (e.addr ≤ t)) = some t)
    (hrest : ∀ f ∈ rest, e.addr ≤ f.addr) (ret : List Region) (m : AddressMap) :
    targetResult mach readData (targets.dropWhile (· < e.addr))
        (if Aimed targets e then ret ++ [found mach readData e] else ret) rest m =
      targetResult mach readData targets ret (e :: rest) m := by
  have hne : targets ≠ [] ∧ targets.dropWhile (· < e.addr) ≠ [] := by
    rw [← head?_dropWhile_targets] at ht
    refine ⟨fun h => ?_, fun h => ?_⟩ <;> rw [h] at ht <;> cases ht
  have hnot : ¬ ∀ t ∈ targets, t < e.addr := by
    rw [← find?_eq_none_iff, ht]
    nofun
  have hover : Overrun (targets.dropWhile (· < e.addr)) rest ↔ Overrun targets (e :: rest) := by
    unfold Overrun
    simp only [hne.1, hne.2, ne_eq, not_false_eq_true, true_and, List.exists_mem_cons_iff, hnot,
      false_or]
    exact exists_congr fun f => and_congr_right fun hf => forall_dropWhile_lt_iff (hrest f hf)
  have hfilter : (rest.filter fun f => Aimed (targets.dropWhile (· < e.addr)) f) =
      rest.filter fun f => Aimed targets f :=
    List.filter_congr fun f hf => by simp only [aimed_dropWhile (hrest f hf)]
  unfold targetResult
  simp only [hover, hfilter]
  by_cases ha : Aimed targets e
  · simp [ha]
  · simp [ha]

/-- The scan ends at a region that all targets are before: the regions from there on are not
touched. -/
theorem targetRegionsTurn_leaves {rest before : List VmRegion} {m : AddressMap} {e : VmRegion}
    (ret : List Region) {addr : Nat} {targets : List Nat} (hm : m.regions = before ++ e :: rest)
    (hregion : m.region addr = some e) (habove : ∀ t ∈ targets, t < e.addr) :
    (e :: rest).map (leftAimed mach readData targets) = e :: rest ∧
      adapter.targetRegionsTurn mach readData ⟨⟨ret, addr, m⟩, targets⟩ =
        .leave (targetResult mach readData targets ret (e :: rest) m) := by
  have hnot : ∀ f ∈ e :: rest, ¬ Aimed targets f := by
    intro f hf
    refine not_aimed_of_forall_lt fun t htm => (habove t htm).trans_le ?_
    rcases List.mem_cons.mp hf with rfl | hf
    · exact le_refl _
    · have := ahead_of_cons hm f hf
      omega
  refine ⟨(List.map_congr_left fun f hf => if_neg (hnot f hf)).trans (List.map_id _), ?_⟩
  unfold targetResult
  by_cases hne : targets = []
  · have hover : ¬ Overrun targets (e :: rest) := fun h => h.1 hne
    rw [if_neg hover, List.filter_eq_nil_iff.mpr fun f hf => by simpa using hnot f hf,
      targetRegionsTurn, if_pos hne, List.map_nil, List.append_nil]
  · rw [if_pos ⟨hne, e, List.mem_cons_self, habove⟩]
    exact targetRegionsTurn_of_above hne hregion habove

theorem returns_targetRegionsTurn {rest before : List VmRegion} {m : AddressMap}
    (ret : List Region) {addr : Nat} {targets : List Nat} (hm : m.regions = before ++ rest)
    (hbefore : ∀ f ∈ before, f.addr + f.size ≤ addr) (hrest : ∀ e ∈ rest, addr ≤ e.addr) :
    ∃ m', m'.regions = before ++ rest.map (leftAimed mach readData targets) ∧
      Returns (adapter.targetRegionsTurn mach readData) ⟨⟨ret, addr, m⟩, targets⟩
        (targetResult mach readData targets ret rest m') := by
  induction rest generalizing before m ret addr targets with
  | nil =>
    have hnone : m.region addr = none := region_of_none_ahead (by simpa [hm] using hbefore)
    refine ⟨m, hm, .of_leave ?_⟩
    rw [targetRegionsTurn_of_none hnone]
    simp [targetResult, Overrun]
  | cons e rest ih =>
    have hahead := hrest e List.mem_cons_self
    have hregion := region_of_ahead hm hbefore hahead
    cases ht : targets.find? (fun t => decide (e.addr ≤ t)) with
    | none =>
      obtain ⟨hsame, hleave⟩ :=
        targetRegionsTurn_leaves ret hm hregion (find?_eq_none_iff.mp ht)
      exact ⟨m, by rw [hm, hsame], .of_leave hleave⟩
    | some t =>
      have hrest' : ∀ f ∈ rest, e.addr ≤ f.addr := by
        intro f hf
        have := ahead_of_cons hm f hf
        omega
      obtain ⟨m₁, hm₁, hturn⟩ := targetRegionsTurn_of_find? mach adapter readData ret hregion hm ht
      rw [List.append_cons] at hm₁
      obtain ⟨m', hm', hret⟩ := ih (if Aimed targets e then ret ++ [found mach readData e] else ret)
        hm₁ (ends_append hbefore hahead (addr_leftAimed _ _) (size_leftAimed _ _))
        (ahead_of_cons hm)
      rw [targetResult_dropWhile ht hrest'] at hret
      refine ⟨m', ?_, hret.of_next hturn⟩
      rw [hm', List.append_assoc, List.singleton_append, List.map_cons]
      congr 2
      refine List.map_congr_left fun f hf => ?_
      simp only [leftAimed, aimed_dropWhile (hrest' f hf)]

end Loops

/-! ## Whole scans -/

section Scans

variable (mach : Mach) (adapter : ProcessMemoryAdapter) (readData : Bool) (m : AddressMap)

/-- `get_all_regions` returns the regions of the map. -/
theorem getAllRegions_spec : ∃ m', m'.regions = m.regions.map (left mach readData) ∧
    ∃ turns, adapter.getAllRegions mach turns readData m =
      some (.ok (m.regions.map (found mach readData)) m') :=
  returns_allRegionsTurn [] (List.nil_append m.regions).symm (List.forall_mem_nil _)
    fun e _ => Nat.zero_le e.addr

/-- `get_target_regions` returns the regions that are aimed at, or overruns the targets. -/
theorem getTargetRegions_spec (targets : List Nat) :
    ∃ m', m'.regions = m.regions.map (leftAimed mach readData targets) ∧
      ∃ turns, adapter.getTargetRegions mach turns targets readData m =
        some (targetResult mach readData targets [] m.regions m') :=
  returns_targetRegionsTurn [] (List.nil_append m.regions).symm (List.forall_mem_nil _)
    fun e _ => Nat.zero_le e.addr

end Scans

end ProcessMemoryAdapter
end Memwatch
