import Memwatch.Adapter.Model

/-!
# Reading a region

A region that is not readable is made readable for its read and gets its protection
back after it. `protectionAfter` is the protection that a read leaves it with.
-/

namespace Memwatch

open Lib Text

namespace ProcessMemoryAdapter

/-! ## Bits of a protection -/

theorem and_twoPow_ne_zero {w k : Nat} (hk : k < w) (x : BitVec w) :
    x &&& BitVec.twoPow w k ≠ 0 ↔ x.getLsbD k = true := by
  have hne : BitVec.twoPow w k ≠ 0 := by
    intro h
    have := congrArg (fun y => y.getLsbD k) h
    simp [hk] at this
  rw [BitVec.and_twoPow]
  cases x.getLsbD k
  · simp
  · simpa using hne

theorem readable_eq : readable = BitVec.twoPow 8 0 ∧ vmProtRead = BitVec.twoPow 32 0 := by decide

theorem writable_eq : writable = BitVec.twoPow 8 1 ∧ vmProtWrite = BitVec.twoPow 32 1 := by decide

theorem executable_eq : executable = BitVec.twoPow 8 2 ∧ vmProtExecute = BitVec.twoPow 32 2 := by
  decide

theorem getLsbD_setAccess {flag : Protection} {vmFlag : VmProt} {k i : Nat} (hk : k < 8)
    (hflag : flag = BitVec.twoPow 8 k) (hvm : vmFlag = BitVec.twoPow 32 k)
    (prot protMask : Protection) (p : VmProt) (hi : i < 32) :
    (setAccess flag vmFlag prot protMask p).getLsbD i =
      if i = k ∧ protMask.getLsbD k = true then prot.getLsbD k else p.getLsbD i := by
  subst hflag hvm
  unfold setAccess
  simp only [and_twoPow_ne_zero hk]
  by_cases hm : protMask.getLsbD k = true
  · by_cases hik : i = k
    · subst hik
      by_cases hp : prot.getLsbD i = true <;> simp [hm, hp, hi]
    · by_cases hp : prot.getLsbD k = true <;> simp [hm, hp, hik, hi]
  · simp [hm]

theorem getLsbD_newProtection (prot protMask : Protection) (p : VmProt) {i : Nat} (hi : i < 32) :
    (newProtection prot protMask p).getLsbD i =
      if i < 3 ∧ protMask.getLsbD i = true then prot.getLsbD i else p.getLsbD i := by
  simp only [newProtection, getLsbD_setAccess (by omega) readable_eq.1 readable_eq.2 _ _ _ hi,
    getLsbD_setAccess (by omega) writable_eq.1 writable_eq.2 _ _ _ hi,
    getLsbD_setAccess (by omega) executable_eq.1 executable_eq.2 _ _ _ hi]
  grind

theorem getLsbD_ite_flag {flag : Protection} {vmFlag : VmProt} {k : Nat} (hk : k < 8)
    (hflag : flag = BitVec.twoPow 8 k) (hvm : vmFlag = BitVec.twoPow 32 k) (p : VmProt) (i : Nat) :
    (if p &&& vmFlag ≠ 0 then flag else 0).getLsbD i = (decide (k = i) && p.getLsbD k) := by
  subst hflag hvm
  simp only [and_twoPow_ne_zero (show k < 32 by omega)]
  cases p.getLsbD k <;> simp [BitVec.getLsbD_twoPow, hk]

theorem getLsbD_protectionOf (p : VmProt) {i : Nat} (hi : i < 3) :
    (protectionOf p).getLsbD i = p.getLsbD i := by
  unfold protectionOf
  simp only [BitVec.getLsbD_or, getLsbD_ite_flag (by omega) readable_eq.1 readable_eq.2,
    getLsbD_ite_flag (by omega) writable_eq.1 writable_eq.2,
    getLsbD_ite_flag (by omega) executable_eq.1 executable_eq.2]
  grind

theorem newProtection_protectionOf (q : Protection) (p : VmProt) :
    newProtection (protectionOf p) allAccess (newProtection q allAccess p) = p := by
  refine BitVec.eq_of_getLsbD_eq fun i hi => ?_
  rw [getLsbD_newProtection _ _ _ hi, getLsbD_newProtection _ _ _ hi]
  split
  · next h => exact getLsbD_protectionOf p h.1
  · rfl

/-- The protection of a region that is made readable. -/
def widened (p : VmProt) : VmProt := newProtection (protectionOf p ||| readable) allAccess p

theorem isReadable_iff (e : VmRegion) :
    (Region.ofVmRegion e).IsReadable ↔ e.info.protection.getLsbD 0 = true := by
  show protectionOf e.info.protection &&& readable ≠ 0 ↔ _
  rw [readable_eq.1, and_twoPow_ne_zero (by omega), getLsbD_protectionOf _ (by omega)]

theorem getLsbD_widened (p : VmProt) : (widened p).getLsbD 0 = true := by
  rw [widened, getLsbD_newProtection _ _ _ (by omega), if_pos (by decide)]
  simp [readable]

theorem widened_ne {e : VmRegion} (h : ¬ (Region.ofVmRegion e).IsReadable) :
    widened e.info.protection ≠ e.info.protection := by
  intro heq
  exact h ((isReadable_iff e).mpr (heq ▸ getLsbD_widened _))

/-! ## What a read leaves -/

section Reads

variable (mach : Mach) (adapter : ProcessMemoryAdapter)

/-- A read of the region leaves the protection it finds: none is needed, none is made, or
both the read and the change back succeed. -/
def Restored (e : VmRegion) : Prop :=
  (Region.ofVmRegion e).IsReadable ∨
  (mach.vmProtect e.addr e.size (widened e.info.protection)).isOk = false ∨
  (mach.vmReadOverwrite e.addr e.size).isOk = true ∧
    (mach.vmProtect e.addr e.size e.info.protection).isOk = true

instance instDecidableRestored (e : VmRegion) : Decidable (Restored mach e) :=
  inferInstanceAs (Decidable (_ ∨ _ ∨ _ ∧ _))

def protectionAfter (e : VmRegion) : VmProt :=
  if Restored mach e then e.info.protection else widened e.info.protection

/-- The data of a region after a read of it. -/
def dataAfter (e : VmRegion) : Bytes :=
  if ¬ (Region.ofVmRegion e).IsReadable ∧
      (mach.vmProtect e.addr e.size (widened e.info.protection)).isOk = false then []
  else
    match mach.vmReadOverwrite e.addr e.size with
    | .ok data => data
    | .error _ => []

/-- The region is read: it is readable, or the kernel makes it so. -/
def ReadMade (e : VmRegion) : Prop :=
  (Region.ofVmRegion e).IsReadable ∨
    (mach.vmProtect e.addr e.size (widened e.info.protection)).isOk = true

variable {mach adapter} {e : VmRegion} {m : AddressMap}

theorem not_readMade_iff : ¬ ReadMade mach e ↔ ¬ (Region.ofVmRegion e).IsReadable ∧
    (mach.vmProtect e.addr e.size (widened e.info.protection)).isOk = false := by
  rw [ReadMade, not_or, Bool.not_eq_true]

theorem dataAfter_of_readMade (h : ReadMade mach e) :
    dataAfter mach e = match mach.vmReadOverwrite e.addr e.size with
      | .ok data => data
      | .error _ => [] := if_neg fun hn => not_readMade_iff.mpr hn h

theorem dataAfter_of_not_readMade (h : ¬ ReadMade mach e) : dataAfter mach e = [] :=
  if_pos (not_readMade_iff.mp h)

theorem setProtection_of_region {addr : Nat} (h : m.region addr = some e) (size : Nat)
    (prot protMask : Protection) : adapter.setProtection mach addr size prot protMask m =
      match mach.vmProtect e.addr e.size (newProtection prot protMask e.info.protection) with
      | .error ret => .error (adapter.refused "set protection in" e.addr e.size ret) m
      | .ok () =>
        .ok () (m.protect e.addr e.size (newProtection prot protMask e.info.protection)) := by
  unfold setProtection
  rw [get_bind, h]
  dsimp only
  cases mach.vmProtect e.addr e.size (newProtection prot protMask e.info.protection) <;> rfl

theorem setProtection_of_none {addr : Nat} (h : m.region addr = none) (size : Nat)
    (prot protMask : Protection) : adapter.setProtection mach addr size prot protMask m =
      .error (adapter.refused "read region in" addr size kernInvalidAddress) m := by
  unfold setProtection
  rw [get_bind, h]
  rfl

theorem setUnreadable_of_isReadable {r : Region} (h : r.IsReadable) (prot : Protection) :
    adapter.setUnreadable mach r prot m = .ok () m := by
  rw [setUnreadable, if_pos h]
  rfl

theorem setUnreadable_of_not_isReadable {r : Region} (h : ¬ r.IsReadable) (prot : Protection) :
    adapter.setUnreadable mach r prot = adapter.setProtection mach r.addr r.size prot allAccess :=
  if_neg h

theorem readRegion_of_isReadable (h : (Region.ofVmRegion e).IsReadable) :
    endState (adapter.readRegion mach (.ofVmRegion e) m) =
      (m, (Region.ofVmRegion e).withData (dataAfter mach e)) := by
  have hdata := dataAfter_of_readMade (.inl h : ReadMade mach e)
  have hback : ∀ data, ((Region.ofVmRegion e).withData data).IsReadable :=
    fun _ => h
  unfold readRegion read
  rw [hdata, setUnreadable_of_isReadable h, Region.addr_ofVmRegion, Region.size_ofVmRegion]
  cases mach.vmReadOverwrite e.addr e.size with
  | error ret => rfl
  | ok data =>
    dsimp only
    rw [setUnreadable_of_isReadable (hback data)]
    rfl

theorem setUnreadable_widened (he : e ∈ m.regions) (h : ¬ (Region.ofVmRegion e).IsReadable) :
    adapter.setUnreadable mach (.ofVmRegion e) ((Region.ofVmRegion e).protection ||| readable) m =
      match mach.vmProtect e.addr e.size (widened e.info.protection) with
      | .error ret => .error (adapter.refused "set protection in" e.addr e.size ret) m
      | .ok () => .ok () (m.protect e.addr e.size (widened e.info.protection)) := by
  rw [setUnreadable_of_not_isReadable h]
  exact setProtection_of_region (AddressMap.region_addr he) _ _ _

theorem setUnreadable_restored (he : e ∈ m.regions) (h : ¬ (Region.ofVmRegion e).IsReadable)
    (data : Bytes) : adapter.setUnreadable mach ((Region.ofVmRegion e).withData data)
      (Region.ofVmRegion e).protection (m.protect e.addr e.size (widened e.info.protection)) =
      match mach.vmProtect e.addr e.size e.info.protection with
      | .error ret => .error (adapter.refused "set protection in" e.addr e.size ret)
          (m.protect e.addr e.size (widened e.info.protection))
      | .ok () => .ok () m := by
  rw [setUnreadable_of_not_isReadable (r := ((Region.ofVmRegion e).withData data)) h]
  have hset := @setProtection_of_region mach adapter _ _ _
    (AddressMap.region_addr (AddressMap.mem_protect he (widened e.info.protection))) e.size
    (protectionOf e.info.protection) allAccess
  have hprot : newProtection (protectionOf e.info.protection) allAccess
      (e.withProtection (widened e.info.protection)).info.protection = e.info.protection :=
    newProtection_protectionOf _ _
  simp only [hprot, VmRegion.addr_withProtection, VmRegion.size_withProtection,
    AddressMap.protect_protect he, AddressMap.protect_same he] at hset
  exact hset

theorem not_restored_iff (h : ¬ (Region.ofVmRegion e).IsReadable) : ¬ Restored mach e ↔
    (mach.vmProtect e.addr e.size (widened e.info.protection)).isOk = true ∧
    ((mach.vmReadOverwrite e.addr e.size).isOk = false ∨
      (mach.vmProtect e.addr e.size e.info.protection).isOk = false) := by
  simp only [Restored, h, false_or, not_or, Bool.not_eq_false, not_and_or, Bool.not_eq_true]

theorem protectionAfter_of_restored (h : Restored mach e) :
    protectionAfter mach e = e.info.protection := if_pos h

theorem protectionAfter_of_not_restored (h : ¬ Restored mach e) :
    protectionAfter mach e = widened e.info.protection := if_neg h

theorem protectionAfter_eq_iff :
    protectionAfter mach e = e.info.protection ↔ Restored mach e := by
  refine ⟨fun h => ?_, protectionAfter_of_restored⟩
  by_contra hnot
  rw [protectionAfter_of_not_restored hnot] at h
  exact widened_ne (fun hread => hnot (.inl hread)) h

/-- A read of a region of the map. -/
theorem endState_readRegion (he : e ∈ m.regions) :
    endState (adapter.readRegion mach (.ofVmRegion e) m) =
      (m.protect e.addr e.size (protectionAfter mach e),
        (Region.ofVmRegion e).withData (dataAfter mach e)) := by
  by_cases h : (Region.ofVmRegion e).IsReadable
  · rw [readRegion_of_isReadable h, protectionAfter_of_restored (.inl h),
      AddressMap.protect_same he]
  · unfold readRegion read
    rw [setUnreadable_widened he h, Region.addr_ofVmRegion, Region.size_ofVmRegion]
    cases hwiden : mach.vmProtect e.addr e.size (widened e.info.protection) with
    | error ret =>
      have hrefused : (mach.vmProtect e.addr e.size (widened e.info.protection)).isOk = false := by
        rw [hwiden]
        rfl
      have hdata := dataAfter_of_not_readMade (not_readMade_iff.mpr ⟨h, hrefused⟩)
      rw [protectionAfter_of_restored (.inr (.inl hrefused)), AddressMap.protect_same he, hdata]
      rfl
    | ok _ =>
      have hwide : (mach.vmProtect e.addr e.size (widened e.info.protection)).isOk = true := by
        rw [hwiden]
        rfl
      rw [dataAfter_of_readMade (.inr hwide)]
      cases hread : mach.vmReadOverwrite e.addr e.size with
      | error ret =>
        have hnot : ¬ Restored mach e := (not_restored_iff h).mpr ⟨hwide, .inl (by rw [hread]; rfl)⟩
        rw [protectionAfter_of_not_restored hnot]
        rfl
      | ok data =>
        dsimp only
        rw [setUnreadable_restored he h data]
        cases hback : mach.vmProtect e.addr e.size e.info.protection with
        | error ret =>
          have hnot : ¬ Restored mach e :=
            (not_restored_iff h).mpr ⟨hwide, .inr (by rw [hback]; rfl)⟩
          rw [protectionAfter_of_not_restored hnot]
          rfl
        | ok _ =>
          have hrest : Restored mach e :=
            .inr (.inr ⟨by rw [hread]; rfl, by rw [hback]; rfl⟩)
          rw [protectionAfter_of_restored hrest, AddressMap.protect_same he]
          rfl

theorem type_of_setProtection {addr size : Nat} {prot protMask : Protection} {ex : Exception}
    {m' : AddressMap} (h : adapter.setProtection mach addr size prot protMask m = .error ex m') :
    ex.type = .runtimeError := by
  cases hregion : m.region addr with
  | none =>
    rw [setProtection_of_none hregion] at h
    cases h
    rfl
  | some e =>
    rw [setProtection_of_region hregion] at h
    cases hset : mach.vmProtect e.addr e.size
        (newProtection prot protMask e.info.protection) with
    | error ret =>
      rw [hset] at h
      cases h
      rfl
    | ok _ =>
      rw [hset] at h
      cases h

theorem type_of_setUnreadable {r : Region} {prot : Protection} {ex : Exception} {m' : AddressMap}
    (h : adapter.setUnreadable mach r prot m = .error ex m') : ex.type = .runtimeError := by
  unfold setUnreadable at h
  split at h
  · cases h
  · exact type_of_setProtection h

theorem type_of_readRegion {r : Region} {ex : Exception} {s : AddressMap × Region}
    (h : adapter.readRegion mach r m = .error ex s) : ex.type = .runtimeError := by
  unfold readRegion read at h
  cases hset : adapter.setUnreadable mach r (r.protection ||| readable) m with
  | error e' m' =>
    rw [hset] at h
    cases h
    exact type_of_setUnreadable hset
  | ok _ m' =>
    rw [hset] at h
    cases hread : mach.vmReadOverwrite r.addr r.size with
    | error ret =>
      rw [hread] at h
      cases h
      rfl
    | ok data =>
      rw [hread] at h
      dsimp only at h
      cases hback : adapter.setUnreadable mach (r.withData data) r.protection m' with
      | error e' m'' =>
        rw [hback] at h
        cases h
        exact type_of_setUnreadable hback
      | ok _ m'' =>
        rw [hback] at h
        cases h

theorem tryRead_eq (r : Region) : adapter.tryRead mach r m =
    .ok (endState (adapter.readRegion mach r m)).2 (endState (adapter.readRegion mach r m)).1 := by
  unfold tryRead
  cases h : adapter.readRegion mach r m with
  | ok _ s => rfl
  | error ex s => exact if_pos (type_of_readRegion h)

variable (mach)

/-- A region as it is found, with its data if it is to be read. -/
def found (readData : Bool) (e : VmRegion) : Region :=
  if readData then (Region.ofVmRegion e).withData (dataAfter mach e) else Region.ofVmRegion e

/-- The region of the map after it was found. -/
def left (readData : Bool) (e : VmRegion) : VmRegion :=
  if readData then e.withProtection (protectionAfter mach e) else e

variable {mach} {readData : Bool}

@[simp] theorem addr_found : (found mach readData e).addr = e.addr := by cases readData <;> rfl

@[simp] theorem size_found : (found mach readData e).size = e.size := by cases readData <;> rfl

@[simp] theorem addr_left : (left mach readData e).addr = e.addr := by cases readData <;> rfl

@[simp] theorem size_left : (left mach readData e).size = e.size := by cases readData <;> rfl

theorem endAddr_found : (found mach readData e).endAddr = e.addr + e.size := by
  rw [Region.endAddr, addr_found, size_found, add64_eq e.below]

/-- What `try { read(r); }` does to a region of the map. -/
theorem tryRead_of_mem (mach : Mach) (adapter : ProcessMemoryAdapter) (readData : Bool)
    {before behind : List VmRegion} (hm : m.regions = before ++ e :: behind) : ∃ m',
      (if readData then adapter.tryRead mach (.ofVmRegion e) else pure (.ofVmRegion e)) m =
        .ok (found mach readData e) m' ∧
      m'.regions = before ++ left mach readData e :: behind := by
  have he : e ∈ m.regions := by
    rw [hm]
    exact List.mem_append_right _ List.mem_cons_self
  cases readData with
  | false => exact ⟨m, rfl, hm⟩
  | true =>
    refine ⟨_, ?_, AddressMap.regions_protect_append hm (protectionAfter mach e)⟩
    rw [if_pos rfl, tryRead_eq, endState_readRegion he]
    rfl

theorem getRegion_of_region {a : Nat} (h : m.region a = some e) :
    adapter.getRegion mach a readData m =
      (if readData then adapter.tryRead mach (.ofVmRegion e) else pure (.ofVmRegion e)) m := by
  unfold getRegion
  rw [get_bind, h]

theorem getRegion_of_none {a : Nat} (h : m.region a = none) :
    adapter.getRegion mach a readData m = .error (outOfRange "no region found") m := by
  unfold getRegion
  rw [get_bind, h]
  rfl

end Reads

end ProcessMemoryAdapter
end Memwatch
