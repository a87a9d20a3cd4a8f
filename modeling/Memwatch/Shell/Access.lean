import Memwatch.Adapter.Reads
import Memwatch.Shell.Model

/-!
# `access`

The command changes the region that `mach_vm_region` tells for its address. In a gap of
the address map that is the region behind the gap.
-/

namespace Memwatch

open Lib Text ProcessMemoryAdapter AddressMap

namespace MemwatchShell

/-! ## The command -/

/-- `strchr`, on the characters before the first null character. -/
def strchr (s : String) (c : Char) : Bool := (s.toList.takeWhile (· ≠ '\x00')).contains c

def modeProtection (mode : String) : Protection :=
  (if strchr mode 'r' then readable else 0) |||
  (if strchr mode 'w' then writable else 0) |||
  (if strchr mode 'x' then executable else 0)

/-- The protection that the arguments behind the address ask for. -/
def requestedProtection : List String → Protection
  | [] => allAccess
  | mode :: _ => modeProtection mode

def accessArgs [PhosgText] (st : MemwatchShell) (argsStr : String) :
    Except Fault (Nat × Protection) := do
  let args ← splitArgs argsStr 1 2
  match args with
  | [] => throw .noArgument
  | word :: mode => do
    let addr ← st.getAddrFromCommand word
    pure (addr, requestedProtection mode)

def commandAccess [PhosgText] (st : MemwatchShell) (mach : Mach) (adapter : ProcessMemoryAdapter)
    (argsStr : String) : EStateM Fault AddressMap Unit := do
  let (addr, prot) ← st.accessArgs argsStr
  EStateM.adaptExcept Fault.exception (adapter.setProtection mach addr 0 prot allAccess)

/-! ## What it changes -/

theorem requestedProtection_and (mode : List String) :
    requestedProtection mode &&& allAccess = requestedProtection mode := by
  cases mode with
  | nil => rfl
  | cons mode _ =>
    show modeProtection mode &&& allAccess = modeProtection mode
    unfold modeProtection
    cases strchr mode 'r' <;> cases strchr mode 'w' <;> cases strchr mode 'x' <;> rfl

theorem protectionOf_and (p : VmProt) : protectionOf p &&& allAccess = protectionOf p := by
  unfold protectionOf
  split <;> split <;> split <;> rfl

theorem eq_of_and_allAccess {p q : Protection} (hp : p &&& allAccess = p)
    (hq : q &&& allAccess = q) (h : ∀ i, i < 3 → p.getLsbD i = q.getLsbD i) : p = q := by
  rw [← hp, ← hq]
  refine BitVec.eq_of_getLsbD_eq fun i hi => ?_
  rw [BitVec.getLsbD_and, BitVec.getLsbD_and]
  by_cases h3 : i < 3
  · rw [h i h3]
  · have hall : allAccess.getLsbD i = false := by interval_cases i <;> rfl
    rw [hall, Bool.and_false, Bool.and_false]

theorem protectionOf_newProtection {prot : Protection} (h : prot &&& allAccess = prot)
    (p : VmProt) : protectionOf (newProtection prot allAccess p) = prot := by
  refine eq_of_and_allAccess (protectionOf_and _) h fun i hi => ?_
  have hall : allAccess.getLsbD i = true := by interval_cases i <;> rfl
  rw [getLsbD_protectionOf _ hi, getLsbD_newProtection _ _ _ (by omega), if_pos ⟨hi, hall⟩]

/-- The pages of a region have a protection, and the others the one they had. -/
structure SetsExactly (e : VmRegion) (prot : Protection) (m m' : AddressMap) : Prop where
  sets : ∀ a, e.Contains a → (m'.protectionAt a).map protectionOf = some prot
  keeps : ∀ a, ¬ e.Contains a → m'.protectionAt a = m.protectionAt a

theorem setsExactly_protect {m : AddressMap} {e : VmRegion} {prot : Protection}
    (he : e ∈ m.regions) (h : prot &&& allAccess = prot) : SetsExactly e prot m
      (m.protect e.addr e.size (newProtection prot allAccess e.info.protection)) where
  sets a ha := by
    have hin : e.addr ≤ a ∧ a < e.addr + e.size := ha
    rw [protectionAt_protect, if_pos hin, protectionAt_of_contains he ha, Option.map_some,
      Option.map_some, protectionOf_newProtection h]
  keeps a ha := by
    have hout : ¬ (e.addr ≤ a ∧ a < e.addr + e.size) := ha
    rw [protectionAt_protect, if_neg hout]

/-- The kernel refuses to give the region the protection. -/
def Refuses (mach : Mach) (e : VmRegion) (prot : Protection) : Prop :=
  (mach.vmProtect e.addr e.size (newProtection prot allAccess e.info.protection)).isOk = false

instance instDecidableRefuses (mach : Mach) (e : VmRegion) (prot : Protection) :
    Decidable (Refuses mach e prot) :=
  inferInstanceAs (Decidable (_ = _))

/-- What the command ends with changes the region around the address and no other: it
succeeds and changes its pages, or reports that the kernel refuses to; without a region
around the address it reports an error and changes nothing. -/
structure AccessesOnly (mach : Mach) (m : AddressMap) (addr : Nat) (prot : Protection)
    (res : EStateM.Result Fault AddressMap Unit) : Prop where
  inside : ∀ e ∈ m.regions, e.Contains addr → ¬ Refuses mach e prot →
    ∃ m', res = .ok () m' ∧ SetsExactly e prot m m'
  refused : ∀ e ∈ m.regions, e.Contains addr → Refuses mach e prot →
    ∃ ex, res = .error (.exception ex) m
  outside : (∀ e ∈ m.regions, ¬ e.Contains addr) → ∃ ex, res = .error (.exception ex) m

section Access

variable [PhosgText] {st : MemwatchShell} {mach : Mach} {adapter : ProcessMemoryAdapter}
  {argsStr word : String} {mode : List String} {addr : Nat} {m : AddressMap} {e : VmRegion}

theorem accessArgs_eq (hargs : splitArgs argsStr 1 2 = .ok (word :: mode))
    (haddr : st.getAddrFromCommand word = .ok addr) :
    st.accessArgs argsStr = .ok (addr, requestedProtection mode) := by
  unfold accessArgs
  rw [hargs]
  show ((liftM (st.getAddrFromCommand word) : Except Fault Nat) >>= _) = _
  rw [haddr]
  rfl

theorem commandAccess_eq (hargs : splitArgs argsStr 1 2 = .ok (word :: mode))
    (haddr : st.getAddrFromCommand word = .ok addr) :
    st.commandAccess mach adapter argsStr m = EStateM.adaptExcept Fault.exception
      (adapter.setProtection mach addr 0 (requestedProtection mode) allAccess) m := by
  unfold commandAccess
  rw [lift_bind_of_ok (accessArgs_eq hargs haddr)]

theorem commandAccess_of_none (hargs : splitArgs argsStr 1 2 = .ok (word :: mode))
    (haddr : st.getAddrFromCommand word = .ok addr) (h : m.region addr = none) :
    ∃ ex, st.commandAccess mach adapter argsStr m = .error (.exception ex) m := by
  rw [commandAccess_eq hargs haddr]
  unfold EStateM.adaptExcept
  rw [setProtection_of_none h]
  exact ⟨_, rfl⟩

theorem commandAccess_of_refuses (hargs : splitArgs argsStr 1 2 = .ok (word :: mode))
    (haddr : st.getAddrFromCommand word = .ok addr) (h : m.region addr = some e)
    (href : Refuses mach e (requestedProtection mode)) :
    ∃ ex, st.commandAccess mach adapter argsStr m = .error (.exception ex) m := by
  rw [commandAccess_eq hargs haddr]
  unfold EStateM.adaptExcept
  rw [setProtection_of_region h]
  unfold Refuses at href
  cases hset : mach.vmProtect e.addr e.size
      (newProtection (requestedProtection mode) allAccess e.info.protection) with
  | error ret => exact ⟨_, rfl⟩
  | ok _ =>
    rw [hset] at href
    cases href

/-- The command changes the region that the kernel tells, whether the address lies in it or
not. -/
theorem commandAccess_of_granted (hargs : splitArgs argsStr 1 2 = .ok (word :: mode))
    (haddr : st.getAddrFromCommand word = .ok addr) (h : m.region addr = some e)
    (href : ¬ Refuses mach e (requestedProtection mode)) :
    st.commandAccess mach adapter argsStr m = .ok () (m.protect e.addr e.size
      (newProtection (requestedProtection mode) allAccess e.info.protection)) := by
  rw [commandAccess_eq hargs haddr]
  unfold EStateM.adaptExcept
  rw [setProtection_of_region h]
  unfold Refuses at href
  cases hset : mach.vmProtect e.addr e.size
      (newProtection (requestedProtection mode) allAccess e.info.protection) with
  | error ret =>
    rw [hset] at href
    exact absurd rfl href
  | ok _ => rfl

theorem not_accessesOnly (hargs : splitArgs argsStr 1 2 = .ok (word :: mode))
    (haddr : st.getAddrFromCommand word = .ok addr) (h : m.region addr = some e)
    (hout : ¬ e.Contains addr) (href : ¬ Refuses mach e (requestedProtection mode)) :
    ¬ AccessesOnly mach m addr (requestedProtection mode)
      (st.commandAccess mach adapter argsStr m) := by
  intro honly
  -- no other region contains the address, or the kernel would have told it
  have hnone : ∀ f ∈ m.regions, ¬ f.Contains addr := by
    intro f hf hfa
    rw [region_of_contains hf hfa] at h
    exact hout (Option.some.inj h ▸ hfa)
  obtain ⟨ex, herror⟩ := honly.outside hnone
  rw [commandAccess_of_granted hargs haddr h href] at herror
  cases herror

/-- The command changes the region around its address and no other exactly if the region
that the kernel tells contains the address, or the kernel refuses to change it. -/
theorem accessesOnly_iff (hargs : splitArgs argsStr 1 2 = .ok (word :: mode))
    (haddr : st.getAddrFromCommand word = .ok addr) (mach : Mach) (adapter : ProcessMemoryAdapter)
    (m : AddressMap) : AccessesOnly mach m addr (requestedProtection mode)
      (st.commandAccess mach adapter argsStr m) ↔
      ∀ e, m.region addr = some e →
        e.Contains addr ∨ Refuses mach e (requestedProtection mode) := by
  constructor
  · intro honly e h
    by_contra hbad
    push Not at hbad
    exact not_accessesOnly hargs haddr h hbad.1 hbad.2 honly
  · intro hcond
    refine ⟨fun e he hea hgrant => ?_, fun e he hea href => ?_, fun hnone => ?_⟩
    · exact ⟨_, commandAccess_of_granted hargs haddr (region_of_contains he hea) hgrant,
        setsExactly_protect he (requestedProtection_and mode)⟩
    · exact commandAccess_of_refuses hargs haddr (region_of_contains he hea) href
    · cases h : m.region addr with
      | none => exact commandAccess_of_none hargs haddr h
      | some e =>
        rcases hcond e h with hea | href
        · exact absurd hea (hnone e (region_spec h).1)
        · exact commandAccess_of_refuses hargs haddr h href

end Access

section

open Plain

def idleShell : MemwatchShell := new "target" 10 5 false true false

theorem access_inside : AccessesOnly granting twoPages 0x3010 (requestedProtection ["r"])
    (commandAccess idleShell granting ⟨1⟩ "3010 r" twoPages) := by
  have hargs : splitArgs "3010 r" 1 2 = .ok ("3010" :: ["r"]) := rfl
  have haddr : idleShell.getAddrFromCommand "3010" = .ok 0x3010 := by decide +kernel
  refine (accessesOnly_iff hargs haddr granting ⟨1⟩ twoPages).mpr fun e h => ?_
  have hregion : twoPages.region 0x3010 = some (page 0x3000 3 (by decide)) := by decide
  rw [hregion] at h
  cases h
  exact .inl (by decide)

/-- An address in the gap changes the page behind the gap. -/
theorem access_gap : ¬ AccessesOnly granting twoPages 0x2010 (requestedProtection ["-"])
    (commandAccess idleShell granting ⟨1⟩ "2010 -" twoPages) := by
  have hargs : splitArgs "2010 -" 1 2 = .ok ("2010" :: ["-"]) := rfl
  have haddr : idleShell.getAddrFromCommand "2010" = .ok 0x2010 := by decide +kernel
  have hregion : twoPages.region 0x2010 = some (page 0x3000 3 (by decide)) := by decide
  exact not_accessesOnly hargs haddr hregion (by decide) (by decide)

end

end MemwatchShell
end Memwatch
