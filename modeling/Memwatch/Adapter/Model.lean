import Memwatch.Adapter.Map
import Memwatch.Lib.Failures
import Memwatch.Lib.Loops
import Memwatch.Shell.Numbers

/-!
# `ProcessMemoryAdapter`

The functions of `ProcessMemoryAdapter.cc` that look up and read regions of the target
and that change protections. The state is the address map of the target. The kernel may
refuse a request; no function makes a request twice, so that an answer for each request
is an answer for each call. Memory is not exhausted.
-/

namespace Memwatch

open Lib Text

/-- `kern_return_t` of a call that fails. -/
abbrev KernReturn := Int

def kernInvalidAddress : KernReturn := 1

/-- The answers of the kernel: whether it changes a protection, and what it reads. -/
structure Mach where
  vmProtect : (addr size : Nat) → VmProt → Except KernReturn Unit
  vmReadOverwrite : (addr size : Nat) → Except KernReturn Bytes

def granting : Mach where
  vmProtect _ _ _ := .ok ()
  vmReadOverwrite _ size := .ok (List.replicate size 0)

/-- What a function that changes the address map ends with. -/
abbrev Action := EStateM Exception AddressMap

structure ProcessMemoryAdapter where
  pid : Int

namespace ProcessMemoryAdapter

/-! ## Regions -/

/-- `Region::Protection`. -/
abbrev Protection := BitVec 8

def readable : Protection := 1

def writable : Protection := 2

def executable : Protection := 4

def allAccess : Protection := 7

structure Region where
  addr : Nat
  size : Nat
  protection : Protection
  maxProtection : Protection
  inherit : Nat
  shared : Bool
  reserved : Bool
  behavior : Int
  wiredCount : Nat
  data : Bytes
  deriving DecidableEq

def Region.withData (r : Region) (data : Bytes) : Region := { r with data := data }

def Region.endAddr (r : Region) : Nat := add64 r.addr r.size

def Region.IsReadable (r : Region) : Prop := r.protection &&& readable ≠ 0

instance Region.instDecidableIsReadable (r : Region) : Decidable r.IsReadable :=
  inferInstanceAs (Decidable (_ ≠ _))

/-- The protection of a region from the one Mach tells. -/
def protectionOf (prot : VmProt) : Protection :=
  (if prot &&& vmProtRead ≠ 0 then readable else 0) |||
  (if prot &&& vmProtWrite ≠ 0 then writable else 0) |||
  (if prot &&& vmProtExecute ≠ 0 then executable else 0)

/-- A region from the answer of `mach_vm_region`. -/
def Region.ofVmRegion (e : VmRegion) : Region where
  addr := e.addr
  size := e.size
  protection := protectionOf e.info.protection
  maxProtection := protectionOf e.info.maxProtection
  inherit := e.info.inheritance
  shared := e.info.shared
  reserved := e.info.reserved
  behavior := e.info.behavior
  wiredCount := e.info.userWiredCount
  data := []

@[simp] theorem Region.addr_ofVmRegion (e : VmRegion) : (ofVmRegion e).addr = e.addr := rfl

@[simp] theorem Region.size_ofVmRegion (e : VmRegion) : (ofVmRegion e).size = e.size := rfl

/-! ## Protections -/

/-- A part of `set_protection`: one kind of access, if it is in the mask. -/
def setAccess (flag : Protection) (vmFlag : VmProt) (prot protMask : Protection)
    (vmProt : VmProt) : VmProt :=
  if protMask &&& flag ≠ 0 then
    let vmProt := vmProt &&& ~~~vmFlag
    if prot &&& flag ≠ 0 then vmProt ||| vmFlag else vmProt
  else vmProt

def newProtection (prot protMask : Protection) (vmProt : VmProt) : VmProt :=
  let vmProt := setAccess readable vmProtRead prot protMask vmProt
  let vmProt := setAccess writable vmProtWrite prot protMask vmProt
  setAccess executable vmProtExecute prot protMask vmProt

section Calls

variable (mach : Mach) (adapter : ProcessMemoryAdapter)

/-- The exception for a request that the kernel refuses. -/
def refused (what : String) (addr size : Nat) (ret : KernReturn) : Exception :=
  runtimeError ("can't " ++ what ++ " process " ++ toString adapter.pid ++ " at " ++
    printHex addr ++ ":" ++ printHex size ++ " (" ++ toString ret ++ ")")

/-- The address and the size of the change are the ones `mach_vm_region` tells. -/
def setProtection (addr size : Nat) (prot protMask : Protection) : Action Unit := do
  let map ← get
  match map.region addr with
  | none => throw (adapter.refused "read region in" addr size kernInvalidAddress)
  | some e =>
    let vmProt := newProtection prot protMask e.info.protection
    match mach.vmProtect e.addr e.size vmProt with
    | .error ret => throw (adapter.refused "set protection in" e.addr e.size ret)
    | .ok () => set (map.protect e.addr e.size vmProt)

/-! ## Reads -/

def read (addr size : Nat) : Except Exception Bytes :=
  match mach.vmReadOverwrite addr size with
  | .error ret => .error (adapter.refused "read from" addr size ret)
  | .ok data => .ok data

/-- The protection of a region that is not readable changes. -/
def setUnreadable (r : Region) (prot : Protection) : Action Unit :=
  if r.IsReadable then pure ()
  else adapter.setProtection mach r.addr r.size prot allAccess

/-- `read(Region&)`, with the region as it is at the end: it keeps its data when its
protection is not restored. -/
def readRegion (r : Region) (map : AddressMap) :
    EStateM.Result Exception (AddressMap × Region) Unit :=
  match adapter.setUnreadable mach r (r.protection ||| readable) map with
  | .error e map => .error e (map, r)
  | .ok () map =>
    match adapter.read mach r.addr r.size with
    | .error e => .error e (map, r)
    | .ok data =>
      match adapter.setUnreadable mach (r.withData data) r.protection map with
      | .error e map => .error e (map, r.withData data)
      | .ok () map => .ok () (map, r.withData data)

/-- `try { read(r); } catch (const runtime_error& e) { }`. -/
def tryRead (r : Region) : Action Region := fun map =>
  match adapter.readRegion mach r map with
  | .ok () (map, r) => .ok r map
  | .error e (map, r) => if e.type = .runtimeError then .ok r map else .error e map

def getRegion (addr : Nat) (readData : Bool) : Action Region := do
  let map ← get
  match map.region addr with
  | none => throw (outOfRange "no region found")
  | some e =>
    if readData then adapter.tryRead mach (.ofVmRegion e) else pure (.ofVmRegion e)

/-! ## Scans -/

/-- The variables of the loop of `get_all_regions`, and the address map. -/
structure Scan where
  ret : List Region
  addr : Nat
  map : AddressMap

def allRegionsTurn (readData : Bool) (s : Scan) :
    Turn Scan (EStateM.Result Exception AddressMap (List Region)) :=
  match adapter.getRegion mach s.addr readData s.map with
  | .ok r map => .next ⟨s.ret ++ [r], r.endAddr, map⟩
  | .error e map => .leave (if e.type = .outOfRange then .ok s.ret map else .error e map)

/-- `get_all_regions`, with at most `turns` turns of its loop. -/
def getAllRegions (turns : Nat) (readData : Bool) (map : AddressMap) :
    Option (EStateM.Result Exception AddressMap (List Region)) :=
  runLoop (adapter.allRegionsTurn mach readData) turns ⟨[], 0, map⟩

/-- Why a scan for targets does not get to its end. -/
inductive ScanFault where
  | exception (e : Exception)
  | pastEnd
  deriving DecidableEq

/-- The variables of the loop of `get_target_regions`: `targets` is what is left from
`target_it` on. -/
structure TargetScan extends Scan where
  targets : List Nat

def targetRegionsTurn (readData : Bool) (s : TargetScan) :
    Turn TargetScan (EStateM.Result ScanFault AddressMap (List Region)) :=
  let caught (e : Exception) (map : AddressMap) :
      Turn TargetScan (EStateM.Result ScanFault AddressMap (List Region)) :=
    .leave (if e.type = .outOfRange then .ok s.ret map else .error (.exception e) map)
  if s.targets = [] then .leave (.ok s.ret s.map)
  else
    match adapter.getRegion mach s.addr false s.map with
    | .error e map => caught e map
    | .ok r map =>
      match s.targets.dropWhile (· < r.addr) with
      | [] => .leave (.error .pastEnd map)
      | target :: targets =>
        if target < r.endAddr then
          match (if readData then adapter.tryRead mach r else pure r) map with
          | .error e map => caught e map
          | .ok r map => .next ⟨⟨s.ret ++ [r], r.endAddr, map⟩, target :: targets⟩
        else .next ⟨⟨s.ret, r.endAddr, map⟩, target :: targets⟩

/-- `get_target_regions`, with at most `turns` turns of its loop. -/
def getTargetRegions (turns : Nat) (targetAddresses : List Nat) (readData : Bool)
    (map : AddressMap) : Option (EStateM.Result ScanFault AddressMap (List Region)) :=
  runLoop (adapter.targetRegionsTurn mach readData) turns ⟨⟨[], 0, map⟩, targetAddresses⟩

end Calls

end ProcessMemoryAdapter
end Memwatch
