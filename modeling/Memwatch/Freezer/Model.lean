import Memwatch.Bytes
import Memwatch.Lib.Maps

/-!
# `RegionFreezer`

The freezer of `RegionFreezer.cc`: its regions, its three indexes, the shell's
operations and a pass of the write thread. A region is on the heap; a
`shared_ptr` to it is the number of its allocation, so that the indexes share
regions and pointers compare by identity. Every operation and every pass holds
the lock from its first access to its last one, so each is one step.
-/

namespace Memwatch

open Lib

/-- What the freezer uses of the process: reads and writes that may fail, and
what a read past the end of a buffer finds. -/
structure Adapter (σ : Type) where
  read : σ → (addr size : Nat) → Except String Bytes
  write : σ → (addr : Nat) → (data : Bytes) → Except String Unit × σ
  stray : Bytes → Nat → UInt8

namespace RegionFreezer

/-- What an `ArrayRegion` adds to a `Region`. -/
structure ArrayItems where
  numItems : Nat
  dataMask : Bytes
  nullData : Bytes
  nullDataMask : Bytes
  deriving DecidableEq

structure Region where
  name : String
  index : Nat
  addr : Nat
  data : Bytes
  error : String
  enable : Bool
  items : Option ArrayItems
  deriving DecidableEq

def Region.new (name : String) (index addr : Nat) (data : Bytes) (enable : Bool) : Region :=
  ⟨name, index, addr, data, "", enable, none⟩

def Region.newArray (name : String) (index addr numItems : Nat) (data dataMask : Bytes)
    (nullData nullDataMask : Option Bytes) (enable : Bool) : Region :=
  let (null, nullMask) : Bytes × Bytes :=
    match nullData, nullDataMask with
    | some null, some nullMask => (null, nullMask)
    | _, _ => ([], [])
  ⟨name, index, addr, data, "", enable, some ⟨numItems, dataMask, null, nullMask⟩⟩

/-! ## Writing a region -/

/-- The loop of `memcmp_mask`: `-1` at a difference outside the mask, else whether
there were differences. -/
def maskedDifferences : Bytes → Bytes → Bytes → Int → Int
  | x :: xs, y :: ys, m :: ms, d =>
    if x ≠ y then if m = 0 then maskedDifferences xs ys ms 1 else -1
    else maskedDifferences xs ys ms d
  | _, _, _, d => d

section Write

variable {σ : Type} (A : Adapter σ)

/-- `size` bytes from offset `off` of a buffer on. -/
def bytesAt (b : Bytes) (off size : Nat) : Bytes :=
  (List.range size).map fun i => (b[off + i]?).getD (A.stray b (off + i))

/-- `memcmp_mask` with a mask: every caller has one. -/
def memcmpMask (a b mask : Bytes) (size : Nat) : Int :=
  maskedDifferences (bytesAt A a 0 size) (bytesAt A b 0 size) (bytesAt A mask 0 size) 0

/-- What the loop over the items of an array ends with. -/
inductive Slot where
  | present
  | at (x : Nat)
  | none
  deriving DecidableEq

/-- The loop over the items from `x` on: the data, or the first null item. -/
def findSlot (data : Bytes) (items : ArrayItems) (contents : Bytes) : Nat → Nat → Slot
  | 0, _ => .none
  | n + 1, x =>
    let item := bytesAt A contents (x * data.length % 2 ^ 64) data.length
    let cmpResult := memcmpMask A item data items.dataMask data.length
    if cmpResult = 0 then .present
    else if cmpResult = 1 then .at x
    else if !items.nullData.isEmpty then
      if memcmpMask A item items.nullData items.nullDataMask data.length ≥ 0 then .at x
      else findSlot data items contents n (x + 1)
    else if item.all (· = 0) then .at x
    else findSlot data items contents n (x + 1)

/-- `write` of a `Region` and of an `ArrayRegion`. A write to an item leaves the
error as it was. -/
def Region.write (r : Region) (mem : σ) : Region × σ :=
  match r.items with
  | none =>
    match A.write mem r.addr r.data with
    | (.ok (), mem) => ({ r with error := "" }, mem)
    | (.error what, mem) => ({ r with error := what }, mem)
  | some items =>
    match A.read mem r.addr (items.numItems * r.data.length % 2 ^ 64) with
    | .error what => ({ r with error := what }, mem)
    | .ok contents =>
      match findSlot A r.data items contents items.numItems 0 with
      | .present => ({ r with error := "" }, mem)
      | .at x =>
        match A.write mem (add64 r.addr (x * r.data.length)) r.data with
        | (.ok (), mem) => (r, mem)
        | (.error what, mem) => ({ r with error := what }, mem)
      | .none => ({ r with error := "no available spaces" }, mem)

end Write

end RegionFreezer

structure RegionFreezer where
  heap : Nat → RegionFreezer.Region
  allocated : Nat
  regionsByName : Multimap String Nat
  regionsByAddr : Multimap Nat Nat
  regionsByIndex : OrderedMap Nat Nat
  nextIndex : Nat

namespace RegionFreezer

def new : RegionFreezer where
  heap _ := Region.new "" 0 0 [] false
  allocated := 0
  regionsByName := []
  regionsByAddr := []
  regionsByIndex := OrderedMap.empty
  nextIndex := 0

def frozenCount (s : RegionFreezer) : Nat := s.regionsByIndex.size

/-! ## Freezing -/

/-- Allocation of a region and `add_region`. -/
def addRegion (s : RegionFreezer) (rgn : Region) : RegionFreezer where
  heap := Function.update s.heap s.allocated rgn
  allocated := s.allocated + 1
  regionsByName := s.regionsByName.emplace rgn.name s.allocated
  regionsByAddr := s.regionsByAddr.emplace rgn.addr s.allocated
  regionsByIndex := s.regionsByIndex.emplace rgn.index s.allocated
  nextIndex := add64 s.nextIndex 1

def freeze (s : RegionFreezer) (name : String) (addr : Nat) (data : Bytes) (enable : Bool) :
    RegionFreezer :=
  s.addRegion (Region.new name s.nextIndex addr data enable)

def freezeArray (s : RegionFreezer) (name : String) (baseAddr maxItems : Nat)
    (data dataMask : Bytes) (nullData nullDataMask : Option Bytes) (enable : Bool) :
    RegionFreezer :=
  s.addRegion
    (Region.newArray name s.nextIndex baseAddr maxItems data dataMask nullData nullDataMask enable)

/-! ## Unfreezing -/

def unfreezeName (s : RegionFreezer) (name : String) : RegionFreezer × Nat :=
  let its := s.regionsByName.equalRange name
  let (s, numDeleted) := its.foldl (fun (s, numDeleted) p =>
    ({ s with
        regionsByAddr := s.regionsByAddr.eraseEntry (s.heap p).addr p
        regionsByIndex := s.regionsByIndex.erase (s.heap p).index }, numDeleted + 1)) (s, 0)
  ({ s with regionsByName := s.regionsByName.eraseKey name }, numDeleted)

def unfreezeAddr (s : RegionFreezer) (addr : Nat) : RegionFreezer × Nat :=
  let its := s.regionsByAddr.equalRange addr
  let (s, numDeleted) := its.foldl (fun (s, numDeleted) p =>
    ({ s with
        regionsByName := s.regionsByName.eraseEntry (s.heap p).name p
        regionsByIndex := s.regionsByIndex.erase (s.heap p).index }, numDeleted + 1)) (s, 0)
  ({ s with regionsByAddr := s.regionsByAddr.eraseKey addr }, numDeleted)

def unfreezeIndex (s : RegionFreezer) (index : Nat) : RegionFreezer × Bool :=
  match s.regionsByIndex.find? index with
  | none => (s, false)
  | some p =>
    ({ s with
        regionsByName := s.regionsByName.eraseEntry (s.heap p).name p
        regionsByAddr := s.regionsByAddr.eraseEntry (s.heap p).addr p
        regionsByIndex := s.regionsByIndex.erase index }, true)

/-- `unfreeze_all` clears `regions_by_name` twice and `regions_by_addr` not at all. -/
def unfreezeAll (s : RegionFreezer) : RegionFreezer × Nat :=
  ({ s with regionsByName := [], regionsByIndex := OrderedMap.empty }, s.regionsByIndex.size)

/-! ## Enabling -/

/-- The loop of the functions that enable or disable a range of regions. -/
def setEnable (s : RegionFreezer) (its : List Nat) (enable : Bool) : RegionFreezer × Nat :=
  its.foldl (fun (s, numChanged) p =>
    if (s.heap p).enable = enable then (s, numChanged)
    else ({ s with heap := Function.update s.heap p { s.heap p with enable := enable } },
      numChanged + 1)) (s, 0)

def enableName (s : RegionFreezer) (name : String) (enable : Bool) : RegionFreezer × Nat :=
  s.setEnable (s.regionsByName.equalRange name) enable

def enableAddr (s : RegionFreezer) (addr : Nat) (enable : Bool) : RegionFreezer × Nat :=
  s.setEnable (s.regionsByAddr.equalRange addr) enable

def enableIndex (s : RegionFreezer) (index : Nat) (enable : Bool) : RegionFreezer × Bool :=
  match s.regionsByIndex.find? index with
  | none => (s, false)
  | some p =>
    if (s.heap p).enable = enable then (s, false)
    else ({ s with heap := Function.update s.heap p { s.heap p with enable := enable } }, true)

def enableAll (s : RegionFreezer) (enable : Bool) : RegionFreezer × Nat :=
  s.setEnable (s.regionsByIndex.entries.map Prod.snd) enable

/-! ## Operations and passes -/

inductive Op where
  | freeze (name : String) (addr : Nat) (data : Bytes) (enable : Bool)
  | freezeArray (name : String) (baseAddr maxItems : Nat) (data dataMask : Bytes)
      (nullData nullDataMask : Option Bytes) (enable : Bool)
  | unfreezeName (name : String)
  | unfreezeAddr (addr : Nat)
  | unfreezeIndex (index : Nat)
  | unfreezeAll
  | enableName (name : String) (enable : Bool)
  | enableAddr (addr : Nat) (enable : Bool)
  | enableIndex (index : Nat) (enable : Bool)
  | enableAll (enable : Bool)

def step (s : RegionFreezer) : Op → RegionFreezer
  | .freeze name addr data enable => s.freeze name addr data enable
  | .freezeArray name baseAddr maxItems data dataMask nullData nullDataMask enable =>
    s.freezeArray name baseAddr maxItems data dataMask nullData nullDataMask enable
  | .unfreezeName name => (s.unfreezeName name).1
  | .unfreezeAddr addr => (s.unfreezeAddr addr).1
  | .unfreezeIndex index => (s.unfreezeIndex index).1
  | .unfreezeAll => s.unfreezeAll.1
  | .enableName name enable => (s.enableName name enable).1
  | .enableAddr addr enable => (s.enableAddr addr enable).1
  | .enableIndex index enable => (s.enableIndex index enable).1
  | .enableAll enable => (s.enableAll enable).1

def run (s : RegionFreezer) (ops : List Op) : RegionFreezer := ops.foldl step s

/-- The loop body of `run_write_thread`, with the regions written so far. -/
def writeEntry {σ : Type} (A : Adapter σ) :
    RegionFreezer × σ × List Nat → Nat × Nat → RegionFreezer × σ × List Nat
  | (s, mem, written), (_, p) =>
    if (s.heap p).enable then
      let (rgn, mem) := (s.heap p).write A mem
      ({ s with heap := Function.update s.heap p rgn }, mem, written ++ [p])
    else (s, mem, written)

/-- One pass of `run_write_thread`, with the regions it writes. -/
def writePass {σ : Type} (A : Adapter σ) (s : RegionFreezer) (mem : σ) :
    RegionFreezer × σ × List Nat :=
  s.regionsByIndex.entries.foldl (writeEntry A) (s, mem, [])

end RegionFreezer
end Memwatch
