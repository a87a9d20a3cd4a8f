import Memwatch.Lib.Traced
import Memwatch.Search.Evaluators

/-!
# `MemorySearch`

`check_can_update`, `update` and `delete_results` of `MemorySearch.cc`. A run
of `update` emits every call of the evaluator, with its pointers as offsets
into the buffer they point into, and stops where an evaluator would dereference
a byte outside its buffers. The region indexes of the merges are the rests of
the region lists from those indexes on. Progress output is left out.
-/

namespace Memwatch

open Lib Traced

/-- What a pointer points into: a region's data, or the value searched for. -/
inductive Buffer where
  | region (r : Region)
  | value (data : Bytes)
  deriving DecidableEq

def Buffer.bytes : Buffer → Bytes
  | region r => r.data
  | value data => data

structure Ptr where
  base : Buffer
  off : Nat
  deriving DecidableEq

namespace Ptr

/-- The bytes from the pointer to the end of its buffer. -/
def bytes (p : Ptr) : Bytes := p.base.bytes.drop p.off

/-- The next `n` bytes lie inside the buffer. -/
def Holds (p : Ptr) (n : Nat) : Prop := p.off + n ≤ p.base.bytes.length

instance (p : Ptr) (n : Nat) : Decidable (p.Holds n) := inferInstanceAs (Decidable (_ ≤ _))

end Ptr

/-- A call `evaluator(current, target, size)` that decides about `addr`. -/
structure EvalCall where
  addr : Nat
  current : Ptr
  target : Ptr
  size : Nat
  deriving DecidableEq

/-- Why an operation ends without a result: an exception, undefined behaviour,
or the step bound of the model. -/
inductive Stop where
  | invalidArgument (what : String)
  | strayRead
  | badErase
  | outOfFuel
  deriving DecidableEq

abbrev Scan := Traced EvalCall Stop

/-- The evaluator's answer, if it reads inside its buffers. -/
def EvalCall.test (ev : Evaluator) (c : EvalCall) : Except Stop Bool :=
  if c.current.Holds (ev.reads c.size) ∧ c.target.Holds (ev.reads c.size) then
    .ok (ev.run c.current.bytes c.target.bytes c.size)
  else .error .strayRead

structure MemorySearch where
  type : SearchType
  resultsValid : Bool
  allMemory : Bool
  memory : Option (List Region)
  prevSize : Nat
  results : List Nat
  annotation : String
  deriving DecidableEq

namespace MemorySearch

def new (type : SearchType) (allMemory : Bool) : MemorySearch where
  type := type
  resultsValid := false
  allMemory := allMemory
  memory := none
  prevSize := 0
  results := []
  annotation := ""

def checkCanUpdate [Phosg] (s : MemorySearch) (predicate : Predicate) (data : Bytes) :
    Except String Unit :=
  if (s.type.evaluator? predicate).isNone then .error "predicate not valid for search type"
  else if s.type ≠ .data ∧ data ≠ [] ∧ data.length ≠ s.type.valueSizeForSearchType then
    .error "provided data has incorrect size"
  else if s.memory.isNone ∧ data = [] ∧ predicate ≠ .all then
    .error "initial searches must have a value or null predicate"
  else if s.memory.isNone ∧ s.type = .data ∧ data = [] then
    .error "initial data search must have nonzero size"
  else .ok ()

/-! ## First search of a known-value search -/

section First

variable (ev : Evaluator) (fieldSize : Nat) (data : Bytes) (maxResults : Nat)

/-- The loop over the cells of one region, from offset `y` on. -/
def scanCells (region : Region) : Nat → Nat → List Nat → Scan (List Nat)
  | 0, _, _ => stop .outOfFuel
  | fuel + 1, y, results =>
    if y < sub64 region.size data.length ∧ results.length < maxResults then do
      let hit ← query (EvalCall.test ev)
        ⟨add64 region.addr y, ⟨.region region, y⟩, ⟨.value data, 0⟩, data.length⟩
      if hit then
        let results := results ++ [add64 region.addr y]
        if results.length ≥ maxResults then pure results
        else scanCells region fuel (add64 y fieldSize) results
      else scanCells region fuel (add64 y fieldSize) results
    else pure results

def firstScan : List Region → List Nat → Scan (List Nat)
  | [], results => pure results
  | region :: regions, results =>
    if region.data.isEmpty then firstScan regions results
    else do
      let results ← scanCells ev fieldSize data maxResults region (region.data.length + 1) 0 results
      firstScan regions results

end First

/-! ## Second search of an unknown-value search -/

section Second

variable (ev : Evaluator) (fieldSize : Nat) (data : Bytes) (prevSize : Nat)

/-- The call that compares `new_region` at offset `y` with the value, or with
`old_region` at offset `old_region_y` if there is no value. -/
def callAt (newRegion oldRegion : Region) (addr y oldRegionY : Nat) : EvalCall where
  addr := addr
  current := ⟨.region newRegion, y⟩
  target := if data.isEmpty then ⟨.region oldRegion, oldRegionY⟩ else ⟨.value data, 0⟩
  size := if data.isEmpty then prevSize else data.length

/-- The loop over the cells of one new region, from offset `y` and the rest
`olds` of the old regions on. -/
def scanRegion (newRegion : Region) :
    Nat → Nat → List Region → List Nat → Scan (List Region × List Nat)
  | 0, _, _, _ => stop .outOfFuel
  | fuel + 1, y, olds, results =>
    if y < newRegion.size then
      if newRegion.data.isEmpty then
        scanRegion newRegion fuel (add64 y fieldSize) olds results
      else
        match olds.dropWhile fun old =>
          old.data.isEmpty || decide (old.endAddr ≤ add64 newRegion.addr y) with
        | [] => pure ([], results)
        | oldRegion :: rest =>
          if add64 newRegion.addr y < oldRegion.addr then
            -- one field short of the old region: the loop increment reaches it
            let y := sub64 (sub64 oldRegion.addr newRegion.addr) fieldSize
            scanRegion newRegion fuel (add64 y fieldSize) (oldRegion :: rest) results
          else do
            let oldRegionY := sub64 (add64 newRegion.addr y) oldRegion.addr
            let hit ← query (EvalCall.test ev)
              (callAt data prevSize newRegion oldRegion (add64 newRegion.addr y) y oldRegionY)
            scanRegion newRegion fuel (add64 y fieldSize) (oldRegion :: rest)
              (if hit then results ++ [add64 newRegion.addr y] else results)
    else pure (olds, results)

def secondScan : List Region → List Region → List Nat → Scan (List Nat)
  | [], _, results => pure results
  | newRegion :: regions, olds, results => do
    let (olds, results) ←
      scanRegion ev fieldSize data prevSize newRegion (newRegion.size + 1) 0 olds results
    secondScan regions olds results

end Second

/-! ## Later searches -/

section Verify

variable (ev : Evaluator) (data : Bytes) (prevSize : Nat)

/-- The loop over the results: each result, or `0` in the place of a deleted one. -/
def markDeleted : List Region → List Region → List Nat → Scan (List Nat)
  | _, _, [] => pure []
  | news, olds, result :: results => do
    let news := news.dropWhile fun r => decide (r.endAddr ≤ result)
    let olds := olds.dropWhile fun r => decide (r.endAddr ≤ result)
    let mark ← match news, olds with
      | newRegion :: _, oldRegion :: _ =>
        if newRegion.addr > result ∨ oldRegion.addr > result then pure 0
        else if newRegion.data.isEmpty then pure 0
        else do
          let hit ← query (EvalCall.test ev) (callAt data prevSize newRegion oldRegion result
            (sub64 result newRegion.addr) (sub64 result oldRegion.addr))
          pure (if hit then result else 0)
      | _, _ => pure 0
    let marks ← markDeleted news olds results
    pure (mark :: marks)

/-- The second pass: compact the results that are not `0`. -/
def removeDeleted (marks : List Nat) : List Nat := marks.filter (· ≠ 0)

end Verify

/-- The end of `update`: save the size of the value and the memory contents. -/
def save (s : MemorySearch) (newMemory : List Region) (data : Bytes) (results : List Nat) :
    MemorySearch :=
  { s with resultsValid := true, prevSize := data.length, memory := some newMemory, results }

def update [Phosg] (s : MemorySearch) (newMemory : List Region) (predicate : Predicate)
    (data : Bytes) (maxResults : Nat) : Scan MemorySearch :=
  match s.checkCanUpdate predicate data, s.type.evaluator? predicate with
  | .error what, _ => stop (.invalidArgument what)
  | .ok (), none => stop (.invalidArgument "predicate not valid for search type")
  | .ok (), some evaluator =>
    match s.memory with
    | none =>
      if predicate = .all then pure { s with memory := some newMemory }
      else do
        let results ← firstScan evaluator s.type.fieldSize data maxResults newMemory s.results
        pure (s.save newMemory data results)
    | some memory =>
      if !s.resultsValid then do
        let results ←
          secondScan evaluator s.type.fieldSize data s.prevSize newMemory memory s.results
        pure (s.save newMemory data results)
      else do
        let marks ← markDeleted evaluator data s.prevSize newMemory memory s.results
        pure (s.save newMemory data (removeDeleted marks))

/-! ## Deleting results -/

/-- `std::lower_bound` on an ascending list. -/
def lowerBound (l : List Nat) (x : Nat) : Nat := (l.takeWhile fun y => decide (y < x)).length

/-- `delete_results`: erasing from an iterator to one before it is undefined. -/
def deleteResults (s : MemorySearch) (start last : Nat) : Except Stop MemorySearch :=
  let startIt := lowerBound s.results start
  let endIt := lowerBound s.results (add64 last 1)
  if startIt ≤ endIt then
    .ok { s with results := s.results.take startIt ++ s.results.drop endIt }
  else .error .badErase

/-! ## Runs of updates -/

/-- The arguments of one `update`. -/
structure Update where
  newMemory : List Region
  predicate : Predicate
  data : Bytes
  maxResults : Nat

def runUpdates [Phosg] : MemorySearch → List Update → Scan MemorySearch
  | s, [] => pure s
  | s, u :: ups =>
    s.update u.newMemory u.predicate u.data u.maxResults >>= fun s => runUpdates s ups

/-- `P` holds of every update of a run, in the state it starts from. -/
def Along [Phosg] (P : MemorySearch → Update → Prop) : MemorySearch → List Update → Prop
  | _, [] => True
  | s, u :: ups => P s u ∧ ∀ s',
    (s.update u.newMemory u.predicate u.data u.maxResults).result = .ok s' → Along P s' ups

/-- Along a run of steps that satisfy `R`, properties that are equivalent under an
invariant hold together. -/
theorem along_congr [Phosg] {I : MemorySearch → Prop} {R P Q : MemorySearch → Update → Prop}
    (hPQ : ∀ {s u}, I s → R s u → (P s u ↔ Q s u))
    (hI : ∀ {s u s'}, I s → R s u → P s u →
      (s.update u.newMemory u.predicate u.data u.maxResults).result = .ok s' → I s')
    {s : MemorySearch} {ups : List Update} (hs : I s) (hR : Along R s ups) :
    Along P s ups ↔ Along Q s ups := by
  induction ups generalizing s with
  | nil => exact Iff.rfl
  | cons u ups ih =>
    obtain ⟨hRu, hRnext⟩ := hR
    have hrest : ∀ s', P s u →
        (s.update u.newMemory u.predicate u.data u.maxResults).result = .ok s' →
        (Along P s' ups ↔ Along Q s' ups) :=
      fun s' hP hs' => ih (hI hs hRu hP hs') (hRnext s' hs')
    constructor
    · rintro ⟨hP, hnext⟩
      exact ⟨(hPQ hs hRu).mp hP, fun s' hs' => (hrest s' hP hs').mp (hnext s' hs')⟩
    · rintro ⟨hQ, hnext⟩
      have hP := (hPQ hs hRu).mpr hQ
      exact ⟨hP, fun s' hs' => (hrest s' hP hs').mpr (hnext s' hs')⟩

end MemorySearch
end Memwatch
