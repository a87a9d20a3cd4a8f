import Memwatch.Freezer.Model
import Memwatch.Lib.Failures
import Memwatch.Search.Display
import Memwatch.Shell.Text

/-!
# `MemwatchShell`

The state of the shell of `MemwatchShell.cc` and its commands that open, narrow
and close searches. A command that throws keeps what it has done until then;
`execute_command` reports the exception, and the shell goes on. What a command
reads of the target process is an argument of it. Output is left out.
-/

namespace Memwatch

open Lib Text

namespace MemorySearch

/-! ## Names of types and predicates -/

def searchTypeNames : List (String × SearchType) := [
  ("u8", .uint8), ("uint8", .uint8), ("uint8_t", .uint8),
  ("u16", .uint16), ("uint16", .uint16), ("uint16_t", .uint16),
  ("ru16", .uint16Re), ("ruint16", .uint16Re), ("ruint16_t", .uint16Re),
  ("u32", .uint32), ("uint32", .uint32), ("uint32_t", .uint32),
  ("ru32", .uint32Re), ("ruint32", .uint32Re), ("ruint32_t", .uint32Re),
  ("u64", .uint64), ("uint64", .uint64), ("uint64_t", .uint64),
  ("ru64", .uint64Re), ("ruint64", .uint64Re), ("ruint64_t", .uint64Re),
  ("s8", .int8), ("i8", .int8), ("d8", .int8), ("int8", .int8), ("int8_t", .int8),
  ("s16", .int16), ("i16", .int16), ("d16", .int16), ("int16", .int16), ("int16_t", .int16),
  ("rs16", .int16Re), ("ri16", .int16Re), ("rd16", .int16Re), ("rint16", .int16Re),
  ("rint16_t", .int16Re),
  ("s32", .int32), ("i32", .int32), ("d32", .int32), ("int32", .int32), ("int32_t", .int32),
  ("rs32", .int32Re), ("ri32", .int32Re), ("rd32", .int32Re), ("rint32", .int32Re),
  ("rint32_t", .int32Re),
  ("s64", .int64), ("i64", .int64), ("d64", .int64), ("int64", .int64), ("int64_t", .int64),
  ("rs64", .int64Re), ("ri64", .int64Re), ("rd64", .int64Re), ("rint64", .int64Re),
  ("rint64_t", .int64Re),
  ("f", .float), ("fl", .float), ("flt", .float), ("float", .float),
  ("f32", .float), ("fl32", .float), ("flt32", .float), ("float32", .float),
  ("rf", .floatRe), ("rfl", .floatRe), ("rflt", .floatRe), ("rfloat", .floatRe),
  ("rf32", .floatRe), ("rfl32", .floatRe), ("rflt32", .floatRe), ("rfloat32", .floatRe),
  ("f64", .double), ("fl64", .double), ("flt64", .double), ("float64", .double),
  ("d", .double), ("db", .double), ("dbl", .double), ("double", .double),
  ("rf64", .doubleRe), ("rfl64", .doubleRe), ("rflt64", .doubleRe), ("rfloat64", .doubleRe),
  ("rd", .doubleRe), ("rdb", .doubleRe), ("rdbl", .doubleRe), ("rdouble", .doubleRe),
  ("a", .data), ("s", .data), ("str", .data), ("string", .data)]

def searchTypeForName (name : String) : Except Exception SearchType :=
  match searchTypeNames.lookup name with
  | some type => .ok type
  | none => .error (outOfRange ("no type with name " ++ name))

def searchPredicateNames : List (String × Predicate) := [
  ("<", .less), ("!>=", .less),
  (">", .greater), ("!<=", .greater),
  ("<=", .lessOrEqual), ("!>", .lessOrEqual),
  (">=", .greaterOrEqual), ("!<", .greaterOrEqual),
  ("=", .equal), ("==", .equal), ("===", .equal),
  ("!=", .notEqual), ("<>", .notEqual),
  ("$", .flag), ("&", .flag),
  (".", .all)]

def searchPredicateForName (name : String) : Except Exception Predicate :=
  match searchPredicateNames.lookup name with
  | some predicate => .ok predicate
  | none => .error (outOfRange ("no predicate with name " ++ name))

end MemorySearch

/-- Why a command does not get to its end: an exception, or undefined behaviour,
which is an erasure past the end of a vector of iterations, a look at an argument
that is not there, or what stops a search. -/
inductive Fault where
  | exception (e : Exception)
  | badErase
  | noArgument
  | search (stop : Stop)
  deriving DecidableEq

def Fault.ofStop : Stop → Fault
  | .invalidArgument what => .exception (invalidArgument what)
  | stop => .search stop

instance : MonadLift (Except Exception) (Except Fault) where
  monadLift x := x.mapError .exception

/-- The target process as a command finds it, and the time. -/
structure Target where
  getAllRegions : Except Exception (List Region)
  getTargetRegions : List Nat → Except Exception (List Region)
  read : (addr size : Nat) → Except Exception Bytes
  now : String

def idleTarget : Target where
  getAllRegions := .ok []
  getTargetRegions _ := .ok []
  read _ size := .ok (List.replicate size 0)
  now := "now"

structure MemwatchShell where
  processName : String
  pauseTarget : Bool
  interactive : Bool
  run : Bool
  useColor : Bool
  maxResults : UInt64
  maxSearchIterations : UInt64
  nameToSearches : OrderedMap String (List MemorySearch)
  currentSearchName : String
  findResults : List Nat
  freezer : RegionFreezer

namespace MemwatchShell

def new (processName : String) (maxResults maxSearchIterations : UInt64)
    (pauseTarget interactive useColor : Bool) : MemwatchShell where
  processName := processName
  pauseTarget := pauseTarget
  interactive := interactive
  run := true
  useColor := useColor
  maxResults := maxResults
  maxSearchIterations := maxSearchIterations
  nameToSearches := OrderedMap.empty
  currentSearchName := ""
  findResults := []
  freezer := RegionFreezer.new

/-! ## What commands read -/

section Reads

variable (st : MemwatchShell)

def checkInteractive : Except Exception Unit :=
  if st.interactive then .ok ()
  else .error (invalidArgument "this command can only be used in interactive mode")

def getSearches (name : Option String) : Except Exception (List MemorySearch) :=
  match st.nameToSearches.find? (name.getD st.currentSearchName) with
  | some searches => .ok searches
  | none => .error (invalidArgument "search not found, or no search is open")

def getLatestSearch (name : Option String) : Except Exception MemorySearch :=
  catching .outOfRange
    (do
      let searches ← st.getSearches name
      match searches.getLast? with
      | some search => pure search
      | none => throw (outOfRange "vector"))
    (throw (invalidArgument "search does not contain any iterations"))

def getAddrFromCommand (args : String) : Except Exception Nat :=
  if charAt args 0 = 'x' ∨ charAt args 0 = 's' then do
    let (index, numEndPos) ← stoull (substr args 1) 0
    let searchName ←
      if numEndPos + 1 < args.length then
        if charAt args (numEndPos + 1) = '@' then pure (substr args (numEndPos + 2))
        else if charAt args (numEndPos + 1) ≠ ' ' then
          throw (invalidArgument "extra characters after result id")
        else pure ""
      else pure ""
    let search ← st.getLatestSearch (if searchName = "" then none else some searchName)
    match search.results[index]? with
    | some result => pure result
    | none => throw (invalidArgument "search does not have enough results")
  else if charAt args 0 = 't' then do
    let (index, numEndPos) ← stoull (substr args 1) 0
    if numEndPos + 1 < args.length ∧ charAt args (numEndPos + 1) ≠ ' ' then
      throw (invalidArgument "extra characters after result id")
    else
      match st.findResults[index]? with
      | some result => pure result
      | none => throw (invalidArgument "find does not have enough results")
  else do
    let (addr, _) ← stoull args 16
    pure addr

end Reads

section Arguments

variable [PhosgText]

/-- There is no limit if `maxArgs` is 0. -/
def splitArgs (argsStr : String) (minArgs maxArgs : Nat) : Except Exception (List String) :=
  let args := PhosgText.split argsStr ' '
  if args.length < minArgs then .error (invalidArgument "not enough arguments")
  else if maxArgs ≠ 0 ∧ args.length > maxArgs then .error (invalidArgument "not enough arguments")
  else .ok args

/-- The value is built in a buffer of eight bytes. -/
def readTypedValue [Phosg] [FloatText] (type : SearchType) (s : String) :
    Except Exception Bytes := do
  let buffer : Bytes ←
    if type.isIntegerSearchType then do
      let (value, _) ← stoull s 0
      pure (toLE 8 value)
    else if type = .float ∨ type = .floatRe then do
      let value ← FloatText.stof s
      pure (toLE 4 value.toNat ++ List.replicate 4 0)
    else if type = .double ∨ type = .doubleRe then do
      let value ← FloatText.stod s
      pure (toLE 8 value.toNat)
    else if type = .data then do
      let (data, _) ← PhosgText.parseDataString s
      pure data
    else pure (List.replicate 8 0)
  let size := type.valueSizeForSearchType
  let buffer :=
    if type.isReverseEndianSearchType then
      toLE size (Phosg.bswap (8 * size) (BitVec.ofNat _ (leNat (buffer.take size)))).toNat ++
        buffer.drop size
    else buffer
  pure (if type = .data then buffer else buffer.take size)

end Arguments

/-! ## Commands -/

/-- A command changes the shell, and may fail on the way. -/
abbrev Command := EStateM Fault MemwatchShell

/-- `searches.erase(searches.begin(), searches.begin() + num_to_delete)`, where
`num_to_delete` is the difference of the number of iterations and `count` as a
signed number. -/
def retain (searches : List MemorySearch) (count : Nat) : Except Fault (List MemorySearch) :=
  let numToDelete := (BitVec.ofNat 64 searches.length - BitVec.ofNat 64 count).toInt
  if 0 < numToDelete then
    if numToDelete ≤ searches.length then .ok (searches.drop numToDelete.toNat)
    else .error .badErase
  else .ok searches

/-- A vector of iterations is changed in place. -/
def setSearches (st : MemwatchShell) (name : String) (searches : List MemorySearch) :
    MemwatchShell :=
  { st with nameToSearches := (st.nameToSearches.erase name).emplace name searches }

section Search

variable [Phosg] [PhosgText] [FloatText]

/-- The name of the search, the predicate, the value and the annotation without
the time. -/
def searchArgs (currentSearchName arg : String) (args : List String) :
    Except Exception (String × Predicate × String × String) :=
  catching .outOfRange
    (do
      let predicate ← MemorySearch.searchPredicateForName arg
      match args with
      | value :: _ => pure (currentSearchName, predicate, value, arg ++ " " ++ value ++ " at ")
      | [] => pure (currentSearchName, predicate, "", arg ++ " previous at "))
    (match args with
      | [] => throw (invalidArgument "not enough arguments")
      | arg' :: args => do
        let predicate ← MemorySearch.searchPredicateForName arg'
        match args with
        | value :: _ => pure (arg, predicate, value, arg' ++ " " ++ value ++ " at ")
        | [] => pure (arg, predicate, "", arg' ++ " previous at "))

/-- What `search` reads before it searches: the name of the search, its latest
iteration with the new annotation, and the arguments of `update`. -/
def prepareUpdate (st : MemwatchShell) (target : Target) (arg : String) (args : List String) :
    Except Exception (String × MemorySearch × MemorySearch.Update) := do
  let (name, predicate, valueText, annotation) ← searchArgs st.currentSearchName arg args
  let searches ← st.getSearches (some name)
  match searches.getLast? with
  | none => throw (runtimeError "search has no iterations")
  | some latestSearch =>
    let value ← if valueText = "" then pure [] else readTypedValue latestSearch.type valueText
    (latestSearch.checkCanUpdate predicate value).mapError invalidArgument
    let regions ←
      if latestSearch.resultsValid then target.getTargetRegions latestSearch.results
      else target.getAllRegions
    pure (name, { latestSearch with annotation := annotation ++ target.now },
      ⟨regions, predicate, value, st.maxResults.toNat⟩)

/-- `search` up to its new iteration: the name of the search and the iteration. -/
def newIteration (st : MemwatchShell) (target : Target) (argsStr : String) :
    Except Fault (String × MemorySearch) := do
  let args ← splitArgs argsStr 1 3
  match args with
  | [] => throw .noArgument
  | arg :: args =>
    let (name, search, u) ← prepareUpdate st target arg args
    let newSearch ←
      (search.update u.newMemory u.predicate u.data u.maxResults).result.mapError Fault.ofStop
    pure (name, newSearch)

def commandSearch (target : Target) (argsStr : String) : Command Unit := do
  let st ← get
  st.checkInteractive
  let (name, newSearch) ← newIteration st target argsStr
  let searches ← st.getSearches (some name)
  let searches ← retain (searches ++ [newSearch]) st.maxSearchIterations.toNat
  set (st.setSearches name searches)

/-- A named search that becomes the current one closes the unnamed search. -/
def setCurrent (st : MemwatchShell) (name : String) : MemwatchShell :=
  { st with
    currentSearchName := name
    nameToSearches := if name = "" then st.nameToSearches else st.nameToSearches.erase "" }

/-- A new search that replaces the search of its name and becomes the current one. -/
def openNew (st : MemwatchShell) (type : SearchType) (allMemory : Bool) (name : String) :
    MemwatchShell :=
  (st.setSearches name [MemorySearch.new type allMemory]).setCurrent name

/-- What `open` does with its arguments before any search: the shell, and the
arguments of the initial search. -/
def opening (st : MemwatchShell) : List String → Except Exception (MemwatchShell × Option String)
  | [] => .ok (st, none)
  | arg :: args =>
    if (st.nameToSearches.find? arg).isSome ∧ args = [] then .ok (st.setCurrent arg, none)
    else do
      let type ← catching .invalidArgument (MemorySearch.searchTypeForName arg)
        (throw (invalidArgument ("no search named " ++ arg)))
      let st := st.openNew type (find arg '!').isSome (args.headD "")
      match args with
      | [_, predicate] => pure (st, some predicate)
      | _ :: predicate :: value :: _ => pure (st, some (predicate ++ " " ++ value))
      | _ => pure (st, none)

def commandOpen (target : Target) (argsStr : String) : Command Unit := do
  let st ← get
  st.checkInteractive
  let args ← splitArgs argsStr 0 4
  let (st, initialSearch) ← st.opening args
  set st
  match initialSearch with
  | none => pure ()
  | some argsStr => commandSearch target argsStr

end Search

section Commands

variable [PhosgText]

def commandFork (argsStr : String) : Command Unit := do
  let st ← get
  st.checkInteractive
  let args ← splitArgs argsStr 1 2
  match args with
  | [] => throw .noArgument
  | [name] =>
    if name = st.currentSearchName then
      throw (.exception (invalidArgument "can't fork a search into itself"))
    else do
      let currentSearches ← st.getSearches none
      set { st.setSearches name currentSearches with currentSearchName := name }
  | name1 :: name2 :: _ =>
    -- the target is erased before the source is looked up
    let st := { st with nameToSearches := st.nameToSearches.erase name2 }
    set st
    match st.nameToSearches.find? name1 with
    | some searches => set { st with nameToSearches := st.nameToSearches.emplace name2 searches }
    | none => throw (.exception (outOfRange ("no search named " ++ name1)))

def commandResults (argsStr : String) : Command Unit := do
  let st ← get
  st.checkInteractive
  let search ← st.getLatestSearch (if argsStr = "" then none else some argsStr)
  if search.memory.isNone then
    throw (.exception (invalidArgument "search not found, or no search currently open"))
  else pure ()

/-- The addresses of one argument of `delete`. -/
def deleteRange (st : MemwatchShell) (arg : String) : Except Exception (Nat × Nat) := do
  let (addr1, addr2) ←
    match find arg '-' with
    | some dashPos => do
      let addr1 ← st.getAddrFromCommand (substrTo arg dashPos)
      let addr2 ← st.getAddrFromCommand (substr arg (dashPos + 1))
      pure (addr1, addr2)
    | none => do
      let addr ← st.getAddrFromCommand arg
      pure (addr, addr)
  if addr1 > addr2 then throw (invalidArgument "range is specified in decreasing order")
  else pure (addr1, addr2)

def deleteRanges (search : MemorySearch) (toDelete : List (Nat × Nat)) :
    Except Fault MemorySearch :=
  toDelete.foldlM (fun search range =>
    (search.deleteResults range.1 range.2).mapError Fault.ofStop) search

def commandDelete (argsStr : String) : Command Unit := do
  let st ← get
  st.checkInteractive
  let search ← st.getLatestSearch none
  let args ← splitArgs argsStr 1 0
  let toDelete ← (args.mapM st.deleteRange : Except Exception _)
  let search ← deleteRanges search toDelete
  let searches ← st.getSearches none
  set (st.setSearches st.currentSearchName (searches.dropLast ++ [search]))

/-- The name of a search, if there are two arguments, and the count. -/
def truncateArgs : List String → Option String × String
  | [name, countText] => (some name, countText)
  | args => (none, args.headD "")

def commandTruncate (argsStr : String) : Command Unit := do
  let st ← get
  st.checkInteractive
  let args ← splitArgs argsStr 1 2
  let name := (truncateArgs args).1
  let countText := (truncateArgs args).2
  let searches ← st.getSearches name
  let countToRetain ← stoll countText 10
  if countToRetain ≤ 0 then
    throw (.exception (invalidArgument "retained iteration count must be positive"))
  else do
    let searches ← retain searches countToRetain.toNat
    set (st.setSearches (name.getD st.currentSearchName) searches)

def commandUndo (argsStr : String) : Command Unit := do
  let st ← get
  st.checkInteractive
  let name := if argsStr = "" then none else some argsStr
  let searches ← st.getSearches name
  if searches.length ≤ 1 then throw (.exception (invalidArgument "cannot undo initial search"))
  else set (st.setSearches (name.getD st.currentSearchName) searches.dropLast)

def commandClose (argsStr : String) : Command Unit := do
  let st ← get
  st.checkInteractive
  if argsStr = "" then
    if (st.nameToSearches.find? st.currentSearchName).isNone then
      throw (.exception (invalidArgument "no search currently open"))
    else
      set { st with
        nameToSearches := st.nameToSearches.erase st.currentSearchName
        currentSearchName := "" }
  else if (st.nameToSearches.find? argsStr).isNone then
    throw (.exception (invalidArgument ("no open search named " ++ argsStr)))
  else
    set { st with
      nameToSearches := st.nameToSearches.erase argsStr
      currentSearchName := if st.currentSearchName = argsStr then "" else st.currentSearchName }

/-- The shell with a field set by `state`. -/
def setField (st : MemwatchShell) (field value : String) : Except Exception MemwatchShell :=
  if field = "use_color" then do
    let n ← stoi value 10
    pure { st with useColor := n ≠ 0 }
  else if field = "process_name" then pure { st with processName := value }
  else if field = "pause_target" then do
    let n ← stoi value 10
    pure { st with pauseTarget := n ≠ 0 }
  else if field = "max_results" then do
    let (n, _) ← stoull value 10
    pure { st with maxResults := n.toUInt64 }
  else if field = "max_search_iterations" then do
    let (n, _) ← stoull value 10
    pure { st with maxSearchIterations := n.toUInt64 }
  else if field = "run" then do
    let n ← stoi value 10
    pure { st with run := n ≠ 0 }
  else throw (invalidArgument "unknown or read-only field")

def commandState (argsStr : String) : Command Unit := do
  let st ← get
  if argsStr = "" then pure ()
  else do
    let args ← splitArgs argsStr 2 2
    let st ← st.setField (args.headD "") (args.getD 1 "")
    set st

end Commands

/-! ## Runs -/

/-- The commands that read or change the searches or their limits. -/
inductive Call where
  | openSearch (argsStr : String)
  | fork (argsStr : String)
  | results (argsStr : String)
  | delete (argsStr : String)
  | search (argsStr : String)
  | truncate (argsStr : String)
  | undo (argsStr : String)
  | close (argsStr : String)
  | state (argsStr : String)
  deriving DecidableEq

variable [Phosg] [PhosgText] [FloatText]

def Call.command (target : Target) : Call → Command Unit
  | openSearch argsStr => commandOpen target argsStr
  | fork argsStr => commandFork argsStr
  | results argsStr => commandResults argsStr
  | delete argsStr => commandDelete argsStr
  | search argsStr => commandSearch target argsStr
  | truncate argsStr => commandTruncate argsStr
  | undo argsStr => commandUndo argsStr
  | close argsStr => commandClose argsStr
  | state argsStr => commandState argsStr

/-- `execute_command`. -/
def executeCommand (st : MemwatchShell) (target : Target) (call : Call) :
    Except Fault MemwatchShell :=
  match call.command target st with
  | .ok () st' => .ok st'
  | .error (.exception _) st' => .ok st'
  | .error fault _ => .error fault

def executeCommands (st : MemwatchShell) (calls : List (Target × Call)) :
    Except Fault MemwatchShell :=
  calls.foldlM (fun st call => st.executeCommand call.1 call.2) st

end MemwatchShell
end Memwatch
