import Memwatch.Shell.Model
import Memwatch.Shell.Numbers

/-!
# Freezing

The `freeze` command, the command a frozen region prints, and the table of the
commands.
-/

namespace Memwatch

open Lib Text

/-- What `%s` prints: a text up to its first null character. -/
def Text.cString (s : String) : String := String.ofList (s.toList.takeWhile (· ≠ '\x00'))

/-- `print_command` of a `Region` and of an `ArrayRegion`, without the end of the line. -/
def RegionFreezer.Region.printCommand [PhosgText] (r : Region) : String :=
  match r.items with
  | none =>
    "f +n" ++ cString r.name ++ " " ++ printHex r.addr ++ " " ++
      cString (PhosgText.formatDataString r.data none) ++ if r.enable then "" else " +d"
  | some items =>
    "f +n" ++ cString r.name ++ " " ++ printHex r.addr ++ " +m" ++ printCount items.numItems ++
      " " ++ cString (PhosgText.formatDataString r.data (some items.dataMask)) ++
      (if r.enable then "" else " +d") ++
      if items.nullData ≠ [] ∧ items.nullDataMask ≠ [] then
        " +N" ++ cString (PhosgText.formatDataString items.nullData (some items.nullDataMask))
      else ""

namespace MemwatchShell

/-! ## `freeze` -/

/-- The variables of the loop over the arguments. -/
structure FreezeArgs where
  name : String
  addrArg : String
  addr : Nat
  arrayMaxEntries : Nat
  readSize : Nat
  dataToParse : String
  nullDataToParse : String
  readingNullDataToParse : Bool
  enable : Bool

def FreezeArgs.new : FreezeArgs := ⟨"", "", 0, 0, 0, "", "", false, true⟩

/-- The loop body. Until there is an address other than 0, what is not an option is
an address. -/
def readFreezeArg (st : MemwatchShell) (a : FreezeArgs) (arg : String) :
    Except Exception FreezeArgs :=
  if charAt arg 0 = '+' then
    if charAt arg 1 = 'n' then .ok { a with name := substr arg 2 }
    else if charAt arg 1 = 's' then do
      let (readSize, _) ← stoull (substr arg 2) 16
      pure { a with readSize := readSize }
    else if charAt arg 1 = 'm' then do
      let (arrayMaxEntries, _) ← stoull (substr arg 2) 10
      pure { a with arrayMaxEntries := arrayMaxEntries }
    else if charAt arg 1 = 'd' then .ok { a with enable := false }
    else if charAt arg 1 = 'N' then
      .ok { a with
        readingNullDataToParse := true
        nullDataToParse := a.nullDataToParse ++ substr arg 2 }
    else .error (invalidArgument ("unknown option: " ++ arg))
  else if a.addr ≠ 0 then
    if a.readingNullDataToParse then .ok { a with nullDataToParse := a.nullDataToParse ++ arg }
    else .ok { a with dataToParse := a.dataToParse ++ arg }
  else do
    let addr ← st.getAddrFromCommand arg
    pure { a with addrArg := arg, addr := addr }

/-- The name of a region that is given none. -/
def generateName (st : MemwatchShell) (addrArg : String) : Except Exception String :=
  catching .invalidArgument
    (catching .outOfRange
      (do
        let _ ← st.getLatestSearch none
        match find addrArg '@' with
        | some atPos => pure (substr addrArg (atPos + 1))
        | none => pure st.currentSearchName)
      (pure ""))
    (pure "")

/-- The name of a region is generated if none was given. -/
def freezeName (st : MemwatchShell) (a : FreezeArgs) : Except Exception String :=
  if a.name = "" then st.generateName a.addrArg else .ok a.name

structure FreezeData where
  data : Bytes
  dataMask : Bytes
  nullData : Bytes
  nullDataMask : Bytes

section

variable [PhosgText]

/-- The data is read or parsed. -/
def freezeData (target : Target) (a : FreezeArgs) : Except Exception FreezeData :=
  if a.readSize ≠ 0 then do
    let data ← target.read a.addr a.readSize
    pure ⟨data, List.replicate a.readSize 0xFF, [], []⟩
  else do
    let (data, dataMask) ← PhosgText.parseDataString a.dataToParse
    let (nullData, nullDataMask) ← PhosgText.parseDataString a.nullDataToParse
    pure ⟨data, dataMask, nullData, nullDataMask⟩

def checkFreeze (a : FreezeArgs) (d : FreezeData) : Except Exception Unit :=
  if d.data = [] then .error (invalidArgument "no data was given")
  else if d.nullData ≠ [] then
    if a.arrayMaxEntries = 0 then
      .error (invalidArgument "+m must be used if null data is given")
    else if d.nullData.length ≠ d.data.length then
      .error (invalidArgument "data and null data must have the same size")
    else .ok ()
  else .ok ()

/-- The frozen list with the new region. -/
def addToFrozenList (freezer : RegionFreezer) (name : String) (a : FreezeArgs) (d : FreezeData) :
    RegionFreezer :=
  if a.arrayMaxEntries ≠ 0 then
    if d.nullData = [] then
      freezer.freezeArray name a.addr a.arrayMaxEntries d.data d.dataMask none none a.enable
    else
      freezer.freezeArray name a.addr a.arrayMaxEntries d.data d.dataMask (some d.nullData)
        (some d.nullDataMask) a.enable
  else freezer.freeze name a.addr d.data a.enable

def commandFreeze (target : Target) (argsStr : String) : Command Unit := do
  let st ← get
  st.checkInteractive
  let args ← splitArgs argsStr 2 0
  let a ← (args.foldlM st.readFreezeArg FreezeArgs.new : Except Exception _)
  let name ← st.freezeName a
  let d ← freezeData target a
  checkFreeze a d
  set { st with freezer := addToFrozenList st.freezer name a d }

end

/-! ## The table of the commands -/

inductive Handler where
  | access | attach | close | data | delete | disable | dump | enable | find | fork | freeze
  | frozen | iterations | list | openSearch | pause | quit | read | results | resume | search
  | set | signal | state | truncate | undo | unfreeze | watch | write
  deriving DecidableEq

def commandHandlers : List (String × Handler) := [
  ("access", .access), ("acc", .access), ("a", .access),
  ("attach", .attach), ("att", .attach), ("at", .attach),
  ("close", .close), ("cls", .close), ("c", .close), ("cz", .undo),
  ("data", .data), ("delete", .delete), ("del", .delete),
  ("disable", .disable), ("dis", .disable), ("di", .disable), ("dt", .data), ("d", .disable),
  ("dump", .dump), ("dmp", .dump),
  ("enable", .enable), ("ena", .enable), ("en", .enable), ("exit", .quit), ("e", .enable),
  ("find", .find), ("fi", .find), ("fork", .fork), ("fk", .fork), ("fo", .fork),
  ("frozen", .frozen), ("fzn", .frozen), ("freeze", .freeze), ("fr", .freeze), ("f", .freeze),
  ("iterations", .iterations), ("iters", .iterations), ("its", .iterations),
  ("it", .iterations), ("i", .iterations),
  ("list", .list), ("ls", .list), ("l", .list),
  ("open", .openSearch), ("o", .openSearch), ("pause", .pause),
  ("quit", .quit), ("q", .quit), ("read", .read), ("rd", .read),
  ("results", .results), ("resume", .resume), ("res", .results), ("r", .read),
  ("search", .search), ("s", .search), ("set", .set),
  ("signal", .signal), ("sig", .signal), ("state", .state), ("st", .state),
  ("truncate", .truncate), ("trunc", .truncate), ("tr", .truncate), ("t", .find),
  ("undo", .undo), ("unfreeze", .unfreeze), ("unpause", .resume), ("u", .unfreeze),
  ("watch", .watch), ("wa", .watch), ("!", .watch),
  ("write", .write), ("wr", .write), ("w", .write),
  ("x", .results), ("-", .disable), ("+", .enable)]

variable [Phosg] [PhosgText] [FloatText]

/-- The command of a handler. `others` has the commands that are not modelled. -/
def Handler.command (others : Handler → String → Command Unit) (target : Target) :
    Handler → String → Command Unit
  | close, argsStr => commandClose argsStr
  | delete, argsStr => commandDelete argsStr
  | fork, argsStr => commandFork argsStr
  | freeze, argsStr => commandFreeze target argsStr
  | openSearch, argsStr => commandOpen target argsStr
  | results, argsStr => commandResults argsStr
  | search, argsStr => commandSearch target argsStr
  | state, argsStr => commandState argsStr
  | truncate, argsStr => commandTruncate argsStr
  | undo, argsStr => commandUndo argsStr
  | handler, argsStr => others handler argsStr

def dispatchCommand (others : Handler → String → Command Unit) (target : Target)
    (argsStr : String) : Command Unit :=
  if argsStr = "" then pure ()
  else
    let commandEnd := PhosgText.skipNonWhitespace argsStr 0
    let argsBegin := PhosgText.skipWhitespace argsStr commandEnd
    match commandHandlers.lookup (substrTo argsStr commandEnd) with
    | some handler => handler.command others target (substr argsStr argsBegin)
    | none => throw (.exception (outOfRange "unknown command"))

end MemwatchShell
end Memwatch
