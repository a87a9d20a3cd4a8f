import Memwatch.Shell.Isolated

/-!
# The command line

Options, a process, and commands whose words are separated by arguments that are `;`. The
commands are run in a shell that is not interactive, until one of them fails. How the
process of a name is found is left out.
-/

namespace Memwatch

open Lib Text MemwatchShell

structure CommandLine where
  pid : Int
  processName : String
  useColor : Bool
  pauseTarget : Bool
  allowParent : Bool
  maxResults : UInt64
  maxSearchIterations : UInt64
  numBadArguments : Nat
  commands : List String
  parsingTerminated : Bool

/-- `strtoull`: without a number it is 0, and ends where it starts. -/
def Text.strtoull (s : String) (base : Nat) : Nat × Nat :=
  match number? s base with
  | none => (0, 0)
  | some n =>
    if n.magnitude < 2 ^ 64 then
      (if n.negative then sub64 0 n.magnitude else n.magnitude, n.endPos)
    else (2 ^ 64 - 1, n.endPos)

namespace CommandLine

def new : CommandLine where
  pid := 0
  processName := ""
  useColor := true
  pauseTarget := false
  allowParent := false
  maxResults := 1024 * 1024 * 1024
  maxSearchIterations := 5
  numBadArguments := 0
  commands := []
  parsingTerminated := false

def addWord (commands : List String) (arg : String) : List String :=
  if arg = ";" then commands ++ [""]
  else
    let commands := if commands = [] then [""] else commands
    let back := commands.getLastD ""
    commands.dropLast ++ [(if back ≠ "" then back ++ " " else back) ++ arg]

def numberAt (arg : String) (pos : Nat) : UInt64 :=
  UInt64.ofNat (strtoull (substr arg pos) 0).1

/-- An argument that starts with a dash. `--max-search-iterations=` is told by its first 14
characters, and there is no number to read if the argument ends before the 24th. -/
def readOption (c : CommandLine) (arg : String) : Option CommandLine :=
  if arg = "--" then some { c with parsingTerminated := true }
  else if arg = "-c" ∨ arg = "--no-color" then some { c with useColor := false }
  else if arg = "-p" ∨ arg = "--pause-target" then some { c with pauseTarget := true }
  else if arg = "-P" ∨ arg = "--allow-parent" then some { c with allowParent := true }
  else if substrTo arg 2 = "-n" then some { c with maxResults := numberAt arg 2 }
  else if substrTo arg 14 = "--max-results=" then some { c with maxResults := numberAt arg 14 }
  else if substrTo arg 2 = "-i" then some { c with maxSearchIterations := numberAt arg 2 }
  else if substrTo arg 14 = "--max-search-i" then
    if arg.length < 24 then none else some { c with maxSearchIterations := numberAt arg 24 }
  else some { c with numBadArguments := c.numBadArguments + 1 }

def readProcess (c : CommandLine) (arg : String) : CommandLine :=
  let (value, result) := strtoull arg 0
  { c with
    pid := (BitVec.ofNat 32 value).toInt
    processName := if charAt arg result ≠ '\x00' then arg else c.processName }

def readArgument (c : CommandLine) (arg : String) : Option CommandLine :=
  if ¬ c.parsingTerminated ∧ charAt arg 0 = '-' then readOption c arg
  else if ¬ c.parsingTerminated ∧ c.pid = 0 ∧ charAt c.processName 0 = '\x00' then
    some (readProcess c arg)
  else some { c with commands := addWord c.commands arg }

def readArguments (args : List String) : Option CommandLine := args.foldlM readArgument new

/-! ## Commands -/

def joinWord (back arg : String) : String := (if back ≠ "" then back ++ " " else back) ++ arg

def joinWords (args : List String) : String := args.foldl joinWord ""

/-- The commands between the arguments that are `;`. There is none before a first argument that
is one. -/
def commandsOf (args : List String) : List String :=
  match args.splitOn ";" with
  | [] :: groups => groups.map joinWords
  | groups => groups.map joinWords

variable {args words opts rest front groups : List String} {arg back target : String}
  {c c' : CommandLine}

theorem addWord_concat (harg : arg ≠ ";") :
    addWord (front ++ [back]) arg = front ++ [joinWord back arg] := by
  unfold addWord
  rw [if_neg harg]
  simp [joinWord]

theorem splitOn_separator : (";" :: args).splitOn ";" = [] :: args.splitOn ";" := by
  rw [List.splitOn_cons_eq_if_modifyHead, if_pos (by simp)]

theorem splitOn_word {group : List String} {groups : List (List String)} (harg : arg ≠ ";")
    (hgroups : args.splitOn ";" = group :: groups) :
    (arg :: args).splitOn ";" = (arg :: group) :: groups := by
  rw [List.splitOn_cons_eq_if_modifyHead, if_neg (by simpa using harg), hgroups,
    List.modifyHead_cons]

/-- Behind a command, the words up to the first separator go on with it. -/
theorem foldl_addWord_concat (front : List String) (back : String) {group : List String}
    {groups : List (List String)} (hgroups : args.splitOn ";" = group :: groups) :
    args.foldl addWord (front ++ [back]) =
      front ++ group.foldl joinWord back :: groups.map joinWords := by
  induction args generalizing front back group groups with
  | nil =>
    rw [List.splitOn_nil] at hgroups
    cases hgroups
    rfl
  | cons arg args ih =>
    obtain ⟨group', groups', hrest⟩ :=
      List.exists_cons_of_ne_nil (List.splitOn_ne_nil ";" args)
    rw [List.foldl_cons]
    by_cases harg : arg = ";"
    · subst harg
      rw [splitOn_separator, hrest] at hgroups
      cases hgroups
      rw [addWord, if_pos rfl, ih _ _ hrest]
      simp [joinWords]
    · rw [splitOn_word harg hrest] at hgroups
      cases hgroups
      rw [addWord_concat harg, ih _ _ hrest]
      rfl

/-- The loop over the words splits them into commands. -/
theorem foldl_addWord (args : List String) : args.foldl addWord [] = commandsOf args := by
  cases args with
  | nil => rfl
  | cons arg args =>
    obtain ⟨group, groups, hrest⟩ :=
      List.exists_cons_of_ne_nil (List.splitOn_ne_nil ";" args)
    rw [List.foldl_cons]
    by_cases harg : arg = ";"
    · subst harg
      have hfold := foldl_addWord_concat [] "" hrest
      rw [commandsOf, splitOn_separator, hrest]
      exact hfold
    · have hfold := foldl_addWord_concat [] arg hrest
      have hfirst : addWord [] arg = [] ++ [arg] := by
        rw [addWord, if_neg harg]
        simp
      rw [commandsOf, splitOn_word harg hrest, hfirst, hfold]
      simp [joinWords, joinWord]

theorem foldl_joinWord (hback : back ≠ "") :
    words.foldl joinWord back = " ".intercalate (back :: words) := by
  induction words generalizing back with
  | nil => exact String.intercalate_singleton.symm
  | cons word words ih =>
    have hjoin : joinWord back word = back ++ " " ++ word := by rw [joinWord, if_pos hback]
    have hne : back ++ " " ++ word ≠ "" := by simp
    rw [List.foldl_cons, hjoin, ih hne, String.intercalate_cons_append,
      String.intercalate_cons_cons]

theorem joinWords_eq (hwords : ∀ word ∈ words, word ≠ "") :
    joinWords words = " ".intercalate words := by
  cases words with
  | nil => exact String.intercalate_nil.symm
  | cons word words =>
    have hfirst : joinWord "" word = word := by simp [joinWord]
    rw [joinWords, List.foldl_cons, hfirst, foldl_joinWord (hwords word List.mem_cons_self)]

theorem commandsOf_intercalate {groups : List (List String)}
    (hgroups : ∀ group ∈ groups, group ≠ [] ∧ ∀ word ∈ group, word ≠ "" ∧ word ≠ ";") :
    commandsOf ([";"].intercalate groups) = groups.map (" ".intercalate ·) := by
  cases groups with
  | nil => rfl
  | cons group groups =>
    have hsplit : ([";"].intercalate (group :: groups)).splitOn ";" = group :: groups :=
      List.splitOn_intercalate _ (fun group hgroup hmem => ((hgroups group hgroup).2 _ hmem).2 rfl)
        (List.cons_ne_nil _ _)
    obtain ⟨word, words, rfl⟩ :=
      List.exists_cons_of_ne_nil (hgroups group List.mem_cons_self).1
    rw [commandsOf, hsplit]
    exact List.map_congr_left fun group hgroup =>
      joinWords_eq fun word hword => ((hgroups group hgroup).2 word hword).1

/-! ## Arguments -/

/-- What has been read before the process. -/
structure Untouched (c : CommandLine) : Prop where
  commands : c.commands = []
  running : c.parsingTerminated = false
  pid : c.pid = 0
  processName : c.processName = ""

theorem Untouched.readOption (hc : Untouched c) (hne : arg ≠ "--")
    (h : readOption c arg = some c') : Untouched c' := by
  unfold CommandLine.readOption at h
  rw [if_neg hne] at h
  split_ifs at h
  all_goals cases h
  all_goals exact ⟨hc.commands, hc.running, hc.pid, hc.processName⟩

theorem Untouched.options (hc : Untouched c)
    (hopts : ∀ opt ∈ opts, charAt opt 0 = '-' ∧ opt ≠ "--")
    (h : opts.foldlM readArgument c = some c') : Untouched c' := by
  induction opts generalizing c with
  | nil => cases h; exact hc
  | cons opt opts ih =>
    obtain ⟨hopt, hopts⟩ := List.forall_mem_cons.mp hopts
    rw [List.foldlM_cons] at h
    obtain ⟨c₁, hread, h⟩ := Option.bind_eq_some_iff.mp h
    rw [readArgument, if_pos ⟨by simp [hc.running], hopt.1⟩] at hread
    exact ih (hc.readOption hopt.2 hread) hopts h

theorem Untouched.process (hc : Untouched c) (htarget : charAt target 0 ≠ '-') :
    readArgument c target = some (readProcess c target) := by
  rw [readArgument, if_neg fun h => htarget h.2, if_pos]
  rw [hc.running, hc.pid, hc.processName]
  exact ⟨by decide, rfl, by decide⟩

/-- Every further argument is a word. -/
def WordsOnly (c : CommandLine) (words : List String) : Prop :=
  c.parsingTerminated = true ∨
    (∀ word ∈ words, charAt word 0 ≠ '-') ∧ (c.pid ≠ 0 ∨ charAt c.processName 0 ≠ '\x00')

theorem WordsOnly.read (hc : WordsOnly c (arg :: words)) :
    readArgument c arg = some { c with commands := addWord c.commands arg } := by
  unfold readArgument
  rcases hc with hterminated | ⟨hwords, hprocess⟩
  · rw [if_neg fun h => h.1 hterminated, if_neg fun h => h.1 hterminated]
  · rw [if_neg fun h => hwords arg List.mem_cons_self h.2, if_neg]
    rintro ⟨-, hpid, hname⟩
    exact hprocess.elim (fun h => h hpid) fun h => h hname

theorem WordsOnly.foldlM (hc : WordsOnly c words) (h : words.foldlM readArgument c = some c') :
    c'.commands = words.foldl addWord c.commands := by
  induction words generalizing c with
  | nil => cases h; rfl
  | cons word words ih =>
    rw [List.foldlM_cons, hc.read] at h
    have hrest : WordsOnly { c with commands := addWord c.commands word } words :=
      hc.imp_right fun ⟨hwords, hprocess⟩ =>
        ⟨fun other hother => hwords other (List.mem_cons_of_mem _ hother), hprocess⟩
    exact ih hrest h

/-- How the words of the commands are given: behind `--`, or without a dash at their front. -/
inductive Given (target : String) (words : List String) : List String → Prop where
  | behind : Given target words ("--" :: words)
  | plain (hwords : ∀ word ∈ words, charAt word 0 ≠ '-')
      (hprocess : (readProcess new target).pid ≠ 0 ∨
        charAt (readProcess new target).processName 0 ≠ '\x00') : Given target words words

theorem commands_of_readArguments (hopts : ∀ opt ∈ opts, charAt opt 0 = '-' ∧ opt ≠ "--")
    (htarget : charAt target 0 ≠ '-') (hwords : Given target words rest)
    (h : readArguments (opts ++ target :: rest) = some c) : c.commands = commandsOf words := by
  unfold readArguments at h
  rw [List.foldlM_append] at h
  obtain ⟨c₁, hfirst, h⟩ := Option.bind_eq_some_iff.mp h
  have hc₁ : Untouched c₁ := Untouched.options ⟨rfl, rfl, rfl, rfl⟩ hopts hfirst
  rw [List.foldlM_cons, hc₁.process htarget] at h
  have h : rest.foldlM readArgument (readProcess c₁ target) = some c := h
  have hcommands : (readProcess c₁ target).commands = [] := hc₁.commands
  have hfinal : ∀ c₂ : CommandLine, c₂.commands = [] → WordsOnly c₂ words →
      words.foldlM readArgument c₂ = some c → c.commands = commandsOf words := by
    intro c₂ hnone honly hrun
    rw [honly.foldlM hrun, hnone, foldl_addWord]
  cases hwords with
  | behind =>
    have hdash : readArgument (readProcess c₁ target) "--" =
        some { readProcess c₁ target with parsingTerminated := true } := by
      have hrunning : ¬ (readProcess c₁ target).parsingTerminated = true := by
        show ¬ c₁.parsingTerminated = true
        simp [hc₁.running]
      rw [readArgument, if_pos ⟨hrunning, by decide⟩, readOption, if_pos rfl]
    rw [List.foldlM_cons, hdash] at h
    exact hfinal { readProcess c₁ target with parsingTerminated := true } hcommands (.inl rfl) h
  | plain hnodash hprocess =>
    refine hfinal _ hcommands (.inr ⟨hnodash, hprocess.imp (fun hpid => hpid) fun hname => ?_⟩) h
    unfold readProcess at hname ⊢
    rw [hc₁.processName]
    exact hname

/-- Whatever options come before the process, the commands are what stands between the
separators behind it. Words that are not empty are joined with blanks. -/
theorem commands_read (hopts : ∀ opt ∈ opts, charAt opt 0 = '-' ∧ opt ≠ "--")
    (htarget : charAt target 0 ≠ '-') (hwords : Given target words rest)
    (h : readArguments (opts ++ target :: rest) = some c) :
    c.commands = commandsOf words ∧
      ∀ groups : List (List String),
        (∀ group ∈ groups, group ≠ [] ∧ ∀ word ∈ group, word ≠ "" ∧ word ≠ ";") →
        words = [";"].intercalate groups → c.commands = groups.map (" ".intercalate ·) := by
  have hcommands := commands_of_readArguments hopts htarget hwords h
  refine ⟨hcommands, fun groups hgroups hjoined => ?_⟩
  rw [hcommands, hjoined, commandsOf_intercalate hgroups]

/-- `memwatch -n5 -p 12 -- read 1000 4 ";" find -1`. -/
theorem commands_read_two : ∃ c,
    readArguments ["-n5", "-p", "12", "--", "read", "1000", "4", ";", "find", "-1"] = some c ∧
      c.commands = ["read 1000 4", "find -1"] := by
  have hread : ∃ c, readArguments
      (["-n5", "-p"] ++ "12" :: "--" :: ["read", "1000", "4", ";", "find", "-1"]) = some c :=
    ⟨_, rfl⟩
  obtain ⟨c, hc⟩ := hread
  refine ⟨c, hc, ((commands_read (by decide) (by decide) .behind hc).2
    [["read", "1000", "4"], ["find", "-1"]] (by decide) rfl).trans ?_⟩
  decide +kernel

/-! ## Running the commands -/

section Runs

variable [Phosg] [PhosgText] [FloatText] {p : Process} {line : String}
  {lines : List (Process × String)} {st st' : MemwatchShell} {status : Nat}

/-- The commands one after another, until there is an exception; with the exit status. -/
def runCommands : List (Process × String) → MemwatchShell → Except Fault (Nat × MemwatchShell)
  | [], st => .ok (0, st)
  | (p, command) :: commands, st =>
    match dispatchCommand (otherCommands p command.length) p.toTarget command st with
    | .ok () st => runCommands commands st
    | .error (.exception _) st => .ok (1, st)
    | .error fault _ => .error fault

/-- `main` with commands, after it has found the process. -/
def batch (c : CommandLine) (processName : String) (lines : List (Process × String)) :
    Except Fault (Nat × MemwatchShell) :=
  runCommands lines (MemwatchShell.new processName c.maxResults c.maxSearchIterations
    c.pauseTarget false c.useColor)

def Throws (line : Process × String) (st st' : MemwatchShell) : Prop :=
  ∃ e, dispatchCommand (otherCommands line.1 line.2.length) line.1.toTarget line.2 st =
    .error (.exception e) st'

/-- Where a run of commands ends: behind the last one if none throws, or at the first one
that throws. -/
inductive Ends (lines : List (Process × String)) (st st' : MemwatchShell) : Nat → Prop where
  | all (hall : Succeeds lines st st') : Ends lines st st' 0
  | throws (front : List (Process × String)) {back : List (Process × String)}
      {line : Process × String} {st₁ : MemwatchShell} (hlines : lines = front ++ line :: back)
      (hfront : Succeeds front st st₁) (hthrows : Throws line st₁ st') : Ends lines st st' 1

theorem ends_of_runCommands (h : runCommands lines st = .ok (status, st')) :
    Ends lines st st' status := by
  induction lines generalizing st with
  | nil =>
    cases h
    exact .all (.nil _)
  | cons line lines ih =>
    obtain ⟨p, command⟩ := line
    rw [runCommands] at h
    split at h
    · next st₂ hfirst =>
      cases ih h with
      | all hall => exact .all (.cons hfirst hall)
      | throws front hlines hfront hthrows =>
        exact .throws ((p, command) :: front) (by rw [hlines]; rfl) (.cons hfirst hfront) hthrows
    · next e st₂ hfirst =>
      cases h
      exact .throws [] rfl (.nil _) ⟨e, hfirst⟩
    · cases h

theorem Ends.sameData (hi : st.interactive = false) (h : Ends lines st st' status) :
    SameData st st' := by
  cases h with
  | all hall => exact sameData_lines hi hall.executeLines
  | throws front _ hfront hthrows =>
    obtain ⟨e, hline⟩ := hthrows
    have hsame := sameData_lines hi hfront.executeLines
    exact hsame.trans
      (sameData_line (hsame.interactive.trans hi) (executeLine_of_exception hline))

/-- The commands of a command line run until one throws, and whatever they are, nothing is
searched for and nothing is frozen. -/
theorem batch_ends {processName : String} (h : batch c processName lines = .ok (status, st')) :
    let start := MemwatchShell.new processName c.maxResults c.maxSearchIterations c.pauseTarget
      false c.useColor
    Ends lines start st' status ∧ st'.nameToSearches = start.nameToSearches ∧
      st'.freezer = start.freezer := by
  intro start
  have hends : Ends lines start st' status := ends_of_runCommands h
  have hsame : SameData start st' := hends.sameData rfl
  exact ⟨hends, hsame.nameToSearches, hsame.freezer⟩

end Runs

section

open Plain

/-- The second command throws, and the third one is not run. -/
theorem batch_ends_open :
    let lines := [(idleProcess, "state max_results 7"), (idleProcess, "open u8"),
      (idleProcess, "state max_results 9")]
    let start := MemwatchShell.new "target" 1073741824 5 false false true
    batch new "target" lines = .ok (1, { start with maxResults := 7 }) ∧
      Ends lines start { start with maxResults := 7 } 1 := by
  intro lines start
  have hrun : batch new "target" lines = .ok (1, { start with maxResults := 7 }) := rfl
  exact ⟨hrun, (batch_ends hrun).1⟩

end

end CommandLine

end Memwatch
