import Memwatch.Shell.Replay

/-!
# Reading and writing memory

The `read` and `write` commands, and what they and `freeze` take for the address and
for the data of a line: `read` and `freeze` cut the line into words, `write` resolves
the whole line and parses what follows the first word.
-/

namespace Memwatch

namespace MemwatchShell

open Lib Text RegionFreezer

/-! ## The commands -/

/-- The flags of `print_data`. -/
structure PrintFlags where
  ascii : Bool
  useColor : Bool
  float : Bool
  double : Bool
  reverseEndian : Bool

/-- A character of a format. -/
def PrintFlags.add (flags : PrintFlags) : Char → PrintFlags
  | 'a' => { flags with ascii := true }
  | 'f' => { flags with float := true }
  | 'd' => { flags with double := true }
  | 'r' => { flags with reverseEndian := true }
  | _ => flags

/-- What `read` prints or saves: the data, or why it could not be read. -/
structure ReadBlock where
  addr : Nat
  size : Nat
  filename : Option String
  printFlags : PrintFlags
  data : Except Exception Bytes

def readOption (options : Option String × PrintFlags) (arg : String) : Option String × PrintFlags :=
  if arg = "" then options
  else if charAt arg 0 = '+' then
    (options.1, arg.toList.foldl PrintFlags.add ⟨false, false, false, false, false⟩)
  else (some arg, options.2)

section Commands

variable [PhosgText]

/-- One round of `read`, which `watch` repeats. -/
def commandRead (target : Target) (argsStr : String) : Command ReadBlock := do
  let st ← get
  let args ← splitArgs argsStr 2 4
  match args with
  | addrText :: sizeText :: options => do
    let addr ← st.getAddrFromCommand addrText
    let (size, _) ← stoull sizeText 16
    let (filename, printFlags) :=
      options.foldl readOption (none, ⟨true, true, false, false, false⟩)
    pure ⟨addr, size, filename, printFlags, target.read addr size⟩
  | _ => throw .noArgument

/-- `write`, with the address and the data it hands to the process. If the process
does not take them, that is only printed. -/
def commandWrite (argsStr : String) : Command (Nat × Bytes) := do
  let st ← get
  let addr ← st.getAddrFromCommand argsStr
  let offset := PhosgText.skipWhitespace argsStr (PhosgText.skipNonWhitespace argsStr 0)
  let (data, _) ← PhosgText.parseDataString (substr argsStr offset)
  if data = [] then throw (.exception (invalidArgument "no data was specified"))
  else pure (addr, data)

end Commands

/-! ## Words of data -/

section Words

variable {st : MemwatchShell}

theorem foldlM_words {words : List String} (hwords : ∀ w ∈ words, charAt w 0 ≠ '+')
    {a : FreezeArgs} (haddr : a.addr ≠ 0) (hnull : a.readingNullDataToParse = false) :
    words.foldlM st.readFreezeArg a =
      .ok { a with dataToParse := words.foldl (· ++ ·) a.dataToParse } := by
  induction words generalizing a with
  | nil => rfl
  | cons w words ih =>
    obtain ⟨hw, hwords⟩ := List.forall_mem_cons.mp hwords
    rw [List.foldlM_cons, read_data st hw haddr hnull, except_ok_bind]
    exact ih hwords haddr hnull

theorem addr_of_readFreezeArg {w : String} (hw : charAt w 0 ≠ '+') {a a' : FreezeArgs}
    (haddr : a.addr = 0) (hread : st.readFreezeArg a w = .ok a') :
    ∃ addr, st.getAddrFromCommand w = .ok addr ∧ a' = { a with addrArg := w, addr := addr } := by
  rw [readFreezeArg, if_neg hw, if_neg (not_not.mpr haddr)] at hread
  obtain ⟨addr, hw, hread⟩ := except_bind_eq_ok.mp hread
  cases hread
  exact ⟨addr, hw, rfl⟩

/-- What `freeze` knows of a line without options: until there is an address other than
0 there is no data. -/
structure Plainly (a : FreezeArgs) : Prop where
  readSize : a.readSize = 0
  notReading : a.readingNullDataToParse = false
  noData : a.addr = 0 → a.dataToParse = ""

theorem Plainly.new : Plainly FreezeArgs.new := ⟨rfl, rfl, fun _ => rfl⟩

theorem Plainly.read {a a' : FreezeArgs} (h : Plainly a) {w : String} (hw : charAt w 0 ≠ '+')
    (hread : st.readFreezeArg a w = .ok a') : Plainly a' := by
  by_cases haddr : a.addr = 0
  · obtain ⟨addr, -, rfl⟩ := addr_of_readFreezeArg hw haddr hread
    exact ⟨h.readSize, h.notReading, fun _ => h.noData haddr⟩
  · rw [read_data st hw haddr h.notReading] at hread
    cases hread
    exact ⟨h.readSize, h.notReading, fun h0 => absurd h0 haddr⟩

theorem Plainly.foldlM {words : List String} (hwords : ∀ w ∈ words, charAt w 0 ≠ '+')
    {a a' : FreezeArgs} (h : Plainly a) (hread : words.foldlM st.readFreezeArg a = .ok a') :
    Plainly a' := by
  induction words generalizing a with
  | nil => cases hread; exact h
  | cons w words ih =>
    obtain ⟨hw, hwords⟩ := List.forall_mem_cons.mp hwords
    rw [List.foldlM_cons] at hread
    obtain ⟨b, hb, hread⟩ := except_bind_eq_ok.mp hread
    exact ih hwords (h.read hw hb) hread

end Words

/-! ## Lines -/

def line (word rest : String) : String := word ++ " " ++ rest

theorem toList_line (word rest : String) :
    (line word rest).toList = word.toList ++ ' ' :: rest.toList := by
  simp [line]

def withRegion (st : MemwatchShell) (r : RegionFreezer.Region) : MemwatchShell :=
  { st with freezer := st.freezer.addRegion r }

section Lines

variable [PhosgText] [LawfulPhosgText] {word word' rest : String} {st : MemwatchShell}
  {target : Target}

theorem split_line (hword : ' ' ∉ word.toList) :
    PhosgText.split (line word rest) ' ' = word :: PhosgText.split rest ' ' := by
  rw [LawfulPhosgText.split_eq, LawfulPhosgText.split_eq, toList_line,
    List.splitOn_append_cons_self, List.splitOn_eq_singleton hword, List.singleton_append,
    List.map_cons, String.ofList_toList]

theorem split_ne_nil (s : String) : PhosgText.split s ' ' ≠ [] := by
  rw [LawfulPhosgText.split_eq]
  simp

theorem split_word (hword : ' ' ∉ word.toList) : PhosgText.split word ' ' = [word] := by
  rw [LawfulPhosgText.split_eq, List.splitOn_eq_singleton hword, List.map_singleton,
    String.ofList_toList]

theorem splitArgs_line (hword : ' ' ∉ word.toList) (minArgs maxArgs : Nat) :
    splitArgs (line word rest) minArgs maxArgs =
      if (PhosgText.split rest ' ').length + 1 < minArgs then
        .error (invalidArgument "not enough arguments")
      else if maxArgs ≠ 0 ∧ (PhosgText.split rest ' ').length + 1 > maxArgs then
        .error (invalidArgument "not enough arguments")
      else .ok (word :: PhosgText.split rest ' ') := by
  unfold splitArgs
  dsimp only
  rw [split_line hword, List.length_cons]

theorem commandRead_congr (hword : ' ' ∉ word.toList) (hword' : ' ' ∉ word'.toList)
    (haddr : st.getAddrFromCommand word = st.getAddrFromCommand word') :
    commandRead target (line word rest) st = commandRead target (line word' rest) st := by
  unfold commandRead
  rw [get_bind, get_bind, splitArgs_line hword, splitArgs_line hword']
  split_ifs
  · rfl
  · rfl
  · obtain ⟨sizeText, options, hrest⟩ := List.exists_cons_of_ne_nil (split_ne_nil rest)
    rw [raise_bind_of_ok rfl, raise_bind_of_ok rfl, hrest]
    dsimp only
    rw [haddr]

theorem addr_of_commandRead {out : ReadBlock} {st' : MemwatchShell} (hword : ' ' ∉ word.toList)
    (h : commandRead target (line word rest) st = .ok out st') :
    st.getAddrFromCommand word = .ok out.addr := by
  unfold commandRead at h
  rw [get_bind, splitArgs_line hword] at h
  obtain ⟨args, hargs, h⟩ := raise_bind_eq_ok.mp h
  split_ifs at hargs
  obtain rfl := Except.ok.inj hargs
  obtain ⟨sizeText, options, hrest⟩ := List.exists_cons_of_ne_nil (split_ne_nil rest)
  rw [hrest] at h
  obtain ⟨addr, haddr, h⟩ := raise_bind_eq_ok.mp h
  obtain ⟨⟨size, endPos⟩, -, h⟩ := raise_bind_eq_ok.mp h
  cases h
  exact haddr

theorem commandRead_one {a : Nat} (hword : ' ' ∉ word.toList)
    (haddr : st.getAddrFromCommand word = .ok a) :
    ∃ out, commandRead target (line word "1") st = .ok out st := by
  have hargs : splitArgs (line word "1") 2 4 = .ok [word, "1"] := by
    rw [splitArgs_line hword, split_word (by decide)]
    rfl
  unfold commandRead
  rw [get_bind]
  exact ⟨_, (raise_bind_of_ok hargs).trans ((raise_bind_of_ok haddr).trans rfl)⟩

/-! ### Data -/

/-- The text after the first word and the blanks behind it. -/
def dataText (rest : String) : String := String.ofList (rest.toList.dropWhile (· ∈ blanks))

omit [PhosgText] [LawfulPhosgText] in
theorem drop_length_takeWhile {α : Type} (p : α → Bool) (l : List α) :
    l.drop (l.takeWhile p).length = l.dropWhile p := by
  conv_lhs => enter [2]; rw [← List.takeWhile_append_dropWhile (p := p) (l := l)]
  exact List.drop_left

theorem substr_line (hword : ∀ c ∈ word.toList, c ∉ blanks) :
    substr (line word rest) (PhosgText.skipWhitespace (line word rest)
      (PhosgText.skipNonWhitespace (line word rest) 0)) = dataText rest := by
  have hend : PhosgText.skipNonWhitespace (line word rest) 0 = word.toList.length := by
    rw [LawfulPhosgText.skipNonWhitespace_eq, List.drop_zero, toList_line,
      List.takeWhile_append_of_pos (by simpa using hword), List.takeWhile_cons_of_neg (by decide),
      List.append_nil, Nat.zero_add]
  rw [hend, LawfulPhosgText.skipWhitespace_eq, substr, toList_line, List.drop_left,
    ← List.drop_drop, List.drop_left, drop_length_takeWhile, List.dropWhile_cons_of_pos (by decide)]
  rfl

/-- `write` parses the rest of the line as it is. -/
theorem commandWrite_line {a b : Nat} {data : Bytes} {st' : MemwatchShell}
    (hword : ∀ c ∈ word.toList, c ∉ blanks)
    (haddr : st.getAddrFromCommand (line word rest) = .ok a) :
    commandWrite (line word rest) st = .ok (b, data) st' ↔ (b = a ∧ st' = st) ∧ data ≠ [] ∧
      ∃ mask, PhosgText.parseDataString (dataText rest) = .ok (data, mask) := by
  unfold commandWrite
  rw [get_bind, raise_bind_of_ok haddr, substr_line hword, raise_bind_eq_ok]
  constructor
  · rintro ⟨⟨parsed, mask⟩, hparse, h⟩
    dsimp only at h
    split at h
    · cases h
    · next hne =>
      cases h
      exact ⟨⟨rfl, rfl⟩, hne, mask, hparse⟩
  · rintro ⟨⟨rfl, rfl⟩, hne, mask, hparse⟩
    refine ⟨_, hparse, ?_⟩
    dsimp only
    rw [if_neg hne]
    rfl

/-! ### Frozen data -/

/-- The text `freeze` parses: the words of the rest, one behind the other. -/
def freezeText (rest : String) : String := (PhosgText.split rest ' ').foldl (· ++ ·) ""

def NoOptions (rest : String) : Prop := ∀ w ∈ PhosgText.split rest ' ', charAt w 0 ≠ '+'

theorem Plainly.dataToParse_ne_empty {a : FreezeArgs} {d : FreezeData} (h : Plainly a)
    (hd : freezeData target a = .ok d) (hcheck : checkFreeze a d = .ok ()) :
    a.dataToParse ≠ "" := by
  intro htext
  rw [freezeData, if_neg (not_not.mpr h.readSize)] at hd
  obtain ⟨⟨data, mask⟩, hparse, hd⟩ := except_bind_eq_ok.mp hd
  obtain ⟨⟨nullData, nullDataMask⟩, -, hd⟩ := except_bind_eq_ok.mp hd
  rw [htext, LawfulPhosgText.parse_empty] at hparse
  cases hparse
  cases hd
  exact (data_of_checkFreeze hcheck).1 rfl

omit [LawfulPhosgText] in
theorem foldlM_line {a : Nat} (hplus : charAt word 0 ≠ '+')
    (haddr : st.getAddrFromCommand word = .ok a) (hrest : NoOptions rest) (ha : a ≠ 0) :
    (word :: PhosgText.split rest ' ').foldlM st.readFreezeArg FreezeArgs.new =
      .ok ⟨"", word, a, 0, 0, freezeText rest, "", false, true⟩ := by
  rw [List.foldlM_cons, read_word hplus rfl haddr, except_ok_bind, foldlM_words hrest ha rfl]
  rfl

omit [PhosgText] [LawfulPhosgText] in
theorem withRegion_inj {r r' : RegionFreezer.Region} (h : st.withRegion r = st.withRegion r') :
    r = r' := addRegion_inj (congrArg freezer h)

theorem splitArgs_freeze (hword : ' ' ∉ word.toList) :
    splitArgs (line word rest) 2 0 = .ok (word :: PhosgText.split rest ' ') := by
  have hlen := List.length_pos_iff.mpr (split_ne_nil rest)
  rw [splitArgs_line hword, if_neg (by omega), if_neg fun h => h.1 rfl]

theorem commandFreeze_line {a : Nat} {st' : MemwatchShell} (hi : st.interactive = true)
    (hword : ' ' ∉ word.toList) (hplus : charAt word 0 ≠ '+')
    (haddr : st.getAddrFromCommand word = .ok a) (hrest : NoOptions rest) (ha : a ≠ 0) :
    commandFreeze target (line word rest) st = .ok () st' ↔
      ∃ data mask, PhosgText.parseDataString (freezeText rest) = .ok (data, mask) ∧ data ≠ [] ∧
        st' = st.withRegion
          (Region.new (st.defaultName word) st.freezer.nextIndex a data true) := by
  have hloop := foldlM_line hplus haddr hrest ha
  rw [commandFreeze_eq_ok]
  constructor
  · rintro ⟨-, args, b, d, hargs, hb, hd, hcheck, hst'⟩
    rw [splitArgs_freeze hword] at hargs
    cases hargs
    rw [hloop] at hb
    cases hb
    rw [freezeData, if_neg (not_not.mpr rfl)] at hd
    obtain ⟨⟨data, mask⟩, hparse, hd⟩ := except_bind_eq_ok.mp hd
    obtain ⟨⟨nullData, nullDataMask⟩, -, hd⟩ := except_bind_eq_ok.mp hd
    cases hd
    exact ⟨data, mask, hparse, (data_of_checkFreeze hcheck).1, hst'⟩
  · rintro ⟨data, mask, hparse, hne, hst'⟩
    refine ⟨hi, _, _, ⟨data, mask, [], []⟩, splitArgs_freeze hword, hloop, ?_, ?_, hst'⟩
    · rw [freezeData, if_neg (not_not.mpr rfl)]
      refine except_bind_eq_ok.mpr ⟨_, hparse, ?_⟩
      exact except_bind_eq_ok.mpr ⟨_, LawfulPhosgText.parse_empty, rfl⟩
    · exact (if_neg hne).trans (if_neg fun h => h rfl)

/-- A line without options freezes nothing at address 0. -/
theorem addr_ne_zero_of_commandFreeze {r : RegionFreezer.Region} (hword : ' ' ∉ word.toList)
    (hplus : charAt word 0 ≠ '+') (hrest : NoOptions rest)
    (h : commandFreeze target (line word rest) st = .ok () (st.withRegion r)) : r.addr ≠ 0 := by
  obtain ⟨-, args, a, d, hargs, ha, hd, hcheck, hst'⟩ := commandFreeze_eq_ok.mp h
  obtain rfl := withRegion_inj hst'
  rw [splitArgs_freeze hword] at hargs
  cases hargs
  have hplain := Plainly.new.foldlM (List.forall_mem_cons.mpr ⟨hplus, hrest⟩) ha
  exact fun haddr => hplain.dataToParse_ne_empty hd hcheck (hplain.noData haddr)

end Lines

end MemwatchShell
end Memwatch
