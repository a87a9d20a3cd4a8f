import Memwatch.Shell.FreezeWrite

/-!
# Null data of a frozen array

`freeze` parses null data together with data only: with `+s` the data is read, and the text
after `+N` is dropped without a word.
-/

namespace Memwatch

namespace MemwatchShell

open Lib Text RegionFreezer

/-! ## What a line says -/

section Lines

variable {st : MemwatchShell} {args : List String} {a a' : FreezeArgs} {arg : String}

def isOption (arg : String) : Bool := charAt arg 0 = '+'

def isLetter (c : Char) (arg : String) : Bool := isOption arg && charAt arg 1 = c

def givenNumber (base : Nat) (arg : String) : Nat :=
  ((stoull (substr arg 2) base).toOption.map Prod.fst).getD 0

/-- The number of the last option with a letter. -/
def lastNumber (c : Char) (base : Nat) (args : List String) : Nat :=
  ((args.filter (isLetter c)).getLast?.map (givenNumber base)).getD 0

/-- The size that is to be read: the last one after `+s`. -/
def sizeToRead (args : List String) : Nat := lastNumber 's' 16 args

/-- The count of an array: the last one after `+m`. -/
def maxEntries (args : List String) : Nat := lastNumber 'm' 10 args

/-- The address of a word, if that is not 0. -/
def addressOf (st : MemwatchShell) (word : String) : Option Nat :=
  match st.getAddrFromCommand word with
  | .ok addr => if addr = 0 then none else some addr
  | .error _ => none

/-- The address of a line: the first one that is not 0. -/
def lineAddress (st : MemwatchShell) (args : List String) : Nat :=
  ((args.filter (!isOption ·)).findSome? st.addressOf).getD 0

/-- What an argument adds to the text for null data, with the arguments before it: what
follows `+N`, and each word behind a `+N` and behind the address. -/
def nullPiece (st : MemwatchShell) (before : List String) (arg : String) : String :=
  if isLetter 'N' arg then substr arg 2
  else if ¬ isOption arg ∧ st.lineAddress before ≠ 0 ∧ before.any (isLetter 'N') then arg
  else ""

/-- The text for null data of arguments behind others. -/
def nullTextFrom (st : MemwatchShell) (before : List String) : List String → String
  | [] => ""
  | arg :: args => st.nullPiece before arg ++ nullTextFrom st (before ++ [arg]) args

def nullText (st : MemwatchShell) (args : List String) : String := st.nullTextFrom [] args

theorem lastNumber_append (c : Char) (base : Nat) (args : List String) (arg : String) :
    lastNumber c base (args ++ [arg]) =
      if isLetter c arg then givenNumber base arg else lastNumber c base args := by
  unfold lastNumber
  rw [List.filter_append]
  split
  · next hletter =>
    rw [List.filter_cons_of_pos hletter, List.filter_nil, List.getLast?_concat, Option.map_some,
      Option.getD_some]
  · next hletter => rw [List.filter_cons_of_neg hletter, List.filter_nil, List.append_nil]

theorem nullTextFrom_append (before args : List String) (arg : String) :
    st.nullTextFrom before (args ++ [arg]) =
      st.nullTextFrom before args ++ st.nullPiece (before ++ args) arg := by
  induction args generalizing before with
  | nil => simp [nullTextFrom]
  | cons first args ih =>
    rw [List.cons_append, nullTextFrom, ih, nullTextFrom, String.append_assoc, List.append_assoc,
      List.singleton_append]

theorem addressOf_ne_zero {addr : Nat} (h : st.addressOf arg = some addr) : addr ≠ 0 := by
  unfold addressOf at h
  split at h
  · split at h
    · cases h
    · next hne =>
      obtain rfl := Option.some.inj h
      exact hne
  · cases h

theorem lineAddress_append (st : MemwatchShell) (args : List String) (arg : String) :
    st.lineAddress (args ++ [arg]) =
      if isOption arg = true ∨ st.lineAddress args ≠ 0 then st.lineAddress args
      else (st.addressOf arg).getD 0 := by
  unfold lineAddress
  rw [List.filter_append]
  by_cases harg : isOption arg = true
  · rw [if_pos (.inl harg), List.filter_cons_of_neg (by simp [harg]), List.filter_nil,
      List.append_nil]
  · rw [List.filter_cons_of_pos (by simp [harg]), List.filter_nil, List.findSome?_append]
    cases hfirst : (args.filter (!isOption ·)).findSome? st.addressOf with
    | none => simp [harg]
    | some addr =>
      obtain ⟨word, -, hword⟩ := List.exists_of_findSome?_eq_some hfirst
      rw [if_pos (.inr (addressOf_ne_zero hword)), Option.some_or]

theorem isLetter_of_ne {c d : Char} (hletter : charAt arg 1 = c) (hc : c ≠ d) :
    ¬ isLetter d arg := by
  simp [isLetter, hletter, hc]

theorem isLetter_of_word (c : Char) (hword : charAt arg 0 ≠ '+') : ¬ isLetter c arg := by
  simp [isLetter, isOption, hword]

theorem readFreezeArg_readSize (h : st.readFreezeArg a arg = .ok a') :
    a'.readSize = if isLetter 's' arg then givenNumber 16 arg else a.readSize := by
  cases reads_of_readFreezeArg h with
  | size hopt hletter hnumber =>
    simp [isLetter, isOption, hopt, hletter, givenNumber, hnumber, Except.toOption]
  | name _ hletter | count _ hletter | disable _ hletter | null _ hletter =>
    rw [if_neg (isLetter_of_ne hletter (by decide))]
  | nullText hword | dataText hword | address hword => rw [if_neg (isLetter_of_word 's' hword)]

theorem readFreezeArg_arrayMaxEntries (h : st.readFreezeArg a arg = .ok a') :
    a'.arrayMaxEntries = if isLetter 'm' arg then givenNumber 10 arg else a.arrayMaxEntries := by
  cases reads_of_readFreezeArg h with
  | count hopt hletter hnumber =>
    simp [isLetter, isOption, hopt, hletter, givenNumber, hnumber, Except.toOption]
  | name _ hletter | size _ hletter | disable _ hletter | null _ hletter =>
    rw [if_neg (isLetter_of_ne hletter (by decide))]
  | nullText hword | dataText hword | address hword => rw [if_neg (isLetter_of_word 'm' hword)]

theorem readFreezeArg_reading (h : st.readFreezeArg a arg = .ok a') :
    a'.readingNullDataToParse = (a.readingNullDataToParse || isLetter 'N' arg) := by
  have hkept : ¬ isLetter 'N' arg →
      a.readingNullDataToParse = (a.readingNullDataToParse || isLetter 'N' arg) := by
    intro hnot
    rw [Bool.eq_false_iff.mpr hnot, Bool.or_false]
  cases reads_of_readFreezeArg h with
  | null hopt hletter => simp [isLetter, isOption, hopt, hletter]
  | name _ hletter | size _ hletter | count _ hletter | disable _ hletter =>
    exact hkept (isLetter_of_ne hletter (by decide))
  | nullText hword | dataText hword | address hword => exact hkept (isLetter_of_word 'N' hword)

/-- The text an argument leaves, if what is behind it was read so far. -/
theorem readFreezeArg_nullDataToParse {before : List String}
    (haddr : a.addr = st.lineAddress before)
    (hreading : a.readingNullDataToParse = before.any (isLetter 'N'))
    (h : st.readFreezeArg a arg = .ok a') :
    a'.nullDataToParse = a.nullDataToParse ++ st.nullPiece before arg := by
  unfold nullPiece
  rw [← haddr, ← hreading]
  have hkept : ¬ isLetter 'N' arg → ¬ (¬ isOption arg ∧ a.addr ≠ 0 ∧ a.readingNullDataToParse) →
      a.nullDataToParse = a.nullDataToParse ++ (if isLetter 'N' arg then substr arg 2
        else if ¬ isOption arg ∧ a.addr ≠ 0 ∧ a.readingNullDataToParse then arg else "") := by
    intro hletter hword
    rw [if_neg hletter, if_neg hword, String.append_empty]
  cases reads_of_readFreezeArg h with
  | null hopt hletter => rw [if_pos (by simp [isLetter, isOption, hopt, hletter])]
  | nullText hword haddr hreading =>
    rw [if_neg (isLetter_of_word 'N' hword), if_pos ⟨by simp [isOption, hword], haddr, hreading⟩]
  | dataText hword _ hreading =>
    exact hkept (isLetter_of_word 'N' hword) fun h => by simp [hreading] at h
  | address hword haddr => exact hkept (isLetter_of_word 'N' hword) fun h => h.2.1 haddr
  | name hopt hletter | size hopt hletter | count hopt hletter | disable hopt hletter =>
    exact hkept (isLetter_of_ne hletter (by decide)) fun h => h.1 (by simp [isOption, hopt])

theorem readFreezeArg_addr (h : st.readFreezeArg a arg = .ok a') :
    a'.addr = if isOption arg = true ∨ a.addr ≠ 0 then a.addr else (st.addressOf arg).getD 0 := by
  cases reads_of_readFreezeArg h with
  | name hopt | size hopt | count hopt | disable hopt | null hopt =>
    rw [if_pos (.inl (by simp [isOption, hopt]))]
  | nullText _ haddr | dataText _ haddr => rw [if_pos (.inr haddr)]
  | @address addr hword haddr hresolves =>
    rw [if_neg (by simp [isOption, hword, haddr]), addressOf, hresolves]
    dsimp only
    split
    · next hzero => rw [hzero, Option.getD_none]
    · rw [Option.getD_some]

/-- The loop ends with what the words of the line say. -/
structure SaysSo (st : MemwatchShell) (args : List String) (a : FreezeArgs) : Prop where
  readSize : a.readSize = sizeToRead args
  arrayMaxEntries : a.arrayMaxEntries = maxEntries args
  addr : a.addr = st.lineAddress args
  reading : a.readingNullDataToParse = args.any (isLetter 'N')
  nullDataToParse : a.nullDataToParse = st.nullText args

theorem readFreezeArgs_eq (h : args.foldlM st.readFreezeArg FreezeArgs.new = .ok a) :
    SaysSo st args a := by
  induction args using List.reverseRecOn generalizing a with
  | nil =>
    cases h
    exact ⟨rfl, rfl, rfl, rfl, rfl⟩
  | append_singleton args arg ih =>
    rw [List.foldlM_append] at h
    obtain ⟨a₀, hbefore, h⟩ := except_bind_eq_ok.mp h
    obtain ⟨a₁, hread, h⟩ := except_bind_eq_ok.mp h
    cases h
    have hwords := ih hbefore
    refine ⟨?_, ?_, ?_, ?_, ?_⟩
    · rw [readFreezeArg_readSize hread, sizeToRead, lastNumber_append, hwords.readSize, sizeToRead]
    · rw [readFreezeArg_arrayMaxEntries hread, maxEntries, lastNumber_append,
        hwords.arrayMaxEntries, maxEntries]
    · rw [readFreezeArg_addr hread, lineAddress_append, hwords.addr]
    · rw [readFreezeArg_reading hread, hwords.reading, List.any_append, List.any_cons,
        List.any_nil, Bool.or_false]
    · rw [readFreezeArg_nullDataToParse hwords.addr hwords.reading hread, hwords.nullDataToParse,
        nullText, nullText, nullTextFrom_append, List.nil_append]

end Lines

/-! ## Null data -/

section Null

variable [PhosgText] {st : MemwatchShell} {target : Target} {argsStr : String}
  {args : List String} {a : FreezeArgs} {d : FreezeData} {data nullData nullDataMask : Bytes}

/-- The line is read to its end. -/
def Accepts (st : MemwatchShell) (argsStr : String) (args : List String) (a : FreezeArgs) : Prop :=
  splitArgs argsStr 2 0 = .ok args ∧ args.foldlM st.readFreezeArg FreezeArgs.new = .ok a

/-- A line that is read to its end is for an array and has a text for null data. -/
def GivesNull (st : MemwatchShell) (argsStr : String) (nullData nullDataMask : Bytes) : Prop :=
  ∀ args a, Accepts st argsStr args a → maxEntries args ≠ 0 ∧
    PhosgText.parseDataString (st.nullText args) = .ok (nullData, nullDataMask) ∧ nullData ≠ []

/-- The line fails and adds no region, or the region it adds is an array with the null data
and with masks and null data that are as long as its data. -/
def Honours (target : Target) (argsStr : String) (st : MemwatchShell)
    (nullData nullDataMask : Bytes) : Prop :=
  (∃ e, commandFreeze target argsStr st = .error (.exception e) st) ∨
    ∃ r items, commandFreeze target argsStr st = .ok () (st.withRegion r) ∧
      r.items = some items ∧ items.nullData = nullData ∧ items.nullDataMask = nullDataMask ∧
      nullData.length = r.data.length ∧ nullDataMask.length = r.data.length ∧
      items.dataMask.length = r.data.length

/-- No data is read for the line: it is not read to its end, its size is 0, or the read of
that size at its address fails. -/
def ReadsNone (target : Target) (argsStr : String) (st : MemwatchShell) : Prop :=
  ∀ args a data, st.interactive = true → Accepts st argsStr args a → sizeToRead args ≠ 0 →
    target.read (st.lineAddress args) (sizeToRead args) = .ok data → data = []

theorem givesNull_of_accepts (haccepts : Accepts st argsStr args a) (harray : maxEntries args ≠ 0)
    (hparse : PhosgText.parseDataString (st.nullText args) = .ok (nullData, nullDataMask))
    (hnull : nullData ≠ []) : GivesNull st argsStr nullData nullDataMask := by
  intro args' a' haccepts'
  obtain rfl := Except.ok.inj (haccepts.1.symm.trans haccepts'.1)
  exact ⟨harray, hparse, hnull⟩

theorem commandFreeze_fails : Fails (fun fault t => (∃ e, fault = .exception e) ∧ t = st)
    (commandFreeze target argsStr) st := by
  refine fails_get_bind ?_
  refine fails_raise_bind (fun e _ => ⟨⟨e, rfl⟩, rfl⟩) fun _ _ => ?_
  refine fails_raise_bind (fun e _ => ⟨⟨e, rfl⟩, rfl⟩) fun args _ => ?_
  refine fails_raise_bind (fun e _ => ⟨⟨e, rfl⟩, rfl⟩) fun a _ => ?_
  refine fails_raise_bind (fun e _ => ⟨⟨e, rfl⟩, rfl⟩) fun name _ => ?_
  refine fails_raise_bind (fun e _ => ⟨⟨e, rfl⟩, rfl⟩) fun d _ => ?_
  exact fails_raise_bind (fun e _ => ⟨⟨e, rfl⟩, rfl⟩) fun _ _ => fails_set

/-- Data that is read comes without null data. -/
theorem freezeData_of_size (hsize : a.readSize ≠ 0) (hd : freezeData target a = .ok d) :
    target.read a.addr a.readSize = .ok d.data ∧ d.nullData = [] := by
  rw [freezeData, if_pos hsize] at hd
  obtain ⟨data, hread, hd⟩ := except_bind_eq_ok.mp hd
  cases hd
  exact ⟨hread, rfl⟩

theorem freezeData_of_text (hsize : a.readSize = 0) (hd : freezeData target a = .ok d) :
    PhosgText.parseDataString a.dataToParse = .ok (d.data, d.dataMask) ∧
      PhosgText.parseDataString a.nullDataToParse = .ok (d.nullData, d.nullDataMask) := by
  rw [freezeData, if_neg (not_not.mpr hsize)] at hd
  obtain ⟨⟨data, dataMask⟩, hdata, hd⟩ := except_bind_eq_ok.mp hd
  obtain ⟨⟨nullData, nullDataMask⟩, hnull, hd⟩ := except_bind_eq_ok.mp hd
  cases hd
  exact ⟨hdata, hnull⟩

/-- An array of data that is read has no null data. -/
theorem not_honours_of_read (hi : st.interactive = true) (haccepts : Accepts st argsStr args a)
    (hsize : a.readSize ≠ 0) (hread : target.read a.addr a.readSize = .ok data) (hdata : data ≠ [])
    (hnull : nullData ≠ []) : ¬ Honours target argsStr st nullData nullDataMask := by
  have hd : freezeData target a =
      .ok ⟨data, List.replicate a.readSize 0xFF, [], []⟩ := by
    rw [freezeData, if_pos hsize, hread]
    rfl
  have hcheck : checkFreeze a ⟨data, List.replicate a.readSize 0xFF, [], []⟩ = .ok () := by
    rw [checkFreeze, if_neg hdata, if_neg (not_not.mpr rfl)]
  have hfreeze := commandFreeze_eq_ok.mpr ⟨hi, args, a, _, haccepts.1, haccepts.2, hd, hcheck, rfl⟩
  rintro (⟨e, hfails⟩ | ⟨r, items, hadds, hitems, hkept, -⟩)
  · rw [hfreeze] at hfails
    cases hfails
  · rw [hfreeze] at hadds
    injection hadds with _ hst
    obtain rfl := withRegion_inj hst
    unfold newRegion at hitems
    dsimp only at hitems
    split at hitems
    · cases hitems
      exact hnull hkept.symm
    · cases hitems

variable [LawfulPhosgText]

theorem honours_of_parse (hsize : a.readSize = 0) (harray : a.arrayMaxEntries ≠ 0)
    (hparse : PhosgText.parseDataString a.nullDataToParse = .ok (nullData, nullDataMask))
    (hnull : nullData ≠ []) (hd : freezeData target a = .ok d) (hcheck : checkFreeze a d = .ok ())
    {name : String} (hfreeze : commandFreeze target argsStr st =
      .ok () (st.withRegion (newRegion st.freezer name a d))) :
    Honours target argsStr st nullData nullDataMask := by
  obtain ⟨hdata, hparsed⟩ := freezeData_of_text hsize hd
  rw [hparse] at hparsed
  injection hparsed with hpair
  obtain ⟨rfl, rfl⟩ := Prod.mk.inj hpair
  have hlen : d.nullData.length = d.data.length := ((data_of_checkFreeze hcheck).2 hnull).2
  have hmask := LawfulPhosgText.isMask_of_parse hdata
  have hnullMask := LawfulPhosgText.isMask_of_parse hparse
  refine .inr ⟨_, ⟨a.arrayMaxEntries, d.dataMask, d.nullData, d.nullDataMask⟩, hfreeze, ?_, rfl,
    rfl, hlen, hnullMask.1.trans hlen, hmask.1⟩
  unfold newRegion
  dsimp only
  rw [if_pos harray, if_neg hnull]

/-- A line for an array with null data gets this null data if and only if no data is read
for it. -/
theorem null_data_honoured_iff (hgives : GivesNull st argsStr nullData nullDataMask) :
    Honours target argsStr st nullData nullDataMask ↔ ReadsNone target argsStr st := by
  refine ⟨fun h args a data hi haccepts hsize hread => ?_, fun hreads => ?_⟩
  · by_contra hdata
    have hwords := readFreezeArgs_eq haccepts.2
    rw [← hwords.readSize] at hsize
    rw [← hwords.readSize, ← hwords.addr] at hread
    exact not_honours_of_read hi haccepts hsize hread hdata (hgives args a haccepts).2.2 h
  · cases hresult : commandFreeze target argsStr st with
    | error fault t =>
      obtain ⟨⟨e, rfl⟩, rfl⟩ := commandFreeze_fails _ _ hresult
      exact .inl ⟨e, hresult⟩
    | ok u st' =>
      obtain ⟨hi, args, a, d, hargs, ha, hd, hcheck, rfl⟩ := commandFreeze_eq_ok.mp hresult
      obtain ⟨harray, hparse, hnull⟩ := hgives args a ⟨hargs, ha⟩
      have hwords := readFreezeArgs_eq ha
      rw [← hwords.arrayMaxEntries] at harray
      rw [← hwords.nullDataToParse] at hparse
      by_cases hsize : a.readSize = 0
      · exact honours_of_parse hsize harray hparse hnull hd hcheck hresult
      · have hread := (freezeData_of_size hsize hd).1
        rw [hwords.readSize] at hsize
        rw [hwords.readSize, hwords.addr] at hread
        exact absurd (hreads args a d.data hi ⟨hargs, ha⟩ hsize hread)
          (data_of_checkFreeze hcheck).1

end Null

section

open Plain

theorem accepts_text : Accepts bareShell "1000 +m2 05 +N 06" ["1000", "+m2", "05", "+N", "06"]
    ⟨"", "1000", 0x1000, 2, 0, "05", "06", true, true⟩ := by
  refine ⟨?_, ?_⟩
  · rfl
  · rfl

theorem accepts_size : Accepts bareShell "1000 +m2 +s1 +N06" ["1000", "+m2", "+s1", "+N06"]
    ⟨"", "1000", 0x1000, 2, 1, "", "06", true, true⟩ := by
  refine ⟨?_, ?_⟩
  · rfl
  · rfl

/-- Data as a text. -/
theorem null_data_honoured_text :
    Honours idleTarget "1000 +m2 05 +N 06" bareShell [6] [0xFF] := by
  have : LawfulPhosgText := plainPhosg_lawful
  have hparse : PhosgText.parseDataString (bareShell.nullText ["1000", "+m2", "05", "+N", "06"]) =
      .ok ([6], [0xFF]) := by decide +kernel
  have hcount : maxEntries ["1000", "+m2", "05", "+N", "06"] ≠ 0 := by decide +kernel
  refine (null_data_honoured_iff (givesNull_of_accepts accepts_text hcount hparse nofun)).mpr ?_
  intro args a data hi haccepts hsize
  obtain rfl := Except.ok.inj (accepts_text.1.symm.trans haccepts.1)
  exact absurd (by decide +kernel) hsize

/-- Data that is read. -/
theorem null_data_dropped : GivesNull bareShell "1000 +m2 +s1 +N06" [6] [0xFF] ∧
    ¬ Honours idleTarget "1000 +m2 +s1 +N06" bareShell [6] [0xFF] := by
  have hparse : PhosgText.parseDataString (bareShell.nullText ["1000", "+m2", "+s1", "+N06"]) =
      .ok ([6], [0xFF]) := by decide +kernel
  have hcount : maxEntries ["1000", "+m2", "+s1", "+N06"] ≠ 0 := by decide +kernel
  have hread : idleTarget.read 0x1000 1 = .ok [0] := rfl
  refine ⟨givesNull_of_accepts accepts_size hcount hparse nofun, ?_⟩
  exact not_honours_of_read rfl accepts_size nofun hread nofun nofun

end

end MemwatchShell
end Memwatch
