import Memwatch.Shell.FreezeWrite

/-!
# Result references

`s<i>@<name>` stands for a result of a search. `get_addr_from_command` takes all that
follows the `@` for the name, so that the word has to be cut out of its line before:
`read` and `freeze` do so, `write` does not, and `delete` cuts the word itself at a
dash (`result_reference_iff`).
-/

namespace Memwatch

namespace MemwatchShell

open Lib Text RegionFreezer

/-! ## Names without spaces -/

def Spaceless (st : MemwatchShell) : Prop := OpenSearches (fun name _ => ' ' ∉ name.toList) st

section Spaceless

variable [Phosg] [PhosgText] [FloatText] [LawfulPhosgText] {st st' opened : MemwatchShell}
  {target : Target} {call : Call}

omit [LawfulPhosgText] in
theorem Searched.spaceless {argsStr : String} (h : Searched target st argsStr st')
    (hst : Spaceless st) : Spaceless st' := by
  obtain ⟨name, _, _, _, -, hfind, -, rfl⟩ := h
  exact hst.setSearches (hst name _ hfind)

omit [Phosg] [FloatText] in
theorem space_not_mem_of_splitArgs {argsStr w : String} {args : List String}
    {minArgs maxArgs : Nat} (hargs : splitArgs argsStr minArgs maxArgs = .ok args) (h : w ∈ args) :
    ' ' ∉ w.toList := fun hc => (ne_space_of_splitArgs hargs h hc).1 rfl

omit [Phosg] [FloatText] in
theorem spaceless_of_opening {argsStr : String} {args : List String}
    {initialSearch : Option String} (h : Spaceless st) (hargs : splitArgs argsStr 0 4 = .ok args)
    (hopening : st.opening args = .ok (opened, initialSearch)) : Spaceless opened := by
  refine h.of_opened (opened_of_opening hopening) fun name hname _ _ => ?_
  rcases List.mem_cons.mp hname with rfl | hname
  · exact nofun
  · exact space_not_mem_of_splitArgs hargs hname

theorem Change.spaceless (hchange : Change target st st' call) (h : Spaceless st) :
    Spaceless st' := by
  cases hchange with
  | keep hst' => exact hst' ▸ h
  | set hset => exact h.congr (setField_keeps hset).1
  | opens hargs hopening hst' => exact hst' ▸ spaceless_of_opening h hargs hopening
  | opensAndSearches hargs hopening hsearched =>
    exact hsearched.spaceless (spaceless_of_opening h hargs hopening)
  | search hsearched => exact hsearched.spaceless h
  | fork hargs _ _ hst' =>
    rw [hst']
    exact h.setSearches (space_not_mem_of_splitArgs hargs List.mem_cons_self)
  | copy hargs _ hst' =>
    rw [hst']
    exact h.setSearches
      (space_not_mem_of_splitArgs hargs (List.mem_cons_of_mem _ List.mem_cons_self))
  | lose _ _ hst' => exact h.erase (congrArg nameToSearches hst')
  | delete _ hfind hst' => exact hst' ▸ h.setSearches (h _ _ hfind)
  | truncate hfind _ _ _ hst' => exact hst' ▸ h.setSearches (h _ _ hfind)
  | undo hfind _ hst' => exact hst' ▸ h.setSearches (h _ _ hfind)
  | close _ hst' => exact h.erase (congrArg nameToSearches hst')

/-- No command gives a search a name with a space. -/
theorem Reachable.spaceless (h : Reachable st) : Spaceless st := by
  induction h with
  | new => intro name searches hfind; cases hfind
  | call _ _ hrun ih => exact (change_of_execute hrun).spaceless ih
  | other _ hsearches _ _ ih => exact ih.congr hsearches

end Spaceless

/-! ## The word for a result -/

section Resolve

variable {st : MemwatchShell} {i a : Nat} {name text : String}

/-- `s<i>@<name>`. -/
def resultToken (i : Nat) (name : String) : String := "s" ++ printCount i ++ "@" ++ name

/-- The name of the search a text after the `@` is for. -/
def searchName (st : MemwatchShell) (text : String) : String :=
  if text = "" then st.currentSearchName else text

/-- A result of the latest iteration of a search. -/
def resultAt (st : MemwatchShell) (name : String) (i : Nat) : Option Nat :=
  ((st.nameToSearches.find? name).bind List.getLast?).bind fun search => search.results[i]?

theorem toList_resultToken (i : Nat) (name : String) :
    (resultToken i name).toList = 's' :: (Nat.toDigits 10 i ++ '@' :: name.toList) := by
  simp [resultToken, printCount]

theorem charAt_resultToken (i : Nat) (name : String) : charAt (resultToken i name) 0 = 's' := by
  rw [charAt, toList_resultToken]
  rfl

theorem getLatestSearch_eq_ok {name : Option String} {search : MemorySearch} :
    st.getLatestSearch name = .ok search ↔
      (st.nameToSearches.find? (name.getD st.currentSearchName)).bind List.getLast? =
        some search := by
  unfold getLatestSearch getSearches
  cases st.nameToSearches.find? (name.getD st.currentSearchName) with
  | none => simp [catching, bind, Except.bind, invalidArgument]
  | some searches =>
    rw [Option.bind_some]
    dsimp only
    rw [except_ok_bind]
    cases searches.getLast? with
    | none => simp [catching, outOfRange, throw, throwThe, MonadExceptOf.throw]
    | some search' => simp [catching, pure, Except.pure]

/-- All that follows the `@` is the name; the empty name is the current search. -/
theorem getAddrFromCommand_resultToken (hi : i < 2 ^ 64) :
    st.getAddrFromCommand (resultToken i text) = .ok a ↔
      st.resultAt (st.searchName text) i = some a := by
  have hchars := toList_resultToken i text
  have hfirst : charAt (resultToken i text) 0 = 's' := charAt_resultToken i text
  have hnumber : stoull (substr (resultToken i text) 1) 0 =
      .ok (i, (Nat.toDigits 10 i).length) := by
    have hends : Ends ('@' :: text.toList) := ends_cons (.inr rfl)
    refine stoull_count ?_ hends hi
    rw [substr, hchars, String.toList_ofList]
    rfl
  have hlen : (Nat.toDigits 10 i).length + 1 < (resultToken i text).length := by
    rw [← String.length_toList, hchars]
    simp
  have hat : charAt (resultToken i text) ((Nat.toDigits 10 i).length + 1) = '@' := by
    rw [charAt, hchars]
    simp
  have hname : substr (resultToken i text) ((Nat.toDigits 10 i).length + 2) = text := by
    rw [substr, hchars]
    simp
  unfold getAddrFromCommand
  rw [if_pos (.inr hfirst), hnumber, except_ok_bind]
  dsimp only
  rw [if_pos hlen, if_pos hat, hname]
  show (st.getLatestSearch (if text = "" then none else some text) >>= _) = _ ↔ _
  have hsearch : (if text = "" then none else some text).getD st.currentSearchName =
      st.searchName text := by
    unfold searchName
    split <;> rfl
  unfold resultAt
  rw [except_bind_eq_ok, Option.bind_eq_some_iff, ← hsearch]
  refine exists_congr fun search => and_congr getLatestSearch_eq_ok ?_
  cases search.results[i]? with
  | none =>
    refine ⟨fun h => ?_, fun h => ?_⟩
    · cases h
    · cases h
  | some result => exact ⟨fun h => congrArg some (Except.ok.inj h), fun h => by cases h; rfl⟩

/-- The search that the word resolves to has the address as its result: the search of
the name, or the current one for the name without characters. -/
def Resolves (st : MemwatchShell) (i : Nat) (name : String) (a : Nat) : Prop :=
  name = "" → st.resultAt st.currentSearchName i = some a

theorem resolves_iff (hi : i < 2 ^ 64) (hres : st.resultAt name i = some a) :
    st.getAddrFromCommand (resultToken i name) = .ok a ↔ st.Resolves i name a := by
  rw [getAddrFromCommand_resultToken hi, Resolves, searchName]
  split
  · next hempty => rw [imp_iff_right hempty]
  · next hne => exact iff_of_true hres fun hempty => absurd hempty hne

theorem append_resultToken (i : Nat) (name : String) : (resultToken i name).toList =
    's' :: (Nat.toDigits 10 i ++ ['@']) ++ name.toList := by
  rw [toList_resultToken, List.cons_append, List.append_assoc, List.singleton_append]

theorem not_mem_before_name {c : Char} (hs : c ≠ 's') (hat : c ≠ '@')
    (hdigit : digit? 10 c = none) : c ∉ 's' :: (Nat.toDigits 10 i ++ ['@']) := by
  obtain ⟨ds, hds, -⟩ := digitsOf_printCount i
  rw [printCount, String.toList_ofList] at hds
  rw [List.mem_cons, List.mem_append, List.mem_singleton]
  rintro (heq | hmem | heq)
  · exact hs heq
  · obtain ⟨d, hd⟩ := exists_digit_of_mem hds hmem
    rw [hdigit] at hd
    cases hd
  · exact hat heq

theorem space_not_mem_resultToken (h : ' ' ∉ name.toList) : ' ' ∉ (resultToken i name).toList := by
  rw [append_resultToken, List.mem_append]
  exact not_or.mpr ⟨not_mem_before_name (by decide) (by decide) rfl, h⟩

/-- The first dash of the word is the first dash of the name. -/
theorem find_resultToken (i : Nat) (name : String) : find (resultToken i name) '-' =
    (find name '-').map (· + ((Nat.toDigits 10 i).length + 2)) := by
  have hnone : ('s' :: (Nat.toDigits 10 i ++ ['@'])).findIdx? (· = '-') = none := by
    rw [List.findIdx?_eq_none_iff]
    rintro c hc
    refine decide_eq_false ?_
    rintro rfl
    exact not_mem_before_name (by decide) (by decide) rfl hc
  rw [find, append_resultToken, List.findIdx?_append, hnone, Option.none_or, find]
  simp

theorem substrTo_resultToken (i pos : Nat) (name : String) :
    substrTo (resultToken i name) (pos + ((Nat.toDigits 10 i).length + 2)) =
      resultToken i (substrTo name pos) := by
  have hlen : pos + ((Nat.toDigits 10 i).length + 2) =
      ('s' :: (Nat.toDigits 10 i ++ ['@'])).length + pos := by
    simp
    omega
  rw [← String.toList_inj, append_resultToken, substrTo, String.toList_ofList, append_resultToken,
    substrTo, String.toList_ofList, hlen, List.take_length_add_append]

theorem substr_resultToken (i pos : Nat) (name : String) :
    substr (resultToken i name) (pos + ((Nat.toDigits 10 i).length + 2)) = substr name pos := by
  have hlen : pos + ((Nat.toDigits 10 i).length + 2) =
      ('s' :: (Nat.toDigits 10 i ++ ['@'])).length + pos := by
    simp
    omega
  rw [substr, substr, append_resultToken, hlen, List.drop_length_add_append]

end Resolve

/-! ## The commands -/

/-- The commands that take the address of a result. -/
inductive AddressCommand where
  | read | write | freeze | delete

section Commands

variable [PhosgText] {st : MemwatchShell} {i a : Nat} {name rest : String}

/-- A word stands for an address in a command. In the first two it is as good as the
address itself, whatever follows; `freeze` freezes the data there, and `delete` takes
it for the range of the address. -/
def Denotes (st : MemwatchShell) (word : String) (a : Nat) : AddressCommand → Prop
  | .read => ∀ target rest,
      commandRead target (line word rest) st = commandRead target (line (printHex a) rest) st
  | .write => ∀ rest, commandWrite (line word rest) st = commandWrite (line (printHex a) rest) st
  | .freeze => ∀ target rest data mask, NoOptions rest →
      PhosgText.parseDataString (freezeText rest) = .ok (data, mask) → data ≠ [] →
        ∃ freezeName, commandFreeze target (line word rest) st = .ok ()
          (st.withRegion (Region.new freezeName st.freezer.nextIndex a data true))
  | .delete => st.deleteRange word = .ok (a, a)

/-- When the word for a result stands for it. -/
def DenotesWhen (st : MemwatchShell) (i : Nat) (name : String) (a : Nat) : AddressCommand → Prop
  | .read => st.Resolves i name a
  | .write => False
  | .freeze => st.Resolves i name a ∧ a ≠ 0
  | .delete =>
    match find name '-' with
    | none => st.Resolves i name a
    | some dashPos =>
      st.resultAt (st.searchName (substrTo name dashPos)) i = some a ∧
        st.getAddrFromCommand (substr name (dashPos + 1)) = .ok a

omit [PhosgText] in
theorem line_resultToken (i : Nat) (name rest : String) :
    line (resultToken i name) rest = resultToken i (line name rest) := by
  rw [← String.toList_inj, toList_line, append_resultToken, append_resultToken, toList_line,
    List.append_assoc]

/-- `write` looks for a search whose name goes on to the end of the line. -/
theorem commandWrite_resultToken (hst : Spaceless st) (hi : i < 2 ^ 64) {out : Nat × Bytes}
    {st' : MemwatchShell} : commandWrite (line (resultToken i name) rest) st ≠ .ok out st' := by
  intro h
  unfold commandWrite at h
  rw [get_bind] at h
  obtain ⟨b, haddr, -⟩ := raise_bind_eq_ok.mp h
  have hspace : ' ' ∈ (line name rest).toList := by
    rw [toList_line]
    exact List.mem_append_right _ List.mem_cons_self
  rw [line_resultToken, getAddrFromCommand_resultToken hi, searchName, if_neg fun h => ?_] at haddr
  · obtain ⟨search, hsearch, -⟩ := Option.bind_eq_some_iff.mp haddr
    obtain ⟨searches, hfind, -⟩ := Option.bind_eq_some_iff.mp hsearch
    exact hst _ _ hfind hspace
  · rw [h] at hspace
    cases hspace

omit [PhosgText] in
theorem deleteRange_of_none {arg : String} (hfind : find arg '-' = none) :
    st.deleteRange arg = .ok (a, a) ↔ st.getAddrFromCommand arg = .ok a := by
  unfold deleteRange
  rw [hfind]
  refine except_bind_eq_ok.trans ⟨?_, ?_⟩
  · rintro ⟨addr, haddr, hrange⟩
    obtain ⟨_, hpure, hrange⟩ := except_bind_eq_ok.mp hrange
    cases hpure
    dsimp only at hrange
    rw [if_neg (Nat.lt_irrefl addr)] at hrange
    cases hrange
    exact haddr
  · intro haddr
    exact ⟨a, haddr, if_neg (Nat.lt_irrefl a)⟩

omit [PhosgText] in
theorem deleteRange_of_some {arg : String} {dashPos : Nat} (hfind : find arg '-' = some dashPos) :
    st.deleteRange arg = .ok (a, a) ↔ st.getAddrFromCommand (substrTo arg dashPos) = .ok a ∧
      st.getAddrFromCommand (substr arg (dashPos + 1)) = .ok a := by
  unfold deleteRange
  rw [hfind]
  refine except_bind_eq_ok.trans ⟨?_, ?_⟩
  · rintro ⟨first, hfirst, hrange⟩
    obtain ⟨second, hsecond, hrange⟩ := except_bind_eq_ok.mp hrange
    obtain ⟨_, hpure, hrange⟩ := except_bind_eq_ok.mp hrange
    cases hpure
    dsimp only at hrange
    split at hrange
    · cases hrange
    · cases hrange
      exact ⟨hfirst, hsecond⟩
  · rintro ⟨hfirst, hsecond⟩
    exact ⟨a, hfirst, except_bind_eq_ok.mpr ⟨a, hsecond, if_neg (Nat.lt_irrefl a)⟩⟩

variable [LawfulPhosgText]

/-! ### One byte of data -/

def dataWord : String := PhosgText.formatDataString [0] none

theorem space_not_mem_dataWord : ' ' ∉ dataWord.toList := fun h => (word_format _ _ _ h).1 rfl

theorem split_dataWord : PhosgText.split dataWord ' ' = [dataWord] :=
  split_word space_not_mem_dataWord

theorem parse_dataWord : PhosgText.parseDataString dataWord = .ok ([0], [0xFF]) := by
  rw [dataWord, LawfulPhosgText.format_none]
  exact LawfulPhosgText.parse_format (isMask_replicate _)

theorem not_blank_dataWord : ∀ c ∈ dataWord.toList, c ∉ blanks := by
  intro c hc hblank
  have hchar := LawfulPhosgText.mem_format hc
  simp only [blanks, List.mem_cons, List.not_mem_nil, or_false] at hblank
  rcases hblank with rfl | rfl | rfl | rfl <;> revert hchar <;> decide

theorem dataText_dataWord : dataText dataWord = dataWord := by
  unfold dataText
  rw [List.dropWhile_eq_self_iff.mpr, String.ofList_toList]
  intro hlen hblank
  exact not_blank_dataWord _ (List.getElem_mem hlen) (of_decide_eq_true hblank)

theorem noOptions_dataWord : NoOptions dataWord := by
  intro w hw
  rw [split_dataWord, List.mem_singleton] at hw
  rw [hw]
  exact charAt_format _ _

theorem freezeText_dataWord : freezeText dataWord = dataWord := by
  rw [freezeText, split_dataWord, List.foldl_cons, List.foldl_nil, String.empty_append]

/-! ### The commands one by one -/

section

variable {word : String}

theorem denotes_read (hlt : a < 2 ^ 64) (hword : ' ' ∉ word.toList) :
    Denotes st word a .read ↔ st.getAddrFromCommand word = .ok a := by
  have hhex : ' ' ∉ (printHex a).toList := not_mem_hexToken (hexToken_printHex a) (by decide)
  have haddr := getAddrFromCommand_printHex st hlt
  constructor
  · intro h
    obtain ⟨out, hout⟩ : ∃ out, commandRead idleTarget (line (printHex a) "1") st = .ok out st :=
      commandRead_one hhex haddr
    obtain rfl := Except.ok.inj (haddr.symm.trans (addr_of_commandRead hhex hout))
    exact addr_of_commandRead hword ((h idleTarget "1").trans hout)
  · exact fun h target rest => commandRead_congr hword hhex (h.trans haddr.symm)

theorem not_denotes_write (hst : Spaceless st) (hi : i < 2 ^ 64) (hlt : a < 2 ^ 64) :
    ¬ Denotes st (resultToken i name) a .write := by
  intro h
  have hhex := hexToken_printHex a
  have haddr : st.getAddrFromCommand (line (printHex a) dataWord) = .ok a :=
    getAddrFromCommand_hexToken hhex hlt (toList_line _ _) (ends_cons (.inl rfl))
  have hwrite : commandWrite (line (printHex a) dataWord) st = .ok (a, [0]) st := by
    refine (commandWrite_line (not_blank_hexToken hhex) haddr).mpr ⟨⟨rfl, rfl⟩, nofun, ?_⟩
    rw [dataText_dataWord]
    exact ⟨_, parse_dataWord⟩
  exact commandWrite_resultToken hst hi ((h dataWord).trans hwrite)

theorem addr_of_commandFreeze {target : Target} {st' : MemwatchShell} (hword : ' ' ∉ word.toList)
    (hplus : charAt word 0 ≠ '+')
    (h : commandFreeze target (line word dataWord) st = .ok () st') :
    ∃ a, st.getAddrFromCommand word = .ok a ∧ a ≠ 0 := by
  obtain ⟨-, args, b, d, hargs, hb, hd, hcheck, -⟩ := commandFreeze_eq_ok.mp h
  rw [splitArgs_freeze hword, split_dataWord] at hargs
  cases hargs
  have hdata : charAt dataWord 0 ≠ '+' := charAt_format _ _
  have hplain : Plainly b := Plainly.new.foldlM
    (List.forall_mem_cons.mpr ⟨hplus, List.forall_mem_singleton.mpr hdata⟩) hb
  rw [List.foldlM_cons] at hb
  obtain ⟨first, hfirst, hb⟩ := except_bind_eq_ok.mp hb
  obtain ⟨a, haddr, rfl⟩ := addr_of_readFreezeArg hplus rfl hfirst
  refine ⟨a, haddr, ?_⟩
  rintro rfl
  -- The data is taken for the address, and none is left.
  rw [List.foldlM_cons] at hb
  obtain ⟨second, hsecond, hb⟩ := except_bind_eq_ok.mp hb
  obtain ⟨_, -, rfl⟩ := addr_of_readFreezeArg hdata rfl hsecond
  cases hb
  exact hplain.dataToParse_ne_empty hd hcheck rfl

theorem denotes_freeze (hi : st.interactive = true) (hword : ' ' ∉ word.toList)
    (hplus : charAt word 0 ≠ '+') :
    Denotes st word a .freeze ↔ st.getAddrFromCommand word = .ok a ∧ a ≠ 0 := by
  constructor
  · intro h
    obtain ⟨freezeName, hfreeze⟩ := h idleTarget dataWord [0] [0xFF] noOptions_dataWord
      (freezeText_dataWord.symm ▸ parse_dataWord) nofun
    obtain ⟨b, haddr, hb⟩ := addr_of_commandFreeze hword hplus hfreeze
    obtain ⟨data, mask, -, -, hst⟩ :=
      (commandFreeze_line hi hword hplus haddr noOptions_dataWord hb).mp hfreeze
    obtain rfl : a = b := congrArg RegionFreezer.Region.addr (withRegion_inj hst)
    exact ⟨haddr, hb⟩
  · rintro ⟨haddr, ha⟩ target rest data mask hrest hparse hne
    exact ⟨_, (commandFreeze_line hi hword hplus haddr hrest ha).mpr ⟨data, mask, hparse, hne, rfl⟩⟩

end

/-- The word for a result of a search stands for it in a command if and only if the
condition of the command holds. -/
theorem result_reference_iff (hst : Spaceless st) (hinteractive : st.interactive = true)
    (hi : i < 2 ^ 64) (hlt : a < 2 ^ 64) (hres : st.resultAt name i = some a)
    (command : AddressCommand) :
    Denotes st (resultToken i name) a command ↔ DenotesWhen st i name a command := by
  obtain ⟨search, hsearch, -⟩ := Option.bind_eq_some_iff.mp hres
  obtain ⟨searches, hfind, -⟩ := Option.bind_eq_some_iff.mp hsearch
  have hword := space_not_mem_resultToken (i := i) (hst name searches hfind)
  have hplus : charAt (resultToken i name) 0 ≠ '+' := by
    rw [charAt_resultToken]
    decide
  have hresolves := resolves_iff hi hres
  cases command with
  | read => exact (denotes_read hlt hword).trans hresolves
  | write => exact iff_of_false (not_denotes_write hst hi hlt) id
  | freeze => exact (denotes_freeze hinteractive hword hplus).trans (and_congr_left' hresolves)
  | delete =>
    have hdash := find_resultToken i name
    unfold DenotesWhen
    cases hname : find name '-' with
    | none =>
      rw [hname] at hdash
      exact (deleteRange_of_none hdash).trans hresolves
    | some dashPos =>
      rw [hname] at hdash
      rw [Denotes, deleteRange_of_some hdash, substrTo_resultToken,
        getAddrFromCommand_resultToken hi, Nat.add_right_comm, substr_resultToken]

end Commands

section

open Plain

/-- A shell with a search of the name, the one result of which is at 0x1000. -/
def resultShell (name : String) : MemwatchShell :=
  bareShell.setSearches name [{ MemorySearch.new .uint8 false with results := [0x1000] }]

theorem resultShell_spaceless {name : String} (hname : ' ' ∉ name.toList) :
    Spaceless (resultShell name) := by
  refine OpenSearches.setSearches ?_ hname
  intro name searches hfind
  cases hfind

/-- A result of a search with a name can be read. -/
theorem read_reference : Denotes (resultShell "a") (resultToken 0 "a") 0x1000 .read := by
  have : LawfulPhosgText := plainPhosg_lawful
  exact (result_reference_iff (resultShell_spaceless (by decide)) rfl (by decide) (by decide) rfl
    .read).mpr nofun

/-- It cannot be written, and it cannot be deleted if there is a dash in the name. -/
theorem reference_not_write :
    ((resultShell "a").resultAt "a" 0 = some 0x1000 ∧
      ¬ Denotes (resultShell "a") (resultToken 0 "a") 0x1000 .write) ∧
    (resultShell "a-b").resultAt "a-b" 0 = some 0x1000 ∧
      ¬ Denotes (resultShell "a-b") (resultToken 0 "a-b") 0x1000 .delete := by
  have : LawfulPhosgText := plainPhosg_lawful
  refine ⟨⟨rfl, ?_⟩, rfl, ?_⟩
  · exact not_denotes_write (resultShell_spaceless (by decide)) (by decide) (by decide)
  · intro hdelete
    have hdash : find (resultToken 0 "a-b") '-' = some 4 := by decide +kernel
    obtain ⟨hfirst, -⟩ := (deleteRange_of_some hdash).mp hdelete
    revert hfirst
    decide +kernel

end

end MemwatchShell
end Memwatch
