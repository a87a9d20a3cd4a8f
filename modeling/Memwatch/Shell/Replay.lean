import Memwatch.Shell.Frozen

/-!
# Replayed commands

A frozen region prints a `freeze` command. Its words, read one after another, are the
region again, but for the name: where there is none, the command names the region
after the current search.
-/

namespace Memwatch

namespace MemwatchShell

open Lib Text RegionFreezer

/-! ## The words of a printed command -/

section Words

theorem Word.cString {s : String} (h : Word s) : cString s = s := by
  have hall : ∀ c ∈ s.toList, decide (c ≠ '\x00') = true :=
    fun c hc => decide_eq_true (h c hc).2
  rw [Text.cString, List.takeWhile_eq_self_iff.mpr hall, String.ofList_toList]

theorem Word.append {s t : String} (hs : Word s) (ht : Word t) : Word (s ++ t) := by
  intro c hc
  rw [String.toList_append] at hc
  exact (List.mem_append.mp hc).elim (hs c) (ht c)

theorem word_of_digitsOf {s : String} {base : Nat} {ds : List Nat}
    (h : DigitsOf base s.toList ds) : Word s := by
  intro c hc
  obtain ⟨d, hd⟩ := exists_digit_of_mem h hc
  exact ⟨ne_of_digit? hd (by decide), ne_of_digit? hd (by decide)⟩

variable [PhosgText] {r : RegionFreezer.Region}

/-- The null data is printed unless it is empty. -/
def nullDataText (r : RegionFreezer.Region) : Option String :=
  r.items.bind fun items =>
    if items.nullData ≠ [] ∧ items.nullDataMask ≠ [] then
      some (PhosgText.formatDataString items.nullData (some items.nullDataMask))
    else none

/-- The words after the name of the command. -/
def freezeWords (r : RegionFreezer.Region) : List String :=
  ["+n" ++ r.name, printHex r.addr] ++
    (r.items.map fun items => "+m" ++ printCount items.numItems).toList ++
    [PhosgText.formatDataString r.data (r.items.map ArrayItems.dataMask)] ++
    (if r.enable then [] else ["+d"]) ++ ((nullDataText r).map fun text => "+N" ++ text).toList

variable [LawfulPhosgText]

theorem word_format (data : Bytes) (mask : Option Bytes) :
    Word (PhosgText.formatDataString data mask) := by
  intro c hc
  rcases LawfulPhosgText.mem_format hc with rfl | hdigit
  · decide
  · obtain ⟨d, hd⟩ := Option.isSome_iff_exists.mp hdigit
    exact ⟨ne_of_digit? hd (by decide), ne_of_digit? hd (by decide)⟩

theorem toList_printCommand (h : SoundRegion r) : r.printCommand.toList =
    'f' :: ' ' :: [' '].intercalate ((freezeWords r).map String.toList) := by
  unfold Region.printCommand freezeWords nullDataText
  cases r.items with
  | none =>
    dsimp only [Option.map_none, Option.bind_none]
    rw [h.name.cString, (word_format _ _).cString]
    cases r.enable <;> simp [List.intercalate]
  | some items =>
    dsimp only [Option.map_some, Option.bind_some]
    rw [h.name.cString, (word_format _ _).cString, (word_format _ _).cString]
    by_cases hnull : items.nullData ≠ [] ∧ items.nullDataMask ≠ []
    · rw [if_pos hnull, if_pos hnull]
      cases r.enable <;> simp [List.intercalate]
    · rw [if_neg hnull, if_neg hnull]
      cases r.enable <;> simp [List.intercalate]

theorem word_of_mem_freezeWords (h : SoundRegion r) {w : String} (hw : w ∈ freezeWords r) :
    Word w := by
  obtain ⟨_, hhex, -⟩ := digitsOf_printHex r.addr
  unfold freezeWords at hw
  simp only [List.mem_append, List.mem_cons, List.not_mem_nil, or_false, Option.mem_toList,
    Option.map_eq_some_iff] at hw
  rcases hw with ((((rfl | rfl) | ⟨items, -, rfl⟩) | rfl) | hw) | ⟨text, htext, rfl⟩
  · exact .append (by simp [Word]) h.name
  · exact word_of_digitsOf hhex
  · obtain ⟨_, hcount, -⟩ := digitsOf_printCount items.numItems
    exact .append (by simp [Word]) (word_of_digitsOf hcount)
  · exact word_format _ _
  · split at hw
    · cases hw
    · rw [List.mem_singleton.mp hw]
      simp [Word]
  · obtain ⟨items, -, htext⟩ := Option.bind_eq_some_iff.mp htext
    split at htext
    · cases htext
      exact .append (by simp [Word]) (word_format _ _)
    · cases htext

theorem splitArgs_intercalate {words : List String} (hwords : ∀ w ∈ words, Word w)
    (hlen : 2 ≤ words.length) :
    splitArgs (String.ofList ([' '].intercalate (words.map String.toList))) 2 0 = .ok words := by
  have hspace : ∀ l ∈ words.map String.toList, ' ' ∉ l := by
    intro l hl hmem
    obtain ⟨w, hw, rfl⟩ := List.mem_map.mp hl
    exact (hwords w hw ' ' hmem).1 rfl
  have hne : words.map String.toList ≠ [] := by
    rw [ne_eq, List.map_eq_nil_iff]
    rintro rfl
    cases hlen
  have hsplit : PhosgText.split (String.ofList ([' '].intercalate (words.map String.toList))) ' ' =
      words := by
    rw [LawfulPhosgText.split_eq, String.toList_ofList, List.splitOn_intercalate _ hspace hne,
      List.map_map]
    exact (List.map_congr_left fun w _ => String.ofList_toList).trans (List.map_id words)
  unfold splitArgs
  dsimp only
  rw [hsplit, if_neg hlen.not_gt, if_neg fun h => h.1 rfl]

theorem dispatchCommand_freeze [Phosg] [FloatText] (others : Handler → String → Command Unit)
    (target : Target) {line : String} {c : Char} {cs : List Char} (hc : c ∉ blanks)
    (hline : line.toList = 'f' :: ' ' :: c :: cs) :
    dispatchCommand others target line = commandFreeze target (String.ofList (c :: cs)) := by
  have hend : PhosgText.skipNonWhitespace line 0 = 1 := by
    rw [LawfulPhosgText.skipNonWhitespace_eq, hline]
    rfl
  have hbegin : PhosgText.skipWhitespace line 1 = 2 := by
    rw [LawfulPhosgText.skipWhitespace_eq, hline, List.drop_succ_cons, List.drop_zero,
      List.takeWhile_cons_of_pos (by decide), List.takeWhile_cons_of_neg (by simpa using hc)]
    rfl
  have hne : line ≠ "" := by
    rintro rfl
    cases hline
  unfold dispatchCommand
  rw [if_neg hne]
  dsimp only
  rw [hend, hbegin, substrTo, substr, hline]
  rfl

end Words

/-! ## Reading the words -/

section Read

variable {st : MemwatchShell} {a : FreezeArgs} {n : Nat}

theorem option_chars {o : String} {c : Char} (ho : o.toList = ['+', c]) (text : String) :
    charAt (o ++ text) 0 = '+' ∧ charAt (o ++ text) 1 = c ∧ substr (o ++ text) 2 = text := by
  unfold charAt substr
  rw [String.toList_append, ho]
  exact ⟨rfl, rfl, String.ofList_toList⟩

theorem read_name (st : MemwatchShell) (a : FreezeArgs) (name : String) :
    st.readFreezeArg a ("+n" ++ name) = .ok { a with name := name } := by
  obtain ⟨hplus, hoption, htext⟩ := option_chars (o := "+n") (c := 'n') (by simp) name
  rw [readFreezeArg, if_pos hplus, if_pos hoption, htext]

theorem read_count (st : MemwatchShell) (a : FreezeArgs) (hlt : n < 2 ^ 64) :
    st.readFreezeArg a ("+m" ++ printCount n) = .ok { a with arrayMaxEntries := n } := by
  obtain ⟨hplus, hoption, htext⟩ := option_chars (o := "+m") (c := 'm') (by simp) (printCount n)
  obtain ⟨endPos, hnumber⟩ := stoull_printCount hlt
  rw [readFreezeArg, if_pos hplus, hoption, if_neg (by decide), if_neg (by decide), if_pos rfl,
    htext, hnumber]
  rfl

theorem read_disable (st : MemwatchShell) (a : FreezeArgs) :
    st.readFreezeArg a "+d" = .ok { a with enable := false } := by
  obtain ⟨hplus, hoption, -⟩ := option_chars (o := "+d") (c := 'd') (by simp) ""
  rw [String.append_empty] at hplus hoption
  rw [readFreezeArg, if_pos hplus, hoption, if_neg (by decide), if_neg (by decide),
    if_neg (by decide), if_pos rfl]

theorem read_null (st : MemwatchShell) (a : FreezeArgs) (text : String) :
    st.readFreezeArg a ("+N" ++ text) =
      .ok { a with
        readingNullDataToParse := true
        nullDataToParse := a.nullDataToParse ++ text } := by
  obtain ⟨hplus, hoption, htext⟩ := option_chars (o := "+N") (c := 'N') (by simp) text
  rw [readFreezeArg, if_pos hplus, hoption, if_neg (by decide), if_neg (by decide),
    if_neg (by decide), if_neg (by decide), if_pos rfl, htext]

theorem read_data (st : MemwatchShell) {text : String} (htext : charAt text 0 ≠ '+')
    (haddr : a.addr ≠ 0) (hnull : a.readingNullDataToParse = false) :
    st.readFreezeArg a text = .ok { a with dataToParse := a.dataToParse ++ text } := by
  rw [readFreezeArg, if_neg htext, if_pos haddr, if_neg (by rw [hnull]; exact Bool.false_ne_true)]

theorem foldlM_count (st : MemwatchShell) (a : FreezeArgs) {items : Option ArrayItems}
    (hlt : ∀ i, items = some i → i.numItems < 2 ^ 64) (ha : a.arrayMaxEntries = 0) :
    (items.map fun items => "+m" ++ printCount items.numItems).toList.foldlM st.readFreezeArg a =
      .ok { a with arrayMaxEntries := (items.map ArrayItems.numItems).getD 0 } := by
  cases items with
  | none => rw [Option.map_none, Option.map_none, Option.getD_none, ← ha]; rfl
  | some items => exact congrArg (· >>= _) (read_count st a (hlt items rfl))

theorem foldlM_flag (st : MemwatchShell) (a : FreezeArgs) (enable : Bool) (ha : a.enable = true) :
    (if enable then [] else ["+d"]).foldlM st.readFreezeArg a =
      .ok { a with enable := enable } := by
  cases enable with
  | true => rw [if_pos rfl, ← ha]; rfl
  | false => exact congrArg (· >>= _) (read_disable st a)

theorem foldlM_null (st : MemwatchShell) (a : FreezeArgs) (text : Option String)
    (ha : a.readingNullDataToParse = false) (hempty : a.nullDataToParse = "") :
    (text.map fun text => "+N" ++ text).toList.foldlM st.readFreezeArg a =
      .ok { a with
        readingNullDataToParse := text.isSome
        nullDataToParse := text.getD "" } := by
  cases text with
  | none => rw [Option.isSome_none, ← ha, Option.getD_none, ← hempty]; rfl
  | some text =>
    refine (congrArg (· >>= _) (read_null st a text)).trans ?_
    rw [hempty, String.empty_append]
    rfl

/-- A hexadecimal number is its own address, whatever follows. -/
theorem getAddrFromCommand_hexToken {tok text : String} {rest : List Char} (h : HexToken tok n)
    (hlt : n < 2 ^ 64) (htext : text.toList = tok.toList ++ rest) (hrest : Ends rest) :
    st.getAddrFromCommand text = .ok n := by
  obtain ⟨d, hd⟩ := charAt_hexToken h htext
  obtain ⟨endPos, hnumber⟩ := stoull_of_hexToken h htext hrest hlt
  have hne : ∀ c, digit? 16 c = none → charAt text 0 ≠ c := by
    rintro c hc rfl
    rw [hc] at hd
    cases hd
  unfold getAddrFromCommand
  rw [if_neg (not_or.mpr ⟨hne 'x' rfl, hne 's' rfl⟩), if_neg (hne 't' rfl), hnumber]
  rfl

theorem getAddrFromCommand_printHex (st : MemwatchShell) (hlt : n < 2 ^ 64) :
    st.getAddrFromCommand (printHex n) = .ok n :=
  getAddrFromCommand_hexToken (hexToken_printHex n) hlt (List.append_nil _).symm ends_nil

theorem read_word {word : String} (hword : charAt word 0 ≠ '+') (ha : a.addr = 0)
    (haddr : st.getAddrFromCommand word = .ok n) :
    st.readFreezeArg a word = .ok { a with addrArg := word, addr := n } := by
  rw [readFreezeArg, if_neg hword, if_neg (not_not.mpr ha), haddr]
  rfl

theorem read_addr (st : MemwatchShell) (haddr : a.addr = 0) (hlt : n < 2 ^ 64) :
    st.readFreezeArg a (printHex n) = .ok { a with addrArg := printHex n, addr := n } := by
  obtain ⟨d, hd⟩ := charAt_hexToken (hexToken_printHex n) (List.append_nil _).symm
  exact read_word (ne_of_digit? hd (by decide)) haddr (getAddrFromCommand_printHex st hlt)

end Read

/-! ## Replaying a region -/

section Replay

variable [PhosgText] {st : MemwatchShell} {r : RegionFreezer.Region}

def replayArgs (r : RegionFreezer.Region) : FreezeArgs where
  name := r.name
  addrArg := printHex r.addr
  addr := r.addr
  arrayMaxEntries := (r.items.map ArrayItems.numItems).getD 0
  readSize := 0
  dataToParse := PhosgText.formatDataString r.data (r.items.map ArrayItems.dataMask)
  nullDataToParse := (nullDataText r).getD ""
  readingNullDataToParse := (nullDataText r).isSome
  enable := r.enable

def replayData (r : RegionFreezer.Region) : FreezeData where
  data := r.data
  dataMask := (r.items.map ArrayItems.dataMask).getD (List.replicate r.data.length 0xFF)
  nullData := (r.items.map ArrayItems.nullData).getD []
  nullDataMask := (r.items.map ArrayItems.nullDataMask).getD []

def replayed (r : RegionFreezer.Region) (name : String) (index : Nat) : RegionFreezer.Region :=
  { r with name := name, index := index, error := "" }

theorem newRegion_replay (h : SoundRegion r) (freezer : RegionFreezer) (name : String) :
    newRegion freezer name (replayArgs r) (replayData r) = replayed r name freezer.nextIndex := by
  unfold newRegion replayArgs replayData replayed
  cases hitems : r.items with
  | none => rfl
  | some items =>
    have hsound := h.items items hitems
    dsimp only [Option.map_some, Option.getD_some]
    rw [if_pos hsound.pos]
    split
    · next hempty =>
      have hmask : items.nullDataMask = [] :=
        List.length_eq_zero_iff.mp (hsound.nullDataMask.1.trans (congrArg List.length hempty))
      rw [← hmask]
    · rfl

theorem checkFreeze_replay (h : SoundRegion r) :
    checkFreeze (replayArgs r) (replayData r) = .ok () := by
  unfold checkFreeze replayArgs replayData
  cases hitems : r.items with
  | none => exact (if_neg h.data).trans (if_neg fun hne => hne rfl)
  | some items =>
    have hsound := h.items items hitems
    dsimp only [Option.map_some, Option.getD_some]
    rw [if_neg h.data]
    split
    · next hne => rw [if_neg hsound.pos, if_neg (not_not.mpr (hsound.nullData hne))]
    · rfl

variable [LawfulPhosgText]

theorem parse_data (h : SoundRegion r) :
    PhosgText.parseDataString
        (PhosgText.formatDataString r.data (r.items.map ArrayItems.dataMask)) =
      .ok ((replayData r).data, (replayData r).dataMask) := by
  unfold replayData
  cases hitems : r.items with
  | none =>
    rw [Option.map_none, LawfulPhosgText.format_none]
    exact LawfulPhosgText.parse_format (isMask_replicate r.data)
  | some items => exact LawfulPhosgText.parse_format (h.items items hitems).dataMask

theorem parse_nullData (h : SoundRegion r) :
    PhosgText.parseDataString ((nullDataText r).getD "") =
      .ok ((replayData r).nullData, (replayData r).nullDataMask) := by
  unfold nullDataText replayData
  cases hitems : r.items with
  | none => exact LawfulPhosgText.parse_empty
  | some items =>
    have hmask := (h.items items hitems).nullDataMask
    dsimp only [Option.bind_some, Option.map_some, Option.getD_some]
    split
    · exact LawfulPhosgText.parse_format hmask
    · next hempty =>
      have hnull : items.nullData = [] := by
        by_contra hne
        refine hempty ⟨hne, fun hnil => hne (List.length_eq_zero_iff.mp ?_)⟩
        rw [← hmask.1, hnil]
        rfl
      have hnullMask : items.nullDataMask = [] := by
        rw [hnull] at hmask
        exact List.length_eq_zero_iff.mp hmask.1
      rw [hnull, hnullMask]
      exact LawfulPhosgText.parse_empty

theorem freezeData_replay (target : Target) (h : SoundRegion r) :
    freezeData target (replayArgs r) = .ok (replayData r) := by
  unfold freezeData
  rw [if_neg fun hne => hne rfl]
  refine except_bind_eq_ok.mpr ⟨_, parse_data h, ?_⟩
  exact except_bind_eq_ok.mpr ⟨_, parse_nullData h, rfl⟩

theorem charAt_format (data : Bytes) (mask : Option Bytes) :
    charAt (PhosgText.formatDataString data mask) 0 ≠ '+' := by
  intro hplus
  unfold charAt at hplus
  cases htext : (PhosgText.formatDataString data mask).toList with
  | nil => rw [htext] at hplus; cases hplus
  | cons c cs =>
    rw [htext] at hplus
    obtain rfl : c = '+' := hplus
    rcases LawfulPhosgText.mem_format (htext ▸ List.mem_cons_self) with heq | hdigit
    · cases heq
    · cases hdigit

theorem foldlM_freezeWords (st : MemwatchShell) (h : SoundRegion r) (haddr : r.addr ≠ 0)
    (hlt : r.addr < 2 ^ 64) :
    (freezeWords r).foldlM st.readFreezeArg FreezeArgs.new = .ok (replayArgs r) := by
  have hname : ["+n" ++ r.name, printHex r.addr].foldlM st.readFreezeArg FreezeArgs.new =
      .ok ⟨r.name, printHex r.addr, r.addr, 0, 0, "", "", false, true⟩ := by
    rw [List.foldlM_cons, read_name, except_ok_bind, List.foldlM_cons, read_addr st rfl hlt]
    rfl
  have htext := charAt_format r.data (r.items.map ArrayItems.dataMask)
  unfold freezeWords replayArgs
  rw [List.foldlM_append, List.foldlM_append, List.foldlM_append, List.foldlM_append, hname,
    except_ok_bind, foldlM_count st _ (fun items hitems => (h.items items hitems).lt) rfl,
    except_ok_bind, List.foldlM_cons, read_data st htext haddr rfl, except_ok_bind,
    List.foldlM_nil]
  dsimp only
  rw [String.empty_append]
  show (List.foldlM _ _ _ >>= _) = _
  rw [foldlM_flag st _ r.enable rfl, except_ok_bind]
  exact foldlM_null st _ _ rfl rfl

omit [PhosgText] [LawfulPhosgText] in
theorem defaultName_printHex (st : MemwatchShell) (n : Nat) : st.defaultName (printHex n) =
    if ((st.nameToSearches.find? st.currentSearchName).bind List.getLast?).isSome then
      st.currentSearchName
    else "" := by
  obtain ⟨ds, hds, -⟩ := digitsOf_printHex n
  have hat : find (printHex n) '@' = none := by
    rw [find, List.findIdx?_eq_none_iff]
    intro c hc
    obtain ⟨d, hd⟩ := exists_digit_of_mem hds hc
    refine decide_eq_false ?_
    rintro rfl
    cases hd
  unfold defaultName
  rw [hat]
  cases (st.nameToSearches.find? st.currentSearchName).bind List.getLast? <;> rfl

variable [Phosg] [FloatText]

/-- The printed command adds the region again, under the name it has or is given. -/
theorem dispatchCommand_printCommand (others : Handler → String → Command Unit) (target : Target)
    (h : SoundRegion r) (haddr : r.addr ≠ 0) (hlt : r.addr < 2 ^ 64) (hi : st.interactive = true) :
    dispatchCommand others target r.printCommand st =
      .ok () { st with freezer := st.freezer.addRegion (replayed r
        (if r.name = "" then st.defaultName (printHex r.addr) else r.name)
        st.freezer.nextIndex) } := by
  have hline : ∃ cs, [' '].intercalate ((freezeWords r).map String.toList) = '+' :: cs := by
    unfold freezeWords
    simp [List.intercalate]
  obtain ⟨cs, hcs⟩ := hline
  have hargs := splitArgs_intercalate (fun w => word_of_mem_freezeWords h)
    (show 2 ≤ (freezeWords r).length by unfold freezeWords; simp)
  rw [hcs] at hargs
  have htext := toList_printCommand h
  rw [hcs] at htext
  rw [dispatchCommand_freeze others target (by decide) htext]
  refine commandFreeze_eq_ok.mpr ⟨hi, _, _, _, hargs, foldlM_freezeWords st h haddr hlt,
    freezeData_replay target h, checkFreeze_replay h, ?_⟩
  rw [newRegion_replay h]
  rfl

/-- The same kind of region, name, address, data and flag, and for an array the same
items. -/
def SameFreeze (r r' : RegionFreezer.Region) : Prop :=
  r'.name = r.name ∧ r'.addr = r.addr ∧ r'.data = r.data ∧ r'.enable = r.enable ∧
    r'.items = r.items

/-- A frozen region is replayed exactly if it has a name, or if the command does not name
it after the current search, because there is none with iterations or its name is empty
too. -/
theorem replay_iff (others : Handler → String → Command Unit) (target : Target) (hr : Frozen r)
    (haddr : r.addr ≠ 0) (hlt : r.addr < 2 ^ 64) (hi : st.interactive = true) :
    (∃ r', dispatchCommand others target r.printCommand st =
        .ok () { st with freezer := st.freezer.addRegion r' } ∧ SameFreeze r r') ↔
      (r.name = "" → st.currentSearchName ≠ "" → ∀ searches,
        st.nameToSearches.find? st.currentSearchName = some searches → searches = []) := by
  have hreplay := dispatchCommand_printCommand others target hr.sound haddr hlt hi
  refine ⟨?_, fun hname => ⟨_, hreplay, ?_, rfl, rfl, rfl, rfl⟩⟩
  · rintro ⟨r', hr', hsame, -⟩ hname hne searches hfind
    have hst := EStateM.Result.ok.inj (hreplay.symm.trans hr')
    obtain rfl := addRegion_inj (congrArg freezer hst.2)
    have hdefault : st.defaultName (printHex r.addr) = "" := by
      simpa [replayed, hname] using hsame
    rw [defaultName_printHex, hfind, Option.bind_some] at hdefault
    by_contra hsearches
    rw [if_pos (by simpa using hsearches)] at hdefault
    exact hne hdefault
  · show (if r.name = "" then st.defaultName (printHex r.addr) else r.name) = r.name
    split
    · next hempty =>
      rw [hempty, defaultName_printHex]
      split
      · next hlatest =>
        by_contra hne
        obtain ⟨search, hsearch⟩ := Option.isSome_iff_exists.mp hlatest
        obtain ⟨searches, hfind, hlast⟩ := Option.bind_eq_some_iff.mp hsearch
        rw [hname hempty hne searches hfind] at hlast
        cases hlast
      · rfl
    · rfl

end Replay

section

open Plain

/-- A region without a name, frozen while no search was open. -/
def unnamedRegion : RegionFreezer.Region := ⟨"", 0, 0x1000, [0xFF], "", true, none⟩

theorem unnamedRegion_frozen : Frozen unnamedRegion := by
  refine ⟨new "target" 10 5 false true false, idleTarget, "1000 FF", unnamedRegion,
    .new "target" 10 5 false false, by decide +kernel, ?_, ?_, true, "", rfl⟩
  · intro addr size data hdata
    cases hdata
    exact List.length_replicate
  · exact commandFreeze_eq_ok.mpr ⟨rfl, ["1000", "FF"],
      ⟨"", "1000", 0x1000, 0, 0, "FF", "", false, true⟩, ⟨[0xFF], [0xFF], [], []⟩,
      rfl, rfl, rfl, rfl, rfl⟩

/-- Where no search is open, the region is replayed without a name. -/
theorem unnamed_replayed : ∃ r', dispatchCommand (fun _ _ => pure ()) idleTarget
      unnamedRegion.printCommand (new "target" 10 5 false true false) =
        .ok () { new "target" 10 5 false true false with
          freezer := (new "target" 10 5 false true false).freezer.addRegion r' } ∧
      SameFreeze unnamedRegion r' := by
  have : LawfulPhosgText := plainPhosg_lawful
  exact (replay_iff _ idleTarget unnamedRegion_frozen (by decide) (by decide) rfl).mpr
    fun _ hne => absurd rfl hne

/-- Where a search is open and current, the region is named after it. -/
theorem unnamed_renamed :
    ¬ ∀ (others : Handler → String → Command Unit) (target : Target) (r : RegionFreezer.Region)
        (st : MemwatchShell), Frozen r → r.addr ≠ 0 → r.addr < 2 ^ 64 → st.interactive = true →
      ∃ r', dispatchCommand others target r.printCommand st =
          .ok () { st with freezer := st.freezer.addRegion r' } ∧ SameFreeze r r' := by
  have : LawfulPhosgText := plainPhosg_lawful
  intro hall
  let st := (new "target" 10 5 false true false).openNew .uint8 false "b"
  obtain ⟨r', hr', hname, -⟩ := hall (fun _ _ => pure ()) idleTarget unnamedRegion st
    unnamedRegion_frozen (by decide) (by decide) rfl
  have hi : st.interactive = true := rfl
  have hreplay := dispatchCommand_printCommand (fun _ _ => pure ()) idleTarget
    unnamedRegion_frozen.sound (by decide) (by decide) hi
  have hst := EStateM.Result.ok.inj (hreplay.symm.trans hr')
  obtain rfl := addRegion_inj (congrArg freezer hst.2)
  have hdefault : st.defaultName (printHex 0x1000) = "" := hname
  revert hdefault
  decide +kernel

end

end MemwatchShell
end Memwatch
