import Memwatch.Search.Delete
import Memwatch.Shell.References

/-!
# Lists of deleted ranges

`delete` looks up all its arguments before it deletes, so that none of them means
anything else because of the ones before it, and one that is rejected stops them all.
-/

namespace Memwatch

open Lib Text

namespace MemwatchShell

/-! ## Ranges -/

section Ranges

def InRange (range : Nat × Nat) (a : Nat) : Prop := range.1 ≤ a ∧ a ≤ range.2

instance decidableInRange (range : Nat × Nat) (a : Nat) : Decidable (InRange range a) :=
  inferInstanceAs (Decidable (_ ∧ _))

/-- Each range is deleted from what the ones before it have left. -/
theorem deleteRanges_eq {search : MemorySearch} (hasc : search.results.Pairwise (· < ·))
    (ranges : List (Nat × Nat))
    (hranges : ∀ range ∈ ranges, range.1 ≤ range.2 ∧ range.2 < 2 ^ 64 - 1) :
    deleteRanges search ranges = .ok { search with
      results := search.results.filter fun a => ∀ range ∈ ranges, ¬ InRange range a } := by
  induction ranges generalizing search with
  | nil =>
    have hkept : (search.results.filter fun a => ∀ range ∈ ([] : List (Nat × Nat)),
        ¬ InRange range a) = search.results :=
      List.filter_eq_self.mpr fun a _ => by simp
    rw [hkept]
    rfl
  | cons range ranges ih =>
    obtain ⟨hle, hlt⟩ := hranges range List.mem_cons_self
    have hfirst := MemorySearch.deleteResults_exact hasc hle hlt
    show ((search.deleteResults range.1 range.2).mapError Fault.ofStop >>= fun search =>
      deleteRanges search ranges) = _
    rw [hfirst]
    refine (ih (hasc.filter _) fun r hr => hranges r (List.mem_cons_of_mem _ hr)).trans ?_
    dsimp only
    rw [List.filter_filter]
    congr 2
    refine List.filter_congr fun a _ => ?_
    simp only [List.forall_mem_cons, InRange, Bool.decide_and, Bool.and_comm]
    congr 1
    rw [decide_eq_decide]
    omega

end Ranges

/-! ## Arguments -/

section Arguments

variable {st : MemwatchShell} {old : List MemorySearch} {search : MemorySearch} {spec : String}

/-- The number at the front of a text, and what follows it. -/
def numberIn (text : List Char) (base : Nat) : Option (Nat × List Char) :=
  (stoull (String.ofList text) base).toOption.map fun number => (number.1, text.drop number.2)

/-- What follows the number of a result: nothing, or the name of its search. -/
def nameIn : List Char → Option String
  | [] => some ""
  | c :: text =>
    if c = '@' then some (String.ofList text) else if c = ' ' then some "" else none

/-- The address a text stands for: `s2`, `x2` and `s2@name` are results of the latest
iteration of a search, `t2` is a result of `find`, and others are numbers in base 16. -/
def addressIn (st : MemwatchShell) : List Char → Option Nat
  | [] => none
  | c :: text =>
    if c = 'x' ∨ c = 's' then do
      let (i, rest) ← numberIn text 0
      let name ← nameIn rest
      st.resultAt (st.searchName name) i
    else if c = 't' then do
      let (i, rest) ← numberIn text 0
      if rest = [] ∨ rest.head? = some ' ' then st.findResults[i]? else none
    else (numberIn (c :: text) 16).map Prod.fst

/-- The inclusive range an argument stands for: one address, or the addresses from the one
before its first dash to the one behind, if they are not in decreasing order. -/
def rangeOf (st : MemwatchShell) (spec : String) : Option (Nat × Nat) :=
  match spec.toList.dropWhile (· ≠ '-') with
  | [] => (st.addressIn spec.toList).map fun a => (a, a)
  | _ :: last => do
    let lo ← st.addressIn (spec.toList.takeWhile (· ≠ '-'))
    let hi ← st.addressIn last
    if lo ≤ hi then some (lo, hi) else none

/-- The address is in the range of the argument. -/
def covers (st : MemwatchShell) (spec : String) (a : Nat) : Bool :=
  (st.rangeOf spec).any fun range => InRange range a

/-- A search without the results that an argument covers. -/
def uncovered (st : MemwatchShell) (specs : List String) (search : MemorySearch) : MemorySearch :=
  { search with results := search.results.filter fun a => ¬ specs.any (st.covers · a) }

theorem uncovered_perm {specs specs' : List String} (h : specs.Perm specs')
    (search : MemorySearch) : st.uncovered specs search = st.uncovered specs' search := by
  unfold uncovered
  simp only [h.any_eq]

theorem le_of_rangeOf {range : Nat × Nat} (h : st.rangeOf spec = some range) :
    range.1 ≤ range.2 := by
  unfold rangeOf at h
  split at h
  · obtain ⟨a, -, rfl⟩ := Option.map_eq_some_iff.mp h
    exact le_rfl
  · obtain ⟨lo, -, h⟩ := Option.bind_eq_some_iff.mp h
    obtain ⟨hi, -, h⟩ := Option.bind_eq_some_iff.mp h
    split at h
    · next hle =>
      obtain rfl := Option.some.inj h
      exact hle
    · cases h

theorem toOption_getLatestSearch (name : Option String) :
    (st.getLatestSearch name).toOption =
      (st.nameToSearches.find? (name.getD st.currentSearchName)).bind List.getLast? := by
  refine Option.ext fun search => ?_
  rw [← getLatestSearch_eq_ok]
  cases st.getLatestSearch name <;> simp [Except.toOption]

theorem toOption_result (name : String) (i : Nat) :
    (st.getLatestSearch (if name = "" then none else some name) >>= fun search =>
      match search.results[i]? with
      | some result => pure result
      | none => throw (invalidArgument "search does not have enough results")).toOption =
        st.resultAt (st.searchName name) i := by
  have hname : (if name = "" then none else some name).getD st.currentSearchName =
      st.searchName name := by
    unfold searchName
    split <;> rfl
  rw [except_toOption_bind, toOption_getLatestSearch, hname]
  unfold resultAt
  congr 1
  funext search
  cases search.results[i]? <;> rfl

theorem nameIn_drop (text : List Char) (endPos : Nat) :
    nameIn (text.drop endPos) =
      if endPos < text.length then
        if text.getD endPos '\x00' = '@' then some (String.ofList (text.drop (endPos + 1)))
        else if text.getD endPos '\x00' ≠ ' ' then none
        else some ""
      else some "" := by
  split_ifs with hlt hat hspace
  · rw [List.drop_eq_getElem_cons hlt, ← List.getD_eq_getElem _ '\x00' hlt]
    exact if_pos hat
  · rw [List.drop_eq_getElem_cons hlt, ← List.getD_eq_getElem _ '\x00' hlt]
    exact (if_neg hat).trans (if_neg hspace)
  · rw [List.drop_eq_getElem_cons hlt, ← List.getD_eq_getElem _ '\x00' hlt]
    exact (if_neg hat).trans (if_pos (not_not.mp hspace))
  · rw [List.drop_of_length_le (by omega)]
    rfl

theorem endsHere_iff (text : List Char) (endPos : Nat) :
    (text.drop endPos = [] ∨ (text.drop endPos).head? = some ' ') ↔
      ¬ (endPos < text.length ∧ text.getD endPos '\x00' ≠ ' ') := by
  by_cases hlt : endPos < text.length
  · rw [List.drop_eq_getElem_cons hlt, List.getD_eq_getElem _ _ hlt]
    simp [hlt]
  · rw [List.drop_of_length_le (by omega)]
    simp [hlt]

/-- `get_addr_from_command` returns the address that a text stands for. -/
theorem toOption_getAddrFromCommand (text : List Char) :
    (st.getAddrFromCommand (String.ofList text)).toOption = st.addressIn text := by
  cases text with
  | nil => rfl
  | cons c text =>
    have hfirst : charAt (String.ofList (c :: text)) 0 = c := by simp [charAt]
    have hnumber : substr (String.ofList (c :: text)) 1 = String.ofList text := by simp [substr]
    have hlen : (String.ofList (c :: text)).length = text.length + 1 := String.length_ofList
    have hchar : ∀ endPos, charAt (String.ofList (c :: text)) (endPos + 1) =
        text.getD endPos '\x00' := fun endPos => by simp [charAt]
    have hrest : ∀ endPos, substr (String.ofList (c :: text)) (endPos + 2) =
        String.ofList (text.drop (endPos + 1)) := fun endPos => by simp [substr]
    unfold getAddrFromCommand addressIn numberIn
    simp only [hfirst, hnumber, hlen, hchar, hrest, Nat.add_lt_add_iff_right]
    split_ifs with hresult hfound
    · rw [except_toOption_bind]
      cases stoull (String.ofList text) 0 with
      | error e => rfl
      | ok number =>
        obtain ⟨i, endPos⟩ := number
        show Except.toOption (ite _ _ _) = (nameIn (text.drop endPos)).bind _
        rw [nameIn_drop]
        split_ifs with hlt hat hspace
        · exact toOption_result _ i
        · rfl
        · exact toOption_result "" i
        · exact toOption_result "" i
    · rw [except_toOption_bind]
      cases stoull (String.ofList text) 0 with
      | error e => rfl
      | ok number =>
        obtain ⟨i, endPos⟩ := number
        show Except.toOption (ite _ _ _) = ite _ _ _
        rw [if_congr (endsHere_iff text endPos) rfl rfl, ite_not]
        split_ifs
        · rfl
        · cases st.findResults[i]? <;> rfl
    · rw [except_toOption_bind]
      cases stoull (String.ofList (c :: text)) 16 <;> rfl

theorem dropWhile_of_find_none (hfind : find spec '-' = none) :
    spec.toList.dropWhile (· ≠ '-') = [] := by
  rw [find, List.findIdx?_eq_none_iff] at hfind
  refine List.dropWhile_eq_nil_iff.mpr fun c hc => ?_
  simpa using hfind c hc

theorem dropWhile_of_find_some {dashPos : Nat} (hfind : find spec '-' = some dashPos) :
    spec.toList.takeWhile (· ≠ '-') = spec.toList.take dashPos ∧
      ∃ c, spec.toList.dropWhile (· ≠ '-') = c :: spec.toList.drop (dashPos + 1) := by
  obtain ⟨hlt, hdash⟩ := List.findIdx?_eq_some_iff_findIdx_eq.mp hfind
  have hnot : (fun c : Char => !decide (c ≠ '-')) = fun c => decide (c = '-') := by
    funext c
    simp
  refine ⟨?_, spec.toList[dashPos], ?_⟩
  · rw [List.takeWhile_eq_take_findIdx_not, hnot, hdash]
  · rw [List.dropWhile_eq_drop_findIdx_not, hnot, hdash, List.drop_eq_getElem_cons hlt]

/-- The range of an argument as the code has it is the range the argument stands for. -/
theorem toOption_deleteRange : (st.deleteRange spec).toOption = st.rangeOf spec := by
  unfold deleteRange rangeOf
  cases hfind : find spec '-' with
  | none =>
    have hspec : (st.getAddrFromCommand spec).toOption = st.addressIn spec.toList := by
      rw [← toOption_getAddrFromCommand, String.ofList_toList]
    rw [dropWhile_of_find_none hfind, ← hspec]
    cases st.getAddrFromCommand spec with
    | error e => rfl
    | ok a =>
      show Except.toOption (ite _ _ _) = _
      rw [if_neg (Nat.lt_irrefl a)]
      rfl
  | some dashPos =>
    obtain ⟨htake, c, hdrop⟩ := dropWhile_of_find_some hfind
    rw [hdrop, htake]
    dsimp only
    rw [← toOption_getAddrFromCommand, ← toOption_getAddrFromCommand]
    refine except_toOption_bind.trans (congrArg (Option.bind _) (funext fun lo => ?_))
    refine except_toOption_bind.trans (congrArg (Option.bind _) (funext fun hi => ?_))
    show Except.toOption (ite _ _ _) = _
    by_cases hle : lo ≤ hi
    · rw [if_neg (Nat.not_lt.mpr hle), if_pos hle]
      rfl
    · rw [if_pos (Nat.lt_of_not_le hle), if_neg hle]
      rfl

theorem deleteRange_eq_ok {range : Nat × Nat} :
    st.deleteRange spec = .ok range ↔ st.rangeOf spec = some range := by
  rw [← toOption_deleteRange, toOption_eq_some]

theorem exists_error_of_rangeOf (h : st.rangeOf spec = none) :
    ∃ e, st.deleteRange spec = .error e := by
  rw [← toOption_deleteRange] at h
  cases hrange : st.deleteRange spec with
  | error e => exact ⟨e, rfl⟩
  | ok range => rw [hrange] at h; cases h

end Arguments

/-! ## The command -/

section Command

variable [PhosgText] {st : MemwatchShell} {old : List MemorySearch} {search : MemorySearch}
  {argsStr : String}

theorem splitArgs_eq (hne : PhosgText.split argsStr ' ' ≠ []) :
    splitArgs argsStr 1 0 = .ok (PhosgText.split argsStr ' ') := by
  have hpos := List.length_pos_iff.mpr hne
  unfold splitArgs
  dsimp only
  rw [if_neg (by omega), if_neg fun h => h.1 rfl]

omit [PhosgText] in
theorem getLatestSearch_of_append (hsearches : st.getSearches none = .ok (old ++ [search])) :
    st.getLatestSearch none = .ok search := by
  rw [getLatestSearch_eq_ok, getSearches_eq_ok.mp hsearches]
  exact List.getLast?_concat

theorem commandDelete_eq (hi : st.interactive = true)
    (hsearches : st.getSearches none = .ok (old ++ [search]))
    (hne : PhosgText.split argsStr ' ' ≠ []) :
    commandDelete argsStr st = (do
      let toDelete ← ((PhosgText.split argsStr ' ').mapM st.deleteRange : Except Exception _)
      let search ← deleteRanges search toDelete
      let searches ← st.getSearches none
      set (st.setSearches st.currentSearchName (searches.dropLast ++ [search])) :
        Command Unit) st := by
  have hcheck : st.checkInteractive = .ok () := if_pos hi
  unfold commandDelete
  rw [get_bind, raise_bind_of_ok hcheck, raise_bind_of_ok (getLatestSearch_of_append hsearches),
    raise_bind_of_ok (splitArgs_eq hne)]

omit [PhosgText] in
/-- A reference without a name is one to the iteration that results are deleted from. -/
theorem rangeOf_reference (hsearches : st.getSearches none = .ok (old ++ [search])) {i : Nat}
    (hi : i < 2 ^ 64) :
    st.rangeOf ("s" ++ printCount i) = search.results[i]?.map fun a => (a, a) := by
  have hchars : ("s" ++ printCount i).toList = 's' :: Nat.toDigits 10 i := by simp [printCount]
  have hnumber : numberIn (Nat.toDigits 10 i) 0 = some (i, []) := by
    unfold numberIn
    have hchars : (String.ofList (Nat.toDigits 10 i)).toList = Nat.toDigits 10 i ++ [] := by simp
    rw [stoull_count hchars ends_nil hi]
    exact congrArg (fun rest => some (i, rest)) List.drop_length
  have hresult : st.resultAt st.currentSearchName i = search.results[i]? := by
    have hfind : st.nameToSearches.find? st.currentSearchName = some (old ++ [search]) :=
      getSearches_eq_ok.mp hsearches
    unfold resultAt
    rw [hfind, Option.bind_some, List.getLast?_concat, Option.bind_some]
  have hdash : ('s' :: Nat.toDigits 10 i).dropWhile (· ≠ '-') = [] := by
    refine List.dropWhile_eq_nil_iff.mpr fun c hc => decide_eq_true ?_
    rintro rfl
    exact not_mem_before_name (by decide) (by decide) rfl (List.mem_append_left ['@'] hc)
  unfold rangeOf
  rw [hchars, hdash]
  dsimp only
  unfold addressIn
  dsimp only
  rw [if_pos (.inr rfl), hnumber]
  exact congrArg (Option.map fun a => (a, a)) hresult

/-- The command fails before it deletes if an argument is rejected. -/
theorem commandDelete_rejects (hi : st.interactive = true)
    (hsearches : st.getSearches none = .ok (old ++ [search]))
    (hrejects : ∃ spec ∈ PhosgText.split argsStr ' ', st.rangeOf spec = none) :
    ∃ e, commandDelete argsStr st = .error (.exception e) st := by
  obtain ⟨spec, hspec, hnone⟩ := hrejects
  obtain ⟨e, he⟩ := mapM_eq_error ⟨spec, hspec, exists_error_of_rangeOf hnone⟩
  refine ⟨e, ?_⟩
  rw [commandDelete_eq hi hsearches (List.ne_nil_of_mem hspec), raise_bind_eq_error]
  exact .inl ⟨⟨e, he, rfl⟩, rfl⟩

theorem commandDelete_accepts (hi : st.interactive = true)
    (hsearches : st.getSearches none = .ok (old ++ [search]))
    (hasc : search.results.Pairwise (· < ·)) (hne : PhosgText.split argsStr ' ' ≠ [])
    (haccepts : ∀ spec ∈ PhosgText.split argsStr ' ', ∃ first last,
      st.rangeOf spec = some (first, last) ∧ last < 2 ^ 64 - 1) :
    commandDelete argsStr st = .ok () (st.setSearches st.currentSearchName
      (old ++ [st.uncovered (PhosgText.split argsStr ' ') search])) := by
  choose! first last hrange hlt using haccepts
  have hdeleted := deleteRanges_eq hasc
    ((PhosgText.split argsStr ' ').map fun spec => (first spec, last spec))
    (List.forall_mem_map.mpr fun spec hspec =>
      ⟨le_of_rangeOf (hrange spec hspec), hlt spec hspec⟩)
  have hkept : ∀ a, (∀ r ∈ (PhosgText.split argsStr ' ').map fun spec => (first spec, last spec),
      ¬ InRange r a) ↔ ¬ (PhosgText.split argsStr ' ').any (st.covers · a) := by
    intro a
    rw [List.forall_mem_map, List.any_eq_true, not_exists]
    refine forall_congr' fun spec => ?_
    rw [not_and]
    refine forall_congr' fun hspec => ?_
    rw [covers, hrange spec hspec, Option.any_some, decide_eq_true_eq]
  simp only [hkept] at hdeleted
  rw [commandDelete_eq hi hsearches hne,
    raise_bind_of_ok (mapM_eq_ok fun spec hspec => deleteRange_eq_ok.mpr (hrange spec hspec)),
    lift_bind_of_ok hdeleted, raise_bind_of_ok hsearches, List.dropLast_concat]
  rfl

/-- `delete` removes nothing if one of its arguments stands for no range, and otherwise, for
its arguments in any order, the results of the latest iteration in one of their ranges. A
reference is one to the results as they are before the command. -/
theorem delete_all_or_nothing (hi : st.interactive = true)
    (hsearches : st.getSearches none = .ok (old ++ [search]))
    (hasc : search.results.Pairwise (· < ·)) (specs : List String) (hne : specs ≠ []) :
    (∀ i < 2 ^ 64, st.rangeOf ("s" ++ printCount i) = search.results[i]?.map fun a => (a, a)) ∧
    ((∃ spec ∈ specs, st.rangeOf spec = none) →
      ∀ argsStr, (PhosgText.split argsStr ' ').Perm specs →
        ∃ e, commandDelete argsStr st = .error (.exception e) st) ∧
    ((∀ spec ∈ specs, ∃ first last,
        st.rangeOf spec = some (first, last) ∧ last < 2 ^ 64 - 1) →
      ∀ argsStr, (PhosgText.split argsStr ' ').Perm specs →
        commandDelete argsStr st = .ok () (st.setSearches st.currentSearchName
          (old ++ [st.uncovered specs search]))) := by
  refine ⟨fun i hlt => rangeOf_reference hsearches hlt, ?_, fun haccepts argsStr hperm => ?_⟩
  · rintro ⟨spec, hspec, hnone⟩ argsStr hperm
    exact commandDelete_rejects hi hsearches ⟨spec, hperm.mem_iff.mpr hspec, hnone⟩
  · rw [← uncovered_perm hperm]
    exact commandDelete_accepts hi hsearches hasc (fun hnil => hne (hnil ▸ hperm).nil_eq.symm)
      fun spec hspec => haccepts spec (hperm.mem_iff.mp hspec)

end Command

section

open Plain

def byteSearch (results : List Nat) : MemorySearch :=
  { MemorySearch.new .uint8 false with results := results }

/-- A shell whose current search is without a name. -/
def byteShell (results : List Nat) : MemwatchShell := bareShell.setSearches "" [byteSearch results]

/-- A reference means the same result behind a range that deletes others, and none is deleted
if there is a reference to too many. -/
theorem delete_all_or_nothing_three :
    (∃ e, commandDelete "1000 s3" (byteShell [0x1000, 0x1002, 0x1003]) =
      .error (.exception e) (byteShell [0x1000, 0x1002, 0x1003])) ∧
    commandDelete "1000-1001 s2" (byteShell [0x1000, 0x1002, 0x1003]) =
      .ok () (byteShell [0x1002]) := by
  have hsearches : (byteShell [0x1000, 0x1002, 0x1003]).getSearches none =
      .ok ([] ++ [byteSearch [0x1000, 0x1002, 0x1003]]) := rfl
  have hasc : (byteSearch [0x1000, 0x1002, 0x1003]).results.Pairwise (· < ·) := by decide
  refine ⟨(delete_all_or_nothing rfl hsearches hasc ["1000", "s3"] nofun).2.1
    ⟨"s3", by decide, by decide +kernel⟩ _ ?_, ?_⟩
  · decide +kernel
  · refine ((delete_all_or_nothing rfl hsearches hasc ["s2", "1000-1001"] nofun).2.2 ?_ _
      ?_).trans ?_
    · intro spec hspec
      rcases List.mem_pair.mp hspec with rfl | rfl
      · exact ⟨0x1003, 0x1003, by decide +kernel⟩
      · exact ⟨0x1000, 0x1001, by decide +kernel⟩
    · decide +kernel
    · have hleft : ([0x1000, 0x1002, 0x1003].filter fun a => ¬ ["s2", "1000-1001"].any
          ((byteShell [0x1000, 0x1002, 0x1003]).covers · a)) = [0x1002] := by decide +kernel
      exact congrArg (fun left => EStateM.Result.ok () (byteShell left)) hleft

end

end MemwatchShell
end Memwatch
