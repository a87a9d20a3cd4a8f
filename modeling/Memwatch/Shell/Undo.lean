import Memwatch.Shell.Session
import Memwatch.Shell.Trim

/-!
# Undone searches

`undo` takes the newest iteration away. After any number of searches, in one open search
or in several, as many `undo` commands in the opposite order leave the shell as it was,
unless a search has erased an old iteration.
-/

namespace Memwatch

open Lib Text

namespace MemwatchShell

section Undo

variable [Phosg] [PhosgText] [FloatText] {target : Target} {st st' st'' : MemwatchShell}
  {argsStr name : String} {names : List String} {searches : List MemorySearch}
  {newSearch : MemorySearch}

/-- Searches that get to their ends, one after another, with the names of what they
search: the newest first. -/
inductive Searches (st : MemwatchShell) : List String → MemwatchShell → Prop where
  | none : Searches st [] st
  | search {names : List String} {st' st'' : MemwatchShell} {target : Target}
      {argsStr name : String} {newSearch : MemorySearch} (h : Searches st names st')
      (hnew : newIteration st' target argsStr = .ok (name, newSearch))
      (hdone : commandSearch target argsStr st' = .ok () st'') : Searches st (name :: names) st''

theorem searches_of_newIteration (hnew : newIteration st target argsStr = .ok (name, newSearch)) :
    ∃ searches, st.nameToSearches.find? name = some searches ∧ searches ≠ [] := by
  obtain ⟨-, -, hfind, hlatest, -⟩ := iterates_of_newIteration hnew
  refine ⟨_, hfind, ?_⟩
  rintro rfl
  cases hlatest

/-- A search that erases nothing. -/
theorem searched_eq (hlimit : st.maxSearchIterations.toNat < 2 ^ 63)
    (hfind : st.nameToSearches.find? name = some searches)
    (hroom : searches.length < st.maxSearchIterations.toNat)
    (hnew : newIteration st target argsStr = .ok (name, newSearch))
    (hdone : commandSearch target argsStr st = .ok () st') :
    st' = st.setSearches name (searches ++ [newSearch]) := by
  obtain ⟨name', newSearch', searches', kept, hnew', hfind', hretain, hst'⟩ := searched_of_ok hdone
  obtain ⟨rfl, rfl⟩ := Prod.mk.inj (Except.ok.inj (hnew.symm.trans hnew'))
  obtain rfl := Option.some.inj (hfind.symm.trans hfind')
  have hlen : (searches ++ [newSearch]).length = searches.length + 1 := by simp
  have hfits : DifferenceFits (searches ++ [newSearch]).length st.maxSearchIterations.toNat := by
    unfold DifferenceFits
    omega
  have hall : (searches ++ [newSearch]).rtake
      (min (searches ++ [newSearch]).length st.maxSearchIterations.toNat) =
        searches ++ [newSearch] := by
    rw [List.rtake, min_eq_left (by omega), Nat.sub_self, List.drop_zero]
  rw [retain_of_fits hfits, hall] at hretain
  rw [hst', ← Except.ok.inj hretain]

omit [Phosg] [PhosgText] [FloatText] in
theorem setSearches_setSearches (hfind : st.nameToSearches.find? name = some searches)
    (searches' : List MemorySearch) :
    (st.setSearches name searches').setSearches name searches = st := by
  have hmap : ((st.setSearches name searches').setSearches name searches).nameToSearches =
      st.nameToSearches := by
    refine OrderedMap.ext_find? fun name' => ?_
    rw [find?_setSearches, find?_setSearches]
    split
    · next heq => rw [heq, hfind]
    · rfl
  show ({ st with nameToSearches := _ } : MemwatchShell) = st
  exact congrArg (fun m => { st with nameToSearches := m }) hmap

theorem undo_searched (hi : st.interactive = true) (hname : name = "" → st.currentSearchName = "")
    (hfind : st.nameToSearches.find? name = some searches) (hne : searches ≠ []) :
    (st.setSearches name (searches ++ [newSearch])).executeCommand target (.undo name) =
      .ok st := by
  generalize hst' : st.setSearches name (searches ++ [newSearch]) = st'
  have hcheck : st'.checkInteractive = .ok () := if_pos (by rw [← hst']; exact hi)
  have hkey : ((if name = "" then none else some name).getD st'.currentSearchName) = name := by
    split
    · next hempty =>
      rw [hempty, Option.getD_none, ← hst']
      exact hname hempty
    · rfl
  have hsearches : st'.getSearches (if name = "" then none else some name) =
      .ok (searches ++ [newSearch]) := by
    rw [getSearches_eq_ok, hkey, ← hst', find?_setSearches, if_pos rfl]
  have hlen : ¬ (searches ++ [newSearch]).length ≤ 1 := by
    have hpos := List.length_pos_iff.mpr hne
    rw [List.length_append, List.length_singleton]
    omega
  have hcommand : commandUndo name st' = .ok () st := by
    unfold commandUndo
    rw [get_bind, raise_bind_of_ok hcheck, raise_bind_of_ok hsearches, if_neg hlen, hkey,
      List.dropLast_concat, ← hst', setSearches_setSearches hfind]
    rfl
  have hcall : (Call.undo name).command target st' = .ok () st := hcommand
  unfold executeCommand
  rw [hcall]

/-- What searches leave as it is, and how long the histories get: each is longer by the number
of its searches. -/
structure Longer (st : MemwatchShell) (names : List String) (st' : MemwatchShell) : Prop where
  interactive : st'.interactive = st.interactive
  currentSearchName : st'.currentSearchName = st.currentSearchName
  maxSearchIterations : st'.maxSearchIterations = st.maxSearchIterations
  histories : ∀ name searches', st'.nameToSearches.find? name = some searches' →
    ∃ searches, st.nameToSearches.find? name = some searches ∧
      searches'.length = searches.length + names.count name

omit [Phosg] [PhosgText] [FloatText] in
theorem Longer.searched (h : Longer st names st')
    (hfind : st'.nameToSearches.find? name = some searches) :
    Longer st (name :: names) (st'.setSearches name (searches ++ [newSearch])) where
  interactive := h.interactive
  currentSearchName := h.currentSearchName
  maxSearchIterations := h.maxSearchIterations
  histories name' searches' hfind' := by
    rw [find?_setSearches] at hfind'
    split at hfind'
    · next heq =>
      subst heq
      obtain ⟨searches'', hfind'', hlen⟩ := h.histories _ _ hfind
      cases hfind'
      refine ⟨searches'', hfind'', ?_⟩
      rw [List.length_append, List.length_singleton, List.count_cons_self, hlen, Nat.add_assoc]
    · next hne =>
      rw [List.count_cons_of_ne (Ne.symm hne)]
      exact h.histories _ _ hfind'

/-- The limit leaves room for the searches of each name. -/
def Room (st : MemwatchShell) (names : List String) : Prop :=
  ∀ name ∈ names, ∀ searches, st.nameToSearches.find? name = some searches →
    searches.length + names.count name ≤ st.maxSearchIterations.toNat

omit [Phosg] [PhosgText] [FloatText] in
theorem Room.tail (h : Room st (name :: names)) : Room st names := by
  intro name' hmem searches hfind
  refine le_trans ?_ (h name' (List.mem_cons_of_mem _ hmem) searches hfind)
  exact Nat.add_le_add_left List.count_le_count_cons _

omit [Phosg] [PhosgText] [FloatText] in
theorem Room.last (h : Room st (name :: names)) (hlonger : Longer st names st')
    (hfind : st'.nameToSearches.find? name = some searches) :
    searches.length < st'.maxSearchIterations.toNat := by
  obtain ⟨searches', hfind', hlen⟩ := hlonger.histories _ _ hfind
  have hroom := h name List.mem_cons_self searches' hfind'
  rw [List.count_cons_self] at hroom
  rw [hlonger.maxSearchIterations]
  omega

/-- After searches that erase nothing, the last one ended as it does alone. -/
theorem Searches.longer (h : Searches st names st')
    (hlimit : st.maxSearchIterations.toNat < 2 ^ 63) (hroom : Room st names) :
    Longer st names st' := by
  induction h with
  | none => exact ⟨rfl, rfl, rfl, fun name searches hfind => ⟨searches, hfind, rfl⟩⟩
  | @search names st' st'' target argsStr name newSearch h hnew hdone ih =>
    have hlonger := ih hroom.tail
    obtain ⟨searches, hfind, -⟩ := searches_of_newIteration hnew
    have hlast := hroom.last hlonger hfind
    rw [← hlonger.maxSearchIterations] at hlimit
    rw [searched_eq hlimit hfind hlast hnew hdone]
    exact hlonger.searched hfind

/-- As many `undo` commands as there were searches, in the opposite order, leave the shell
as it was before them, if the limit leaves room for the searches of each name. -/
theorem searches_undone (h : Searches st names st') (hi : st.interactive = true)
    (hname : "" ∈ names → st.currentSearchName = "")
    (hlimit : st.maxSearchIterations.toNat < 2 ^ 63) (hroom : Room st names)
    {calls : List (Target × Call)} (hcalls : calls.map Prod.snd = names.map Call.undo) :
    st'.executeCommands calls = .ok st := by
  induction h generalizing calls with
  | none =>
    obtain rfl := List.map_eq_nil_iff.mp hcalls
    rfl
  | @search names st' st'' target argsStr name newSearch h hnew hdone ih =>
    obtain ⟨call, calls, rfl, hcall, hcalls⟩ := List.map_eq_cons_iff.mp hcalls
    have hlonger := h.longer hlimit hroom.tail
    obtain ⟨searches, hfind, hne⟩ := searches_of_newIteration hnew
    have hlast := hroom.last hlonger hfind
    have hst'' : st'' = st'.setSearches name (searches ++ [newSearch]) := by
      rw [← hlonger.maxSearchIterations] at hlimit
      exact searched_eq hlimit hfind hlast hnew hdone
    have hundone : st''.executeCommand call.1 call.2 = .ok st' := by
      rw [hst'', hcall]
      refine undo_searched (hlonger.interactive.trans hi) (fun hempty => ?_) hfind hne
      rw [hlonger.currentSearchName]
      exact hname (hempty ▸ List.mem_cons_self)
    have hrest := ih (fun hmem => hname (List.mem_cons_of_mem _ hmem)) hroom.tail hcalls
    rw [executeCommands, List.foldlM_cons, hundone]
    exact hrest

end Undo

section

open Plain

/-- The iteration after it, of a search for a value. -/
def fiveIteration : MemorySearch :=
  { allIteration with resultsValid := true, prevSize := 1, annotation := "= 5 at now" }

def searchedShell : MemwatchShell :=
  (openShell 5).setSearches "a" [MemorySearch.new .uint8 false, allIteration, fiveIteration]

theorem searches_undone_two :
    searchedShell.executeCommands [(idleTarget, .undo "a"), (idleTarget, .undo "a")] =
      .ok (openShell 5) := by
  have hnone : Searches (openShell 5) [] (openShell 5) := .none
  have hone : Searches (openShell 5) ["a"]
      ((openShell 5).setSearches "a" [MemorySearch.new .uint8 false, allIteration]) :=
    hnone.search (newIteration_openShell 5) rfl
  have htwo : Searches (openShell 5) ["a", "a"] searchedShell :=
    hone.search (show newIteration _ idleTarget "= 5" = .ok ("a", fiveIteration) from rfl) rfl
  refine searches_undone htwo rfl (by decide) (by decide) (fun name _ searches hfind => ?_) rfl
  have hopen : (openShell 5).nameToSearches.find? name =
      if name = "a" then some [MemorySearch.new .uint8 false] else none := by
    refine (find?_openNew ..).trans ?_
    by_cases hempty : name = "" <;> simp [hempty, new, OrderedMap.empty, OrderedMap.find?]
  rw [hopen] at hfind
  split at hfind
  · next hname =>
    cases hfind
    subst hname
    decide
  · cases hfind

end

end MemwatchShell
end Memwatch
