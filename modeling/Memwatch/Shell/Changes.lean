import Memwatch.Shell.Failing

/-!
# What a command changes

What a command may do to the searches is said once, by `Change`, whether it gets to its
end or throws.
-/

namespace Memwatch

namespace MemwatchShell

open Lib Text

/-! ## All open searches -/

/-- Every open search has the property, under its name. -/
def OpenSearches (P : String → List MemorySearch → Prop) (st : MemwatchShell) : Prop :=
  ∀ name searches, st.nameToSearches.find? name = some searches → P name searches

section OpenSearches

variable {P : String → List MemorySearch → Prop} {st st' opened : MemwatchShell} {name : String}
  {searches : List MemorySearch}

theorem OpenSearches.congr (h : OpenSearches P st)
    (hst' : st'.nameToSearches = st.nameToSearches) : OpenSearches P st' := by
  intro name searches hfind
  rw [hst'] at hfind
  exact h name searches hfind

theorem OpenSearches.setSearches (h : OpenSearches P st) (hsearches : P name searches) :
    OpenSearches P (st.setSearches name searches) := by
  intro name' searches' hfind
  rw [find?_setSearches] at hfind
  split at hfind
  · next heq =>
    cases hfind
    exact heq ▸ hsearches
  · exact h name' searches' hfind

theorem OpenSearches.erase (h : OpenSearches P st)
    (hst' : st'.nameToSearches = st.nameToSearches.erase name) : OpenSearches P st' := by
  intro name' searches' hfind
  rw [hst', OrderedMap.find?_erase] at hfind
  split at hfind
  · cases hfind
  · exact h name' searches' hfind

theorem OpenSearches.setCurrent (h : OpenSearches P st) (name : String) :
    OpenSearches P (st.setCurrent name) := by
  by_cases hname : name = ""
  · exact h.congr (if_pos hname)
  · exact h.erase (if_neg hname)

theorem OpenSearches.of_opened {args : List String} {initialSearch : Option String}
    (h : OpenSearches P st) (hopened : Opened st args opened initialSearch)
    (hnew : ∀ name ∈ "" :: args, ∀ type allMemory, P name [MemorySearch.new type allMemory]) :
    OpenSearches P opened := by
  cases hopened with
  | list => exact h
  | switch => exact h.setCurrent _
  | @new typeName args type =>
    refine (h.setSearches (hnew _ ?_ _ _)).setCurrent _
    cases args with
    | nil => exact List.mem_cons_self
    | cons name args => simp
  | newAndSearch => exact (h.setSearches (hnew _ (by simp) _ _)).setCurrent _

end OpenSearches

/-! ## Commands -/

section Changes

variable [Phosg] [PhosgText] [FloatText]

/-- A search gets to its end: its iterations with the new one, of which the oldest
may be erased. -/
def Searched (target : Target) (st : MemwatchShell) (argsStr : String) (st' : MemwatchShell) :
    Prop :=
  ∃ name newSearch searches searches', newIteration st target argsStr = .ok (name, newSearch) ∧
    st.nameToSearches.find? name = some searches ∧
    retain (searches ++ [newSearch]) st.maxSearchIterations.toNat = .ok searches' ∧
    st' = st.setSearches name searches'

/-- What a command may do to the searches, when it gets to its end or throws. -/
inductive Change (target : Target) (st st' : MemwatchShell) : Call → Prop where
  | keep {call : Call} (hst' : st' = st) : Change target st st' call
  | set {argsStr field value : String} (hset : st.setField field value = .ok st') :
      Change target st st' (.state argsStr)
  | opens {argsStr : String} {args : List String} {opened : MemwatchShell}
      {initialSearch : Option String} (hargs : splitArgs argsStr 0 4 = .ok args)
      (hopening : st.opening args = .ok (opened, initialSearch)) (hst' : st' = opened) :
      Change target st st' (.openSearch argsStr)
  | opensAndSearches {argsStr searchArgs : String} {args : List String} {opened : MemwatchShell}
      (hargs : splitArgs argsStr 0 4 = .ok args)
      (hopening : st.opening args = .ok (opened, some searchArgs))
      (hsearched : Searched target opened searchArgs st') :
      Change target st st' (.openSearch argsStr)
  | search {argsStr : String} (hsearched : Searched target st argsStr st') :
      Change target st st' (.search argsStr)
  | fork {argsStr name : String} {searches : List MemorySearch}
      (hargs : splitArgs argsStr 1 2 = .ok [name]) (hne : name ≠ st.currentSearchName)
      (hfind : st.nameToSearches.find? st.currentSearchName = some searches)
      (hst' : st' = { st.setSearches name searches with currentSearchName := name }) :
      Change target st st' (.fork argsStr)
  | copy {argsStr name1 name2 : String} {args : List String} {searches : List MemorySearch}
      (hargs : splitArgs argsStr 1 2 = .ok (name1 :: name2 :: args))
      (hfind : (st.nameToSearches.erase name2).find? name1 = some searches)
      (hst' : st' = st.setSearches name2 searches) : Change target st st' (.fork argsStr)
  | lose {argsStr name1 name2 : String} {args : List String}
      (hargs : splitArgs argsStr 1 2 = .ok (name1 :: name2 :: args))
      (hfind : (st.nameToSearches.erase name2).find? name1 = none)
      (hst' : st' = { st with nameToSearches := st.nameToSearches.erase name2 }) :
      Change target st st' (.fork argsStr)
  | delete {argsStr : String} {searches : List MemorySearch} (search : MemorySearch)
      (hfind : st.nameToSearches.find? st.currentSearchName = some searches)
      (hst' : st' = st.setSearches st.currentSearchName (searches.dropLast ++ [search])) :
      Change target st st' (.delete argsStr)
  | truncate {argsStr name : String} {searches searches' : List MemorySearch} {count : Nat}
      (hfind : st.nameToSearches.find? name = some searches) (hpos : 0 < count)
      (hlt : count < 2 ^ 63) (hretain : retain searches count = .ok searches')
      (hst' : st' = st.setSearches name searches') : Change target st st' (.truncate argsStr)
  | undo {argsStr name : String} {searches : List MemorySearch}
      (hfind : st.nameToSearches.find? name = some searches) (hlen : 1 < searches.length)
      (hst' : st' = st.setSearches name searches.dropLast) : Change target st st' (.undo argsStr)
  | close {argsStr name : String} (hopen : (st.nameToSearches.find? name).isSome)
      (hst' : st' = { st with
        nameToSearches := st.nameToSearches.erase name
        currentSearchName := if st.currentSearchName = name then "" else st.currentSearchName }) :
      Change target st st' (.close argsStr)

variable {target : Target} {st st' : MemwatchShell} {argsStr : String} {call : Call} {e : Fault}

theorem searched_of_ok (h : commandSearch target argsStr st = .ok () st') :
    Searched target st argsStr st' := by
  obtain ⟨-, -, h⟩ := raise_bind_eq_ok.mp h
  obtain ⟨⟨name, newSearch⟩, hnew, h⟩ := lift_bind_eq_ok.mp h
  obtain ⟨searches, hsearches, h⟩ := raise_bind_eq_ok.mp h
  obtain ⟨searches', hretain, h⟩ := lift_bind_eq_ok.mp h
  exact ⟨name, newSearch, searches, searches', hnew, getSearches_eq_ok.mp hsearches, hretain,
    set_eq_ok.mp h⟩

/-! ### Commands that get to their end -/

theorem change_of_results (h : commandResults argsStr st = .ok () st') :
    Change target st st' (.results argsStr) := by
  obtain ⟨-, -, h⟩ := raise_bind_eq_ok.mp h
  obtain ⟨search, -, h⟩ := raise_bind_eq_ok.mp h
  split at h
  · cases h
  · cases h; exact .keep rfl

theorem change_of_delete (h : commandDelete argsStr st = .ok () st') :
    Change target st st' (.delete argsStr) := by
  obtain ⟨-, -, h⟩ := raise_bind_eq_ok.mp h
  obtain ⟨search, -, h⟩ := raise_bind_eq_ok.mp h
  obtain ⟨args, -, h⟩ := raise_bind_eq_ok.mp h
  obtain ⟨toDelete, -, h⟩ := raise_bind_eq_ok.mp h
  obtain ⟨search', -, h⟩ := lift_bind_eq_ok.mp h
  obtain ⟨searches, hsearches, h⟩ := raise_bind_eq_ok.mp h
  exact .delete search' (getSearches_eq_ok.mp hsearches) (set_eq_ok.mp h)

theorem change_of_truncate (h : commandTruncate argsStr st = .ok () st') :
    Change target st st' (.truncate argsStr) := by
  obtain ⟨-, -, h⟩ := raise_bind_eq_ok.mp h
  obtain ⟨args, -, h⟩ := raise_bind_eq_ok.mp h
  obtain ⟨searches, hsearches, h⟩ := raise_bind_eq_ok.mp h
  obtain ⟨count, hcount, h⟩ := raise_bind_eq_ok.mp h
  split at h
  · cases h
  · next hpos =>
    obtain ⟨searches', hretain, h⟩ := lift_bind_eq_ok.mp h
    have hlt : count < 2 ^ 63 := toSigned_lt hcount
    exact .truncate (getSearches_eq_ok.mp hsearches) (by omega) (by omega) hretain (set_eq_ok.mp h)

theorem change_of_undo (h : commandUndo argsStr st = .ok () st') :
    Change target st st' (.undo argsStr) := by
  obtain ⟨-, -, h⟩ := raise_bind_eq_ok.mp h
  obtain ⟨searches, hsearches, h⟩ := raise_bind_eq_ok.mp h
  split at h
  · cases h
  · next hlen => exact .undo (getSearches_eq_ok.mp hsearches) (by omega) (set_eq_ok.mp h)

theorem change_of_close (h : commandClose argsStr st = .ok () st') :
    Change target st st' (.close argsStr) := by
  obtain ⟨-, -, h⟩ := raise_bind_eq_ok.mp h
  split at h <;> split at h
  · cases h
  · next hopen =>
    obtain rfl := set_eq_ok.mp h
    have hsome := Option.isSome_iff_ne_none.mpr (mt Option.isNone_iff_eq_none.mpr hopen)
    exact .close hsome (by rw [if_pos rfl])
  · cases h
  · next hopen =>
    obtain rfl := set_eq_ok.mp h
    exact .close (Option.isSome_iff_ne_none.mpr (mt Option.isNone_iff_eq_none.mpr hopen)) rfl

theorem change_of_state (h : commandState argsStr st = .ok () st') :
    Change target st st' (.state argsStr) := by
  unfold commandState at h
  rw [get_bind] at h
  split at h
  · cases h; exact .keep rfl
  · obtain ⟨args, -, h⟩ := raise_bind_eq_ok.mp h
    obtain ⟨st'', hset, h⟩ := raise_bind_eq_ok.mp h
    obtain rfl := set_eq_ok.mp h
    exact .set hset

theorem change_of_open (h : commandOpen target argsStr st = .ok () st') :
    Change target st st' (.openSearch argsStr) := by
  obtain ⟨-, -, h⟩ := raise_bind_eq_ok.mp h
  obtain ⟨args, hargs, h⟩ := raise_bind_eq_ok.mp h
  obtain ⟨⟨opened, initialSearch⟩, hopening, h⟩ := raise_bind_eq_ok.mp h
  cases initialSearch with
  | none =>
    cases h
    exact .opens hargs hopening rfl
  | some searchArgs => exact .opensAndSearches hargs hopening (searched_of_ok h)

theorem change_of_fork (h : commandFork argsStr st = .ok () st') :
    Change target st st' (.fork argsStr) := by
  obtain ⟨-, -, h⟩ := raise_bind_eq_ok.mp h
  obtain ⟨args, hargs, h⟩ := raise_bind_eq_ok.mp h
  match args with
  | [] => cases h
  | [name] =>
    dsimp only at h
    split at h
    · cases h
    · next hne =>
      obtain ⟨searches, hsearches, h⟩ := raise_bind_eq_ok.mp h
      exact .fork hargs hne (getSearches_eq_ok.mp hsearches) (set_eq_ok.mp h)
  | name1 :: name2 :: args =>
    dsimp only at h
    rw [set_bind] at h
    cases hfind : (st.nameToSearches.erase name2).find? name1 with
    | none => simp only [hfind] at h; cases h
    | some searches =>
      simp only [hfind] at h
      exact .copy hargs hfind (set_eq_ok.mp h)

/-- What a command may do, whether it throws or not. -/
theorem change_of_execute (h : st.executeCommand target call = .ok st') :
    Change target st st' call := by
  unfold executeCommand at h
  split at h
  · next hok =>
    cases h
    cases call with
    | openSearch => exact change_of_open hok
    | fork => exact change_of_fork hok
    | results => exact change_of_results hok
    | delete => exact change_of_delete hok
    | search => exact .search (searched_of_ok hok)
    | truncate => exact change_of_truncate hok
    | undo => exact change_of_undo hok
    | close => exact change_of_close hok
    | state => exact change_of_state hok
  · next herror =>
    cases h
    cases call with
    | openSearch =>
      rcases commandOpen_error herror with
        ⟨hkeep, -⟩ | ⟨args, opened, searchArgs, hargs, hopening, herror⟩
      · exact .keep hkeep.1
      · exact .opens hargs hopening (commandSearch_fails _ _ herror).1
    | fork =>
      rcases (commandFork_error herror).2 with ⟨hkeep, -⟩ | ⟨name1, name2, args, hargs, hfind, hst'⟩
      · exact .keep hkeep
      · exact .lose hargs hfind hst'
    | results => exact .keep (commandResults_fails _ _ herror).1
    | delete => exact .keep (commandDelete_fails _ _ herror).1
    | search => exact .keep (commandSearch_fails _ _ herror).1
    | truncate => exact .keep (commandTruncate_fails _ _ herror).1
    | undo => exact .keep (commandUndo_fails _ _ herror).1
    | close => exact .keep (commandClose_fails _ _ herror).1
    | state => exact .keep (commandState_fails _ _ herror).1
  · cases h

omit [Phosg] [PhosgText] [FloatText] in
theorem Opened.interactive {args : List String} {opened : MemwatchShell}
    {initialSearch : Option String} (h : Opened st args opened initialSearch) :
    opened.interactive = st.interactive := by
  cases h <;> rfl

theorem Change.interactive (h : Change target st st' call) : st'.interactive = st.interactive := by
  cases h with
  | keep hst' => rw [hst']
  | set hset => exact (setField_keeps hset).2.2
  | opens _ hopening hst' => rw [hst']; exact (opened_of_opening hopening).interactive
  | opensAndSearches _ hopening hsearched =>
    obtain ⟨_, _, _, _, -, -, -, hst'⟩ := hsearched
    rw [hst']
    exact (opened_of_opening hopening).interactive
  | search hsearched =>
    obtain ⟨_, _, _, _, -, -, -, hst'⟩ := hsearched
    rw [hst']; rfl
  | fork _ _ _ hst' => rw [hst']; rfl
  | copy _ _ hst' => rw [hst']; rfl
  | lose _ _ hst' => rw [hst']
  | delete _ _ hst' => rw [hst']; rfl
  | truncate _ _ _ _ hst' => rw [hst']; rfl
  | undo _ _ hst' => rw [hst']; rfl
  | close _ hst' => rw [hst']

end Changes

end MemwatchShell
end Memwatch
