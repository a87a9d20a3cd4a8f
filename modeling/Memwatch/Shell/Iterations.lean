import Memwatch.Lib.Runs
import Memwatch.Shell.Changes

/-!
# Open searches have iterations

`truncate` and `undo` leave an iteration, and `search` adds one before it erases the
oldest; but `max_search_iterations` may be 0, and then it erases all of them. A limit
far above the number of iterations makes their difference wrap around.
-/

namespace Memwatch

namespace MemwatchShell

open Lib Text

/-- Every open search can be searched again. -/
def Searchable (st : MemwatchShell) : Prop :=
  OpenSearches (fun _ searches => searches ≠ []) st

/-- A command has erased no iterations that are not there, and has left every open
search an iteration. -/
def Kept (r : Except Fault MemwatchShell) : Prop :=
  r ≠ .error .badErase ∧ ∀ st, r = .ok st → st.Searchable

section

variable [Phosg] [PhosgText] [FloatText] {target : Target} {st st' opened : MemwatchShell}
  {call : Call} {argsStr searchArgs name : String} {newSearch : MemorySearch}
  {searches searches' : List MemorySearch}

/-- The shell in which a call searches, with the arguments of the search: the initial
search of `open` comes after the rest of it. -/
inductive SearchesIn (st : MemwatchShell) : Call → MemwatchShell → String → Prop where
  | search (argsStr : String) : SearchesIn st (.search argsStr) st argsStr
  | opens {argsStr searchArgs : String} {args : List String} {opened : MemwatchShell}
      (hargs : splitArgs argsStr 0 4 = .ok args)
      (hopening : st.opening args = .ok (opened, some searchArgs)) :
      SearchesIn st (.openSearch argsStr) opened searchArgs

/-- A call searches with success, up to its erasure. -/
structure Adds (target : Target) (st : MemwatchShell) (call : Call) (opened : MemwatchShell)
    (searchArgs name : String) (newSearch : MemorySearch) (searches : List MemorySearch) :
    Prop where
  searchesIn : SearchesIn st call opened searchArgs
  new : newIteration opened target searchArgs = .ok (name, newSearch)
  find : opened.nameToSearches.find? name = some searches

/-- The limit leaves an iteration of every search to which the call adds one. -/
def LimitLeavesSome (st : MemwatchShell) (target : Target) (call : Call) : Prop :=
  ∀ opened searchArgs name newSearch searches,
    Adds target st call opened searchArgs name newSearch searches →
    LeavesSome opened.maxSearchIterations.toNat (searches.length + 1)

/-! ## Searchable states -/

section Searchable

omit [Phosg] [PhosgText] [FloatText]

theorem Searchable.of_opened {args : List String} {initialSearch : Option String}
    (h : st.Searchable) (hopened : Opened st args opened initialSearch) : opened.Searchable :=
  OpenSearches.of_opened h hopened fun _ _ _ _ => List.cons_ne_nil _ _

end Searchable

/-! ## One command -/

omit [Phosg] [FloatText] in
theorem SearchesIn.frame (h : SearchesIn st call opened searchArgs) :
    (st.Searchable → opened.Searchable) ∧ opened.interactive = st.interactive := by
  cases h with
  | search => exact ⟨id, rfl⟩
  | opens _ hopening =>
    have hopened := opened_of_opening hopening
    exact ⟨fun h => h.of_opened hopened, hopened.interactive⟩

section Adds

variable (h : Adds target st call opened searchArgs name newSearch searches)
  (hi : st.interactive = true)

include h hi

theorem Adds.commandSearch_eq : commandSearch target searchArgs opened = (do
    let searches' ← retain (searches ++ [newSearch]) opened.maxSearchIterations.toNat
    set (opened.setSearches name searches') : Command Unit) opened := by
  obtain ⟨hin, hnew, hfind⟩ := h
  have hcheck : opened.checkInteractive = .ok () := if_pos (hin.frame.2.trans hi)
  refine (raise_bind_of_ok hcheck).trans ((lift_bind_of_ok hnew).trans ?_)
  exact raise_bind_of_ok (getSearches_eq_ok.mpr hfind)

theorem Adds.command_eq : call.command target st = commandSearch target searchArgs opened := by
  obtain ⟨hin, -, -⟩ := h
  cases hin with
  | search => rfl
  | opens hargs hopening =>
    have hcheck : st.checkInteractive = .ok () := if_pos hi
    refine (raise_bind_of_ok hcheck).trans ((raise_bind_of_ok hargs).trans ?_)
    exact raise_bind_of_ok hopening

theorem Adds.execute_of_ok
    (hretain : retain (searches ++ [newSearch]) opened.maxSearchIterations.toNat = .ok searches') :
    st.executeCommand target call = .ok (opened.setSearches name searches') := by
  unfold executeCommand
  rw [h.command_eq hi, h.commandSearch_eq hi, lift_bind_of_ok hretain]
  rfl

theorem Adds.execute_of_error {e : Fault}
    (hretain : retain (searches ++ [newSearch]) opened.maxSearchIterations.toNat = .error e) :
    st.executeCommand target call = .error .badErase := by
  cases retain_eq_error hretain
  unfold executeCommand
  rw [h.command_eq hi, h.commandSearch_eq hi, hretain]
  rfl

end Adds

theorem SearchesIn.searchable (hin : SearchesIn st call opened searchArgs) (h : st.Searchable)
    (hlimit : LimitLeavesSome st target call) (hdone : Searched target opened searchArgs st') :
    st'.Searchable := by
  obtain ⟨name, newSearch, searches, searches', hnew, hfind, hretain, rfl⟩ := hdone
  have hleaves :
      LeavesSome opened.maxSearchIterations.toNat (searches ++ [newSearch]).length := by
    rw [List.length_append]
    exact hlimit _ _ _ _ _ ⟨hin, hnew, hfind⟩
  obtain ⟨kept, hkept, hne⟩ := retain_of_leaves hleaves opened.maxSearchIterations.toNat_lt
  rw [hretain] at hkept
  cases hkept
  exact (hin.frame.1 h).setSearches (hne (by simp))

theorem Change.searchable (hchange : Change target st st' call) (h : st.Searchable)
    (hlimit : LimitLeavesSome st target call) : st'.Searchable := by
  cases hchange with
  | keep hst' => rw [hst']; exact h
  | set hset => exact h.congr (setField_keeps hset).1
  | opens _ hopening hst' => rw [hst']; exact h.of_opened (opened_of_opening hopening)
  | opensAndSearches hargs hopening hdone =>
    exact SearchesIn.searchable (.opens hargs hopening) h hlimit hdone
  | search hdone => exact SearchesIn.searchable (.search _) h hlimit hdone
  | fork _ _ hfind hst' =>
    rw [hst']
    exact (h.setSearches (h _ _ hfind)).congr rfl
  | copy _ hfind hst' =>
    rw [OrderedMap.find?_erase] at hfind
    split at hfind
    · cases hfind
    · rw [hst']
      exact h.setSearches (h _ _ hfind)
  | lose _ _ hst' => rw [hst']; exact h.erase rfl
  | delete search _ hst' => rw [hst']; exact h.setSearches (by simp)
  | truncate hfind hpos hlt hretain hst' =>
    obtain ⟨kept, hkept, hne⟩ := retain_of_leaves ⟨fun _ => hpos, by omega⟩ (by omega)
    rw [hretain] at hkept
    cases hkept
    rw [hst']
    exact h.setSearches (hne (h _ _ hfind))
  | undo hfind hlen hst' =>
    rw [hst']
    refine h.setSearches fun hnil => ?_
    have := congrArg List.length hnil
    rw [List.length_dropLast, List.length_nil] at this
    omega
  | close _ hst' => rw [hst']; exact h.erase rfl

theorem SearchesIn.adds_of_badErase (hin : SearchesIn st call opened searchArgs)
    (h : commandSearch target searchArgs opened = .error .badErase st') :
    ∃ opened searchArgs name newSearch searches,
      Adds target st call opened searchArgs name newSearch searches ∧
      retain (searches ++ [newSearch]) opened.maxSearchIterations.toNat = .error .badErase := by
  obtain ⟨name, newSearch, searches, hnew, hfind, hretain⟩ := (commandSearch_fails _ _ h).2 rfl
  exact ⟨opened, searchArgs, name, newSearch, searches, ⟨hin, hnew, hfind⟩, hretain⟩

theorem adds_of_badErase (h : st.executeCommand target call = .error .badErase) :
    ∃ opened searchArgs name newSearch searches,
      Adds target st call opened searchArgs name newSearch searches ∧
      retain (searches ++ [newSearch]) opened.maxSearchIterations.toNat = .error .badErase := by
  unfold executeCommand at h
  split at h
  · cases h
  · cases h
  · next fault st' _ herror =>
    cases h
    cases call with
    | openSearch =>
      rcases commandOpen_error herror with
        ⟨hkeep, -⟩ | ⟨args, opened, searchArgs, hargs, hopening, herror⟩
      · exact absurd rfl hkeep.2
      · exact SearchesIn.adds_of_badErase (.opens hargs hopening) herror
    | fork => exact absurd rfl (commandFork_error herror).1
    | search => exact SearchesIn.adds_of_badErase (.search _) herror
    | results => exact absurd rfl (commandResults_fails _ _ herror).2
    | delete => exact absurd rfl (commandDelete_fails _ _ herror).2
    | truncate => exact absurd rfl (commandTruncate_fails _ _ herror).2
    | undo => exact absurd rfl (commandUndo_fails _ _ herror).2
    | close => exact absurd rfl (commandClose_fails _ _ herror).2
    | state => exact absurd rfl (commandState_fails _ _ herror).2

/-- What a command leaves is searchable exactly if the limit leaves an iteration. -/
theorem kept_execute_iff (hi : st.interactive = true) (h : st.Searchable) :
    Kept (st.executeCommand target call) ↔ LimitLeavesSome st target call := by
  refine ⟨fun hkept opened searchArgs name newSearch searches hadds => ?_, fun hlimit => ⟨?_, ?_⟩⟩
  · by_contra hleaves
    rw [← List.length_singleton (a := newSearch), ← List.length_append] at hleaves
    cases hretain : retain (searches ++ [newSearch]) opened.maxSearchIterations.toNat with
    | error e => exact hkept.1 (hadds.execute_of_error hi hretain)
    | ok searches' =>
      have hsearchable := hkept.2 _ (hadds.execute_of_ok hi hretain)
      refine hsearchable name searches' ((find?_setSearches ..).trans (if_pos rfl)) ?_
      exact eq_nil_of_not_leaves hleaves opened.maxSearchIterations.toNat_lt hretain
  · intro hbad
    obtain ⟨opened, searchArgs, name, newSearch, searches, hadds, hretain⟩ := adds_of_badErase hbad
    have hleaves := hlimit _ _ _ _ _ hadds
    rw [← List.length_singleton (a := newSearch), ← List.length_append] at hleaves
    obtain ⟨kept, hkept, -⟩ := retain_of_leaves hleaves opened.maxSearchIterations.toNat_lt
    rw [hretain] at hkept
    cases hkept
  · exact fun st' hst' => (change_of_execute hst').searchable h hlimit

/-! ## Runs -/

/-- In every run of a new shell, every open search keeps an iteration exactly if every
search that gets to its erasure finds a limit that leaves one. -/
theorem open_searches_searchable_iff (processName : String)
    (maxResults maxSearchIterations : UInt64) (pauseTarget useColor : Bool)
    (calls : List (Target × Call)) :
    (∀ calls', calls' <+: calls → Kept ((new processName maxResults maxSearchIterations pauseTarget
        true useColor).executeCommands calls')) ↔
      AlongRun (fun st call => st.executeCommand call.1 call.2)
        (fun st call => LimitLeavesSome st call.1 call.2)
        (new processName maxResults maxSearchIterations pauseTarget true useColor) calls := by
  have hnew : (new processName maxResults maxSearchIterations pauseTarget true
      useColor).Searchable := nofun
  refine (forall_prefix_iff ⟨nofun, fun st hst => by cases hst; exact hnew⟩).trans ?_
  refine alongRun_congr (I := fun st : MemwatchShell => st.interactive = true ∧ st.Searchable)
    (fun st call _ h => kept_execute_iff h.1 h.2) (fun st call _ h hkept st' hst' => ⟨?_, ?_⟩)
    ⟨rfl, hnew⟩
  · exact (change_of_execute hst').interactive.trans h.1
  · exact hkept.2 st' hst'

end

section

open Plain

/-- With a limit of 0, the initial search erases itself with the iteration before it. -/
theorem open_search_emptied :
    ¬ ∀ (maxSearchIterations : UInt64) (calls : List (Target × Call)),
      Kept ((new "target" 10 maxSearchIterations false true false).executeCommands calls) := by
  intro hall
  have hempty : (((new "target" 10 0 false true false).executeCommands
      [(idleTarget, .openSearch "u8 a .")]).toOption.bind fun st =>
        st.nameToSearches.find? "a") = some [] := by decide +kernel
  have hkept := hall 0 [(idleTarget, .openSearch "u8 a .")]
  cases hrun : (new "target" 10 0 false true false).executeCommands
      [(idleTarget, .openSearch "u8 a .")] with
  | error e => rw [hrun] at hempty; cases hempty
  | ok st =>
    rw [hrun] at hempty
    exact hkept.2 st hrun "a" [] hempty rfl

end

end MemwatchShell
end Memwatch
