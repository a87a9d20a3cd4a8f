import Memwatch.Lib.Runs
import Memwatch.Shell.Changes

/-!
# The unnamed search

A named search that becomes the current one closes the unnamed search, but for
`fork`: with one name it makes the new search the current one and leaves the unnamed
search open behind it.
-/

namespace Memwatch

namespace MemwatchShell

open Lib Text

/-- The unnamed search is the current one while it is open. -/
def UnnamedCurrent (st : MemwatchShell) : Prop :=
  (st.nameToSearches.find? "").isSome → st.currentSearchName = ""

section

variable [PhosgText] {st st' opened : MemwatchShell} {target : Target} {call : Call}
  {argsStr name : String} {searches : List MemorySearch}

/-- No `fork` with one name leaves the unnamed search. -/
def KeepsUnnamed (st : MemwatchShell) : Call → Prop
  | .fork argsStr => ∀ name, splitArgs argsStr 1 2 = .ok [name] →
      ¬ ((st.nameToSearches.find? "").isSome ∧ st.currentSearchName = "")
  | _ => True

/-- The names given to `fork` are not empty. -/
def NamedForks : Call → Prop
  | .fork argsStr => "" ∉ PhosgText.split argsStr ' '
  | _ => True

omit [PhosgText] in
theorem UnnamedCurrent.setSearches (h : st.UnnamedCurrent)
    (hopen : (st.nameToSearches.find? name).isSome) :
    (st.setSearches name searches).UnnamedCurrent := by
  intro hunnamed
  rw [find?_setSearches] at hunnamed
  split at hunnamed
  · next heq => exact h (heq ▸ hopen)
  · exact h hunnamed

omit [PhosgText] in
theorem UnnamedCurrent.erase (h : st.UnnamedCurrent)
    (hsearches : st'.nameToSearches = st.nameToSearches.erase name)
    (hcurrent : st.currentSearchName = "" → st'.currentSearchName = "") :
    st'.UnnamedCurrent := by
  intro hunnamed
  rw [hsearches, OrderedMap.find?_erase] at hunnamed
  split at hunnamed
  · cases hunnamed
  · exact hcurrent (h hunnamed)

omit [PhosgText] in
theorem unnamedCurrent_setCurrent (st : MemwatchShell) (name : String) :
    (st.setCurrent name).UnnamedCurrent := by
  intro hunnamed
  rw [find?_setCurrent] at hunnamed
  by_contra hne
  rw [if_pos ⟨rfl, hne⟩] at hunnamed
  cases hunnamed

omit [PhosgText] in
theorem UnnamedCurrent.of_opened {args : List String} {initialSearch : Option String}
    (h : st.UnnamedCurrent) (hopened : Opened st args opened initialSearch) :
    opened.UnnamedCurrent := by
  cases hopened with
  | list => exact h
  | switch | new | newAndSearch => exact unnamedCurrent_setCurrent _ _

variable [Phosg] [FloatText]

theorem UnnamedCurrent.of_searched {searchArgs : String} (h : opened.UnnamedCurrent)
    (hsearched : Searched target opened searchArgs st') : st'.UnnamedCurrent := by
  obtain ⟨name, newSearch, searches, searches', -, hfind, -, rfl⟩ := hsearched
  exact h.setSearches (by rw [hfind]; rfl)

theorem Change.unnamedCurrent (hchange : Change target st st' call) (h : st.UnnamedCurrent)
    (hnamed : NamedForks call) (hkeeps : KeepsUnnamed st call) : st'.UnnamedCurrent := by
  cases hchange with
  | keep hst' => rw [hst']; exact h
  | set hset =>
    obtain ⟨hsearches, hcurrent, -⟩ := setField_keeps hset
    unfold UnnamedCurrent
    rw [hsearches, hcurrent]
    exact h
  | opens _ hopening hst' => rw [hst']; exact h.of_opened (opened_of_opening hopening)
  | opensAndSearches _ hopening hdone =>
    exact (h.of_opened (opened_of_opening hopening)).of_searched hdone
  | search hdone => exact h.of_searched hdone
  | fork hargs _ _ hst' =>
    -- the unnamed search is not open: it would be the current one
    intro hunnamed
    rw [hst'] at hunnamed
    replace hunnamed := (congrArg Option.isSome (find?_setSearches ..)).symm.trans hunnamed
    split at hunnamed
    · next heq =>
      rw [hst']
      exact heq.symm
    · exact absurd ⟨hunnamed, h hunnamed⟩ (hkeeps _ hargs)
  | @copy argsStr name1 name2 args searches hargs _ hst' =>
    intro hunnamed
    rw [hst', find?_setSearches] at hunnamed
    rw [hst']
    split at hunnamed
    · next heq =>
      have hmem : name2 ∈ PhosgText.split argsStr ' ' := by rw [← split_of_splitArgs hargs]; simp
      exact absurd (heq ▸ hmem) hnamed
    · exact h hunnamed
  | lose _ _ hst' => rw [hst']; exact h.erase rfl id
  | delete _ hfind hst' => rw [hst']; exact h.setSearches (by rw [hfind]; rfl)
  | truncate hfind _ _ _ hst' => rw [hst']; exact h.setSearches (by rw [hfind]; rfl)
  | undo hfind _ hst' => rw [hst']; exact h.setSearches (by rw [hfind]; rfl)
  | close _ hst' =>
    rw [hst']
    refine h.erase rfl fun hcurrent => ?_
    dsimp only
    rw [hcurrent, ite_self]

theorem execute_fork (hi : st.interactive = true) (hargs : splitArgs argsStr 1 2 = .ok [name])
    (hne : name ≠ st.currentSearchName)
    (hfind : st.nameToSearches.find? st.currentSearchName = some searches) :
    st.executeCommand target (.fork argsStr) =
      .ok { st.setSearches name searches with currentSearchName := name } := by
  have hcheck : st.checkInteractive = .ok () := if_pos hi
  have hrun : (Call.fork argsStr).command target st =
      .ok () { st.setSearches name searches with currentSearchName := name } := by
    refine (raise_bind_of_ok hcheck).trans ((raise_bind_of_ok hargs).trans ?_)
    dsimp only
    rw [if_neg hne]
    exact raise_bind_of_ok (getSearches_eq_ok.mpr hfind)
  unfold executeCommand
  rw [hrun]

/-- A command leaves the unnamed search current, or closes it, exactly if it is not a
`fork` that leaves it. -/
theorem unnamedCurrent_execute_iff (hi : st.interactive = true) (h : st.UnnamedCurrent)
    (hnamed : NamedForks call) :
    (∀ st', st.executeCommand target call = .ok st' → st'.UnnamedCurrent) ↔
      KeepsUnnamed st call := by
  refine ⟨fun hall => ?_, fun hkeeps st' hst' =>
    (change_of_execute hst').unnamedCurrent h hnamed hkeeps⟩
  cases call with
  | fork argsStr =>
    rintro name hargs ⟨hopen, hcurrent⟩
    have hname : name ≠ "" := by
      rintro rfl
      exact hnamed (split_of_splitArgs hargs ▸ List.mem_singleton_self _)
    obtain ⟨searches, hfind⟩ := Option.isSome_iff_exists.mp hopen
    have hst' := hall _ (execute_fork hi hargs (hcurrent ▸ hname) (hcurrent ▸ hfind))
    refine hname (hst' ?_)
    refine (congrArg Option.isSome (find?_setSearches ..)).trans ?_
    rw [if_neg hname.symm, hfind]
    rfl
  | openSearch | results | delete | search | truncate | undo | close | state => exact trivial

/-- In every run of a new shell, the unnamed search is open only while it is the current
one exactly if no `fork` with one name leaves it. -/
theorem unnamed_current_iff (processName : String) (maxResults maxSearchIterations : UInt64)
    (pauseTarget useColor : Bool) (calls : List (Target × Call))
    (hnamed : ∀ call ∈ calls, NamedForks call.2) :
    (∀ calls', calls' <+: calls → ∀ st, (new processName maxResults maxSearchIterations pauseTarget
        true useColor).executeCommands calls' = .ok st → st.UnnamedCurrent) ↔
      AlongRun (fun st call => st.executeCommand call.1 call.2)
        (fun st call => KeepsUnnamed st call.2)
        (new processName maxResults maxSearchIterations pauseTarget true useColor) calls := by
  have hnew : (new processName maxResults maxSearchIterations pauseTarget true
      useColor).UnnamedCurrent := fun _ => rfl
  refine (forall_prefix_iff (P := fun r => ∀ st : MemwatchShell, r = .ok st → st.UnnamedCurrent)
    fun st hst => by cases hst; exact hnew).trans ?_
  refine alongRun_congr (I := fun st : MemwatchShell => st.interactive = true ∧ st.UnnamedCurrent)
    (fun st call hmem h => unnamedCurrent_execute_iff h.1 h.2 (hnamed call hmem))
    (fun st call _ h hkept st' hst' => ⟨?_, hkept st' hst'⟩) ⟨rfl, hnew⟩
  exact (change_of_execute hst').interactive.trans h.1

end

section

open Plain

/-- A fork of a named search leaves nothing behind. -/
theorem unnamed_current_named : ((new "target" 10 5 false true false).executeCommands
    [(idleTarget, .openSearch "u8 a"), (idleTarget, .fork "b")]).toOption.elim False
      UnnamedCurrent := by
  have hnamed : ∀ call ∈ [(idleTarget, Call.openSearch "u8 a"), (idleTarget, .fork "b")],
      NamedForks call.2 := by
    intro call hmem
    rcases List.mem_pair.mp hmem with rfl | rfl
    · exact trivial
    · show "" ∉ _
      decide +kernel
  have hrun := (unnamed_current_iff "target" 10 5 false false _ hnamed).mpr
    ⟨trivial, fun st hst => ⟨fun name _ hboth => ?_, fun _ _ => trivial⟩⟩ _ List.prefix_rfl
  · have hends : ((new "target" 10 5 false true false).executeCommands
        [(idleTarget, .openSearch "u8 a"), (idleTarget, .fork "b")]).toOption.isSome := by
      decide +kernel
    cases hexec : (new "target" 10 5 false true false).executeCommands
        [(idleTarget, .openSearch "u8 a"), (idleTarget, .fork "b")] with
    | error e =>
      rw [hexec] at hends
      cases hends
    | ok st => exact hrun st hexec
  · have hcurrent : ((new "target" 10 5 false true false).executeCommand idleTarget
        (.openSearch "u8 a")).toOption.map currentSearchName = some "a" := by decide +kernel
    dsimp only at hst
    rw [hst] at hcurrent
    rw [show st.currentSearchName = "a" from Option.some.inj hcurrent] at hboth
    exact absurd hboth.2 (by decide)

/-- The unnamed search stays open behind its fork. -/
theorem unnamed_left_open :
    ¬ ∀ calls : List (Target × Call), (∀ call ∈ calls, NamedForks call.2) →
      ∀ st, (new "target" 10 5 false true false).executeCommands calls = .ok st →
        st.UnnamedCurrent := by
  intro hall
  have hnamed : ∀ call ∈ [(idleTarget, Call.openSearch "u8"), (idleTarget, .fork "a")],
      NamedForks call.2 := by
    intro call hmem
    rcases List.mem_pair.mp hmem with rfl | rfl
    · exact trivial
    · show "" ∉ _
      decide +kernel
  have hrun : ((new "target" 10 5 false true false).executeCommands
      [(idleTarget, .openSearch "u8"), (idleTarget, .fork "a")]).toOption.map (fun st =>
        ((st.nameToSearches.find? "").isSome, st.currentSearchName)) = some (true, "a") := by
    decide +kernel
  cases hst : (new "target" 10 5 false true false).executeCommands
      [(idleTarget, .openSearch "u8"), (idleTarget, .fork "a")] with
  | error e => rw [hst] at hrun; cases hrun
  | ok st =>
    rw [hst] at hrun
    obtain ⟨hopen, hcurrent⟩ := Prod.mk.inj (Option.some.inj hrun)
    exact absurd (hcurrent.symm.trans (hall _ hnamed st hst hopen)) (by decide)

end

end MemwatchShell
end Memwatch
