import Memwatch.Shell.Changes

/-!
# Commands that throw

A command that throws leaves the searches as they were, except in two places:
`fork` with two names erases the target before it looks up the source, and `open`
with an initial search has opened the new search by the time the initial search
throws.
-/

namespace Memwatch

namespace MemwatchShell

open Lib Text

/-- The searches, and the name of the current one. -/
def view (st : MemwatchShell) : OrderedMap String (List MemorySearch) × String :=
  (st.nameToSearches, st.currentSearchName)

section

variable {st : MemwatchShell} {name : String} {search : MemorySearch}

/-- Opening the search again changes nothing: it is the current one and has only its
first iteration, and no unnamed search is open beside it. -/
def Fresh (st : MemwatchShell) (name : String) (search : MemorySearch) : Prop :=
  st.currentSearchName = name ∧ st.nameToSearches.find? name = some [search] ∧
    (name = "" ∨ st.nameToSearches.find? "" = none)

theorem view_openNew_iff {type : SearchType} {allMemory : Bool} :
    (st.openNew type allMemory name).view = st.view ↔
      Fresh st name (MemorySearch.new type allMemory) := by
  have hfind := find?_openNew st type allMemory name
  refine ⟨fun h => ?_, fun ⟨hcurrent, hname, hempty⟩ => ?_⟩
  · obtain ⟨hnames, hcurrent⟩ := Prod.mk.inj h
    refine ⟨hcurrent.symm, ?_, ?_⟩
    · rw [← hnames, hfind, if_neg fun hboth => hboth.2 hboth.1]
      exact if_pos rfl
    · rw [or_iff_not_imp_left]
      intro hne
      rw [← hnames, hfind]
      exact if_pos ⟨rfl, hne⟩
  · refine Prod.ext (OrderedMap.ext_find? fun name' => ?_) hcurrent.symm
    refine (hfind name').trans ?_
    split
    · next hboth => rw [hboth.1]; exact (hempty.resolve_left hboth.2).symm
    · split
      · next heq => rw [heq]; exact hname.symm
      · rfl

theorem erase_eq_iff : st.nameToSearches.erase name = st.nameToSearches ↔
    st.nameToSearches.find? name = none := by
  refine ⟨fun h => ?_, fun h => OrderedMap.ext_find? fun name' => ?_⟩
  · rw [← h, OrderedMap.find?_erase, if_pos rfl]
  · rw [OrderedMap.find?_erase]
    split
    · next heq => rw [heq, h]
    · rfl

end

section

variable [PhosgText] {target : Target} {st st' : MemwatchShell} {argsStr : String}
  {call : Call} {exc : Exception} {e : Fault}

/-- What a command throws at does not matter to the searches: a `fork` with two names
has another open search as its source, or nothing to erase; an `open` with an initial
search names no type, or opens a search that is fresh. -/
def LosesNothing (st : MemwatchShell) : Call → Prop
  | .fork argsStr => ∀ name1 name2 args, splitArgs argsStr 1 2 = .ok (name1 :: name2 :: args) →
      (st.nameToSearches.find? name2).isSome →
      name1 ≠ name2 ∧ (st.nameToSearches.find? name1).isSome
  | .openSearch argsStr => ∀ typeName name arg args type,
      splitArgs argsStr 0 4 = .ok (typeName :: name :: arg :: args) →
      MemorySearch.searchTypeForName typeName = .ok type →
      Fresh st name (MemorySearch.new type (find typeName '!').isSome)
  | _ => True

theorem unchanged_fork_iff (hi : st.interactive = true)
    (h : commandFork argsStr st = .error e st') :
    st'.view = st.view ↔ LosesNothing st (.fork argsStr) := by
  rcases (commandFork_error h).2 with ⟨rfl, hargs⟩ | ⟨name1, name2, args, hargs, hfind, rfl⟩
  · exact iff_of_true rfl fun name1 name2 args hok => absurd hok (hargs hi name1 name2 args)
  have hview : ({ st with nameToSearches := st.nameToSearches.erase name2 } :
      MemwatchShell).view = st.view ↔ st.nameToSearches.find? name2 = none := by
    rw [← erase_eq_iff]
    exact ⟨fun heq => (Prod.mk.inj heq).1, fun heq => Prod.ext heq rfl⟩
  rw [hview]
  rw [OrderedMap.find?_erase] at hfind
  refine ⟨fun hnone source dest rest hok hopen => ?_, fun hcond => ?_⟩
  · rw [hargs] at hok
    cases hok
    rw [hnone] at hopen
    cases hopen
  · by_contra hne
    obtain ⟨hne', hopen⟩ := hcond name1 name2 args hargs (Option.isSome_iff_ne_none.mpr hne)
    rw [if_neg hne'] at hfind
    rw [hfind] at hopen
    cases hopen

variable [Phosg] [FloatText]

theorem unchanged_open_iff (hi : st.interactive = true)
    (h : commandOpen target argsStr st = .error e st') :
    st'.view = st.view ↔ LosesNothing st (.openSearch argsStr) := by
  rcases commandOpen_error h with
    ⟨hkeep, hnone⟩ | ⟨args, opened, searchArgs, hargs, hopening, h⟩
  · refine iff_of_true (congrArg view hkeep.1) fun typeName name arg args type hok htype => ?_
    obtain ⟨out, hout⟩ := opening_of_type _ htype name arg args
    exact absurd hout (hnone hi _ out hok)
  cases opened_of_opening hopening with
  | @newAndSearch typeName name arg args type htype searchArgs =>
    rw [(commandSearch_fails e st' h).1, view_openNew_iff]
    refine ⟨fun hfresh typeName' name' arg' args' type' hok htype' => ?_,
      fun hcond => hcond typeName name arg args type hargs htype⟩
    rw [hargs] at hok
    cases hok
    cases htype.symm.trans htype'
    exact hfresh

/-- A command that throws leaves the searches as they were exactly where it loses
nothing. -/
theorem throw_unchanged_iff (hi : st.interactive = true)
    (h : call.command target st = .error (.exception exc) st') :
    st'.view = st.view ↔ LosesNothing st call := by
  cases call with
  | openSearch => exact unchanged_open_iff hi h
  | fork => exact unchanged_fork_iff hi h
  | results => exact iff_of_true (congrArg view (commandResults_fails _ _ h).1) trivial
  | delete => exact iff_of_true (congrArg view (commandDelete_fails _ _ h).1) trivial
  | search => exact iff_of_true (congrArg view (commandSearch_fails _ _ h).1) trivial
  | truncate => exact iff_of_true (congrArg view (commandTruncate_fails _ _ h).1) trivial
  | undo => exact iff_of_true (congrArg view (commandUndo_fails _ _ h).1) trivial
  | close => exact iff_of_true (congrArg view (commandClose_fails _ _ h).1) trivial
  | state => exact iff_of_true (congrArg view (commandState_fails _ _ h).1) trivial

end

def oneSearch : MemwatchShell :=
  (new "target" 10 5 false true false).openNew .uint8 false "b"

section

open Plain

/-- A fork of a search that is not open, into one that is not open. -/
theorem throw_unchanged_fork : ∃ exc st',
    (Call.fork "a c").command idleTarget oneSearch = .error (.exception exc) st' ∧
      st'.view = oneSearch.view := by
  have hkeeps : LosesNothing oneSearch (.fork "a c") := by
    intro name1 name2 args hargs hopen
    rw [show splitArgs "a c" 1 2 = .ok ["a", "c"] from rfl] at hargs
    cases hargs
    revert hopen
    decide +kernel
  have hthrow : (Call.fork "a c").command idleTarget oneSearch =
      .error (.exception (outOfRange "no search named a"))
        { oneSearch with nameToSearches := oneSearch.nameToSearches.erase "c" } := rfl
  exact ⟨_, _, hthrow, (throw_unchanged_iff rfl hthrow).mpr hkeeps⟩

/-- `fork a b` closes `b` where there is no `a`. -/
theorem throw_changes_fork :
    ¬ ∀ (st st' : MemwatchShell) (target : Target) (call : Call) (exc : Exception),
      st.interactive = true →
      call.command target st = .error (.exception exc) st' → st'.view = st.view := by
  intro hall
  have hthrow : (Call.fork "a b").command idleTarget oneSearch =
      .error (.exception (outOfRange "no search named a"))
        { oneSearch with nameToSearches := oneSearch.nameToSearches.erase "b" } := rfl
  have hview := hall _ _ _ _ _ rfl hthrow
  have hfind := congrArg (fun view => (view.1.find? "b").isSome) hview
  revert hfind
  decide +kernel

end

end MemwatchShell
end Memwatch
