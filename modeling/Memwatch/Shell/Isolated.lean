import Memwatch.Shell.ReadWrite
import Memwatch.Shell.Session

/-!
# What a session leaves alone

A command works on the current search and on searches that its line names. A shell that is
not interactive has neither searches nor frozen regions.
-/

namespace Memwatch

open Lib Text

namespace MemwatchShell

section Spares

variable {n : String} {st st' st'' : MemwatchShell}

/-- The search of the name stays as it is and does not become the current one. -/
def Spares (n : String) (st st' : MemwatchShell) : Prop :=
  st'.nameToSearches.find? n = st.nameToSearches.find? n ∧ st'.currentSearchName ≠ n

theorem Spares.of_eq (hst' : st' = st) (hcurrent : st.currentSearchName ≠ n) : Spares n st st' := by
  rw [hst']
  exact ⟨rfl, hcurrent⟩

theorem spares_setSearches {name : String} (hname : name ≠ n) (hcurrent : st.currentSearchName ≠ n)
    (searches : List MemorySearch) : Spares n st (st.setSearches name searches) :=
  ⟨(find?_setSearches ..).trans (if_neg hname.symm), hcurrent⟩

theorem spares_setCurrent {name : String} (hn : n ≠ "") (hname : name ≠ n) :
    Spares n st (st.setCurrent name) :=
  ⟨(find?_setCurrent ..).trans (if_neg fun h => hn h.1), hname⟩

theorem spares_openNew {name : String} (hn : n ≠ "") (hname : name ≠ n) (type : SearchType)
    (allMemory : Bool) : Spares n st (st.openNew type allMemory name) :=
  ⟨(find?_openNew ..).trans ((if_neg fun h => hn h.1).trans (if_neg hname.symm)), hname⟩

theorem Spares.trans (h : Spares n st st') (h' : Spares n st' st'') : Spares n st st'' :=
  ⟨h'.1.trans h.1, h'.2⟩

theorem spares_opened {args : List String} {initialSearch : Option String} (hn : n ≠ "")
    (hcurrent : st.currentSearchName ≠ n) (hargs : n ∉ args)
    (h : Opened st args st' initialSearch) : Spares n st st' := by
  cases h with
  | list => exact .of_eq rfl hcurrent
  | @switch name =>
    exact spares_setCurrent hn fun heq => hargs (heq ▸ List.mem_cons_self)
  | @new typeName args =>
    refine spares_openNew hn (fun heq => ?_) _ _
    cases args with
    | nil => exact hn heq.symm
    | cons name args => exact hargs (by simp [← heq])
  | @newAndSearch typeName name arg args =>
    exact spares_openNew hn (fun heq => hargs (by simp [← heq])) _ _

end Spares

/-! ## Names in a line -/

theorem infix_of_mem_intercalate {α : Type} {sep l : List α} {ls : List (List α)} (h : l ∈ ls) :
    l <:+: sep.intercalate ls := by
  induction ls with
  | nil => cases h
  | cons x ls ih =>
    cases ls with
    | nil =>
      obtain rfl := List.mem_singleton.mp h
      rw [List.intercalate_singleton]
    | cons y ls =>
      rw [List.intercalate_cons_cons]
      rcases List.mem_cons.mp h with rfl | h
      · rw [List.append_assoc]
        exact (List.prefix_append _ _).isInfix
      · exact (ih h).trans (List.suffix_append _ _).isInfix

/-- The name is not in the text. -/
def NotIn (n text : String) : Prop := ¬ n.toList <:+: text.toList

section Names

variable [PhosgText] [LawfulPhosgText] {n argsStr : String} {args : List String}
  {minArgs maxArgs : Nat}

omit [PhosgText] [LawfulPhosgText] in
theorem NotIn.ne {text : String} (h : NotIn n text) : text ≠ n := by
  rintro rfl
  exact h List.infix_rfl

theorem NotIn.not_mem_split (h : NotIn n argsStr) : n ∉ PhosgText.split argsStr ' ' := by
  intro hmem
  rw [LawfulPhosgText.split_eq] at hmem
  obtain ⟨l, hl, rfl⟩ := List.mem_map.mp hmem
  have hline : [' '].intercalate (argsStr.toList.splitOn ' ') = argsStr.toList :=
    List.intercalate_splitOn ' '
  refine h ?_
  rw [String.toList_ofList, ← hline]
  exact infix_of_mem_intercalate hl

theorem NotIn.not_mem (h : NotIn n argsStr) (hargs : splitArgs argsStr minArgs maxArgs = .ok args) :
    n ∉ args := by
  rw [split_of_splitArgs hargs]
  exact h.not_mem_split

omit [PhosgText] [LawfulPhosgText] in
theorem name_of_searchArgs {current arg name : String} {predicate : Predicate}
    {value annotation : String}
    (h : searchArgs current arg args = .ok (name, predicate, value, annotation)) :
    name = current ∨ name = arg := by
  unfold searchArgs catching at h
  cases hpredicate : MemorySearch.searchPredicateForName arg with
  | ok predicate' =>
    rw [hpredicate] at h
    left
    cases args <;> (cases h; rfl)
  | error e =>
    rw [hpredicate] at h
    right
    change (if e.type = .outOfRange then _ else _) = _ at h
    split at h
    · cases args with
      | nil => cases h
      | cons arg' args =>
        obtain ⟨predicate', -, h⟩ := except_bind_eq_ok.mp h
        cases args <;> (cases h; rfl)
    · cases h

theorem words_of_opening {st opened : MemwatchShell} {searchArgs w : String}
    (hspace : ∀ w ∈ args, ' ' ∉ w.toList)
    (h : st.opening args = .ok (opened, some searchArgs))
    (hw : w ∈ PhosgText.split searchArgs ' ') : w ∈ args := by
  cases args with
  | nil => cases h
  | cons typeName args =>
    rw [opening] at h
    split at h
    · cases h
    · obtain ⟨type, -, h⟩ := except_bind_eq_ok.mp h
      rcases args with _ | ⟨name, _ | ⟨predicate, _ | ⟨value, args⟩⟩⟩
      · cases h
      · cases h
      · cases h
        rw [split_word (hspace searchArgs (by simp))] at hw
        simp [List.mem_singleton.mp hw]
      · cases h
        have hline : predicate ++ " " ++ value = line predicate value := rfl
        rw [hline, split_line (hspace predicate (by simp)),
          split_word (hspace value (by simp))] at hw
        rcases List.mem_cons.mp hw with rfl | hw
        · simp
        · simp [List.mem_singleton.mp hw]

variable [Phosg] [FloatText] {st st' : MemwatchShell} {target : Target}

omit [LawfulPhosgText] in
/-- A search that gets to its end is in the current search or in one that is named. -/
theorem spares_searched (hn : n ∉ PhosgText.split argsStr ' ')
    (hcurrent : st.currentSearchName ≠ n) (h : Searched target st argsStr st') :
    Spares n st st' := by
  obtain ⟨name, newSearch, searches, searches', hnew, -, -, rfl⟩ := h
  refine spares_setSearches ?_ hcurrent _
  cases iterates_of_newIteration hnew with
  | intro hargs hsearchArgs =>
    rintro rfl
    rcases name_of_searchArgs hsearchArgs with heq | heq
    · exact hcurrent heq.symm
    · refine hn ?_
      rw [← split_of_splitArgs hargs, heq]
      exact List.mem_cons_self

/-! ## One command -/

omit [Phosg] [FloatText] in
theorem spares_truncate (hn : NotIn n argsStr) (hcurrent : st.currentSearchName ≠ n)
    (h : commandTruncate argsStr st = .ok () st') : Spares n st st' := by
  obtain ⟨-, -, h⟩ := raise_bind_eq_ok.mp h
  obtain ⟨args, hargs, h⟩ := raise_bind_eq_ok.mp h
  obtain ⟨searches, -, h⟩ := raise_bind_eq_ok.mp h
  obtain ⟨count, -, h⟩ := raise_bind_eq_ok.mp h
  split at h
  · cases h
  · obtain ⟨searches', -, h⟩ := lift_bind_eq_ok.mp h
    obtain rfl := set_eq_ok.mp h
    refine spares_setSearches (fun heq => ?_) hcurrent _
    have hmem := hn.not_mem hargs
    unfold truncateArgs at heq
    split at heq
    · exact hmem (by simp [← heq])
    · exact hcurrent heq

omit [Phosg] [PhosgText] [FloatText] [LawfulPhosgText] in
theorem spares_undo (hn : NotIn n argsStr) (hcurrent : st.currentSearchName ≠ n)
    (h : commandUndo argsStr st = .ok () st') : Spares n st st' := by
  obtain ⟨-, -, h⟩ := raise_bind_eq_ok.mp h
  obtain ⟨searches, -, h⟩ := raise_bind_eq_ok.mp h
  split at h
  · cases h
  · obtain rfl := set_eq_ok.mp h
    refine spares_setSearches (fun heq => ?_) hcurrent _
    split at heq
    · exact hcurrent heq
    · exact hn.ne heq

omit [Phosg] [PhosgText] [FloatText] [LawfulPhosgText] in
theorem spares_close (hempty : n ≠ "") (hn : NotIn n argsStr) (hcurrent : st.currentSearchName ≠ n)
    (h : commandClose argsStr st = .ok () st') : Spares n st st' := by
  obtain ⟨-, -, h⟩ := raise_bind_eq_ok.mp h
  split at h <;> split at h
  · cases h
  · obtain rfl := set_eq_ok.mp h
    exact ⟨(OrderedMap.find?_erase ..).trans (if_neg hcurrent.symm), hempty.symm⟩
  · cases h
  · obtain rfl := set_eq_ok.mp h
    refine ⟨(OrderedMap.find?_erase ..).trans (if_neg hn.ne.symm), ?_⟩
    dsimp only
    split
    · exact hempty.symm
    · exact hcurrent

omit [Phosg] [PhosgText] [FloatText] [LawfulPhosgText] in
/-- A command that leaves the shell as it is when it throws. -/
theorem spares_of_fails {m : Command Unit} (hcurrent : st.currentSearchName ≠ n)
    (hok : ∀ st', m st = .ok () st' → Spares n st st') (hfails : Fails (Harmless st) m st)
    (h : report (m st) = .ok st') : Spares n st st' := by
  have hend := report_eq_ok h
  cases hresult : m st with
  | ok _ st'' =>
    rw [hresult] at hend
    exact hend ▸ hok st'' hresult
  | error e st'' =>
    rw [hresult] at hend
    obtain rfl : st'' = st' := hend
    exact .of_eq (hfails e st'' hresult).1 hcurrent

/-- A command leaves a search alone that is not the current one and that its text does not
name. -/
theorem spares_call {call : Call} (hempty : n ≠ "") (hn : NotIn n call.argsStr)
    (hcurrent : st.currentSearchName ≠ n) (h : st.executeCommand target call = .ok st') :
    Spares n st st' := by
  have hspace : ∀ {argsStr : String} {args : List String},
      splitArgs argsStr 0 4 = .ok args → ∀ w ∈ args, ' ' ∉ w.toList :=
    fun hargs w hw hmem => (ne_space_of_splitArgs hargs hw hmem).1 rfl
  cases call with
  | openSearch argsStr =>
    cases change_of_execute h with
    | keep hst' => exact .of_eq hst' hcurrent
    | opens hargs hopening hst' =>
      rw [hst']
      exact spares_opened hempty hcurrent (hn.not_mem hargs) (opened_of_opening hopening)
    | opensAndSearches hargs hopening hsearched =>
      have hopened := spares_opened hempty hcurrent (hn.not_mem hargs) (opened_of_opening hopening)
      refine hopened.trans (spares_searched (fun hw => ?_) hopened.2 hsearched)
      exact hn.not_mem hargs (words_of_opening (hspace hargs) hopening hw)
  | fork argsStr =>
    cases change_of_execute h with
    | keep hst' => exact .of_eq hst' hcurrent
    | fork hargs _ _ hst' =>
      have hnot := hn.not_mem hargs
      rw [List.mem_singleton, eq_comm] at hnot
      rw [hst']
      exact ⟨(spares_setSearches hnot hcurrent _).1, hnot⟩
    | copy hargs _ hst' =>
      rw [hst']
      exact spares_setSearches (fun heq => hn.not_mem hargs (by simp [← heq])) hcurrent _
    | lose hargs _ hst' =>
      rw [hst']
      refine ⟨(OrderedMap.find?_erase ..).trans (if_neg fun heq => ?_), hcurrent⟩
      exact hn.not_mem hargs (by simp [heq])
  | results argsStr =>
    cases change_of_execute h with
    | keep hst' => exact .of_eq hst' hcurrent
  | delete argsStr =>
    cases change_of_execute h with
    | keep hst' => exact .of_eq hst' hcurrent
    | delete search _ hst' => exact hst' ▸ spares_setSearches hcurrent hcurrent _
  | search argsStr =>
    cases change_of_execute h with
    | keep hst' => exact .of_eq hst' hcurrent
    | search hsearched => exact spares_searched hn.not_mem_split hcurrent hsearched
  | truncate argsStr =>
    exact spares_of_fails hcurrent (fun _ => spares_truncate hn hcurrent) commandTruncate_fails h
  | undo argsStr =>
    exact spares_of_fails hcurrent (fun _ => spares_undo hn hcurrent) commandUndo_fails h
  | close argsStr =>
    exact spares_of_fails hcurrent (fun _ => spares_close hempty hn hcurrent) commandClose_fails h
  | state argsStr =>
    cases change_of_execute h with
    | keep hst' => exact .of_eq hst' hcurrent
    | set hset =>
      obtain ⟨hsearches, hname, -⟩ := setField_keeps hset
      exact ⟨by rw [hsearches], by rw [hname]; exact hcurrent⟩

/-! ## Lines -/

variable {p : Process} {line : String} {lines : List (Process × String)}

theorem spares_line (hempty : n ≠ "") (hn : NotIn n line) (hcurrent : st.currentSearchName ≠ n)
    (h : executeLine p line st = .ok st') : Spares n st st' := by
  cases lineChange_of_executeLine h with
  | keep => exact ⟨rfl, hcurrent⟩
  | operate _ hst' =>
    obtain ⟨ops, -, rfl⟩ := hst'
    exact ⟨rfl, hcurrent⟩
  | freeze => exact ⟨rfl, hcurrent⟩
  | call call hargs hrun =>
    exact spares_call hempty (fun hinside => hn (hinside.trans hargs.isInfix)) hcurrent hrun

/-- A search that is not the current one stays as it is as long as no line has its name in
it, whatever the lines do to other searches, to the frozen regions and to the process. -/
theorem search_isolated (hempty : n ≠ "") (hcurrent : st.currentSearchName ≠ n)
    (hlines : ∀ line ∈ lines, NotIn n line.2) (h : executeLines lines st = .ok st') :
    Spares n st st' := by
  refine foldlM_invariant h (.of_eq rfl hcurrent) fun s line hline hs s' hrun => ?_
  exact hs.trans (spares_line hempty (hlines line hline) hs.2 hrun)

/-! ## Shells that are not interactive -/

/-- The shell has the searches and the frozen regions it had. -/
structure SameData (st st' : MemwatchShell) : Prop where
  nameToSearches : st'.nameToSearches = st.nameToSearches
  currentSearchName : st'.currentSearchName = st.currentSearchName
  freezer : st'.freezer = st.freezer
  interactive : st'.interactive = st.interactive

omit [Phosg] [PhosgText] [FloatText] [LawfulPhosgText] in
theorem SameData.trans {st'' : MemwatchShell} (h : SameData st st') (h' : SameData st' st'') :
    SameData st st'' :=
  ⟨h'.nameToSearches.trans h.nameToSearches, h'.currentSearchName.trans h.currentSearchName,
    h'.freezer.trans h.freezer, h'.interactive.trans h.interactive⟩

omit [LawfulPhosgText] in
theorem sameData_line (hi : st.interactive = false) (h : executeLine p line st = .ok st') :
    SameData st st' := by
  have hnot : ¬ st.interactive = true := by simp [hi]
  cases lineChange_of_executeLine h with
  | keep => exact ⟨rfl, rfl, rfl, rfl⟩
  | operate htrue => exact absurd htrue hnot
  | freeze _ hfreeze => exact absurd (commandFreeze_eq_ok.mp hfreeze).1 hnot
  | call call _ hrun =>
    have hchange := change_of_execute hrun
    have hsame : st.executeCommand p.toTarget call = .ok st → SameData st st' := by
      intro hsame
      obtain rfl := Except.ok.inj (hrun.symm.trans hsame)
      exact ⟨rfl, rfl, rfl, rfl⟩
    cases call with
    | state argsStr =>
      have hsearches : st'.nameToSearches = st.nameToSearches ∧
          st'.currentSearchName = st.currentSearchName := by
        cases hchange with
        | keep hst' => rw [hst']; exact ⟨rfl, rfl⟩
        | set hset => exact ⟨(setField_keeps hset).1, (setField_keeps hset).2.1⟩
      exact ⟨hsearches.1, hsearches.2, hchange.freezer, hchange.interactive⟩
    | openSearch | fork | results | delete | search | truncate | undo | close =>
      exact hsame (report_of_not_interactive hnot)

omit [LawfulPhosgText] in
/-- A shell that runs the commands of a command line never opens a search and never freezes
a region. -/
theorem sameData_lines (hi : st.interactive = false) (h : executeLines lines st = .ok st') :
    SameData st st' := by
  refine foldlM_invariant h ⟨rfl, rfl, rfl, rfl⟩ fun s line _ hs s' hrun => ?_
  exact hs.trans (sameData_line (hs.interactive.trans hi) hrun)

end Names

section

open Plain

/-- A shell with a search that is not the current one. -/
def goldShell : MemwatchShell :=
  { (new "target" 10 5 false true false).openNew .uint16 false "gold" with currentSearchName := "" }

theorem gold_isolated : Spares "gold" goldShell (goldShell.openNew .uint8 false "hp") := by
  have : LawfulPhosgText := plainPhosg_lawful
  have hrun : executeLines [(idleProcess, "open u8 hp")] goldShell =
      .ok (goldShell.openNew .uint8 false "hp") := rfl
  refine search_isolated (by decide) (by decide) (fun line hline => ?_) hrun
  rw [List.mem_singleton.mp hline, NotIn, String.toList_ofList]
  decide

end

end MemwatchShell
end Memwatch
