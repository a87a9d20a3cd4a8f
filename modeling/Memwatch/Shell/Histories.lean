import Memwatch.Search.Narrow
import Memwatch.Shell.References
import Memwatch.Shell.Undo

/-!
# The histories of a session

Every open search has a history of iterations. In whatever way the lines of a session
search, fork, undo, truncate and delete, the iterations keep the invariant of a search,
and a later one has no result that an earlier one had not.
-/

namespace Memwatch

open Lib Text

namespace MemorySearch

variable [Phosg] {s t u s' : MemorySearch} {news olds : List Region} {p : Predicate} {data : Bytes}
  {maxResults : Nat} {ev : Evaluator}

/-! ## Later iterations -/

/-- `t` may be a later iteration of the search that `s` is one of. -/
structure Narrows (s t : MemorySearch) : Prop where
  type : t.type = s.type
  allMemory : t.allMemory = s.allMemory
  results : s.resultsValid = true → t.resultsValid = true ∧ t.results.Sublist s.results

omit [Phosg] in
theorem Narrows.trans (h : Narrows s t) (h' : Narrows t u) : Narrows s u := by
  refine ⟨h'.type.trans h.type, h'.allMemory.trans h.allMemory, fun hv => ?_⟩
  obtain ⟨hvt, hsub⟩ := h.results hv
  obtain ⟨hvu, hsub'⟩ := h'.results hvt
  exact ⟨hvu, hsub'.trans hsub⟩

omit [Phosg] in
theorem markDeleted_sublist {prevSize : Nat} {results marks : List Nat}
    (h : (markDeleted ev data prevSize news olds results).result = .ok marks) :
    (removeDeleted marks).Sublist results := by
  induction results generalizing news olds marks with
  | nil =>
    cases h
    exact List.Sublist.slnil
  | cons result results ih =>
    have hstep : ∀ {mark : Nat} {news olds : List Region}, mark = 0 ∨ mark = result →
        (markDeleted ev data prevSize news olds results >>= fun marks =>
          pure (mark :: marks) : Scan (List Nat)).result = .ok marks →
        (removeDeleted marks).Sublist (result :: results) := by
      intro mark news olds hcases h
      obtain ⟨marks', hmarks, h⟩ := Traced.bind_eq_ok h
      cases h
      have hrest := ih hmarks
      unfold removeDeleted at hrest ⊢
      by_cases hzero : mark = 0
      · rw [List.filter_cons_of_neg (by simpa using hzero)]
        exact hrest.cons result
      · rw [List.filter_cons_of_pos (by simpa using hzero)]
        rcases hcases with heq | rfl
        · exact absurd heq hzero
        · exact hrest.cons_cons mark
    rw [markDeleted] at h
    dsimp only at h
    split at h
    · split_ifs at h
      · exact hstep (.inl rfl) h
      · exact hstep (.inl rfl) h
      · obtain ⟨hit, -, h⟩ := Traced.bind_eq_ok h
        cases hit with
        | false => exact hstep (.inl rfl) h
        | true => exact hstep (.inr rfl) h
    · exact hstep (.inl rfl) h

/-- An update narrows a search. -/
theorem narrows_update (hvalid : s.resultsValid = true → s.memory.isSome)
    (h : (s.update news p data maxResults).result = .ok s') : Narrows s s' := by
  unfold MemorySearch.update at h
  split at h
  · cases h
  · cases h
  · split at h
    · next hnone =>
      have hnot : ¬ s.resultsValid = true := by
        intro hv
        have hsome := hvalid hv
        rw [hnone] at hsome
        cases hsome
      split at h
      · cases h
        exact ⟨rfl, rfl, fun hv => absurd hv hnot⟩
      · obtain ⟨results, -, h⟩ := Traced.bind_eq_ok h
        cases h
        exact ⟨rfl, rfl, fun hv => absurd hv hnot⟩
    · split at h
      · next hnot =>
        obtain ⟨results, -, h⟩ := Traced.bind_eq_ok h
        cases h
        refine ⟨rfl, rfl, fun hv => ?_⟩
        rw [hv] at hnot
        cases hnot
      · obtain ⟨marks, hmarks, h⟩ := Traced.bind_eq_ok h
        cases h
        exact ⟨rfl, rfl, fun _ => ⟨rfl, markDeleted_sublist hmarks⟩⟩

/-! ## Histories -/

/-- The iterations of a search: each keeps the invariant and has read pages with a property,
and later ones narrow earlier ones. -/
structure History (P : List Region → Prop) (searches : List MemorySearch) : Prop where
  invariant : ∀ s ∈ searches, s.type ≠ .data → Invariant s
  valid : ∀ s ∈ searches, s.resultsValid = true → s.memory.isSome
  pages : ∀ s ∈ searches, ∀ memory ∈ s.memory, PageSnapshot memory ∧ P memory
  narrowing : searches.Pairwise Narrows

variable {P : List Region → Prop} {searches searches' : List MemorySearch}

theorem History.new (T : SearchType) (allMemory : Bool) :
    History P [MemorySearch.new T allMemory] where
  invariant s hs _ := List.mem_singleton.mp hs ▸ Invariant.new T allMemory
  valid s hs hv := by
    rw [List.mem_singleton.mp hs] at hv
    cases hv
  pages s hs := by
    rw [List.mem_singleton.mp hs]
    exact nofun
  narrowing := List.pairwise_singleton ..

theorem History.sublist (h : History P searches) (hsub : searches'.Sublist searches) :
    History P searches' where
  invariant s hs := h.invariant s (hsub.subset hs)
  valid s hs := h.valid s (hsub.subset hs)
  pages s hs := h.pages s (hsub.subset hs)
  narrowing := h.narrowing.sublist hsub

theorem History.concat (h : History P searches) (hlast : searches.getLast? = some s)
    (hst : Narrows s t) (hinv : t.type ≠ .data → Invariant t)
    (hvalid : t.resultsValid = true → t.memory.isSome)
    (hpages : ∀ memory ∈ t.memory, PageSnapshot memory ∧ P memory) :
    History P (searches ++ [t]) := by
  refine ⟨fun u hu => ?_, fun u hu => ?_, fun u hu => ?_, List.pairwise_append.mpr
    ⟨h.narrowing, List.pairwise_singleton .., fun u hu v hv => ?_⟩⟩
  · rcases List.mem_append.mp hu with hu | hu
    · exact h.invariant u hu
    · exact List.mem_singleton.mp hu ▸ hinv
  · rcases List.mem_append.mp hu with hu | hu
    · exact h.valid u hu
    · exact List.mem_singleton.mp hu ▸ hvalid
  · rcases List.mem_append.mp hu with hu | hu
    · exact h.pages u hu
    · exact List.mem_singleton.mp hu ▸ hpages
  · rw [List.mem_singleton.mp hv]
    obtain ⟨front, rfl⟩ := List.getLast?_eq_some_iff.mp hlast
    rcases List.mem_append.mp hu with hu | hu
    · exact ((List.pairwise_append.mp h.narrowing).2.2 u hu s List.mem_cons_self).trans hst
    · exact List.mem_singleton.mp hu ▸ hst

theorem History.update (h : History P searches) (hlast : searches.getLast? = some s)
    {text : String} (hN : PageSnapshot news) (hP : P news)
    (hs' : ({ s with annotation := text }.update news p data maxResults).result = .ok s') :
    History P (searches ++ [s']) := by
  have hmem : s ∈ searches := List.mem_of_getLast? hlast
  have hnarrows : Narrows s s' := by
    have hannotated : Narrows s { s with annotation := text } :=
      ⟨rfl, rfl, fun hv => ⟨hv, .refl _⟩⟩
    exact hannotated.trans (narrows_update (h.valid s hmem) hs')
  refine h.concat hlast hnarrows (fun hT => ?_) (fun _ => ?_) fun memory hm => ?_
  · rw [hnarrows.type] at hT
    have hinv := h.invariant s hmem hT
    generalize hannotated : ({ s with annotation := text } : MemorySearch) = t at hs'
    have hinvt : Invariant t := hannotated ▸ { hinv with }
    have hTt : t.type ≠ .data := hannotated ▸ hT
    obtain ⟨ev, ha, hfit⟩ := accepted_of_page hTt (accepted_of_result hs') hN
    exact (hinvt.update ha hfit hs').1
  · rw [memory_of_update hs']
    rfl
  · rw [memory_of_update hs'] at hm
    cases hm
    exact ⟨hN, hP⟩

theorem History.delete (h : History P searches) (hlast : searches.getLast? = some s)
    (ht : ∃ l : List Nat, l.Sublist s.results ∧ t = { s with results := l }) :
    History P (searches.dropLast ++ [t]) := by
  obtain ⟨l, hl, rfl⟩ := ht
  obtain ⟨front, rfl⟩ := List.getLast?_eq_some_iff.mp hlast
  have hfront : (front ++ [s]).dropLast = front := List.dropLast_concat
  rw [hfront]
  have hs : s ∈ front ++ [s] := by simp
  refine ⟨fun u hu => ?_, fun u hu => ?_, fun u hu => ?_, List.pairwise_append.mpr
    ⟨(List.pairwise_append.mp h.narrowing).1, List.pairwise_singleton .., fun u hu v hv => ?_⟩⟩
  · rcases List.mem_append.mp hu with hu | hu
    · exact h.invariant u (List.mem_append_left _ hu)
    · rw [List.mem_singleton.mp hu]
      intro hT
      have hinv := h.invariant s hs hT
      refine ⟨hinv.ascending.sublist hl, fun a ha => hinv.held a (hl.subset ha),
        fun a ha => hinv.cells a (hl.subset ha), hinv.stored, hinv.valid, fun hv => ?_⟩
      obtain ⟨hres, hprev⟩ := hinv.pending hv
      rw [hres] at hl
      exact ⟨List.sublist_nil.mp hl, hprev⟩
  · rcases List.mem_append.mp hu with hu | hu
    · exact h.valid u (List.mem_append_left _ hu)
    · exact List.mem_singleton.mp hu ▸ h.valid s hs
  · rcases List.mem_append.mp hu with hu | hu
    · exact h.pages u (List.mem_append_left _ hu)
    · exact List.mem_singleton.mp hu ▸ h.pages s hs
  · have hnarrows := (List.pairwise_append.mp h.narrowing).2.2 u hu s List.mem_cons_self
    rw [List.mem_singleton.mp hv]
    exact hnarrows.trans ⟨rfl, rfl, fun hv => ⟨hv, hl⟩⟩

end MemorySearch

namespace MemwatchShell

open MemorySearch

/-! ## Sessions -/

section Sessions

variable [Phosg] [PhosgText] [FloatText] {target : Target} {st st' : MemwatchShell}
  {P : List Region → Prop} {argsStr name : String} {call : Call}
  {searches searches' : List MemorySearch} {search search' : MemorySearch}

/-- Regions are read in pages, and with a property. -/
structure TellsPages (P : List Region → Prop) (target : Target) : Prop where
  all : ∀ regions, target.getAllRegions = .ok regions → PageSnapshot regions ∧ P regions
  targets : ∀ results regions, target.getTargetRegions results = .ok regions →
    PageSnapshot regions ∧ P regions

omit [Phosg] [PhosgText] [FloatText] in
theorem TellsPages.of_valid {valid : Bool} {results : List Nat} {regions : List Region}
    (h : TellsPages P target) (hregions : (if valid then target.getTargetRegions results
      else target.getAllRegions) = .ok regions) : PageSnapshot regions ∧ P regions := by
  split at hregions
  · exact h.targets _ _ hregions
  · exact h.all _ hregions

def Histories (P : List Region → Prop) (st : MemwatchShell) : Prop :=
  OpenSearches (fun _ searches => History P searches) st

omit [Phosg] [PhosgText] [FloatText] in
theorem retain_sublist {count : Nat} (h : retain searches count = .ok searches') :
    searches'.Sublist searches := by
  unfold retain at h
  dsimp only at h
  split at h
  · split at h
    · cases h
      exact List.drop_sublist ..
    · cases h
  · cases h
    exact .refl _

omit [Phosg] [PhosgText] [FloatText] in
theorem deleteRanges_sublist {ranges : List (Nat × Nat)}
    (h : deleteRanges search ranges = .ok search') :
    ∃ l : List Nat, l.Sublist search.results ∧ search' = { search with results := l } := by
  induction ranges generalizing search with
  | nil =>
    cases h
    exact ⟨search'.results, .refl _, rfl⟩
  | cons range ranges ih =>
    obtain ⟨first, hfirst, h⟩ := except_bind_eq_ok.mp h
    obtain ⟨l, hl, rfl⟩ := deleteResults_eq (mapError_eq_ok.mp hfirst)
    obtain ⟨l', hl', rfl⟩ := ih h
    exact ⟨l', hl'.trans hl, rfl⟩

omit [Phosg] [FloatText] in
theorem deleted_of_ok (h : commandDelete argsStr st = .ok () st') :
    ∃ searches search l, st.nameToSearches.find? st.currentSearchName = some searches ∧
      searches.getLast? = some search ∧ l.Sublist search.results ∧
      st' = st.setSearches st.currentSearchName
        (searches.dropLast ++ [{ search with results := l }]) := by
  obtain ⟨-, -, h⟩ := raise_bind_eq_ok.mp h
  obtain ⟨search, hlatest, h⟩ := raise_bind_eq_ok.mp h
  obtain ⟨args, -, h⟩ := raise_bind_eq_ok.mp h
  obtain ⟨toDelete, -, h⟩ := raise_bind_eq_ok.mp h
  obtain ⟨search', hdelete, h⟩ := lift_bind_eq_ok.mp h
  obtain ⟨searches, hsearches, h⟩ := raise_bind_eq_ok.mp h
  have hfind := getSearches_eq_ok.mp hsearches
  rw [getLatestSearch_eq_ok, hfind, Option.bind_some] at hlatest
  obtain ⟨l, hl, rfl⟩ := deleteRanges_sublist hdelete
  exact ⟨searches, search, l, hfind, hlatest, hl, set_eq_ok.mp h⟩

theorem histories_searched (h : Histories P st) (htarget : TellsPages P target)
    (hdone : Searched target st argsStr st') : Histories P st' := by
  obtain ⟨name, newSearch, searches, searches', hnew, hfind, hretain, rfl⟩ := hdone
  obtain ⟨-, -, hfind', hlatest, -, -, hregions, hupdate⟩ := iterates_of_newIteration hnew
  obtain rfl := Option.some.inj (hfind.symm.trans hfind')
  have hhistory : History P searches := h _ _ hfind
  obtain ⟨hpages, hP⟩ := htarget.of_valid hregions
  have hnext := hhistory.update hlatest hpages hP hupdate
  exact h.setSearches (hnext.sublist (retain_sublist hretain))

omit [PhosgText] [FloatText] in
theorem histories_opened {args : List String} {opened : MemwatchShell}
    {initialSearch : Option String} (h : Histories P st)
    (hopened : Opened st args opened initialSearch) : Histories P opened :=
  h.of_opened hopened fun _ _ type allMemory => History.new type allMemory

/-- The commands leave the open searches their histories. -/
theorem histories_call (h : Histories P st) (htarget : TellsPages P target)
    (hrun : st.executeCommand target call = .ok st') : Histories P st' := by
  cases change_of_execute hrun with
  | keep hst' => exact hst' ▸ h
  | set hset => exact h.congr (setField_keeps hset).1
  | opens _ hopening hst' => exact hst' ▸ histories_opened h (opened_of_opening hopening)
  | opensAndSearches _ hopening hdone =>
    exact histories_searched (histories_opened h (opened_of_opening hopening)) htarget hdone
  | search hdone => exact histories_searched h htarget hdone
  | fork _ _ hfind hst' =>
    rw [hst']
    exact (h.setSearches (h _ _ hfind)).congr rfl
  | copy _ hfind hst' =>
    rw [OrderedMap.find?_erase] at hfind
    split at hfind
    · cases hfind
    · exact hst' ▸ h.setSearches (h _ _ hfind)
  | lose _ _ hst' => exact hst' ▸ h.erase rfl
  | @delete argsStr =>
    -- the change does not tell what is deleted
    have hend : endState (commandDelete argsStr st) = st' := report_eq_ok hrun
    cases hcommand : commandDelete argsStr st with
    | ok _ st'' =>
      obtain ⟨searches, search, l, hfind, hlatest, hl, hst''⟩ := deleted_of_ok hcommand
      have hhistory : History P searches := h _ _ hfind
      rw [hcommand] at hend
      obtain rfl : st'' = st' := hend
      exact hst'' ▸ h.setSearches (hhistory.delete hlatest ⟨l, hl, rfl⟩)
    | error e st'' =>
      rw [hcommand] at hend
      obtain rfl : st'' = st' := hend
      exact (commandDelete_fails _ _ hcommand).1 ▸ h
  | truncate hfind _ _ hretain hst' =>
    have hhistory : History P _ := h _ _ hfind
    exact hst' ▸ h.setSearches (hhistory.sublist (retain_sublist hretain))
  | undo hfind _ hst' =>
    have hhistory : History P _ := h _ _ hfind
    exact hst' ▸ h.setSearches (hhistory.sublist (List.dropLast_sublist _))
  | close _ hst' => exact hst' ▸ h.erase rfl

theorem histories_session (h : Session (fun p => TellsPages P p.toTarget) st) :
    Histories P st := by
  induction h with
  | new => exact nofun
  | line _ _ hp hrun ih =>
    cases lineChange_of_executeLine hrun with
    | keep => exact ih.congr rfl
    | operate _ hst' =>
      obtain ⟨ops, -, rfl⟩ := hst'
      exact ih.congr rfl
    | freeze => exact ih.congr rfl
    | call call _ hrun => exact histories_call ih hp hrun
  | pass _ A mem ih => exact ih.congr rfl

/-- In every session, the iterations of every open search keep the invariant and whole pages,
and have no results that were not results of the ones before them. -/
theorem session_history (h : Session (fun p => TellsPages P p.toTarget) st)
    (hfind : st.nameToSearches.find? name = some searches) : History P searches :=
  histories_session h name searches hfind

end Sessions

section

open Plain

theorem idle_tellsPages : TellsPages (fun _ => True) idleProcess.toTarget := by
  have hnone : PageSnapshot [] := by
    refine ⟨⟨?_, ?_, ?_⟩, ?_, ?_⟩ <;> simp [Aligned]
  refine ⟨fun regions hregions => ?_, fun results regions hregions => ?_⟩
  · obtain rfl := Except.ok.inj hregions
    exact ⟨hnone, trivial⟩
  · obtain rfl := Except.ok.inj hregions
    exact ⟨hnone, trivial⟩

theorem session_history_three :
    History (fun _ => True) [MemorySearch.new .uint8 false, allIteration, fiveIteration] := by
  have hnew : Session (fun p => TellsPages (fun _ => True) p.toTarget)
      (new "target" 10 5 false true false) := .new "target" 10 5 false false
  have hopen : Session (fun p => TellsPages (fun _ => True) p.toTarget)
      ((new "target" 10 5 false true false).openNew .uint8 false "a" |>.setSearches "a"
        [MemorySearch.new .uint8 false, allIteration]) :=
    .line hnew (show '\x00' ∉ "open u8 a .".toList by decide) idle_tellsPages rfl
  have hsearch : Session (fun p => TellsPages (fun _ => True) p.toTarget) searchedShell :=
    .line hopen (show '\x00' ∉ "search a = 5".toList by decide) idle_tellsPages rfl
  exact session_history hsearch (show searchedShell.nameToSearches.find? "a" = _ from rfl)

end

end MemwatchShell

end Memwatch
