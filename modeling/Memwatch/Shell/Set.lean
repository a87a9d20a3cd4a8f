import Memwatch.Lib.Cells
import Memwatch.Shell.Histories
import Memwatch.Shell.World

/-!
# Setting results

`set` writes a value at results of the latest iteration, and goes on where a write fails.
The next search for the value keeps the results that were written, and of the others those
that held it before.
-/

namespace Memwatch

open Lib Text MemorySearch MemwatchShell

/-! ## Shown memories -/

/-- The data of the regions is that of the memory. -/
def Shows (regions : List Region) (mem : Nat → UInt8) : Prop :=
  ∀ r ∈ regions, r.data = cellOf mem r.addr r.data.length

section Cells

variable {mem : Nat → UInt8} {addr a n size off : Nat} {regions : List Region}

theorem slice_cellOf (h : off + n ≤ size) :
    slice (cellOf mem addr size) off n = cellOf mem (addr + off) n := by
  refine List.ext_getElem ?_ fun i _ _ => ?_
  · rw [length_slice (by rw [length_cellOf]; exact h), length_cellOf]
  · simp [slice, cellOf, Nat.add_assoc]

/-- A snapshot has the cells of the memory it shows. -/
theorem Shows.cellAt_eq (h : Shows regions mem) (hregions : PageSnapshot regions) (hn : n ∣ 4096)
    (ha : n ∣ a) (hbears : Bears regions a) : cellAt n regions a = some (cellOf mem a n) := by
  obtain ⟨r, hr, hdata, hcontains⟩ := hbears
  have hfit := cell_fits (hregions.pages.dvd hn r hr) ha hcontains
  have hlen := hregions.length_data hr hdata
  rw [hregions.cellAt_eq hr hdata hcontains, h r hr, slice_cellOf (by omega)]
  rw [show r.addr + (a - r.addr) = a by have := hcontains.1; omega]

end Cells

namespace World

section Writes

variable {σ : Type} {k : Kernel σ} {view : σ → Nat → UInt8} {adapter : ProcessMemoryAdapter}
  {st : MemwatchShell} {args : String} {w w' : World σ} {data : Bytes} {results : List Nat}
  {resultIndex : Int}

/-- A write that succeeds puts the data at the address; one that fails changes nothing. -/
structure Pokes (k : Kernel σ) (view : σ → Nat → UInt8) : Prop where
  put : ∀ w addr data, (k.write w addr data).1 = .ok () →
    view (k.write w addr data).2 = overlay (view w.mem) (patchAt addr data)
  keep : ∀ w addr data e, (k.write w addr data).1 = .error e →
    view (k.write w addr data).2 = view w.mem

def wrote (k : Kernel σ) (data : Bytes) : List Nat → World σ → List Nat
  | [], _ => []
  | result :: results, w =>
    let written := wrote k data results { w with mem := (k.write w result data).2 }
    match (k.write w result data).1 with
    | .ok () => result :: written
    | .error _ => written

theorem wrote_sublist (k : Kernel σ) (data : Bytes) (results : List Nat) (w : World σ) :
    (wrote k data results w).Sublist results := by
  induction results generalizing w with
  | nil => exact .slnil
  | cons result results ih =>
    rw [wrote]
    split
    · exact (ih _).cons_cons result
    · exact (ih _).cons result

theorem raise_eq_ok {α : Type} {x : Except Exception α} {a : α} :
    raise x w = .ok a w' ↔ x = .ok a ∧ w' = w := by
  cases x with
  | ok a' =>
    refine ⟨fun h => ?_, fun ⟨h, hw⟩ => ?_⟩
    · cases h; exact ⟨rfl, rfl⟩
    · cases h; rw [hw]; rfl
  | error e => exact ⟨nofun, fun h => nomatch h.1⟩

theorem writeResults_eq (hk : Pokes k view) (data : Bytes) (results : List Nat) (w : World σ) :
    ∃ mem, writeResults k data results w = .ok () { w with mem := mem } ∧
      view mem = overlayAll (view w.mem)
        ((wrote k data results w).map fun r => patchAt r data) := by
  induction results generalizing w with
  | nil => exact ⟨w.mem, rfl, rfl⟩
  | cons result results ih =>
    obtain ⟨mem, hrun, hmem⟩ := ih { w with mem := (k.write w result data).2 }
    have htried : tried (write k result data) w =
        .ok () { w with mem := (k.write w result data).2 } := by
      unfold tried write raise
      cases (k.write w result data).1 <;> rfl
    refine ⟨mem, run_bind_eq_ok.mpr ⟨_, _, htried, hrun⟩, ?_⟩
    rw [hmem, wrote]
    dsimp only
    cases hanswer : (k.write w result data).1 with
    | ok _ => rw [hk.put w result data hanswer]; rfl
    | error e => rw [hk.keep w result data e hanswer]

/-- The results that `set` writes. -/
def chosen (resultIndex : Int) (results : List Nat) : List Nat :=
  if resultIndex < 0 then results else results[resultIndex.toNat]?.toList

theorem chosen_subset (resultIndex : Int) (results : List Nat) :
    chosen resultIndex results ⊆ results := by
  unfold chosen
  split
  · exact fun _ h => h
  · intro r hr
    rw [Option.mem_toList] at hr
    exact List.mem_of_getElem? hr

theorem setScope_eq_ok (h : setScope k resultIndex results data w = .ok () w') :
    writeResults k data (chosen resultIndex results) w = .ok () w' := by
  unfold setScope at h
  unfold chosen
  split at h
  · next hneg => rw [if_pos hneg]; exact h
  · next hneg =>
    rw [if_neg hneg]
    cases hresult : results[resultIndex.toNat]? with
    | some result => rw [hresult] at h; exact h
    | none => rw [hresult] at h; cases h

variable [Phosg] [PhosgText] [FloatText]

/-- The results that a `set` has written. -/
def writtenBy (k : Kernel σ) (st : MemwatchShell) (resultIndex : Int) (results : List Nat)
    (data : Bytes) (w : World σ) : List Nat :=
  wrote k data (chosen resultIndex results) { w with suspendCount := countIn st.pauseTarget w }

/-- `set` lays its writes over the memory. -/
theorem commandSet_eq_ok (hk : Pokes k view)
    (h : commandSet k adapter st args w = .ok () w') :
    ∃ resultIndex results data, setWrites st args = .ok (resultIndex, results, data) ∧
      view w'.mem = overlayAll (view w.mem)
        ((writtenBy k st resultIndex results data w).map fun r => patchAt r data) := by
  obtain ⟨⟨resultIndex, results, data⟩, w₁, hraised, hguarded⟩ := run_bind_eq_ok.mp h
  obtain ⟨hwrites, rfl⟩ := raise_eq_ok.mp hraised
  obtain ⟨w₂, hscope, rfl⟩ :=
    guarded_eq_ok (balanced_setScope resultIndex results data) hguarded
  obtain ⟨mem, hrun, hmem⟩ := writeResults_eq hk data (chosen resultIndex results)
    { w₁ with suspendCount := countIn st.pauseTarget w₁ }
  rw [setScope_eq_ok hscope] at hrun
  cases hrun
  exact ⟨resultIndex, results, data, hwrites, hmem⟩

end Writes

/-! ## Searching for the value -/

section Searches

variable {σ : Type} {k : Kernel σ} {view : σ → Nat → UInt8} {adapter : ProcessMemoryAdapter}
  [Phosg] [PhosgText] [FloatText] {st : MemwatchShell} {target : Target}
  {search newSearch : MemorySearch} {args argsStr valueText : String} {w w' : World σ}
  {data : Bytes} {results : List Nat} {resultIndex : Int}

/-- The type compares the two values as equal. -/
def Equals (T : SearchType) (x y : Bytes) : Prop :=
  ∃ ev, T.evaluator? .equal = some ev ∧ ev.run x y T.fieldSize = true

/-- The new iteration has the results that were written, if they can be read, and of the other
results those that held the value. A value that is not a number equals nothing. -/
structure Confirms (search newSearch : MemorySearch) (regions : List Region) (written : List Nat)
    (before : Nat → UInt8) (data : Bytes) : Prop where
  results : newSearch.results ⊆ search.results
  ofWritten : ∀ a ∈ written, a ∈ newSearch.results ↔
    a ≠ 0 ∧ Bears regions a ∧ Equals search.type data data
  ofOthers : ∀ a ∈ search.results, a ∉ written → (a ∈ newSearch.results ↔
    a ≠ 0 ∧ Bears regions a ∧ Equals search.type (cellOf before a search.type.fieldSize) data)

theorem setWrites_eq_ok (h : setWrites st args = .ok (resultIndex, results, data)) :
    ∃ valueText search, setArgs args = .ok (resultIndex, valueText) ∧
      st.getLatestSearch none = .ok search ∧ results = search.results ∧
      readTypedValue search.type valueText = .ok data ∧ data ≠ [] := by
  obtain ⟨_, -, h⟩ := except_bind_eq_ok.mp h
  obtain ⟨⟨resultIndex', valueText⟩, hargs, h⟩ := except_bind_eq_ok.mp h
  obtain ⟨search, hlatest, h⟩ := except_bind_eq_ok.mp h
  split at h
  · cases h
  · obtain ⟨data', hvalue, h⟩ := except_bind_eq_ok.mp h
    split at h
    · cases h
    · next hne =>
      cases h
      exact ⟨valueText, search, hargs, hlatest, rfl, hvalue, hne⟩

/-- What the cells hold after a `set`. -/
structure SetCells (before after : Nat → UInt8) (results written : List Nat) (data : Bytes) :
    Prop where
  sub : written ⊆ results
  ofWritten : ∀ a ∈ written, cellOf after a data.length = data
  ofOthers : ∀ a ∈ results, a ∉ written →
    cellOf after a data.length = cellOf before a data.length

omit [Phosg] [PhosgText] [FloatText] in
theorem setCells (hdvd : ∀ a ∈ results, data.length ∣ a)
    (hview : view w'.mem = overlayAll (view w.mem)
      ((writtenBy k st resultIndex results data w).map fun r => patchAt r data)) :
    SetCells (view w.mem) (view w'.mem) results (writtenBy k st resultIndex results data w)
      data := by
  have hsub : writtenBy k st resultIndex results data w ⊆ results := fun a ha =>
    chosen_subset resultIndex results ((wrote_sublist k data _ _).subset ha)
  refine ⟨hsub, fun a ha => ?_, fun a ha hnot => ?_⟩
  · rw [hview]
    exact cellOf_written ha fun r hr => hdvd r (hsub hr)
  · rw [hview]
    exact cellOf_not_written hnot (fun r hr => hdvd r (hsub hr)) (hdvd a ha)

omit [PhosgText] [FloatText] in
/-- A search for a value keeps the results where the memory that is read has it. -/
theorem mem_results_of_update {olds regions : List Region} {after : Nat → UInt8}
    {text : String} {maxResults : Nat} (hinv : Invariant search) (hT : search.type ≠ .data)
    (hm : search.memory = some olds) (hO : PageSnapshot olds) (hN : PageSnapshot regions)
    (hvalid : search.resultsValid = true) (hcan : search.checkCanUpdate .equal data = .ok ())
    (hdata : data ≠ []) (hshows : Shows regions after)
    (hupdate : ({ search with annotation := text }.update regions .equal data
      maxResults).result = .ok newSearch) (a : Nat) :
    a ∈ newSearch.results ↔ a ∈ search.results ∧ a ≠ 0 ∧ Bears regions a ∧
      Equals search.type (cellOf after a search.type.fieldSize) data := by
  have hinv' : Invariant { search with annotation := text } := { hinv with }
  obtain ⟨ev, l, hev, hres, -, hl⟩ := update_narrows maxResults hinv' hT hm hO hN hcan
  obtain rfl := Except.ok.inj (hres.symm.trans hupdate)
  have hcand : ({ search with annotation := text } : MemorySearch).Candidate olds a ↔
      a ≠ 0 ∧ a ∈ search.results := by
    rw [Candidate, if_pos hvalid]
  refine (hl a).trans ?_
  rw [hcand]
  constructor
  · rintro ⟨⟨hzero, ha⟩, hbears, cur, value, hcur, hvalue, hrun⟩
    rw [hshows.cellAt_eq hN (fieldSize_dvd_page _) (hinv.cells a ha) hbears] at hcur
    obtain rfl := Option.some.inj hcur
    rw [if_neg (by simpa using hdata)] at hvalue
    obtain rfl := Option.some.inj hvalue
    exact ⟨ha, hzero, hbears, ev, hev, hrun⟩
  · rintro ⟨ha, hzero, hbears, ev', hev', hrun⟩
    obtain rfl := Option.some.inj (hev.symm.trans hev')
    refine ⟨⟨hzero, ha⟩, hbears, _, data, ?_, ?_, hrun⟩
    · exact hshows.cellAt_eq hN (fieldSize_dvd_page _) (hinv.cells a ha) hbears
    · rw [if_neg (by simpa using hdata)]

omit [PhosgText] [FloatText] in
theorem confirms_of_cells {regions : List Region} {before after : Nat → UInt8}
    {written : List Nat} (hlen : data.length = search.type.fieldSize)
    (hcells : SetCells before after search.results written data)
    (hmem : ∀ a, a ∈ newSearch.results ↔ a ∈ search.results ∧ a ≠ 0 ∧ Bears regions a ∧
      Equals search.type (cellOf after a search.type.fieldSize) data) :
    Confirms search newSearch regions written before data := by
  refine ⟨fun a ha => ((hmem a).mp ha).1, fun a ha => ?_, fun a ha hnot => ?_⟩
  · rw [hmem, ← hlen, hcells.ofWritten a ha]
    exact and_iff_right (hcells.sub ha)
  · rw [hmem, ← hlen, hcells.ofOthers a ha hnot]
    exact and_iff_right ha

/-- After `set`, a search for the value confirms what was written. -/
theorem set_then_search {P : List Region → Prop}
    (hsession : Session (fun p => TellsPages P p.toTarget) st)
    (hk : Pokes k view) (hset : commandSet k adapter st args w = .ok () w')
    (hargs : setArgs args = .ok (resultIndex, valueText))
    (hlatest : st.getLatestSearch none = .ok search) (hT : search.type ≠ .data)
    (hvalid : search.resultsValid = true) (htarget : TellsPages P target)
    (hshows : ∀ regions, target.getTargetRegions search.results = .ok regions →
      Shows regions (view w'.mem))
    (hsplit : splitArgs argsStr 1 3 = .ok ["=", valueText]) (hne : valueText ≠ "")
    (hsearch : newIteration st target argsStr =
      .ok (st.currentSearchName, newSearch)) :
    ∃ regions data, target.getTargetRegions search.results = .ok regions ∧
      readTypedValue search.type valueText = .ok data ∧
      Confirms search newSearch regions (writtenBy k st resultIndex search.results data w)
        (view w.mem) data := by
  obtain ⟨resultIndex', results, data, hwrites, hview⟩ := commandSet_eq_ok hk hset
  obtain ⟨valueText', search', hargs', hlatest', rfl, hvalue, hdata⟩ := setWrites_eq_ok hwrites
  obtain ⟨rfl, rfl⟩ := Prod.mk.inj (Except.ok.inj (hargs.symm.trans hargs'))
  obtain rfl := Except.ok.inj (hlatest.symm.trans hlatest')
  cases iterates_of_newIteration hsearch with
  | @intro arg _ valueText' annotation args' predicate searches latest _ value regions hsplit'
      hsearchArgs hfind hlast hvalue' hcan hregions hupdate =>
    obtain ⟨rfl, rfl⟩ := List.cons.inj (Except.ok.inj (hsplit.symm.trans hsplit'))
    cases hsearchArgs
    have hfound : some latest = some search := by
      rw [← getLatestSearch_eq_ok.mp hlatest, Option.getD_none, hfind, Option.bind_some, hlast]
    obtain rfl := Option.some.inj hfound
    rw [if_neg hne] at hvalue'
    obtain rfl := Except.ok.inj (hvalue.symm.trans hvalue')
    rw [if_pos hvalid] at hregions
    have hhistory : History P searches := histories_session hsession _ _ hfind
    have hmem : latest ∈ searches := List.mem_of_getLast? hlast
    have hinv := hhistory.invariant latest hmem hT
    obtain ⟨olds, hm⟩ := Option.isSome_iff_exists.mp (hhistory.valid latest hmem hvalid)
    have hlen := accepted_length hcan hdata hT
    refine ⟨regions, data, hregions, hvalue, confirms_of_cells hlen
      (setCells (fun a ha => hlen ▸ hinv.cells a ha) hview) fun a => ?_⟩
    exact mem_results_of_update hinv hT hm (hhistory.pages latest hmem olds hm).1
      (htarget.targets _ _ hregions).1 hvalid hcan hdata (hshows regions hregions) hupdate a

end Searches

/-! ## An example -/

section

open Plain

def sevenPage : Region := filledPage 0x7000 7 (by decide)

def showing (regions : List Region) : Process where
  toTarget := { idleTarget with
    getAllRegions := .ok regions
    getTargetRegions := fun _ => .ok regions }
  find _ _ := .ok []
  attach st _ := (st.processName, .ok ())
  act _ _ _ := .ok ()

theorem tellsPages_showing {regions : List Region} (h : PageSnapshot regions) :
    TellsPages (fun _ => True) (showing regions).toTarget := by
  refine ⟨fun _ hregions => ?_, fun _ _ hregions => ?_⟩
  · exact Except.ok.inj hregions ▸ ⟨h, trivial⟩
  · exact Except.ok.inj hregions ▸ ⟨h, trivial⟩

def sevenIteration : MemorySearch :=
  { MemorySearch.new .uint8 false with
    memory := some [sevenPage], resultsValid := true, results := [0x7000], prevSize := 1
    annotation := "= 7 at now" }

def sevenShell : MemwatchShell :=
  ((MemwatchShell.new "target" 1 5 false true false).openNew .uint8 false "a").setSearches "a"
    [MemorySearch.new .uint8 false, sevenIteration]

def writingKernel : Kernel (Nat → UInt8) where
  taskSuspend _ := .ok ()
  taskResume _ := .ok ()
  read _ _ size := .ok (List.replicate size 0)
  write w addr data := (.ok (), overlay w.mem (patchAt addr data))
  allRegions w _ := (.ok [], w.mem)
  save _ _ := .ok ()

theorem writingKernel_pokes : Pokes writingKernel id where
  put _ _ _ _ := rfl
  keep _ _ _ _ h := nomatch h

def shownPage (mem : Nat → UInt8) : Region :=
  { sevenPage with data := cellOf mem 0x7000 4096 }

theorem shownPage_snapshot (mem : Nat → UInt8) : PageSnapshot [shownPage mem] := by
  refine ⟨⟨List.pairwise_singleton _ _, List.pairwise_singleton _ _, fun r hr => ?_⟩,
    fun r hr => ?_, fun r hr => ?_⟩
  · have hdata : (shownPage mem).data = cellOf mem 0x7000 4096 := by rw [shownPage]
    rw [List.mem_singleton.mp hr, hdata, length_cellOf]
    exact .inr rfl
  · rw [List.mem_singleton.mp hr]
    have haddr : (shownPage mem).addr = 0x7000 := rfl
    have hsize : (shownPage mem).size = 4096 := rfl
    rw [haddr, hsize]
    exact ⟨by decide, dvd_rfl⟩
  · rw [List.mem_singleton.mp hr]
    exact show 0x7000 + 4096 < 2 ^ 64 by decide

theorem shownPage_shows (mem : Nat → UInt8) : Shows [shownPage mem] mem := by
  intro r hr
  rw [List.mem_singleton.mp hr, shownPage]
  dsimp only
  rw [length_cellOf]
  rfl

set_option maxRecDepth 100000 in
theorem sevenShell_session :
    Session (fun p => TellsPages (fun _ => True) p.toTarget) sevenShell := by
  have hpage : PageSnapshot [sevenPage] := filledPage_snapshot 7 (by decide) (by decide)
  have hnew : Session (fun p => TellsPages (fun _ => True) p.toTarget)
      (MemwatchShell.new "target" 1 5 false true false) := .new "target" 1 5 false false
  have hopen : Session (fun p => TellsPages (fun _ => True) p.toTarget)
      ((MemwatchShell.new "target" 1 5 false true false).openNew .uint8 false "a") :=
    .line hnew (show '\x00' ∉ "open u8 a".toList by decide) (tellsPages_showing hpage) rfl
  exact .line hopen (show '\x00' ∉ "search = 7".toList by decide) (tellsPages_showing hpage) rfl

/-- The sevens, and what they are after `set 9`. -/
def sevens : World (Nat → UInt8) := ⟨fun _ => 7, 0, fun _ => none⟩

def nine : World (Nat → UInt8) := { sevens with mem := overlay sevens.mem (patchAt 0x7000 [9]) }

set_option maxRecDepth 100000 in
theorem set_then_search_nine : ∃ newSearch regions data,
    newIteration sevenShell (showing [shownPage nine.mem]).toTarget "= 9" = .ok ("a", newSearch) ∧
      Confirms sevenIteration newSearch regions [0x7000] sevens.mem data := by
  have hset : commandSet writingKernel ⟨1⟩ sevenShell "9" sevens = .ok () nine := rfl
  have hsearch : ∃ newSearch, newIteration sevenShell (showing [shownPage nine.mem]).toTarget
      "= 9" = .ok ("a", newSearch) := ⟨_, rfl⟩
  obtain ⟨newSearch, hsearch⟩ := hsearch
  obtain ⟨regions, data, -, -, hconfirms⟩ := set_then_search sevenShell_session writingKernel_pokes
    hset (show setArgs "9" = .ok (-1, "9") from rfl)
    (show sevenShell.getLatestSearch none = .ok sevenIteration from rfl) (by decide) rfl
    (tellsPages_showing (shownPage_snapshot nine.mem))
    (fun regions hregions => Except.ok.inj hregions ▸ shownPage_shows nine.mem)
    (show splitArgs "= 9" 1 3 = .ok ["=", "9"] from rfl) (by decide) hsearch
  exact ⟨newSearch, regions, data, hsearch, hconfirms⟩

end

end World

end Memwatch
