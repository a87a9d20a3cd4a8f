import Memwatch.Search.Invariant

/-!
# Unknown-value searches

On page snapshots the second and the later searches keep exactly the addresses
whose cells satisfy the predicate, so a run of them from an initial `all` search
is exact from end to end.
-/

namespace Memwatch

open Lib Traced

namespace MemorySearch

/-- The cell of `news` at `a` satisfies the evaluator against the value, or
against the cell of `olds` if there is no value. -/
def Keeps (ev : Evaluator) (w : Nat) (news olds : List Region) (data : Bytes) (a : Nat) : Prop :=
  ∃ cur target, cellAt w news a = some cur ∧
    (if data.isEmpty then cellAt w olds a else some data) = some target ∧ ev.run cur target w = true

variable [Phosg] {s s' : MemorySearch} {news olds : List Region} {p : Predicate} {data : Bytes}
  {maxResults prevSize a : Nat} {ev : Evaluator} {r o : Region} {T : SearchType}

theorem passes_compareAt (hT : T ≠ .data) (hev : T.evaluator? p = some ev)
    (hdata : data ≠ [] → data.length = T.fieldSize) (hN : WellFormed news) (hO : WellFormed olds)
    (hr : r ∈ news) (hrd : r.HasData) (hra : r.Contains a) (ho : o ∈ olds) (hod : o.HasData)
    (hoa : o.Contains a)
    (hin : (compareAt data prevSize r o a).Inside news olds data T.fieldSize) :
    passes (EvalCall.test ev) (compareAt data prevSize r o a) = true ↔
      Keeps ev T.fieldSize news olds data a := by
  have hreads : ev.reads (compareAt data prevSize r o a).size ≤ T.fieldSize := by
    have := reads_le_cellWidth hev (compareAt data prevSize r o a).size
    rwa [SearchType.cellWidth, if_neg hT] at this
  rw [hin.passes_eq (evaluator_local hev) hreads, run_size_irrelevant hT hev _ _ _ T.fieldSize,
    Keeps, hN.cellAt_eq hr hrd hra, hO.cellAt_eq ho hod hoa]
  by_cases hd : data.isEmpty
  · simp [compareAt, callAt, Buffer.bytes, hd]
  · have hslice : slice data 0 T.fieldSize = data := by
      rw [← hdata (by simpa using hd), slice, List.drop_zero, List.take_length]
    simp [compareAt, callAt, Buffer.bytes, hd, hslice]

theorem mem_hits_secondPlan (hT : T ≠ .data) (hev : T.evaluator? p = some ev)
    (hdata : data ≠ [] → data.length = T.fieldSize) (hN : PageSnapshot news)
    (hO : PageSnapshot olds) (hin : ∀ c ∈ secondPlan T.fieldSize data prevSize news olds,
      c.Inside news olds data T.fieldSize) :
    a ∈ hits (EvalCall.test ev) EvalCall.addr (secondPlan T.fieldSize data prevSize news olds) ↔
      (T.fieldSize ∣ a ∧ Bears olds a) ∧ Bears news a ∧ Keeps ev T.fieldSize news olds data a := by
  have hw := fieldSize_pos T
  rw [mem_hits]
  constructor
  · rintro ⟨c, hc, hpass, rfl⟩
    have hc' := hc
    obtain ⟨a, r, hr, hrd, hra, hdvd, o, ho, hod, hoc, rfl⟩ :=
      (mem_secondPlan hw hO.toWellFormed).mp hc'
    have hoa := (hO.covers_iff ho).mp hoc
    refine ⟨⟨?_, o, ho, hod, hoa⟩, ⟨r, hr, hrd, hra⟩, (passes_compareAt hT hev hdata hN.toWellFormed
      hO.toWellFormed hr hrd hra ho hod hoa (hin _ hc)).mp hpass⟩
    show _ ∣ a
    rw [← Nat.sub_add_cancel hra.1]
    exact hdvd.add ((hN.pages.dvd (fieldSize_dvd_page T)) r hr).1
  · rintro ⟨⟨hdvd, o, ho, hod, hoa⟩, ⟨r, hr, hrd, hra⟩, hkeep⟩
    have hc : compareAt data prevSize r o a ∈ secondPlan T.fieldSize data prevSize news olds :=
      (mem_secondPlan hw hO.toWellFormed).mpr ⟨a, r, hr, hrd, hra,
        Nat.dvd_sub hdvd ((hN.pages.dvd (fieldSize_dvd_page T)) r hr).1, o, ho, hod,
        (hO.covers_iff ho).mpr hoa, rfl⟩
    exact ⟨_, hc, (passes_compareAt hT hev hdata hN.toWellFormed hO.toWellFormed hr hrd hra ho hod
      hoa (hin _ hc)).mpr hkeep, rfl⟩

/-! ## Regions around an address -/

/-- Where two cells are compared: the regions of both snapshots around an address. -/
structure Around (news olds : List Region) (r o : Region) (a : Nat) : Prop where
  newMem : r ∈ news
  newData : r.HasData
  newContains : r.Contains a
  oldMem : o ∈ olds
  oldData : o.HasData
  oldContains : o.Contains a

section Around

variable {results : List Nat} (hheld : ∀ a ∈ results, Bears olds a) (hO : PageSnapshot olds)
  (hN : PageSnapshot news)

omit [Phosg] in
include hheld hO hN in
/-- The plan compares the results in data of the new snapshot, each around its address. -/
theorem mem_verifyPlan_around {c : EvalCall} :
    c ∈ verifyPlan data prevSize news olds results ↔ ∃ a ∈ results, ∃ r o,
      Around news olds r o a ∧ c = compareAt data prevSize r o a := by
  rw [mem_verifyPlan hN.toWellFormed hO.toWellFormed]
  refine exists_congr fun a => and_congr_right fun ha => ?_
  constructor
  · rintro ⟨r, hr, hrd, hrc, o, ho, hoc, rfl⟩
    have hoa := (hO.covers_iff ho).mp hoc
    obtain ⟨o', ho', hod, hoa'⟩ := hheld a ha
    obtain rfl := hO.unique ho' ho hoa' hoa
    exact ⟨r, o', ⟨hr, hrd, (hN.covers_iff hr).mp hrc, ho', hod, hoa'⟩, rfl⟩
  · rintro ⟨r, o, h, rfl⟩
    exact ⟨r, h.newMem, h.newData, (hN.covers_iff h.newMem).mpr h.newContains, o, h.oldMem,
      (hO.covers_iff h.oldMem).mpr h.oldContains, rfl⟩

omit [Phosg] in
include hheld in
theorem exists_around (ha : a ∈ results) (hb : Bears news a) : ∃ r o, Around news olds r o a := by
  obtain ⟨r, hr, hrd, hra⟩ := hb
  obtain ⟨o, ho, hod, hoa⟩ := hheld a ha
  exact ⟨r, o, hr, hrd, hra, ho, hod, hoa⟩

omit [Phosg] in
include hheld hO hN in
/-- If the comparisons pass where the cells are kept, the hits are the results whose cells
are kept. -/
theorem mem_hits_around {w : Nat}
    (hpass : ∀ {a r o}, Around news olds r o a →
      compareAt data prevSize r o a ∈ verifyPlan data prevSize news olds results →
      (passes (EvalCall.test ev) (compareAt data prevSize r o a) = true ↔
        Keeps ev w news olds data a)) :
    a ∈ hits (EvalCall.test ev) EvalCall.addr (verifyPlan data prevSize news olds results) ↔
      a ∈ results ∧ Bears news a ∧ Keeps ev w news olds data a := by
  rw [mem_hits]
  constructor
  · rintro ⟨c, hc, hpassed, rfl⟩
    obtain ⟨a, ha, r, o, h, rfl⟩ := (mem_verifyPlan_around hheld hO hN).mp hc
    exact ⟨ha, ⟨r, h.newMem, h.newData, h.newContains⟩, (hpass h hc).mp hpassed⟩
  · rintro ⟨ha, hb, hkeep⟩
    obtain ⟨r, o, h⟩ := exists_around hheld ha hb
    have hc : compareAt data prevSize r o a ∈ verifyPlan data prevSize news olds results :=
      (mem_verifyPlan_around hheld hO hN).mpr ⟨a, ha, r, o, h, rfl⟩
    exact ⟨_, hc, (hpass h hc).mpr hkeep, rfl⟩

include hheld hO hN in
theorem mem_hits_verifyPlan (hT : T ≠ .data) (hev : T.evaluator? p = some ev)
    (hdata : data ≠ [] → data.length = T.fieldSize)
    (hin : ∀ c ∈ verifyPlan data prevSize news olds results, c.Inside news olds data T.fieldSize) :
    a ∈ hits (EvalCall.test ev) EvalCall.addr (verifyPlan data prevSize news olds results) ↔
      a ∈ results ∧ Bears news a ∧ Keeps ev T.fieldSize news olds data a :=
  mem_hits_around hheld hO hN fun h hc => passes_compareAt hT hev hdata hN.toWellFormed
    hO.toWellFormed h.newMem h.newData h.newContains h.oldMem h.oldData h.oldContains (hin _ hc)

end Around

/-! ## One update -/

theorem accepted_of_memory (hm : s.memory = some olds) (hp : (s.type.evaluator? p).isSome)
    (hdata : data = [] ∨ data.length = s.type.fieldSize) : s.checkCanUpdate p data = .ok () := by
  have hev : ¬ (s.type.evaluator? p).isNone = true := by
    rw [Option.isNone_iff_eq_none]
    exact Option.isSome_iff_ne_none.mp hp
  have hsize : ¬ (s.type ≠ .data ∧ data ≠ [] ∧
      data.length ≠ s.type.valueSizeForSearchType) := by
    rintro ⟨hT, hd, hlen⟩
    rcases hdata with rfl | hdata
    · exact hd rfl
    · exact hlen (hdata.trans (valueSize_eq_fieldSize hT).symm)
  rw [checkCanUpdate, if_neg hev, if_neg hsize, if_neg (by simp [hm]), if_neg (by simp [hm])]

/-- The addresses an update looks at: the results, or the cells of the stored
data if there are no results yet. -/
def Candidate (s : MemorySearch) (olds : List Region) (a : Nat) : Prop :=
  if s.resultsValid then a ≠ 0 ∧ a ∈ s.results else s.type.fieldSize ∣ a ∧ Bears olds a

/-- An update keeps the candidates whose cells satisfy the predicate. -/
theorem update_narrows (maxResults : Nat) (h : Invariant s) (hT : s.type ≠ .data)
    (hm : s.memory = some olds) (hO : PageSnapshot olds) (hN : PageSnapshot news)
    (hacc : s.checkCanUpdate p data = .ok ()) :
    ∃ ev l, s.type.evaluator? p = some ev ∧
      (s.update news p data maxResults).result = .ok (s.save news data l) ∧
      Invariant (s.save news data l) ∧
      ∀ a, a ∈ l ↔
        s.Candidate olds a ∧ Bears news a ∧ Keeps ev s.type.fieldSize news olds data a := by
  obtain ⟨ev, ha, hfit⟩ : ∃ ev, Accepted s news p data ev ∧ s.FirstFits news p ev data maxResults :=
    accepted_of_page hT hacc hN
  have hres := update_result maxResults h ha hT (by rw [hm]; nofun)
  refine ⟨ev, _, ha.evaluator, hres, (h.update ha hfit hres).1, fun a => ?_⟩
  have hin := plan_inside h ha hT fun hn => absurd (hm.symm.trans hn) nofun
  have hdata : data ≠ [] → data.length = s.type.fieldSize := fun hd => accepted_length hacc hd hT
  rw [hm, Option.getD_some] at hin
  unfold plan at hin ⊢
  unfold kept Candidate
  simp only [hm] at hin ⊢
  cases hv : s.resultsValid with
  | true =>
    simp only [hv, ↓reduceIte] at hin ⊢
    have hheld : ∀ a ∈ s.results, Bears olds a := fun a ha' => by
      obtain ⟨memory, hm', hb⟩ := h.held a ha'
      cases hm.symm.trans hm'
      exact hb
    rw [removeDeleted, List.mem_filter,
      mem_hits_verifyPlan hheld hO hN hT ha.evaluator hdata hin, decide_eq_true_eq]
    tauto
  | false =>
    simp only [hv, Bool.false_eq_true, ↓reduceIte] at hin ⊢
    exact mem_hits_secondPlan hT ha.evaluator hdata hN hO hin

/-! ## Runs -/

/-- A later update of an unknown-value search. -/
structure Narrowing (T : SearchType) (u : Update) : Prop where
  snapshot : PageSnapshot u.newMemory
  not_zero : ¬ Bears u.newMemory 0
  evaluator : (T.evaluator? u.predicate).isSome
  value : u.data = [] ∨ u.data.length = T.fieldSize

/-- In every snapshot after `olds` the address lies in data, and the cell there
satisfies that update's predicate. -/
def Survives (T : SearchType) : List Region → List Update → Nat → Prop
  | _, [], _ => True
  | olds, u :: ups, a =>
    (Bears u.newMemory a ∧ ∃ ev, T.evaluator? u.predicate = some ev ∧
      Keeps ev T.fieldSize u.newMemory olds u.data a) ∧ Survives T u.newMemory ups a

theorem runUpdates_narrows {ups : List Update} (h : Invariant s) (hT : s.type ≠ .data)
    (hv : s.resultsValid = true) (hm : s.memory = some olds) (hO : PageSnapshot olds)
    (h0 : 0 ∉ s.results) (hups : ∀ u ∈ ups, Narrowing s.type u) :
    ∃ s', (runUpdates s ups).result = .ok s' ∧ s'.results.Pairwise (· < ·) ∧
      ∀ a, a ∈ s'.results ↔ a ∈ s.results ∧ Survives s.type olds ups a := by
  induction ups generalizing s olds with
  | nil => exact ⟨s, rfl, h.ascending, fun a => (and_iff_left trivial).symm⟩
  | cons u ups ih =>
    obtain ⟨hN, hno, hp, hdata⟩ := hups u List.mem_cons_self
    obtain ⟨ev, l, hev, hres, hinv, hl⟩ := update_narrows u.maxResults h hT hm hO hN
      (accepted_of_memory hm hp hdata)
    obtain ⟨s', hrun, hasc, hmem⟩ := ih hinv hT rfl rfl hN (fun hz => hno ((hl 0).mp hz).2.1)
      fun v hv => hups v (List.mem_cons_of_mem _ hv)
    refine ⟨s', by rw [runUpdates, bind_of_ok hres]; exact hrun, hasc, fun a => (hmem a).trans ?_⟩
    have hcand : s.Candidate olds a ↔ a ∈ s.results := by
      rw [Candidate, if_pos hv]
      exact and_iff_right_of_imp fun ha hz => h0 (hz ▸ ha)
    have hkeep : (∃ ev', s.type.evaluator? u.predicate = some ev' ∧
        Keeps ev' s.type.fieldSize u.newMemory olds u.data a) ↔
        Keeps ev s.type.fieldSize u.newMemory olds u.data a := by
      rw [hev]; simp
    rw [Survives, hkeep, ← and_assoc, ← hcand]
    exact and_congr_left fun _ => hl a

theorem accepted_initial_all (allMemory : Bool) (hT : T ≠ .data) :
    (new T allMemory).checkCanUpdate .all [] = .ok () := by
  have hev : (T.evaluator? .all).isNone = false := by cases T <;> rfl
  unfold checkCanUpdate
  simp [new, hev, hT]

/-- An unknown-value search is exact from end to end. -/
theorem unknown_search_exact {S₀ : List Region} {ups : List Update} {allMemory : Bool}
    (hT : T ≠ .data) (hS₀ : PageSnapshot S₀) (hne : ups ≠ []) (hups : ∀ u ∈ ups, Narrowing T u) :
    ∃ s, (runUpdates (new T allMemory) (⟨S₀, .all, [], maxResults⟩ :: ups)).result = .ok s ∧
      s.results.Pairwise (· < ·) ∧
      ∀ a, a ∈ s.results ↔ T.fieldSize ∣ a ∧ Bears S₀ a ∧ Survives T S₀ ups a := by
  have hacc := accepted_initial_all allMemory hT
  obtain ⟨ev₀, ha₀, hfit₀⟩ : ∃ ev, Accepted (new T allMemory) S₀ .all [] ev ∧
      (new T allMemory).FirstFits S₀ .all ev [] maxResults := accepted_of_page hT hacc hS₀
  have hall : ((new T allMemory).update S₀ .all [] maxResults).result =
      .ok { new T allMemory with memory := some S₀ } := by rw [update_all hacc rfl]; rfl
  have hinv := ((Invariant.new T allMemory).update ha₀ hfit₀ hall).1
  cases ups with
  | nil => exact absurd rfl hne
  | cons u ups =>
    obtain ⟨hN, hno, hp, hdata⟩ := hups u List.mem_cons_self
    obtain ⟨ev, l, hev, hres, hinv', hl⟩ := update_narrows u.maxResults hinv hT rfl
      hS₀ hN (accepted_of_memory rfl hp hdata)
    obtain ⟨s, hrun, hasc, hmem⟩ := runUpdates_narrows hinv' hT rfl rfl hN
      (fun hz => hno ((hl 0).mp hz).2.1) fun v hv => hups v (List.mem_cons_of_mem _ hv)
    refine ⟨s, ?_, hasc, fun a => (hmem a).trans ?_⟩
    · rw [runUpdates, bind_of_ok hall, runUpdates, bind_of_ok hres]; exact hrun
    · have hkeep : (∃ ev', T.evaluator? u.predicate = some ev' ∧
          Keeps ev' T.fieldSize u.newMemory S₀ u.data a) ↔
          Keeps ev T.fieldSize u.newMemory S₀ u.data a := by
        rw [show T.evaluator? u.predicate = some ev from hev]; simp
      rw [Survives, hkeep, ← and_assoc, ← and_assoc]
      exact and_congr_left fun _ => hl a

omit [Phosg] in
/-- Every cell of a page has grown. -/
theorem unknown_search_exact_uint8 :
    let _ := bytewisePhosg
    ∃ s, (runUpdates (new .uint8 true) [⟨[filledPage 0x1000 7 (by decide)], .all, [], 0⟩,
        ⟨[filledPage 0x1000 8 (by decide)], .greater, [], 0⟩]).result = .ok s ∧
      s.results.Pairwise (· < ·) ∧
      ∀ a, a ∈ s.results ↔ SearchType.uint8.fieldSize ∣ a ∧
        Bears [filledPage 0x1000 7 (by decide)] a ∧
        Survives .uint8 [filledPage 0x1000 7 (by decide)]
          [⟨[filledPage 0x1000 8 (by decide)], .greater, [], 0⟩] a := by
  intro _
  refine unknown_search_exact (by decide) (filledPage_snapshot 7 (by decide) (by decide)) (by simp)
    fun u hu => ?_
  rw [List.mem_singleton.mp hu]
  refine ⟨filledPage_snapshot 8 (by decide) (by decide), ?_, rfl, .inl rfl⟩
  rintro ⟨r, hr, -, hle, -⟩
  rw [List.mem_singleton.mp hr] at hle
  exact absurd hle (by decide)

end MemorySearch
end Memwatch
