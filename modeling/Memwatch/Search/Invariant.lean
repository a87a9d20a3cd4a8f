import Memwatch.Search.First

/-!
# The invariant of a search

What holds between the results and the stored snapshot of a search, whatever
updates and deletions it has seen, and that every comparison stays inside the
memory the search holds.
-/

namespace Memwatch

open Lib Traced

namespace MemorySearch

variable [Phosg] {s s' : MemorySearch} {news : List Region} {p : Predicate} {data : Bytes}
  {maxResults : Nat} {ev : Evaluator} {c : EvalCall}

/-! ## Updates as runs over their plans -/

/-- The plan of an update that compares. -/
def plan (s : MemorySearch) (news : List Region) (data : Bytes) : List EvalCall :=
  match s.memory with
  | none => firstPlan s.type.fieldSize data news
  | some memory =>
    if s.resultsValid then verifyPlan data s.prevSize news memory s.results
    else secondPlan s.type.fieldSize data s.prevSize news memory

/-- Only the first search has a limit. -/
def limit (s : MemorySearch) (maxResults : Nat) : Option Nat :=
  if s.memory.isNone then some maxResults else none

/-- A verification drops a result at address `0`. -/
def kept (s : MemorySearch) (l : List Nat) : List Nat :=
  if s.resultsValid then removeDeleted l else l

omit [Phosg] in
theorem kept_sublist (l : List Nat) : (s.kept l).Sublist l := by
  unfold kept removeDeleted
  split
  · exact List.filter_sublist
  · exact List.Sublist.refl l

/-- The results are ascending cells of the stored snapshot's data; there are none
before the first comparison. -/
structure Invariant (s : MemorySearch) : Prop where
  ascending : s.results.Pairwise (· < ·)
  held : ∀ a ∈ s.results, ∃ memory ∈ s.memory, Bears memory a
  cells : ∀ a ∈ s.results, s.type.fieldSize ∣ a
  stored : ∀ memory ∈ s.memory, WellFormed memory ∧ Aligned s.type.fieldSize memory
  valid : s.resultsValid = true → s.memory.isSome
  pending : s.resultsValid = false → s.results = [] ∧ s.prevSize = 0

theorem Invariant.new (T : SearchType) (allMemory : Bool) : Invariant (new T allMemory) where
  ascending := List.Pairwise.nil
  held := nofun
  cells := nofun
  stored := nofun
  valid := nofun
  pending _ := ⟨rfl, rfl⟩

theorem Invariant.lt (h : Invariant s) {a : Nat} (ha : a ∈ s.results) : a < 2 ^ 64 := by
  obtain ⟨memory, -, r, -, -, -, hlt⟩ := h.held a ha
  have := r.fits
  omega

theorem Invariant.not_valid (h : Invariant s) (hm : s.memory = none) : s.resultsValid = false := by
  cases hv : s.resultsValid with
  | false => rfl
  | true => have := h.valid hv; rw [hm] at this; cases this

theorem Invariant.hasData (h : Invariant s) {memory : List Region} {o : Region} {a : Nat}
    (hm : s.memory = some memory) (ha : a ∈ s.results) (ho : o ∈ memory) (hoa : o.Contains a) :
    o.HasData := by
  obtain ⟨memory', hm', o', ho', hod', hoa'⟩ := h.held a ha
  cases hm.symm.trans hm'
  exact (h.stored memory hm).1.unique ho' ho hoa' hoa ▸ hod'

/-- What `update` is given: an evaluator, and a snapshot cut at cells. -/
structure Accepted (s : MemorySearch) (news : List Region) (p : Predicate) (data : Bytes)
    (ev : Evaluator) : Prop where
  accepted : s.checkCanUpdate p data = .ok ()
  evaluator : s.type.evaluator? p = some ev
  length_lt : data.length < 2 ^ 64
  wellFormed : WellFormed news
  aligned : Aligned s.type.fieldSize news

/-- The first search comes to regions shorter than the value with the limit only. -/
def FirstFits (s : MemorySearch) (news : List Region) (p : Predicate) (ev : Evaluator)
    (data : Bytes) (maxResults : Nat) : Prop :=
  s.memory = none → p ≠ .all → ShortPastLimit s.type.fieldSize ev data maxResults news

theorem data_ne_nil_of_first (hacc : s.checkCanUpdate p data = .ok ()) (hm : s.memory = none)
    (hp : p ≠ .all) : data ≠ [] := by
  intro hd
  unfold checkCanUpdate at hacc
  split at hacc
  · cases hacc
  · split at hacc
    · cases hacc
    · rw [if_pos ⟨by rw [hm]; rfl, hd, hp⟩] at hacc; cases hacc

theorem update_all (hacc : s.checkCanUpdate .all data = .ok ()) (hm : s.memory = none) :
    s.update news .all data maxResults = pure { s with memory := some news } := by
  obtain ⟨ev, hev⟩ := evaluator_of_accepted hacc
  rw [update, hacc, hev]
  simp only [hm, ↓reduceIte]

/-- The verification of ascending results is a run over their plan, less a result at `0`. -/
theorem update_verify {memory : List Region} (hacc : s.checkCanUpdate p data = .ok ())
    (hev : s.type.evaluator? p = some ev) (hm : s.memory = some memory)
    (hv : s.resultsValid = true) (hasc : s.results.Pairwise (· < ·))
    (hlt : ∀ a ∈ s.results, a < 2 ^ 64) :
    s.update news p data maxResults =
      collect none (EvalCall.test ev) EvalCall.addr
          (verifyPlan data s.prevSize news memory s.results) [] >>=
        fun l => pure (s.save news data (removeDeleted l)) := by
  have hmark : (markDeleted ev data s.prevSize news memory s.results >>= fun marks =>
      pure (removeDeleted marks)) = collect none (EvalCall.test ev) EvalCall.addr
        (verifyPlan data s.prevSize news memory s.results) [] >>= fun l =>
          pure (removeDeleted l) :=
    markDeleted_eq (hasc.imp fun hab => hab.le) (fun b hb => ⟨Nat.zero_le b, hlt b hb⟩)
      (Ahead.refl _ 0) (Ahead.refl _ 0)
  have hsave := congrArg (fun x : Scan (List Nat) =>
    (x >>= fun l => pure (s.save news data l) : Scan MemorySearch)) hmark
  rw [update, hacc, hev]
  simp only [hm, hv, Bool.not_true, Bool.false_eq_true, ↓reduceIte]
  simpa only [bind_assoc, pure_bind] using hsave

/-- Every other update is a run over its plan. -/
theorem update_eq (h : Invariant s) (ha : Accepted s news p data ev)
    (hall : s.memory = none → p ≠ .all) (hfit : s.FirstFits news p ev data maxResults) :
    s.update news p data maxResults =
      collect (s.limit maxResults) (EvalCall.test ev) EvalCall.addr (s.plan news data) [] >>=
        fun l => pure (s.save news data (s.kept l)) := by
  have hw := fieldSize_pos s.type
  cases hm : s.memory with
  | none =>
    have hdata := data_ne_nil_of_first ha.accepted hm (hall hm)
    have hinvalid := h.not_valid hm
    rw [update_first hm (hall hm) ha.accepted ha.evaluator, (h.pending hinvalid).1,
      firstScan_fresh hw (fieldSize_le_length ha.accepted hdata) ha.length_lt
        (evaluator_local ha.evaluator) (reads_le_length ha.accepted hdata ha.evaluator)
        ha.wellFormed (hfit hm (hall hm))]
    simp [plan, limit, kept, hm, hinvalid]
  | some memory =>
    obtain ⟨hmem, hal⟩ := h.stored memory hm
    simp only [hm, plan, limit, Option.isNone_some, kept]
    cases hv : s.resultsValid with
    | false =>
      rw [update, ha.accepted, ha.evaluator, (h.pending hv).1]
      simp only [hm, hv, Bool.not_false, ↓reduceIte, Bool.false_eq_true]
      rw [secondScan_eq hw hmem (fun o ho => (hal o ho).1) ha.wellFormed ha.aligned (Ahead.refl _ 0)
        fun _ _ _ => Nat.zero_le _]
    | true =>
      simp only [Bool.false_eq_true, ↓reduceIte]
      exact update_verify ha.accepted ha.evaluator hm hv h.ascending fun b hb => h.lt hb

/-! ## Preservation -/

theorem compareAt_of_mem_plan (h : Invariant s) (hN : WellFormed news)
    (hal : Aligned s.type.fieldSize news) {memory : List Region} (hm : s.memory = some memory)
    (hc : c ∈ s.plan news data) :
    ∃ a, s.type.fieldSize ∣ a ∧ ∃ r ∈ news, r.HasData ∧ r.Contains a ∧
      ∃ o ∈ memory, o.HasData ∧ o.Contains a ∧ c = compareAt data s.prevSize r o a := by
  have hO := (h.stored memory hm).1
  simp only [plan, hm] at hc
  split at hc
  · obtain ⟨a, ha, r, hr, hd, hcov, o, ho, hocov, rfl⟩ := (mem_verifyPlan hN hO).mp hc
    have hoc := Region.contains_of_covers hocov
    exact ⟨a, h.cells a ha, r, hr, hd, Region.contains_of_covers hcov, o, ho,
      h.hasData hm ha ho hoc, hoc, rfl⟩
  · obtain ⟨a, r, hr, hd, hcont, hdvd, o, ho, hod, hocov, rfl⟩ :=
      (mem_secondPlan (fieldSize_pos s.type) hO).mp hc
    refine ⟨a, ?_, r, hr, hd, hcont, o, ho, hod, Region.contains_of_covers hocov, rfl⟩
    rw [← Nat.sub_add_cancel hcont.1]
    exact hdvd.add (hal r hr).1

theorem bears_of_mem_plan (h : Invariant s) (hN : WellFormed news)
    (hal : Aligned s.type.fieldSize news) (hc : c ∈ s.plan news data) :
    Bears news c.addr ∧ s.type.fieldSize ∣ c.addr := by
  cases hm : s.memory with
  | none =>
    simp only [plan, hm] at hc
    obtain ⟨r, hr, hd, y, hy, hdvd, rfl⟩ := (mem_firstPlan (fieldSize_pos s.type)).mp hc
    exact ⟨⟨r, hr, hd, Nat.le_add_right _ _, by show r.addr + y < _; omega⟩, (hal r hr).1.add hdvd⟩
  | some memory =>
    obtain ⟨a, hdvd, r, hr, hd, hra, o, -, -, -, rfl⟩ := compareAt_of_mem_plan h hN hal hm hc
    exact ⟨⟨r, hr, hd, hra⟩, hdvd⟩

theorem plan_ascending (h : Invariant s) (hN : WellFormed news) :
    (s.plan news data).Pairwise fun c d => c.addr < d.addr := by
  have hw := fieldSize_pos s.type
  unfold plan
  split
  · exact firstPlan_ascending hw hN
  · next memory hm =>
    split
    · exact verifyPlan_ascending h.ascending
    · exact secondPlan_ascending hw hN (h.stored memory hm).1

theorem Invariant.update (h : Invariant s) (ha : Accepted s news p data ev)
    (hfit : s.FirstFits news p ev data maxResults)
    (hs' : (s.update news p data maxResults).result = .ok s') :
    Invariant s' ∧ s'.type = s.type := by
  by_cases hall : s.memory = none ∧ p = .all
  · obtain ⟨hm, rfl⟩ := hall
    rw [update_all ha.accepted hm] at hs'
    cases hs'
    have hpend := h.pending (h.not_valid hm)
    refine ⟨⟨h.ascending, ?_, h.cells, ?_, fun _ => rfl, h.pending⟩, rfl⟩
    · rw [show ({ s with memory := some news } : MemorySearch).results = [] from hpend.1]
      exact nofun
    · rintro memory ⟨⟩; exact ⟨ha.wellFormed, ha.aligned⟩
  · rw [update_eq h ha (fun hm hp => hall ⟨hm, hp⟩) hfit] at hs'
    obtain ⟨l, hl, hsave⟩ := bind_eq_ok hs'
    cases hsave
    obtain ⟨k, hlk, hk⟩ := collect_sublist hl
    rw [← (show l = k from hlk)] at hk
    have hsub : (s.kept l).Sublist (hits (EvalCall.test ev) EvalCall.addr (s.plan news data)) :=
      (kept_sublist l).trans hk
    have hmem : ∀ a ∈ s.kept l, Bears news a ∧ s.type.fieldSize ∣ a := by
      intro a hka
      obtain ⟨c, hc, -, rfl⟩ := mem_hits.mp (hsub.subset hka)
      exact bears_of_mem_plan h ha.wellFormed ha.aligned hc
    refine ⟨⟨(pairwise_hits (plan_ascending h ha.wellFormed)).sublist hsub, ?_,
      fun a hka => (hmem a hka).2, ?_, fun _ => rfl, nofun⟩, rfl⟩
    · exact fun a hka => ⟨news, rfl, (hmem a hka).1⟩
    · rintro memory ⟨⟩; exact ⟨ha.wellFormed, ha.aligned⟩

omit [Phosg] in
theorem deleteResults_eq {start last : Nat} (h : s.deleteResults start last = .ok s') :
    ∃ l, l.Sublist s.results ∧ s' = { s with results := l } := by
  simp only [deleteResults] at h
  split at h
  · next hle =>
    cases h
    refine ⟨_, ?_, rfl⟩
    have := (List.Sublist.refl (s.results.take (lowerBound s.results start))).append
      (List.drop_sublist_drop_left s.results hle)
    rwa [List.take_append_drop] at this
  · cases h

omit [Phosg] in
theorem lowerBound_mono (l : List Nat) {x y : Nat} (h : x ≤ y) :
    lowerBound l x ≤ lowerBound l y := by
  induction l with
  | nil => exact le_refl 0
  | cons a l ih =>
    unfold lowerBound at ih ⊢
    by_cases hx : a < x
    · rw [List.takeWhile_cons_of_pos (by simpa using hx),
        List.takeWhile_cons_of_pos (by simpa using hx.trans_le h)]
      exact Nat.succ_le_succ ih
    · rw [List.takeWhile_cons_of_neg (by simpa using hx)]
      exact Nat.zero_le _

omit [Phosg] in
/-- The deletion of a range that does not wrap around is defined. -/
theorem deleteResults_isOk (s : MemorySearch) {start last : Nat} (hle : start ≤ last)
    (hlast : last < 2 ^ 64 - 1) :
    ∃ l, l.Sublist s.results ∧ s.deleteResults start last = .ok { s with results := l } := by
  have hadd : add64 last 1 = last + 1 := add64_eq (by omega)
  have hb := lowerBound_mono s.results (show start ≤ add64 last 1 by omega)
  obtain ⟨s', hok⟩ : ∃ s', s.deleteResults start last = .ok s' := ⟨_, if_pos hb⟩
  obtain ⟨l, hl, rfl⟩ := deleteResults_eq hok
  exact ⟨l, hl, hok⟩

theorem Invariant.deleteResults {start last : Nat} (h : Invariant s)
    (hs' : s.deleteResults start last = .ok s') : Invariant s' ∧ s'.type = s.type := by
  obtain ⟨l, hl, rfl⟩ := deleteResults_eq hs'
  refine ⟨⟨h.ascending.sublist hl, fun a ha => h.held a (hl.subset ha),
    fun a ha => h.cells a (hl.subset ha), h.stored, h.valid, fun hv => ?_⟩, rfl⟩
  obtain ⟨hres, hprev⟩ := h.pending hv
  rw [hres] at hl
  exact ⟨List.sublist_nil.mp hl, hprev⟩

/-! ## Fixed-width types -/

theorem fieldSize_le_eight (T : SearchType) : T.fieldSize ≤ 8 := by
  rcases fieldSize_cases T with h | h | h | h <;> omega

omit [Phosg] in
theorem cell_fits {w a : Nat} {r : Region} (hr : w ∣ r.addr ∧ w ∣ r.size) (ha : w ∣ a)
    (hc : r.Contains a) : a - r.addr + w ≤ r.size := by
  obtain ⟨hle, hlt⟩ := hc
  have hdvd : w ∣ r.size - (a - r.addr) := Nat.dvd_sub hr.2 (Nat.dvd_sub ha hr.1)
  have := Nat.le_of_dvd (by omega) hdvd
  omega

/-- Every call a plan of a fixed-width type makes stays inside by the width. -/
theorem plan_inside (h : Invariant s) (ha : Accepted s news p data ev) (hT : s.type ≠ .data)
    (hall : s.memory = none → p ≠ .all) :
    ∀ c ∈ s.plan news data, c.Inside news (s.memory.getD []) data s.type.fieldSize := by
  have hw := fieldSize_pos s.type
  intro c hc
  cases hm : s.memory with
  | none =>
    have hdata := data_ne_nil_of_first ha.accepted hm (hall hm)
    simp only [plan, hm] at hc
    obtain ⟨r, hr, hd, y, hy, -, rfl⟩ := (mem_firstPlan hw).mp hc
    rw [← accepted_length ha.accepted hdata hT]
    exact (firstCall_inside ha.wellFormed hr hd).mpr (by omega)
  | some memory =>
    obtain ⟨hO, hOal⟩ := h.stored memory hm
    obtain ⟨a, hwa, r, hr, hrd, hrc, o, ho, hod, hoc, rfl⟩ :=
      compareAt_of_mem_plan h ha.wellFormed ha.aligned hm hc
    refine (compareAt_inside hr hrd ho hod).mpr ⟨?_, ?_⟩
    · rw [ha.wellFormed.length_data hr hrd]
      exact cell_fits (ha.aligned r hr) hwa hrc
    · split
      · rw [hO.length_data ho hod]
        exact cell_fits (hOal o ho) hwa hoc
      · next hd => exact fieldSize_le_length ha.accepted (by simpa using hd)

/-- Page snapshots are cut at cells, and no region with data is shorter than a value. -/
theorem accepted_of_page (hT : s.type ≠ .data) (hacc : s.checkCanUpdate p data = .ok ())
    (hN : PageSnapshot news) :
    ∃ ev, Accepted s news p data ev ∧ s.FirstFits news p ev data maxResults := by
  have hal : Aligned s.type.fieldSize news := hN.pages.dvd (fieldSize_dvd_page s.type)
  have hlen : data.length ≤ s.type.fieldSize := by
    by_cases hd : data = []
    · rw [hd]; exact Nat.zero_le _
    · exact (accepted_length hacc hd hT).le
  have hw := fieldSize_le_eight s.type
  obtain ⟨ev, hev⟩ := evaluator_of_accepted hacc
  refine ⟨ev, ⟨hacc, hev, by omega, hN.toWellFormed, hal⟩, fun _ _ pre r post hsplit hd hlt => ?_⟩
  -- a region that was read holds a cell, and the value is no longer than that
  have hr : r ∈ news := by rw [hsplit]; simp
  have := Nat.le_of_dvd (hN.size_pos hr hd) (hal r hr).2
  omega

theorem plan_answers (h : Invariant s) (ha : Accepted s news p data ev) (hT : s.type ≠ .data)
    (hall : s.memory = none → p ≠ .all) :
    ∀ c ∈ s.plan news data, ∃ b, c.test ev = .ok b := by
  intro c hc
  refine ⟨_, (plan_inside h ha hT hall c hc).test_eq ((reads_le_cellWidth ha.evaluator _).trans ?_)⟩
  rw [SearchType.cellWidth, if_neg hT]

theorem update_result (maxResults : Nat) (h : Invariant s) (ha : Accepted s news p data ev)
    (hT : s.type ≠ .data) (hm : s.memory ≠ none) : (s.update news p data maxResults).result =
      .ok (s.save news data
        (s.kept (hits (EvalCall.test ev) EvalCall.addr (s.plan news data)))) := by
  rw [update_eq h ha (fun hn => absurd hn hm) fun hn => absurd hn hm, limit,
    if_neg (by rw [Option.isNone_iff_eq_none]; exact hm)]
  exact result_bind_pure _ (collect_result (plan_answers h ha hT fun hn => absurd hn hm) [])

/-! ## Runs -/

/-- The states a fresh search of type `T` reaches on page snapshots. -/
inductive Reachable (T : SearchType) : MemorySearch → Prop
  | new (allMemory : Bool) : Reachable T (new T allMemory)
  | update {s s' : MemorySearch} {newMemory : List Region} {predicate : Predicate} {data : Bytes}
      {maxResults : Nat} : Reachable T s → PageSnapshot newMemory →
      (s.update newMemory predicate data maxResults).result = .ok s' → Reachable T s'
  | deleteResults {s s' : MemorySearch} {start last : Nat} : Reachable T s → start ≤ last →
      last < 2 ^ 64 - 1 → s.deleteResults start last = .ok s' → Reachable T s'

theorem accepted_of_result (h : (s.update news p data maxResults).result = .ok s') :
    s.checkCanUpdate p data = .ok () := by
  cases hacc : s.checkCanUpdate p data with
  | ok => rfl
  | error what => rw [MemorySearch.update, hacc] at h; cases h

theorem Reachable.invariant {T : SearchType} (hT : T ≠ .data) (h : Reachable T s) :
    Invariant s ∧ s.type = T := by
  induction h with
  | new allMemory => exact ⟨Invariant.new T allMemory, rfl⟩
  | update _ hN hs' ih =>
    obtain ⟨hinv, rfl⟩ := ih
    obtain ⟨ev, ha, hfit⟩ := accepted_of_page hT (accepted_of_result hs') hN
    exact hinv.update ha hfit hs'
  | deleteResults _ _ _ hs' ih =>
    obtain ⟨hinv, rfl⟩ := ih
    exact hinv.deleteResults hs'

theorem memory_of_update (h : (s.update news p data maxResults).result = .ok s') :
    s'.memory = some news := by
  unfold MemorySearch.update at h
  split at h
  · cases h
  · cases h
  · split at h
    · split at h
      · cases h; rfl
      · obtain ⟨_, -, h⟩ := bind_eq_ok h; cases h; rfl
    · split at h <;> (obtain ⟨_, -, h⟩ := bind_eq_ok h; cases h; rfl)

theorem Reachable.page {T : SearchType} (h : Reachable T s) {memory : List Region}
    (hm : s.memory = some memory) : PageSnapshot memory := by
  induction h with
  | new allMemory => cases hm
  | update _ hN hs' _ => cases (memory_of_update hs').symm.trans hm; exact hN
  | deleteResults _ _ _ hs' ih =>
    obtain ⟨l, -, rfl⟩ := deleteResults_eq hs'
    exact ih hm

def oneResult : MemorySearch :=
  { new .uint8 true with
    resultsValid := true
    memory := some [filledPage 0x1000 7 (by decide)]
    prevSize := 1
    results := [0x1000] }

omit [Phosg] in
set_option maxRecDepth 100000 in
theorem update_oneResult :
    (@update bytewisePhosg (new .uint8 true) [filledPage 0x1000 7 (by decide)] .equal [7]
      1).result = .ok oneResult := rfl

omit [Phosg] in
theorem oneResult_reachable : @Reachable bytewisePhosg .uint8 oneResult :=
  let _ := bytewisePhosg
  .update (.new true) (filledPage_snapshot 7 (by decide) (by decide)) update_oneResult

/-- What the rest of the program relies on, in every reachable state. -/
theorem reachable_invariant {T : SearchType} (hT : T ≠ .data) (h : Reachable T s) :
    s.results.Pairwise (· < ·) ∧
    (∀ a ∈ s.results, ∃ memory, s.memory = some memory ∧ Bears memory a) ∧
    (s.resultsValid = true → s.memory.isSome) ∧
    (s.resultsValid = false → s.results = []) :=
  have hinv := (h.invariant hT).1
  ⟨hinv.ascending, hinv.held, hinv.valid, fun hv => (hinv.pending hv).1⟩

omit [Phosg] in
theorem reachable_invariant_uint8 :
    oneResult.results.Pairwise (· < ·) ∧
    (∀ a ∈ oneResult.results, ∃ memory, oneResult.memory = some memory ∧ Bears memory a) ∧
    (oneResult.resultsValid = true → oneResult.memory.isSome) ∧
    (oneResult.resultsValid = false → oneResult.results = []) :=
  let _ := bytewisePhosg
  reachable_invariant (T := .uint8) (by decide) oneResult_reachable

/-- Every update of a reachable state returns, and every comparison it makes stays
inside the memory the search holds. -/
theorem comparisons_inside {T : SearchType} (hT : T ≠ .data) (h : Reachable T s)
    (hN : PageSnapshot news) (hacc : s.checkCanUpdate p data = .ok ()) :
    (∃ s', (s.update news p data maxResults).result = .ok s') ∧
    ∀ c ∈ (s.update news p data maxResults).events,
      c.Inside news (s.memory.getD []) data T.fieldSize := by
  obtain ⟨hinv, rfl⟩ := h.invariant hT
  obtain ⟨ev, ha, hfit⟩ : ∃ ev, Accepted s news p data ev ∧ s.FirstFits news p ev data maxResults :=
    accepted_of_page hT hacc hN
  by_cases hall : s.memory = none ∧ p = .all
  · obtain ⟨hm, rfl⟩ := hall
    rw [update_all hacc hm]
    exact ⟨⟨_, rfl⟩, nofun⟩
  · have hall' : s.memory = none → p ≠ .all := fun hm hp => hall ⟨hm, hp⟩
    have hin := plan_inside hinv ha hT hall'
    rw [update_eq hinv ha hall' hfit]
    obtain ⟨l, hl⟩ : ∃ l, (collect (s.limit maxResults) (EvalCall.test ev) EvalCall.addr
        (s.plan news data) []).result = .ok l := collect_isOk (plan_answers hinv ha hT hall') []
    refine ⟨⟨_, result_bind_pure _ hl⟩, fun c hc => hin c ?_⟩
    rw [events_bind_pure] at hc
    exact mem_plan_of_mem_events hc

omit [Phosg] in
/-- The result is compared with itself in a page whose bytes have changed. -/
theorem comparisons_inside_uint8 :
    (∃ s', (@update bytewisePhosg oneResult [filledPage 0x1000 8 (by decide)] .greater []
      0).result = .ok s') ∧
    ∀ c ∈ (@update bytewisePhosg oneResult [filledPage 0x1000 8 (by decide)] .greater [] 0).events,
      c.Inside [filledPage 0x1000 8 (by decide)] [filledPage 0x1000 7 (by decide)] []
        (@SearchType.fieldSize bytewisePhosg .uint8) :=
  let _ := bytewisePhosg
  comparisons_inside (by decide) oneResult_reachable
    (filledPage_snapshot 8 (by decide) (by decide)) rfl

end MemorySearch
end Memwatch
