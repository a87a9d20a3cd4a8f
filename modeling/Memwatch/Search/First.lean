import Memwatch.Search.Calls

/-!
# The first search of a known value

The scan looks at the cells of a region that end before the region's end. It
leaves the last cell out, and in a region shorter than the value the loop bound
wraps around.
-/

namespace Memwatch

open Lib Traced

namespace MemorySearch

variable {ev : Evaluator} {fieldSize maxResults : Nat} {data : Bytes} {S : List Region}
  {r : Region} {results : List Nat}

/-- The value's length of bytes at offset `y` satisfies the predicate. -/
def cellMatches (ev : Evaluator) (data : Bytes) (r : Region) (y : Nat) : Bool :=
  ev.run (slice r.data y data.length) data data.length

/-- The addresses of the matching cells that end before the end of their region. -/
def matchesBeforeEnd (fieldSize : Nat) (ev : Evaluator) (data : Bytes) (S : List Region) :
    List Nat :=
  S.flatMap fun r => if r.data.isEmpty then [] else
    ((strides fieldSize (r.size - data.length) 0).filter (cellMatches ev data r)).map (r.addr + ·)

theorem matchesBeforeEnd_cons (r : Region) (S : List Region) :
    matchesBeforeEnd fieldSize ev data (r :: S) =
      matchesBeforeEnd fieldSize ev data [r] ++ matchesBeforeEnd fieldSize ev data S := by
  simp [matchesBeforeEnd]

theorem matchesBeforeEnd_of_empty {r : Region} (hd : r.data.isEmpty = true) :
    matchesBeforeEnd fieldSize ev data [r] = [] := by
  rw [matchesBeforeEnd, List.flatMap_singleton, if_pos hd]

/-- Every region with data that is shorter than the value comes after enough
matches to reach the limit. -/
def ShortPastLimit (fieldSize : Nat) (ev : Evaluator) (data : Bytes) (maxResults : Nat)
    (S : List Region) : Prop :=
  ∀ pre r post, S = pre ++ r :: post → r.HasData → r.size < data.length →
    maxResults ≤ (matchesBeforeEnd fieldSize ev data pre).length

/-! ## The plan's answers -/

section Answers

variable (hl : ev.Local) (hr : ev.reads data.length ≤ data.length)

include hl hr

theorem passes_firstCall (hS : WellFormed S) (hrS : r ∈ S) (hd : r.HasData) {y : Nat}
    (hy : y + data.length ≤ r.size) :
    passes (EvalCall.test ev) (firstCall data r y) = cellMatches ev data r y := by
  rw [((firstCall_inside hS hrS hd).mpr hy).passes_eq hl hr]
  have hslice : slice data 0 data.length = data := by simp [slice]
  exact congrArg (ev.run _ · _) hslice

theorem hits_regionPlan (hS : WellFormed S) (hrS : r ∈ S) :
    hits (EvalCall.test ev) EvalCall.addr (regionPlan fieldSize data r) =
      matchesBeforeEnd fieldSize ev data [r] := by
  unfold regionPlan matchesBeforeEnd
  rw [List.flatMap_singleton]
  split
  · rfl
  · next hd =>
    rw [hits, List.filter_map, List.map_map]
    congr 1
    refine List.filter_congr fun y hy => ?_
    have hlt := lt_of_mem_strides hy
    exact passes_firstCall hl hr hS hrS (Region.hasData_iff.mpr hd) (by omega)

theorem hits_firstPlan (hS : WellFormed S) :
    hits (EvalCall.test ev) EvalCall.addr (firstPlan fieldSize data S) =
      matchesBeforeEnd fieldSize ev data S := by
  induction S with
  | nil => rfl
  | cons r S ih =>
    rw [firstPlan_cons, hits_append, hits_regionPlan hl hr hS List.mem_cons_self,
      ih (hS.sublist (List.sublist_cons_self r S)), ← matchesBeforeEnd_cons]

omit hl in
theorem firstPlan_answers (hw : 0 < fieldSize) (hS : WellFormed S) :
    ∀ c ∈ firstPlan fieldSize data S, ∃ b, c.test ev = .ok b := by
  intro c hc
  obtain ⟨r, hrS, hd, y, hy, -, rfl⟩ := (mem_firstPlan hw).mp hc
  exact ⟨_, ((firstCall_inside hS hrS hd).mpr (by omega)).test_eq hr⟩

end Answers

theorem mem_matchesBeforeEnd (hw : 0 < fieldSize) {a : Nat} :
    a ∈ matchesBeforeEnd fieldSize ev data S ↔ ∃ r ∈ S, r.HasData ∧ ∃ y, fieldSize ∣ y ∧
      y < r.size - data.length ∧ a = r.addr + y ∧ cellMatches ev data r y = true := by
  simp only [matchesBeforeEnd, List.mem_flatMap, Region.HasData]
  refine exists_congr fun r => and_congr_right fun _ => ?_
  by_cases hd : r.data.isEmpty
  · simp [hd]
  · simp only [hd, Bool.false_eq_true, ↓reduceIte, List.mem_map, List.mem_filter, mem_strides hw]
    constructor
    · rintro ⟨y, ⟨⟨-, hlt, hdvd⟩, hm⟩, rfl⟩
      exact ⟨trivial, y, hdvd, hlt, rfl, hm⟩
    · rintro ⟨-, y, hdvd, hlt, rfl, hm⟩
      exact ⟨y, ⟨⟨Nat.zero_le _, hlt, hdvd⟩, hm⟩, rfl⟩

/-! ## The scan -/

theorem scanCells_extends {fuel y : Nat} {results' : List Nat}
    (h : (scanCells ev fieldSize data maxResults r fuel y results).result = .ok results') :
    results <+: results' := by
  induction fuel generalizing y results with
  | zero => cases h
  | succ fuel ih =>
    rw [scanCells] at h
    split at h
    · obtain ⟨hit, -, h⟩ := bind_eq_ok h
      cases hit with
      | false => exact ih h
      | true =>
        have happ := List.prefix_append results [add64 r.addr y]
        simp only [↓reduceIte] at h
        split at h
        · cases h; exact happ
        · exact happ.trans (ih h)
    · cases h; exact List.prefix_rfl

theorem firstScan_extends {results' : List Nat}
    (h : (firstScan ev fieldSize data maxResults S results).result = .ok results') :
    results <+: results' := by
  induction S generalizing results with
  | nil => cases h; exact List.prefix_rfl
  | cons r S ih =>
    rw [firstScan] at h
    split at h
    · exact ih h
    · obtain ⟨l, h1, h2⟩ := bind_eq_ok h
      exact (scanCells_extends h1).trans (ih h2)

/-- Below the limit, the scan of a short region finds something in it or reads
past its end. -/
theorem scanCells_short_result (hw : 0 < fieldSize) (hlen : data.length < 2 ^ 64)
    (hfr : fieldSize ≤ ev.reads data.length) (hdl : r.data.length = r.size)
    (hlt : r.size < data.length) {fuel y : Nat} {results' : List Nat} (hfuel : r.size - y < fuel)
    (hy : y ≤ r.size) (hroom : results.length < maxResults)
    (h : (scanCells ev fieldSize data maxResults r fuel y results).result = .ok results') :
    ∃ a ∈ results', r.Contains a := by
  have hfits := r.fits
  induction fuel generalizing y results with
  | zero => omega
  | succ fuel ih =>
    have hbound : y < sub64 r.size data.length := by rw [sub64_wrap hlen hlt]; omega
    rw [scanCells, if_pos ⟨hbound, hroom⟩] at h
    obtain ⟨hit, hask, h⟩ := bind_eq_ok h
    have hin : y + ev.reads data.length ≤ r.data.length := (EvalCall.holds_of_test hask).1
    have hadd : add64 r.addr y = r.addr + y := add64_eq (by omega)
    have hmem : r.addr + y ∈ results ++ [add64 r.addr y] := by simp [hadd]
    have hcont : r.Contains (r.addr + y) := ⟨by omega, by omega⟩
    cases hit with
    | true =>
      simp only [↓reduceIte] at h
      split at h
      · cases h; exact ⟨_, hmem, hcont⟩
      · exact ⟨_, (scanCells_extends h).subset hmem, hcont⟩
    | false =>
      have hsize := r.size_lt
      rw [if_neg Bool.false_ne_true, show add64 y fieldSize = y + fieldSize from
        add64_eq (by omega)] at h
      exact ih (by omega) (by omega) hroom h

section Scan

variable (hw : 0 < fieldSize) (hwd : fieldSize ≤ data.length) (hlen : data.length < 2 ^ 64)
  (hl : ev.Local) (hr : ev.reads data.length ≤ data.length)

include hw hwd hlen hl hr

omit hwd hlen in
theorem collect_regionPlan (hS : WellFormed (r :: S)) (hres : results.length ≤ maxResults) :
    (collect (some maxResults) (EvalCall.test ev) EvalCall.addr (regionPlan fieldSize data r)
      results).result =
      .ok ((results ++ matchesBeforeEnd fieldSize ev data [r]).take maxResults) := by
  rw [← hits_regionPlan hl hr hS List.mem_cons_self]
  exact collect_result_limit (fun c hc => firstPlan_answers hr hw hS c
    (List.mem_flatMap.mpr ⟨r, List.mem_cons_self, hc⟩)) hres

/-- Where short regions are reached with the limit only, the scan is `collect`
over its plan. -/
theorem firstScan_eq (hS : WellFormed S) (hres : results.length ≤ maxResults)
    (hshort : ∀ pre r post, S = pre ++ r :: post → r.HasData → r.size < data.length →
      maxResults ≤ (results ++ matchesBeforeEnd fieldSize ev data pre).length) :
    firstScan ev fieldSize data maxResults S results =
      collect (some maxResults) (EvalCall.test ev) EvalCall.addr (firstPlan fieldSize data S)
        results := by
  induction S generalizing results with
  | nil => rfl
  | cons r S ih =>
    have htail := hS.sublist (List.sublist_cons_self r S)
    rw [firstScan, firstPlan_cons]
    by_cases hd : r.HasData
    · rw [if_neg (Region.hasData_iff.mp hd), hS.length_data List.mem_cons_self hd]
      rcases Nat.lt_or_ge r.size data.length with hlt | hge
      · have hfull : maxResults ≤ results.length := by
          simpa [matchesBeforeEnd] using hshort [] r S rfl hd hlt
        have hreached : reached (some maxResults) results = true := by simpa [reached] using hfull
        rw [(scanCells_short hlen hlt _ _).1 hfull, pure_bind, collect_reached hreached,
          ih htail hres fun pre s post _ _ _ => by rw [List.length_append]; omega,
          collect_reached hreached]
      · have hres' := collect_regionPlan hw hl hr hS hres
        rw [collect_append, scanCells_eq hw hwd hge (by omega), ← regionPlan_of_hasData hd,
          bind_of_ok hres', bind_of_ok hres',
          ih htail (by simp) fun pre s post hsplit hsd hslt => ?_]
        have := hshort (r :: pre) s post (by rw [hsplit]; rfl) hsd hslt
        rw [matchesBeforeEnd_cons, ← List.append_assoc, List.length_append] at this
        rw [List.length_append, List.length_take]
        omega
    · have hempty : r.data.isEmpty = true := Region.isEmpty_of_not_hasData hd
      rw [if_pos hempty, regionPlan, if_pos hempty, List.nil_append]
      refine ih htail hres fun pre s post hsplit hsd hslt => ?_
      have := hshort (r :: pre) s post (by rw [hsplit]; rfl) hsd hslt
      rwa [matchesBeforeEnd_cons, matchesBeforeEnd_of_empty hempty, List.nil_append] at this

omit hwd hl hr in
theorem firstScan_short_head (hfr : fieldSize ≤ ev.reads data.length) (hS : WellFormed (r :: S))
    (hd : r.HasData) (hlt : r.size < data.length) (hroom : results.length < maxResults) :
    firstCall data r 0 ∈ (firstScan ev fieldSize data maxResults (r :: S) results).events ∧
      ∀ l, (firstScan ev fieldSize data maxResults (r :: S) results).result = .ok l →
        ∃ a ∈ l, r.Contains a := by
  rw [firstScan, if_neg (Region.hasData_iff.mp hd)]
  refine ⟨mem_events_bind.mpr (.inl ((scanCells_short hlen hlt _ _).2 hroom)), fun l hl => ?_⟩
  obtain ⟨results', h1, h2⟩ := bind_eq_ok hl
  have hlength := hS.length_data List.mem_cons_self hd
  obtain ⟨a, ha, hra⟩ := scanCells_short_result hw hlen hfr hlength hlt (by omega)
    (Nat.zero_le _) hroom h1
  exact ⟨a, (firstScan_extends h2).subset ha, hra⟩

/-- Where a short region is reached below the limit, some short region is read
out of bounds, and if the scan gets past it there is a result in that region. -/
theorem firstScan_short (hfr : fieldSize ≤ ev.reads data.length) {pre post : List Region}
    (hS : WellFormed (pre ++ r :: post)) (hd : r.HasData) (hlt : r.size < data.length)
    (hroom : (results ++ matchesBeforeEnd fieldSize ev data pre).length < maxResults) :
    ∃ s ∈ pre ++ r :: post, s.HasData ∧ s.size < data.length ∧
      firstCall data s 0 ∈
        (firstScan ev fieldSize data maxResults (pre ++ r :: post) results).events ∧
      ∀ l, (firstScan ev fieldSize data maxResults (pre ++ r :: post) results).result = .ok l →
        ∃ a ∈ l, s.Contains a := by
  induction pre generalizing results with
  | nil =>
    have hroom' : results.length < maxResults := by simpa [matchesBeforeEnd] using hroom
    exact ⟨r, List.mem_cons_self, hd, hlt, firstScan_short_head hw hlen hfr hS hd hlt hroom'⟩
  | cons q pre ih =>
    have htail : WellFormed (pre ++ r :: post) := hS.sublist (List.sublist_cons_self q _)
    rw [matchesBeforeEnd_cons, ← List.append_assoc] at hroom
    rw [List.cons_append]
    by_cases hqd : q.HasData
    · rcases Nat.lt_or_ge q.size data.length with hqlt | hqge
      · rw [List.length_append, List.length_append] at hroom
        exact ⟨q, List.mem_cons_self, hqd, hqlt,
          firstScan_short_head hw hlen hfr hS hqd hqlt (by omega)⟩
      · have hres : (collect (some maxResults) (EvalCall.test ev) EvalCall.addr
            (regionPlan fieldSize data q) results).result =
            .ok (results ++ matchesBeforeEnd fieldSize ev data [q]) := by
          rw [List.length_append, List.length_append] at hroom
          rw [collect_regionPlan hw hl hr hS (by omega),
            List.take_of_length_le (by rw [List.length_append]; omega)]
        obtain ⟨s, hs, hsd, hslt, hcall, hcont⟩ := ih htail hroom
        rw [firstScan, if_neg (Region.hasData_iff.mp hqd), hS.length_data List.mem_cons_self hqd,
          scanCells_eq hw hwd hqge (by omega), ← regionPlan_of_hasData hqd, bind_of_ok hres]
        exact ⟨s, List.mem_cons_of_mem _ hs, hsd, hslt, List.mem_append_right _ hcall, hcont⟩
    · have hempty : q.data.isEmpty = true := Region.isEmpty_of_not_hasData hqd
      rw [matchesBeforeEnd_of_empty hempty, List.append_nil] at hroom
      obtain ⟨s, hs, hrest⟩ := ih htail hroom
      rw [firstScan, if_pos hempty]
      exact ⟨s, List.mem_cons_of_mem _ hs, hrest⟩

theorem firstScan_fresh (hS : WellFormed S) (h : ShortPastLimit fieldSize ev data maxResults S) :
    firstScan ev fieldSize data maxResults S [] =
      collect (some maxResults) (EvalCall.test ev) EvalCall.addr (firstPlan fieldSize data S) [] :=
  firstScan_eq hw hwd hlen hl hr hS (Nat.zero_le _) fun pre r post hsplit hd hlt => by
    simpa using h pre r post hsplit hd hlt

/-- Every call stays inside exactly if short regions are reached with the limit only. -/
theorem firstScan_inside_iff (hfr : fieldSize ≤ ev.reads data.length) (hS : WellFormed S) :
    (∀ c ∈ (firstScan ev fieldSize data maxResults S []).events, c.Inside S [] data c.size) ↔
      ShortPastLimit fieldSize ev data maxResults S := by
  constructor
  · intro h pre r post hsplit hd hlt
    by_contra hroom
    subst hsplit
    obtain ⟨s, hs, hsd, hslt, hcall, -⟩ := firstScan_short hw hwd hlen hl hr hfr hS hd hlt
      (show ([] ++ _ : List Nat).length < maxResults by simpa using hroom)
    have : 0 + data.length ≤ s.size := (firstCall_inside hS hs hsd).mp (h _ hcall)
    omega
  · intro h c hc
    rw [firstScan_fresh hw hwd hlen hl hr hS h] at hc
    obtain ⟨r, hrS, hd, y, hy, -, rfl⟩ := (mem_firstPlan hw).mp (mem_plan_of_mem_events hc)
    exact (firstCall_inside hS hrS hd).mpr (by omega)

theorem firstScan_result (hS : WellFormed S)
    (h : ShortPastLimit fieldSize ev data maxResults S) :
    (firstScan ev fieldSize data maxResults S []).result =
      .ok ((matchesBeforeEnd fieldSize ev data S).take maxResults) := by
  rw [firstScan_fresh hw hwd hlen hl hr hS h,
    collect_result_limit (firstPlan_answers hr hw hS) (Nat.zero_le _), List.nil_append,
    hits_firstPlan hl hr hS]

/-- A scan that finds whole values only has no room left at a short region: it finds an
address in one if it has. -/
theorem shortPastLimit_of_found (hfr : fieldSize ≤ ev.reads data.length) (hS : WellFormed S)
    {l : List Nat} (hscan : (firstScan ev fieldSize data maxResults S []).result = .ok l)
    (hfound : ∀ a ∈ l, ∃ r ∈ S, ∃ y, y + data.length ≤ r.size ∧ a = r.addr + y) :
    ShortPastLimit fieldSize ev data maxResults S := by
  intro pre r post hsplit hd hlt
  by_contra hroom
  subst hsplit
  obtain ⟨q, hq, -, hqlt, -, hcont⟩ := firstScan_short hw hwd hlen hl hr hfr hS hd hlt
    (show ([] ++ _ : List Nat).length < maxResults by simpa using hroom)
  obtain ⟨a, ha, hqa⟩ := hcont l hscan
  obtain ⟨q', hq', y, hy, rfl⟩ := hfound a ha
  obtain rfl := hS.unique hq hq' hqa ⟨by omega, by omega⟩
  omega

omit hwd hlen hl hr

/-- The last cell of a region is not among the matches before the ends. -/
theorem last_not_mem_matchesBeforeEnd (hS : WellFormed S) (hpos : 0 < data.length) (hmem : r ∈ S)
    (hle : data.length ≤ r.size) :
    r.addr + (r.size - data.length) ∉ matchesBeforeEnd fieldSize ev data S := by
  intro hlast
  obtain ⟨q, hq, -, y, -, hy, heq, -⟩ := (mem_matchesBeforeEnd hw).mp hlast
  obtain rfl := hS.unique hmem hq (a := r.addr + (r.size - data.length)) ⟨by omega, by omega⟩
    ⟨by omega, by omega⟩
  omega

theorem mem_matchesBeforeEnd_of_last (hlast : ∀ r ∈ S, r.HasData → data.length ≤ r.size →
      fieldSize ∣ r.size - data.length → cellMatches ev data r (r.size - data.length) = false)
    {a : Nat} : a ∈ matchesBeforeEnd fieldSize ev data S ↔ ∃ r ∈ S, r.HasData ∧ ∃ y,
      fieldSize ∣ y ∧ y + data.length ≤ r.size ∧ a = r.addr + y ∧
        cellMatches ev data r y = true := by
  rw [mem_matchesBeforeEnd hw]
  refine exists_congr fun r => and_congr_right fun hrS => and_congr_right fun hd =>
    exists_congr fun y => and_congr_right fun hdvd => ?_
  constructor
  · rintro ⟨hy, ha, hm⟩
    exact ⟨by omega, ha, hm⟩
  · rintro ⟨hy, ha, hm⟩
    refine ⟨?_, ha, hm⟩
    by_contra hge
    have hyeq : y = r.size - data.length := by omega
    have := hlast r hrS hd (by omega) (hyeq ▸ hdvd)
    rw [← hyeq, hm] at this
    cases this

end Scan

theorem matchesBeforeEnd_ascending (hw : 0 < fieldSize) (hl : ev.Local)
    (hr : ev.reads data.length ≤ data.length) (hS : WellFormed S) :
    (matchesBeforeEnd fieldSize ev data S).Pairwise (· < ·) := by
  rw [← hits_firstPlan hl hr hS]
  exact pairwise_hits (firstPlan_ascending hw hS)

/-! ## Exactness -/

/-- The number of cells of the value's length in the regions that were read. -/
def numCells (fieldSize : Nat) (data : Bytes) (S : List Region) : Nat :=
  (S.map fun r => if r.data.isEmpty then 0
    else (strides fieldSize (r.size + 1 - data.length) 0).length).sum

theorem length_matchesBeforeEnd_le : (matchesBeforeEnd fieldSize ev data S).length ≤
    numCells fieldSize data S := by
  rw [matchesBeforeEnd, numCells, List.length_flatMap]
  refine List.sum_le_sum fun r _ => ?_
  split
  · exact Nat.zero_le _
  · rw [List.length_map]
    exact (List.length_filter_le _ _).trans (length_strides_mono (by omega))

/-- The scan reads inside its buffers and finds every match and only matches. -/
structure FindsExactly (ev : Evaluator) (fieldSize : Nat) (data : Bytes) (S : List Region)
    (scan : Scan MemorySearch) : Prop where
  inside : ∀ c ∈ scan.events, c.Inside S [] data (ev.reads c.size)
  exact : ∃ s, scan.result = .ok s ∧ s.results.Pairwise (· < ·) ∧
    ∀ a, a ∈ s.results ↔ ∃ r ∈ S, r.HasData ∧ ∃ y, fieldSize ∣ y ∧ y + data.length ≤ r.size ∧
      a = r.addr + y ∧ cellMatches ev data r y = true

section Update

variable [Phosg] {s : MemorySearch} {T : SearchType} {p : Predicate}

theorem update_first (hm : s.memory = none) (hp : p ≠ .all)
    (hacc : s.checkCanUpdate p data = .ok ()) (hev : s.type.evaluator? p = some ev) :
    s.update S p data maxResults =
      firstScan ev s.type.fieldSize data maxResults S s.results >>= fun l =>
        pure (s.save S data l) := by
  rw [update, hacc, hev]
  simp only [hm, if_neg hp]

theorem evaluator_of_accepted (hacc : s.checkCanUpdate p data = .ok ()) :
    ∃ ev, s.type.evaluator? p = some ev := by
  cases hev : s.type.evaluator? p with
  | some ev => exact ⟨ev, rfl⟩
  | none =>
    rw [checkCanUpdate, if_pos (by rw [hev]; rfl)] at hacc
    cases hacc

theorem accepted_length (hacc : s.checkCanUpdate p data = .ok ()) (hdata : data ≠ [])
    (hT : s.type ≠ .data) : data.length = s.type.fieldSize := by
  rw [← valueSize_eq_fieldSize hT]
  unfold checkCanUpdate at hacc
  by_contra hne
  split at hacc
  · cases hacc
  · rw [if_pos ⟨hT, hdata, hne⟩] at hacc; cases hacc

theorem fieldSize_le_length (hacc : s.checkCanUpdate p data = .ok ()) (hdata : data ≠ []) :
    s.type.fieldSize ≤ data.length := by
  by_cases hT : s.type = .data
  · rw [hT, fieldSize_data]; exact List.length_pos_iff.mpr hdata
  · exact (accepted_length hacc hdata hT).ge

theorem reads_le_length (hacc : s.checkCanUpdate p data = .ok ()) (hdata : data ≠ [])
    (hev : s.type.evaluator? p = some ev) : ev.reads data.length ≤ data.length := by
  refine (reads_le_cellWidth hev _).trans ?_
  unfold SearchType.cellWidth
  split
  · exact le_refl _
  · exact fieldSize_le_length hacc hdata

/-- A first search is exact if and only if no last cell of a region matches and
regions shorter than the value are reached with the limit only. -/
theorem first_search_exact_iff {allMemory : Bool} (hp : p ≠ .all) (hdata : data ≠ [])
    (hlen : data.length < 2 ^ 64) (hev : T.evaluator? p = some ev)
    (hacc : (new T allMemory).checkCanUpdate p data = .ok ()) (hS : WellFormed S)
    (hmax : numCells T.fieldSize data S ≤ maxResults) :
    FindsExactly ev T.fieldSize data S ((new T allMemory).update S p data maxResults) ↔
      (∀ r ∈ S, r.HasData → data.length ≤ r.size → T.fieldSize ∣ r.size - data.length →
        cellMatches ev data r (r.size - data.length) = false) ∧
      ShortPastLimit T.fieldSize ev data maxResults S := by
  have hw := fieldSize_pos T
  have hwd : T.fieldSize ≤ data.length := fieldSize_le_length hacc hdata
  have hl := evaluator_local hev
  have hr : ev.reads data.length ≤ data.length := reads_le_length hacc hdata hev
  have hfr := fieldSize_le_reads hp hev (List.length_pos_iff.mpr hdata)
  have hupd : (new T allMemory).update S p data maxResults =
      firstScan ev T.fieldSize data maxResults S [] >>= fun l =>
        pure ((new T allMemory).save S data l) :=
    update_first rfl hp hacc hev
  rw [hupd]
  constructor
  · rintro ⟨-, s, hres, -, hmem⟩
    obtain ⟨l, hscan, hsave⟩ := bind_eq_ok hres
    cases hsave
    have hshort : ShortPastLimit T.fieldSize ev data maxResults S := by
      refine shortPastLimit_of_found hw hwd hlen hl hr hfr hS hscan fun a ha => ?_
      obtain ⟨r, hrS, -, y, -, hy, heq, -⟩ := (hmem a).mp ha
      exact ⟨r, hrS, y, hy, heq⟩
    refine ⟨fun r hrS hd hle hdvd => ?_, hshort⟩
    by_contra hmatch
    have hlast := (hmem (r.addr + (r.size - data.length))).mpr
      ⟨r, hrS, hd, _, hdvd, by omega, rfl, by simpa using hmatch⟩
    rw [firstScan_result hw hwd hlen hl hr hS hshort] at hscan
    cases hscan
    exact last_not_mem_matchesBeforeEnd hw hS (by omega) hrS hle (List.mem_of_mem_take hlast)
  · rintro ⟨hlast, hshort⟩
    have hres := firstScan_result hw hwd hlen hl hr hS hshort
    rw [List.take_of_length_le (length_matchesBeforeEnd_le.trans hmax)] at hres
    refine ⟨fun c hc => ?_, _, result_bind_pure _ hres, matchesBeforeEnd_ascending hw hl hr hS,
      fun a => mem_matchesBeforeEnd_of_last hw hlast⟩
    rw [events_bind_pure] at hc
    have hin := (firstScan_inside_iff hw hwd hlen hl hr hfr hS).mpr hshort c hc
    rw [firstScan_fresh hw hwd hlen hl hr hS hshort] at hc
    obtain ⟨r, -, -, y, -, -, rfl⟩ := (mem_firstPlan hw).mp (mem_plan_of_mem_events hc)
    exact hin.mono hr

end Update

/-- A search for a byte that is not the last one of its region. -/
theorem first_search_exact_uint8 :
    let _ := bytewisePhosg
    FindsExactly (opFunction ⟨8, false⟩ .eq) 1 [3] [twoBytes 3 0]
      ((new .uint8 true).update [twoBytes 3 0] .equal [3] 2) := by
  intro _
  refine (first_search_exact_iff (T := .uint8) (p := .equal) (by decide) (by decide) (by decide) rfl
    rfl (twoBytes_wellFormed 3 0) (by decide)).mpr ⟨by decide, fun pre r post hsplit _ hlt => ?_⟩
  have hr : r ∈ pre ++ r :: post := by simp
  rw [← hsplit, List.mem_singleton] at hr
  subst hr
  exact absurd hlt (by decide)

/-- A search for the only byte of a region does not find it. -/
theorem first_search_misses_last_cell :
    let _ := bytewisePhosg
    (new .uint8 true).checkCanUpdate .equal [3] = .ok () ∧ WellFormed [oneByte 3] ∧
    numCells 1 [3] [oneByte 3] ≤ 1 ∧
    ¬ FindsExactly (opFunction ⟨8, false⟩ .eq) 1 [3] [oneByte 3]
      ((new .uint8 true).update [oneByte 3] .equal [3] 1) := by
  intro _
  refine ⟨rfl, oneByte_wellFormed 3, by decide, ?_⟩
  rintro ⟨-, s, hres, -, hmem⟩
  have hfound := (hmem 0x1000).mpr
    ⟨_, List.mem_singleton_self _, rfl, 0, dvd_zero _, by decide, rfl, by decide⟩
  cases hres
  cases hfound

end MemorySearch
end Memwatch
