import Memwatch.Search.Invariant

/-!
# Searches for byte strings

The length a `data` search compares is the value's, or the one remembered in
`prevSize`. When its comparisons stay inside the memory the search holds, and
what `prevSize` remembers.
-/

namespace Memwatch

open Lib Traced

namespace MemorySearch

variable [Phosg] {s s' : MemorySearch} {u : Update} {ev : Evaluator} {allMemory : Bool}

/-- The update is accepted and given well-formed memory. -/
structure Posed (s : MemorySearch) (u : Update) : Prop where
  accepted : s.checkCanUpdate u.predicate u.data = .ok ()
  wellFormed : WellFormed u.newMemory
  length_lt : u.data.length < 2 ^ 64

/-- The address an update compares with an old snapshot: a result, or an address
of both snapshots' data. -/
def Compared (s : MemorySearch) (r o : Region) (a : Nat) : Prop :=
  if s.resultsValid then a ∈ s.results ∧ r.Covers a ∧ o.Covers a
  else r.Contains a ∧ o.HasData ∧ o.Covers a

/-- The compared length ends inside every region it is compared in. -/
def Fits (s : MemorySearch) (u : Update) : Prop :=
  match s.memory with
  | none => u.predicate = .all ∨ ∀ ev, s.type.evaluator? u.predicate = some ev →
      ShortPastLimit s.type.fieldSize ev u.data u.maxResults u.newMemory
  | some memory => ∀ r ∈ u.newMemory, r.HasData → ∀ o ∈ memory, ∀ a, Compared s r o a →
      a + comparedSize u.data s.prevSize ≤ r.addr + r.size ∧
      (u.data = [] → a + s.prevSize ≤ o.addr + o.size)

/-- Every call stays inside by the length it is given. -/
def StaysInside (s : MemorySearch) (u : Update) : Prop :=
  ∀ c ∈ (s.update u.newMemory u.predicate u.data u.maxResults).events,
    c.Inside u.newMemory (s.memory.getD []) u.data c.size

theorem accepted_of_posed (hT : s.type = .data) (h : Posed s u) :
    ∃ ev, Accepted s u.newMemory u.predicate u.data ev := by
  obtain ⟨ev, hev⟩ := evaluator_of_accepted h.accepted
  refine ⟨ev, h.accepted, hev, h.length_lt, h.wellFormed, ?_⟩
  rw [hT, fieldSize_data]
  apply Aligned.one

omit [Phosg] in
/-- A comparison with an old region stays inside if its length ends in both. -/
theorem compareAt_inside_size {news olds : List Region} {data : Bytes} {prevSize a : Nat}
    {r o : Region} (hN : WellFormed news) (hO : WellFormed olds) (hr : r ∈ news) (hrd : r.HasData)
    (hra : r.Contains a) (ho : o ∈ olds) (hod : o.HasData) (hoa : o.Contains a) :
    (compareAt data prevSize r o a).Inside news olds data (comparedSize data prevSize) ↔
      a + comparedSize data prevSize ≤ r.addr + r.size ∧
      (data = [] → a + prevSize ≤ o.addr + o.size) := by
  obtain ⟨hrle, -⟩ := hra
  obtain ⟨hole, -⟩ := hoa
  rw [compareAt_inside hr hrd ho hod, hN.length_data hr hrd, hO.length_data ho hod, comparedSize]
  rcases eq_or_ne data [] with rfl | hne
  · simp only [List.isEmpty_nil, ↓reduceIte, forall_const]
    omega
  · simp only [List.isEmpty_eq_false_iff.mpr hne, Bool.false_eq_true, ↓reduceIte, le_refl, and_true,
      hne, false_implies]
    omega

theorem mem_plan_iff (h : Invariant s) (hT : s.type = .data) {memory : List Region}
    (hm : s.memory = some memory) (hN : WellFormed u.newMemory) {c : EvalCall} :
    c ∈ s.plan u.newMemory u.data ↔ ∃ r ∈ u.newMemory, r.HasData ∧ ∃ o ∈ memory, ∃ a,
      Compared s r o a ∧ c = compareAt u.data s.prevSize r o a := by
  have hO := (h.stored memory hm).1
  unfold plan Compared
  simp only [hm]
  cases s.resultsValid with
  | true =>
    simp only [↓reduceIte]
    rw [mem_verifyPlan hN hO]
    constructor
    · rintro ⟨a, ha, r, hr, hrd, hra, o, ho, hoa, rfl⟩
      exact ⟨r, hr, hrd, o, ho, a, ⟨ha, hra, hoa⟩, rfl⟩
    · rintro ⟨r, hr, hrd, o, ho, a, ⟨ha, hra, hoa⟩, rfl⟩
      exact ⟨a, ha, r, hr, hrd, hra, o, ho, hoa, rfl⟩
  | false =>
    simp only [Bool.false_eq_true, ↓reduceIte]
    rw [mem_secondPlan (fieldSize_pos _) hO, hT, fieldSize_data]
    constructor
    · rintro ⟨a, r, hr, hrd, hra, -, o, ho, hod, hoa, rfl⟩
      exact ⟨r, hr, hrd, o, ho, a, ⟨hra, hod, hoa⟩, rfl⟩
    · rintro ⟨r, hr, hrd, o, ho, a, ⟨hra, hod, hoa⟩, rfl⟩
      exact ⟨a, r, hr, hrd, hra, one_dvd _, o, ho, hod, hoa, rfl⟩

theorem Compared.regions (h : Invariant s) {memory : List Region} (hm : s.memory = some memory)
    {r o : Region} {a : Nat} (ho : o ∈ memory) (hc : Compared s r o a) :
    r.Contains a ∧ o.HasData ∧ o.Contains a := by
  unfold Compared at hc
  split at hc
  · obtain ⟨ha, hra, hoa⟩ := hc
    have hoc := Region.contains_of_covers hoa
    exact ⟨Region.contains_of_covers hra, h.hasData hm ha ho hoc, hoc⟩
  · obtain ⟨hra, hod, hoa⟩ := hc
    exact ⟨hra, hod, Region.contains_of_covers hoa⟩

theorem staysInside_iff (h : Invariant s) (hT : s.type = .data) (hu : Posed s u) :
    StaysInside s u ↔ Fits s u := by
  obtain ⟨ev, ha⟩ := accepted_of_posed hT hu
  unfold StaysInside Fits
  cases hm : s.memory with
  | none =>
    by_cases hp : u.predicate = .all
    · have hacc := hu.accepted
      rw [hp] at hacc ⊢
      rw [update_all hacc hm]
      exact iff_of_true nofun (.inl rfl)
    · have hdata := data_ne_nil_of_first hu.accepted hm hp
      rw [update_first hm hp hu.accepted ha.evaluator, (h.pending (h.not_valid hm)).1,
        events_bind_pure, Option.getD_none, firstScan_inside_iff (fieldSize_pos _)
          (fieldSize_le_length hu.accepted hdata) hu.length_lt (evaluator_local ha.evaluator)
          (reads_le_length hu.accepted hdata ha.evaluator)
          (fieldSize_le_reads hp ha.evaluator (List.length_pos_iff.mpr hdata)) hu.wellFormed]
      constructor
      · intro hshort
        refine .inr fun ev' hev' => ?_
        rw [ha.evaluator, Option.some.injEq] at hev'
        exact hev' ▸ hshort
      · exact fun hfit => hfit.resolve_left hp ev ha.evaluator
  | some memory =>
    have hO := (h.stored memory hm).1
    have hne : s.memory ≠ none := by rw [hm]; nofun
    rw [update_eq h ha (fun hn => absurd hn hne) (fun hn => absurd hn hne), events_bind_pure, limit,
      if_neg (by simp [hm]), forall_mem_events_iff, Option.getD_some]
    · constructor
      · intro hin r hr hrd o ho a hc
        obtain ⟨hra, hod, hoa⟩ := hc.regions h hm ho
        exact (compareAt_inside_size hu.wellFormed hO hr hrd hra ho hod hoa).mp
          (hin _ ((mem_plan_iff h hT hm hu.wellFormed).mpr ⟨r, hr, hrd, o, ho, a, hc, rfl⟩))
      · intro hfit c hc
        obtain ⟨r, hr, hrd, o, ho, a, hcmp, rfl⟩ := (mem_plan_iff h hT hm hu.wellFormed).mp hc
        obtain ⟨hra, hod, hoa⟩ := hcmp.regions h hm ho
        exact (compareAt_inside_size hu.wellFormed hO hr hrd hra ho hod hoa).mpr
          (hfit r hr hrd o ho a hcmp)
    · intro c _ hin
      refine ⟨_, hin.test_eq ((reads_le_cellWidth ha.evaluator _).trans_eq ?_)⟩
      rw [SearchType.cellWidth, if_pos hT]

/-- The comparisons of a run of a `data` search stay inside the memory it holds
if and only if the compared lengths fit. -/
theorem data_comparisons_inside_iff {ups : List Update}
    (hups : Along Posed (new .data allMemory) ups) :
    Along StaysInside (new .data allMemory) ups ↔ Along Fits (new .data allMemory) ups := by
  refine along_congr (I := fun s => Invariant s ∧ s.type = .data)
    (fun ⟨h, hT⟩ hu => staysInside_iff h hT hu) ?_ ⟨Invariant.new .data allMemory, rfl⟩ hups
  intro s u s' ⟨h, hT⟩ hu hin hs'
  obtain ⟨ev, ha⟩ := accepted_of_posed hT hu
  have hfit := (staysInside_iff h hT hu).mp hin
  have hfirst : s.FirstFits u.newMemory u.predicate ev u.data u.maxResults := by
    intro hm hp
    simp only [Fits, hm] at hfit
    exact hfit.resolve_left hp ev ha.evaluator
  obtain ⟨hinv, htype⟩ := h.update ha hfirst hs'
  exact ⟨hinv, htype.trans hT⟩

omit [Phosg] in
/-- A result that is not at the end is compared with its old byte. -/
theorem data_comparisons_inside_one : @Along bytewisePhosg (@StaysInside bytewisePhosg)
    (new .data true) [⟨[twoBytes 1 2], .equal, [1], 1⟩, ⟨[twoBytes 3 2], .greater, [], 1⟩] := by
  let _ := bytewisePhosg
  refine (data_comparisons_inside_iff ?_).mpr ?_
  · refine ⟨⟨rfl, twoBytes_wellFormed 1 2, by decide⟩, fun s' hs' => ?_⟩
    cases hs'
    exact ⟨⟨rfl, twoBytes_wellFormed 3 2, by decide⟩, fun _ _ => trivial⟩
  · refine ⟨.inr fun ev hev pre r post hsplit hd hlt => ?_, fun s' hs' => ?_⟩
    · have hr : r ∈ pre ++ r :: post := by simp
      rw [← hsplit, List.mem_singleton] at hr
      subst hr
      exact absurd hlt (by decide)
    · cases hs'
      refine ⟨?_, fun _ _ => trivial⟩
      intro r hr hrd o ho a hc
      rw [List.mem_singleton.mp hr, List.mem_singleton.mp ho, List.mem_singleton.mp hc.1]
      decide

omit [Phosg] in
/-- The second search compares two bytes at the last byte of a region. -/
theorem data_comparison_leaves_region :
    @Along bytewisePhosg (@Posed bytewisePhosg) (new .data true)
      [⟨[twoBytes 1 2], .all, [1, 2], 0⟩, ⟨[twoBytes 1 2], .equal, [1, 2], 0⟩] ∧
    ¬ @Along bytewisePhosg (@StaysInside bytewisePhosg) (new .data true)
      [⟨[twoBytes 1 2], .all, [1, 2], 0⟩, ⟨[twoBytes 1 2], .equal, [1, 2], 0⟩] := by
  let _ := bytewisePhosg
  constructor
  · refine ⟨⟨rfl, twoBytes_wellFormed 1 2, by decide⟩, fun s' hs' => ?_⟩
    cases hs'
    exact ⟨⟨rfl, twoBytes_wellFormed 1 2, by decide⟩, fun _ _ => trivial⟩
  · rintro ⟨-, h⟩
    obtain ⟨hin, -⟩ := h _ rfl
    have hlast := hin (callAt [1, 2] 0 (twoBytes 1 2) (twoBytes 1 2) 0x1001 1 1)
      (List.mem_cons_of_mem _ List.mem_cons_self)
    exact absurd hlast.currentHolds (by decide)

end MemorySearch
end Memwatch
