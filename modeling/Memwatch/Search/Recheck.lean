import Memwatch.Search.Narrow

/-!
# Checking existing results again

A later update filters the results. It deletes a result by setting its address to `0`
and compacts the list afterwards, so that a result at address `0` is deleted whatever
the comparison says.
-/

namespace Memwatch

open Lib Traced

namespace MemorySearch

/-- The `w` bytes from `a` on end inside the new region around `a` that was read and,
without a value, inside the old region around `a`. -/
def CellInside (w : Nat) (news olds : List Region) (data : Bytes) (a : Nat) : Prop :=
  ∀ r ∈ news, r.HasData → r.Contains a → a + w ≤ r.addr + r.size ∧
    (data = [] → ∀ o ∈ olds, o.Contains a → a + w ≤ o.addr + o.size)

variable [Phosg] {s : MemorySearch} {news olds : List Region} {p : Predicate} {data : Bytes}
  {maxResults prevSize a : Nat} {ev : Evaluator} {r o : Region} {T : SearchType}

/-! ## One comparison -/

omit [Phosg] in
theorem evaluator_all [Phosg] (h : T.evaluator? .all = some ev) : ev = nullPred := by
  cases T <;> exact (Option.some.inj h).symm

theorem reads_eq_fieldSize (hT : T ≠ .data) (hp : p ≠ .all) (h : T.evaluator? p = some ev)
    (n : Nat) : ev.reads n = T.fieldSize := by
  refine forall_evaluators (P := fun T ev => T ≠ .data → ev.reads n = T.fieldSize)
    ?_ ?_ ?_ (fun ha => absurd ha hp) h hT
  · intro T t hw _
    simp only [opFunction, intOpFunctionRe, flagOpFunction]
    exact ⟨fun _ _ => by omega, fun _ _ => by omega, fun _ => by omega⟩
  · intro T f hw _
    simp only [floatOpFunction, floatOpFunctionRe]
    exact ⟨fun _ _ => by omega, fun _ _ => by omega⟩
  · exact ⟨fun _ hd => absurd rfl hd, fun hd => absurd rfl hd⟩

section

variable (hN : WellFormed news) (hO : WellFormed olds) (h : Around news olds r o a)

omit [Phosg] in
include hN hO h in
theorem cellInside_iff (w : Nat) : CellInside w news olds data a ↔
    a + w ≤ r.addr + r.size ∧ (data = [] → a + w ≤ o.addr + o.size) := by
  constructor
  · intro hin
    obtain ⟨hnew, hold⟩ := hin r h.newMem h.newData h.newContains
    exact ⟨hnew, fun hd => hold hd o h.oldMem h.oldContains⟩
  · rintro ⟨hnew, hold⟩ r' hr' _ hra'
    obtain rfl := hN.unique h.newMem hr' h.newContains hra'
    refine ⟨hnew, fun hd o' ho' hoa' => ?_⟩
    obtain rfl := hO.unique h.oldMem ho' h.oldContains hoa'
    exact hold hd

omit [Phosg] in
include hN hO h in
theorem inside_iff_cellInside {w : Nat} (hdata : data ≠ [] → data.length = w) :
    (compareAt data prevSize r o a).Inside news olds data w ↔ CellInside w news olds data a := by
  have hra := h.newContains.1
  have hoa := h.oldContains.1
  rw [cellInside_iff hN hO h, compareAt_inside h.newMem h.newData h.oldMem h.oldData,
    hN.length_data h.newMem h.newData, hO.length_data h.oldMem h.oldData]
  refine and_congr (by omega) ?_
  split
  · next hd => rw [List.isEmpty_iff] at hd; simp only [hd, forall_const]; omega
  · next hd =>
    rw [List.isEmpty_iff] at hd
    exact ⟨fun _ hnil => absurd hnil hd, fun _ => (hdata hd).ge⟩

variable (hT : T ≠ .data) (hev : T.evaluator? p = some ev)
  (hdata : data ≠ [] → data.length = T.fieldSize)

include hN hO h hT hev hdata in
/-- A comparison has an answer iff it reads nothing, or stays inside. -/
theorem answered_compareAt : (∃ b, (compareAt data prevSize r o a).test ev = .ok b) ↔
    p = .all ∨ CellInside T.fieldSize news olds data a := by
  have hinside : (compareAt data prevSize r o a).Inside news olds data T.fieldSize ↔
      CellInside T.fieldSize news olds data a := inside_iff_cellInside hN hO h hdata
  by_cases hp : p = .all
  · subst hp
    have hin : (compareAt data prevSize r o a).Inside news olds data 0 := by
      refine (compareAt_inside h.newMem h.newData h.oldMem h.oldData).mpr ⟨?_, ?_⟩
      · have := h.newContains
        rw [hN.length_data h.newMem h.newData]
        unfold Region.Contains at this
        omega
      · have := h.oldContains
        rw [hO.length_data h.oldMem h.oldData]
        unfold Region.Contains at this
        split <;> omega
    rw [evaluator_all hev]
    exact iff_of_true ⟨_, hin.test_eq (le_refl 0)⟩ (.inl rfl)
  · have hreads := reads_eq_fieldSize hT hp hev (compareAt data prevSize r o a).size
    rw [or_iff_right hp, ← hinside]
    constructor
    · rintro ⟨b, hb⟩
      obtain ⟨hc, ht⟩ := EvalCall.holds_of_test hb
      rw [hreads] at hc ht
      refine ⟨⟨r, h.newMem, h.newData, rfl⟩, hc, ?_, ht⟩
      by_cases hd : data.isEmpty
      · exact .inr ⟨o, h.oldMem, h.oldData, by simp [compareAt, callAt, hd]⟩
      · exact .inl (by simp [compareAt, callAt, hd])
    · exact fun hin => ⟨_, hin.test_eq hreads.le⟩

include hN hO h hT hev hdata in
theorem passes_of_answered (hans : ∃ b, (compareAt data prevSize r o a).test ev = .ok b) :
    passes (EvalCall.test ev) (compareAt data prevSize r o a) = true ↔
      Keeps ev T.fieldSize news olds data a := by
  rcases (answered_compareAt hN hO h hT hev hdata).mp hans with rfl | hin
  · obtain rfl := evaluator_all hev
    obtain ⟨b, hb⟩ := hans
    have hkeep : Keeps nullPred T.fieldSize news olds data a := by
      refine ⟨_, if data.isEmpty then slice o.data (a - o.addr) T.fieldSize else data,
        hN.cellAt_eq h.newMem h.newData h.newContains _, ?_, rfl⟩
      rw [hO.cellAt_eq h.oldMem h.oldData h.oldContains]
      split <;> rfl
    rw [passes_of_ok hb]
    unfold EvalCall.test at hb
    split at hb
    · exact iff_of_true (Except.ok.inj hb).symm hkeep
    · cases hb
  · exact passes_compareAt hT hev hdata hN hO h.newMem h.newData h.newContains h.oldMem h.oldData
      h.oldContains ((inside_iff_cellInside hN hO h hdata).mpr hin)

end

/-! ## One update -/

omit [Phosg] in
theorem hits_verifyPlan_sublist (ev : Evaluator) (data : Bytes) (prevSize : Nat)
    (news olds : List Region) (results : List Nat) :
    (hits (EvalCall.test ev) EvalCall.addr
      (verifyPlan data prevSize news olds results)).Sublist results := by
  induction results with
  | nil => exact List.Sublist.refl []
  | cons a results ih =>
    unfold verifyPlan at ih ⊢
    cases hcall : verifyCall data prevSize news olds a with
    | none =>
      rw [List.filterMap_cons_none hcall]
      exact ih.cons a
    | some c =>
      rw [List.filterMap_cons_some hcall, hits_cons, addr_of_verifyCall hcall]
      split
      · exact ih.cons_cons a
      · exact ih.cons a

/-- A result at address `0` is never kept. -/
theorem zero_not_kept {s' : MemorySearch} (hm : s.memory = some olds)
    (hv : s.resultsValid = true) (hs' : (s.update news p data maxResults).result = .ok s') :
    0 ∉ s'.results := by
  unfold MemorySearch.update at hs'
  split at hs'
  · cases hs'
  · cases hs'
  · simp only [hm, hv, Bool.not_true, Bool.false_eq_true, ↓reduceIte] at hs'
    obtain ⟨marks, -, hsave⟩ := bind_eq_ok hs'
    obtain rfl := Except.ok.inj hsave
    intro h0
    have hne : (0 : Nat) ≠ 0 := of_decide_eq_true (List.mem_filter.mp h0).2
    exact hne rfl

section

variable (hT : s.type ≠ .data) (hm : s.memory = some olds)
  (hheld : ∀ a ∈ s.results, Bears olds a) (hO : PageSnapshot olds) (hN : PageSnapshot news)
  (hacc : s.checkCanUpdate p data = .ok ()) (hev : s.type.evaluator? p = some ev)

include hT hheld hO hN hacc hev in
/-- Every comparison has an answer iff the predicate reads nothing, or every cell compared
ends inside its regions. -/
theorem answered_verifyPlan_iff :
    (∀ c ∈ verifyPlan data s.prevSize news olds s.results, ∃ b, c.test ev = .ok b) ↔
      p = .all ∨ ∀ a ∈ s.results, CellInside s.type.fieldSize news olds data a := by
  have hdata : data ≠ [] → data.length = s.type.fieldSize := fun hd => accepted_length hacc hd hT
  have hone : ∀ {a r o}, Around news olds r o a →
      ((∃ b, (compareAt data s.prevSize r o a).test ev = .ok b) ↔
        p = .all ∨ CellInside s.type.fieldSize news olds data a) := fun h =>
    answered_compareAt hN.toWellFormed hO.toWellFormed h hT hev hdata
  constructor
  · intro hans
    by_cases hp : p = .all
    · exact .inl hp
    · refine .inr fun a ha r hr hrd hra => ?_
      obtain ⟨r', o, h⟩ := exists_around hheld ha ⟨r, hr, hrd, hra⟩
      have hc : compareAt data s.prevSize r' o a ∈
          verifyPlan data s.prevSize news olds s.results :=
        (mem_verifyPlan_around hheld hO hN).mpr ⟨a, ha, r', o, h, rfl⟩
      exact ((hone h).mp (hans _ hc)).resolve_left hp r hr hrd hra
  · intro hin c hc
    obtain ⟨a, ha, r, o, h, rfl⟩ := (mem_verifyPlan_around hheld hO hN).mp hc
    exact (hone h).mpr (hin.imp_right fun hcells => hcells a ha)

include hT hheld hO hN hacc hev in
/-- With an answer to every comparison, the hits are the results whose cells are kept. -/
theorem mem_hits_of_answered
    (hans : ∀ c ∈ verifyPlan data s.prevSize news olds s.results, ∃ b, c.test ev = .ok b) :
    a ∈ hits (EvalCall.test ev) EvalCall.addr (verifyPlan data s.prevSize news olds s.results) ↔
      a ∈ s.results ∧ Bears news a ∧ Keeps ev s.type.fieldSize news olds data a :=
  mem_hits_around hheld hO hN fun h hc => passes_of_answered hN.toWellFormed hO.toWellFormed h hT
    hev (fun hd => accepted_length hacc hd hT) (hans _ hc)

end

/-- A later update is a filter iff every cell it compares ends inside its regions and there
is no result at address `0` to be kept. -/
theorem update_filters_iff (hT : s.type ≠ .data) (hv : s.resultsValid = true)
    (hm : s.memory = some olds) (hasc : s.results.Pairwise (· < ·))
    (hheld : ∀ a ∈ s.results, Bears olds a) (hO : PageSnapshot olds) (hN : PageSnapshot news)
    (hacc : s.checkCanUpdate p data = .ok ()) (hev : s.type.evaluator? p = some ev) :
    (∃ l, (s.update news p data maxResults).result = .ok (s.save news data l) ∧
        l.Sublist s.results ∧ ∀ a, a ∈ l ↔
          a ∈ s.results ∧ Bears news a ∧ Keeps ev s.type.fieldSize news olds data a) ↔
      (p = .all ∨ ∀ a ∈ s.results, CellInside s.type.fieldSize news olds data a) ∧
        ¬ (0 ∈ s.results ∧ Bears news 0 ∧ Keeps ev s.type.fieldSize news olds data 0) := by
  have hlt : ∀ a ∈ s.results, a < 2 ^ 64 := fun a ha => by
    obtain ⟨o, ho, -, hoa⟩ := hheld a ha
    exact hoa.2.trans (hO.below o ho)
  have hupdate : s.update news p data maxResults = _ := update_verify hacc hev hm hv hasc hlt
  rw [← answered_verifyPlan_iff hT hheld hO hN hacc hev]
  constructor
  · rintro ⟨l, hres, -, hl⟩
    refine ⟨?_, fun h0 => zero_not_kept hm hv hres ((hl 0).mpr h0)⟩
    rw [hupdate] at hres
    obtain ⟨l', hcollect, -⟩ := bind_eq_ok hres
    exact answered_of_collect hcollect
  · rintro ⟨hans, h0⟩
    refine ⟨removeDeleted (hits (EvalCall.test ev) EvalCall.addr
      (verifyPlan data s.prevSize news olds s.results)), ?_, ?_, fun a => ?_⟩
    · rw [hupdate]
      exact result_bind_pure _ (collect_result hans [])
    · have hsub := hits_verifyPlan_sublist ev data s.prevSize news olds s.results
      exact List.filter_sublist.trans hsub
    · rw [removeDeleted, List.mem_filter, mem_hits_of_answered hT hheld hO hN hacc hev hans,
        decide_eq_true_eq, and_iff_left_of_imp]
      rintro hkept rfl
      exact h0 hkept

omit [Phosg] in
/-- The bytes of a page have grown. -/
theorem update_filters_uint8 :
    let _ := bytewisePhosg
    (∃ l, (oneResult.update [filledPage 0x1000 8 (by decide)] .greater [] 0).result =
        .ok (oneResult.save [filledPage 0x1000 8 (by decide)] [] l) ∧
        l.Sublist oneResult.results ∧ ∀ a, a ∈ l ↔
          a ∈ oneResult.results ∧ Bears [filledPage 0x1000 8 (by decide)] a ∧
            Keeps (opFunction ⟨8, false⟩ .gt) oneResult.type.fieldSize
              [filledPage 0x1000 8 (by decide)] [filledPage 0x1000 7 (by decide)] [] a) ↔
      (Predicate.greater = .all ∨ ∀ a ∈ oneResult.results, CellInside oneResult.type.fieldSize
        [filledPage 0x1000 8 (by decide)] [filledPage 0x1000 7 (by decide)] [] a) ∧
        ¬ (0 ∈ oneResult.results ∧ Bears [filledPage 0x1000 8 (by decide)] 0 ∧
          Keeps (opFunction ⟨8, false⟩ .gt) oneResult.type.fieldSize
            [filledPage 0x1000 8 (by decide)] [filledPage 0x1000 7 (by decide)] [] 0) := by
  intro _
  refine update_filters_iff (by decide) rfl rfl (List.pairwise_singleton _ _) (fun a ha => ?_)
    (filledPage_snapshot 7 (by decide) (by decide))
    (filledPage_snapshot 8 (by decide) (by decide)) rfl rfl
  obtain rfl := List.mem_singleton.mp ha
  exact ⟨_, List.mem_singleton_self _, rfl, by decide, by decide⟩

/-- A search for one `7` in a page of them at address `0`. -/
def lowResult : MemorySearch :=
  { new .uint8 true with
    resultsValid := true
    memory := some [filledPage 0 7 (by decide)]
    prevSize := 1
    results := [0] }

omit [Phosg] in
/-- The byte at address `0` is still `7`. -/
theorem update_drops_zero :
    let _ := bytewisePhosg
    ¬ ∃ l, (lowResult.update [filledPage 0 7 (by decide)] .equal [7] 0).result =
        .ok (lowResult.save [filledPage 0 7 (by decide)] [7] l) ∧
        l.Sublist lowResult.results ∧ ∀ a, a ∈ l ↔
          a ∈ lowResult.results ∧ Bears [filledPage 0 7 (by decide)] a ∧
            Keeps (opFunction ⟨8, false⟩ .eq) 1 [filledPage 0 7 (by decide)]
              [filledPage 0 7 (by decide)] [7] a := by
  intro _
  rintro ⟨l, hres, -, hl⟩
  have hpage := filledPage_snapshot 7 (show 0 + 4096 < 2 ^ 64 by decide) (by decide)
  have hcontains : (filledPage 0 7 (by decide)).Contains 0 := by decide
  have hkeep : Keeps (opFunction ⟨8, false⟩ .eq) 1 [filledPage 0 7 (by decide)]
      [filledPage 0 7 (by decide)] [7] 0 :=
    ⟨_, _, hpage.cellAt_eq (List.mem_singleton_self _) rfl hcontains 1, rfl, rfl⟩
  exact zero_not_kept rfl rfl hres ((hl 0).mpr
    ⟨List.mem_singleton_self 0, ⟨_, List.mem_singleton_self _, rfl, hcontains⟩, hkeep⟩)

end MemorySearch
end Memwatch
