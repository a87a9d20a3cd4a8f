import Memwatch.Search.Narrow

/-!
# Narrowing on partial snapshots

`command_search` narrows on the regions that contain results only. A run on such
partial snapshots and one on the full snapshots keep the same results: their
stored snapshots agree on the cells of the results, and no later update looks
at anything else.
-/

namespace Memwatch

open Lib Traced

/-- `M'` is `M` without some regions that contain no address of `results`. -/
structure KeepsTargets (M M' : List Region) (results : List Nat) : Prop where
  sublist : M'.Sublist M
  targets : ∀ r ∈ M, (∃ a ∈ results, r.Contains a) → r ∈ M'

section Partial

variable {M M' : List Region} {results : List Nat} {a : Nat}

theorem KeepsTargets.bears_iff (h : KeepsTargets M M' results) (ha : a ∈ results) :
    Bears M' a ↔ Bears M a := by
  constructor
  · rintro ⟨r, hr, hrest⟩
    exact ⟨r, h.sublist.subset hr, hrest⟩
  · rintro ⟨r, hr, hd, hra⟩
    exact ⟨r, h.targets r hr ⟨a, ha, hra⟩, hd, hra⟩

theorem KeepsTargets.cellAt_eq (h : KeepsTargets M M' results) (hM : WellFormed M)
    (ha : a ∈ results) (w : Nat) : cellAt w M' a = cellAt w M a := by
  by_cases hb : Bears M a
  · obtain ⟨r, hr, hd, hra⟩ := hb
    rw [hM.cellAt_eq hr hd hra,
      (hM.sublist h.sublist).cellAt_eq (h.targets r hr ⟨a, ha, hra⟩) hd hra]
  · rw [cellAt_of_not_bears hb, cellAt_of_not_bears fun hb' => hb ((h.bears_iff ha).mp hb')]

end Partial

namespace MemorySearch

variable [Phosg] {T : SearchType} {s f g f' g' : MemorySearch} {M M' news olds : List Region}
  {p : Predicate} {data : Bytes} {maxResults a : Nat} {ev : Evaluator}

/-- The pairs of states that a run from `s` on full snapshots and the same run on
partial ones reach. -/
inductive TwoRuns (s : MemorySearch) : MemorySearch → MemorySearch → Prop
  | start : TwoRuns s s s
  | update {f g f' g' : MemorySearch} {M M' : List Region} {predicate : Predicate} {data : Bytes}
      {maxResults : Nat} : TwoRuns s f g → PageSnapshot M → KeepsTargets M M' g.results →
      (f.update M predicate data maxResults).result = .ok f' →
      (g.update M' predicate data maxResults).result = .ok g' → TwoRuns s f' g'
  | deleteResults {f g f' g' : MemorySearch} {start last : Nat} : TwoRuns s f g → start ≤ last →
      last < 2 ^ 64 - 1 → f.deleteResults start last = .ok f' →
      g.deleteResults start last = .ok g' →
      TwoRuns s f' g'

/-- The same results, and stored snapshots that agree on their cells. -/
structure Agree (T : SearchType) (f g : MemorySearch) : Prop where
  full : Invariant f
  part : Invariant g
  types : f.type = T ∧ g.type = T
  valid : f.resultsValid = true ∧ g.resultsValid = true
  results : f.results = g.results
  snapshots : ∃ olds olds', f.memory = some olds ∧ g.memory = some olds' ∧ PageSnapshot olds ∧
    PageSnapshot olds' ∧ ∀ a ∈ f.results, ∀ w, cellAt w olds' a = cellAt w olds a

omit [Phosg] in
/-- Whether a cell is kept depends on the cells at the address only. -/
theorem keeps_congr {w : Nat} (hN : cellAt w M' a = cellAt w M a)
    (hO : cellAt w news a = cellAt w olds a) :
    Keeps ev w M' news data a ↔ Keeps ev w M olds data a := by
  unfold Keeps; rw [hN, hO]

theorem Agree.checkCanUpdate_eq (h : Agree T f g) (p : Predicate) (data : Bytes) :
    g.checkCanUpdate p data = f.checkCanUpdate p data := by
  obtain ⟨olds, olds', hfm, hgm, -⟩ := h.snapshots
  rw [checkCanUpdate, checkCanUpdate, h.types.1, h.types.2, hfm, hgm]
  rfl

theorem Agree.update (hT : T ≠ .data) (h : Agree T f g) (hM : PageSnapshot M)
    (hM' : KeepsTargets M M' g.results) (hacc : f.checkCanUpdate p data = .ok ())
    (maxResults : Nat) :
    ∃ f' g', (f.update M p data maxResults).result = .ok f' ∧
      (g.update M' p data maxResults).result = .ok g' ∧ Agree T f' g' := by
  have hacc' : g.checkCanUpdate p data = .ok () := (h.checkCanUpdate_eq p data).trans hacc
  obtain ⟨hf, hg, ⟨rfl, hgT⟩, ⟨hfv, hgv⟩, hres, olds, olds', hfm, hgm, hO, hO', hcells⟩ := h
  obtain ⟨ev, l, hev, hfres, hfinv, hl⟩ := update_narrows maxResults hf hT hfm hO hM hacc
  obtain ⟨ev', l', hev', hgres, hginv, hl'⟩ := update_narrows maxResults hg (hgT ▸ hT) hgm hO'
    (hM.sublist hM'.sublist) hacc'
  rw [hgT, hev, Option.some.injEq] at hev'
  subst hev'
  have hmem : ∀ a, a ∈ l ↔ a ∈ l' := by
    intro a
    rw [hl, hl', Candidate, Candidate, if_pos hfv, if_pos hgv, ← hres, hgT]
    refine and_congr_right fun hcand => ?_
    have ha : a ∈ f.results := hcand.2
    rw [hM'.bears_iff (hres ▸ ha), keeps_congr (hM'.cellAt_eq hM.toWellFormed (hres ▸ ha) _)
      (hcells a ha _)]
  have hll : l = l' := List.Pairwise.eq_of_mem_iff hfinv.ascending hginv.ascending hmem
  refine ⟨_, _, hfres, hgres, hfinv, hginv, ⟨rfl, hgT⟩, ⟨rfl, rfl⟩, hll, M, M', rfl, rfl, hM,
    hM.sublist hM'.sublist, fun a ha w => hM'.cellAt_eq hM.toWellFormed ?_ w⟩
  rw [← hres]
  have := ((hl a).mp ha).1
  rw [Candidate, if_pos hfv] at this
  exact this.2

theorem Agree.deleteResults {start last : Nat} (h : Agree T f g) (hle : start ≤ last)
    (hlast : last < 2 ^ 64 - 1) : ∃ f' g', f.deleteResults start last = .ok f' ∧
      g.deleteResults start last = .ok g' ∧ Agree T f' g' := by
  obtain ⟨hf, hg, htypes, hvalid, hres, olds, olds', hfm, hgm, hO, hO', hcells⟩ := h
  obtain ⟨l, hl, hfd⟩ := deleteResults_isOk f hle hlast
  obtain ⟨l', -, hgd⟩ := deleteResults_isOk g hle hlast
  have hll : l = l' := by
    simp only [MemorySearch.deleteResults, ← hres] at hfd hgd
    split at hfd
    · next hb =>
      rw [if_pos hb] at hgd
      simp only [Except.ok.injEq, mk.injEq, true_and, and_true] at hfd hgd
      rw [← hfd, ← hgd]
    · cases hfd
  exact ⟨_, _, hfd, hgd, (hf.deleteResults hfd).1, (hg.deleteResults hgd).1, htypes, hvalid, hll,
    olds, olds', hfm, hgm, hO, hO', fun a ha => hcells a (hl.subset ha)⟩

theorem Agree.start (hT : T ≠ .data) (hs : Reachable T s) (hv : s.resultsValid = true) :
    Agree T s s := by
  obtain ⟨hinv, hsT⟩ := hs.invariant hT
  obtain ⟨olds, hm⟩ := Option.isSome_iff_exists.mp (hinv.valid hv)
  have hO := hs.page hm
  exact ⟨hinv, hinv, ⟨hsT, hsT⟩, ⟨hv, hv⟩, rfl, olds, olds, hm, hm, hO, hO, fun _ _ _ => rfl⟩

theorem TwoRuns.agree (hT : T ≠ .data) (hs : Reachable T s) (hv : s.resultsValid = true)
    (h : TwoRuns s f g) : Agree T f g := by
  induction h with
  | start => exact Agree.start hT hs hv
  | update _ hM hM' hf' hg' ih =>
    obtain ⟨f', g', hf, hg, h⟩ := ih.update hT hM hM' (accepted_of_result hf') _
    rw [hf, Except.ok.injEq] at hf'
    rw [hg, Except.ok.injEq] at hg'
    exact hf' ▸ hg' ▸ h
  | deleteResults _ hle hlast hf' hg' ih =>
    obtain ⟨f', g', hf, hg, h⟩ := ih.deleteResults hle hlast
    rw [hf, Except.ok.injEq] at hf'
    rw [hg, Except.ok.injEq] at hg'
    exact hf' ▸ hg' ▸ h

/-- Narrowing on the partial snapshots agrees with narrowing on the full ones: both
runs have the same results, accept the same updates, and never get stuck. -/
theorem partial_narrowing_agrees (hT : T ≠ .data) (hs : Reachable T s) (hv : s.resultsValid = true)
    (h : TwoRuns s f g) :
    f.results = g.results ∧
    (∀ p data, g.checkCanUpdate p data = f.checkCanUpdate p data) ∧
    (∀ M M' p data maxResults, PageSnapshot M → KeepsTargets M M' g.results →
      f.checkCanUpdate p data = .ok () →
      ∃ f' g', (f.update M p data maxResults).result = .ok f' ∧
        (g.update M' p data maxResults).result = .ok g') ∧
    (∀ start last, start ≤ last → last < 2 ^ 64 - 1 →
      ∃ f' g', f.deleteResults start last = .ok f' ∧ g.deleteResults start last = .ok g') := by
  have hagree := h.agree hT hs hv
  refine ⟨hagree.results, hagree.checkCanUpdate_eq, fun M M' p data maxResults hM hM' hacc => ?_,
    fun start last hle hlast => ?_⟩
  · obtain ⟨f', g', hf, hg, -⟩ := hagree.update hT hM hM' hacc maxResults
    exact ⟨f', g', hf, hg⟩
  · obtain ⟨f', g', hf, hg, -⟩ := hagree.deleteResults hle hlast
    exact ⟨f', g', hf, hg⟩

omit [Phosg] in
theorem two_pages_snapshot :
    PageSnapshot [filledPage 0x1000 8 (by decide), filledPage 0x2000 8 (by decide)] where
  ascending := by rw [List.pairwise_pair]; decide
  disjoint := by
    rw [List.pairwise_pair]
    rintro a ⟨⟨-, h1⟩, ⟨h2, -⟩⟩
    simp only [filledPage] at h1 h2
    omega
  complete r hr := by
    rcases List.mem_pair.mp hr with rfl | rfl <;> exact .inr List.length_replicate
  pages r hr := by
    rcases List.mem_pair.mp hr with rfl | rfl
    · exact ⟨(by decide : 4096 ∣ 0x1000), dvd_refl 4096⟩
    · exact ⟨(by decide : 4096 ∣ 0x2000), dvd_refl 4096⟩
  below r hr := by
    rcases List.mem_pair.mp hr with rfl | rfl <;> decide

omit [Phosg] in
/-- The page without a result is left out. -/
theorem partial_narrowing_agrees_uint8 : ∃ f g, @TwoRuns bytewisePhosg oneResult f g ∧
    f.memory ≠ g.memory ∧ f.results = g.results := by
  let _ := bytewisePhosg
  have hM : KeepsTargets [filledPage 0x1000 8 (by decide), filledPage 0x2000 8 (by decide)]
      [filledPage 0x1000 8 (by decide)] oneResult.results := by
    refine ⟨by simp, fun r hr => ?_⟩
    rintro ⟨a, ha, hra⟩
    rw [List.mem_singleton.mp ha] at hra
    rcases List.mem_pair.mp hr with rfl | rfl
    · exact List.mem_singleton_self _
    · exact absurd hra (by decide)
  obtain ⟨-, -, hnext, -⟩ := partial_narrowing_agrees (by decide) oneResult_reachable rfl .start
  obtain ⟨f, g, hf, hg⟩ := hnext _ _ .greater [] 0 two_pages_snapshot hM rfl
  have hruns : TwoRuns oneResult f g := .update .start two_pages_snapshot hM hf hg
  refine ⟨f, g, hruns, ?_, (partial_narrowing_agrees (by decide) oneResult_reachable rfl hruns).1⟩
  rw [memory_of_update hf, memory_of_update hg]
  simp

end MemorySearch
end Memwatch
