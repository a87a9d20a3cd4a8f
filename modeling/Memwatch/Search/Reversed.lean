import Memwatch.Search.Display
import Memwatch.Search.Narrow

/-!
# Reverse-endian searches as native ones

A search of a reverse-endian integer type against the native search of the same
width and signedness on the memory with every cell's bytes reversed. Where the
compared cells keep their order, the two have the same results after every run
of comparison searches.
-/

namespace Memwatch

open Lib Traced

/-! ## Reversed memory -/

/-- The bytes of every cell of `w` bytes reversed. -/
def reverseCells (w : Nat) (b : Bytes) : Bytes :=
  (List.range b.length).map fun i => (b[i / w * w + (w - 1 - i % w)]?).getD 0

@[simp] theorem length_reverseCells (w : Nat) (b : Bytes) :
    (reverseCells w b).length = b.length := by
  rw [reverseCells, List.length_map, List.length_range]

theorem reverseCells_eq_nil {w : Nat} {b : Bytes} : reverseCells w b = [] ↔ b = [] := by
  rw [← List.length_eq_zero_iff, length_reverseCells, List.length_eq_zero_iff]

/-- A cell of the reversed bytes is the reversed cell. -/
theorem slice_reverseCells {w off : Nat} {b : Bytes} (hw : 0 < w) (hdvd : w ∣ off)
    (hle : off + w ≤ b.length) : slice (reverseCells w b) off w = (slice b off w).reverse := by
  have hlen : (slice (reverseCells w b) off w).length = w :=
    length_slice (by rw [length_reverseCells]; exact hle)
  have hlen' : (slice b off w).length = w := length_slice hle
  refine List.ext_getElem (by rw [List.length_reverse, hlen, hlen']) fun j hj hj' => ?_
  have hjw : j < w := hlen ▸ hj
  obtain ⟨k, rfl⟩ := hdvd
  have hdiv : (w * k + j) / w = k := by
    rw [Nat.mul_add_div hw, Nat.div_eq_of_lt hjw, Nat.add_zero]
  have hmod : (w * k + j) % w = j := by rw [Nat.mul_add_mod, Nat.mod_eq_of_lt hjw]
  have hidx : k * w + (w - 1 - j) < b.length := by rw [Nat.mul_comm k w]; omega
  simp only [slice, reverseCells, List.getElem_take, List.getElem_drop, List.getElem_map,
    List.getElem_range, List.getElem_reverse, hdiv, hmod, List.length_take, List.length_drop]
  rw [List.getElem?_eq_getElem hidx, Option.getD_some]
  congr 1
  rw [Nat.mul_comm k w]
  omega

theorem reverseCells_cell {w : Nat} {b : Bytes} (hw : 0 < w) (h : b.length = w) :
    reverseCells w b = b.reverse := by
  have hall : ∀ c : Bytes, c.length = w → slice c 0 w = c := fun c hc => by
    rw [slice, List.drop_zero, ← hc, List.take_length]
  rw [← hall (reverseCells w b) (by rw [length_reverseCells, h]),
    slice_reverseCells hw (dvd_zero w) (by omega), hall b h]

namespace Region

/-- The region with the bytes of its cells reversed. -/
def reversed (w : Nat) (r : Region) : Region := { r with data := reverseCells w r.data }

variable {w : Nat} {r : Region}

@[simp] theorem addr_reversed : (r.reversed w).addr = r.addr := rfl

@[simp] theorem size_reversed : (r.reversed w).size = r.size := rfl

@[simp] theorem data_reversed : (r.reversed w).data = reverseCells w r.data := rfl

@[simp] theorem contains_reversed {a : Nat} : (r.reversed w).Contains a ↔ r.Contains a := Iff.rfl

@[simp] theorem hasData_reversed : (r.reversed w).HasData ↔ r.HasData := by
  rw [← not_iff_not, not_hasData, not_hasData, data_reversed, reverseCells_eq_nil]

end Region

variable {w a : Nat} {S : List Region}

theorem WellFormed.reversed (h : WellFormed S) : WellFormed (S.map (Region.reversed w)) where
  ascending := List.pairwise_map.mpr h.ascending
  disjoint := List.pairwise_map.mpr h.disjoint
  complete r hr := by
    obtain ⟨q, hq, rfl⟩ := List.mem_map.mp hr
    simpa [reverseCells_eq_nil] using h.complete q hq

theorem PageSnapshot.reversed (h : PageSnapshot S) : PageSnapshot (S.map (Region.reversed w)) where
  toWellFormed := h.toWellFormed.reversed
  pages r hr := by
    obtain ⟨q, hq, rfl⟩ := List.mem_map.mp hr
    exact h.pages q hq
  below r hr := by
    obtain ⟨q, hq, rfl⟩ := List.mem_map.mp hr
    exact h.below q hq

theorem bears_reversed : Bears (S.map (Region.reversed w)) a ↔ Bears S a := by
  simp only [Bears, List.mem_map, exists_exists_and_eq_and, Region.hasData_reversed,
    Region.contains_reversed]

theorem cellAt_reversed (hw : 0 < w) (hS : WellFormed S) (hal : Aligned w S) (ha : w ∣ a) :
    cellAt w (S.map (Region.reversed w)) a = (cellAt w S a).map List.reverse := by
  by_cases hb : Bears S a
  · obtain ⟨r, hr, hd, hra⟩ := hb
    have hlen := hS.length_data hr hd
    have hfit := MemorySearch.cell_fits (hal r hr) ha hra
    rw [hS.cellAt_eq hr hd hra, hS.reversed.cellAt_eq (List.mem_map_of_mem hr)
      (Region.hasData_reversed.mpr hd) hra, Option.map_some, Region.addr_reversed,
      Region.data_reversed, slice_reverseCells hw (Nat.dvd_sub ha (hal r hr).1) (by omega)]
  · rw [cellAt_of_not_bears hb, cellAt_of_not_bears fun hb' => hb (bears_reversed.mp hb')]
    rfl

theorem length_cellAt {c : Bytes} (hS : WellFormed S) (hal : Aligned w S) (ha : w ∣ a)
    (h : cellAt w S a = some c) : c.length = w := by
  obtain ⟨r, hr, hd, hra⟩ := bears_of_cellAt h
  rw [hS.cellAt_eq hr hd hra, Option.some.injEq] at h
  have hlen := hS.length_data hr hd
  have hfit := MemorySearch.cell_fits (hal r hr) ha hra
  rw [← h]
  exact length_slice (by omega)

section Evaluators

variable [Phosg] {T : SearchType} {p : Predicate} {ev ev' : Evaluator} {cur target : Bytes}

/-- The predicate is `all`, or a comparison whose order the two cells keep. -/
def Ordered (T : SearchType) (p : Predicate) (cur target : Bytes) : Prop :=
  p = .all ∨ ∃ op : CmpOp, p = op.predicate ∧ OrderKept T op cur target

theorem evaluator?_all (T : SearchType) : T.evaluator? .all = some nullPred := by cases T <;> rfl

/-- On ordered cells the native evaluator does the same on the reversed bytes. -/
theorem Ordered.run_eq [LawfulPhosg] (hT : T.isIntegerSearchType = true)
    (hre : T.isReverseEndianSearchType = true) (h : Ordered T p cur target)
    (hcur : cur.length = T.fieldSize) (htarget : target.length = T.fieldSize)
    (hev : T.evaluator? p = some ev) (hev' : T.native.evaluator? p = some ev') (n : Nat) :
    ev'.run cur.reverse target.reverse n = ev.run cur target n := by
  rcases h with rfl | ⟨op, rfl, hkept⟩
  · rw [evaluator?_all, Option.some.injEq] at hev hev'
    subst hev hev'
    rfl
  · obtain ⟨e, e', he, he', hrun⟩ := ((cells_agree_iff hT op hcur htarget).2 hre).mpr hkept
    cases hev.symm.trans he
    cases hev'.symm.trans he'
    exact (hrun n).symm

theorem fieldSize_native (T : SearchType) : T.native.fieldSize = T.fieldSize := by
  cases T <;> rfl

omit [Phosg] in
theorem functionPointers_isNone {ops ops' : CmpOp → Evaluator} {flag flag' : Option Evaluator}
    (hflag : flag.isNone = flag'.isNone) (p : Predicate) :
    (functionPointers ops flag p).isNone = (functionPointers ops' flag' p).isNone := by
  cases p with
  | flag => exact hflag
  | less | greater | lessOrEqual | greaterOrEqual | equal | notEqual | all => rfl

theorem evaluator?_native_isNone (T : SearchType) (p : Predicate) :
    (T.native.evaluator? p).isNone = (T.evaluator? p).isNone := by
  cases T <;> exact functionPointers_isNone rfl p

omit [Phosg] in
theorem native_eq_data : T.native = .data ↔ T = .data := by cases T <;> decide

omit [Phosg] in
theorem valueSize_native (T : SearchType) :
    T.native.valueSizeForSearchType = T.valueSizeForSearchType := by
  cases T <;> rfl

end Evaluators

namespace MemorySearch

variable [Phosg] {T : SearchType} {f g s : MemorySearch} {u : Update} {news olds : List Region}
  {data : Bytes} {ev ev' : Evaluator} {p : Predicate} {maxResults : Nat}

/-- The update with the bytes of every cell reversed, in its memory and its value. -/
def Update.reversed (w : Nat) (u : Update) : Update :=
  { u with newMemory := u.newMemory.map (Region.reversed w), data := reverseCells w u.data }

/-- The update is accepted, given whole pages, and the cells it compares are ordered: those of
the results, once they are valid. -/
structure Comparing (s : MemorySearch) (u : Update) : Prop where
  accepted : s.checkCanUpdate u.predicate u.data = .ok ()
  snapshot : PageSnapshot u.newMemory
  ordered : ∀ a cur target, s.type.fieldSize ∣ a →
    (s.resultsValid = true → a ≠ 0 ∧ a ∈ s.results) →
    cellAt s.type.fieldSize u.newMemory a = some cur →
    (if u.data.isEmpty then cellAt s.type.fieldSize (s.memory.getD []) a else some u.data) =
      some target → Ordered s.type u.predicate cur target

/-- A search and the native one on reversed memory. -/
structure Mirrors (T : SearchType) (f g : MemorySearch) : Prop where
  source : Reachable T f
  mirror : Reachable T.native g
  memory : g.memory = f.memory.map (List.map (Region.reversed T.fieldSize))
  valid : g.resultsValid = f.resultsValid
  results : g.results = f.results

theorem checkCanUpdate_reversed (p : Predicate) (data : Bytes) (hf : f.type = T)
    (hg : g.type = T.native)
    (hm : g.memory = f.memory.map (List.map (Region.reversed T.fieldSize))) :
    g.checkCanUpdate p (reverseCells T.fieldSize data) = f.checkCanUpdate p data := by
  simp only [checkCanUpdate, hf, hg, hm, evaluator?_native_isNone, ne_eq, native_eq_data,
    reverseCells_eq_nil, length_reverseCells, valueSize_native, Option.isNone_map]

omit [Phosg] in
theorem keeps_reversed {w a : Nat} (hw : 0 < w) (hN : WellFormed news) (hNal : Aligned w news)
    (hO : WellFormed olds) (hOal : Aligned w olds) (ha : w ∣ a)
    (hdata : data ≠ [] → data.length = w)
    (hrun : ∀ cur target, cellAt w news a = some cur →
      (if data.isEmpty then cellAt w olds a else some data) = some target →
      ev'.run cur.reverse target.reverse w = ev.run cur target w) :
    Keeps ev' w (news.map (Region.reversed w)) (olds.map (Region.reversed w)) (reverseCells w data)
      a ↔ Keeps ev w news olds data a := by
  have htarget : (if (reverseCells w data).isEmpty then cellAt w (olds.map (Region.reversed w)) a
      else some (reverseCells w data)) =
      (if data.isEmpty then cellAt w olds a else some data).map List.reverse := by
    by_cases hd : data = []
    · subst hd
      exact cellAt_reversed hw hO hOal ha
    · have hd' : reverseCells w data ≠ [] := fun h => hd (reverseCells_eq_nil.mp h)
      rw [if_neg (by simpa using hd'), if_neg (by simpa using hd), Option.map_some,
        reverseCells_cell hw (hdata hd)]
  unfold Keeps
  rw [htarget, cellAt_reversed hw hN hNal ha]
  constructor
  · rintro ⟨c, t, hc, ht, hkeep⟩
    obtain ⟨cur, hcur, rfl⟩ := Option.map_eq_some_iff.mp hc
    obtain ⟨target, htarget, rfl⟩ := Option.map_eq_some_iff.mp ht
    exact ⟨cur, target, hcur, htarget, hrun cur target hcur htarget ▸ hkeep⟩
  · rintro ⟨cur, target, hcur, htarget, hkeep⟩
    exact ⟨cur.reverse, target.reverse, by rw [hcur]; rfl, by rw [htarget]; rfl,
      (hrun cur target hcur htarget).trans hkeep⟩

omit [Phosg] in
theorem matchesBeforeEnd_reversed {w : Nat} {S : List Region} (hw : 0 < w) (hS : WellFormed S)
    (hal : Aligned w S) (hdata : data.length = w)
    (hrun : ∀ a cur, w ∣ a → cellAt w S a = some cur →
      ev'.run cur.reverse data.reverse w = ev.run cur data w) :
    matchesBeforeEnd w ev' (reverseCells w data) (S.map (Region.reversed w)) =
      matchesBeforeEnd w ev data S := by
  unfold matchesBeforeEnd
  rw [List.flatMap_map]
  refine List.flatMap_congr fun r hr => ?_
  simp only [Region.data_reversed, Region.size_reversed, Region.addr_reversed, length_reverseCells,
    List.isEmpty_iff, reverseCells_eq_nil]
  split
  · rfl
  · next hd =>
    have hlen := hS.length_data hr (by simpa [Region.HasData] using hd)
    congr 1
    refine List.filter_congr fun y hy => ?_
    obtain ⟨-, hlt, hdvd⟩ : 0 ≤ y ∧ y < r.size - data.length ∧ w ∣ y := (mem_strides hw).mp hy
    have hcell : cellAt w S (r.addr + y) = some (slice r.data y w) := by
      rw [hS.cellAt_eq hr (by simpa [Region.HasData] using hd) ⟨by omega, by omega⟩,
        Nat.add_sub_cancel_left]
    unfold cellMatches
    rw [length_reverseCells, hdata, Region.data_reversed, slice_reverseCells hw hdvd (by omega),
      reverseCells_cell hw hdata]
    exact hrun (r.addr + y) _ ((hal r hr).1.add hdvd) hcell

theorem update_first_result (h : Invariant s) (ha : Accepted s news p data ev)
    (hm : s.memory = none) (hp : p ≠ .all) (hfit : s.FirstFits news p ev data maxResults) :
    (s.update news p data maxResults).result =
      .ok (s.save news data
        ((matchesBeforeEnd s.type.fieldSize ev data news).take maxResults)) := by
  have hdata := data_ne_nil_of_first ha.accepted hm hp
  rw [update_first hm hp ha.accepted ha.evaluator, (h.pending (h.not_valid hm)).1]
  exact result_bind_pure _ (firstScan_result (fieldSize_pos _)
    (fieldSize_le_length ha.accepted hdata) ha.length_lt (evaluator_local ha.evaluator)
    (reads_le_length ha.accepted hdata ha.evaluator) ha.wellFormed (hfit hm hp))

/-- Both searches return from an update, with the same results. -/
def SameResults (f g : MemorySearch) (u : Update) : Prop :=
  ∃ f' g', (f.update u.newMemory u.predicate u.data u.maxResults).result = .ok f' ∧
    (g.update (u.newMemory.map (Region.reversed f.type.fieldSize)) u.predicate
      (reverseCells f.type.fieldSize u.data) u.maxResults).result = .ok g' ∧
    g'.resultsValid = f'.resultsValid ∧ g'.results = f'.results

section SameResults

variable [LawfulPhosg] {u : Update} (hT : f.type.isIntegerSearchType = true)
  (hre : f.type.isReverseEndianSearchType = true) (hfinv : Invariant f) (hginv : Invariant g)
  (hgT : g.type = f.type.native)
  (hm : g.memory = f.memory.map (List.map (Region.reversed f.type.fieldSize)))
  (hv : g.resultsValid = f.resultsValid) (hres : g.results = f.results) (hu : Comparing f u)

include hT hre hfinv hginv hgT hm hv hres hu

theorem sameResults_first (hfm : f.memory = none) : SameResults f g u := by
  obtain ⟨hacc, hN, hord⟩ := hu
  have hd : f.type ≠ .data := fun hT' => by rw [hT'] at hT; cases hT
  have hgd : g.type ≠ .data := fun hn => hd (native_eq_data.mp (hgT.symm.trans hn))
  have hgw : g.type.fieldSize = f.type.fieldSize := by rw [hgT, fieldSize_native]
  have hacc' := (checkCanUpdate_reversed u.predicate u.data rfl hgT hm).trans hacc
  have hNal := hN.pages.dvd (fieldSize_dvd_page f.type)
  have hgm : g.memory = none := by rw [hm, hfm]; rfl
  unfold SameResults
  by_cases hp : u.predicate = .all
  · rw [hp] at hacc hacc' ⊢
    rw [update_all hacc hfm, update_all hacc' hgm]
    exact ⟨_, _, rfl, rfl, hv, hres⟩
  · have hne := data_ne_nil_of_first hacc hfm hp
    have hlen := accepted_length hacc hne hd
    obtain ⟨ev, ha, hfit⟩ : ∃ ev, Accepted f u.newMemory u.predicate u.data ev ∧
        f.FirstFits u.newMemory u.predicate ev u.data u.maxResults := accepted_of_page hd hacc hN
    obtain ⟨ev', ha', hfit'⟩ : ∃ ev',
        Accepted g (u.newMemory.map (Region.reversed f.type.fieldSize)) u.predicate
          (reverseCells f.type.fieldSize u.data) ev' ∧
        g.FirstFits (u.newMemory.map (Region.reversed f.type.fieldSize)) u.predicate ev'
          (reverseCells f.type.fieldSize u.data) u.maxResults :=
      accepted_of_page hgd hacc' hN.reversed
    refine ⟨_, _, update_first_result hfinv ha hfm hp hfit,
      update_first_result hginv ha' hgm hp hfit', rfl, ?_⟩
    show List.take _ _ = List.take _ _
    rw [hgw, matchesBeforeEnd_reversed (fieldSize_pos f.type) hN.toWellFormed hNal hlen
      fun a cur hdvd hcur => ?_]
    have hpending : f.resultsValid = true → a ≠ 0 ∧ a ∈ f.results := fun hvalid =>
      absurd hvalid (by rw [hfinv.not_valid hfm]; decide)
    exact (hord a cur u.data hdvd hpending hcur (if_neg (by simpa using hne))).run_eq hT hre
      (length_cellAt hN.toWellFormed hNal hdvd hcur) hlen ha.evaluator (hgT ▸ ha'.evaluator) _

theorem sameResults_later {olds : List Region} (hfm : f.memory = some olds)
    (hO : PageSnapshot olds) : SameResults f g u := by
  obtain ⟨hacc, hN, hord⟩ := hu
  have hd : f.type ≠ .data := fun hT' => by rw [hT'] at hT; cases hT
  have hgd : g.type ≠ .data := fun hn => hd (native_eq_data.mp (hgT.symm.trans hn))
  have hgw : g.type.fieldSize = f.type.fieldSize := by rw [hgT, fieldSize_native]
  have hacc' := (checkCanUpdate_reversed u.predicate u.data rfl hgT hm).trans hacc
  have hNal := hN.pages.dvd (fieldSize_dvd_page f.type)
  have hOal := hO.pages.dvd (fieldSize_dvd_page f.type)
  have hdata : u.data ≠ [] → u.data.length = f.type.fieldSize :=
    fun hne => accepted_length hacc hne hd
  have hgm : g.memory = some (olds.map (Region.reversed f.type.fieldSize)) := by rw [hm, hfm]; rfl
  obtain ⟨ev, l, hev, hfres, hfinv', hl⟩ := update_narrows u.maxResults hfinv hd hfm hO hN hacc
  obtain ⟨ev', l', hev', hgres, hginv', hl'⟩ := update_narrows u.maxResults hginv hgd hgm
    hO.reversed hN.reversed hacc'
  refine ⟨_, _, hfres, hgres, rfl, ?_⟩
  show l' = l
  refine List.Pairwise.eq_of_mem_iff hginv'.ascending hfinv'.ascending fun a => ?_
  have hcand : g.Candidate (olds.map (Region.reversed f.type.fieldSize)) a ↔
      f.Candidate olds a := by
    unfold Candidate
    rw [hv, hres, hgw, bears_reversed]
  rw [hl', hl, bears_reversed, hgw, hcand]
  refine and_congr_right fun hc => and_congr_right fun _ => ?_
  have hdvd : f.type.fieldSize ∣ a := by
    unfold Candidate at hc
    split at hc
    · exact hfinv.cells a hc.2
    · exact hc.1
  have hresult : f.resultsValid = true → a ≠ 0 ∧ a ∈ f.results := fun hvalid =>
    (if_pos hvalid : f.Candidate olds a = _) ▸ hc
  refine keeps_reversed (fieldSize_pos f.type) hN.toWellFormed hNal hO.toWellFormed hOal hdvd
    hdata ?_
  intro cur target hcur htarget
  have hlen : target.length = f.type.fieldSize := by
    split at htarget
    · exact length_cellAt hO.toWellFormed hOal hdvd htarget
    · next hne =>
      cases htarget
      exact hdata (by simpa using hne)
  exact (hord a cur target hdvd hresult hcur (by rw [hfm]; exact htarget)).run_eq hT hre
    (length_cellAt hN.toWellFormed hNal hdvd hcur) hlen hev (hgT ▸ hev') _

end SameResults

theorem Mirrors.update [LawfulPhosg] (hT : T.isIntegerSearchType = true)
    (hre : T.isReverseEndianSearchType = true) (h : Mirrors T f g) (hu : Comparing f u) :
    ∃ f' g', (f.update u.newMemory u.predicate u.data u.maxResults).result = .ok f' ∧
      (g.update (u.newMemory.map (Region.reversed T.fieldSize)) u.predicate
        (reverseCells T.fieldSize u.data) u.maxResults).result = .ok g' ∧ Mirrors T f' g' := by
  have hd : T ≠ .data := fun hT' => by rw [hT'] at hT; cases hT
  obtain ⟨hf, hg, hm, hv, hres⟩ := h
  obtain ⟨hfinv, rfl⟩ := hf.invariant hd
  obtain ⟨hginv, hgT⟩ := hg.invariant fun hn => hd (native_eq_data.mp hn)
  obtain ⟨f', g', hf', hg', hv', hres'⟩ : SameResults f g u := by
    cases hfm : f.memory with
    | none => exact sameResults_first hT hre hfinv hginv hgT hm hv hres hu hfm
    | some olds =>
      exact sameResults_later hT hre hfinv hginv hgT hm hv hres hu hfm (hf.page hfm)
  refine ⟨f', g', hf', hg', hf.update hu.snapshot hf', hg.update hu.snapshot.reversed hg', ?_, hv',
    hres'⟩
  rw [memory_of_update hf', memory_of_update hg', Option.map_some]

theorem Mirrors.run [LawfulPhosg] {ups : List Update} (hT : T.isIntegerSearchType = true)
    (hre : T.isReverseEndianSearchType = true) (h : Mirrors T f g) (hups : Along Comparing f ups) :
    ∃ f' g', (runUpdates f ups).result = .ok f' ∧
      (runUpdates g (ups.map (Update.reversed T.fieldSize))).result = .ok g' ∧ Mirrors T f' g' := by
  induction ups generalizing f g with
  | nil => exact ⟨f, g, rfl, rfl, h⟩
  | cons u ups ih =>
    obtain ⟨hu, hnext⟩ := hups
    obtain ⟨f₁, g₁, hf₁, hg₁, h₁⟩ := h.update hT hre hu
    obtain ⟨f', g', hf', hg', h'⟩ := ih h₁ (hnext f₁ hf₁)
    refine ⟨f', g', ?_, ?_, h'⟩
    · rw [runUpdates, bind_of_ok hf₁]
      exact hf'
    · have hbind := bind_of_ok hg₁ fun s => runUpdates s (ups.map (Update.reversed T.fieldSize))
      exact (congrArg Traced.result hbind).trans hg'

/-- Comparisons agree with the displayed numbers, and reverse-endian ones with the
native ones on reversed cells, exactly when the order is kept; and while it is, a
reverse-endian search has the results of the native one on reversed memory. -/
theorem comparison_agrees_iff [LawfulPhosg] (hT : T.isIntegerSearchType = true) :
    (∀ op a b, a.length = T.fieldSize → b.length = T.fieldSize →
      (AgreesWithDisplay T op a b ↔ OrderKept T op a b) ∧
      (T.isReverseEndianSearchType = true → (AgreesWithNative T op a b ↔ OrderKept T op a b))) ∧
    (T.isReverseEndianSearchType = true → ∀ allMemory ups,
      Along Comparing (new T allMemory) ups →
      ∃ f g, (runUpdates (new T allMemory) ups).result = .ok f ∧
        (runUpdates (new T.native allMemory)
          (ups.map (Update.reversed T.fieldSize))).result = .ok g ∧
        g.results = f.results) := by
  refine ⟨fun op a b ha hb => cells_agree_iff hT op ha hb, fun hre allMemory ups hups => ?_⟩
  have h : Mirrors T (new T allMemory) (new T.native allMemory) :=
    ⟨.new allMemory, .new allMemory, rfl, rfl, rfl⟩
  obtain ⟨f, g, hf, hg, h'⟩ := h.run hT hre hups
  exact ⟨f, g, hf, hg, h'.results⟩

omit [Phosg] in
/-- The cells `1` and `2` of an `int16Re` search are ordered as displayed. -/
theorem comparison_agrees_int16Re :
    @AgreesWithDisplay bytewisePhosg .int16Re .lt [0, 1] [0, 2] := by
  let _ := bytewisePhosg
  have := bytewisePhosg_lawful
  refine ((comparison_agrees_iff (T := .int16Re) rfl).1 .lt _ _ rfl rfl).1.mpr
    (.inr (.inr (.inr ?_)))
  rw [negative_iff (v := 1) (by decide), negative_iff (v := 2) (by decide)]
  decide

omit [Phosg] in
/-- The cells `-1` and `0` of an `int16Re` search are not. -/
theorem comparison_disagrees_int16Re :
    ¬ @AgreesWithDisplay bytewisePhosg .int16Re .lt [255, 255] [0, 0] := by
  rintro ⟨ev, va, vb, he, ha, hb, hrun⟩
  cases he
  cases ha
  cases hb
  exact absurd (hrun 2) (by decide)

end MemorySearch

end Memwatch
