import Memwatch.Search.Invariant

/-!
# The result limit

`max_results` stops the first search of a known value, and a later search only
drops results. The second search of an unknown-value search never looks at the
limit: it keeps every match among the cells that both snapshots hold, however
many these are.
-/

namespace Memwatch

open Lib Traced

namespace MemorySearch

variable {ev : Evaluator} {fieldSize prevSize maxResults m : Nat} {data : Bytes}

/-! ## The cells of a second search -/

section Overlap

variable (fieldSize : Nat) (data : Bytes) (prevSize : Nat)

/-- The cells of `newRegion` that meet the old regions, from offset `y` on. An old
region is entered at its start, or where the steps through the ones before it lead. -/
def overlapCalls (newRegion : Region) : List Region → Nat → List EvalCall
  | [], _ => []
  | old :: olds, y =>
    if old.bearingEnd ≤ newRegion.addr + y then overlapCalls newRegion olds y
    else
      let start := max y (old.addr - newRegion.addr)
      let cells := strides fieldSize (min newRegion.size (old.bearingEnd - newRegion.addr)) start
      cells.map (fun z => compareAt data prevSize newRegion old (newRegion.addr + z)) ++
        overlapCalls newRegion olds (start + fieldSize * cells.length)

/-- The comparisons of two snapshots. -/
def comparedCells (news olds : List Region) : List EvalCall :=
  news.flatMap fun r => if r.data.isEmpty then [] else overlapCalls fieldSize data prevSize r olds 0

end Overlap

section Steps

variable {newRegion old : Region} {olds : List Region} {y : Nat}

theorem overlapCalls_end (hw : 0 < fieldSize) (hy : newRegion.size ≤ y) :
    overlapCalls fieldSize data prevSize newRegion olds y = [] := by
  induction olds generalizing y with
  | nil => rfl
  | cons old olds ih =>
    rw [overlapCalls]
    split
    · exact ih hy
    · have hnone : strides fieldSize (min newRegion.size (old.bearingEnd - newRegion.addr))
          (max y (old.addr - newRegion.addr)) = [] := strides_of_le hw (by omega)
      simp only [hnone, List.map_nil, List.nil_append]
      exact ih (by omega)

theorem overlapCalls_seek :
    overlapCalls fieldSize data prevSize newRegion
        (seek Region.bearingEnd (newRegion.addr + y) olds) y =
      overlapCalls fieldSize data prevSize newRegion olds y := by
  induction olds with
  | nil => rfl
  | cons old olds ih =>
    rcases Nat.lt_or_ge (newRegion.addr + y) old.bearingEnd with h | h
    · rw [seek_cons_of_lt h]
    · rw [seek_cons_of_le h, ih, overlapCalls, if_pos h]

theorem overlapCalls_skip (hw : 0 < fieldSize) (hend : newRegion.addr + y < old.bearingEnd)
    (hlt : newRegion.addr + y < old.addr) :
    overlapCalls fieldSize data prevSize newRegion (old :: olds) y =
      overlapCalls fieldSize data prevSize newRegion (old :: olds) (old.addr - newRegion.addr) := by
  rw [overlapCalls, overlapCalls, if_neg (by omega),
    show max y (old.addr - newRegion.addr) = old.addr - newRegion.addr by omega]
  split
  · have hnone : strides fieldSize (min newRegion.size (old.bearingEnd - newRegion.addr))
        (old.addr - newRegion.addr) = [] := strides_of_le hw (by omega)
    simp [hnone]
  · rw [max_self]

theorem overlapCalls_compare (hw : 0 < fieldSize) (hy : y < newRegion.size)
    (hend : newRegion.addr + y < old.bearingEnd) (hle : old.addr ≤ newRegion.addr + y) :
    overlapCalls fieldSize data prevSize newRegion (old :: olds) y =
      compareAt data prevSize newRegion old (newRegion.addr + y) ::
        overlapCalls fieldSize data prevSize newRegion (old :: olds) (y + fieldSize) := by
  rw [overlapCalls, overlapCalls, if_neg (by omega)]
  simp only [show max y (old.addr - newRegion.addr) = y by omega,
    strides_of_lt hw (show y < min newRegion.size (old.bearingEnd - newRegion.addr) by omega),
    List.map_cons, List.cons_append, List.length_cons, List.cons.injEq, true_and]
  have hmul : ∀ k, y + fieldSize * (k + 1) = y + fieldSize + fieldSize * k := fun k => by
    rw [Nat.mul_succ]; omega
  rw [hmul]
  split
  · have hnone : strides fieldSize (min newRegion.size (old.bearingEnd - newRegion.addr))
        (y + fieldSize) = [] := strides_of_le hw (by omega)
    simp [hnone]
  · rw [show max (y + fieldSize) (old.addr - newRegion.addr) = y + fieldSize by omega]

end Steps

/-! ## What the scan keeps -/

section Second

variable {newRegion : Region} {news memory olds olds' : List Region} {results results' : List Nat}

/-- The scan of a region that was not read keeps nothing. -/
theorem scanRegion_unread (hd : ¬ newRegion.HasData) {fuel y : Nat}
    (h : (scanRegion ev fieldSize data prevSize newRegion fuel y olds results).result =
      .ok (olds', results')) : olds' = olds ∧ results' = results := by
  induction fuel generalizing y with
  | zero => cases h
  | succ fuel ih =>
    rw [scanRegion] at h
    split at h
    · rw [if_pos (Region.isEmpty_of_not_hasData hd)] at h
      exact ih h
    · cases h; exact ⟨rfl, rfl⟩

/-- The scan of a region keeps the matches among its cells, and moves the cursor
no further than its end. -/
theorem scanRegion_keeps (hw : 0 < fieldSize) (hd : newRegion.HasData)
    (hsize : newRegion.size + fieldSize ≤ 2 ^ 64) {fuel y : Nat}
    (h : (scanRegion ev fieldSize data prevSize newRegion fuel y olds results).result =
      .ok (olds', results')) :
    results' = results ++ hits (EvalCall.test ev) EvalCall.addr
        (overlapCalls fieldSize data prevSize newRegion olds y) ∧
      Ahead Region.bearingEnd olds (newRegion.addr + newRegion.size) olds' := by
  induction fuel generalizing y olds results with
  | zero => cases h
  | succ fuel ih =>
    by_cases hy : y < newRegion.size
    swap
    · rw [scanRegion_done hy] at h
      cases h
      exact ⟨by simp [overlapCalls_end hw (Nat.le_of_not_lt hy)], Ahead.refl _ _⟩
    have hmove : ∀ {old rest},
        seek Region.bearingEnd (newRegion.addr + y) olds = old :: rest →
        Ahead Region.bearingEnd (old :: rest) (newRegion.addr + newRegion.size) olds' →
        Ahead Region.bearingEnd olds (newRegion.addr + newRegion.size) olds' := by
      intro old rest hs hah z hz
      rw [hah z hz, ← hs, seek_seek (by omega)]
    rw [← overlapCalls_seek]
    cases hs : seek Region.bearingEnd (newRegion.addr + y) olds with
    | nil =>
      rw [scanRegion_exhausted hd hy hs] at h
      cases h
      refine ⟨by simp [overlapCalls], fun z hz => ?_⟩
      rw [← hs, seek_seek (by omega)]
    | cons old rest =>
      have hend := lt_hi_of_seek hs
      by_cases hlt : newRegion.addr + y < old.addr
      · rw [scanRegion_skip hd hy hs hlt] at h
        obtain ⟨hres, hah⟩ := ih h
        exact ⟨by rw [overlapCalls_skip hw hend hlt]; exact hres, hmove hs hah⟩
      · rw [scanRegion_compare hd hy (by omega) hs (by omega)] at h
        obtain ⟨hit, hask, h⟩ := bind_eq_ok h
        obtain ⟨hres, hah⟩ := ih h
        refine ⟨?_, hmove hs hah⟩
        have hcall : callAt data prevSize newRegion old (newRegion.addr + y) y
            (newRegion.addr + y - old.addr) =
              compareAt data prevSize newRegion old (newRegion.addr + y) := by
          rw [compareAt, Nat.add_sub_cancel_left]
        rw [hcall] at hask
        rw [overlapCalls_compare hw hy hend (by omega), hits_cons,
          passes_of_ok (show EvalCall.test ev _ = .ok hit from hask), hres]
        cases hit <;> simp [compareAt, callAt]

/-- The second search keeps every match of the two snapshots. -/
theorem secondScan_keeps (hw : 0 < fieldSize) (hnews : WellFormed news)
    (hsize : ∀ r ∈ news, r.HasData → r.size + fieldSize ≤ 2 ^ 64) {x : Nat}
    (hah : Ahead Region.bearingEnd memory x olds) (hx : ∀ r ∈ news, r.HasData → x ≤ r.addr)
    (h : (secondScan ev fieldSize data prevSize news olds results).result = .ok results') :
    results' = results ++ hits (EvalCall.test ev) EvalCall.addr
      (comparedCells fieldSize data prevSize news memory) := by
  induction news generalizing olds results x with
  | nil => cases h; simp [comparedCells]
  | cons newRegion news ih =>
    obtain ⟨⟨olds', l⟩, hscan, hnext⟩ := bind_eq_ok h
    have htail := hnews.sublist (List.sublist_cons_self newRegion news)
    have hapart := (List.pairwise_cons.mp hnews.apart).1
    have hsize' := fun r hr => hsize r (List.mem_cons_of_mem newRegion hr)
    rw [comparedCells, List.flatMap_cons, hits_append]
    by_cases hd : newRegion.HasData
    · obtain ⟨hl, hah'⟩ := scanRegion_keeps hw hd (hsize _ List.mem_cons_self hd) hscan
      have hx' := hx newRegion List.mem_cons_self hd
      have hfull : overlapCalls fieldSize data prevSize newRegion olds 0 =
          overlapCalls fieldSize data prevSize newRegion memory 0 := by
        rw [← overlapCalls_seek, hah _ (show x ≤ newRegion.addr + 0 from hx'), overlapCalls_seek]
      rw [if_neg (Region.hasData_iff.mp hd), ← List.append_assoc, ← hfull, ← hl]
      exact ih htail hsize' (fun z hz => by rw [hah' z hz, hah z (by omega)]) hapart hnext
    · obtain ⟨rfl, rfl⟩ := scanRegion_unread hd hscan
      rw [if_pos (Region.isEmpty_of_not_hasData hd), hits_nil, List.nil_append]
      exact ih htail hsize' hah (fun r hr => hx r (List.mem_cons_of_mem _ hr)) hnext

end Second

/-! ## Limits of the other scans -/

theorem scanCells_length_le {region : Region} {fuel y : Nat} {results results' : List Nat}
    (hle : results.length ≤ maxResults)
    (h : (scanCells ev fieldSize data maxResults region fuel y results).result = .ok results') :
    results'.length ≤ maxResults := by
  induction fuel generalizing y results with
  | zero => cases h
  | succ fuel ih =>
    rw [scanCells] at h
    split at h
    · next hcond =>
      obtain ⟨hit, -, h⟩ := bind_eq_ok h
      have happ : (results ++ [add64 region.addr y]).length ≤ maxResults := by
        rw [List.length_append, List.length_singleton]; omega
      cases hit with
      | false => exact ih hle h
      | true =>
        simp only [↓reduceIte] at h
        split at h
        · cases h; exact happ
        · exact ih happ h
    · cases h; exact hle

theorem firstScan_length_le {S : List Region} {results results' : List Nat}
    (hle : results.length ≤ maxResults)
    (h : (firstScan ev fieldSize data maxResults S results).result = .ok results') :
    results'.length ≤ maxResults := by
  induction S generalizing results with
  | nil => cases h; exact hle
  | cons r S ih =>
    rw [firstScan] at h
    split at h
    · exact ih hle h
    · obtain ⟨l, h1, h2⟩ := bind_eq_ok h
      exact ih (scanCells_length_le hle h1) h2

theorem markDeleted_length {news olds : List Region} {results marks : List Nat}
    (h : (markDeleted ev data prevSize news olds results).result = .ok marks) :
    marks.length = results.length := by
  induction results generalizing news olds marks with
  | nil => cases h; rfl
  | cons result results ih =>
    have hrest : ∀ {news olds mark}, (markDeleted ev data prevSize news olds results >>= fun l =>
        pure (mark :: l)).result = .ok marks → marks.length = results.length + 1 := by
      intro news olds mark hmark
      obtain ⟨l, hl, hcons⟩ := bind_eq_ok hmark
      cases hcons
      rw [List.length_cons, ih hl]
    rw [markDeleted] at h
    split at h
    · split at h
      · exact hrest h
      · split at h
        · exact hrest h
        · obtain ⟨hit, -, h⟩ := bind_eq_ok h
          exact hrest h
    · exact hrest h

/-! ## Updates -/

section Update

variable [Phosg] {s s' t : MemorySearch} {u : Update} {ups : List Update}

/-- The four kinds of update. -/
theorem update_cases
    (h : (s.update u.newMemory u.predicate u.data u.maxResults).result = .ok s') :
    ∃ ev, s.checkCanUpdate u.predicate u.data = .ok () ∧ s.type.evaluator? u.predicate = some ev ∧
      ((s.memory = none ∧ s' = { s with memory := some u.newMemory }) ∨
      (s.memory = none ∧ ∃ l, s' = s.save u.newMemory u.data l ∧
        (firstScan ev s.type.fieldSize u.data u.maxResults u.newMemory s.results).result = .ok l) ∨
      (∃ memory l, s.memory = some memory ∧ s.resultsValid = false ∧
        s' = s.save u.newMemory u.data l ∧
        (secondScan ev s.type.fieldSize u.data s.prevSize u.newMemory memory s.results).result =
          .ok l) ∨
      (∃ memory marks, s.memory = some memory ∧ s.resultsValid = true ∧
        s' = s.save u.newMemory u.data (removeDeleted marks) ∧
        (markDeleted ev u.data s.prevSize u.newMemory memory s.results).result = .ok marks)) := by
  unfold update at h
  cases hacc : s.checkCanUpdate u.predicate u.data with
  | error what => rw [hacc] at h; cases h
  | ok _ =>
    cases hev : s.type.evaluator? u.predicate with
    | none => rw [hacc, hev] at h; cases h
    | some ev =>
      refine ⟨ev, rfl, rfl, ?_⟩
      rw [hacc, hev] at h
      cases hm : s.memory with
      | none =>
        simp only [hm] at h
        split at h
        · cases h; exact .inl ⟨rfl, rfl⟩
        · obtain ⟨l, hl, h⟩ := bind_eq_ok h
          cases h
          exact .inr (.inl ⟨rfl, l, rfl, hl⟩)
      | some memory =>
        simp only [hm] at h
        cases hv : s.resultsValid with
        | false =>
          simp only [hv, Bool.not_false, ↓reduceIte] at h
          obtain ⟨l, hl, h⟩ := bind_eq_ok h
          cases h
          exact .inr (.inr (.inl ⟨memory, l, rfl, rfl, rfl, hl⟩))
        | true =>
          simp only [hv, Bool.not_true, Bool.false_eq_true, ↓reduceIte] at h
          obtain ⟨marks, hl, h⟩ := bind_eq_ok h
          cases h
          exact .inr (.inr (.inr ⟨memory, marks, rfl, rfl, rfl, hl⟩))

/-- The search after an update, if that ends. A rejected update throws before it
changes anything. -/
def next (s : MemorySearch) (u : Update) : Option MemorySearch :=
  match s.checkCanUpdate u.predicate u.data with
  | .error _ => some s
  | .ok () => (s.update u.newMemory u.predicate u.data u.maxResults).result.toOption

theorem next_of_accepted (h : s.checkCanUpdate u.predicate u.data = .ok ()) :
    s.next u = some s' ↔
      (s.update u.newMemory u.predicate u.data u.maxResults).result = .ok s' := by
  unfold next
  rw [h]
  cases (s.update u.newMemory u.predicate u.data u.maxResults).result <;> simp [Except.toOption]

theorem next_of_rejected {what : String} (h : s.checkCanUpdate u.predicate u.data = .error what) :
    s.next u = some s := by
  unfold next; rw [h]

/-- An update of a run with the limit `m`: a snapshot whose data a string can hold. -/
structure GivenLimit (m : Nat) (u : Update) : Prop where
  limit : u.maxResults = m
  wellFormed : WellFormed u.newMemory
  holds : ∀ r ∈ u.newMemory, r.data.length < 2 ^ 63

/-- The number of compared cells for which the predicate holds. -/
def numMatches (s : MemorySearch) (u : Update) (memory : List Region) : Nat :=
  match s.type.evaluator? u.predicate with
  | none => 0
  | some ev => (comparedCells s.type.fieldSize u.data s.prevSize u.newMemory memory).countP
      (passes (EvalCall.test ev))

/-- A second search finds no more matches than the limit. -/
def WithinLimit (s : MemorySearch) (u : Update) : Prop :=
  ∀ memory, s.memory = some memory → s.resultsValid = false →
    s.checkCanUpdate u.predicate u.data = .ok () → numMatches s u memory ≤ u.maxResults

/-- Before the first comparison there are no results. -/
structure Pending (s : MemorySearch) : Prop where
  results : s.resultsValid = false → s.results = []
  unset : s.memory = none → s.resultsValid = false

omit [Phosg] in
theorem Pending.new (T : SearchType) (allMemory : Bool) : Pending (new T allMemory) where
  results _ := rfl
  unset _ := rfl

theorem Pending.update (hs : Pending s)
    (h : (s.update u.newMemory u.predicate u.data u.maxResults).result = .ok s') : Pending s' := by
  obtain ⟨ev, -, -, ⟨hn, rfl⟩ | ⟨-, l, rfl, -⟩ | ⟨memory, l, -, -, rfl, -⟩ |
    ⟨memory, marks, -, -, rfl, -⟩⟩ := update_cases h
  · have := hs.results (hs.unset hn)
    exact ⟨fun _ => this, nofun⟩
  all_goals exact ⟨nofun, nofun⟩

theorem second_length (hs : Pending s) (hu : GivenLimit m u) {memory : List Region}
    (hm : s.memory = some memory) (hv : s.resultsValid = false)
    (h : (s.update u.newMemory u.predicate u.data u.maxResults).result = .ok s') :
    s'.results.length = numMatches s u memory := by
  obtain ⟨ev, -, hev, ⟨hn, -⟩ | ⟨hn, -⟩ | ⟨memory', l, hm', -, rfl, hl⟩ | ⟨-, -, -, hv', -⟩⟩ :=
    update_cases h
  · rw [hm] at hn; cases hn
  · rw [hm] at hn; cases hn
  · cases hm.symm.trans hm'
    have hsize : ∀ r ∈ u.newMemory, r.HasData → r.size + s.type.fieldSize ≤ 2 ^ 64 := by
      intro r hr hd
      have hlen := hu.holds r hr
      rw [hu.wellFormed.length_data hr hd] at hlen
      have := fieldSize_le_eight s.type
      omega
    have hkeep := secondScan_keeps (fieldSize_pos s.type) hu.wellFormed hsize (Ahead.refl memory 0)
      (fun _ _ _ => Nat.zero_le _) hl
    rw [numMatches, hev]
    show l.length = _
    rw [hkeep, hs.results hv, List.nil_append, hits, List.length_map,
      ← List.countP_eq_length_filter]
  · rw [hv] at hv'; cases hv'

/-- An update keeps the limit if and only if a second search finds no more matches. -/
theorem length_update_iff (hs : Pending s) (hle : s.results.length ≤ m) (hu : GivenLimit m u)
    (h : (s.update u.newMemory u.predicate u.data u.maxResults).result = .ok s') :
    s'.results.length ≤ m ↔ WithinLimit s u := by
  have hlimit := hu.limit
  obtain ⟨ev, hacc, -, ⟨hn, rfl⟩ | ⟨hn, l, rfl, hl⟩ | ⟨memory, l, hm, hv, rfl, -⟩ |
    ⟨memory, marks, hm, hv, rfl, hl⟩⟩ := update_cases h
  · refine iff_of_true hle fun memory hm => ?_
    rw [hn] at hm; cases hm
  · refine iff_of_true ?_ fun memory hm => ?_
    · show l.length ≤ m
      rw [← hlimit] at hle ⊢
      exact firstScan_length_le hle hl
    · rw [hn] at hm; cases hm
  · rw [second_length hs hu hm hv h, ← hlimit]
    constructor
    · intro hb memory' hm' _ _
      cases hm.symm.trans hm'
      exact hb
    · intro hw
      exact hw memory hm hv hacc
  · refine iff_of_true ?_ fun memory' _ hv' => ?_
    · calc (removeDeleted marks).length ≤ marks.length := List.length_filter_le _ _
        _ = s.results.length := markDeleted_length hl
        _ ≤ m := hle
    · rw [hv] at hv'; cases hv'

theorem Pending.next (hs : Pending s) (h : s.next u = some s') : Pending s' := by
  cases hacc : s.checkCanUpdate u.predicate u.data with
  | error what => cases (next_of_rejected hacc).symm.trans h; exact hs
  | ok _ => exact hs.update ((next_of_accepted hacc).mp h)

theorem length_next_iff (hs : Pending s) (hle : s.results.length ≤ m) (hu : GivenLimit m u)
    (h : s.next u = some s') : s'.results.length ≤ m ↔ WithinLimit s u := by
  cases hacc : s.checkCanUpdate u.predicate u.data with
  | error what =>
    cases (next_of_rejected hacc).symm.trans h
    refine iff_of_true hle fun _ _ _ hok => ?_
    rw [hacc] at hok; cases hok
  | ok _ => exact length_update_iff hs hle hu ((next_of_accepted hacc).mp h)

/-! ## Runs -/

/-- The search after a run of update calls, if all of them end. -/
def after (s : MemorySearch) (ups : List Update) : Option MemorySearch := ups.foldlM next s

theorem after_concat (s : MemorySearch) (ups : List Update) (u : Update) :
    s.after (ups ++ [u]) = (s.after ups).bind fun t => t.next u := by
  simp [after, List.foldlM_append]

theorem after_concat_eq_some :
    s.after (ups ++ [u]) = some s' ↔ ∃ t, s.after ups = some t ∧ t.next u = some s' := by
  rw [after_concat, Option.bind_eq_some_iff]

theorem isSome_after_of_le {pre : List Update} (hle : pre <+: ups)
    (h : (s.after ups).isSome) : (s.after pre).isSome := by
  obtain ⟨post, rfl⟩ := hle
  rw [after, List.foldlM_append] at h
  exact Option.isSome_of_isSome_bind h

theorem Pending.after (hs : Pending s) (h : s.after ups = some s') : Pending s' := by
  induction ups using List.reverseRecOn generalizing s' with
  | nil => cases h; exact hs
  | append_singleton ups u ih =>
    obtain ⟨t, ht, hu⟩ := after_concat_eq_some.mp h
    exact (ih ht).next hu

/-- In a run of updates with one limit, the search never has more results than
that, if and only if no second search finds more matches. -/
theorem result_limit_iff {T : SearchType} {allMemory : Bool} (hups : ∀ u ∈ ups, GivenLimit m u)
    (hrun : ((new T allMemory).after ups).isSome) :
    (∀ pre s, pre <+: ups → (new T allMemory).after pre = some s → s.results.length ≤ m) ↔
      ∀ pre u s, pre ++ [u] <+: ups → (new T allMemory).after pre = some s → WithinLimit s u := by
  have hmem : ∀ {pre u}, pre ++ [u] <+: ups → GivenLimit m u := fun hle =>
    hups _ (hle.subset (by simp))
  constructor
  · intro hall pre u s hle hs
    have hpre := (List.prefix_append pre [u]).trans hle
    obtain ⟨s', hs'⟩ := Option.isSome_iff_exists.mp (isSome_after_of_le hle hrun)
    obtain ⟨t, ht, hu⟩ := after_concat_eq_some.mp hs'
    cases hs.symm.trans ht
    have hpending := (Pending.new T allMemory).after hs
    exact (length_next_iff hpending (hall pre s hpre hs) (hmem hle) hu).mp (hall _ s' hle hs')
  · intro hall pre
    induction pre using List.reverseRecOn with
    | nil => rintro s - hs; cases hs; exact Nat.zero_le m
    | append_singleton pre u ih =>
      intro s hle hs
      have hpre := (List.prefix_append pre [u]).trans hle
      obtain ⟨t, ht, hu⟩ := after_concat_eq_some.mp hs
      exact (length_next_iff ((Pending.new T allMemory).after ht) (ih t hpre ht) (hmem hle) hu).mpr
        (hall pre u t hle ht)

end Update

/-- A byte that has become larger. -/
theorem result_limit_uint8 :
    let _ := bytewisePhosg
    ∀ pre s, pre <+: [⟨[twoBytes 1 2], .all, [], 1⟩, ⟨[twoBytes 1 3], .greater, [], 1⟩] →
      (new .uint8 true).after pre = some s → s.results.length ≤ 1 := by
  intro _
  refine (result_limit_iff ?_ (by decide)).mpr ?_
  · intro u hu
    simp only [List.mem_cons, List.not_mem_nil, or_false] at hu
    rcases hu with rfl | rfl
    · exact ⟨rfl, twoBytes_wellFormed 1 2, by decide⟩
    · exact ⟨rfl, twoBytes_wellFormed 1 3, by decide⟩
  · rintro pre u s ⟨post, hpost⟩ hs memory hm hv hacc
    rcases pre with _ | ⟨v, _ | ⟨w, pre⟩⟩
    · cases hs; cases hm
    · cases hpost; cases hs; cases hm; decide
    · have := congrArg List.length hpost
      simp at this

/-- Both bytes are as they were. -/
theorem result_limit_exceeded :
    let _ := bytewisePhosg
    (∀ u ∈ [(⟨[twoBytes 1 2], .all, [], 1⟩ : Update), ⟨[twoBytes 1 2], .equal, [], 1⟩],
      GivenLimit 1 u) ∧
    ((new .uint8 true).after [⟨[twoBytes 1 2], .all, [], 1⟩, ⟨[twoBytes 1 2], .equal, [], 1⟩]).map
      (fun s => s.results.length) = some 2 := by
  intro _
  constructor
  · intro u hu
    simp only [List.mem_cons, List.not_mem_nil, or_false] at hu
    rcases hu with rfl | rfl
    · exact ⟨rfl, twoBytes_wellFormed 1 2, by decide⟩
    · exact ⟨rfl, twoBytes_wellFormed 1 2, by decide⟩
  · decide +kernel

/-! ## Smaller limits -/

section Prefix

variable [Phosg] {T : SearchType} {allMemory : Bool} {p : Predicate} {S : List Region}

/-- The first search of a known value takes its results from the matches in front. -/
theorem first_update_take (hT : T ≠ .data) (hS : PageSnapshot S) (hp : p ≠ .all)
    (hacc : (new T allMemory).checkCanUpdate p data = .ok ()) :
    ∃ ev, ∀ m, ((new T allMemory).update S p data m).result = .ok ((new T allMemory).save S data
      ((matchesBeforeEnd T.fieldSize ev data S).take m)) := by
  have hdata : data ≠ [] := data_ne_nil_of_first hacc rfl hp
  obtain ⟨ev, hev⟩ := evaluator_of_accepted hacc
  refine ⟨ev, fun m => ?_⟩
  obtain ⟨ev', ha, hfits⟩ : ∃ ev', Accepted (new T allMemory) S p data ev' ∧
      (new T allMemory).FirstFits S p ev' data m := accepted_of_page hT hacc hS
  obtain rfl : ev = ev' := Option.some.inj (hev.symm.trans ha.evaluator)
  rw [update_first rfl hp hacc hev]
  exact result_bind_pure _ (firstScan_result (fieldSize_pos T) (fieldSize_le_length hacc hdata)
    ha.length_lt (evaluator_local hev) (reads_le_length hacc hdata hev) hS.toWellFormed
    (hfits rfl hp))

/-- The results with a smaller limit are the first ones of those with a larger limit. -/
theorem smaller_limit_prefix (hT : T ≠ .data) (hS : PageSnapshot S) (hp : p ≠ .all)
    (hacc : (new T allMemory).checkCanUpdate p data = .ok ()) {m₁ m₂ : Nat} (hle : m₁ ≤ m₂) :
    ∃ s₁ s₂, ((new T allMemory).update S p data m₁).result = .ok s₁ ∧
      ((new T allMemory).update S p data m₂).result = .ok s₂ ∧
      s₁.results = s₂.results.take (min m₁ s₂.results.length) := by
  obtain ⟨ev, hupdate⟩ := first_update_take hT hS hp hacc
  refine ⟨_, _, hupdate m₁, hupdate m₂, ?_⟩
  show List.take m₁ _ = List.take (min m₁ (List.take m₂ _).length) (List.take m₂ _)
  rw [List.take_take, List.length_take, List.take_eq_take_iff]
  omega

end Prefix

/-- A page of one value. -/
theorem smaller_limit_prefix_page :
    let _ := bytewisePhosg
    ∃ s₁ s₂, ((new .uint16 true).update [filledPage 0x1000 3 (by decide)] .equal [3, 3] 2).result =
        .ok s₁ ∧
      ((new .uint16 true).update [filledPage 0x1000 3 (by decide)] .equal [3, 3] 5).result =
        .ok s₂ ∧
      s₁.results = s₂.results.take (min 2 s₂.results.length) := by
  intro _
  exact smaller_limit_prefix (by decide) (filledPage_snapshot 3 (by decide) (by decide)) (by decide)
    rfl (by decide)

end MemorySearch
end Memwatch
