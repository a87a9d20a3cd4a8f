import Memwatch.Lib.Strides
import Memwatch.Search.Update

/-!
# Plans: the comparisons an update makes

For each of the three scans of `update`, the plan is the list of calls it makes
if no call is out of bounds. The scans over snapshots of disjoint, ascending
regions are `collect` over their plans, so what they ask and what they keep is
a matter of the plans alone.
-/

namespace Memwatch

open Lib Traced

namespace MemorySearch

variable {ev : Evaluator} {fieldSize prevSize : Nat} {data : Bytes}

/-! ## First search -/

/-- The call of the first search for `region` at offset `y`. -/
def firstCall (data : Bytes) (region : Region) (y : Nat) : EvalCall :=
  ⟨region.addr + y, ⟨.region region, y⟩, ⟨.value data, 0⟩, data.length⟩

/-- The cells of a region the first search looks at: those that end before the
region's end. -/
def regionPlan (fieldSize : Nat) (data : Bytes) (region : Region) : List EvalCall :=
  if region.data.isEmpty then []
  else (strides fieldSize (region.size - data.length) 0).map (firstCall data region)

def firstPlan (fieldSize : Nat) (data : Bytes) (regions : List Region) : List EvalCall :=
  regions.flatMap (regionPlan fieldSize data)

theorem regionPlan_of_hasData {region : Region} (hd : region.HasData) :
    regionPlan fieldSize data region =
      (strides fieldSize (region.size - data.length) 0).map (firstCall data region) :=
  if_neg (Region.hasData_iff.mp hd)

theorem firstPlan_cons (region : Region) (regions : List Region) :
    firstPlan fieldSize data (region :: regions) =
      regionPlan fieldSize data region ++ firstPlan fieldSize data regions := rfl

theorem scanCells_eq {maxResults : Nat} {region : Region} (hw : 0 < fieldSize)
    (hwd : fieldSize ≤ data.length) (hle : data.length ≤ region.size) :
    ∀ {fuel y : Nat} {results : List Nat}, region.size - data.length - y < fuel →
      scanCells ev fieldSize data maxResults region fuel y results =
        collect (some maxResults) (EvalCall.test ev) EvalCall.addr
          ((strides fieldSize (region.size - data.length) y).map (firstCall data region))
          results := by
  have hfits := region.fits
  have hsize := region.size_lt
  have hsub : sub64 region.size data.length = region.size - data.length := sub64_eq hsize hle
  intro fuel
  induction fuel with
  | zero => intro y results h; omega
  | succ fuel ih =>
    intro y results h
    rw [scanCells, hsub]
    by_cases hy : y < region.size - data.length
    · have hadd : add64 region.addr y = region.addr + y := add64_eq (by omega)
      have hnext : add64 y fieldSize = y + fieldSize := add64_eq (by omega)
      rw [strides_of_lt hw hy, List.map_cons, hadd, hnext]
      by_cases hm : results.length < maxResults
      · rw [if_pos ⟨hy, hm⟩, collect_cons (by simpa [reached] using hm)]
        refine bind_congr fun hit => ?_
        cases hit with
        | false => exact ih (by omega)
        | true =>
          simp only [↓reduceIte, ge_iff_le]
          by_cases hfull : maxResults ≤ (results ++ [region.addr + y]).length
          · rw [if_pos hfull, collect_reached (by simpa [reached] using hfull)]; rfl
          · rw [if_neg hfull]; exact ih (by omega)
      · rw [if_neg (fun hc => hm hc.2), collect_reached (by simpa [reached] using hm)]
    · rw [if_neg (fun hc => hy hc.1), strides_of_le hw (by omega)]; rfl

/-- A region shorter than the value is read out of bounds at its first cell,
unless the limit is reached. -/
theorem scanCells_short {maxResults : Nat} {region : Region} (hd : data.length < 2 ^ 64)
    (hlt : region.size < data.length) (fuel : Nat) (results : List Nat) :
    (maxResults ≤ results.length →
      scanCells ev fieldSize data maxResults region (fuel + 1) 0 results = pure results) ∧
    (results.length < maxResults → firstCall data region 0 ∈
      (scanCells ev fieldSize data maxResults region (fuel + 1) 0 results).events) := by
  have hsub : 0 < sub64 region.size data.length := by rw [sub64_wrap hd hlt]; omega
  rw [scanCells]
  constructor
  · intro hm
    rw [if_neg (fun hc => absurd hc.2 (by omega))]
  · intro hm
    rw [if_pos ⟨hsub, hm⟩, show add64 region.addr 0 = region.addr + 0 from add64_eq (by
      have := region.addr_lt; omega)]
    exact mem_events_bind.mpr (.inl List.mem_cons_self)

/-! ## Second search -/

/-- The call of the second search for `newRegion` at offset `y`, if an old
region with data is around the address. -/
def secondCall (data : Bytes) (prevSize : Nat) (olds : List Region) (newRegion : Region) (y : Nat) :
    Option EvalCall :=
  (locate Region.addr Region.bearingEnd (newRegion.addr + y) olds).map fun old =>
    callAt data prevSize newRegion old (newRegion.addr + y) y (newRegion.addr + y - old.addr)

def regionPlan₂ (fieldSize : Nat) (data : Bytes) (prevSize : Nat) (olds : List Region)
    (newRegion : Region) : List EvalCall :=
  if newRegion.data.isEmpty then []
  else (strides fieldSize newRegion.size 0).filterMap (secondCall data prevSize olds newRegion)

def secondPlan (fieldSize : Nat) (data : Bytes) (prevSize : Nat) (news olds : List Region) :
    List EvalCall :=
  news.flatMap (regionPlan₂ fieldSize data prevSize olds)

theorem secondPlan_cons (newRegion : Region) (news olds : List Region) :
    secondPlan fieldSize data prevSize (newRegion :: news) olds =
      regionPlan₂ fieldSize data prevSize olds newRegion ++
        secondPlan fieldSize data prevSize news olds := rfl

/-- The predicate of the second search's inner loop is the cursor that passes
over regions without data. -/
theorem dropWhile_bearing (a : Nat) (l : List Region) :
    (l.dropWhile fun old => old.data.isEmpty || decide (old.endAddr ≤ a)) =
      seek Region.bearingEnd a l := by
  unfold seek
  congr 1
  funext old
  unfold Region.bearingEnd
  by_cases h : old.data.isEmpty = true <;> simp [h]

/-! One iteration of the inner loop: past the end, out of old regions, before the
next old region, inside it. -/

section Step

variable {newRegion old : Region} {fuel y : Nat} {olds rest : List Region} {results : List Nat}

theorem scanRegion_done (hy : ¬ y < newRegion.size) :
    scanRegion ev fieldSize data prevSize newRegion (fuel + 1) y olds results =
      pure (olds, results) := by
  rw [scanRegion, if_neg hy]

theorem scanRegion_exhausted (hd : newRegion.HasData) (hy : y < newRegion.size)
    (hs : seek Region.bearingEnd (newRegion.addr + y) olds = []) :
    scanRegion ev fieldSize data prevSize newRegion (fuel + 1) y olds results =
      pure ([], results) := by
  have hfits := newRegion.fits
  rw [scanRegion, if_pos hy, if_neg (Region.hasData_iff.mp hd), dropWhile_bearing,
    add64_eq (by omega), hs]

theorem scanRegion_skip (hd : newRegion.HasData) (hy : y < newRegion.size)
    (hs : seek Region.bearingEnd (newRegion.addr + y) olds = old :: rest)
    (hlt : newRegion.addr + y < old.addr) :
    scanRegion ev fieldSize data prevSize newRegion (fuel + 1) y olds results =
      scanRegion ev fieldSize data prevSize newRegion fuel (old.addr - newRegion.addr)
        (old :: rest) results := by
  have hfits := newRegion.fits
  have holt := old.addr_lt
  -- the increment takes back the field that was subtracted
  have hjump : add64 (sub64 (sub64 old.addr newRegion.addr) fieldSize) fieldSize =
      old.addr - newRegion.addr := by
    rw [sub64_eq holt (by omega)]
    unfold add64 sub64
    omega
  rw [scanRegion, if_pos hy, if_neg (Region.hasData_iff.mp hd), dropWhile_bearing,
    add64_eq (by omega), hs]
  dsimp only
  rw [if_pos hlt, hjump]

theorem scanRegion_compare (hd : newRegion.HasData) (hy : y < newRegion.size)
    (hnext : y + fieldSize < 2 ^ 64)
    (hs : seek Region.bearingEnd (newRegion.addr + y) olds = old :: rest)
    (hle : old.addr ≤ newRegion.addr + y) :
    scanRegion ev fieldSize data prevSize newRegion (fuel + 1) y olds results =
      query (EvalCall.test ev) (callAt data prevSize newRegion old (newRegion.addr + y) y
        (newRegion.addr + y - old.addr)) >>= fun hit =>
      scanRegion ev fieldSize data prevSize newRegion fuel (y + fieldSize) (old :: rest)
        (if hit then results ++ [newRegion.addr + y] else results) := by
  have hfits := newRegion.fits
  rw [scanRegion, if_pos hy, if_neg (Region.hasData_iff.mp hd), dropWhile_bearing,
    add64_eq (by omega), hs]
  dsimp only
  rw [if_neg (Nat.not_lt.mpr hle), sub64_eq (by omega) hle, add64_eq hnext]

end Step

theorem secondCalls_eq_nil {memory : List Region} {newRegion : Region} {l : List Nat}
    (hmem : Tiled Region.addr Region.bearingEnd memory)
    (h : ∀ z ∈ l, ∀ old ∈ memory, ¬ Covers Region.addr Region.bearingEnd old (newRegion.addr + z)) :
    l.filterMap (secondCall data prevSize memory newRegion) = [] := by
  rw [List.filterMap_eq_nil_iff]
  intro z hz
  rw [secondCall, hmem.locate_eq_none_iff.mpr (h z hz)]
  rfl

theorem secondCalls_skip {memory rest : List Region} {newRegion old : Region} {y : Nat}
    (hw : 0 < fieldSize) (hmem : Tiled Region.addr Region.bearingEnd memory)
    (hseek : seek Region.bearingEnd (newRegion.addr + y) memory = old :: rest)
    (hlt : newRegion.addr + y < old.addr) (hda : fieldSize ∣ old.addr - newRegion.addr)
    (hdy : fieldSize ∣ y) :
    (strides fieldSize newRegion.size y).filterMap (secondCall data prevSize memory newRegion) =
      (strides fieldSize newRegion.size (old.addr - newRegion.addr)).filterMap
        (secondCall data prevSize memory newRegion) := by
  obtain ⟨l, hl, hgap⟩ := strides_jump (n := newRegion.size) hw
    (show y ≤ old.addr - newRegion.addr by omega) (Nat.dvd_sub hda hdy)
  have hnone : l.filterMap (secondCall data prevSize memory newRegion) = [] :=
    secondCalls_eq_nil hmem fun z hz => by
      have := hgap z hz
      exact hmem.not_covers_gap hseek (by omega) (by omega)
  rw [hl, List.filterMap_append, hnone, List.nil_append]

theorem secondCall_of_seek {memory rest : List Region} {newRegion old : Region} {y : Nat}
    (hseek : seek Region.bearingEnd (newRegion.addr + y) memory = old :: rest)
    (hle : old.addr ≤ newRegion.addr + y) : secondCall data prevSize memory newRegion y =
      some (callAt data prevSize newRegion old (newRegion.addr + y) y
        (newRegion.addr + y - old.addr)) := by
  rw [secondCall, locate_of_seek_cons hseek, if_pos hle]
  rfl

/-- The scan of one new region with data is `collect` over its plan, and leaves
the cursor ahead of the next region. -/
theorem scanRegion_eq {memory : List Region} {newRegion : Region} (hw : 0 < fieldSize)
    (hmem : Tiled Region.addr Region.bearingEnd memory)
    (hal : ∀ old ∈ memory, fieldSize ∣ old.addr) (hna : fieldSize ∣ newRegion.addr)
    (hns : fieldSize ∣ newRegion.size) (hdata : newRegion.HasData) :
    ∀ {fuel y : Nat} {olds : List Region}, newRegion.size - y < fuel →
      fieldSize ∣ y → y ≤ newRegion.size →
      Ahead Region.bearingEnd memory (newRegion.addr + y) olds →
      ∃ olds', Ahead Region.bearingEnd memory (newRegion.addr + newRegion.size) olds' ∧ ∀ results,
        scanRegion ev fieldSize data prevSize newRegion fuel y olds results =
          (collect none (EvalCall.test ev) EvalCall.addr
            ((strides fieldSize newRegion.size y).filterMap
              (secondCall data prevSize memory newRegion)) results >>=
            fun r => pure (olds', r)) := by
  have hsize := newRegion.size_lt
  intro fuel
  induction fuel with
  | zero => intro y olds h; omega
  | succ fuel ih =>
    intro y olds h hdy hle hah
    by_cases hy : y < newRegion.size
    · have hstep : y + fieldSize ≤ newRegion.size := by
        have := Nat.le_of_dvd (by omega) (Nat.dvd_sub hns hdy)
        omega
      have hcur : seek Region.bearingEnd (newRegion.addr + y) olds =
          seek Region.bearingEnd (newRegion.addr + y) memory := hah _ (le_refl _)
      have hkeep := hah.seek
      cases hs : seek Region.bearingEnd (newRegion.addr + y) olds with
      | nil =>
        -- no old region is left: nothing from here on has one
        rw [hs] at hcur hkeep
        refine ⟨[], hkeep.mono (by omega), fun results => ?_⟩
        rw [scanRegion_exhausted hdata hy hs, secondCalls_eq_nil hmem fun z hz => ?_]
        · rfl
        · have := ((mem_strides hw).mp hz).1
          exact not_covers_of_seek_nil hcur.symm (by omega)
      | cons old rest =>
        rw [hs] at hcur hkeep
        have hold : old ∈ memory := mem_of_seek hcur.symm
        by_cases hlt : newRegion.addr + y < old.addr
        · -- skip to the start of `old`; the strides in between have no old region
          have hda : fieldSize ∣ old.addr - newRegion.addr := Nat.dvd_sub (hal old hold) hna
          rw [secondCalls_skip hw hmem hcur.symm hlt hda hdy]
          rcases Nat.lt_or_ge (old.addr - newRegion.addr) newRegion.size with hin | hout
          · have hle : newRegion.addr + y ≤ newRegion.addr + (old.addr - newRegion.addr) := by omega
            obtain ⟨olds', hah', heq⟩ := ih (by omega) hda (by omega) (hkeep.mono hle)
            exact ⟨olds', hah', fun results => by rw [scanRegion_skip hdata hy hs hlt, heq]⟩
          · -- `old` starts past the end of the new region
            refine ⟨old :: rest, hkeep.mono (by omega), fun results => ?_⟩
            obtain ⟨fuel, rfl⟩ : ∃ k, fuel = k + 1 := ⟨fuel - 1, by omega⟩
            rw [scanRegion_skip hdata hy hs hlt, scanRegion_done (by omega),
              strides_of_le hw hout]
            rfl
        · obtain ⟨olds', hah', heq⟩ := ih (by omega) (hdy.add (dvd_refl _)) hstep
            (hkeep.mono (show newRegion.addr + y ≤ newRegion.addr + (y + fieldSize) by omega))
          refine ⟨olds', hah', fun results => ?_⟩
          rw [scanRegion_compare hdata hy (by omega) hs (by omega), strides_of_lt hw hy,
            List.filterMap_cons_some (secondCall_of_seek hcur.symm (by omega)), collect_cons rfl,
            bind_assoc]
          exact bind_congr fun hit => heq _
    · have hyeq : y = newRegion.size := by omega
      refine ⟨olds, by rw [← hyeq]; exact hah, fun results => ?_⟩
      rw [scanRegion_done hy, strides_of_le hw (by omega)]
      rfl

theorem scanRegion_empty {newRegion : Region} (hw : 0 < fieldSize)
    (hns : fieldSize ∣ newRegion.size) (hdata : ¬ newRegion.HasData) (olds : List Region)
    (results : List Nat) :
    ∀ {fuel y : Nat}, newRegion.size - y < fuel → fieldSize ∣ y → y ≤ newRegion.size →
      scanRegion ev fieldSize data prevSize newRegion fuel y olds results =
        pure (olds, results) := by
  have hsize := newRegion.size_lt
  intro fuel
  induction fuel with
  | zero => intro y h; omega
  | succ fuel ih =>
    intro y h hdy hle
    by_cases hy : y < newRegion.size
    · have hstep : fieldSize ≤ newRegion.size - y :=
        Nat.le_of_dvd (by omega) (Nat.dvd_sub hns hdy)
      rw [scanRegion, if_pos hy, if_pos (Region.isEmpty_of_not_hasData hdata),
        show add64 y fieldSize = y + fieldSize from add64_eq (by omega)]
      exact ih (by omega) (hdy.add (dvd_refl _)) (by omega)
    · exact scanRegion_done hy

/-- The second search is `collect` over its plan. -/
theorem secondScan_eq {memory : List Region} (hw : 0 < fieldSize) (hmem : WellFormed memory)
    (hal : ∀ old ∈ memory, fieldSize ∣ old.addr) :
    ∀ {news olds : List Region} {a : Nat}, WellFormed news → Aligned fieldSize news →
      Ahead Region.bearingEnd memory a olds → (∀ r ∈ news, r.HasData → a ≤ r.addr) → ∀ results,
      secondScan ev fieldSize data prevSize news olds results =
        collect none (EvalCall.test ev) EvalCall.addr
          (secondPlan fieldSize data prevSize news memory) results := by
  intro news
  induction news with
  | nil => intros; rfl
  | cons newRegion news ih =>
    intro olds a hnews hna hah hge results
    have htail := hnews.sublist (List.sublist_cons_self newRegion news)
    have hna' : Aligned fieldSize news := fun r hr => hna r (List.mem_cons_of_mem _ hr)
    obtain ⟨hda, hds⟩ := hna newRegion List.mem_cons_self
    rw [secondScan, secondPlan_cons, collect_append]
    by_cases hdata : newRegion.HasData
    · obtain ⟨olds', hah', heq⟩ := scanRegion_eq hw hmem.tiledBearing hal hda hds hdata
        (show newRegion.size - 0 < newRegion.size + 1 by omega) (dvd_zero _) (Nat.zero_le _)
        (hah.mono (hge newRegion List.mem_cons_self hdata))
      rw [heq, bind_assoc, regionPlan₂, if_neg (Region.hasData_iff.mp hdata)]
      refine bind_congr fun r => ?_
      rw [pure_bind]
      exact ih htail hna' hah' ((List.pairwise_cons.mp hnews.apart).1) r
    · rw [scanRegion_empty hw hds hdata olds results (by omega) (dvd_zero _) (Nat.zero_le _),
        pure_bind, regionPlan₂, if_pos (Region.isEmpty_of_not_hasData hdata)]
      exact ih htail hna' hah (fun r hr => hge r (List.mem_cons_of_mem _ hr)) results

/-! ## Later searches -/

/-- The call about an existing result, if it lies in regions of both snapshots
and the new one was read. -/
def verifyCall (data : Bytes) (prevSize : Nat) (news olds : List Region) (a : Nat) :
    Option EvalCall :=
  match locate Region.addr Region.endAddr a news, locate Region.addr Region.endAddr a olds with
  | some newRegion, some oldRegion =>
    if newRegion.data.isEmpty then none
    else some (callAt data prevSize newRegion oldRegion a (a - newRegion.addr) (a - oldRegion.addr))
  | _, _ => none

def verifyPlan (data : Bytes) (prevSize : Nat) (news olds : List Region) (results : List Nat) :
    List EvalCall :=
  results.filterMap (verifyCall data prevSize news olds)

theorem addr_of_verifyCall {news olds : List Region} {a : Nat} {c : EvalCall}
    (h : verifyCall data prevSize news olds a = some c) : c.addr = a := by
  unfold verifyCall at h
  split at h
  · split at h
    · cases h
    · cases h; rfl
  · cases h

theorem markDeleted_cons {news olds : List Region} {result : Nat} (hlt : result < 2 ^ 64)
    (results : List Nat) :
    markDeleted ev data prevSize news olds (result :: results) =
      (match verifyCall data prevSize news olds result with
        | none => pure 0
        | some c => query (EvalCall.test ev) c >>= fun hit => pure (if hit then result else 0)) >>=
      fun mark => markDeleted ev data prevSize (seek Region.endAddr result news)
        (seek Region.endAddr result olds) results >>= fun marks => pure (mark :: marks) := by
  have hseek : ∀ l : List Region,
      (l.dropWhile fun r => decide (r.endAddr ≤ result)) = seek Region.endAddr result l :=
    fun _ => rfl
  rw [markDeleted]
  simp only [hseek]
  unfold verifyCall
  cases hn : seek Region.endAddr result news with
  | nil => rw [locate_of_seek_nil hn]
  | cons newRegion news' =>
    cases ho : seek Region.endAddr result olds with
    | nil =>
      rw [locate_of_seek_cons hn, locate_of_seek_nil ho]
      split_ifs <;> rfl
    | cons oldRegion olds' =>
      rw [locate_of_seek_cons hn, locate_of_seek_cons ho]
      by_cases hna : newRegion.addr ≤ result
      · by_cases hoa : oldRegion.addr ≤ result
        · simp only [if_pos hna, if_pos hoa, sub64_eq hlt hna, sub64_eq hlt hoa,
            if_neg (show ¬ (newRegion.addr > result ∨ oldRegion.addr > result) by omega)]
          by_cases hd : newRegion.data.isEmpty <;> simp [hd]
        · simp only [if_pos hna, if_neg hoa,
            if_pos (show newRegion.addr > result ∨ oldRegion.addr > result by omega)]
      · have hgt : newRegion.addr > result ∨ oldRegion.addr > result := by omega
        simp only [if_neg hna, if_pos hgt]

/-- The verification of ascending results is `collect` over its plan, followed by
the deletion of a result at `0`. -/
theorem markDeleted_eq {news olds : List Region} :
    ∀ {results : List Nat} {news' olds' : List Region} {a : Nat},
      results.Pairwise (· ≤ ·) → (∀ b ∈ results, a ≤ b ∧ b < 2 ^ 64) →
      Ahead Region.endAddr news a news' → Ahead Region.endAddr olds a olds' →
      (markDeleted ev data prevSize news' olds' results >>=
          fun marks => pure (removeDeleted marks)) =
        (collect none (EvalCall.test ev) EvalCall.addr
          (verifyPlan data prevSize news olds results) [] >>= fun l => pure (removeDeleted l)) := by
  intro results
  induction results with
  | nil => intros; rfl
  | cons result results ih =>
    intro news' olds' a hasc hb hnews holds
    obtain ⟨hle, hlt⟩ := hb result List.mem_cons_self
    obtain ⟨hhead, htail⟩ := List.pairwise_cons.mp hasc
    have hcall : verifyCall data prevSize news' olds' result =
        verifyCall data prevSize news olds result := by
      unfold verifyCall
      rw [hnews.locate hle, holds.locate hle]
    have hrest := ih htail (fun b hbr => ⟨hhead b hbr, (hb b (List.mem_cons_of_mem _ hbr)).2⟩)
      (hnews.mono hle).seek (holds.mono hle).seek
    have hmark : ∀ mark : Nat,
        (markDeleted ev data prevSize (seek Region.endAddr result news')
          (seek Region.endAddr result olds') results >>= fun marks =>
            pure (removeDeleted (mark :: marks))) =
        (collect none (EvalCall.test ev) EvalCall.addr
          (verifyPlan data prevSize news olds results) [] >>=
            fun l => pure (removeDeleted (mark :: l))) := by
      intro mark
      have := congrArg (fun x : Scan (List Nat) =>
        (x >>= fun l => pure (removeDeleted [mark] ++ l) : Scan (List Nat))) hrest
      simpa [bind_assoc, removeDeleted, ← List.filter_append] using this
    rw [markDeleted_cons hlt, hcall, bind_assoc]
    unfold verifyPlan
    cases hc : verifyCall data prevSize news olds result with
    | none =>
      rw [List.filterMap_cons_none hc]
      simp only [pure_bind, bind_assoc, hmark]
      exact bind_congr fun l => by simp [removeDeleted]
    | some c =>
      rw [List.filterMap_cons_some hc, collect_cons rfl]
      simp only [pure_bind, bind_assoc, hmark]
      refine bind_congr fun hit => ?_
      rw [collect_acc _ (if hit then [] ++ [c.addr] else []), bind_assoc]
      refine bind_congr fun l => ?_
      cases hit <;> simp [removeDeleted, addr_of_verifyCall hc]

end MemorySearch
end Memwatch
