import Memwatch.Search.Invariant

/-!
# The width of a comparison without a value

An update that is given no value compares `prevSize` bytes. Every update but the
initial `all` search overwrites `prevSize` with the length of its own value, so
it is the width last searched for only right after an update that gave a value.
-/

namespace Memwatch

open Lib Traced

namespace MemorySearch

/-! ## Calls on any snapshots -/

section Calls

variable {ev : Evaluator} {fieldSize prevSize : Nat} {data : Bytes} {newRegion : Region}
  {news olds : List Region} {c : EvalCall}

/-- A comparison of a region of `news` with the value or a region of `olds`. -/
def IsCallAt (data : Bytes) (prevSize : Nat) (news olds : List Region) (c : EvalCall) : Prop :=
  ∃ r ∈ news, ∃ o ∈ olds, ∃ a y z, c = callAt data prevSize r o a y z

theorem IsCallAt.mono {news' olds' : List Region} (h : IsCallAt data prevSize news olds c)
    (hn : news ⊆ news') (ho : olds ⊆ olds') : IsCallAt data prevSize news' olds' c := by
  obtain ⟨r, hr, o, ho', hc⟩ := h
  exact ⟨r, hn hr, o, ho ho', hc⟩

theorem dropWhile_subset {α : Type} {p : α → Bool} {l l' : List α} {a : α}
    (h : l.dropWhile p = a :: l') : a :: l' ⊆ l := by
  rw [← h]; exact (List.dropWhile_suffix p).subset

/-- The scan of a region compares it with old regions, and goes on with a rest of them. -/
theorem scanRegion_calls {fuel y : Nat} {results : List Nat} :
    (∀ c ∈ (scanRegion ev fieldSize data prevSize newRegion fuel y olds results).events,
      IsCallAt data prevSize [newRegion] olds c) ∧
    ∀ rest l, (scanRegion ev fieldSize data prevSize newRegion fuel y olds results).result =
      .ok (rest, l) → rest ⊆ olds := by
  induction fuel generalizing y olds results with
  | zero =>
    constructor
    · intro c hc
      cases hc
    · intro rest l h
      cases h
  | succ fuel ih =>
    rw [scanRegion]
    split
    · split
      · exact ih
      · split
        · constructor
          · intro c hc
            cases hc
          · intro rest l h
            cases h
            apply List.nil_subset
        · next oldRegion rest hs =>
          have hsub := dropWhile_subset hs
          split
          · exact ⟨fun c hc => (ih.1 c hc).mono (List.Subset.refl _) hsub,
              fun rest' l h => List.Subset.trans (ih.2 rest' l h) hsub⟩
          · constructor
            · intro c hc
              rcases mem_events_bind.mp hc with hc | ⟨hit, -, hc⟩
              · rw [List.mem_singleton.mp hc]
                exact ⟨newRegion, List.mem_singleton_self _, oldRegion, hsub List.mem_cons_self,
                  _, _, _, rfl⟩
              · exact (ih.1 c hc).mono (List.Subset.refl _) hsub
            · intro rest' l h
              obtain ⟨hit, -, h⟩ := bind_eq_ok h
              exact List.Subset.trans (ih.2 rest' l h) hsub
    · constructor
      · intro c hc
        cases hc
      · intro rest l h
        cases h
        apply List.Subset.refl

theorem secondScan_calls {results : List Nat} :
    ∀ c ∈ (secondScan ev fieldSize data prevSize news olds results).events,
      IsCallAt data prevSize news olds c := by
  induction news generalizing olds results with
  | nil => exact nofun
  | cons r news ih =>
    intro c hc
    rw [secondScan] at hc
    rcases mem_events_bind.mp hc with hc | ⟨⟨rest, l⟩, hok, hc⟩
    · exact (scanRegion_calls.1 c hc).mono (by simp) (List.Subset.refl _)
    · exact (ih c hc).mono (List.subset_cons_self _ _) (scanRegion_calls.2 rest l hok)

theorem markDeleted_calls {results : List Nat} :
    ∀ c ∈ (markDeleted ev data prevSize news olds results).events,
      IsCallAt data prevSize news olds c := by
  induction results generalizing news olds with
  | nil => exact nofun
  | cons result results ih =>
    intro c hc
    -- whatever the mark, the rest asks about the rests of the regions
    have hrest : ∀ mark : Nat, c ∈ (markDeleted ev data prevSize
        (news.dropWhile fun r => decide (r.endAddr ≤ result))
        (olds.dropWhile fun r => decide (r.endAddr ≤ result)) results >>= fun marks =>
          pure (mark :: marks)).events → IsCallAt data prevSize news olds c := by
      intro mark hm
      rw [events_bind_pure] at hm
      exact (ih c hm).mono (List.dropWhile_suffix _).subset (List.dropWhile_suffix _).subset
    rw [markDeleted] at hc
    split at hc
    · next newRegion _ oldRegion _ hn ho =>
      split at hc
      · exact hrest 0 hc
      · split at hc
        · exact hrest 0 hc
        · rcases mem_events_bind.mp hc with hc | ⟨hit, -, hc⟩
          · rw [List.mem_singleton.mp hc]
            exact ⟨newRegion, dropWhile_subset hn List.mem_cons_self, oldRegion,
              dropWhile_subset ho List.mem_cons_self, _, _, _, rfl⟩
          · exact hrest _ hc
    · exact hrest 0 hc

end Calls

/-! ## What an update remembers -/

variable [Phosg] {s s' : MemorySearch} {u : Update} {pre : List Update} {allMemory : Bool}

theorem update_calls {memory : List Region} (hm : s.memory = some memory) :
    ∀ c ∈ (s.update u.newMemory u.predicate u.data u.maxResults).events,
      IsCallAt u.data s.prevSize u.newMemory memory c := by
  intro c hc
  unfold MemorySearch.update at hc
  split at hc
  · cases hc
  · cases hc
  · simp only [hm] at hc
    split at hc
    · rw [events_bind_pure] at hc
      exact secondScan_calls c hc
    · rw [events_bind_pure] at hc
      exact markDeleted_calls c hc

/-- An update overwrites `prevSize`, unless it is the initial `all` search. -/
theorem prevSize_of_update
    (h : (s.update u.newMemory u.predicate u.data u.maxResults).result = .ok s') :
    s'.prevSize = if s.memory = none ∧ u.predicate = .all then s.prevSize else u.data.length := by
  unfold MemorySearch.update at h
  split at h
  · cases h
  · cases h
  · split at h
    · next hm =>
      split at h
      · next hp => cases h; rw [if_pos ⟨hm, hp⟩]
      · next hp =>
        obtain ⟨_, -, h⟩ := bind_eq_ok h
        cases h
        rw [if_neg fun hc => hp hc.2]; rfl
    · next memory hm =>
      rw [if_neg fun hc => by rw [hm] at hc; cases hc.1]
      split at h <;> (obtain ⟨_, -, h⟩ := bind_eq_ok h; cases h; rfl)

theorem runUpdates_append {ups vps : List Update} :
    runUpdates s (ups ++ vps) = runUpdates s ups >>= fun s => runUpdates s vps := by
  induction ups generalizing s with
  | nil => rw [List.nil_append, runUpdates, pure_bind]
  | cons u ups ih =>
    rw [List.cons_append, runUpdates, runUpdates, bind_assoc]
    exact bind_congr fun _ => ih

theorem runUpdates_concat {w : Update} (h : (runUpdates s (pre ++ [w])).result = .ok s') :
    ∃ s₁, (runUpdates s pre).result = .ok s₁ ∧
      (s₁.update w.newMemory w.predicate w.data w.maxResults).result = .ok s' := by
  rw [runUpdates_append] at h
  obtain ⟨s₁, h₁, h⟩ := bind_eq_ok h
  obtain ⟨s₂, h₂, h⟩ := bind_eq_ok h
  cases h
  exact ⟨s₁, h₁, h₂⟩

theorem memory_of_runUpdates (hs : s.memory = none) (h : (runUpdates s pre).result = .ok s') :
    s'.memory = pre.getLast?.map Update.newMemory := by
  rcases List.eq_nil_or_concat' pre with rfl | ⟨pre, w, rfl⟩
  · cases h; exact hs
  · obtain ⟨s₁, -, h₂⟩ := runUpdates_concat h
    rw [memory_of_update h₂, List.getLast?_concat]; rfl

/-! ## The width -/

def lastValue (pre : List Update) : Option Bytes :=
  (pre.map Update.data).reverse.find? fun v => !v.isEmpty

omit [Phosg] in
theorem lastValue_concat {w : Update} (h : w.data ≠ []) : lastValue (pre ++ [w]) = some w.data := by
  rw [lastValue, List.map_append, List.reverse_append]
  exact List.find?_cons_of_pos (by simpa using h)

/-- The last update gave a value and was not the initial `all` search. -/
def JustSearched (pre : List Update) : Prop :=
  ∃ pre' w, pre = pre' ++ [w] ∧ w.data ≠ [] ∧ (pre' = [] → w.predicate ≠ .all)

/-- The call compares `n` bytes of the new snapshot with bytes of the previous one. -/
def ComparesWidth (n : Nat) (pre : List Update) (u : Update) (c : EvalCall) : Prop :=
  c.size = n ∧ (∃ r ∈ u.newMemory, c.current.base = .region r) ∧
    ∃ w, pre.getLast? = some w ∧ ∃ o ∈ w.newMemory, c.target.base = .region o

theorem prevSize_of_run {T : SearchType} {w : Update}
    (h : (runUpdates (new T allMemory) (pre ++ [w])).result = .ok s) :
    s.prevSize = if pre = [] ∧ w.predicate = .all then 0 else w.data.length := by
  obtain ⟨s₁, h₁, h₂⟩ := runUpdates_concat h
  have hmem := memory_of_runUpdates rfl h₁
  have hnone : s₁.memory = none ↔ pre = [] := by
    rw [hmem, Option.map_eq_none_iff, List.getLast?_eq_none_iff]
  rw [prevSize_of_update h₂]
  by_cases hfirst : pre = [] ∧ w.predicate = .all
  · rw [if_pos hfirst, if_pos ⟨hnone.mpr hfirst.1, hfirst.2⟩]
    obtain ⟨rfl, -⟩ := hfirst
    cases h₁
    rfl
  · rw [if_neg hfirst, if_neg fun hall => hfirst ⟨hnone.mp hall.1, hall.2⟩]

/-- An update without a value compares the width last searched for right after an
update that gave it, and nothing at all otherwise. -/
theorem width_after_run {v : Bytes} (hrun : (runUpdates (new .data allMemory) pre).result = .ok s)
    (hu : u.data = []) (hv : lastValue pre = some v) :
    (JustSearched pre → ∀ c ∈ (s.update u.newMemory u.predicate u.data u.maxResults).events,
      ComparesWidth v.length pre u c) ∧
    (¬ JustSearched pre →
      ∀ c ∈ (s.update u.newMemory u.predicate u.data u.maxResults).events, c.size = 0) := by
  rcases List.eq_nil_or_concat' pre with rfl | ⟨pre, w, rfl⟩
  · cases hv
  · have hprev := prevSize_of_run hrun
    have hmem : s.memory = some w.newMemory := by
      rw [memory_of_runUpdates rfl hrun, List.getLast?_concat]; rfl
    have hjust : JustSearched (pre ++ [w]) ↔ w.data ≠ [] ∧ (pre = [] → w.predicate ≠ .all) := by
      constructor
      · rintro ⟨pre', w', heq, hw⟩
        obtain ⟨rfl, h⟩ := List.append_inj' heq rfl
        cases h
        exact hw
      · exact fun hw => ⟨pre, w, rfl, hw⟩
    rw [hjust]
    constructor
    · rintro ⟨hw, hfirst⟩ c hc
      rw [lastValue_concat hw, Option.some.injEq] at hv
      obtain ⟨r, hr, o, ho, a, y, z, rfl⟩ := update_calls hmem c hc
      rw [if_neg fun hall => hfirst hall.1 hall.2, hv] at hprev
      rw [hu, hprev]
      exact ⟨rfl, ⟨r, hr, rfl⟩, w, List.getLast?_concat, o, ho, rfl⟩
    · intro hnot c hc
      obtain ⟨r, hr, o, ho, a, y, z, rfl⟩ := update_calls hmem c hc
      rw [hu]
      show s.prevSize = 0
      rw [hprev]
      split
      · rfl
      · next hall =>
        by_contra hne
        exact hnot ⟨fun hw => hne (by rw [hw]; rfl), fun hpre hp => hall ⟨hpre, hp⟩⟩

omit [Phosg] in
/-- Right after a search for one byte, one byte is compared. -/
theorem width_after_value :
    let _ := bytewisePhosg
    ∃ s, (runUpdates (new .data true) [⟨[twoBytes 1 2], .equal, [1], 1⟩]).result = .ok s ∧
      ∀ c ∈ (s.update [twoBytes 3 2] .greater [] 0).events,
        ComparesWidth 1 [⟨[twoBytes 1 2], .equal, [1], 1⟩] ⟨[twoBytes 3 2], .greater, [], 0⟩ c := by
  intro _
  have hrun : (runUpdates (new .data true) [⟨[twoBytes 1 2], .equal, [1], 1⟩]).result = .ok _ := rfl
  have hwidth := width_after_run (u := ⟨[twoBytes 3 2], .greater, [], 0⟩) (v := [1]) hrun rfl rfl
  exact ⟨_, hrun, hwidth.1 ⟨[], _, rfl, by simp, by simp⟩⟩

omit [Phosg] in
/-- After another update without a value, nothing is compared any more. -/
theorem width_forgotten :
    let _ := bytewisePhosg
    ∃ s, (runUpdates (new .data true) [⟨[twoBytes 1 2], .equal, [1], 1⟩,
        ⟨[twoBytes 3 2], .greater, [], 0⟩]).result = .ok s ∧
      lastValue [⟨[twoBytes 1 2], .equal, [1], 1⟩, ⟨[twoBytes 3 2], .greater, [], 0⟩] = some [1] ∧
      s.checkCanUpdate .greater [] = .ok () ∧
      ¬ ∀ c ∈ (s.update [twoBytes 3 2] .greater [] 0).events,
        ComparesWidth 1 [⟨[twoBytes 1 2], .equal, [1], 1⟩, ⟨[twoBytes 3 2], .greater, [], 0⟩]
          ⟨[twoBytes 3 2], .greater, [], 0⟩ c := by
  intro _
  refine ⟨_, rfl, rfl, rfl, fun h => ?_⟩
  have hsize := (h (callAt [] 0 (twoBytes 3 2) (twoBytes 3 2) 0x1000 0 0) List.mem_cons_self).1
  exact absurd hsize (by decide)

end MemorySearch
end Memwatch
