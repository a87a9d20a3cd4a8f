import Memwatch.Freezer.Settle
import Memwatch.Freezer.Writer
import Memwatch.Lib.Cells

/-!
# Overlapping regions

A pass over plain regions writes them in the order of their numbers, so that a byte is left
with the newest region that covers it and is written.
-/

namespace Memwatch

open Lib

namespace RegionFreezer

/-- Memory, and for the writes to come which of them fail. -/
structure Scripted where
  fails : List Bool
  mem : Nat → UInt8

/-- A write that fails changes nothing. -/
def scriptedMemory : Adapter Scripted where
  read s addr size := .ok ((List.range size).map fun i => s.mem (addr + i))
  write s addr data :=
    match s.fails with
    | true :: fails => (.error "can't write", { s with fails := fails })
    | false :: fails => (.ok (), ⟨fails, writeBytes s.mem addr data⟩)
    | [] => (.ok (), ⟨[], writeBytes s.mem addr data⟩)
  stray _ _ := 0

/-- Which writes of a pass fail, when the ones of some regions do. -/
def script (s : RegionFreezer) (fails : Nat → Bool) (es : List (Nat × Nat)) : List Bool :=
  (es.filter fun e => (s.heap e.2).enable).map fun e => fails e.1

/-- One pass in which the writes of some regions fail. -/
def failingPass (s : RegionFreezer) (fails : Nat → Bool) (mem : Nat → UInt8) :
    RegionFreezer × (Nat → UInt8) :=
  let out := s.writePass scriptedMemory ⟨s.script fails s.regionsByIndex.entries, mem⟩
  (out.1, out.2.1.mem)

/-- The frozen regions are plain ones, below the top of the address space. -/
structure PlainRegions (s : RegionFreezer) : Prop extends Keyed s where
  plain : ∀ e ∈ s.regionsByIndex.entries, (s.heap e.2).items = none
  fits : ∀ e ∈ s.regionsByIndex.entries,
    (s.heap e.2).addr + (s.heap e.2).data.length < 2 ^ 64

/-- The region is enabled, its write succeeds, and it covers the byte. -/
def Lands (s : RegionFreezer) (fails : Nat → Bool) (a : Nat) (p : Nat) : Prop :=
  (s.heap p).enable = true ∧ fails (s.heap p).index = false ∧
    (s.heap p).addr ≤ a ∧ a < (s.heap p).addr + (s.heap p).data.length

/-- Every byte has the newest region that lands on it. -/
structure NewestWins (s : RegionFreezer) (fails : Nat → Bool) (mem mem' : Nat → UInt8) : Prop where
  newest : ∀ a, ∀ p ∈ s.regionsByIndex.entries.map Prod.snd, s.Lands fails a p →
    (∀ q ∈ s.regionsByIndex.entries.map Prod.snd, s.Lands fails a q →
      (s.heap q).index ≤ (s.heap p).index) →
    (s.heap p).data[a - (s.heap p).addr]? = some (mem' a)
  unchanged : ∀ a, (∀ p ∈ s.regionsByIndex.entries.map Prod.snd, ¬ s.Lands fails a p) →
    mem' a = mem a

/-! ## Passes as overlays -/

theorem writeBytes_eq_overlay (mem : Nat → UInt8) (r : Region) :
    writeBytes mem r.addr r.data = overlay mem (patchAt r.addr r.data) := by
  funext a
  unfold writeBytes overlay patchAt
  split <;> rfl

def landing (s : RegionFreezer) (fails : Nat → Bool) (es : List (Nat × Nat)) :
    List (Nat → Option UInt8) :=
  (es.filter fun e => (s.heap e.2).enable && !fails e.1).map fun e =>
    patchAt (s.heap e.2).addr (s.heap e.2).data

variable {s s' : RegionFreezer} {fails : Nat → Bool} {mem : Nat → UInt8}

theorem UpToErrors.script_eq (h : UpToErrors s s') (es : List (Nat × Nat)) :
    s'.script fails es = s.script fails es := by
  have henable : ∀ p, (s'.heap p).enable = (s.heap p).enable := fun p => by rw [h.region p]
  simp only [script, henable]

theorem UpToErrors.landing_eq (h : UpToErrors s s') (es : List (Nat × Nat)) :
    s'.landing fails es = s.landing fails es := by
  have henable : ∀ p, (s'.heap p).enable = (s.heap p).enable := fun p => by rw [h.region p]
  have haddr : ∀ p, (s'.heap p).addr = (s.heap p).addr := fun p => by rw [h.region p]
  have hdata : ∀ p, (s'.heap p).data = (s.heap p).data := fun p => by rw [h.region p]
  simp only [landing, henable, haddr, hdata]

theorem upToErrors_write {σ : Type} (A : Adapter σ) (s : RegionFreezer) (p : Nat) (mem : σ) :
    UpToErrors s { s with heap := Function.update s.heap p ((s.heap p).write A mem).1 } := by
  refine ⟨rfl, fun q => ?_⟩
  by_cases hq : q = p
  · subst hq
    obtain ⟨error, heq⟩ := write_frame A (s.heap q) mem
    simp only [UpToError, Function.update_self, heq]
  · simp only [Function.update_of_ne hq]
    exact UpToError.refl _

theorem writeEntry_of_disabled {σ : Type} {A : Adapter σ} {e : Nat × Nat} {mem : σ}
    {written : List Nat} (hon : ¬ (s.heap e.2).enable = true) :
    writeEntry A (s, mem, written) e = (s, mem, written) := by
  obtain ⟨k, p⟩ := e
  unfold writeEntry
  simp only [hon, if_false, Bool.false_eq_true]

theorem writeEntry_scripted {e : Nat × Nat} (mem : Nat → UInt8) (written : List Nat) (b : Bool)
    (bs : List Bool) (hon : (s.heap e.2).enable = true) (hplain : (s.heap e.2).items = none) :
    ∃ s', UpToErrors s s' ∧ writeEntry scriptedMemory (s, ⟨b :: bs, mem⟩, written) e =
      (s', ⟨bs, if b then mem else overlay mem (patchAt (s.heap e.2).addr (s.heap e.2).data)⟩,
        written ++ [e.2]) := by
  obtain ⟨k, p⟩ := e
  refine ⟨_, upToErrors_write scriptedMemory s p ⟨b :: bs, mem⟩, ?_⟩
  unfold writeEntry
  simp only [hon, if_true]
  unfold Region.write
  rw [hplain, ← writeBytes_eq_overlay]
  cases b <;> rfl

/-- A pass lays the writes that succeed over the memory, in the order of the regions. -/
theorem foldl_writeEntry_scripted {es : List (Nat × Nat)} (written : List Nat)
    (hplain : ∀ e ∈ es, (s.heap e.2).items = none) :
    UpToErrors s (es.foldl (writeEntry scriptedMemory) (s, ⟨s.script fails es, mem⟩, written)).1 ∧
      (es.foldl (writeEntry scriptedMemory) (s, ⟨s.script fails es, mem⟩, written)).2.1.mem =
        overlayAll mem (s.landing fails es) := by
  induction es generalizing s mem written with
  | nil => exact ⟨UpToErrors.refl s, rfl⟩
  | cons e es ih =>
    have hes : ∀ d ∈ es, (s.heap d.2).items = none := fun d hd =>
      hplain d (List.mem_cons_of_mem _ hd)
    rw [List.foldl_cons]
    by_cases hon : (s.heap e.2).enable = true
    · have hscript : s.script fails (e :: es) = fails e.1 :: s.script fails es := by
        simp [script, hon]
      obtain ⟨s', hup, hstep⟩ := writeEntry_scripted mem written (fails e.1)
        (s.script fails es) hon (hplain e List.mem_cons_self)
      have hes' : ∀ d ∈ es, (s'.heap d.2).items = none := fun d hd => by
        rw [hup.region d.2]
        exact hes d hd
      rw [hscript, hstep, ← hup.script_eq]
      obtain ⟨hup', hmem⟩ := ih (written ++ [e.2]) hes'
      refine ⟨hup.trans hup', ?_⟩
      rw [hmem, hup.landing_eq]
      cases hf : fails e.1 with
      | true => simp [landing, hf]
      | false => simp [landing, hon, hf, overlayAll_cons]
    · have hscript : s.script fails (e :: es) = s.script fails es := by simp [script, hon]
      have hland : s.landing fails (e :: es) = s.landing fails es := by simp [landing, hon]
      rw [hscript, hland, writeEntry_of_disabled hon]
      exact ih written hes

theorem failingPass_spec (h : PlainRegions s) (fails : Nat → Bool) (mem : Nat → UInt8) :
    UpToErrors s (s.failingPass fails mem).1 ∧ (s.failingPass fails mem).2 =
      overlayAll mem (s.landing fails s.regionsByIndex.entries) :=
  foldl_writeEntry_scripted [] h.plain

/-! ## The newest region -/

theorem lands_of_landing (h : Keyed s) {a : Nat} {e : Nat × Nat}
    (he : e ∈ s.regionsByIndex.entries) (hnot : ¬ s.Lands fails a e.2)
    (hon : ((s.heap e.2).enable && !fails e.1) = true) :
    patchAt (s.heap e.2).addr (s.heap e.2).data a = none := by
  rw [Bool.and_eq_true, Bool.not_eq_true'] at hon
  refine patchAt_outside ?_
  by_contra hin
  exact hnot ⟨hon.1, by rw [(h.indexes e he).2]; exact hon.2, by omega⟩

theorem newestWins_failingPass (h : PlainRegions s) (fails : Nat → Bool) (mem : Nat → UInt8) :
    NewestWins s fails mem (s.failingPass fails mem).2 where
  newest a p hp hland hmax := by
    obtain ⟨e, he, rfl⟩ := List.mem_map.mp hp
    obtain ⟨before, after, hentries⟩ := List.append_of_mem he
    have hsorted := s.regionsByIndex.sorted
    rw [hentries] at hsorted
    obtain ⟨hon, hsucc, hlo, hhi⟩ := hland
    rw [(h.indexes e he).2] at hsucc
    have hlanding : s.landing fails s.regionsByIndex.entries =
        s.landing fails before ++
          patchAt (s.heap e.2).addr (s.heap e.2).data :: s.landing fails after := by
      rw [hentries]
      simp [landing, List.filter_append, hon, hsucc]
    have hbyte : patchAt (s.heap e.2).addr (s.heap e.2).data a =
        (s.heap e.2).data[a - (s.heap e.2).addr]? := if_pos hlo
    have hlt : a - (s.heap e.2).addr < (s.heap e.2).data.length := by omega
    rw [List.getElem?_eq_getElem hlt] at hbyte ⊢
    rw [(failingPass_spec h fails mem).2, hlanding, overlayAll_of_last hbyte]
    -- a later region that lands on the byte would have a higher number
    intro w hw
    obtain ⟨d, hd, rfl⟩ := List.mem_map.mp hw
    obtain ⟨hd, hdon⟩ := List.mem_filter.mp hd
    have hd' : d ∈ s.regionsByIndex.entries := by
      rw [hentries]
      exact List.mem_append_right _ (List.mem_cons_of_mem _ hd)
    refine lands_of_landing h.toKeyed hd' (fun hdland => ?_) hdon
    have hle := hmax d.2 (List.mem_map_of_mem hd') hdland
    rw [(h.indexes d hd').2, (h.indexes e he).2] at hle
    have := (List.pairwise_cons.mp (List.pairwise_append.mp hsorted).2.1).1 d hd
    omega
  unchanged a hnone := by
    rw [(failingPass_spec h fails mem).2]
    refine overlayAll_of_none fun w hw => ?_
    obtain ⟨e, he, rfl⟩ := List.mem_map.mp hw
    obtain ⟨he, hon⟩ := List.mem_filter.mp he
    exact lands_of_landing h.toKeyed he (hnone e.2 (List.mem_map_of_mem he)) hon

theorem PlainRegions.congr (h : PlainRegions s) (hup : UpToErrors s s')
    (hkeyed : Keyed s') : PlainRegions s' where
  toKeyed := hkeyed
  plain e he := by
    rw [hup.entries] at he
    rw [hup.region e.2]
    exact h.plain e he
  fits e he := by
    rw [hup.entries] at he
    rw [hup.region e.2]
    exact h.fits e he

/-- A pass over plain regions leaves every byte with the newest region that lands on it, and
the same pass again changes nothing. -/
theorem newest_freeze_wins (h : PlainRegions s) (fails : Nat → Bool) (mem : Nat → UInt8) :
    NewestWins s fails mem (s.failingPass fails mem).2 ∧
      ((s.failingPass fails mem).1.failingPass fails (s.failingPass fails mem).2).2 =
        (s.failingPass fails mem).2 := by
  refine ⟨newestWins_failingPass h fails mem, ?_⟩
  obtain ⟨hup, hmem⟩ := failingPass_spec h fails mem
  have hkeyed : Keyed (s.failingPass fails mem).1 :=
    h.toKeyed.flags (writePass_spec scriptedMemory s _).passes.toFlags
  rw [(failingPass_spec (h.congr hup hkeyed) fails _).2, hup.entries, hup.landing_eq, hmem]
  exact overlayAll_idem _ _

def overlapping : RegionFreezer := (new.freeze "a" 0x1000 [1, 2] true).freeze "b" 0x1001 [3, 4] true

theorem overlapping_plain : PlainRegions overlapping where
  toKeyed := (Covered.new.step (.freeze "a" 0x1000 [1, 2] true)).step
    (.freeze "b" 0x1001 [3, 4] true) |>.toKeyed
  plain e he := by
    have he : e ∈ [(0, 0), (1, 1)] := he
    fin_cases he <;> rfl
  fits e he := by
    have he : e ∈ [(0, 0), (1, 1)] := he
    fin_cases he <;> decide

/-- The write of the newer region fails. -/
theorem newest_freeze_wins_overlapping :
    NewestWins overlapping (fun i => i == 1) (fun _ => 0)
      (overlapping.failingPass (fun i => i == 1) fun _ => 0).2 ∧
    ((overlapping.failingPass (fun i => i == 1) fun _ => 0).1.failingPass (fun i => i == 1)
      (overlapping.failingPass (fun i => i == 1) fun _ => 0).2).2 =
        (overlapping.failingPass (fun i => i == 1) fun _ => 0).2 :=
  newest_freeze_wins overlapping_plain (fun i => i == 1) fun _ => 0

end RegionFreezer
end Memwatch
