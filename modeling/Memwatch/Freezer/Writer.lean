import Memwatch.Freezer.Indexes

/-!
# The write thread

Passes of the write thread between the shell's operations. A pass writes the
enabled regions of the index by number, which the other two cover, so whatever
an operation finds by name or address is out of the writer's reach afterwards.
-/

namespace Memwatch

open Lib

namespace RegionFreezer

variable {σ : Type} {A : Adapter σ} {s s' : RegionFreezer} {p : Nat} {mem : σ}

/-! ## One pass -/

theorem write_frame (A : Adapter σ) (r : Region) (mem : σ) :
    ∃ error, (r.write A mem).1 = { r with error := error } := by
  unfold Region.write
  split
  · split <;> exact ⟨_, rfl⟩
  · split
    · exact ⟨_, rfl⟩
    · split
      · exact ⟨_, rfl⟩
      · split <;> exact ⟨_, rfl⟩
      · exact ⟨_, rfl⟩

/-- A pass leaves the indexes and the flags as they are. -/
structure Passes (s s' : RegionFreezer) : Prop extends Flags s s' where
  enable : ∀ p, (s'.heap p).enable = (s.heap p).enable

theorem Passes.refl (s : RegionFreezer) : Passes s s :=
  ⟨⟨rfl, rfl, rfl, rfl, rfl, fun _ => rfl, fun _ => rfl, fun _ => rfl⟩, fun _ => rfl⟩

theorem Passes.trans {s'' : RegionFreezer} (h : Passes s s') (h' : Passes s' s'') :
    Passes s s'' where
  allocated := h'.allocated.trans h.allocated
  nextIndex := h'.nextIndex.trans h.nextIndex
  names := h'.names.trans h.names
  addrs := h'.addrs.trans h.addrs
  indexes := h'.indexes.trans h.indexes
  name p := (h'.name p).trans (h.name p)
  addr p := (h'.addr p).trans (h.addr p)
  index p := (h'.index p).trans (h.index p)
  enable p := (h'.enable p).trans (h.enable p)

theorem passes_write (A : Adapter σ) (s : RegionFreezer) (q : Nat) (mem : σ) :
    Passes s { s with heap := Function.update s.heap q ((s.heap q).write A mem).1 } := by
  obtain ⟨error, heq⟩ := write_frame A (s.heap q) mem
  have hupd : ∀ p, Function.update s.heap q ((s.heap q).write A mem).1 p = s.heap p ∨
      Function.update s.heap q ((s.heap q).write A mem).1 p = { s.heap p with error := error } := by
    intro p
    by_cases hp : p = q
    · subst hp; exact .inr (by rw [Function.update_self, heq])
    · exact .inl (Function.update_of_ne hp _ _)
  refine ⟨⟨rfl, rfl, rfl, rfl, rfl, fun p => ?_, fun p => ?_, fun p => ?_⟩, fun p => ?_⟩ <;>
    (rcases hupd p with h | h <;> simp only [h])

theorem passes_writeEntry (A : Adapter σ) (out : RegionFreezer × σ × List Nat) (e : Nat × Nat) :
    Passes out.1 (writeEntry A out e).1 := by
  obtain ⟨t, mem, written⟩ := out
  obtain ⟨i, q⟩ := e
  by_cases hen : (t.heap q).enable = true
  · simp only [writeEntry, hen, ↓reduceIte]
    exact passes_write A t q mem
  · simp only [writeEntry, hen, Bool.false_eq_true, ↓reduceIte]
    exact Passes.refl t

/-- A region that no enabled entry points to is left alone. -/
theorem heap_foldl_writeEntry (A : Adapter σ) {es : List (Nat × Nat)}
    (out : RegionFreezer × σ × List Nat)
    (hp : ∀ e ∈ es, (out.1.heap e.2).enable = true → e.2 ≠ p) :
    (es.foldl (writeEntry A) out).1.heap p = out.1.heap p := by
  induction es generalizing out with
  | nil => rfl
  | cons e es ih =>
    have hsame := passes_writeEntry A out e
    rw [List.foldl_cons, ih _ fun d hd hon =>
      hp d (List.mem_cons_of_mem _ hd) ((hsame.enable d.2).symm.trans hon)]
    have hne := hp e List.mem_cons_self
    obtain ⟨t, mem, written⟩ := out
    obtain ⟨i, q⟩ := e
    by_cases hen : (t.heap q).enable = true
    · simp only [writeEntry, hen, ↓reduceIte, Function.update_of_ne (hne hen).symm]
    · simp only [writeEntry, hen, Bool.false_eq_true, ↓reduceIte]

/-- What a pass from `s` has done so far: it wrote enabled regions of the index by
number. -/
structure PassFrom (s : RegionFreezer) (out : RegionFreezer × σ × List Nat) : Prop where
  passes : Passes s out.1
  written : ∀ p ∈ out.2.2, p ∈ s.regionsByIndex.entries.map Prod.snd ∧ (s.heap p).enable = true

theorem PassFrom.writeEntry {out : RegionFreezer × σ × List Nat} {e : Nat × Nat}
    (h : PassFrom s out) (he : e ∈ s.regionsByIndex.entries) : PassFrom s (writeEntry A out e) := by
  refine ⟨h.passes.trans (passes_writeEntry A out e), fun p hp => ?_⟩
  obtain ⟨t, mem, written⟩ := out
  obtain ⟨i, q⟩ := e
  by_cases hen : (t.heap q).enable = true
  · simp only [RegionFreezer.writeEntry, hen, ↓reduceIte] at hp
    rcases List.mem_append.mp hp with hp | hp
    · exact h.written p hp
    · rw [List.mem_singleton.mp hp]
      exact ⟨List.mem_map.mpr ⟨(i, q), he, rfl⟩, (h.passes.enable q).symm.trans hen⟩
  · simp only [RegionFreezer.writeEntry, hen, Bool.false_eq_true, ↓reduceIte] at hp
    exact h.written p hp

theorem writePass_spec (A : Adapter σ) (s : RegionFreezer) (mem : σ) :
    PassFrom s (s.writePass A mem) := by
  have key : ∀ (l : List (Nat × Nat)) (out : RegionFreezer × σ × List Nat),
      PassFrom s out → (∀ e ∈ l, e ∈ s.regionsByIndex.entries) →
      PassFrom s (l.foldl (RegionFreezer.writeEntry A) out) := by
    intro l
    induction l with
    | nil => exact fun out h _ => h
    | cons e l ih =>
      intro out h hl
      exact ih _ (h.writeEntry (hl e List.mem_cons_self))
        fun d hd => hl d (List.mem_cons_of_mem _ hd)
  apply key
  · exact ⟨Passes.refl s, fun p hp => absurd hp List.not_mem_nil⟩
  · exact fun e he => he

/-! ## Interleavings -/

/-- A step of the shell, of the write thread, or of the process, which may change
its memory to anything. -/
inductive Event (σ : Type) where
  | op (o : Op)
  | pass
  | process (mem : σ)

/-- One event, with the regions it writes. -/
def act (A : Adapter σ) (s : RegionFreezer) (mem : σ) : Event σ → RegionFreezer × σ × List Nat
  | .op o => (s.step o, mem, [])
  | .pass => s.writePass A mem
  | .process mem => (s, mem, [])

/-- A run, with the regions its passes write. -/
def exec (A : Adapter σ) (s : RegionFreezer) (mem : σ) :
    List (Event σ) → RegionFreezer × σ × List Nat
  | [] => (s, mem, [])
  | e :: events =>
    let (s, mem, written) := act A s mem e
    let (s, mem, rest) := exec A s mem events
    (s, mem, written ++ rest)

theorem exec_cons (e : Event σ) (events : List (Event σ)) :
    exec A s mem (e :: events) =
      ((exec A (act A s mem e).1 (act A s mem e).2.1 events).1,
        (exec A (act A s mem e).1 (act A s mem e).2.1 events).2.1,
        (act A s mem e).2.2 ++ (exec A (act A s mem e).1 (act A s mem e).2.1 events).2.2) := rfl

theorem Covered.act (h : Covered s) (e : Event σ) : Covered (act A s mem e).1 := by
  cases e with
  | op o => exact h.step o
  | pass => exact h.flags (writePass_spec A s mem).passes.toFlags
  | process mem => exact h

theorem Covered.exec (h : Covered s) (A : Adapter σ) (mem : σ) (events : List (Event σ)) :
    Covered (exec A s mem events).1 := by
  induction events generalizing s mem with
  | nil => exact h
  | cons e events ih => rw [exec_cons]; exact ih (h.act e) _

/-- A region stays what it is. -/
structure SameRegion (s s' : RegionFreezer) (p : Nat) : Prop where
  name : (s'.heap p).name = (s.heap p).name
  addr : (s'.heap p).addr = (s.heap p).addr
  index : (s'.heap p).index = (s.heap p).index

/-- Allocated regions stay, and come back into the index by number never. -/
theorem act_frame (A : Adapter σ) (mem : σ) (e : Event σ) (hp : p < s.allocated) :
    p < (act A s mem e).1.allocated ∧ SameRegion s (act A s mem e).1 p ∧
      (p ∈ (act A s mem e).1.regionsByIndex.entries.map Prod.snd →
        p ∈ s.regionsByIndex.entries.map Prod.snd) := by
  have hflags : ∀ {s'}, Flags s s' → p < s'.allocated ∧ SameRegion s s' p ∧
      (p ∈ s'.regionsByIndex.entries.map Prod.snd → p ∈ s.regionsByIndex.entries.map Prod.snd) :=
    fun hf => ⟨hf.allocated ▸ hp, ⟨hf.name p, hf.addr p, hf.index p⟩, fun h => hf.indexes ▸ h⟩
  cases e with
  | process mem => exact ⟨hp, ⟨rfl, rfl, rfl⟩, id⟩
  | pass => exact hflags (writePass_spec A s mem).passes.toFlags
  | op o =>
    rcases step_cases s o with ⟨rgn, -, heq⟩ | hs | hf
    · rw [show (RegionFreezer.act A s mem (.op o)).1 = s.addRegion rgn from heq]
      refine ⟨hp.trans (Nat.lt_succ_self _), ?_, fun h => ?_⟩
      · have : (s.addRegion rgn).heap p = s.heap p := heap_addRegion_of_lt hp
        exact ⟨by rw [this], by rw [this], by rw [this]⟩
      · obtain ⟨e, he, rfl⟩ := List.mem_map.mp h
        rcases mem_of_mem_insertNew he with rfl | he
        · exact absurd hp (lt_irrefl _)
        · exact List.mem_map.mpr ⟨e, he, rfl⟩
    · have hheap : (RegionFreezer.act A s mem (.op o)).1.heap = s.heap := hs.heap
      exact ⟨hs.allocated ▸ hp, ⟨by rw [hheap], by rw [hheap], by rw [hheap]⟩,
        fun h => (hs.indexes.map Prod.snd).subset h⟩
    · exact hflags hf

/-! ## Regions out of reach -/

/-- A region that is not in the index by number is never written again. -/
theorem not_written_of_gone {events : List (Event σ)} (hp : p < s.allocated)
    (hgone : p ∉ s.regionsByIndex.entries.map Prod.snd) : p ∉ (exec A s mem events).2.2 := by
  induction events generalizing s mem with
  | nil => exact List.not_mem_nil
  | cons e events ih =>
    obtain ⟨hlt, -, hindex⟩ := act_frame A mem e hp
    rw [exec_cons]
    refine List.not_mem_append ?_ (ih hlt fun h => hgone (hindex h))
    cases e with
    | op o => exact List.not_mem_nil
    | pass => exact fun h => hgone ((writePass_spec A s mem).written p h).1
    | process mem => exact List.not_mem_nil

def Op.Unfreezes (r : Region) : Op → Prop
  | .unfreezeName name => r.name = name
  | .unfreezeAddr addr => r.addr = addr
  | .unfreezeIndex index => r.index = index
  | .unfreezeAll => True
  | _ => False

/-- The operation sets the flag of regions like `r`. -/
def Op.Sets (r : Region) (b : Bool) : Op → Prop
  | .enableName name enable => r.name = name ∧ enable = b
  | .enableAddr addr enable => r.addr = addr ∧ enable = b
  | .enableIndex index enable => r.index = index ∧ enable = b
  | .enableAll enable => enable = b
  | _ => False

theorem Op.sets_congr {o : Op} {b : Bool} (h : SameRegion s s' p) :
    o.Sets (s'.heap p) b ↔ o.Sets (s.heap p) b := by
  cases o <;> simp only [Op.Sets, h.name, h.addr, h.index]

theorem gone_of_unfreezes {o : Op} (h : Covered s) (ho : o.Unfreezes (s.heap p)) :
    p ∉ (s.step o).regionsByIndex.entries.map Prod.snd := by
  intro hmem
  obtain ⟨⟨i, q⟩, he, rfl⟩ := List.mem_map.mp hmem
  cases o with
  | unfreezeName name =>
    obtain ⟨he, hno⟩ := mem_regionsByIndex_unfreezeName.mp he
    exact hno q (ho ▸ h.named _ he) (h.indexes _ he).2
  | unfreezeAddr addr =>
    obtain ⟨he, hno⟩ := mem_regionsByIndex_unfreezeAddr.mp he
    exact hno q (ho ▸ h.addressed _ he) (h.indexes _ he).2
  | unfreezeIndex index =>
    have hold := (unfreezeIndex_shrinks s index).indexes.subset he
    have hi : i = index := (h.indexes _ hold).2.symm.trans ho
    subst hi
    change (i, q) ∈ (s.unfreezeIndex i).1.regionsByIndex.entries at he
    unfold unfreezeIndex at he
    split at he
    · next hnone => exact OrderedMap.find?_eq_none.mp hnone _ hold rfl
    · exact (OrderedMap.mem_erase.mp he).2 rfl
  | unfreezeAll => cases he
  | freeze | freezeArray | enableName | enableAddr | enableIndex | enableAll => exact ho

/-- The regions an enabling operation finds. -/
theorem sets_of_step {o : Op} (h : Covered s) :
    (∃ its enable, s.step o = (s.setEnable its enable).1 ∧
      (∀ p ∈ its, o.Sets (s.heap p) enable) ∧
      ∀ p b, p ∈ s.regionsByIndex.entries.map Prod.snd → o.Sets (s.heap p) b →
        p ∈ its ∧ enable = b) ∨
    ((∀ p b, ¬ o.Sets (s.heap p) b) ∧ ∀ p < s.allocated, (s.step o).heap p = s.heap p) := by
  cases o with
  | enableName name enable =>
    refine .inl ⟨_, enable, rfl, fun p hp => ?_, fun p b hp ⟨hk, hb⟩ => ⟨?_, hb⟩⟩
    · exact ⟨(h.names _ (Multimap.mem_equalRange.mp hp)).2, rfl⟩
    · obtain ⟨e, he, rfl⟩ := List.mem_map.mp hp
      exact Multimap.mem_equalRange.mpr (hk ▸ h.named e he)
  | enableAddr addr enable =>
    refine .inl ⟨_, enable, rfl, fun p hp => ?_, fun p b hp ⟨hk, hb⟩ => ⟨?_, hb⟩⟩
    · exact ⟨(h.addrs _ (Multimap.mem_equalRange.mp hp)).2, rfl⟩
    · obtain ⟨e, he, rfl⟩ := List.mem_map.mp hp
      exact Multimap.mem_equalRange.mpr (hk ▸ h.addressed e he)
  | enableIndex index enable =>
    refine .inl ⟨_, enable, enableIndex_eq s index enable, fun p hp => ?_,
      fun p b hp ⟨hk, hb⟩ => ⟨?_, hb⟩⟩
    · have hfind := OrderedMap.find?_eq_some.mp (Option.mem_toList.mp hp)
      exact ⟨(h.indexes _ hfind).2, rfl⟩
    · obtain ⟨⟨i, q⟩, he, rfl⟩ := List.mem_map.mp hp
      have hi : i = index := (h.indexes _ he).2.symm.trans hk
      exact Option.mem_toList.mpr (OrderedMap.find?_eq_some.mpr (hi ▸ he))
  | enableAll enable =>
    exact .inl ⟨_, enable, rfl, fun p hp => rfl, fun p b hp hb => ⟨hp, hb⟩⟩
  | freeze | freezeArray => exact .inr ⟨fun p b => id, fun p hp => heap_addRegion_of_lt hp⟩
  | unfreezeName name =>
    exact .inr ⟨fun p b => id, fun p _ => congrFun (unfreezeName_shrinks s name).heap p⟩
  | unfreezeAddr addr =>
    exact .inr ⟨fun p b => id, fun p _ => congrFun (unfreezeAddr_shrinks s addr).heap p⟩
  | unfreezeIndex index =>
    exact .inr ⟨fun p b => id, fun p _ => congrFun (unfreezeIndex_shrinks s index).heap p⟩
  | unfreezeAll => exact .inr ⟨fun p b => id, fun p _ => rfl⟩

/-- A region in the writer's reach is disabled. -/
def Quiet (s : RegionFreezer) (p : Nat) : Prop :=
  p ∈ s.regionsByIndex.entries.map Prod.snd → (s.heap p).enable = false

theorem quiet_of_disables {o : Op} (h : Covered s) (ho : o.Sets (s.heap p) false) :
    Quiet (s.step o) p := by
  intro hmem
  rcases sets_of_step (o := o) h with ⟨its, enable, heq, -, hfound⟩ | ⟨hnone, -⟩
  · rw [heq] at hmem ⊢
    rw [(setEnable_flags s its enable).indexes] at hmem
    obtain ⟨hp, rfl⟩ := hfound p false hmem ho
    obtain ⟨heap, hheap, hspec⟩ := setEnable_spec s its false
    rw [hheap]
    show (heap p).enable = false
    rw [hspec, if_pos hp]
  · exact absurd ho (hnone p false)

/-- A quiet region stays quiet until an operation enables it. -/
theorem quiet_act {e : Event σ} (h : Covered s) (hp : p < s.allocated) (hq : Quiet s p)
    (he : ∀ o, e = .op o → ¬ o.Sets (s.heap p) true) : Quiet (act A s mem e).1 p := by
  intro hmem
  have hold := (act_frame A mem e hp).2.2 hmem
  cases e with
  | process mem => exact hq hold
  | pass => rw [show ((RegionFreezer.act A s mem .pass).1.heap p).enable = _ from
      (writePass_spec A s mem).passes.enable p]; exact hq hold
  | op o =>
    show ((s.step o).heap p).enable = false
    rcases sets_of_step (o := o) h with ⟨its, enable, heq, hsets, -⟩ | ⟨-, hheap⟩
    · obtain ⟨heap, hheap, hspec⟩ := setEnable_spec s its enable
      rw [heq, hheap]
      show (heap p).enable = false
      rw [hspec]
      split
      · next hits =>
        cases enable with
        | false => rfl
        | true => exact absurd (hsets p hits) (he o rfl)
      · exact hq hold
    · rw [hheap p hp]; exact hq hold

theorem not_written_of_quiet {events : List (Event σ)} (h : Covered s) (hp : p < s.allocated)
    (hq : Quiet s p) (hev : ∀ o, .op o ∈ events → ¬ o.Sets (s.heap p) true) :
    p ∉ (exec A s mem events).2.2 := by
  induction events generalizing s mem with
  | nil => exact List.not_mem_nil
  | cons e events ih =>
    obtain ⟨hlt, hsame, -⟩ := act_frame A mem e hp
    have hq' : Quiet (act A s mem e).1 p :=
      quiet_act h hp hq fun o ho => hev o (ho ▸ List.mem_cons_self)
    rw [exec_cons]
    refine List.not_mem_append ?_ (ih (h.act e) hlt hq' fun o ho => ?_)
    · cases e with
      | op o => exact List.not_mem_nil
      | process mem => exact List.not_mem_nil
      | pass =>
        intro hw
        obtain ⟨hmem, hen⟩ := (writePass_spec A s mem).written p hw
        rw [hq hmem] at hen
        cases hen
    · rw [Op.sets_congr hsame]
      exact hev o (List.mem_cons_of_mem _ ho)

/-- In every interleaving, a region is not written after an operation has unfrozen
it, nor between one that disables it and one that enables it. -/
theorem no_write_after_unfreeze {before after : List (Event σ)} {mem₀ : σ} {written : List Nat}
    (hrun : exec A new mem₀ before = (s, mem, written)) (hp : p < s.allocated) (o : Op) :
    (o.Unfreezes (s.heap p) → p ∉ (exec A (s.step o) mem after).2.2) ∧
    (o.Sets (s.heap p) false → (∀ o', .op o' ∈ after → ¬ o'.Sets (s.heap p) true) →
      p ∉ (exec A (s.step o) mem after).2.2) := by
  have h : Covered s := by
    have := Covered.new.exec A mem₀ before
    rwa [hrun] at this
  obtain ⟨hlt, hsame, -⟩ := act_frame A mem (.op o) hp
  constructor
  · exact fun ho => not_written_of_gone hlt (gone_of_unfreezes h ho)
  · intro ho hafter
    refine not_written_of_quiet (h.step o) hlt (quiet_of_disables h ho) fun o' ho' => ?_
    rw [Op.sets_congr (show SameRegion s (s.step o) p from hsame)]
    exact hafter o' ho'

def acceptingAdapter : Adapter Unit where
  read _ _ size := .ok (List.replicate size 0)
  write mem _ _ := (.ok (), mem)
  stray _ _ := 0

/-- A region that is unfrozen, or disabled and not enabled again. -/
theorem no_write_after_unfreeze_name :
    0 ∉ (exec acceptingAdapter ((new.freeze "a" 1 [1] true).step (.unfreezeName "a")) ()
      [.pass, .op (.freeze "a" 1 [2] true), .pass]).2.2 ∧
    0 ∉ (exec acceptingAdapter ((new.freeze "a" 1 [1] true).step (.enableName "a" false)) ()
      [.pass, .op (.freeze "a" 1 [2] true), .pass]).2.2 := by
  have hrun : exec acceptingAdapter new () [.op (.freeze "a" 1 [1] true)] =
      (new.freeze "a" 1 [1] true, (), []) := rfl
  refine ⟨(no_write_after_unfreeze hrun (by decide) (.unfreezeName "a")).1 rfl,
    (no_write_after_unfreeze hrun (by decide) (.enableName "a" false)).2 ⟨rfl, rfl⟩ fun o ho => ?_⟩
  have : o = .freeze "a" 1 [2] true := by simpa using ho
  subst this
  exact id

end RegionFreezer
end Memwatch
