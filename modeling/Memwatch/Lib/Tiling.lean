import Mathlib

/-!
# Lists of disjoint intervals and their merge cursor

`Tiled lo hi l` says that the intervals `[lo b, hi b)` of the list `l` ascend
and are pairwise disjoint; empty intervals are allowed anywhere. `seek hi x l`
is the cursor of a merge: the list with its leading intervals that end at or
before `x` dropped. A cursor that only moves forward finds what a fresh scan
finds (`seek_seek`), and its head is the one interval around `x`, if any
(`locate_eq_some_iff`).
-/

namespace Memwatch.Lib

variable {α β : Type*} [LinearOrder α] {lo hi : β → α}

/-- `x` lies in the interval of `b`. -/
def Covers (lo hi : β → α) (b : β) (x : α) : Prop := lo b ≤ x ∧ x < hi b

/-- Ascending, pairwise disjoint intervals. -/
def Tiled (lo hi : β → α) (l : List β) : Prop :=
  l.Pairwise fun b c => lo b ≤ lo c ∧ ∀ x, ¬ (Covers lo hi b x ∧ Covers lo hi c x)

/-- Drop the leading intervals that end at or before `x`. -/
def seek (hi : β → α) (x : α) (l : List β) : List β := l.dropWhile fun b => decide (hi b ≤ x)

/-- The head of the cursor, if it has started at `x`. -/
def locate (lo hi : β → α) (x : α) (l : List β) : Option β :=
  match seek hi x l with
  | b :: _ => if lo b ≤ x then some b else none
  | [] => none

theorem Tiled.sublist {l m : List β} (h : Tiled lo hi m) (hs : l.Sublist m) : Tiled lo hi l :=
  List.Pairwise.sublist hs h

theorem Tiled.shrink {hi' : β → α} {l : List β} (h : Tiled lo hi l)
    (hle : ∀ b ∈ l, ∀ x, Covers lo hi' b x → Covers lo hi b x) : Tiled lo hi' l := by
  refine List.Pairwise.imp_of_mem (fun {b c} hb hc hbc => ⟨hbc.1, fun x hx => ?_⟩) h
  exact hbc.2 x ⟨hle b hb x hx.1, hle c hc x hx.2⟩

theorem Tiled.unique {l : List β} (h : Tiled lo hi l) {b c : β} {x : α} (hb : b ∈ l) (hc : c ∈ l)
    (hbx : Covers lo hi b x) (hcx : Covers lo hi c x) : b = c := by
  induction l with
  | nil => cases hb
  | cons d l ih =>
    obtain ⟨hd, hl⟩ := List.pairwise_cons.mp h
    rcases List.mem_cons.mp hb with rfl | hbl <;> rcases List.mem_cons.mp hc with rfl | hcl
    · rfl
    · exact ((hd c hcl).2 x ⟨hbx, hcx⟩).elim
    · exact ((hd b hbl).2 x ⟨hcx, hbx⟩).elim
    · exact ih hl hbl hcl

/-! ## The cursor -/

theorem seek_cons_of_le {b : β} {x : α} (h : hi b ≤ x) (l : List β) :
    seek hi x (b :: l) = seek hi x l := by simp [seek, h]

theorem seek_cons_of_lt {b : β} {x : α} (h : x < hi b) (l : List β) :
    seek hi x (b :: l) = b :: l := by simp [seek, h]

/-- A cursor that moves forward agrees with a fresh one. -/
theorem seek_seek {x y : α} (hxy : x ≤ y) (l : List β) : seek hi y (seek hi x l) = seek hi y l := by
  induction l with
  | nil => rfl
  | cons b l ih =>
    rcases le_or_gt (hi b) x with h | h
    · rw [seek_cons_of_le h, seek_cons_of_le (h.trans hxy), ih]
    · rw [seek_cons_of_lt h]

theorem seek_suffix (x : α) (l : List β) : seek hi x l <:+ l := List.dropWhile_suffix _

theorem lt_hi_of_seek {x : α} {l r : List β} {b : β} (h : seek hi x l = b :: r) : x < hi b := by
  induction l with
  | nil => cases h
  | cons c l ih =>
    rcases le_or_gt (hi c) x with hc | hc
    · exact ih (by rw [seek_cons_of_le hc] at h; exact h)
    · rw [seek_cons_of_lt hc] at h; cases h; exact hc

theorem mem_of_seek {x : α} {l r : List β} {b : β} (h : seek hi x l = b :: r) : b ∈ l :=
  (seek_suffix x l).mem (by rw [h]; exact List.mem_cons_self)

theorem Tiled.seek_eq_cons {l : List β} (h : Tiled lo hi l) {c : β} {x : α} (hc : c ∈ l)
    (hx : Covers lo hi c x) : ∃ r, seek hi x l = c :: r := by
  induction l with
  | nil => cases hc
  | cons d l ih =>
    obtain ⟨hd, hl⟩ := List.pairwise_cons.mp h
    rcases List.mem_cons.mp hc with rfl | hc
    · exact ⟨l, seek_cons_of_lt hx.2 l⟩
    · rcases le_or_gt (hi d) x with hdx | hdx
      · rw [seek_cons_of_le hdx]; exact ih hl hc
      · -- `d` starts no later than `c` and ends past `x`, so both would cover `x`
        obtain ⟨hlo, hdis⟩ := hd c hc
        exact (hdis x ⟨⟨hlo.trans hx.1, hdx⟩, hx⟩).elim

theorem Tiled.not_covers_gap {l r : List β} (h : Tiled lo hi l) {b : β} {x y : α}
    (hb : seek hi x l = b :: r) (hxy : x ≤ y) (hy : y < lo b) : ∀ c ∈ l, ¬ Covers lo hi c y := by
  intro c hc hcy
  obtain ⟨r', hr'⟩ := h.seek_eq_cons hc hcy
  rw [← seek_seek hxy l, hb] at hr'
  -- `c` is `b` or behind it, so it starts past `y`
  have hsuf : Tiled lo hi (b :: r) := h.sublist (by rw [← hb]; exact (seek_suffix x l).sublist)
  rcases List.mem_cons.mp (mem_of_seek hr') with rfl | hcr
  · exact absurd hcy.1 (not_le.mpr hy)
  · have hbc : lo b ≤ lo c := ((List.pairwise_cons.mp hsuf).1 c hcr).1
    exact absurd (hbc.trans hcy.1) (not_le.mpr hy)

/-- An exhausted cursor has nothing ahead. -/
theorem not_covers_of_seek_nil {l : List β} {x y : α} (h : seek hi x l = []) (hxy : x ≤ y) :
    ∀ c ∈ l, ¬ Covers lo hi c y := by
  intro c hc hcy
  have := List.dropWhile_eq_nil_iff.mp h c hc
  exact absurd hcy.2 (not_lt.mpr ((of_decide_eq_true this).trans hxy))

/-- A cursor that agrees with a fresh one from `x` on. -/
def Ahead (hi : β → α) (l : List β) (x : α) (r : List β) : Prop :=
  ∀ y, x ≤ y → seek hi y r = seek hi y l

theorem Ahead.refl (l : List β) (x : α) : Ahead hi l x l := fun _ _ => rfl

theorem Ahead.mono {l r : List β} {x y : α} (h : Ahead hi l x r) (hxy : x ≤ y) : Ahead hi l y r :=
  fun z hz => h z (hxy.trans hz)

theorem Ahead.seek {l r : List β} {x : α} (h : Ahead hi l x r) : Ahead hi l x (seek hi x r) :=
  fun y hy => by rw [seek_seek hy, h y hy]

/-! ## Lookups -/

theorem locate_of_seek_nil {x : α} {l : List β} (h : seek hi x l = []) :
    locate lo hi x l = none := by simp [locate, h]

theorem locate_of_seek_cons {x : α} {l r : List β} {b : β} (h : seek hi x l = b :: r) :
    locate lo hi x l = if lo b ≤ x then some b else none := by simp [locate, h]

theorem Ahead.locate {l r : List β} {x y : α} (h : Ahead hi l x r) (hxy : x ≤ y) :
    locate lo hi y r = locate lo hi y l := by
  unfold Lib.locate; rw [h y hxy]

theorem covers_of_locate {l : List β} {b : β} {x : α} (h : locate lo hi x l = some b) :
    b ∈ l ∧ Covers lo hi b x := by
  unfold locate at h
  split at h
  · next c r hs =>
    split at h
    · next hle => cases h; exact ⟨mem_of_seek hs, hle, lt_hi_of_seek hs⟩
    · cases h
  · cases h

/-- The lookup finds the interval around `x`. -/
theorem Tiled.locate_eq_some_iff {l : List β} (h : Tiled lo hi l) {b : β} {x : α} :
    locate lo hi x l = some b ↔ b ∈ l ∧ Covers lo hi b x := by
  refine ⟨covers_of_locate, fun ⟨hb, hx⟩ => ?_⟩
  obtain ⟨r, hr⟩ := h.seek_eq_cons hb hx
  rw [locate_of_seek_cons hr, if_pos hx.1]

theorem Tiled.locate_eq_none_iff {l : List β} (h : Tiled lo hi l) {x : α} :
    locate lo hi x l = none ↔ ∀ b ∈ l, ¬ Covers lo hi b x := by
  constructor
  · intro hn b hb hx
    rw [h.locate_eq_some_iff.mpr ⟨hb, hx⟩] at hn; cases hn
  · intro hno
    cases hl : locate lo hi x l with
    | none => rfl
    | some b => exact (hno b (covers_of_locate hl).1 (covers_of_locate hl).2).elim

end Memwatch.Lib
