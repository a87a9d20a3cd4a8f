import Mathlib

/-!
# Multimaps and ordered maps

A multimap is the list of its entries, in some order. An ordered map is a list
of entries with ascending keys; inserting at a key that is there changes
nothing. Loops that erase entries one after another are filters
(`foldl_eraseEntry`, `foldl_erase`).
-/

namespace Memwatch.Lib

universe u v

variable {K : Type u} {V : Type v}

/-! ## Multimaps -/

/-- A map from keys to any number of values. -/
abbrev Multimap (K : Type u) (V : Type v) := List (K × V)

namespace Multimap

def emplace (m : Multimap K V) (k : K) (v : V) : Multimap K V := (k, v) :: m

variable {m : Multimap K V} {k : K} {v : V} {e : K × V}

@[simp] theorem mem_emplace : e ∈ m.emplace k v ↔ e = (k, v) ∨ e ∈ m := List.mem_cons

section Keys

variable [DecidableEq K]

/-- The values at a key. -/
def equalRange (m : Multimap K V) (k : K) : List V := (m.filter fun e => e.1 = k).map Prod.snd

def eraseKey (m : Multimap K V) (k : K) : Multimap K V := m.filter fun e => e.1 ≠ k

@[simp] theorem mem_equalRange : v ∈ m.equalRange k ↔ (k, v) ∈ m := by
  simp [equalRange]

@[simp] theorem mem_eraseKey : e ∈ m.eraseKey k ↔ e ∈ m ∧ e.1 ≠ k := by simp [eraseKey]

theorem length_equalRange_add (m : Multimap K V) (k : K) :
    (m.equalRange k).length + (m.eraseKey k).length = m.length := by
  rw [equalRange, List.length_map, eraseKey]
  induction m with
  | nil => rfl
  | cons e m ih =>
    by_cases h : e.1 = k
    · rw [List.filter_cons_of_pos (by simpa using h), List.filter_cons_of_neg (by simpa using h)]
      simp only [List.length_cons]; omega
    · rw [List.filter_cons_of_neg (by simpa using h), List.filter_cons_of_pos (by simpa using h)]
      simp only [List.length_cons]; omega

end Keys

section Entries

variable [DecidableEq K] [DecidableEq V]

def eraseEntry (m : Multimap K V) (k : K) (v : V) : Multimap K V := m.filter fun e => e ≠ (k, v)

@[simp] theorem mem_eraseEntry : e ∈ m.eraseEntry k v ↔ e ∈ m ∧ e ≠ (k, v) := by simp [eraseEntry]

theorem foldl_eraseEntry {α : Type*} (f : α → K × V) (l : List α) (m : Multimap K V) :
    l.foldl (fun m a => m.eraseEntry (f a).1 (f a).2) m = m.filter fun e => e ∉ l.map f := by
  induction l generalizing m with
  | nil => simp
  | cons a l ih =>
    rw [List.foldl_cons, ih, eraseEntry, List.filter_filter]
    refine List.filter_congr fun e _ => ?_
    by_cases h : e = f a <;> simp [h]

end Entries

end Multimap

/-! ## Ordered maps -/

section InsertNew

variable [LinearOrder K]

/-- Insert at a key that is not there yet. -/
def insertNew (k : K) (v : V) : List (K × V) → List (K × V)
  | [] => [(k, v)]
  | e :: l => if k < e.1 then (k, v) :: e :: l else if k = e.1 then e :: l else e :: insertNew k v l

variable {k : K} {v : V} {e : K × V} {l : List (K × V)}

theorem mem_of_mem_insertNew (h : e ∈ insertNew k v l) : e = (k, v) ∨ e ∈ l := by
  induction l with
  | nil => exact .inl (List.mem_singleton.mp h)
  | cons d l ih =>
    unfold insertNew at h
    split at h
    · exact List.mem_cons.mp h
    · split at h
      · exact .inr h
      · rcases List.mem_cons.mp h with rfl | h
        · exact .inr List.mem_cons_self
        · exact (ih h).imp id (List.mem_cons_of_mem _)

theorem mem_insertNew_of_mem (h : e ∈ l) : e ∈ insertNew k v l := by
  induction l with
  | nil => cases h
  | cons d l ih =>
    unfold insertNew
    split
    · exact List.mem_cons_of_mem _ h
    · split
      · exact h
      · rcases List.mem_cons.mp h with rfl | h
        · exact List.mem_cons_self
        · exact List.mem_cons_of_mem _ (ih h)

theorem mem_insertNew_self (h : ∀ e ∈ l, e.1 ≠ k) : (k, v) ∈ insertNew k v l := by
  induction l with
  | nil => exact List.mem_singleton_self _
  | cons d l ih =>
    unfold insertNew
    split
    · exact List.mem_cons_self
    · rw [if_neg fun hk => h d List.mem_cons_self hk.symm]
      exact List.mem_cons_of_mem _ (ih fun e he => h e (List.mem_cons_of_mem _ he))

theorem insertNew_last (h : ∀ e ∈ l, e.1 < k) : insertNew k v l = l ++ [(k, v)] := by
  induction l with
  | nil => rfl
  | cons d l ih =>
    have hd := h d List.mem_cons_self
    rw [insertNew, if_neg hd.not_gt, if_neg hd.ne', ih fun e he => h e (List.mem_cons_of_mem _ he)]
    rfl

theorem sorted_insertNew (h : l.Pairwise fun a b => a.1 < b.1) :
    (insertNew k v l).Pairwise fun a b => a.1 < b.1 := by
  induction l with
  | nil => exact List.pairwise_singleton _ _
  | cons d l ih =>
    obtain ⟨hd, hl⟩ := List.pairwise_cons.mp h
    unfold insertNew
    split
    · next hlt =>
      refine List.pairwise_cons.mpr ⟨fun e he => ?_, h⟩
      rcases List.mem_cons.mp he with rfl | he
      · exact hlt
      · exact hlt.trans (hd e he)
    · next hnlt =>
      split
      · exact h
      · next hne =>
        refine List.pairwise_cons.mpr ⟨fun e he => ?_, ih hl⟩
        rcases mem_of_mem_insertNew he with rfl | he
        · exact lt_of_le_of_ne (not_lt.mp hnlt) fun hk => hne hk.symm
        · exact hd e he

end InsertNew

/-- A map whose entries are in ascending order of their keys. -/
structure OrderedMap (K : Type u) (V : Type v) [LinearOrder K] where
  entries : List (K × V)
  sorted : entries.Pairwise fun a b => a.1 < b.1

namespace OrderedMap

variable [LinearOrder K] {m : OrderedMap K V} {k : K} {v w : V} {e : K × V}

def empty : OrderedMap K V := ⟨[], List.Pairwise.nil⟩

def emplace (m : OrderedMap K V) (k : K) (v : V) : OrderedMap K V :=
  ⟨insertNew k v m.entries, sorted_insertNew m.sorted⟩

def find? (m : OrderedMap K V) (k : K) : Option V :=
  (m.entries.find? fun e => e.1 = k).map Prod.snd

def erase (m : OrderedMap K V) (k : K) : OrderedMap K V :=
  ⟨m.entries.filter fun e => e.1 ≠ k, m.sorted.filter _⟩

def size (m : OrderedMap K V) : Nat := m.entries.length

theorem unique (hv : (k, v) ∈ m.entries) (hw : (k, w) ∈ m.entries) : v = w := by
  have hkeys : (m.entries.map Prod.fst).Nodup := List.pairwise_map.mpr (m.sorted.imp fun h => h.ne)
  exact congrArg Prod.snd (List.inj_on_of_nodup_map hkeys hv hw rfl)

theorem find?_eq_some : m.find? k = some v ↔ (k, v) ∈ m.entries := by
  unfold find?
  constructor
  · intro h
    obtain ⟨e, he, rfl⟩ := Option.map_eq_some_iff.mp h
    have hk : e.1 = k := by simpa using List.find?_some he
    exact hk ▸ List.mem_of_find?_eq_some he
  · intro h
    cases hf : m.entries.find? fun e => e.1 = k with
    | none => exact absurd (List.find?_eq_none.mp hf _ h) (by simp)
    | some e =>
      have hk : e.1 = k := by simpa using List.find?_some hf
      have := m.unique (show (k, e.2) ∈ m.entries from hk ▸ List.mem_of_find?_eq_some hf) h
      rw [Option.map_some, this]

theorem find?_eq_none : m.find? k = none ↔ ∀ e ∈ m.entries, e.1 ≠ k := by
  simp [find?]

@[simp] theorem mem_erase : e ∈ (m.erase k).entries ↔ e ∈ m.entries ∧ e.1 ≠ k := by simp [erase]

theorem find?_erase (m : OrderedMap K V) (k j : K) :
    (m.erase k).find? j = if j = k then none else m.find? j := by
  split
  · next h => exact find?_eq_none.mpr fun e he => h ▸ (mem_erase.mp he).2
  · next h =>
    refine Option.ext fun v => ?_
    rw [find?_eq_some, find?_eq_some, mem_erase]
    exact and_iff_left h

theorem find?_emplace (h : m.find? k = none) (v : V) (j : K) :
    (m.emplace k v).find? j = if j = k then some v else m.find? j := by
  have hnew := mem_insertNew_self (v := v) (find?_eq_none.mp h)
  split
  · next hj => exact find?_eq_some.mpr (hj ▸ hnew)
  · next hj =>
    refine Option.ext fun w => ?_
    rw [find?_eq_some, find?_eq_some]
    refine ⟨fun hw => ?_, fun hw => mem_insertNew_of_mem hw⟩
    exact (mem_of_mem_insertNew hw).resolve_left fun heq => hj (congrArg Prod.fst heq)

theorem ext_find? {n : OrderedMap K V} (h : ∀ k, m.find? k = n.find? k) : m = n := by
  have hmem : ∀ e, e ∈ m.entries ↔ e ∈ n.entries := by
    intro e
    rw [← Prod.mk.eta (p := e), ← find?_eq_some, ← find?_eq_some, h]
  have hnodup : ∀ l : OrderedMap K V, l.entries.Nodup :=
    fun l => l.sorted.imp fun hlt heq => hlt.ne (congrArg Prod.fst heq)
  have hperm : m.entries.Perm n.entries :=
    (List.perm_ext_iff_of_nodup (hnodup m) (hnodup n)).mpr hmem
  have hentries : m.entries = n.entries :=
    hperm.eq_of_pairwise (fun a b _ _ hab hba => absurd hab hba.not_gt) m.sorted n.sorted
  cases m
  cases n
  congr

theorem foldl_erase {α : Type*} (f : α → K) (l : List α) (m : OrderedMap K V) :
    (l.foldl (fun m a => m.erase (f a)) m).entries = m.entries.filter fun e => e.1 ∉ l.map f := by
  induction l generalizing m with
  | nil => simp
  | cons a l ih =>
    rw [List.foldl_cons, ih, erase, List.filter_filter]
    refine List.filter_congr fun e _ => ?_
    by_cases h : e.1 = f a <;> simp [h]

end OrderedMap

end Memwatch.Lib
