import Memwatch.Shell.Model

/-!
# Commands that fail

The parts commands are made of, and how a command fails. Of the searches, a command
that throws changes nothing unless it is `open` or `fork`.
-/

namespace Memwatch

namespace MemwatchShell

open Lib Text

/-! ## Lookup -/

section Lookup

variable {st : MemwatchShell} {name name' : String} {searches : List MemorySearch}

theorem getSearches_eq_ok {name : Option String} : st.getSearches name = .ok searches ↔
    st.nameToSearches.find? (name.getD st.currentSearchName) = some searches := by
  unfold getSearches
  split <;> simp [*]

theorem find?_setSearches (st : MemwatchShell) (name : String) (searches : List MemorySearch)
    (name' : String) : (st.setSearches name searches).nameToSearches.find? name' =
      if name' = name then some searches else st.nameToSearches.find? name' := by
  have hnone : (st.nameToSearches.erase name).find? name = none :=
    (OrderedMap.find?_erase ..).trans (if_pos rfl)
  refine (OrderedMap.find?_emplace hnone searches name').trans ?_
  split
  · rfl
  · next h => rw [OrderedMap.find?_erase, if_neg h]

theorem find?_setCurrent (st : MemwatchShell) (name name' : String) :
    (st.setCurrent name).nameToSearches.find? name' =
      if name' = "" ∧ name ≠ "" then none else st.nameToSearches.find? name' := by
  unfold setCurrent
  by_cases hname : name = ""
  · simp only [hname, if_true, ne_eq, not_true_eq_false, and_false, if_false]
  · simp only [hname, if_false, OrderedMap.find?_erase, ne_eq, not_false_eq_true, and_true]

theorem find?_openNew (st : MemwatchShell) (type : SearchType) (allMemory : Bool)
    (name name' : String) : (st.openNew type allMemory name).nameToSearches.find? name' =
      if name' = "" ∧ name ≠ "" then none
      else if name' = name then some [MemorySearch.new type allMemory]
      else st.nameToSearches.find? name' :=
  (find?_setCurrent ..).trans (by rw [find?_setSearches])

theorem split_of_splitArgs [PhosgText] {argsStr : String} {args : List String}
    {minArgs maxArgs : Nat} (h : splitArgs argsStr minArgs maxArgs = .ok args) :
    args = PhosgText.split argsStr ' ' := by
  unfold splitArgs at h
  dsimp only at h
  split at h
  · cases h
  · split at h
    · cases h
    · cases h; rfl

/-- What `open` has done where it does not throw. -/
inductive Opened (st : MemwatchShell) : List String → MemwatchShell → Option String → Prop where
  | list : Opened st [] st none
  | switch {name : String} (hopen : (st.nameToSearches.find? name).isSome) :
      Opened st [name] (st.setCurrent name) none
  | new {typeName : String} {args : List String} {type : SearchType}
      (htype : MemorySearch.searchTypeForName typeName = .ok type) (hlen : args.length < 2) :
      Opened st (typeName :: args)
        (st.openNew type (find typeName '!').isSome (args.headD "")) none
  | newAndSearch {typeName name arg : String} {args : List String} {type : SearchType}
      (htype : MemorySearch.searchTypeForName typeName = .ok type) (searchArgs : String) :
      Opened st (typeName :: name :: arg :: args)
        (st.openNew type (find typeName '!').isSome name) (some searchArgs)

theorem opened_of_opening {args : List String} {opened : MemwatchShell}
    {initialSearch : Option String} (h : st.opening args = .ok (opened, initialSearch)) :
    Opened st args opened initialSearch := by
  cases args with
  | nil => cases h; exact .list
  | cons typeName args =>
    rw [opening] at h
    split at h
    · next hswitch =>
      cases h
      obtain ⟨hopen, rfl⟩ := hswitch
      exact .switch hopen
    · obtain ⟨type, htype, h⟩ := except_bind_eq_ok.mp h
      have htype : MemorySearch.searchTypeForName typeName = .ok type := by
        unfold catching at htype
        split at htype
        · split at htype
          · cases htype
          · exact htype
        · exact htype
      match args with
      | [] => cases h; exact .new htype Nat.zero_lt_two
      | [name] => cases h; exact .new htype Nat.one_lt_two
      | [name, arg] => cases h; exact .newAndSearch htype _
      | name :: arg :: value :: args => cases h; exact .newAndSearch htype _

theorem opening_of_type (st : MemwatchShell) {typeName : String} {type : SearchType}
    (htype : MemorySearch.searchTypeForName typeName = .ok type) (name arg : String)
    (args : List String) :
    ∃ out, st.opening (typeName :: name :: arg :: args) = .ok out := by
  rw [opening, if_neg fun h => List.cons_ne_nil _ _ h.2, htype]
  cases args with
  | nil => exact ⟨_, rfl⟩
  | cons value args => exact ⟨_, rfl⟩

theorem setField_keeps {st' : MemwatchShell} {field value : String}
    (h : st.setField field value = .ok st') :
    st'.nameToSearches = st.nameToSearches ∧ st'.currentSearchName = st.currentSearchName ∧
      st'.interactive = st.interactive := by
  unfold setField at h
  split_ifs at h
  · obtain ⟨n, -, h⟩ := except_bind_eq_ok.mp h
    cases h; exact ⟨rfl, rfl, rfl⟩
  · cases h; exact ⟨rfl, rfl, rfl⟩
  · obtain ⟨n, -, h⟩ := except_bind_eq_ok.mp h
    cases h; exact ⟨rfl, rfl, rfl⟩
  · obtain ⟨n, -, h⟩ := except_bind_eq_ok.mp h
    cases h; exact ⟨rfl, rfl, rfl⟩
  · obtain ⟨n, -, h⟩ := except_bind_eq_ok.mp h
    cases h; exact ⟨rfl, rfl, rfl⟩
  · obtain ⟨n, -, h⟩ := except_bind_eq_ok.mp h
    cases h; exact ⟨rfl, rfl, rfl⟩

end Lookup

/-! ## Erasing the oldest iterations -/

section Retain

variable {searches searches' : List MemorySearch} {count : Nat}

/-- A count that leaves one of `n` iterations, and of which the difference is not
taken for a large number. -/
def LeavesSome (count n : Nat) : Prop := (n < 2 ^ 63 → 0 < count) ∧ count ≤ 2 ^ 63 + n

theorem numToDelete_eq (n count : Nat) :
    (BitVec.ofNat 64 n - BitVec.ofNat 64 count).toInt = ((n : Int) - count).bmod (2 ^ 64) := by
  rw [BitVec.toInt_sub, BitVec.toInt_ofNat', BitVec.toInt_ofNat']
  simp only [Int.bmod_sub_bmod, Int.sub_bmod_bmod]

theorem retain_of_leaves (h : LeavesSome count searches.length) (hlt : count < 2 ^ 64) :
    ∃ searches', retain searches count = .ok searches' ∧ (searches ≠ [] → searches' ≠ []) := by
  obtain ⟨hpos, hle⟩ := h
  unfold retain
  simp only [numToDelete_eq, Int.bmod_def]
  generalize hd : (if ((searches.length : Int) - count) % (2 ^ 64 : Nat) < ((2 ^ 64 : Nat) + 1) / 2
    then ((searches.length : Int) - count) % (2 ^ 64 : Nat)
    else ((searches.length : Int) - count) % (2 ^ 64 : Nat) - (2 ^ 64 : Nat)) = d
  split
  · next hd0 =>
    have hlen : d < searches.length := by split at hd <;> omega
    rw [if_pos hlen.le]
    refine ⟨_, rfl, fun _ hnil => ?_⟩
    have := List.drop_eq_nil_iff.mp hnil
    omega
  · exact ⟨_, rfl, id⟩

theorem retain_eq_error {e : Fault} (h : retain searches count = .error e) : e = .badErase := by
  unfold retain at h
  dsimp only at h
  split at h
  · split at h
    · cases h
    · cases h; rfl
  · cases h

theorem eq_nil_of_not_leaves (h : ¬ LeavesSome count searches.length) (hlt : count < 2 ^ 64)
    (hretain : retain searches count = .ok searches') : searches' = [] := by
  unfold LeavesSome at h
  unfold retain at hretain
  simp only [numToDelete_eq, Int.bmod_def] at hretain
  generalize hd : (if ((searches.length : Int) - count) % (2 ^ 64 : Nat) < ((2 ^ 64 : Nat) + 1) / 2
    then ((searches.length : Int) - count) % (2 ^ 64 : Nat)
    else ((searches.length : Int) - count) % (2 ^ 64 : Nat) - (2 ^ 64 : Nat)) = d at hretain
  have hlen : searches.length ≤ d := by split at hd <;> omega
  split at hretain
  · split at hretain
    · cases hretain
      exact List.drop_eq_nil_iff.mpr (by omega)
    · cases hretain
  · cases hretain
    exact List.length_eq_zero_iff.mp (by omega)

end Retain

/-! ## Exceptions -/

section Raise

variable {α β : Type} {x : Except Exception α} {f : α → Command β} {st st' : MemwatchShell}
  {b : β} {e : Fault} {Q : Fault → MemwatchShell → Prop}

theorem raise_bind_of_ok {a : α} (h : x = .ok a) : (liftM x >>= f) st = f a st := by rw [h]; rfl

theorem raise_bind_eq_ok :
    (liftM x >>= f) st = .ok b st' ↔ ∃ a, x = .ok a ∧ f a st = .ok b st' := by
  show (liftM (x.mapError Fault.exception) >>= f) st = _ ↔ _
  simp only [lift_bind_eq_ok, mapError_eq_ok]

theorem raise_bind_eq_error : (liftM x >>= f) st = .error e st' ↔
    (∃ exc, x = .error exc ∧ .exception exc = e) ∧ st' = st ∨
      ∃ a, x = .ok a ∧ f a st = .error e st' := by
  show (liftM (x.mapError Fault.exception) >>= f) st = _ ↔ _
  simp only [lift_bind_eq_error, mapError_eq_ok, mapError_eq_error]

theorem fails_raise_bind (hx : ∀ exc, x = .error exc → Q (.exception exc) st)
    (hf : ∀ a, x = .ok a → Fails Q (f a) st) : Fails Q (liftM x >>= f) st := by
  intro e st' h
  rcases raise_bind_eq_error.mp h with ⟨⟨exc, hfail, rfl⟩, rfl⟩ | ⟨a, hok, h⟩
  · exact hx exc hfail
  · exact hf a hok e st' h

end Raise

/-! ## Commands that fail -/

section Fail

variable {st : MemwatchShell} {argsStr : String} {target : Target}

/-- A failure that changes nothing, and does not come from an erasure. -/
def Harmless (st : MemwatchShell) (e : Fault) (st' : MemwatchShell) : Prop :=
  st' = st ∧ e ≠ .badErase

theorem harmless_exception (exc : Exception) : Harmless st (.exception exc) st := ⟨rfl, nofun⟩

theorem fails_reading_bind {α β : Type} {x : Except Exception α} {f : α → Command β}
    (hf : ∀ a, x = .ok a → Fails (Harmless st) (f a) st) : Fails (Harmless st) (liftM x >>= f) st :=
  fails_raise_bind (fun exc _ => harmless_exception exc) hf

theorem commandResults_fails : Fails (Harmless st) (commandResults argsStr) st := by
  refine fails_get_bind (fails_reading_bind fun _ _ => fails_reading_bind fun search _ => ?_)
  split
  · exact fails_throw (harmless_exception _)
  · exact fails_pure

theorem commandUndo_fails : Fails (Harmless st) (commandUndo argsStr) st := by
  refine fails_get_bind (fails_reading_bind fun _ _ => fails_reading_bind fun searches _ => ?_)
  split
  · exact fails_throw (harmless_exception _)
  · exact fails_set

theorem commandClose_fails : Fails (Harmless st) (commandClose argsStr) st := by
  refine fails_get_bind (fails_reading_bind fun _ _ => ?_)
  split <;> split
  · exact fails_throw (harmless_exception _)
  · exact fails_set
  · exact fails_throw (harmless_exception _)
  · exact fails_set

theorem ofStop_ne_badErase (stop : Stop) : Fault.ofStop stop ≠ .badErase := by
  cases stop <;> exact nofun

theorem deleteRanges_ne_badErase {search : MemorySearch} {toDelete : List (Nat × Nat)} :
    deleteRanges search toDelete ≠ .error .badErase := by
  unfold deleteRanges
  induction toDelete generalizing search with
  | nil => exact nofun
  | cons range toDelete ih =>
    rw [List.foldlM_cons]
    intro h
    rcases except_bind_eq_error.mp h with hfail | ⟨search', -, h⟩
    · obtain ⟨stop, -, hstop⟩ := mapError_eq_error.mp hfail
      exact ofStop_ne_badErase stop hstop
    · exact ih h

variable [PhosgText]

theorem commandDelete_fails : Fails (Harmless st) (commandDelete argsStr) st := by
  refine fails_get_bind (fails_reading_bind fun _ _ => fails_reading_bind fun search _ => ?_)
  refine fails_reading_bind fun args _ => fails_reading_bind fun toDelete _ => ?_
  refine fails_lift_bind (fun e he => ⟨rfl, fun heq => ?_⟩) fun search' _ => ?_
  · exact deleteRanges_ne_badErase (heq ▸ he)
  · exact fails_reading_bind fun searches _ => fails_set

theorem commandState_fails : Fails (Harmless st) (commandState argsStr) st := by
  refine fails_get_bind ?_
  split
  · exact fails_pure
  · exact fails_reading_bind fun args _ => fails_reading_bind fun st' _ => fails_set

theorem commandTruncate_fails : Fails (Harmless st) (commandTruncate argsStr) st := by
  refine fails_get_bind (fails_reading_bind fun _ _ => fails_reading_bind fun args _ => ?_)
  refine fails_reading_bind fun searches _ => fails_reading_bind fun count hcount => ?_
  split
  · exact fails_throw (harmless_exception _)
  · next hpos =>
    have hlt : count < 2 ^ 63 := toSigned_lt hcount
    have hleaves : LeavesSome count.toNat searches.length := ⟨fun _ => by omega, by omega⟩
    obtain ⟨searches', hok, -⟩ := retain_of_leaves hleaves (by omega)
    refine fails_lift_bind (fun e he => ?_) fun searches' _ => fails_set
    rw [hok] at he; cases he

/-- A `fork` fails before it does anything, or, with two names, when it has closed the
second search and there is no first one. -/
theorem commandFork_error {e : Fault} {st' : MemwatchShell}
    (h : commandFork argsStr st = .error e st') : e ≠ .badErase ∧
      (st' = st ∧ (st.interactive = true →
          ∀ name1 name2 args, splitArgs argsStr 1 2 ≠ .ok (name1 :: name2 :: args)) ∨
        ∃ name1 name2 args, splitArgs argsStr 1 2 = .ok (name1 :: name2 :: args) ∧
          (st.nameToSearches.erase name2).find? name1 = none ∧
          st' = { st with nameToSearches := st.nameToSearches.erase name2 }) := by
  rcases raise_bind_eq_error.mp h with ⟨⟨exc, hcheck, rfl⟩, rfl⟩ | ⟨-, -, h⟩
  · refine ⟨nofun, .inl ⟨rfl, fun hi => ?_⟩⟩
    rw [show st'.checkInteractive = .ok () from if_pos hi] at hcheck
    cases hcheck
  rcases raise_bind_eq_error.mp h with ⟨⟨exc, hfail, rfl⟩, rfl⟩ | ⟨args, hargs, h⟩
  · refine ⟨nofun, .inl ⟨rfl, fun _ name1 name2 args hargs => ?_⟩⟩
    rw [hfail] at hargs
    cases hargs
  rw [hargs]
  match args with
  | [] =>
    cases h
    exact ⟨nofun, .inl ⟨rfl, fun _ _ _ _ => nofun⟩⟩
  | [name] =>
    dsimp only at h
    split at h
    · cases h
      exact ⟨nofun, .inl ⟨rfl, fun _ _ _ _ => nofun⟩⟩
    · rcases raise_bind_eq_error.mp h with ⟨⟨exc, -, rfl⟩, rfl⟩ | ⟨searches, -, h⟩
      · exact ⟨nofun, .inl ⟨rfl, fun _ _ _ _ => nofun⟩⟩
      · cases h
  | name1 :: name2 :: args =>
    dsimp only at h
    rw [set_bind] at h
    cases hfind : (st.nameToSearches.erase name2).find? name1 with
    | some searches => simp only [hfind] at h; cases h
    | none =>
      simp only [hfind] at h
      cases h
      exact ⟨nofun, .inr ⟨name1, name2, args, rfl, hfind, rfl⟩⟩

variable [Phosg] [FloatText]

theorem newIteration_ne_badErase : newIteration st target argsStr ≠ .error .badErase := by
  intro h
  rcases except_bind_eq_error.mp h with hfail | ⟨args, -, h⟩
  · obtain ⟨exc, -, hexc⟩ := mapError_eq_error.mp hfail
    cases hexc
  cases args with
  | nil => cases h
  | cons arg args =>
    rcases except_bind_eq_error.mp h with hfail | ⟨⟨name, search, u⟩, -, h⟩
    · obtain ⟨exc, -, hexc⟩ := mapError_eq_error.mp hfail
      cases hexc
    rcases except_bind_eq_error.mp h with hfail | ⟨newSearch, -, h⟩
    · obtain ⟨stop, -, hstop⟩ := mapError_eq_error.mp hfail
      exact ofStop_ne_badErase stop hstop
    · cases h

/-- A search fails harmlessly unless there are too few iterations to erase. -/
def SearchFails (target : Target) (st : MemwatchShell) (argsStr : String) (e : Fault)
    (st' : MemwatchShell) : Prop :=
  st' = st ∧ (e = .badErase → ∃ name newSearch searches,
    newIteration st target argsStr = .ok (name, newSearch) ∧
    st.nameToSearches.find? name = some searches ∧
    retain (searches ++ [newSearch]) st.maxSearchIterations.toNat = .error .badErase)

theorem commandSearch_fails :
    Fails (SearchFails target st argsStr) (commandSearch target argsStr) st := by
  refine fails_get_bind (fails_raise_bind (fun exc _ => ⟨rfl, nofun⟩) fun _ _ => ?_)
  refine fails_lift_bind (fun e he => ⟨rfl, fun heq => ?_⟩) fun ⟨name, newSearch⟩ hnew => ?_
  · exact absurd (heq ▸ he) newIteration_ne_badErase
  refine fails_raise_bind (fun exc _ => ⟨rfl, nofun⟩) fun searches hsearches => ?_
  refine fails_lift_bind (fun e he => ⟨rfl, fun heq => ?_⟩) fun searches' _ => fails_set
  exact ⟨name, newSearch, searches, hnew, getSearches_eq_ok.mp hsearches, heq ▸ he⟩

/-- An `open` fails before it does anything, or in its initial search. -/
theorem commandOpen_error {e : Fault} {st' : MemwatchShell}
    (h : commandOpen target argsStr st = .error e st') :
    (Harmless st e st' ∧ (st.interactive = true → ∀ args out,
        splitArgs argsStr 0 4 = .ok args → st.opening args ≠ .ok out)) ∨
      ∃ args opened searchArgs, splitArgs argsStr 0 4 = .ok args ∧
        st.opening args = .ok (opened, some searchArgs) ∧
        commandSearch target searchArgs opened = .error e st' := by
  rcases raise_bind_eq_error.mp h with ⟨⟨exc, hcheck, rfl⟩, rfl⟩ | ⟨-, -, h⟩
  · refine .inl ⟨harmless_exception exc, fun hi => ?_⟩
    rw [show st'.checkInteractive = .ok () from if_pos hi] at hcheck
    cases hcheck
  rcases raise_bind_eq_error.mp h with ⟨⟨exc, hfail, rfl⟩, rfl⟩ | ⟨args, hargs, h⟩
  · refine .inl ⟨harmless_exception exc, fun _ args out hargs => ?_⟩
    rw [hfail] at hargs
    cases hargs
  rcases raise_bind_eq_error.mp h with
    ⟨⟨exc, hfail, rfl⟩, rfl⟩ | ⟨⟨opened, initialSearch⟩, hopening, h⟩
  · refine .inl ⟨harmless_exception exc, fun _ args' out hargs' hout => ?_⟩
    cases hargs.symm.trans hargs'
    rw [hfail] at hout
    cases hout
  cases initialSearch with
  | none => cases h
  | some searchArgs => exact .inr ⟨args, opened, searchArgs, hargs, hopening, h⟩

end Fail

end MemwatchShell
end Memwatch
