import Memwatch.Freezer.Reference
import Memwatch.Lib.FirstGroup
import Memwatch.Shell.Failing

/-!
# Enabling and disabling by an id

An id names regions, and may read as an address and as an index. `enable` and
`disable` try the three in order and stop at the first one that changes a flag, not
at the first one that matches. So a region of the name that has the flag already
does not keep the command from regions with other names (`name_first_iff`).
-/

namespace Memwatch

open Lib Text RegionFreezer

namespace RegionFreezer

variable {s : RegionFreezer} {its : List Nat} {enable : Bool}

/-- The flags of a list of regions. -/
def withEnabled (s : RegionFreezer) (its : List Nat) (enable : Bool) : RegionFreezer :=
  { s with heap := fun p => if p ∈ its then { s.heap p with enable := enable } else s.heap p }

def hasFlag (s : RegionFreezer) (enable : Bool) (p : Nat) : Bool := (s.heap p).enable == enable

theorem setEnable_fst (s : RegionFreezer) (its : List Nat) (enable : Bool) :
    (s.setEnable its enable).1 = s.withEnabled its enable := by
  obtain ⟨heap, heq, hheap⟩ := setEnable_spec s its enable
  rw [heq, withEnabled]
  congr
  exact funext hheap

theorem withEnabled_nil : s.withEnabled [] enable = s := by simp [withEnabled]

theorem setEnable_eq_zero :
    (s.setEnable its enable).2 = 0 ↔ its.all (s.hasFlag enable) = true := by
  induction its with
  | nil => simp [setEnable]
  | cons p its ih =>
    rw [setEnable_cons, List.all_cons]
    by_cases heq : (s.heap p).enable = enable
    · rw [if_pos heq, show s.hasFlag enable p = true by simpa [hasFlag] using heq, Bool.true_and]
      exact ih
    · rw [if_neg heq, show s.hasFlag enable p = false by simpa [hasFlag] using heq]
      simp

theorem withEnabled_of_all (h : its.all (s.hasFlag enable) = true) :
    s.withEnabled its enable = s := by
  have hheap : (fun p => if p ∈ its then { s.heap p with enable := enable } else s.heap p) =
      s.heap := by
    funext p
    split
    · next hp =>
      have hflag : (s.heap p).enable = enable := by
        simpa [hasFlag] using List.all_eq_true.mp h p hp
      rw [← hflag]
    · rfl
  rw [withEnabled, hheap]

theorem hasFlag_withEnabled :
    (s.withEnabled its enable).hasFlag enable = turnOn (s.hasFlag enable) its := by
  funext p
  by_cases hp : p ∈ its <;> simp [withEnabled, hasFlag, turnOn, hp]

theorem withEnabled_eq_self :
    s.withEnabled its enable = s ↔ ∀ p ∈ its, s.hasFlag enable p = true := by
  refine ⟨fun h p hp => ?_, fun h => withEnabled_of_all (List.all_eq_true.mpr h)⟩
  rw [← h, hasFlag_withEnabled]
  exact turnOn_eq_true.mpr (.inr hp)

end RegionFreezer

namespace MemwatchShell

/-! ## The command -/

/-- A call of the freezer that changes it and returns a value. -/
def callFreezer {α : Type} (f : RegionFreezer → RegionFreezer × α) : Command α := fun st =>
  .ok (f st.freezer).2 { st with freezer := (f st.freezer).1 }

def commandEnableDisable (argsStr : String) (enable : Bool) : Command Unit := do
  let st ← get
  st.checkInteractive
  if argsStr = "*" then do
    let _ ← callFreezer fun freezer => freezer.enableAll enable
  else if argsStr ≠ "" then do
    let numRegions ← callFreezer fun freezer => freezer.enableName argsStr enable
    if numRegions ≠ 0 then pure ()
    else do
      let st ← get
      let addr ← st.getAddrFromCommand argsStr
      let numRegions ← callFreezer fun freezer => freezer.enableAddr addr enable
      if numRegions ≠ 0 then pure ()
      else do
        let (index, offset) ← stoull argsStr 10
        if offset = 0 then
          throw (.exception (invalidArgument "bad argument to enable/disable"))
        else do
          let changed ← callFreezer fun freezer => freezer.enableIndex index enable
          if changed then pure ()
          else throw (.exception (outOfRange "no regions matched"))
  else pure ()

/-- The shell that a command leaves, whether it throws or not. -/
def after (command : Command Unit) (st : MemwatchShell) : MemwatchShell :=
  match command st with
  | .ok () st => st
  | .error _ st => st

/-! ## What an id denotes -/

/-- The regions of the name, at the address the id reads as, and of the index it
reads as. An id that is no address is not read as an index. -/
def denoted (st : MemwatchShell) (id : String) : List (List Nat) :=
  st.freezer.regionsByName.equalRange id ::
    match st.getAddrFromCommand id with
    | .error _ => []
    | .ok addr => st.freezer.regionsByAddr.equalRange addr ::
      match stoull id 10 with
      | .error _ => []
      | .ok (index, offset) =>
        if offset = 0 then [] else [(st.freezer.regionsByIndex.find? index).toList]

/-- The first of these groups in which a region has the other flag. -/
def firstChanged (st : MemwatchShell) (id : String) (enable : Bool) : List Nat :=
  firstOff (st.freezer.hasFlag enable) (st.denoted id)

/-- The shell in which a list of regions has the flag. -/
def flagged (st : MemwatchShell) (its : List Nat) (enable : Bool) : MemwatchShell :=
  { st with freezer := st.freezer.withEnabled its enable }

section After

variable {st : MemwatchShell} {id : String} {enable : Bool}

theorem after_get_bind (f : MemwatchShell → Command Unit) (st : MemwatchShell) :
    after (get >>= f) st = after (f st) st := rfl

theorem after_error_bind {α : Type} (e : Exception) (f : α → Command Unit) :
    after (liftM (Except.error e : Except Exception α) >>= f) st = st := rfl

theorem after_ok_bind {α : Type} (a : α) (f : α → Command Unit) :
    after (liftM (Except.ok a : Except Exception α) >>= f) st = after (f a) st := rfl

theorem flagged_nil : st.flagged [] enable = st := by rw [flagged, withEnabled_nil]

theorem flagged_last {its : List Nat} :
    st.flagged (firstOff (st.freezer.hasFlag enable) [its]) enable = st.flagged its enable := by
  rw [firstOff]
  split
  · next hon => rw [firstOff, flagged_nil, flagged, withEnabled_of_all hon]
  · rfl

theorem after_ite_throw {p : Prop} [Decidable p] {e : Fault} :
    after (if p then pure () else throw e) st = st := by
  split <;> rfl

theorem after_try {its : List Nat} {f : RegionFreezer → RegionFreezer × Nat}
    (hf : f st.freezer = st.freezer.setEnable its enable) {rest : Command Unit}
    {groups : List (List Nat)}
    (hrest : after rest st = st.flagged (firstOff (st.freezer.hasFlag enable) groups) enable) :
    after (callFreezer f >>= fun numRegions => if numRegions ≠ 0 then pure () else rest) st =
      st.flagged (firstOff (st.freezer.hasFlag enable) (its :: groups)) enable := by
  show after (if (f st.freezer).2 ≠ 0 then pure () else rest)
    { st with freezer := (f st.freezer).1 } = _
  rw [hf, setEnable_fst, firstOff]
  by_cases hzero : (st.freezer.setEnable its enable).2 = 0
  · have hon := setEnable_eq_zero.mp hzero
    rw [if_neg (not_not.mpr hzero), if_pos hon, withEnabled_of_all hon]
    exact hrest
  · have hoff := fun hon => hzero (setEnable_eq_zero.mpr hon)
    rw [if_pos hzero, if_neg hoff]
    rfl

/-- The command gives the flag to the first group in which a region has the other one. -/
theorem after_commandEnableDisable (hi : st.interactive = true) (hall : id ≠ "*") (hid : id ≠ "") :
    after (commandEnableDisable id enable) st = st.flagged (st.firstChanged id enable) enable := by
  have hcheck : st.checkInteractive = .ok () := if_pos hi
  unfold commandEnableDisable firstChanged denoted
  rw [after_get_bind, hcheck, after_ok_bind, if_neg hall, if_pos hid]
  refine after_try ?_ ?_
  · rfl
  rw [after_get_bind]
  cases st.getAddrFromCommand id with
  | error e => exact (after_error_bind e _).trans flagged_nil.symm
  | ok addr =>
    rw [after_ok_bind]
    refine after_try ?_ ?_
    · rfl
    cases stoull id 10 with
    | error e => exact (after_error_bind e _).trans flagged_nil.symm
    | ok index =>
      rw [after_ok_bind]
      obtain ⟨index, offset⟩ := index
      dsimp only
      split_ifs with hoffset
      · exact flagged_nil.symm
      · refine after_ite_throw.trans ?_
        show { st with freezer := (st.freezer.enableIndex index enable).1 } = _
        rw [enableIndex_eq, setEnable_fst, flagged_last]
        rfl

/-- The groups do not depend on flags. -/
theorem firstChanged_flagged {its : List Nat} : (st.flagged its enable).firstChanged id enable =
    firstOff (turnOn (st.freezer.hasFlag enable) its) (st.denoted id) := by
  rw [← hasFlag_withEnabled]
  rfl

end After

/-! ## Names first -/

/-- What `enable` and `disable` are documented to do: where a frozen region has the
name, no region with another name is touched; and the second time nothing happens. -/
structure NameFirst (st : MemwatchShell) (id : String) (enable : Bool) : Prop where
  named : (∃ r ∈ st.freezer.visited, r.name = id) → ∀ p, (st.freezer.heap p).name ≠ id →
    ((after (commandEnableDisable id enable) st).freezer.heap p).enable =
      (st.freezer.heap p).enable
  twice : (after (commandEnableDisable id enable)
      (after (commandEnableDisable id enable) st)).freezer =
    (after (commandEnableDisable id enable) st).freezer

/-- Every region the id denotes has the flag or is in the first group where one has
not; and if there is a region of the name, that group has no others to change. -/
structure Unambiguous (st : MemwatchShell) (id : String) (enable : Bool) : Prop where
  named : (∃ r ∈ st.freezer.visited, r.name = id) → ∀ p ∈ st.firstChanged id enable,
    st.freezer.hasFlag enable p = true ∨ (st.freezer.heap p).name = id
  rest : ∀ g ∈ st.denoted id, ∀ p ∈ g,
    st.freezer.hasFlag enable p = true ∨ p ∈ st.firstChanged id enable

section NameFirst

variable {st : MemwatchShell} {id : String} {enable : Bool}

theorem after_of_not_interactive (hi : ¬ st.interactive = true) :
    after (commandEnableDisable id enable) st = st := by
  have hcheck : st.checkInteractive = .error _ := if_neg hi
  unfold commandEnableDisable
  rw [after_get_bind, hcheck, after_error_bind]

theorem enable_withEnabled {s : RegionFreezer} {its : List Nat} {p : Nat} :
    ((s.withEnabled its enable).heap p).enable = (s.heap p).enable ↔
      (p ∈ its → s.hasFlag enable p = true) := by
  unfold withEnabled
  dsimp only
  split
  · next hp => rw [hasFlag, beq_iff_eq, eq_comm, imp_iff_right hp]
  · next hp => exact iff_of_true rfl fun h => absurd h hp

theorem named_iff (hi : st.interactive = true) (hall : id ≠ "*") (hid : id ≠ "") :
    (∀ p, (st.freezer.heap p).name ≠ id →
      ((after (commandEnableDisable id enable) st).freezer.heap p).enable =
        (st.freezer.heap p).enable) ↔
      ∀ p ∈ st.firstChanged id enable,
        st.freezer.hasFlag enable p = true ∨ (st.freezer.heap p).name = id := by
  rw [after_commandEnableDisable hi hall hid, flagged]
  refine forall_congr' fun p => ?_
  rw [enable_withEnabled]
  tauto

theorem twice_iff (hi : st.interactive = true) (hall : id ≠ "*") (hid : id ≠ "") :
    (after (commandEnableDisable id enable)
        (after (commandEnableDisable id enable) st)).freezer =
      (after (commandEnableDisable id enable) st).freezer ↔
      ∀ g ∈ st.denoted id, ∀ p ∈ g,
        st.freezer.hasFlag enable p = true ∨ p ∈ st.firstChanged id enable := by
  rw [after_commandEnableDisable hi hall hid]
  have hi' : (st.flagged (st.firstChanged id enable) enable).interactive = true := hi
  rw [after_commandEnableDisable hi' hall hid, firstChanged_flagged]
  show (st.freezer.withEnabled (st.firstChanged id enable) enable).withEnabled _ enable =
    st.freezer.withEnabled (st.firstChanged id enable) enable ↔ _
  rw [withEnabled_eq_self, hasFlag_withEnabled]
  exact settled_iff

/-- `enable` and `disable` put names first and do nothing the second time if and only
if what the id denotes is unambiguous. -/
theorem name_first_iff (hall : id ≠ "*") (hid : id ≠ "") :
    NameFirst st id enable ↔ (st.interactive = true → Unambiguous st id enable) := by
  by_cases hi : st.interactive = true
  · constructor
    · intro h _
      exact ⟨fun hex => (named_iff hi hall hid).mp (h.named hex),
        (twice_iff hi hall hid).mp h.twice⟩
    · intro h
      obtain ⟨hnamed, hrest⟩ := h hi
      exact ⟨fun hex => (named_iff hi hall hid).mpr (hnamed hex), (twice_iff hi hall hid).mpr hrest⟩
  · refine ⟨fun _ h => absurd h hi, fun _ => ⟨fun _ p _ => ?_, ?_⟩⟩
    · rw [after_of_not_interactive hi]
    · rw [after_of_not_interactive hi, after_of_not_interactive hi]

end NameFirst

/-- A new shell with regions frozen at `0x1000` and `0x2000`, of which the second is
disabled. -/
def frozenShell (name1 name2 : String) : MemwatchShell :=
  { new "target" 10 5 false true false with
    freezer := (RegionFreezer.new.freeze name1 0x1000 [1] true).freeze name2 0x2000 [2] false }

/-- A name that is neither an address nor an index. -/
theorem name_first_word : NameFirst (frozenShell "x" "hp") "hp" true := by
  refine (name_first_iff (by decide) (by decide)).mpr fun _ => ⟨fun _ => ?_, ?_⟩ <;> decide +kernel

/-- The region of the name `1` is enabled, so that the one of the index 1 is enabled too. -/
theorem name_not_first : ¬ NameFirst (frozenShell "1" "hp") "1" true := by
  intro h
  have hkept := h.named ⟨_, List.mem_cons_self, rfl⟩ 1 (by decide)
  revert hkept
  decide +kernel

end MemwatchShell
end Memwatch
