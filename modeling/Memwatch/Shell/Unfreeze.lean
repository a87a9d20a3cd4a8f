import Memwatch.Shell.Enable

/-!
# Regions by an id

`unfreeze`, `enable` and `disable` try the regions of a name, of an address and of an
index in this order and stop at the first of these keys that does something. What that is
for the list the freezer stands for is said once for the three of them, by `Trial`.
-/

namespace Memwatch

namespace MemwatchShell

open Lib Text RegionFreezer

def commandUnfreeze (argsStr : String) : Command Unit := do
  let st ← get
  st.checkInteractive
  if argsStr = "*" then do
    let _ ← callFreezer fun freezer => freezer.unfreezeAll
  else if argsStr ≠ "" then do
    let numRegions ← callFreezer fun freezer => freezer.unfreezeName argsStr
    if numRegions ≠ 0 then pure ()
    else do
      let st ← get
      let addr ← st.getAddrFromCommand argsStr
      let numRegions ← callFreezer fun freezer => freezer.unfreezeAddr addr
      if numRegions ≠ 0 then pure ()
      else do
        let (index, offset) ← stoull argsStr 10
        if offset = 0 then throw (.exception (invalidArgument "bad argument to unfreeze"))
        else do
          let found ← callFreezer fun freezer => freezer.unfreezeIndex index
          if found then pure ()
          else throw (.exception (outOfRange "no regions matched"))
  else pure ()

/-! ## Keys -/

abbrev Key := RegionFreezer.Region → Bool

/-- What an id may stand for: a name, and an address and an index, as far as it reads as
such. -/
def keys (st : MemwatchShell) (id : String) : List Key :=
  (fun r => r.name = id) ::
    match st.getAddrFromCommand id with
    | .error _ => []
    | .ok addr => (fun r => r.addr = addr) ::
      match stoull id 10 with
      | .error _ => []
      | .ok (index, offset) => if offset = 0 then [] else [fun r => r.index = index]

/-- What a command does to the regions of a key, and whether that is anything. -/
structure Trial where
  act : RegionList → Key → RegionList
  hits : RegionList → Key → Bool
  idle : ∀ l key, hits l key = false → act l key = l

namespace Trial

variable (t : Trial) (l : RegionList) (keys : List Key)

def firstHit : Option Key := keys.find? (t.hits l)

/-- The list after the first key that does something. -/
def tried : RegionList :=
  match t.firstHit l keys with
  | some key => t.act l key
  | none => l

def unfreeze : Trial where
  act l key := l.remove key
  hits l key := l.regions.any key
  idle l key h := by
    have hall : ∀ r ∈ l.regions, (!key r) = true := by
      intro r hr
      simpa using List.any_eq_false.mp h r hr
    rw [RegionList.remove, List.filter_eq_self.mpr hall]

def setEnable (enable : Bool) : Trial where
  act l key := l.setEnable key enable
  hits l key := l.regions.any fun r => key r && r.enable != enable
  idle l key h := by
    have hall : ∀ r ∈ l.regions, (if key r then { r with enable := enable } else r) = r := by
      intro r hr
      have hidle := List.any_eq_false.mp h r hr
      split
      · next hkey =>
        rw [hkey, Bool.true_and, bne_iff_ne, ne_eq, not_not] at hidle
        rw [← hidle]
      · rfl
    rw [RegionList.setEnable, List.map_congr_left hall, List.map_id']

end Trial

/-! ## Trying keys -/

/-- How a program ends that tries keys: the freezer stands for the list after the first key
that does something, the rest of the shell is as it was, and there is an exception if there
is no such key. -/
structure Tries (t : Trial) (st : MemwatchShell) (l : RegionList) (keys : List Key)
    (result : EStateM.Result Fault MemwatchShell Unit) : Prop where
  represents : Represents (endState result).freezer (t.tried l keys)
  frame : endState result = { st with freezer := (endState result).freezer }
  failed : (∃ e st', result = .error (.exception e) st') ↔ t.firstHit l keys = none
  faultless : ∀ fault st', result = .error fault st' → ∃ e, fault = .exception e

section Tries

variable {t : Trial} {st : MemwatchShell} {l : RegionList} {key : Key} {keys : List Key}

theorem Trial.firstHit_cons :
    t.firstHit l (key :: keys) = if t.hits l key then some key else t.firstHit l keys := by
  unfold firstHit
  rw [List.find?_cons]
  cases t.hits l key <;> rfl

theorem tries_error (hl : Represents st.freezer l) (e : Exception) :
    Tries t st l [] (.error (.exception e) st) where
  represents := hl
  frame := rfl
  failed := ⟨fun _ => rfl, fun _ => ⟨e, st, rfl⟩⟩
  faultless := by
    rintro _ _ ⟨⟩
    exact ⟨e, rfl⟩

/-- A key that does something ends the search. -/
theorem tries_of_hit {freezer : RegionFreezer} (hhit : t.hits l key = true)
    (hl : Represents freezer (t.act l key)) :
    Tries t st l (key :: keys) (.ok () { st with freezer := freezer }) := by
  have hfirst : t.firstHit l (key :: keys) = some key := by rw [Trial.firstHit_cons, if_pos hhit]
  refine ⟨?_, rfl, ?_, nofun⟩
  · rw [Trial.tried, hfirst]
    exact hl
  · rw [hfirst]
    exact ⟨nofun, nofun⟩

/-- After a key that does nothing the others are tried, in a shell that may have another
freezer for the same list. -/
theorem tries_of_miss {freezer : RegionFreezer} {result : EStateM.Result Fault MemwatchShell Unit}
    (hmiss : t.hits l key = false) (h : Tries t { st with freezer := freezer } l keys result) :
    Tries t st l (key :: keys) result := by
  have hfirst : t.firstHit l (key :: keys) = t.firstHit l keys := by
    rw [Trial.firstHit_cons, hmiss]
    rfl
  refine ⟨?_, h.frame, ?_, h.faultless⟩
  · have hrep := h.represents
    rw [Trial.tried] at hrep ⊢
    rw [hfirst]
    exact hrep
  · rw [hfirst]
    exact h.failed

theorem represents_of_call {l' : RegionList} (hl : Represents st.freezer l)
    (hlt : l.numCreated < 2 ^ 64) (op : Op) (hop : op ≠ .unfreezeAll) {freezer : RegionFreezer}
    {returned expected : Returned} (hcall : st.freezer.call op = (freezer, returned))
    (hlist : l.call op = (l', expected)) : Represents freezer l' ∧ returned = expected := by
  have h := hl.call (by rw [hl.created]; exact hlt) hop
  rw [hcall, hlist] at h
  exact h

theorem tries_cons {f : RegionFreezer → RegionFreezer × Nat} {rest : Command Unit} {count : Nat}
    (hf : Represents (f st.freezer).1 (t.act l key) ∧
      Returned.count (f st.freezer).2 = .count count)
    (hcount : count = 0 ↔ t.hits l key = false)
    (hrest : Represents (f st.freezer).1 l →
      Tries t { st with freezer := (f st.freezer).1 } l keys
        (rest { st with freezer := (f st.freezer).1 })) :
    Tries t st l (key :: keys)
      ((callFreezer f >>= fun numRegions => if numRegions ≠ 0 then pure () else rest) st) := by
  obtain ⟨hrep, hreturned⟩ := hf
  show Tries t st l (key :: keys)
    ((if (f st.freezer).2 ≠ 0 then pure () else rest) { st with freezer := (f st.freezer).1 })
  rw [Returned.count.inj hreturned]
  cases hhit : t.hits l key with
  | false =>
    rw [t.idle l key hhit] at hrep
    rw [if_neg (not_not.mpr (hcount.mpr hhit))]
    exact tries_of_miss hhit (hrest hrep)
  | true =>
    have hne : count ≠ 0 := fun hzero => by rw [hcount.mp hzero] at hhit; cases hhit
    rw [if_pos hne]
    exact tries_of_hit hhit hrep

theorem tries_last {f : RegionFreezer → RegionFreezer × Bool} {e : Exception}
    (hf : Represents (f st.freezer).1 (t.act l key) ∧
      Returned.found (f st.freezer).2 = .found (t.hits l key)) :
    Tries t st l [key]
      ((callFreezer f >>= fun found =>
        if found then pure () else throw (Fault.exception e)) st) := by
  obtain ⟨hrep, hreturned⟩ := hf
  show Tries t st l [key] ((if (f st.freezer).2 then pure () else throw (Fault.exception e) :
    Command Unit) { st with freezer := (f st.freezer).1 })
  rw [Returned.found.inj hreturned]
  cases hhit : t.hits l key with
  | true => exact tries_of_hit hhit hrep
  | false =>
    rw [t.idle l key hhit] at hrep
    have herror : Tries t { st with freezer := (f st.freezer).1 } l [] _ := tries_error hrep e
    exact tries_of_miss hhit herror

end Tries

/-! ## The commands -/

section Commands

variable {st : MemwatchShell} {l : RegionList} {id : String} {enable : Bool}

theorem numMatches_eq_zero (key : Key) :
    l.numMatches key = 0 ↔ Trial.unfreeze.hits l key = false := by
  rw [RegionList.numMatches, List.countP_eq_zero]
  exact List.any_eq_false.symm

theorem numChanged_eq_zero (key : Key) (enable : Bool) :
    l.numChanged key enable = 0 ↔ (Trial.setEnable enable).hits l key = false := by
  rw [RegionList.numChanged, List.countP_eq_zero]
  exact List.any_eq_false.symm

variable (hl : Represents st.freezer l) (hlt : l.numCreated < 2 ^ 64)
  (hi : st.interactive = true) (hall : id ≠ "*") (hid : id ≠ "")

include hl hlt hi hall hid

/-- `unfreeze` removes the regions of the first key that has any, and no others: names go
before addresses, and addresses before indexes. -/
theorem tries_unfreeze : Tries .unfreeze st l (st.keys id) (commandUnfreeze id st) := by
  have hcheck : st.checkInteractive = .ok () := if_pos hi
  unfold commandUnfreeze keys
  rw [get_bind, raise_bind_of_ok hcheck, if_neg hall, if_pos hid]
  apply tries_cons
  · exact represents_of_call hl hlt (.unfreezeName id) nofun rfl rfl
  · exact numMatches_eq_zero _
  intro hl
  rw [get_bind]
  show Tries _ _ l _ ((liftM (st.getAddrFromCommand id) >>= _ : Command Unit) _)
  cases st.getAddrFromCommand id with
  | error e => exact tries_error hl e
  | ok addr =>
    rw [raise_bind_of_ok rfl]
    apply tries_cons
    · exact represents_of_call hl hlt (.unfreezeAddr addr) nofun rfl rfl
    · exact numMatches_eq_zero _
    intro hl
    cases stoull id 10 with
    | error e => exact tries_error hl e
    | ok number =>
      obtain ⟨index, offset⟩ := number
      rw [raise_bind_of_ok rfl]
      dsimp only
      split_ifs with hoffset
      · exact tries_error hl _
      · apply tries_last
        exact represents_of_call hl hlt (.unfreezeIndex index) nofun rfl rfl

/-- `enable` and `disable` give the flag to the regions of the first key that has one with
the other flag. -/
theorem tries_enable :
    Tries (.setEnable enable) st l (st.keys id) (commandEnableDisable id enable st) := by
  have hcheck : st.checkInteractive = .ok () := if_pos hi
  unfold commandEnableDisable keys
  rw [get_bind, raise_bind_of_ok hcheck, if_neg hall, if_pos hid]
  apply tries_cons
  · exact represents_of_call hl hlt (.enableName id enable) nofun rfl rfl
  · exact numChanged_eq_zero _ enable
  intro hl
  rw [get_bind]
  show Tries _ _ l _ ((liftM (st.getAddrFromCommand id) >>= _ : Command Unit) _)
  cases st.getAddrFromCommand id with
  | error e => exact tries_error hl e
  | ok addr =>
    rw [raise_bind_of_ok rfl]
    apply tries_cons
    · exact represents_of_call hl hlt (.enableAddr addr enable) nofun rfl rfl
    · exact numChanged_eq_zero _ enable
    intro hl
    cases stoull id 10 with
    | error e => exact tries_error hl e
    | ok number =>
      obtain ⟨index, offset⟩ := number
      rw [raise_bind_of_ok rfl]
      dsimp only
      split_ifs with hoffset
      · exact tries_error hl _
      · apply tries_last
        exact represents_of_call hl hlt (.enableIndex index enable) nofun rfl rfl

end Commands

end MemwatchShell
end Memwatch
