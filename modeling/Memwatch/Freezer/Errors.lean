import Memwatch.Adapter.Model
import Memwatch.Freezer.Writer

/-!
# Errors of frozen regions

A pass sets the error of a region that it cannot write to the text of the adapter, which
is never empty. It clears the error of a plain region that it writes and of an array that
holds the data; a write to an item of an array leaves the error that was there.
-/

namespace Memwatch

open Lib

namespace RegionFreezer

variable {σ : Type} {A : Adapter σ} {s : RegionFreezer} {r : Region} {mem : σ}

/-- Every failure of the adapter has a text. -/
structure Speaks (A : Adapter σ) : Prop where
  read : ∀ mem addr size what, A.read mem addr size = .error what → what ≠ ""
  write : ∀ mem addr data what, (A.write mem addr data).1 = .error what → what ≠ ""

/-! ## The adapter of the process -/

/-- The reads and writes of the kernel on a process in some state. -/
structure VmAccess (σ : Type) where
  vmReadOverwrite : σ → (addr size : Nat) → Except KernReturn Bytes
  vmWrite : σ → (addr : Nat) → (data : Bytes) → Except KernReturn Unit × σ

/-- `ProcessMemoryAdapter` as the freezer uses it: `read` and `write`, and the texts of
their exceptions. -/
def processAdapter (adapter : ProcessMemoryAdapter) (vm : VmAccess σ)
    (stray : Bytes → Nat → UInt8) : Adapter σ where
  read mem addr size := (vm.vmReadOverwrite mem addr size).mapError fun ret =>
    (adapter.refused "read from" addr size ret).what
  write mem addr data :=
    ((vm.vmWrite mem addr data).1.mapError fun ret =>
      (adapter.refused "write to" addr data.length ret).what, (vm.vmWrite mem addr data).2)
  stray := stray

theorem what_refused_ne (adapter : ProcessMemoryAdapter) (what : String) (addr size : Nat)
    (ret : KernReturn) : (adapter.refused what addr size ret).what ≠ "" := by
  intro h
  have := congrArg String.toList h
  simp [ProcessMemoryAdapter.refused, runtimeError] at this

theorem processAdapter_speaks (adapter : ProcessMemoryAdapter) (vm : VmAccess σ)
    (stray : Bytes → Nat → UInt8) : Speaks (processAdapter adapter vm stray) where
  read mem addr size what h := by
    obtain ⟨ret, -, rfl⟩ := mapError_eq_error.mp h
    exact what_refused_ne _ _ _ _ _
  write mem addr data what h := by
    obtain ⟨ret, -, rfl⟩ := mapError_eq_error.mp h
    exact what_refused_ne _ _ _ _ _

/-! ## One write -/

/-- What the loop over an array read from `mem` ends with. -/
def Region.scan (A : Adapter σ) (r : Region) (items : ArrayItems) (mem : σ) : Except String Slot :=
  (A.read mem r.addr (items.numItems * r.data.length % 2 ^ 64)).map fun contents =>
    findSlot A r.data items contents items.numItems 0

/-- A write to the region fails: a read or write of the adapter does, or an array has
neither the data nor a null item. -/
def Region.Fails (A : Adapter σ) (r : Region) (mem : σ) : Prop :=
  match r.items with
  | none => (A.write mem r.addr r.data).1 ≠ .ok ()
  | some items =>
    match r.scan A items mem with
    | .error _ => True
    | .ok .present => False
    | .ok .none => True
    | .ok (.at x) => (A.write mem (add64 r.addr (x * r.data.length)) r.data).1 ≠ .ok ()

/-- The region has an error and writes an item of its array. -/
def Region.KeepsError (A : Adapter σ) (r : Region) (mem : σ) : Prop :=
  r.error ≠ "" ∧ ∃ items x, r.items = some items ∧ r.scan A items mem = .ok (.at x) ∧
    (A.write mem (add64 r.addr (x * r.data.length)) r.data).1 = .ok ()

/-- The error after a write by the adapter, over the error `old`. -/
def errorAfter (old : String) : Except String Unit → String
  | .ok () => old
  | .error what => what

theorem error_write_plain (h : r.items = none) :
    (r.write A mem).1.error = errorAfter "" (A.write mem r.addr r.data).1 := by
  unfold Region.write
  rw [h]
  dsimp only
  cases A.write mem r.addr r.data with
  | mk res mem' => cases res <;> rfl

theorem error_write_array {items : ArrayItems} (h : r.items = some items) :
    (r.write A mem).1.error =
      match r.scan A items mem with
      | .error what => what
      | .ok .present => ""
      | .ok (.at x) =>
        errorAfter r.error (A.write mem (add64 r.addr (x * r.data.length)) r.data).1
      | .ok .none => "no available spaces" := by
  unfold Region.write Region.scan
  rw [h]
  dsimp only
  cases A.read mem r.addr (items.numItems * r.data.length % 2 ^ 64) with
  | error what => rfl
  | ok contents =>
    dsimp only [Except.map]
    cases findSlot A r.data items contents items.numItems 0 with
    | present => rfl
    | none => rfl
    | «at» x =>
      dsimp only
      cases A.write mem (add64 r.addr (x * r.data.length)) r.data with
      | mk res mem' => cases res <;> rfl

theorem errorAfter_empty_ne {addr : Nat} {data : Bytes} (hA : Speaks A) :
    errorAfter "" (A.write mem addr data).1 ≠ "" ↔ (A.write mem addr data).1 ≠ .ok () := by
  cases hw : (A.write mem addr data).1 with
  | ok _ => simp [errorAfter]
  | error what => simpa [errorAfter] using hA.write mem addr data what hw

theorem Speaks.scan {items : ArrayItems} {what : String} (hA : Speaks A)
    (h : r.scan A items mem = .error what) : what ≠ "" := by
  unfold Region.scan at h
  cases hread : A.read mem r.addr (items.numItems * r.data.length % 2 ^ 64) with
  | error what' =>
    rw [hread] at h
    cases h
    exact hA.read _ _ _ _ hread
  | ok contents =>
    rw [hread] at h
    cases h

/-- After a write the error tells whether it failed, exactly if no error is kept. -/
theorem error_write_iff (hA : Speaks A) (r : Region) (mem : σ) :
    ((r.write A mem).1.error ≠ "" ↔ r.Fails A mem) ↔ ¬ r.KeepsError A mem := by
  cases hitems : r.items with
  | none =>
    have hplain : r.Fails A mem ↔ (A.write mem r.addr r.data).1 ≠ .ok () := by
      unfold Region.Fails
      rw [hitems]
    have hkeep : ¬ r.KeepsError A mem := by
      rintro ⟨-, items, x, hsome, -⟩
      rw [hitems] at hsome
      cases hsome
    rw [error_write_plain hitems, hplain]
    exact ⟨fun _ => hkeep, fun _ => errorAfter_empty_ne hA⟩
  | some items =>
    unfold Region.Fails Region.KeepsError
    rw [error_write_array hitems, hitems]
    dsimp only
    cases hscan : r.scan A items mem with
    | error what =>
      have hwhat := hA.scan hscan
      simp [hwhat, hscan]
    | ok slot =>
      cases slot with
      | present => simp [hscan]
      | none => simp [hscan]
      | «at» x =>
        cases hw : (A.write mem (add64 r.addr (x * r.data.length)) r.data).1 with
        | ok _ => simp [hscan, hw, errorAfter]
        | error what =>
          have hwhat := hA.write _ _ _ _ hw
          simp [hscan, hw, hwhat, errorAfter]

/-! ## Passes -/

/-- What a pass finds of the process when it has written the regions of some entries. -/
def turn (A : Adapter σ) (s : RegionFreezer) (mem : σ) (before : List (Nat × Nat)) : σ :=
  (before.foldl (writeEntry A) (s, mem, [])).2.1

/-- After a pass the error of every enabled region tells whether the pass failed for it. -/
def PassReports (A : Adapter σ) (s : RegionFreezer) (mem : σ) : Prop :=
  ∀ before e after, s.regionsByIndex.entries = before ++ e :: after →
    (s.heap e.2).enable = true →
    (((s.writePass A mem).1.heap e.2).error ≠ "" ↔
      (s.heap e.2).Fails A (turn A s mem before))

/-- No enabled array region has an error and writes an item in the pass. -/
def PassClean (A : Adapter σ) (s : RegionFreezer) (mem : σ) : Prop :=
  ∀ before e after, s.regionsByIndex.entries = before ++ e :: after →
    (s.heap e.2).enable = true → ¬ (s.heap e.2).KeepsError A (turn A s mem before)

theorem heap_writePass (h : Keyed s) {before after : List (Nat × Nat)} {e : Nat × Nat}
    (hentries : s.regionsByIndex.entries = before ++ e :: after)
    (hon : (s.heap e.2).enable = true) :
    (s.writePass A mem).1.heap e.2 = ((s.heap e.2).write A (turn A s mem before)).1 := by
  have hnodup : (s.regionsByIndex.entries.map Prod.snd).Nodup :=
    nodup_values (fun p => (s.heap p).index) (nodup_entries _) fun d hd => (h.indexes d hd).2
  rw [hentries, List.map_append, List.map_cons] at hnodup
  obtain ⟨-, hafter, hbefore⟩ := List.nodup_append.mp hnodup
  have hpre : ∀ d ∈ before, d.2 ≠ e.2 := fun d hd =>
    hbefore d.2 (List.mem_map_of_mem hd) e.2 List.mem_cons_self
  have hpost : ∀ d ∈ after, d.2 ≠ e.2 := fun d hd heq =>
    (List.nodup_cons.mp hafter).1 (heq ▸ List.mem_map_of_mem hd)
  unfold writePass turn
  rw [hentries, List.foldl_append, List.foldl_cons,
    heap_foldl_writeEntry A _ fun d hd _ => hpost d hd]
  have hsame := heap_foldl_writeEntry A (s, mem, []) fun d hd _ => hpre d hd
  generalize before.foldl (writeEntry A) (s, mem, []) = out at hsame
  obtain ⟨s', mem', written⟩ := out
  obtain ⟨k, p⟩ := e
  have hheap : s'.heap p = s.heap p := hsame
  unfold writeEntry
  simp only [hheap, hon, if_true, Function.update_self]

theorem passReports_iff (hA : Speaks A) (h : Keyed s) :
    PassReports A s mem ↔ PassClean A s mem := by
  refine forall_congr' fun before => forall_congr' fun e => forall_congr' fun after =>
    forall_congr' fun hentries => forall_congr' fun hon => ?_
  rw [heap_writePass h hentries hon]
  exact error_write_iff hA _ _

/-- In every run the errors tell of each pass whether it failed for their regions, exactly if
no pass writes an item for a region that has an error. -/
theorem errors_reflect_iff (adapter : ProcessMemoryAdapter) (vm : VmAccess σ)
    (stray : Bytes → Nat → UInt8) (mem₀ : σ) (events : List (Event σ)) :
    let A := processAdapter adapter vm stray
    (∀ before after, events = before ++ .pass :: after →
      PassReports A (exec A new mem₀ before).1 (exec A new mem₀ before).2.1) ↔
    ∀ before after, events = before ++ .pass :: after →
      PassClean A (exec A new mem₀ before).1 (exec A new mem₀ before).2.1 := by
  intro A
  refine forall_congr' fun before => forall_congr' fun after => forall_congr' fun _ => ?_
  exact passReports_iff (processAdapter_speaks adapter vm stray)
    (Covered.new.exec A mem₀ before).toKeyed

/-- A process that holds zeros and can be read and written at times. -/
def flakyProcess : Adapter Bool :=
  processAdapter ⟨1⟩
    { vmReadOverwrite up _ size :=
        if up then .ok (List.replicate size 0) else .error kernInvalidAddress
      vmWrite up _ _ := (if up then .ok () else .error kernInvalidAddress, up) } fun _ _ => 0

/-- An array region of two items is frozen, the process cannot be read in a pass, and is
back after it. -/
def comesBack : List (Event Bool) :=
  [.op (.freezeArray "a" 0x1000 2 [5] [0xFF] none none true), .process false, .pass, .process true]

/-- The item is written, and the region still reports that it cannot be read. -/
theorem errors_stale : ¬ PassReports flakyProcess (exec flakyProcess new true comesBack).1
    (exec flakyProcess new true comesBack).2.1 := by
  intro h
  have hclean := (passReports_iff (processAdapter_speaks _ _ _)
    (Covered.new.exec flakyProcess true comesBack).toKeyed).mp h
  refine hclean [] (0, 0) [] rfl rfl ⟨?_, ⟨2, [0xFF], [], []⟩, 0, rfl, rfl, rfl⟩
  exact what_refused_ne _ _ _ _ _

end RegionFreezer
end Memwatch
