import Memwatch.Adapter.Targets
import Memwatch.Lib.Overlays
import Memwatch.Shell.Freeze
import Memwatch.Shell.World

/-!
# Dumps

`dump` saves the regions that it can read, each in a file of its own, and an index of all
regions. The files are an image of the memory of the target: no region is saved over
another one, and a region that cannot be read costs no other one its file.
-/

namespace Memwatch

open Lib Text ProcessMemoryAdapter

namespace World

/-! ## The index -/

/-- `%5zu`. -/
def printCount5 (n : Nat) : String := String.ofList ((Nat.toDigits 10 n).leftpad 5 ' ')

def flagChar (prot flag : Protection) (c : Char) : Char := if prot &&& flag ≠ 0 then c else '-'

/-- The line of a region. All three letters of the maximal protection stand for its reads. -/
def regionLine (r : ProcessMemoryAdapter.Region) : String :=
  printHex r.addr ++ " " ++ printHex r.size ++ " " ++
    String.ofList [flagChar r.protection readable 'r', flagChar r.protection writable 'w',
      flagChar r.protection executable 'x', '/', flagChar r.maxProtection readable 'r',
      flagChar r.maxProtection readable 'w', flagChar r.maxProtection readable 'x'] ++
    if r.data.isEmpty then " [data not read]" else ""

def countLine (formatSize : Nat → String) (what : String)
    (counted : List ProcessMemoryAdapter.Region) : String :=
  "# " ++ printCount5 counted.length ++ " regions, " ++
    formatSize (counted.foldl (fun total r => add64 total r.size) 0) ++ " " ++ what

/-- `print_regions`. -/
def printRegions (formatSize : Nat → String) (regions : List ProcessMemoryAdapter.Region) :
    List String :=
  ["# addr size access/max_access"] ++ regions.map regionLine ++
    [countLine formatSize "in total" regions,
      countLine formatSize "unread by memwatch" (regions.filter fun r => r.data.isEmpty),
      countLine formatSize "accessible" (regions.filter fun r => r.protection &&& allAccess ≠ 0),
      countLine formatSize "readable" (regions.filter fun r => r.protection &&& readable ≠ 0),
      countLine formatSize "writable" (regions.filter fun r => r.protection &&& writable ≠ 0),
      countLine formatSize "executable"
        (regions.filter fun r => r.protection &&& executable ≠ 0),
      countLine formatSize "inaccessible"
        (regions.filter fun r => r.protection &&& allAccess = 0)]

/-! ## The command -/

def indexName (args : String) : String := cString args ++ ".index.txt"

def dataName (args : String) (r : ProcessMemoryAdapter.Region) : String :=
  cString args ++ "." ++ printHex r.addr ++ "." ++ printHex r.endAddr ++ ".bin"

section Command

variable {σ : Type} (k : Kernel σ) (adapter : ProcessMemoryAdapter) (st : MemwatchShell)
  (formatSize : Nat → String)

def saveRegion (args : String) (r : ProcessMemoryAdapter.Region) : WorldAction σ Unit :=
  if r.data.isEmpty then pure () else saveFile k (dataName args r) (.data r.data)

def saveRegions (args : String) : List ProcessMemoryAdapter.Region → WorldAction σ Unit
  | [] => pure ()
  | r :: regions => do
    saveRegion k args r
    saveRegions args regions

/-- Without a prefix for the names the regions are only printed. -/
def commandDump (args : String) : WorldAction σ Unit := do
  let regions ← guarded k adapter st.pauseTarget (getAllRegions k true)
  if args = "" then pure ()
  else do
    saveFile k (indexName args) (.lines (printRegions formatSize regions))
    saveRegions k args regions

end Command

/-! ## Names -/

section Names

variable {r s : ProcessMemoryAdapter.Region} {args : String}

theorem toList_dataName (args : String) (r : ProcessMemoryAdapter.Region) :
    (dataName args r).toList = (cString args).toList ++ '.' :: ((printHex r.addr).toList ++
      '.' :: ((printHex r.endAddr).toList ++ ".bin".toList)) := by
  simp [dataName]

theorem ne_dot_of_mem_printHex {n : Nat} {c : Char} (hc : c ∈ (printHex n).toList) : c ≠ '.' := by
  obtain ⟨ds, hds, -⟩ := digitsOf_printHex n
  obtain ⟨d, hd⟩ := exists_digit_of_mem hds hc
  exact ne_of_digit? hd (by decide)

theorem printHex_injective {m n : Nat} (h : (printHex m).toList = (printHex n).toList) :
    m = n := by
  obtain ⟨ds, hds, rfl⟩ := digitsOf_printHex m
  obtain ⟨es, hes, rfl⟩ := digitsOf_printHex n
  rw [h] at hds
  have hunique : Relator.RightUnique fun c d => digit? 16 c = some d :=
    fun _ _ _ hd he => Option.some.inj (hd.symm.trans he)
  rw [List.right_unique_forall₂' hunique hds hes]

/-- Regions at different addresses have different files. -/
theorem dataName_injective (h : dataName args r = dataName args s) : r.addr = s.addr := by
  have hlist := congrArg String.toList h
  rw [toList_dataName, toList_dataName, List.append_cancel_left_eq, List.cons_inj_right] at hlist
  -- the address ends at the first dot
  have htake := congrArg (List.takeWhile (· ≠ '.')) hlist
  have hhex : ∀ (n : Nat) (l : List Char),
      ((printHex n).toList ++ '.' :: l).takeWhile (· ≠ '.') = (printHex n).toList := by
    intro n l
    rw [List.takeWhile_append_of_pos fun c hc => decide_eq_true (ne_dot_of_mem_printHex hc)]
    simp
  rw [hhex, hhex] at htake
  exact printHex_injective htake

theorem dataName_ne_indexName : dataName args r ≠ indexName args := by
  intro h
  have hlist := congrArg String.toList h
  have hindex : (indexName args).toList = (cString args).toList ++ '.' :: "index.txt".toList := by
    simp [indexName]
  rw [toList_dataName, hindex, List.append_cancel_left_eq, List.cons_inj_right] at hlist
  obtain ⟨c, cs, hcs⟩ := List.exists_cons_of_ne_nil (printHex_ne_nil r.addr)
  obtain ⟨ds, hds, -⟩ := digitsOf_printHex r.addr
  obtain ⟨d, hd⟩ := exists_digit_of_mem hds (show c ∈ _ by rw [hcs]; exact List.mem_cons_self)
  rw [hcs, List.cons_append] at hlist
  have hc : c = 'i' := (List.cons_eq_cons.mp hlist).1
  have hnone : digit? 16 'i' = none := by decide
  rw [hc, hnone] at hd
  cases hd

end Names

/-! ## The files -/

section Files

variable {σ : Type} {k : Kernel σ} {w w' : World σ} {args : String}
  {regions : List ProcessMemoryAdapter.Region} {r : ProcessMemoryAdapter.Region}

def savedFile (args : String) (r : ProcessMemoryAdapter.Region) :
    String → Option (Option Contents) := fun name =>
  if ¬ r.data.isEmpty ∧ name = dataName args r then some (some (.data r.data)) else none

theorem saveFile_eq_ok {filename : String} {contents : Contents}
    (h : saveFile k filename contents w = .ok () w') : w' = { w with
      files := fun name => if name = filename then some contents else w.files name } := by
  unfold saveFile at h
  split at h
  · cases h; rfl
  · cases h

/-- The files of the regions are laid over the files that are there. -/
theorem saveRegions_eq_ok (h : saveRegions k args regions w = .ok () w') :
    w' = { w with files := overlayAll w.files (regions.map (savedFile args)) } := by
  induction regions generalizing w with
  | nil => cases h; rfl
  | cons r regions ih =>
    obtain ⟨_, w₁, hfirst, hrest⟩ := run_bind_eq_ok.mp h
    rw [ih hrest, List.map_cons, overlayAll_cons]
    have hfiles : w₁ = { w with files := overlay w.files (savedFile args r) } := by
      unfold saveRegion at hfirst
      split at hfirst
      · next hempty =>
        cases hfirst
        have hnone : savedFile args r = fun _ => none :=
          funext fun name => if_neg fun hs => hs.1 hempty
        rw [hnone]
        rfl
      · next hdata =>
        rw [saveFile_eq_ok hfirst]
        congr 1
        funext name
        unfold overlay savedFile
        by_cases hname : name = dataName args r <;> simp [hdata, hname]
    rw [hfiles]

theorem overlayAll_of_mem {files : String → Option Contents}
    (hasc : regions.Pairwise fun r s => r.addr < s.addr) (hr : r ∈ regions)
    (hdata : ¬ r.data.isEmpty) :
    overlayAll files (regions.map (savedFile args)) (dataName args r) = some (.data r.data) := by
  obtain ⟨before, behind, rfl⟩ := List.append_of_mem hr
  rw [List.map_append, List.map_cons]
  refine overlayAll_of_last (if_pos ⟨hdata, rfl⟩) fun write hwrite => ?_
  obtain ⟨s, hs, rfl⟩ := List.mem_map.mp hwrite
  refine if_neg fun hsaved => ?_
  have hlt := (List.pairwise_cons.mp (List.pairwise_append.mp hasc).2.1).1 s hs
  exact hlt.ne (dataName_injective hsaved.2)

theorem overlayAll_of_not_mem {files : String → Option Contents} {name : String}
    (hname : ∀ r ∈ regions, ¬ r.data.isEmpty → name ≠ dataName args r) :
    overlayAll files (regions.map (savedFile args)) name = files name := by
  refine overlayAll_of_none fun write hwrite => ?_
  obtain ⟨s, hs, rfl⟩ := List.mem_map.mp hwrite
  exact if_neg fun hsaved => hname s hs hsaved.1 hsaved.2

end Files

/-! ## Images -/

section Images

variable {k : Kernel AddressMap} {adapter : ProcessMemoryAdapter} {mach : Mach}
  {st : MemwatchShell} {formatSize : Nat → String} {w w' : World AddressMap} {args : String}

/-- The regions are those that `get_all_regions` returns. -/
def ScansBy (k : Kernel AddressMap) (adapter : ProcessMemoryAdapter) (mach : Mach) : Prop :=
  ∀ w readData ret m', (∃ turns, adapter.getAllRegions mach turns readData w.mem =
    some (.ok ret m')) → k.allRegions w readData = (.ok ret, m')

def HasRead (mach : Mach) (e : VmRegion) : Prop :=
  ReadMade mach e ∧ ∃ data, mach.vmReadOverwrite e.addr e.size = .ok data ∧ data ≠ []

/-- The line is about the region: its address and size, seven letters for its protections, and a
note if its data is not read. -/
def Describes (mach : Mach) (e : VmRegion) (line : String) : Prop :=
  ∃ access note : String,
    line = printHex e.addr ++ " " ++ printHex e.size ++ " " ++ access ++ note ∧
      access.length = 7 ∧ (HasRead mach e → note = "") ∧
      (¬ HasRead mach e → note = " [data not read]")

/-- The files of a dump, for what is found of the map: an index with a line for each region, and
the data of each region that has been read. -/
structure Image (mach : Mach) (formatSize : Nat → String) (args : String) (m : AddressMap)
    (files files' : String → Option Contents) : Prop where
  index : files' (indexName args) =
    some (.lines (printRegions formatSize (m.regions.map (found mach true))))
  listed : ∃ heading lines totals,
    files' (indexName args) = some (.lines (heading :: lines ++ totals)) ∧
      List.Forall₂ (Describes mach) m.regions lines
  data : ∀ e ∈ m.regions, ∀ data, ReadMade mach e →
    mach.vmReadOverwrite e.addr e.size = .ok data → data ≠ [] →
    files' (dataName args (found mach true e)) = some (.data data)
  others : ∀ name, name ≠ indexName args →
    (∀ e ∈ m.regions, ReadMade mach e → (mach.vmReadOverwrite e.addr e.size).isOk = true →
      name ≠ dataName args (found mach true e)) → files' name = files name

theorem found_of_read {e : VmRegion} {data : Bytes} (hmade : ReadMade mach e)
    (hok : mach.vmReadOverwrite e.addr e.size = .ok data) : (found mach true e).data = data := by
  show dataAfter mach e = data
  rw [dataAfter_of_readMade hmade, hok]

theorem read_of_found {e : VmRegion} (hdata : ¬ (found mach true e).data.isEmpty) :
    ReadMade mach e ∧ (mach.vmReadOverwrite e.addr e.size).isOk = true := by
  by_contra hnot
  refine hdata ?_
  show (dataAfter mach e).isEmpty = true
  by_cases hmade : ReadMade mach e
  · rw [dataAfter_of_readMade hmade]
    cases hok : mach.vmReadOverwrite e.addr e.size with
    | error ret => rfl
    | ok data => exact absurd ⟨hmade, by rw [hok]; rfl⟩ hnot
  · rw [dataAfter_of_not_readMade hmade]
    rfl

theorem hasRead_iff {e : VmRegion} :
    HasRead mach e ↔ ¬ (found mach true e).data.isEmpty := by
  refine ⟨?_, fun hdata => ?_⟩
  · rintro ⟨hmade, data, hok, hne⟩
    rw [found_of_read hmade hok]
    simpa using hne
  · obtain ⟨hmade, hok⟩ := read_of_found hdata
    cases hread : mach.vmReadOverwrite e.addr e.size with
    | error ret =>
      rw [hread] at hok
      cases hok
    | ok data =>
      rw [found_of_read hmade hread] at hdata
      exact ⟨hmade, data, hread, by simpa using hdata⟩

theorem describes_regionLine (e : VmRegion) :
    Describes mach e (regionLine (found mach true e)) := by
  refine ⟨_, _, rfl, String.length_ofList, fun hread => ?_, fun hread => ?_⟩
  · rw [hasRead_iff] at hread
    rw [if_neg hread]
  · rw [hasRead_iff, not_not] at hread
    rw [if_pos hread]

/-- The index has a line for each region of the map, in their order. -/
theorem lines_printRegions (mach : Mach) (formatSize : Nat → String) (m : AddressMap) :
    ∃ heading lines totals,
      printRegions formatSize (m.regions.map (found mach true)) = heading :: lines ++ totals ∧
        List.Forall₂ (Describes mach) m.regions lines := by
  refine ⟨_, (m.regions.map (found mach true)).map regionLine, _, rfl, ?_⟩
  rw [List.map_map]
  exact List.forall₂_map_right_iff.mpr (List.forall₂_same.mpr fun e _ => describes_regionLine e)

/-- `dump` saves an image of the memory, and leaves the target suspended as often as it was. -/
theorem dump_image (hscan : ScansBy k adapter mach) (hargs : args ≠ "")
    (h : commandDump k adapter st formatSize args w = .ok () w') :
    Image mach formatSize args w.mem w.files w'.files ∧ w'.suspendCount = w.suspendCount := by
  obtain ⟨regions, w₁, hregions, h⟩ := run_bind_eq_ok.mp h
  obtain ⟨m', -, hturns⟩ := getAllRegions_spec mach adapter true w.mem
  obtain ⟨w₀, hscope, rfl⟩ := guarded_eq_ok (balanced_getAllRegions true) hregions
  have hall := hscan { w with suspendCount := countIn st.pauseTarget w } true _ m' hturns
  unfold getAllRegions at hscope
  rw [hall] at hscope
  obtain ⟨rfl, rfl⟩ := EStateM.Result.ok.inj hscope
  rw [if_neg hargs] at h
  obtain ⟨_, w₂, hindex, hdata⟩ := run_bind_eq_ok.mp h
  obtain rfl := saveFile_eq_ok hindex
  obtain rfl := saveRegions_eq_ok hdata
  have hindexed : overlayAll (fun name => if name = indexName args then
      some (.lines (printRegions formatSize (w.mem.regions.map (found mach true))))
      else w.files name) ((w.mem.regions.map (found mach true)).map (savedFile args))
        (indexName args) =
      some (.lines (printRegions formatSize (w.mem.regions.map (found mach true)))) :=
    (overlayAll_of_not_mem fun r _ _ => dataName_ne_indexName.symm).trans (if_pos rfl)
  refine ⟨⟨hindexed, ?_, fun e he data hmade hok hne => ?_, fun name hname hother => ?_⟩, rfl⟩
  · obtain ⟨heading, lines, totals, hlines, hdescribes⟩ := lines_printRegions mach formatSize w.mem
    exact ⟨heading, lines, totals, hlines ▸ hindexed, hdescribes⟩
  · have hfound : (found mach true e).data = data := found_of_read hmade hok
    rw [← hfound] at hne ⊢
    exact overlayAll_of_mem ascending_found (List.mem_map_of_mem he) (by simpa using hne)
  · refine (overlayAll_of_not_mem fun r hr hdata => ?_).trans (if_neg hname)
    obtain ⟨e, he, rfl⟩ := List.mem_map.mp hr
    obtain ⟨hmade, hok⟩ := read_of_found hdata
    exact hother e he hmade hok

end Images

/-! ## An example -/

/-- A kernel that grants every request, for two pages. -/
def grantingKernel : Kernel AddressMap where
  taskSuspend _ := .ok ()
  taskResume _ := .ok ()
  read _ _ size := .ok (List.replicate size 0)
  write w _ _ := (.ok (), w.mem)
  allRegions w readData := (.ok (w.mem.regions.map (found granting readData)), w.mem)
  save _ _ := .ok ()

theorem grantingKernel_scans : ScansBy grantingKernel ⟨1⟩ granting := by
  intro w readData ret m' hturns
  obtain ⟨m'', hm'', hspec⟩ := getAllRegions_spec granting ⟨1⟩ readData w.mem
  obtain ⟨rfl, rfl⟩ := EStateM.Result.ok.inj (Returns.unique hspec hturns)
  have hleft : ∀ e ∈ w.mem.regions, left granting readData e = e := by
    intro e _
    unfold left protectionAfter
    rw [if_pos (show Restored granting e from .inr (.inr ⟨rfl, rfl⟩))]
    cases readData <;> rfl
  rw [List.map_congr_left hleft, List.map_id'] at hm''
  rw [AddressMap.ext_regions hm'']
  rfl

def beforeDump : World AddressMap := ⟨twoPages, 0, fun _ => none⟩

theorem dump_twoPages : ∃ w', commandDump grantingKernel ⟨1⟩ (.new "target" 10 5 true true false)
      (fun _ => "") "target" beforeDump = .ok () w' ∧
    Image granting (fun _ => "") "target" beforeDump.mem beforeDump.files w'.files ∧
      w'.suspendCount = beforeDump.suspendCount := by
  have hrun : ∃ w', commandDump grantingKernel ⟨1⟩ (.new "target" 10 5 true true false)
      (fun _ => "") "target" beforeDump = .ok () w' := ⟨_, rfl⟩
  obtain ⟨w', hw'⟩ := hrun
  exact ⟨w', hw', dump_image grantingKernel_scans (by decide) hw'⟩

end World

end Memwatch
