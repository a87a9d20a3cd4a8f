import Memwatch.Adapter.Snapshot
import Memwatch.Shell.Set

/-!
# Searches over the adapter

The regions that the shell searches are those that the adapter finds in the address map of
the process. If the map is cut at pages, every result of a search is an address that could be
read from the process.
-/

namespace Memwatch

open Lib

/-- A region of a search is one of the adapter. -/
structure SameRegion (r : ProcessMemoryAdapter.Region) (s : Region) : Prop where
  addr : s.addr = r.addr
  size : s.size = r.size
  data : s.data = r.data

namespace MemwatchShell

open MemorySearch ProcessMemoryAdapter

/-- The target answers with what the adapter finds in an address map. -/
structure Backed (mach : Mach) (adapter : ProcessMemoryAdapter) (m : AddressMap)
    (target : Target) : Prop where
  all : ∀ regions, target.getAllRegions = .ok regions →
    ∃ turns ret m', adapter.getAllRegions mach turns true m = some (.ok ret m') ∧
      List.Forall₂ SameRegion ret regions
  targets : ∀ results regions, target.getTargetRegions results = .ok regions →
    ∃ turns ret m', adapter.getTargetRegions mach turns results true m = some (.ok ret m') ∧
      List.Forall₂ SameRegion ret regions

/-- A map that is cut at pages, whose regions are read in full or not at all. The addresses
that can be read are in a set. -/
structure Readable (mach : Mach) (m : AddressMap) (A : Set Nat) : Prop where
  pages : ∀ e ∈ m.regions, 4096 ∣ e.addr ∧ 4096 ∣ e.size
  full : ∀ addr size data, mach.vmReadOverwrite addr size = .ok data → data.length = size
  within : ∀ e ∈ m.regions, (mach.vmReadOverwrite e.addr e.size).isOk = true →
    ∀ a, e.Contains a → a ∈ A

/-- The addresses with data are in a set. -/
def BearsIn (A : Set Nat) (regions : List Region) : Prop := ∀ a, Bears regions a → a ∈ A

section Regions

variable {mach : Mach} {adapter : ProcessMemoryAdapter} {m : AddressMap} {A : Set Nat}
  {target : Target} {regions : List Region} {l : List VmRegion} {e : VmRegion} {s : Region}

theorem data_of_found (hfull : Readable mach m A) (h : SameRegion (found mach true e) s) :
    s.data = [] ∨ s.data.length = s.size ∧ (mach.vmReadOverwrite e.addr e.size).isOk = true := by
  have hsnapshot : Snapshot mach true e (found mach true e) := snapshot_found hfull.full
  by_cases hread : ReadMade mach e ∧ (mach.vmReadOverwrite e.addr e.size).isOk = true
  · right
    obtain ⟨hmade, hok⟩ := hread
    refine ⟨?_, hok⟩
    cases hdata : mach.vmReadOverwrite e.addr e.size with
    | error ret => rw [hdata] at hok; cases hok
    | ok data =>
      obtain ⟨heq, hlen⟩ := hsnapshot.full data rfl hmade hdata
      rw [h.data, heq, hlen, h.size, size_found]
  · left
    rw [h.data]
    exact hsnapshot.empty fun hall => hread hall.2

theorem pageSnapshot_of_found (hm : Readable mach m A) (hl : l.Sublist m.regions)
    (h : List.Forall₂ SameRegion (l.map (found mach true)) regions) :
    PageSnapshot regions ∧ BearsIn A regions := by
  rw [List.forall₂_map_left_iff] at h
  obtain ⟨hlen, hget⟩ := List.forall₂_iff_get.mp h
  have hregion : ∀ s ∈ regions, ∃ e ∈ m.regions, SameRegion (found mach true e) s := by
    intro s hs
    obtain ⟨i, hi, rfl⟩ := List.getElem_of_mem hs
    exact ⟨l[i], hl.subset (List.getElem_mem _), hget i (by omega) hi⟩
  have hapart : regions.Pairwise fun r s => r.addr + r.size ≤ s.addr := by
    rw [List.pairwise_iff_getElem]
    intro i j hi hj hij
    have hlt := List.pairwise_iff_getElem.mp (m.apart.sublist hl) i j (by omega) (by omega) hij
    have hri : SameRegion (found mach true l[i]) regions[i] := hget i (by omega) hi
    have hrj : SameRegion (found mach true l[j]) regions[j] := hget j (by omega) hj
    rw [hri.addr, hri.size, hrj.addr, addr_found, addr_found, size_found]
    exact hlt
  refine ⟨⟨⟨hapart.imp fun h => ?_, hapart.imp fun {r s} h a => ?_, fun s hs => ?_⟩,
    fun s hs => ?_, fun s hs => ?_⟩, fun a ha => ?_⟩
  · omega
  · rintro ⟨⟨-, hr⟩, hs, -⟩
    omega
  · obtain ⟨e, he, hsame⟩ := hregion s hs
    exact (data_of_found hm hsame).imp_right fun h => h.1
  · obtain ⟨e, he, hsame⟩ := hregion s hs
    rw [hsame.addr, hsame.size, addr_found, size_found]
    exact hm.pages e he
  · obtain ⟨e, he, hsame⟩ := hregion s hs
    rw [hsame.addr, hsame.size, addr_found, size_found]
    exact e.below
  · obtain ⟨s, hs, hdata, hcontains⟩ := ha
    obtain ⟨e, he, hsame⟩ := hregion s hs
    have hne : s.data ≠ [] := fun hnil => Region.not_hasData.mpr hnil hdata
    refine hm.within e he ((data_of_found hm hsame).resolve_left hne).2 a ?_
    unfold Memwatch.Region.Contains at hcontains
    rw [hsame.addr, hsame.size, addr_found, size_found] at hcontains
    exact hcontains

theorem tellsPages_of_backed (hm : Readable mach m A) (h : Backed mach adapter m target) :
    TellsPages (BearsIn A) target := by
  refine ⟨fun regions hregions => ?_, fun results regions hregions => ?_⟩
  · obtain ⟨turns, ret, m', hret, hsame⟩ := h.all regions hregions
    obtain ⟨m'', -, hspec⟩ := getAllRegions_spec mach adapter true m
    obtain ⟨rfl, -⟩ := EStateM.Result.ok.inj (Returns.unique ⟨turns, hret⟩ hspec)
    exact pageSnapshot_of_found hm (List.Sublist.refl _) hsame
  · obtain ⟨turns, ret, m', hret, hsame⟩ := h.targets results regions hregions
    obtain ⟨m'', -, hspec⟩ := getTargetRegions_spec mach adapter true m results
    have heq := Returns.unique ⟨turns, hret⟩ hspec
    unfold targetResult at heq
    split_ifs at heq
    obtain ⟨rfl, -⟩ := EStateM.Result.ok.inj heq
    rw [List.nil_append] at hsame
    exact pageSnapshot_of_found hm List.filter_sublist hsame

end Regions

/-! ## The adapter as a target -/

section Adapters

variable {mach : Mach} {adapter : ProcessMemoryAdapter} {m : AddressMap}

/-- A region as a search has it when it is found. -/
def searched (mach : Mach) (e : VmRegion) : Region where
  addr := (found mach true e).addr
  size := (found mach true e).size
  protection := (found mach true e).protection.toNat
  data := (found mach true e).data
  addr_lt := by
    have := e.below
    rw [addr_found]
    omega
  size_lt := by
    have := e.below
    rw [size_found]
    omega
  fits := by
    have := e.below
    rw [addr_found, size_found]
    omega

/-- The adapter of a process with an address map, as a target. A scan that would run past the
last result fails. -/
def adapterTarget (mach : Mach) (m : AddressMap) : Target where
  getAllRegions := .ok (m.regions.map (searched mach))
  getTargetRegions results :=
    if Overrun results m.regions then .error (outOfRange "target_it")
    else .ok ((m.regions.filter fun e => Aimed results e).map (searched mach))
  read := idleTarget.read
  now := idleTarget.now

theorem sameRegion_searched (l : List VmRegion) :
    List.Forall₂ SameRegion (l.map (found mach true)) (l.map (searched mach)) := by
  rw [List.forall₂_map_left_iff, List.forall₂_map_right_iff]
  exact List.forall₂_same.mpr fun e _ => ⟨rfl, rfl, rfl⟩

theorem backed_adapterTarget : Backed mach adapter m (adapterTarget mach m) := by
  refine ⟨fun regions hregions => ?_, fun results regions hregions => ?_⟩
  · obtain rfl := Except.ok.inj hregions
    obtain ⟨m', -, turns, hturns⟩ := getAllRegions_spec mach adapter true m
    exact ⟨turns, _, m', hturns, sameRegion_searched _⟩
  · dsimp only [adapterTarget] at hregions
    split_ifs at hregions with hover
    obtain rfl := Except.ok.inj hregions
    obtain ⟨m', -, turns, hturns⟩ := getTargetRegions_spec mach adapter true m results
    unfold targetResult at hturns
    rw [if_neg hover, List.nil_append] at hturns
    exact ⟨turns, _, m', hturns, sameRegion_searched _⟩

end Adapters

/-! ## Results -/

section Results

variable [Phosg] [PhosgText] [FloatText] {A : Set Nat} {st : MemwatchShell} {name : String}
  {searches : List MemorySearch} {s : MemorySearch} {a : Nat}

theorem Session.mono {Q Q' : Process → Prop} (h : Session Q st) (hQ : ∀ p, Q p → Q' p) :
    Session Q' st := by
  induction h with
  | new processName maxResults maxSearchIterations pauseTarget useColor =>
    exact .new processName maxResults maxSearchIterations pauseTarget useColor
  | line _ hline hp hrun ih => exact .line ih hline (hQ _ hp) hrun
  | pass _ A mem ih => exact .pass ih A mem

/-- In every session over the adapter, each result of each iteration is a whole cell that could
be read from the process. -/
theorem cells_were_read (h : Session (fun p => ∃ mach adapter m, Readable mach m A ∧
      Backed mach adapter m p.toTarget) st)
    (hfind : st.nameToSearches.find? name = some searches) (hs : s ∈ searches)
    (hT : s.type ≠ .data) (ha : a ∈ s.results) : ∀ i < s.type.fieldSize, a + i ∈ A := by
  have htold : Session (fun p => TellsPages (BearsIn A) p.toTarget) st :=
    h.mono fun p ⟨_, _, _, hm, hbacked⟩ => tellsPages_of_backed hm hbacked
  have hhistory : History (BearsIn A) searches := histories_session htold name searches hfind
  have hinv : Invariant s := hhistory.invariant s hs hT
  obtain ⟨memory, hmemory, r, hr, hdata, hle, hlt⟩ := hinv.held a ha
  obtain ⟨haddr, hsize⟩ := (hinv.stored memory hmemory).2 r hr
  -- the cell ends with its region, since both are aligned
  have hcell : a + s.type.fieldSize ≤ r.addr + r.size :=
    add_le_of_dvd_of_lt (hinv.cells a ha) (haddr.add hsize) hlt
  intro i hi
  exact (hhistory.pages s hs memory hmemory).2 (a + i) ⟨r, hr, hdata, by omega, by omega⟩

end Results

section

open Plain World

def sevenMach : Mach where
  vmProtect _ _ _ := .ok ()
  vmReadOverwrite _ size := .ok (List.replicate size 7)

def sevenMap : AddressMap := ⟨[page 0x7000 7 (by decide)], List.pairwise_singleton _ _⟩

theorem sevenMap_readable : Readable sevenMach sevenMap (Set.Ico 0x7000 0x8000) := by
  refine ⟨fun e he => ?_, fun addr size data hdata => ?_, fun e he _ a ha => ?_⟩
  · obtain rfl := List.mem_singleton.mp he
    exact ⟨by decide, dvd_rfl⟩
  · obtain rfl := Except.ok.inj hdata
    exact List.length_replicate
  · obtain rfl := List.mem_singleton.mp he
    exact ha

def sevenProcess : Process := { idleProcess with toTarget := adapterTarget sevenMach sevenMap }

set_option maxRecDepth 100000 in
theorem cells_were_read_seven : 0x7000 + 0 ∈ Set.Ico 0x7000 0x8000 := by
  have hseven : ∃ mach adapter m, Readable mach m (Set.Ico 0x7000 0x8000) ∧
      Backed mach adapter m sevenProcess.toTarget :=
    ⟨sevenMach, ⟨1⟩, sevenMap, sevenMap_readable, backed_adapterTarget⟩
  have hnew : Session (fun p => ∃ mach adapter m, Readable mach m (Set.Ico 0x7000 0x8000) ∧
      Backed mach adapter m p.toTarget) (MemwatchShell.new "target" 1 5 false true false) :=
    .new "target" 1 5 false false
  have hopen : executeLine sevenProcess "open u8 a"
      (MemwatchShell.new "target" 1 5 false true false) =
      .ok ((MemwatchShell.new "target" 1 5 false true false).openNew .uint8 false "a") := rfl
  have hsearch : executeLine sevenProcess "search = 7"
      ((MemwatchShell.new "target" 1 5 false true false).openNew .uint8 false "a") =
        .ok sevenShell := rfl
  have hsession := (hnew.line (show '\x00' ∉ "open u8 a".toList by decide) hseven hopen).line
    (show '\x00' ∉ "search = 7".toList by decide) hseven hsearch
  exact cells_were_read hsession (show sevenShell.nameToSearches.find? "a" = _ from rfl)
    (show sevenIteration ∈ [MemorySearch.new .uint8 false, sevenIteration] from by simp)
    (by decide) (show 0x7000 ∈ sevenIteration.results from List.mem_singleton.mpr rfl) 0 (by decide)

end

end MemwatchShell
end Memwatch
