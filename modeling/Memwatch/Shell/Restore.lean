import Memwatch.Freezer.Writer
import Memwatch.Shell.Session

/-!
# Saving and restoring the frozen list

`frozen commands` prints a `freeze` command for each frozen region. Whatever a session has
done before, the lines it prints restore the list in another shell.
-/

namespace Memwatch

open Lib Text RegionFreezer

namespace RegionFreezer

/-! ## Regions in the course of time -/

/-- Nothing is frozen, and regions change in their flags and errors only. -/
structure Touches (s s' : RegionFreezer) : Prop where
  allocated : s'.allocated = s.allocated
  indexes : s'.regionsByIndex.entries.Sublist s.regionsByIndex.entries
  heap : ∀ p, ∃ enable error, s'.heap p = { s.heap p with enable := enable, error := error }

section Touches

variable {s s' s'' : RegionFreezer} {σ : Type}

theorem Touches.refl (s : RegionFreezer) : Touches s s :=
  ⟨rfl, .refl _, fun p => ⟨(s.heap p).enable, (s.heap p).error, rfl⟩⟩

theorem Touches.trans (h : Touches s s') (h' : Touches s' s'') : Touches s s'' := by
  refine ⟨h'.allocated.trans h.allocated, h'.indexes.trans h.indexes, fun p => ?_⟩
  obtain ⟨enable, error, heq⟩ := h.heap p
  obtain ⟨enable', error', heq'⟩ := h'.heap p
  exact ⟨enable', error', by rw [heq', heq]⟩

theorem Shrinks.touches (h : Shrinks s s') : Touches s s' :=
  ⟨h.allocated, h.indexes, fun p => ⟨(s.heap p).enable, (s.heap p).error, by rw [h.heap]⟩⟩

theorem touches_setEnable (s : RegionFreezer) (its : List Nat) (enable : Bool) :
    Touches s (s.setEnable its enable).1 := by
  obtain ⟨heap, heq, hheap⟩ := setEnable_spec s its enable
  rw [heq]
  refine ⟨rfl, .refl _, fun p => ?_⟩
  show ∃ enable error, heap p = _
  rw [hheap]
  split
  · exact ⟨enable, (s.heap p).error, rfl⟩
  · exact ⟨(s.heap p).enable, (s.heap p).error, rfl⟩

theorem touches_step (s : RegionFreezer) {op : Op} (hop : op.isFreeze = false) :
    Touches s (s.step op) := by
  cases op with
  | freeze | freezeArray => cases hop
  | unfreezeName name => exact (unfreezeName_shrinks s name).touches
  | unfreezeAddr addr => exact (unfreezeAddr_shrinks s addr).touches
  | unfreezeIndex index => exact (unfreezeIndex_shrinks s index).touches
  | unfreezeAll => exact (unfreezeAll_shrinks s).touches
  | enableName name enable => exact touches_setEnable s _ enable
  | enableAddr addr enable => exact touches_setEnable s _ enable
  | enableIndex index enable =>
    show Touches s (s.enableIndex index enable).1
    rw [enableIndex_eq]
    exact touches_setEnable s _ enable
  | enableAll enable => exact touches_setEnable s _ enable

theorem touches_run (s : RegionFreezer) {ops : List Op} (hops : ∀ op ∈ ops, op.isFreeze = false) :
    Touches s (s.run ops) := by
  induction ops using List.reverseRecOn with
  | nil => exact .refl s
  | append_singleton ops op ih =>
    rw [run_concat]
    have hlast : op.isFreeze = false := hops op (by simp)
    exact (ih fun op' hop' => hops op' (by simp [hop'])).trans (touches_step _ hlast)

theorem touches_writeEntry (A : Adapter σ) (out : RegionFreezer × σ × List Nat) (e : Nat × Nat) :
    Touches out.1 (writeEntry A out e).1 := by
  obtain ⟨t, mem, written⟩ := out
  obtain ⟨i, q⟩ := e
  by_cases hen : (t.heap q).enable = true
  · simp only [writeEntry, hen, ↓reduceIte]
    refine ⟨rfl, .refl _, fun p => ?_⟩
    obtain ⟨error, heq⟩ := write_frame A (t.heap q) mem
    by_cases hp : p = q
    · subst hp
      exact ⟨(t.heap p).enable, error, by simp [heq]⟩
    · exact ⟨(t.heap p).enable, (t.heap p).error, by simp [hp]⟩
  · simp only [writeEntry, hen, Bool.false_eq_true, ↓reduceIte]
    exact .refl t

theorem touches_writePass (A : Adapter σ) (s : RegionFreezer) (mem : σ) :
    Touches s (s.writePass A mem).1 := by
  have hfold : ∀ (es : List (Nat × Nat)) (out : RegionFreezer × σ × List Nat),
      Touches out.1 (es.foldl (writeEntry A) out).1 := by
    intro es
    induction es with
    | nil => exact fun out => .refl out.1
    | cons e es ih => exact fun out => (touches_writeEntry A out e).trans (ih _)
  exact hfold s.regionsByIndex.entries (s, mem, [])

end Touches

end RegionFreezer

namespace MemwatchShell

/-! ## Sessions -/

section Sessions

variable [Phosg] [PhosgText] [FloatText]

/-- A read that succeeds gives all bytes. -/
def ReadsAll (p : Process) : Prop :=
  ∀ addr size data, p.read addr size = .ok data → data.length = size

/-- Every region that was ever frozen is what a command has frozen, but for its flag and
its error. -/
structure AllFrozen (s : RegionFreezer) : Prop where
  indexes : ∀ e ∈ s.regionsByIndex.entries, e.2 < s.allocated
  regions : ∀ p < s.allocated, Frozen (s.heap p)

variable {st st' : MemwatchShell} {p : Process} {line : String} {s s' : RegionFreezer}

omit [Phosg] [PhosgText] [FloatText] in
theorem not_mem_of_suffix {t : String} (h : t.toList <:+ line.toList)
    (hline : '\x00' ∉ line.toList) : '\x00' ∉ t.toList := fun hmem => hline (h.mem hmem)

theorem LineChange.reachable (h : LineChange p line st st') (hst : Reachable st)
    (hline : '\x00' ∉ line.toList) : Reachable st' := by
  cases h with
  | keep => exact .other hst rfl rfl rfl
  | operate _ hst' =>
    obtain ⟨ops, -, rfl⟩ := hst'
    exact .other hst rfl rfl rfl
  | freeze => exact .other hst rfl rfl rfl
  | call call hargs hrun => exact .call hst (not_mem_of_suffix hargs hline) hrun

theorem Session.reachable (h : Session Q st) : Reachable st := by
  induction h with
  | new => exact .new ..
  | line _ hline _ hrun ih => exact (lineChange_of_executeLine hrun).reachable ih hline
  | pass _ A mem ih => exact .other ih rfl rfl rfl

theorem Frozen.touch {r : RegionFreezer.Region} (h : Frozen r) (enable : Bool) (error : String) :
    Frozen { r with enable := enable, error := error } := by
  obtain ⟨st, target, argsStr, created, hst, hline, hread, hfreeze, _, _, rfl⟩ := h
  exact ⟨st, target, argsStr, created, hst, hline, hread, hfreeze, enable, error, rfl⟩

theorem AllFrozen.touches (h : AllFrozen s) (hs : Touches s s') : AllFrozen s' := by
  refine ⟨fun e he => ?_, fun p hp => ?_⟩
  · rw [hs.allocated]
    exact h.indexes e (hs.indexes.subset he)
  · rw [hs.allocated] at hp
    obtain ⟨enable, error, heq⟩ := hs.heap p
    rw [heq]
    exact (h.regions p hp).touch enable error

theorem AllFrozen.addRegion (h : AllFrozen s) {r : RegionFreezer.Region} (hr : Frozen r) :
    AllFrozen (s.addRegion r) := by
  refine ⟨fun e he => ?_, fun p hp => ?_⟩
  · rcases mem_of_mem_insertNew he with rfl | he
    · exact Nat.lt_succ_self _
    · exact (h.indexes e he).trans (Nat.lt_succ_self _)
  · rcases Nat.lt_succ_iff_lt_or_eq.mp hp with hp | rfl
    · rw [heap_addRegion_of_lt hp]
      exact h.regions p hp
    · rw [heap_addRegion_self]
      exact hr

theorem AllFrozen.change (h : AllFrozen st.freezer) (hst : Reachable st)
    (hchange : LineChange p line st st') (hline : '\x00' ∉ line.toList)
    (hread : ReadsAll p) : AllFrozen st'.freezer := by
  cases hchange with
  | keep => exact h
  | operate _ hst' =>
    obtain ⟨ops, hops, rfl⟩ := hst'
    exact h.touches (touches_run st.freezer hops)
  | freeze hargs hfreeze =>
    exact h.addRegion ⟨st, p.toTarget, _, _, hst, not_mem_of_suffix hargs hline, hread, hfreeze,
      _, _, rfl⟩
  | call call hargs hrun =>
    rw [(change_of_execute hrun).freezer]
    exact h

theorem Session.allFrozen (h : Session ReadsAll st) : AllFrozen st.freezer := by
  induction h with
  | new => exact ⟨nofun, nofun⟩
  | line hst hline hread hrun ih =>
    exact ih.change hst.reachable (lineChange_of_executeLine hrun) hline hread
  | pass _ A mem ih => exact ih.touches (touches_writePass A _ mem)

/-- Regions are under their own keys, and are numbered in the order in which they were frozen. -/
theorem Session.numbered (h : Session Q st) : Covered st.freezer ∧ Numbered st.freezer := by
  induction h with
  | new => exact ⟨Covered.new, rfl, nofun⟩
  | @line st st' p line hst hline hp hrun ih =>
    cases lineChange_of_executeLine hrun with
    | keep => exact ih
    | operate _ hst' =>
      obtain ⟨ops, -, rfl⟩ := hst'
      exact numbered_run ih.1 ih.2 ops
    | freeze _ hfreeze =>
      obtain ⟨-, _, a, d, -, -, -, -, hst'⟩ := commandFreeze_eq_ok.mp hfreeze
      obtain rfl := withRegion_inj hst'
      exact ⟨ih.1.addRegion _, ih.2.addRegion rfl⟩
    | call call _ hrun =>
      rw [(change_of_execute hrun).freezer]
      exact ih
  | @pass st σ _ A mem ih =>
    have hflags := (writePass_spec A st.freezer mem).passes.toFlags
    exact ⟨ih.1.flags hflags, ih.2.flags hflags⟩

end Sessions

/-! ## Saving -/

/-- What `frozen commands` prints, line by line. -/
def printRegionsCommands [PhosgText] (s : RegionFreezer) : List String :=
  if s.visited = [] then ["no regions frozen"]
  else "frozen regions:" :: s.visited.map Region.printCommand

/-- Frozen regions without names are not named after the current search. -/
def LeavesUnnamed (st : MemwatchShell) : Prop :=
  st.currentSearchName ≠ "" → ∀ searches,
    st.nameToSearches.find? st.currentSearchName = some searches → searches = []

theorem LeavesUnnamed.defaultName {st : MemwatchShell} (h : LeavesUnnamed st) (n : Nat) :
    st.defaultName (printHex n) = "" := by
  rw [defaultName_printHex]
  split
  · next hlatest =>
    by_contra hne
    obtain ⟨search, hsearch⟩ := Option.isSome_iff_exists.mp hlatest
    obtain ⟨searches, hfind, hlast⟩ := Option.bind_eq_some_iff.mp hsearch
    rw [h hne searches hfind] at hlast
    cases hlast
  · rfl

section Restore

variable [Phosg] [PhosgText] [FloatText] [LawfulPhosgText] {p : Process} {st : MemwatchShell}
  {r : RegionFreezer.Region} {rs : List RegionFreezer.Region} {l : RegionList}

theorem dispatch_title (p : Process) (hi : st.interactive = true) :
    dispatchCommand (otherCommands p "frozen regions:".length) p.toTarget "frozen regions:" st =
      .ok () st := by
  have hend : PhosgText.skipNonWhitespace "frozen regions:" 0 = 6 := by
    rw [LawfulPhosgText.skipNonWhitespace_eq]
    decide +kernel
  have hdispatch : ∀ others target, ∃ argsStr,
      dispatchCommand others target "frozen regions:" = others .frozen argsStr := by
    intro others target
    unfold dispatchCommand
    rw [if_neg (by decide), hend]
    exact ⟨_, rfl⟩
  obtain ⟨argsStr, hline⟩ := hdispatch (otherCommands p "frozen regions:".length) p.toTarget
  have hcheck : st.checkInteractive = .ok () := if_pos hi
  have hfrozen : ∀ depth, otherCommands p depth .frozen argsStr = commandFrozen := by
    intro depth
    cases depth <;> rfl
  rw [hline, hfrozen, commandFrozen, get_bind, hcheck]
  rfl

/-- If there are none, the line is no command. -/
theorem executeLine_none (p : Process) (st : MemwatchShell) :
    executeLine p "no regions frozen" st = .ok st := by
  have hend : PhosgText.skipNonWhitespace "no regions frozen" 0 = 2 := by
    rw [LawfulPhosgText.skipNonWhitespace_eq]
    decide +kernel
  unfold executeLine dispatchCommand
  rw [if_neg (by decide), hend]
  rfl

theorem dispatch_printCommand (p : Process) (hr : SoundRegion r) (haddr : r.addr ≠ 0)
    (hlt : r.addr < 2 ^ 64) (hi : st.interactive = true)
    (hname : r.name = "" → LeavesUnnamed st) :
    dispatchCommand (otherCommands p r.printCommand.length) p.toTarget r.printCommand st =
      .ok ()
        { st with freezer := st.freezer.addRegion (replayed r r.name st.freezer.nextIndex) } := by
  have hsame : (if r.name = "" then st.defaultName (printHex r.addr) else r.name) = r.name := by
    split
    · next hempty => rw [(hname hempty).defaultName, hempty]
    · rfl
  rw [dispatchCommand_printCommand _ _ hr haddr hlt hi, hsame]

/-- The regions that are replayed, with the numbers from one on. -/
def replayedFrom (n : Nat) (rs : List RegionFreezer.Region) : List RegionFreezer.Region :=
  rs.mapIdx fun i r => replayed r r.name (n + i)

omit [Phosg] [PhosgText] [FloatText] [LawfulPhosgText] in
theorem replayedFrom_cons (n : Nat) (r : RegionFreezer.Region) (rs : List RegionFreezer.Region) :
    replayedFrom n (r :: rs) = replayed r r.name n :: replayedFrom (n + 1) rs := by
  unfold replayedFrom
  rw [List.mapIdx_cons]
  simp [Nat.add_comm, Nat.add_left_comm]

omit [Phosg] [FloatText] [LawfulPhosgText] in
/-- Neither the number nor the error of a region is printed. -/
theorem map_printCommand_replayedFrom (n : Nat) (rs : List RegionFreezer.Region) :
    (replayedFrom n rs).map Region.printCommand = rs.map Region.printCommand := by
  refine List.ext_getElem (by simp [replayedFrom]) fun i _ _ => ?_
  simp only [replayedFrom, List.getElem_map, List.getElem_mapIdx]
  rfl

/-- The printed commands of a list of regions, one after another. -/
theorem succeeds_printCommands {lines : List (Process × String)} (hi : st.interactive = true)
    (hsound : ∀ r ∈ rs, SoundRegion r) (haddr : ∀ r ∈ rs, r.addr ≠ 0 ∧ r.addr < 2 ^ 64)
    (hname : (∀ r ∈ rs, r.name ≠ "") ∨ LeavesUnnamed st) {s : RegionFreezer} (hs : Covered s)
    (hn : Numbered s) (hroom : s.allocated + rs.length ≤ 2 ^ 64)
    (hlines : lines.map Prod.snd = rs.map Region.printCommand) :
    ∃ freezer, Succeeds lines { st with freezer := s } { st with freezer := freezer } ∧
      freezer.visited = s.visited ++ replayedFrom s.allocated rs := by
  induction rs generalizing lines s with
  | nil =>
    obtain rfl := List.map_eq_nil_iff.mp hlines
    exact ⟨s, .nil _, (List.append_nil _).symm⟩
  | cons r rs ih =>
    obtain ⟨⟨p, line⟩, lines, rfl, hline, htail⟩ := List.map_eq_cons_iff.mp hlines
    obtain rfl : line = r.printCommand := hline
    obtain ⟨hr, hsound⟩ := List.forall_mem_cons.mp hsound
    obtain ⟨⟨hne, hlt⟩, haddr⟩ := List.forall_mem_cons.mp haddr
    rw [List.length_cons] at hroom
    have hnameless : r.name = "" → LeavesUnnamed st := by
      intro hempty
      rcases hname with hnamed | hleaves
      · exact absurd hempty (hnamed r List.mem_cons_self)
      · exact hleaves
    have hname : (∀ r ∈ rs, r.name ≠ "") ∨ LeavesUnnamed st :=
      hname.imp_left fun hnamed r hr => hnamed r (List.mem_cons_of_mem _ hr)
    let front : MemwatchShell := { st with freezer := s }
    have hrun : dispatchCommand (otherCommands p r.printCommand.length) p.toTarget
        r.printCommand front =
          .ok () { front with freezer := s.addRegion (replayed r r.name s.nextIndex) } :=
      dispatch_printCommand p hr hne hlt hi hnameless
    have hnext : s.nextIndex = s.allocated := by rw [hn.next, Nat.mod_eq_of_lt (by omega)]
    have hvisited : (s.addRegion (replayed r r.name s.nextIndex)).visited =
        s.visited ++ [replayed r r.name s.nextIndex] :=
      visited_addRegion hs.toKeyed hn (by omega) rfl
    obtain ⟨freezer, hrest, hfinal⟩ := ih hsound haddr hname
      (hs.addRegion (replayed r r.name s.nextIndex)) (hn.addRegion rfl)
      (show s.allocated + 1 + rs.length ≤ 2 ^ 64 by omega) htail
    refine ⟨freezer, .cons hrun hrest, ?_⟩
    rw [hfinal, hvisited, replayedFrom_cons, hnext, List.append_assoc]
    rfl

/-- What is printed for a freezer, line by line: the commands behind the title, or one line that
is no command. -/
theorem execute_printRegionsCommands {saved : RegionFreezer} {lines : List (Process × String)}
    (hi : st.interactive = true) (hsound : ∀ r ∈ saved.visited, SoundRegion r)
    (haddr : ∀ r ∈ saved.visited, r.addr ≠ 0 ∧ r.addr < 2 ^ 64)
    (hname : (∀ r ∈ saved.visited, r.name ≠ "") ∨ LeavesUnnamed st) (hs : Covered st.freezer)
    (hn : Numbered st.freezer) (hroom : st.freezer.allocated + saved.visited.length ≤ 2 ^ 64)
    (hlines : lines.map Prod.snd = printRegionsCommands saved) :
    ∃ freezer, executeLines lines st = .ok { st with freezer := freezer } ∧
      (saved.visited ≠ [] → Succeeds lines st { st with freezer := freezer }) ∧
      freezer.visited = st.freezer.visited ++ replayedFrom st.freezer.allocated saved.visited := by
  unfold printRegionsCommands at hlines
  split at hlines
  · next hempty =>
    obtain ⟨⟨p, line⟩, rest, rfl, hline, hrest⟩ := List.map_eq_cons_iff.mp hlines
    obtain rfl := List.map_eq_nil_iff.mp hrest
    obtain rfl : line = "no regions frozen" := hline
    refine ⟨st.freezer, ?_, fun hne => absurd hempty hne, ?_⟩
    · rw [executeLines, List.foldlM_cons, executeLine_none]
      rfl
    · rw [hempty]
      exact (List.append_nil _).symm
  · obtain ⟨⟨p, line⟩, rest, rfl, hline, hrest⟩ := List.map_eq_cons_iff.mp hlines
    obtain rfl : line = "frozen regions:" := hline
    obtain ⟨freezer, hsucceeds, hvisited⟩ :=
      succeeds_printCommands hi hsound haddr hname hs hn hroom hrest
    have hall := Succeeds.cons (dispatch_title p hi) hsucceeds
    exact ⟨freezer, hall.executeLines, fun _ => hall, hvisited⟩

/-- The lines that a session prints for its frozen regions restore them in another session,
behind what is frozen there: in their order, with new numbers and without their errors. None
of the lines throws, but for the one that is printed if nothing is frozen. Printed again, they
are the same commands. -/
theorem frozen_restored {saved : MemwatchShell} (hsaved : Session ReadsAll saved)
    (haddr : ∀ r ∈ saved.freezer.visited, r.addr ≠ 0 ∧ r.addr < 2 ^ 64) (hst : Session Q st)
    (hi : st.interactive = true)
    (hname : (∀ r ∈ saved.freezer.visited, r.name ≠ "") ∨ LeavesUnnamed st)
    (hroom : st.freezer.allocated + saved.freezer.visited.length ≤ 2 ^ 64)
    {lines : List (Process × String)}
    (hlines : lines.map Prod.snd = printRegionsCommands saved.freezer) :
    ∃ freezer, executeLines lines st = .ok { st with freezer := freezer } ∧
      (saved.freezer.visited ≠ [] → Succeeds lines st { st with freezer := freezer }) ∧
      freezer.visited =
        st.freezer.visited ++ replayedFrom st.freezer.allocated saved.freezer.visited ∧
      freezer.visited.map Region.printCommand =
        st.freezer.visited.map Region.printCommand ++
          saved.freezer.visited.map Region.printCommand := by
  have hsound : ∀ r ∈ saved.freezer.visited, SoundRegion r := by
    intro r hr
    obtain ⟨e, he, rfl⟩ := List.mem_map.mp hr
    exact (hsaved.allFrozen.regions _ (hsaved.allFrozen.indexes e he)).sound
  obtain ⟨hcovered, hnumbered⟩ := hst.numbered
  obtain ⟨freezer, hrun, hsucceeds, hvisited⟩ :=
    execute_printRegionsCommands hi hsound haddr hname hcovered hnumbered hroom hlines
  refine ⟨freezer, hrun, hsucceeds, hvisited, ?_⟩
  rw [hvisited, List.map_append, map_printCommand_replayedFrom]

end Restore

section

open Plain

def namedRegion : RegionFreezer.Region := ⟨"hp", 0, 0x1000, [0xFF], "", true, none⟩

def savedShell : MemwatchShell :=
  { new "target" 10 5 false true false with freezer := RegionFreezer.new.addRegion namedRegion }

theorem savedShell_session : Session ReadsAll savedShell := by
  have : LawfulPhosgText := plainPhosg_lawful
  have hsound : SoundRegion namedRegion :=
    ⟨by simp [Word, namedRegion], by simp [namedRegion], by simp [namedRegion]⟩
  have hrun : executeLine idleProcess namedRegion.printCommand
      (new "target" 10 5 false true false) = .ok savedShell :=
    executeLine_of_dispatch (dispatch_printCommand idleProcess hsound (by decide) (by decide) rfl
      fun hempty => absurd hempty (by decide))
  refine .line (.new "target" 10 5 false false) (by decide +kernel) ?_ hrun
  intro addr size data hdata
  cases hdata
  exact List.length_replicate

theorem namedRegion_restored : ∃ freezer,
    Succeeds [(idleProcess, "frozen regions:"), (idleProcess, namedRegion.printCommand)]
      (new "other" 10 5 false true false)
      { new "other" 10 5 false true false with freezer := freezer } ∧
    freezer.visited = [namedRegion] := by
  have : LawfulPhosgText := plainPhosg_lawful
  have hother : Session ReadsAll (new "other" 10 5 false true false) :=
    .new "other" 10 5 false false
  have haddr : ∀ r ∈ savedShell.freezer.visited, r.addr ≠ 0 ∧ r.addr < 2 ^ 64 :=
    List.forall_mem_singleton.mpr ⟨by decide, by decide⟩
  have hname : ∀ r ∈ savedShell.freezer.visited, r.name ≠ "" :=
    List.forall_mem_singleton.mpr (by decide)
  have hlines : [(idleProcess, "frozen regions:"), (idleProcess, namedRegion.printCommand)].map
      Prod.snd = printRegionsCommands savedShell.freezer := rfl
  obtain ⟨freezer, -, hsucceeds, hvisited, -⟩ := frozen_restored savedShell_session haddr hother rfl
    (.inl hname) (by decide) hlines
  exact ⟨freezer, hsucceeds (List.cons_ne_nil _ _), hvisited⟩

end

end MemwatchShell
end Memwatch
