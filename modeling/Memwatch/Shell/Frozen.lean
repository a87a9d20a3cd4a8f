import Memwatch.Lib.Runs
import Memwatch.Shell.Changes
import Memwatch.Shell.Freeze

/-!
# Frozen regions

What is known of a region that `freeze` has added: the name is a word, for it is an
argument, a part of one or the name of a search, and the names of searches are words;
masks fit their data.
-/

namespace Memwatch

namespace MemwatchShell

open Lib Text RegionFreezer

/-! ## Words -/

section Words

/-- A text without spaces and null characters. -/
def Word (s : String) : Prop := ∀ c ∈ s.toList, c ≠ ' ' ∧ c ≠ '\x00'

theorem word_empty : Word "" := nofun

theorem Word.substr {s : String} (h : Word s) (pos : Nat) : Word (substr s pos) := by
  intro c hc
  rw [Text.substr, String.toList_ofList] at hc
  exact h c (List.mem_of_mem_drop hc)

theorem mem_splitOn {a c : Char} {l w : List Char} (h : w ∈ l.splitOn a) (hc : c ∈ w) :
    c ≠ a ∧ c ∈ l := by
  induction l generalizing w with
  | nil =>
    obtain rfl := List.mem_singleton.mp h
    cases hc
  | cons x l ih =>
    rw [List.splitOn_cons_eq_if_modifyHead] at h
    split at h
    · rcases List.mem_cons.mp h with rfl | h
      · cases hc
      · exact (ih h hc).imp_right (List.mem_cons_of_mem _)
    · next hx =>
      obtain ⟨p, ps, hps⟩ := List.exists_cons_of_ne_nil (List.splitOn_ne_nil a l)
      rw [hps] at h ih
      rcases List.mem_cons.mp h with rfl | h
      · rcases List.mem_cons.mp hc with rfl | hc
        · exact ⟨fun heq => hx (beq_iff_eq.mpr heq), List.mem_cons_self⟩
        · exact (ih List.mem_cons_self hc).imp_right (List.mem_cons_of_mem _)
      · exact (ih (List.mem_cons_of_mem _ h) hc).imp_right (List.mem_cons_of_mem _)

variable [PhosgText] [LawfulPhosgText] {line w : String} {args : List String}
  {minArgs maxArgs : Nat} (hargs : splitArgs line minArgs maxArgs = .ok args) (h : w ∈ args)

include hargs h

theorem ne_space_of_splitArgs {c : Char} (hc : c ∈ w.toList) : c ≠ ' ' ∧ c ∈ line.toList := by
  rw [split_of_splitArgs hargs, LawfulPhosgText.split_eq] at h
  obtain ⟨l, hl, rfl⟩ := List.mem_map.mp h
  rw [String.toList_ofList] at hc
  exact mem_splitOn hl hc

theorem word_of_mem_splitArgs (hline : '\x00' ∉ line.toList) : Word w := by
  intro c hc
  obtain ⟨hspace, hmem⟩ := ne_space_of_splitArgs hargs h hc
  exact ⟨hspace, fun heq => hline (heq ▸ hmem)⟩

end Words

/-! ## Reachable states -/

section Reachable

variable [Phosg] [PhosgText] [FloatText] {st st' opened : MemwatchShell} {target : Target}
  {call : Call}

def Call.argsStr : Call → String
  | openSearch argsStr | fork argsStr | results argsStr | delete argsStr | search argsStr
  | truncate argsStr | undo argsStr | close argsStr | state argsStr => argsStr

/-- The states an interactive shell gets to. A command line is a C string, and the other
commands leave the searches as they are. -/
inductive Reachable : MemwatchShell → Prop where
  | new (processName : String) (maxResults maxSearchIterations : UInt64)
      (pauseTarget useColor : Bool) :
      Reachable (new processName maxResults maxSearchIterations pauseTarget true useColor)
  | call {st st' : MemwatchShell} {target : Target} {call : Call} (hst : Reachable st)
      (hline : '\x00' ∉ call.argsStr.toList) (hrun : st.executeCommand target call = .ok st') :
      Reachable st'
  | other {st st' : MemwatchShell} (hst : Reachable st)
      (hsearches : st'.nameToSearches = st.nameToSearches)
      (hcurrent : st'.currentSearchName = st.currentSearchName)
      (hinteractive : st'.interactive = st.interactive) : Reachable st'

omit [Phosg] [PhosgText] [FloatText] in
theorem Opened.word {args : List String} {initialSearch : Option String}
    (hopened : Opened st args opened initialSearch) (h : Word st.currentSearchName)
    (hargs : ∀ w ∈ args, Word w) : Word opened.currentSearchName := by
  cases hopened with
  | list => exact h
  | switch => exact hargs _ List.mem_cons_self
  | @new typeName args type =>
    cases args with
    | nil => exact word_empty
    | cons name args => exact hargs name (List.mem_cons_of_mem _ List.mem_cons_self)
  | newAndSearch => exact hargs _ (List.mem_cons_of_mem _ List.mem_cons_self)

variable [LawfulPhosgText]

theorem Change.word (hchange : Change target st st' call) (h : Word st.currentSearchName)
    (hline : '\x00' ∉ call.argsStr.toList) : Word st'.currentSearchName := by
  cases hchange with
  | keep hst' => rw [hst']; exact h
  | set hset => rw [(setField_keeps hset).2.1]; exact h
  | opens hargs hopening hst' =>
    rw [hst']
    exact (opened_of_opening hopening).word h fun w hw => word_of_mem_splitArgs hargs hw hline
  | opensAndSearches hargs hopening hdone =>
    obtain ⟨_, _, _, _, -, -, -, rfl⟩ := hdone
    exact (opened_of_opening hopening).word h fun w hw => word_of_mem_splitArgs hargs hw hline
  | search hdone =>
    obtain ⟨_, _, _, _, -, -, -, rfl⟩ := hdone
    exact h
  | fork hargs _ _ hst' =>
    rw [hst']
    exact word_of_mem_splitArgs hargs List.mem_cons_self hline
  | close _ hst' =>
    rw [hst']
    dsimp only
    split
    · exact word_empty
    · exact h
  | copy _ _ hst' | lose _ _ hst' | delete _ _ hst' | undo _ _ hst' => rw [hst']; exact h
  | truncate _ _ _ _ hst' => rw [hst']; exact h

theorem Reachable.word (h : Reachable st) : Word st.currentSearchName := by
  induction h with
  | new => exact word_empty
  | call _ hline hrun ih => exact (change_of_execute hrun).word ih hline
  | other _ _ hcurrent _ ih => rw [hcurrent]; exact ih

end Reachable

/-! ## Accepted commands -/

section Accepted

variable {st : MemwatchShell} {a a' : FreezeArgs} {arg name : String}

/-- What holds of the variables of the loop over the arguments. -/
structure FreezeArgs.Sound (a : FreezeArgs) : Prop where
  name : Word a.name
  addrArg : Word a.addrArg
  arrayMaxEntries : a.arrayMaxEntries < 2 ^ 64

/-- What an argument does to the variables of the loop. -/
inductive Reads (st : MemwatchShell) (a : FreezeArgs) (arg : String) : FreezeArgs → Prop
  | name (hopt : charAt arg 0 = '+') (hletter : charAt arg 1 = 'n') :
      Reads st a arg { a with name := substr arg 2 }
  | size {readSize endPos : Nat} (hopt : charAt arg 0 = '+') (hletter : charAt arg 1 = 's')
      (hnumber : stoull (substr arg 2) 16 = .ok (readSize, endPos)) :
      Reads st a arg { a with readSize := readSize }
  | count {arrayMaxEntries endPos : Nat} (hopt : charAt arg 0 = '+') (hletter : charAt arg 1 = 'm')
      (hnumber : stoull (substr arg 2) 10 = .ok (arrayMaxEntries, endPos)) :
      Reads st a arg { a with arrayMaxEntries := arrayMaxEntries }
  | disable (hopt : charAt arg 0 = '+') (hletter : charAt arg 1 = 'd') :
      Reads st a arg { a with enable := false }
  | null (hopt : charAt arg 0 = '+') (hletter : charAt arg 1 = 'N') :
      Reads st a arg { a with
        readingNullDataToParse := true
        nullDataToParse := a.nullDataToParse ++ substr arg 2 }
  | nullText (hword : charAt arg 0 ≠ '+') (haddr : a.addr ≠ 0)
      (hreading : a.readingNullDataToParse = true) :
      Reads st a arg { a with nullDataToParse := a.nullDataToParse ++ arg }
  | dataText (hword : charAt arg 0 ≠ '+') (haddr : a.addr ≠ 0)
      (hreading : a.readingNullDataToParse = false) :
      Reads st a arg { a with dataToParse := a.dataToParse ++ arg }
  | address {addr : Nat} (hword : charAt arg 0 ≠ '+') (haddr : a.addr = 0)
      (hresolves : st.getAddrFromCommand arg = .ok addr) :
      Reads st a arg { a with addrArg := arg, addr := addr }

theorem reads_of_readFreezeArg (h : st.readFreezeArg a arg = .ok a') : Reads st a arg a' := by
  unfold readFreezeArg at h
  split_ifs at h with hopt hn hs hm hd hN haddr hreading
  · cases h
    exact .name hopt hn
  · obtain ⟨⟨readSize, endPos⟩, hnumber, h⟩ := except_bind_eq_ok.mp h
    cases h
    exact .size hopt hs hnumber
  · obtain ⟨⟨arrayMaxEntries, endPos⟩, hnumber, h⟩ := except_bind_eq_ok.mp h
    cases h
    exact .count hopt hm hnumber
  · cases h
    exact .disable hopt hd
  · cases h
    exact .null hopt hN
  · cases h
    exact .nullText hopt haddr hreading
  · cases h
    exact .dataText hopt haddr (Bool.eq_false_iff.mpr hreading)
  · obtain ⟨addr, hresolves, h⟩ := except_bind_eq_ok.mp h
    cases h
    exact .address hopt (not_not.mp haddr) hresolves

theorem FreezeArgs.Sound.read (h : a.Sound) (harg : Word arg)
    (hread : st.readFreezeArg a arg = .ok a') : a'.Sound := by
  cases reads_of_readFreezeArg hread with
  | name => exact { h with name := harg.substr 2 }
  | count _ _ hnumber => exact { h with arrayMaxEntries := stoull_lt hnumber }
  | address => exact { h with addrArg := harg }
  | size | disable | null | nullText | dataText => exact { h with }

/-- The name of a region without a name of its own: none, if the current search has no
iterations. -/
def defaultName (st : MemwatchShell) (addrArg : String) : String :=
  match (st.nameToSearches.find? st.currentSearchName).bind List.getLast?, find addrArg '@' with
  | some _, some atPos => substr addrArg (atPos + 1)
  | some _, none => st.currentSearchName
  | none, _ => ""

theorem generateName_eq (st : MemwatchShell) (addrArg : String) :
    st.generateName addrArg = .ok (st.defaultName addrArg) := by
  unfold generateName defaultName getLatestSearch getSearches
  rw [Option.getD_none]
  cases st.nameToSearches.find? st.currentSearchName with
  | none => rfl
  | some searches =>
    simp only [Option.bind_some, bind, Except.bind]
    cases hlast : searches.getLast? with
    | none => rfl
    | some search => cases find addrArg '@' <;> rfl

theorem freezeName_eq (st : MemwatchShell) (a : FreezeArgs) : st.freezeName a =
    .ok (if a.name = "" then st.defaultName a.addrArg else a.name) := by
  rw [freezeName, generateName_eq, apply_ite Except.ok]

theorem word_defaultName {addrArg : String} (hst : Word st.currentSearchName)
    (haddrArg : Word addrArg) : Word (st.defaultName addrArg) := by
  unfold defaultName
  split
  · exact haddrArg.substr _
  · exact hst
  · exact word_empty

/-- The items of an array, of which the masks fit their data. -/
structure SoundItems (data : Bytes) (items : ArrayItems) : Prop where
  pos : items.numItems ≠ 0
  lt : items.numItems < 2 ^ 64
  dataMask : IsMask data items.dataMask
  nullDataMask : IsMask items.nullData items.nullDataMask
  nullData : items.nullData ≠ [] → items.nullData.length = data.length

/-- What holds of a region that is frozen. -/
structure SoundRegion (r : RegionFreezer.Region) : Prop where
  name : Word r.name
  data : r.data ≠ []
  items : ∀ items, r.items = some items → SoundItems r.data items

variable {target : Target} {d : FreezeData}

theorem isMask_replicate (data : Bytes) : IsMask data (List.replicate data.length 0xFF) :=
  ⟨List.length_replicate, fun _ hm => .inr (List.eq_of_mem_replicate hm)⟩

theorem data_of_checkFreeze (h : checkFreeze a d = .ok ()) :
    d.data ≠ [] ∧
      (d.nullData ≠ [] → a.arrayMaxEntries ≠ 0 ∧ d.nullData.length = d.data.length) := by
  unfold checkFreeze at h
  split_ifs at h with hdata hnull hcount hlen
  · exact ⟨hdata, fun _ => ⟨hcount, not_not.mp hlen⟩⟩
  · exact ⟨hdata, fun hne => absurd hne hnull⟩

/-- The region that is added to the frozen list. -/
def newRegion (freezer : RegionFreezer) (name : String) (a : FreezeArgs) (d : FreezeData) :
    RegionFreezer.Region :=
  ⟨name, freezer.nextIndex, a.addr, d.data, "", a.enable,
    if a.arrayMaxEntries ≠ 0 then
      some ⟨a.arrayMaxEntries, d.dataMask, d.nullData,
        if d.nullData = [] then [] else d.nullDataMask⟩
    else none⟩

theorem addToFrozenList_eq (freezer : RegionFreezer) (name : String) (a : FreezeArgs)
    (d : FreezeData) :
    addToFrozenList freezer name a d = freezer.addRegion (newRegion freezer name a d) := by
  unfold addToFrozenList newRegion freezeArray freeze Region.newArray Region.new
  split_ifs with hcount hnull
  · dsimp only
    rw [hnull]
  · rfl
  · rfl

theorem soundRegion_newRegion (freezer : RegionFreezer) (hname : Word name) (ha : a.Sound)
    (hdata : d.data ≠ [])
    (hnull : d.nullData ≠ [] → a.arrayMaxEntries ≠ 0 ∧ d.nullData.length = d.data.length)
    (hmask : IsMask d.data d.dataMask ∧ IsMask d.nullData d.nullDataMask) :
    SoundRegion (newRegion freezer name a d) := by
  refine ⟨hname, hdata, fun items hitems => ?_⟩
  unfold newRegion at hitems
  dsimp only at hitems
  split_ifs at hitems with hcount hempty
  · cases hitems
    exact ⟨hcount, ha.arrayMaxEntries, hmask.1, ⟨congrArg List.length hempty.symm, nofun⟩,
      fun hne => absurd hempty hne⟩
  · cases hitems
    exact ⟨hcount, ha.arrayMaxEntries, hmask.1, hmask.2, fun hne => (hnull hne).2⟩

variable [PhosgText]

theorem commandFreeze_eq_ok {st' : MemwatchShell} {argsStr : String} :
    commandFreeze target argsStr st = .ok () st' ↔ st.interactive = true ∧
      ∃ args a d, splitArgs argsStr 2 0 = .ok args ∧
        args.foldlM st.readFreezeArg FreezeArgs.new = .ok a ∧ freezeData target a = .ok d ∧
        checkFreeze a d = .ok () ∧
        st' = { st with freezer := st.freezer.addRegion (newRegion st.freezer
          (if a.name = "" then st.defaultName a.addrArg else a.name) a d) } := by
  refine ⟨fun h => ?_, fun ⟨hi, args, a, d, hargs, ha, hd, hcheck, hst'⟩ => ?_⟩
  · obtain ⟨_, hcheck, h⟩ := raise_bind_eq_ok.mp h
    have hi : st.interactive = true := by
      by_contra hi
      rw [show st.checkInteractive = .error _ from if_neg hi] at hcheck
      cases hcheck
    obtain ⟨args, hargs, h⟩ := raise_bind_eq_ok.mp h
    obtain ⟨a, ha, h⟩ := raise_bind_eq_ok.mp h
    obtain ⟨name, hname, h⟩ := raise_bind_eq_ok.mp h
    rw [freezeName_eq] at hname
    cases hname
    obtain ⟨d, hd, h⟩ := raise_bind_eq_ok.mp h
    obtain ⟨_, hdata, h⟩ := raise_bind_eq_ok.mp h
    refine ⟨hi, args, a, d, hargs, ha, hd, hdata, ?_⟩
    rw [set_eq_ok.mp h, addToFrozenList_eq]
  · have hi : st.checkInteractive = .ok () := if_pos hi
    refine (raise_bind_of_ok hi).trans ((raise_bind_of_ok hargs).trans ?_)
    refine (raise_bind_of_ok ha).trans ((raise_bind_of_ok (freezeName_eq st a)).trans ?_)
    refine (raise_bind_of_ok hd).trans ((raise_bind_of_ok hcheck).trans ?_)
    rw [set_eq_ok.mpr rfl, hst', addToFrozenList_eq]

variable [LawfulPhosgText]

theorem isMask_freezeData (h : freezeData target a = .ok d)
    (hread : ∀ addr size data, target.read addr size = .ok data → data.length = size) :
    IsMask d.data d.dataMask ∧ IsMask d.nullData d.nullDataMask := by
  unfold freezeData at h
  split at h
  · obtain ⟨data, hdata, h⟩ := except_bind_eq_ok.mp h
    cases h
    dsimp only
    rw [← hread _ _ _ hdata]
    exact ⟨isMask_replicate data, rfl, nofun⟩
  · obtain ⟨⟨data, dataMask⟩, hdata, h⟩ := except_bind_eq_ok.mp h
    obtain ⟨⟨nullData, nullDataMask⟩, hnull, h⟩ := except_bind_eq_ok.mp h
    cases h
    exact ⟨LawfulPhosgText.isMask_of_parse hdata, LawfulPhosgText.isMask_of_parse hnull⟩

/-- A region that a command has frozen. It may have been enabled or disabled since, and
it may have got an error. -/
def Frozen [Phosg] [FloatText] (r : RegionFreezer.Region) : Prop :=
  ∃ (st : MemwatchShell) (target : Target) (argsStr : String) (created : RegionFreezer.Region),
    Reachable st ∧ '\x00' ∉ argsStr.toList ∧
    (∀ addr size data, target.read addr size = .ok data → data.length = size) ∧
    commandFreeze target argsStr st =
      .ok () { st with freezer := st.freezer.addRegion created } ∧
    ∃ enable error, r = { created with enable := enable, error := error }

omit [PhosgText] [LawfulPhosgText] in
theorem addRegion_inj {freezer : RegionFreezer} {r r' : RegionFreezer.Region}
    (h : freezer.addRegion r = freezer.addRegion r') : r = r' := by
  have hheap := congrFun (congrArg heap h) freezer.allocated
  unfold addRegion at hheap
  dsimp only at hheap
  rwa [Function.update_self, Function.update_self] at hheap

theorem Frozen.sound [Phosg] [FloatText] {r : RegionFreezer.Region} (h : Frozen r) :
    SoundRegion r := by
  obtain ⟨st, target, argsStr, created, hst, hline, hread, hfreeze, enable, error, rfl⟩ := h
  obtain ⟨-, args, a, d, hargs, ha, hd, hcheck, heq⟩ := commandFreeze_eq_ok.mp hfreeze
  obtain rfl := addRegion_inj (congrArg freezer heq)
  have ha : a.Sound := foldlM_invariant ha ⟨word_empty, word_empty, Nat.two_pow_pos 64⟩
    fun _ arg harg h _ hread => h.read (word_of_mem_splitArgs hargs harg hline) hread
  obtain ⟨hdata, hnull⟩ := data_of_checkFreeze hcheck
  have hname : Word (if a.name = "" then st.defaultName a.addrArg else a.name) := by
    split
    · exact word_defaultName hst.word ha.addrArg
    · exact ha.name
  have hcreated := soundRegion_newRegion st.freezer hname ha hdata hnull
    (isMask_freezeData hd hread)
  exact { hcreated with }

end Accepted

end MemwatchShell
end Memwatch
