import Memwatch.Freezer.Settle
import Memwatch.Shell.Restore

/-!
# The frozen list of a session

What the lines of a session do to the list of the frozen regions, told without the indexes
of the freezer: `freeze` adds a region at the end, `unfreeze`, `enable` and `disable` act on
the regions of a key, a pass of the write thread reports errors, and everything else leaves
the list alone. The freezer of every session represents its list, but for sessions that
unfreeze everything with `*`.
-/

namespace Memwatch

open Lib Text RegionFreezer

namespace RegionFreezer

/-! ## Passes -/

/-- The list with the errors that a pass reports. -/
def RegionList.reported (l : RegionList) (errors : List String) : RegionList :=
  { l with regions := l.regions.zipWith (fun r error => { r with error := error }) errors }

section Passes

variable {σ : Type} {s : RegionFreezer} {l : RegionList}

theorem region_writePass (A : Adapter σ) (s : RegionFreezer) (mem : σ) (p : Nat) :
    UpToError (s.heap p) ((s.writePass A mem).1.heap p) := by
  obtain ⟨enable, error, heq⟩ := (touches_writePass A s mem).heap p
  have henable := (writePass_spec A s mem).passes.enable p
  unfold UpToError
  rw [heq] at henable ⊢
  obtain rfl : enable = (s.heap p).enable := henable
  rfl

theorem Represents.pass (h : Represents s l) (A : Adapter σ) (mem : σ) :
    Represents (s.writePass A mem).1
      (l.reported ((s.writePass A mem).1.visited.map fun r => r.error)) := by
  have hpasses := (writePass_spec A s mem).passes
  refine ⟨h.agree.flags hpasses.toFlags, ⟨?_, fun p hp => ?_⟩, ?_, ?_⟩
  · rw [hpasses.nextIndex, hpasses.allocated]
    exact h.numbered.next
  · rw [hpasses.allocated] at hp
    rw [hpasses.index]
    exact h.numbered.index p hp
  · unfold RegionList.reported visited
    rw [← h.visits, visited, hpasses.indexes, List.map_map, List.zipWith_map, List.zipWith_self]
    exact List.map_congr_left fun e _ => region_writePass A s mem e.2
  · exact hpasses.allocated.trans h.created

end Passes

end RegionFreezer

namespace MemwatchShell

/-! ## Lines -/

section Lines

variable [Phosg] [PhosgText] [FloatText]

/-- The handler of a line and the text that it takes. -/
def handled (line : String) : Option (Handler × String) :=
  if line = "" then none
  else
    let commandEnd := PhosgText.skipNonWhitespace line 0
    (commandHandlers.lookup (substrTo line commandEnd)).map fun handler =>
      (handler, substr line (PhosgText.skipWhitespace line commandEnd))

/-- What a handler does to the regions of a key. -/
def trialOf : Handler → Option Trial
  | .unfreeze => some .unfreeze
  | .enable => some (.setEnable true)
  | .disable => some (.setEnable false)
  | _ => none

/-- What a line does to the frozen list. -/
inductive OnList (p : Process) (st : MemwatchShell) (l : RegionList) : String → RegionList → Prop
    where
  | unknown {line : String} (h : handled line = none) : OnList p st l line l
  | other {line argsStr : String} {handler : Handler} (h : handled line = some (handler, argsStr))
      (hne : handler ≠ .freeze ∧ handler ≠ .watch) (htrial : trialOf handler = none) :
      OnList p st l line l
  | freeze {line argsStr : String} {created : RegionFreezer.Region}
      (h : handled line = some (.freeze, argsStr))
      (hfreeze : commandFreeze p.toTarget argsStr st =
        .ok () { st with freezer := st.freezer.addRegion created }) :
      OnList p st l line (l.add created)
  | fails {line argsStr : String} {e : Exception} (h : handled line = some (.freeze, argsStr))
      (hfreeze : commandFreeze p.toTarget argsStr st = .error (.exception e) st) :
      OnList p st l line l
  | key {line argsStr : String} {handler : Handler} {t : Trial}
      (h : handled line = some (handler, argsStr)) (htrial : trialOf handler = some t)
      (hi : st.interactive = true) (hall : argsStr ≠ "*") (hid : argsStr ≠ "") :
      OnList p st l line (t.tried l (st.keys argsStr))
  | all {line : String} {handler : Handler} (enable : Bool)
      (h : handled line = some (handler, "*"))
      (hhandler : handler = if enable then .enable else .disable) (hi : st.interactive = true) :
      OnList p st l line (l.setEnable (fun _ => true) enable)
  | print {line argsStr : String} {handler : Handler} {t : Trial}
      (h : handled line = some (handler, argsStr)) (htrial : trialOf handler = some t)
      (hidle : argsStr = "" ∨ ¬ st.interactive = true) : OnList p st l line l
  | watch {line argsStr : String} {l' : RegionList} (h : handled line = some (.watch, argsStr))
      (hargs : OnList p st l argsStr l') : OnList p st l line l'

/-- The line is `unfreeze *`, or watches one that is. -/
inductive UnfreezesAll : String → Prop where
  | unfreeze {line : String} (h : handled line = some (.unfreeze, "*")) : UnfreezesAll line
  | watch {line argsStr : String} (h : handled line = some (.watch, argsStr))
      (hargs : UnfreezesAll argsStr) : UnfreezesAll line

variable {p : Process} {line argsStr : String} {st st' : MemwatchShell} {l l' : RegionList}
  {handler : Handler} {t : Trial}

theorem executeLine_of_none (h : handled line = none) : executeLine p line st = .ok st := by
  unfold executeLine dispatchCommand
  unfold handled at h
  split_ifs at h with hempty
  · rw [if_pos hempty]
    rfl
  · have hnone := Option.map_eq_none_iff.mp h
    simp only [if_neg hempty, hnone]
    rfl

theorem executeLine_of_some (h : handled line = some (handler, argsStr)) :
    executeLine p line st =
      report (handler.command (otherCommands p line.length) p.toTarget argsStr st) := by
  unfold executeLine dispatchCommand
  unfold handled at h
  split_ifs at h with hempty
  obtain ⟨handler', hlookup, heq⟩ := Option.map_eq_some_iff.mp h
  cases heq
  simp only [if_neg hempty, hlookup]

variable [LawfulPhosgText]

theorem executeLine_of_watch (h : handled line = some (.watch, argsStr)) :
    executeLine p line st = executeLine p argsStr st := by
  unfold handled at h
  split_ifs at h with hempty
  obtain ⟨handler', hlookup, heq⟩ := Option.map_eq_some_iff.mp h
  cases heq
  exact executeLine_watch hempty hlookup

omit [Phosg] [FloatText] in
theorem length_of_handled (h : handled line = some (handler, argsStr)) :
    argsStr.length < line.length := by
  unfold handled at h
  split_ifs at h with hempty
  obtain ⟨handler', hlookup, heq⟩ := Option.map_eq_some_iff.mp h
  cases heq
  have hpos := pos_of_handler hlookup
  have hlen : line.length ≠ 0 := fun hzero => hempty (String.length_eq_zero_iff.mp hzero)
  rw [length_substr]
  omega

/-! ## What a line does -/

omit [LawfulPhosgText] in
theorem handler_of_trial (htrial : trialOf handler = some t) :
    handler ≠ .watch ∧ handler ≠ .freeze ∧
      handler.command (otherCommands p line.length) p.toTarget argsStr =
        otherCommands p 0 handler argsStr := by
  have hother : handler ≠ .watch → otherCommands p line.length handler argsStr =
      otherCommands p 0 handler argsStr := fun hwatch => by rw [otherCommands_of_ne hwatch]
  cases handler with
  | unfreeze | enable | disable => exact ⟨nofun, nofun, hother nofun⟩
  | _ => cases htrial

omit [LawfulPhosgText] in
/-- The commands with an id do what is tried with its keys. -/
theorem tries_of_trial (hl : Represents st.freezer l) (hlt : l.numCreated < 2 ^ 64)
    (htrial : trialOf handler = some t) (hi : st.interactive = true) (hall : argsStr ≠ "*")
    (hid : argsStr ≠ "") :
    Tries t st l (st.keys argsStr) (otherCommands p 0 handler argsStr st) := by
  cases handler with
  | unfreeze => cases htrial; exact tries_unfreeze hl hlt hi hall hid
  | enable => cases htrial; exact tries_enable hl hlt hi hall hid
  | disable => cases htrial; exact tries_enable hl hlt hi hall hid
  | _ => cases htrial

omit [LawfulPhosgText] in
theorem executeLine_of_idle (h : handled line = some (handler, argsStr))
    (htrial : trialOf handler = some t) (hidle : argsStr = "" ∨ ¬ st.interactive = true) :
    executeLine p line st = .ok st := by
  rw [executeLine_of_some h, (handler_of_trial htrial).2.2]
  by_cases hi : st.interactive = true
  · obtain rfl := hidle.resolve_right (not_not.mpr hi)
    have hcheck : st.checkInteractive = .ok () := if_pos hi
    have hnone : ∀ enable, commandEnableDisable "" enable st = .ok () st := by
      intro enable
      unfold commandEnableDisable
      rw [get_bind, raise_bind_of_ok hcheck]
      rfl
    cases handler with
    | unfreeze =>
      show report (commandUnfreeze "" st) = _
      unfold commandUnfreeze
      rw [get_bind, raise_bind_of_ok hcheck]
      rfl
    | enable => exact congrArg report (hnone true)
    | disable => exact congrArg report (hnone false)
    | _ => cases htrial
  · cases handler with
    | unfreeze | enable | disable => exact report_of_not_interactive hi
    | _ => cases htrial

omit [LawfulPhosgText] in
theorem executeLine_of_all (enable : Bool) (h : handled line = some (handler, "*"))
    (hhandler : handler = if enable then .enable else .disable) (hi : st.interactive = true) :
    executeLine p line st =
      .ok { st with freezer := (st.freezer.enableAll enable).1 } := by
  have hcheck : st.checkInteractive = .ok () := if_pos hi
  have hall : commandEnableDisable "*" enable st =
      .ok () { st with freezer := (st.freezer.enableAll enable).1 } := by
    unfold commandEnableDisable
    rw [get_bind, raise_bind_of_ok hcheck]
    rfl
  cases enable with
  | true =>
    obtain rfl : handler = .enable := hhandler
    rw [executeLine_of_some h, (handler_of_trial rfl).2.2]
    exact congrArg report hall
  | false =>
    obtain rfl : handler = .disable := hhandler
    rw [executeLine_of_some h, (handler_of_trial rfl).2.2]
    exact congrArg report hall

omit [LawfulPhosgText] in
theorem freezer_of_other (h : handled line = some (handler, argsStr))
    (hne : handler ≠ .freeze ∧ handler ≠ .watch) (htrial : trialOf handler = none)
    (hrun : executeLine p line st = .ok st') : st'.freezer = st.freezer := by
  rw [executeLine_of_some h] at hrun
  have hcall : ∀ call : Call, st.executeCommand p.toTarget call = .ok st' →
      st'.freezer = st.freezer := fun call hrun => (change_of_execute hrun).freezer
  have hother : handler ≠ .enable ∧ handler ≠ .disable ∧ handler ≠ .unfreeze →
      report (otherCommands p line.length handler argsStr st) = .ok st' →
      st'.freezer = st.freezer := by
    intro hid hrun
    rw [otherCommands_of_ne hne.2] at hrun
    obtain ⟨_, _, _, -, rfl⟩ := kept_of_other hne.2 hid hrun
    rfl
  cases handler with
  | freeze => exact absurd rfl hne.1
  | watch => exact absurd rfl hne.2
  | enable | disable | unfreeze => cases htrial
  | close => exact hcall (.close argsStr) hrun
  | delete => exact hcall (.delete argsStr) hrun
  | fork => exact hcall (.fork argsStr) hrun
  | openSearch => exact hcall (.openSearch argsStr) hrun
  | results => exact hcall (.results argsStr) hrun
  | search => exact hcall (.search argsStr) hrun
  | state => exact hcall (.state argsStr) hrun
  | truncate => exact hcall (.truncate argsStr) hrun
  | undo => exact hcall (.undo argsStr) hrun
  | _ => exact hother ⟨nofun, nofun, nofun⟩ hrun

/-- The freezer that a line leaves represents the list that the line leaves. -/
theorem OnList.represents (hon : OnList p st l line l') (hl : Represents st.freezer l)
    (hlt : l.numCreated < 2 ^ 64) (hrun : executeLine p line st = .ok st') :
    Represents st'.freezer l' := by
  have hcreated : st.freezer.allocated < 2 ^ 64 := hl.created ▸ hlt
  induction hon with
  | unknown h =>
    obtain rfl := Except.ok.inj ((executeLine_of_none h).symm.trans hrun)
    exact hl
  | other h hne htrial => exact freezer_of_other h hne htrial hrun ▸ hl
  | @freeze line argsStr created h hfreeze =>
    have hend : report (commandFreeze p.toTarget argsStr st) = .ok st' := by
      rw [← hrun, executeLine_of_some h]
      rfl
    rw [hfreeze] at hend
    obtain rfl := Except.ok.inj hend
    obtain ⟨-, _, a, d, -, -, -, -, hst'⟩ := commandFreeze_eq_ok.mp hfreeze
    obtain rfl := withRegion_inj hst'
    exact hl.add hcreated rfl
  | @fails line argsStr e h hfreeze =>
    have hend : report (commandFreeze p.toTarget argsStr st) = .ok st' := by
      rw [← hrun, executeLine_of_some h]
      rfl
    rw [hfreeze] at hend
    exact Except.ok.inj hend ▸ hl
  | key h htrial hi hall hid =>
    rw [executeLine_of_some h, (handler_of_trial htrial).2.2] at hrun
    have htries := tries_of_trial (p := p) hl hlt htrial hi hall hid
    exact report_eq_ok hrun ▸ htries.represents
  | all enable h hhandler hi =>
    obtain rfl := Except.ok.inj ((executeLine_of_all enable h hhandler hi).symm.trans hrun)
    have hop : Op.enableAll enable ≠ .unfreezeAll := nofun
    exact (hl.call hcreated hop).1
  | print h htrial hidle =>
    obtain rfl := Except.ok.inj ((executeLine_of_idle h htrial hidle).symm.trans hrun)
    exact hl
  | watch h hargs ih => exact ih ((executeLine_of_watch h).symm.trans hrun)

omit [Phosg] [FloatText] [LawfulPhosgText] in
theorem onList_of_trial (h : handled line = some (handler, argsStr))
    (htrial : trialOf handler = some t) (hall : ¬ UnfreezesAll line) :
    ∃ l', OnList p st l line l' := by
  by_cases hi : st.interactive = true
  · by_cases hid : argsStr = ""
    · exact ⟨l, .print h htrial (.inl hid)⟩
    · by_cases hstar : argsStr = "*"
      · subst hstar
        cases handler with
        | unfreeze => exact absurd (.unfreeze h) hall
        | enable => exact ⟨_, .all true h rfl hi⟩
        | disable => exact ⟨_, .all false h rfl hi⟩
        | _ => cases htrial
      · exact ⟨_, .key h htrial hi hstar hid⟩
  · exact ⟨l, .print h htrial (.inr hi)⟩

omit [Phosg] [FloatText] in
/-- Every line does something to the list, but for `unfreeze *`. -/
theorem exists_onList (p : Process) (st : MemwatchShell) (l : RegionList)
    (hall : ¬ UnfreezesAll line) : ∃ l', OnList p st l line l' := by
  induction hlen : line.length using Nat.strong_induction_on generalizing line with
  | _ n ih =>
    cases h : handled line with
    | none => exact ⟨l, .unknown h⟩
    | some command =>
      obtain ⟨handler, argsStr⟩ := command
      cases htrial : trialOf handler with
      | some t => exact onList_of_trial h htrial hall
      | none =>
        by_cases hwatch : handler = .watch
        · subst hwatch
          have hlt := length_of_handled h
          obtain ⟨l', hargs⟩ := ih argsStr.length (hlen ▸ hlt)
            (fun hunfreezes => hall (.watch h hunfreezes)) rfl
          exact ⟨l', .watch h hargs⟩
        by_cases hfreeze : handler = .freeze
        · subst hfreeze
          cases hresult : commandFreeze p.toTarget argsStr st with
          | ok _ st' =>
            obtain ⟨_, _, _, _, _, _, _, _, rfl⟩ := commandFreeze_eq_ok.mp hresult
            exact ⟨_, .freeze h hresult⟩
          | error fault st' =>
            obtain ⟨⟨e, rfl⟩, rfl⟩ := commandFreeze_fails fault st' hresult
            exact ⟨l, .fails h hresult⟩
        · exact ⟨l, .other h ⟨hfreeze, hwatch⟩ htrial⟩

end Lines

/-! ## Sessions -/

section Sessions

variable [Phosg] [PhosgText] [FloatText]

/-- The states of a session, each with the list of the frozen regions. -/
inductive FrozenList : MemwatchShell → RegionList → Prop where
  | new (processName : String) (maxResults maxSearchIterations : UInt64)
      (pauseTarget useColor : Bool) :
      FrozenList (new processName maxResults maxSearchIterations pauseTarget true useColor)
        RegionList.new
  | line {st st' : MemwatchShell} {l l' : RegionList} {p : Process} {line : String}
      (hst : FrozenList st l) (hon : OnList p st l line l')
      (hrun : executeLine p line st = .ok st') : FrozenList st' l'
  | pass {st : MemwatchShell} {l : RegionList} {σ : Type} (hst : FrozenList st l) (A : Adapter σ)
      (mem : σ) : FrozenList { st with freezer := (st.freezer.writePass A mem).1 }
        (l.reported ((st.freezer.writePass A mem).1.visited.map fun r => r.error))

variable {p : Process} {line : String} {st : MemwatchShell} {l l' : RegionList}

omit [Phosg] [FloatText] in
theorem OnList.numCreated_le (hon : OnList p st l line l') : l.numCreated ≤ l'.numCreated := by
  induction hon with
  | freeze => exact Nat.le_succ _
  | @key _ _ handler t _ htrial =>
    unfold Trial.tried
    split
    · cases handler with
      | unfreeze | enable | disable => cases htrial; exact le_refl _
      | _ => cases htrial
    · exact le_refl _
  | watch _ _ ih => exact ih
  | _ => exact le_refl _

/-- The freezer of a session represents the list of the session, as long as its numbers have
64 bits, and every line but `unfreeze *` is a step of both. -/
theorem session_refines_list [LawfulPhosgText] (h : FrozenList st l)
    (hlt : l.numCreated < 2 ^ 64) : Represents st.freezer l ∧
      ∀ p line st', ¬ UnfreezesAll line → executeLine p line st = .ok st' →
        ∃ l', OnList p st l line l' ∧ FrozenList st' l' := by
  refine ⟨?_, fun p line st' hall hrun => ?_⟩
  · induction h with
    | new => exact Represents.new
    | line _ hon hrun ih =>
      have hbefore := lt_of_le_of_lt hon.numCreated_le hlt
      exact hon.represents (ih hbefore) hbefore hrun
    | pass _ A mem ih => exact (ih hlt).pass A mem
  · obtain ⟨l', hon⟩ := exists_onList p st l hall
    exact ⟨l', hon, .line h hon hrun⟩

end Sessions

section

open Plain

def plainRegion : RegionFreezer.Region := ⟨"", 0, 0x1000, [0xFF], "", true, none⟩

theorem plainRegion_refines :
    let st := new "target" 10 5 false true false
    let frozen := { st with freezer := st.freezer.addRegion plainRegion }
    Represents frozen.freezer (RegionList.new.add plainRegion) ∧
      ∀ p line st', ¬ UnfreezesAll line → executeLine p line frozen = .ok st' →
        ∃ l', OnList p frozen (RegionList.new.add plainRegion) line l' ∧ FrozenList st' l' := by
  intro st frozen
  have : LawfulPhosgText := plainPhosg_lawful
  have hhandled : handled "freeze 1000 FF" = some (.freeze, "1000 FF") := rfl
  have hfreeze : commandFreeze idleTarget "1000 FF" st = .ok () frozen := rfl
  have hrun : executeLine idleProcess "freeze 1000 FF" st = .ok frozen := by
    rw [executeLine_of_some hhandled]
    exact congrArg report hfreeze
  exact session_refines_list (.line (p := idleProcess) (.new "target" 10 5 false false)
    (.freeze hhandled hfreeze) hrun) (by decide)

end

end MemwatchShell
end Memwatch
