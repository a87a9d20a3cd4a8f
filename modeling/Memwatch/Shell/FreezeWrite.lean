import Memwatch.Shell.ReadWrite

/-!
# Freezing what is written

`write` parses the rest of its line as it is, `freeze` the words of it put together,
and `freeze` takes an address 0 for no address. So they agree on a line if and only if
the address is not 0 and the spaces make no difference to the data
(`freeze_write_iff`).
-/

namespace Memwatch

namespace MemwatchShell

open Lib Text RegionFreezer

section Agree

variable {st : MemwatchShell} {target : Target} {tok d : String} {a : Nat} {data : Bytes}

theorem not_mem_hexToken {c : Char} (h : HexToken tok a) (hc : c < '0') : c ∉ tok.toList := by
  obtain ⟨pre, cs, ds, htok, hpre, -, hds, -⟩ := h
  rw [htok, List.mem_append]
  rintro (hmem | hmem)
  · rcases hpre with rfl | rfl | rfl
    · cases hmem
    all_goals
      simp only [List.mem_cons, List.not_mem_nil, or_false] at hmem
      rcases hmem with rfl | rfl
      · exact absurd hc (by decide)
      · exact absurd hc (by decide)
  · obtain ⟨d, hd⟩ := exists_digit_of_mem hds hmem
    exact ne_of_digit? hd hc rfl

theorem not_blank_hexToken (h : HexToken tok a) : ∀ c ∈ tok.toList, c ∉ blanks := by
  intro c hc hblank
  refine not_mem_hexToken h ?_ hc
  simp only [blanks, List.mem_cons, List.not_mem_nil, or_false] at hblank
  rcases hblank with rfl | rfl | rfl | rfl <;> decide

variable [PhosgText] [LawfulPhosgText]

/-- `freeze` and `write` agree on an address and data if and only if the address is not
0 and the data is the same without its spaces. -/
theorem freeze_write_iff (hi : st.interactive = true) (htok : HexToken tok a) (hlt : a < 2 ^ 64)
    (hd : NoOptions d) (hwrite : commandWrite (line tok d) st = .ok (a, data) st) :
    (∃ name, commandFreeze target (line tok d) st = .ok ()
        (st.withRegion (Region.new name st.freezer.nextIndex a data true))) ↔
      a ≠ 0 ∧ ∃ mask, PhosgText.parseDataString (freezeText d) = .ok (data, mask) := by
  have hspace : ' ' ∉ tok.toList := not_mem_hexToken htok (by decide)
  have hplus : charAt tok 0 ≠ '+' := by
    obtain ⟨d, hd⟩ := charAt_hexToken htok (List.append_nil _).symm
    exact ne_of_digit? hd (by decide)
  have haddr : st.getAddrFromCommand tok = .ok a :=
    getAddrFromCommand_hexToken htok hlt (List.append_nil _).symm ends_nil
  constructor
  · rintro ⟨name, hfreeze⟩
    have ha : a ≠ 0 := addr_ne_zero_of_commandFreeze hspace hplus hd hfreeze
    obtain ⟨data', mask, hparse, -, hst⟩ :=
      (commandFreeze_line hi hspace hplus haddr hd ha).mp hfreeze
    have hdata : data = data' := congrArg RegionFreezer.Region.data (withRegion_inj hst)
    exact ⟨ha, mask, hdata ▸ hparse⟩
  · rintro ⟨ha, mask, hparse⟩
    have hwritten := (commandWrite_line (not_blank_hexToken htok)
      (getAddrFromCommand_hexToken htok hlt (toList_line tok d) (ends_cons (.inl rfl)))).mp hwrite
    exact ⟨_, (commandFreeze_line hi hspace hplus haddr hd ha).mpr
      ⟨data, mask, hparse, hwritten.2.1, rfl⟩⟩

end Agree

/-! ## Texts in quotes -/

/-- Data in hexadecimal digits, with texts between double quotes as they are. -/
def parseLiterals : Bool → List Char → Bytes
  | quoted, '\x22' :: cs => parseLiterals (!quoted) cs
  | true, c :: cs => UInt8.ofNat c.toNat :: parseLiterals true cs
  | false, c :: c' :: cs =>
    match digit? 16 c, digit? 16 c' with
    | some d, some d' => UInt8.ofNat (16 * d + d') :: parseLiterals false cs
    | _, _ => parseLiterals false (c' :: cs)
  | _, _ => []

/-- The plain functions, for data with quotes too. -/
abbrev literalPhosg : PhosgText :=
  { plainPhosg with
    parseDataString s :=
      if '\x22' ∈ s.toList then
        .ok (parseLiterals false s.toList,
          List.replicate (parseLiterals false s.toList).length 0xFF)
      else plainPhosg.parseDataString s }

theorem literalPhosg_lawful : @LawfulPhosgText literalPhosg := by
  let _ := literalPhosg
  have hplain := plainPhosg_lawful
  refine ⟨fun _ => rfl, fun _ _ => rfl, fun _ _ => rfl, rfl, fun {s} data mask h => ?_,
    fun {data mask} h => ?_, fun _ => rfl, fun h => hplain.mem_format h⟩
  · change (if '\x22' ∈ s.toList then _ else _) = _ at h
    split at h
    · cases h
      exact isMask_replicate _
    · exact hplain.isMask_of_parse h
  · have hquote : '\x22' ∉ (plainPhosg.formatDataString data (some mask)).toList := by
      intro hmem
      rcases hplain.mem_format hmem with heq | hdigit
      · cases heq
      · cases hdigit
    change (if '\x22' ∈ (plainPhosg.formatDataString data (some mask)).toList then _ else _) = _
    rw [if_neg hquote]
    exact hplain.parse_format h

section

def bareShell : MemwatchShell := new "target" 10 5 false true false

theorem hexToken_1000 : HexToken "1000" 0x1000 :=
  ⟨[], ['1', '0', '0', '0'], [1, 0, 0, 0], rfl, .inl rfl, nofun,
    .cons rfl (.cons rfl (.cons rfl (.cons rfl .nil))), rfl⟩

open Plain in
/-- Bytes without spaces at an address that is not 0. -/
theorem freeze_write_bytes : ∃ name, commandFreeze idleTarget (line "1000" "FF") bareShell =
    .ok () (bareShell.withRegion
      (Region.new name bareShell.freezer.nextIndex 0x1000 [0xFF] true)) := by
  have : LawfulPhosgText := plainPhosg_lawful
  refine (freeze_write_iff rfl hexToken_1000 (by decide) ?_ rfl).mpr ⟨by decide, [0xFF], rfl⟩
  unfold NoOptions
  decide +kernel

/-- `write` keeps the space of a text and writes to address 0; `freeze` does not. -/
theorem freeze_not_write :
    (@commandWrite literalPhosg (line "1000" "\x22a b\x22") bareShell =
        .ok (0x1000, [0x61, 0x20, 0x62]) bareShell ∧
      ¬ ∃ name, @commandFreeze literalPhosg idleTarget (line "1000" "\x22a b\x22") bareShell =
        .ok () (bareShell.withRegion
          (Region.new name bareShell.freezer.nextIndex 0x1000 [0x61, 0x20, 0x62] true))) ∧
    @commandWrite literalPhosg (line "0" "FF") bareShell = .ok (0, [0xFF]) bareShell ∧
      ¬ ∃ name, @commandFreeze literalPhosg idleTarget (line "0" "FF") bareShell =
        .ok () (bareShell.withRegion
          (Region.new name bareShell.freezer.nextIndex 0 [0xFF] true)) := by
  let _ := literalPhosg
  have : LawfulPhosgText := literalPhosg_lawful
  have htext : NoOptions "\x22a b\x22" := by unfold NoOptions; decide +kernel
  have hbyte : NoOptions "FF" := by unfold NoOptions; decide +kernel
  refine ⟨⟨rfl, ?_⟩, rfl, ?_⟩
  · rintro ⟨name, hfreeze⟩
    have haddr : bareShell.getAddrFromCommand "1000" = .ok 0x1000 := rfl
    obtain ⟨data, mask, hparse, -, hst⟩ :=
      (commandFreeze_line rfl (by decide) (by decide) haddr htext (by decide)).mp hfreeze
    have hdata : [0x61, 0x20, 0x62] = data :=
      congrArg RegionFreezer.Region.data (withRegion_inj hst)
    have hfrozen : PhosgText.parseDataString (freezeText "\x22a b\x22") =
      .ok ([0x61, 0x62], [0xFF, 0xFF]) := by decide +kernel
    obtain rfl := congrArg Prod.fst (Except.ok.inj (hfrozen.symm.trans hparse))
    exact absurd hdata (by decide)
  · rintro ⟨name, hfreeze⟩
    exact addr_ne_zero_of_commandFreeze (by decide) (by decide) hbyte hfreeze rfl

end

end MemwatchShell
end Memwatch
