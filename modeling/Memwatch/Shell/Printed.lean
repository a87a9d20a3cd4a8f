import Memwatch.Shell.Set
import Memwatch.Shell.Typed

/-!
# Printed results

`results` prints the index and the address of every result, and the value of its cell in two
notations. The shell reads each of them back: the index and the address stand for the
result, and both values for the bytes of the cell.
-/

namespace Memwatch

open Lib Text

/-- What `%f` and `%lf` print. -/
class PrintsFloat where
  printFloat : BitVec 32 → String
  printDouble : BitVec 64 → String

namespace Text

/-- `%d` and `%u`. -/
def printInt (v : Int) : String :=
  if v < 0 then "-" ++ printCount v.natAbs else printCount v.natAbs

/-- `0x%0*X`, with a number of digits. -/
def printHexOf (width n : Nat) : String :=
  "0x" ++ String.ofList (((Nat.toDigits 16 n).map Char.toUpper).leftpad width '0')

theorem inDecimal_printInt (v : Int) : InDecimal (printInt v) v := by
  refine ⟨v.natAbs, ?_⟩
  unfold printInt printCount
  split
  · right
    refine ⟨?_, by omega⟩
    simp
  · left
    exact ⟨String.toList_ofList, by omega⟩

theorem stoull_printHexOf (width : Nat) {n : Nat} (hlt : n < 2 ^ 64) :
    ∃ endPos, stoull (printHexOf width n) 0 = .ok (n, endPos) := by
  obtain ⟨ds, hds, hn⟩ := digitsOf_toDigits (f := Char.toUpper) (show 1 < 16 by decide)
    (by decide) n
  have hpadded := digitsOf_leftpad (by decide) hds width
  generalize hcs : ((Nat.toDigits 16 n).map Char.toUpper).leftpad width '0' = cs at hpadded
  have hs : (printHexOf width n).toList = '0' :: 'x' :: cs := by
    rw [printHexOf, hcs]
    simp
  have hne : cs ≠ [] := by
    rw [← hcs, List.leftpad]
    simp [Nat.toDigits_ne_nil]
  have hradix : radix 0 (printHexOf width n).toList = (16, cs) := by
    obtain ⟨c, cs, rfl⟩ := List.exists_cons_of_ne_nil hne
    obtain ⟨d, hd⟩ := exists_digit_of_mem hpadded List.mem_cons_self
    rw [hs]
    refine if_pos ⟨.inl rfl, ?_⟩
    simp [startsHex, hd]
  have hdigits : digits 16 cs ≠ [] := by
    rw [digits_eq hpadded]
    intro hnil
    rw [hnil] at hpadded
    exact hne (List.forall₂_nil_right_iff.mp hpadded)
  have hnumber := number?_of_radix hs (show digit? 16 '0' = some 0 from rfl) hradix hdigits
  rw [digits_eq hpadded, ofDigits_zeros, hn] at hnumber
  exact ⟨_, stoull_of_number? hnumber hlt⟩

end Text

/-! ## Values -/

theorem IntType.abs_lt_of_mem_range {t : IntType} {v : Int} (hw : t.width ≤ 64)
    (hv : v ∈ t.range) : |v| < 2 ^ 64 := by
  unfold range at hv
  rw [abs_lt]
  split at hv
  · have hpow : (2 : Int) ^ (t.width - 1) ≤ 2 ^ 63 := pow_le_pow_right₀ (by decide) (by omega)
    obtain ⟨hlo, hhi⟩ := hv
    omega
  · have hpow : (2 : Int) ^ t.width ≤ 2 ^ 64 := pow_le_pow_right₀ (by decide) hw
    obtain ⟨hlo, hhi⟩ := hv
    omega

/-- An integer in both notations. -/
def IntType.text (t : IntType) (x : BitVec t.width) : String :=
  printInt (t.value x) ++ " (" ++ printHexOf (t.width / 4) x.toNat ++ ")"

namespace MemwatchShell

section Printing

variable [Phosg] [PrintsFloat]

/-- The switch of `print_search_results`. Reverse-endian types swap the bytes first. -/
def valueText : SearchType → Bytes → String
  | .uint8, data => IntType.text ⟨8, false⟩ (IntType.load ⟨8, false⟩ data)
  | .uint16Re, data => IntType.text ⟨16, false⟩ (Phosg.bswap 16 (IntType.load ⟨16, false⟩ data))
  | .uint16, data => IntType.text ⟨16, false⟩ (IntType.load ⟨16, false⟩ data)
  | .uint32Re, data => IntType.text ⟨32, false⟩ (Phosg.bswap 32 (IntType.load ⟨32, false⟩ data))
  | .uint32, data => IntType.text ⟨32, false⟩ (IntType.load ⟨32, false⟩ data)
  | .uint64Re, data => IntType.text ⟨64, false⟩ (Phosg.bswap 64 (IntType.load ⟨64, false⟩ data))
  | .uint64, data => IntType.text ⟨64, false⟩ (IntType.load ⟨64, false⟩ data)
  | .int8, data => IntType.text ⟨8, true⟩ (IntType.load ⟨8, true⟩ data)
  | .int16Re, data => IntType.text ⟨16, true⟩ (Phosg.bswap 16 (IntType.load ⟨16, true⟩ data))
  | .int16, data => IntType.text ⟨16, true⟩ (IntType.load ⟨16, true⟩ data)
  | .int32Re, data => IntType.text ⟨32, true⟩ (Phosg.bswap 32 (IntType.load ⟨32, true⟩ data))
  | .int32, data => IntType.text ⟨32, true⟩ (IntType.load ⟨32, true⟩ data)
  | .int64Re, data => IntType.text ⟨64, true⟩ (Phosg.bswap 64 (IntType.load ⟨64, true⟩ data))
  | .int64, data => IntType.text ⟨64, true⟩ (IntType.load ⟨64, true⟩ data)
  | .floatRe, data =>
    let x := Phosg.bswap 32 (IntType.load ⟨32, false⟩ data)
    PrintsFloat.printFloat x ++ " (" ++ printHexOf 8 x.toNat ++ ")"
  | .float, data =>
    let x := IntType.load ⟨32, false⟩ data
    PrintsFloat.printFloat x ++ " (" ++ printHexOf 8 x.toNat ++ ")"
  | .doubleRe, data =>
    let x := Phosg.bswap 64 (IntType.load ⟨64, false⟩ data)
    PrintsFloat.printDouble x ++ " (" ++ printHexOf 16 x.toNat ++ ")"
  | .double, data =>
    let x := IntType.load ⟨64, false⟩ data
    PrintsFloat.printDouble x ++ " (" ++ printHexOf 16 x.toNat ++ ")"
  -- not reached: these searches are printed without values
  | .data, _ => ""

/-- What is printed after the address of a result. -/
def contentsText (target : Target) (type : SearchType) (result : Nat) : String :=
  match target.read result type.valueSizeForSearchType with
  | .ok data => valueText type data
  | .error e => "<< memory not readable, " ++ e.what ++ " >>"

/-- `(x) address`. -/
def resultHead (x result : Nat) : String := "(" ++ printCount x ++ ") " ++ printHex result

/-- The lines that `print_search_results` prints. -/
def printSearchResults (target : Target) (search : MemorySearch) : List String :=
  if search.type = .data then search.results.mapIdx fun x result => resultHead x result ++ "\n"
  else search.results.mapIdx fun x result =>
    resultHead x result ++ " " ++ contentsText target search.type result ++ "\n"

end Printing

/-! ## Reading back -/

section Values

variable {T : SearchType} {data : Bytes} {n : Nat}

/-- The pattern of a value as it is printed. -/
def shownPattern [Phosg] (T : SearchType) (data : Bytes) : BitVec T.intType.width :=
  if T.isReverseEndianSearchType then Phosg.bswap _ (T.intType.load data) else T.intType.load data

theorem valueText_eq [Phosg] [PrintsFloat] (hT : T.isIntegerSearchType = true) (data : Bytes) :
    valueText T data = T.intType.text (shownPattern T data) := by
  cases T <;> first | rfl | exact absurd hT (by decide)

theorem toNat_shownPattern [Phosg] [LawfulPhosg] (hlen : data.length = T.valueSizeForSearchType) :
    (shownPattern T data).toNat = leNat (T.ordered data) := by
  have hload : ∀ cell : Bytes, cell.length = T.valueSizeForSearchType →
      (T.intType.load cell).toNat = leNat cell := by
    intro cell hcell
    have hlt := leNat_lt cell
    rw [IntType.load, SearchType.intType, Nat.mul_div_cancel_left _ (by omega),
      List.take_of_length_le hcell.le, BitVec.toNat_ofNat]
    exact Nat.mod_eq_of_lt (hcell ▸ hlt)
  unfold shownPattern SearchType.ordered
  split
  · rw [← load_reverse (by rw [hlen, SearchType.intType])]
    exact hload _ (by rw [List.length_reverse, hlen])
  · exact hload _ hlen

theorem ordered_toLE (hlen : data.length = T.valueSizeForSearchType)
    (h : n ≡ leNat (T.ordered data) [MOD 2 ^ T.intType.width]) :
    T.ordered (toLE T.valueSizeForSearchType n) = data := by
  have hbytes : toLE T.valueSizeForSearchType n = T.ordered data := by
    have hordered : (T.ordered data).length = T.valueSizeForSearchType := by
      rw [SearchType.length_ordered, hlen]
    have hlt : leNat (T.ordered data) < 2 ^ (8 * T.valueSizeForSearchType) :=
      hordered ▸ leNat_lt (T.ordered data)
    have hsame : leNat (toLE T.valueSizeForSearchType n) = leNat (T.ordered data) := by
      rw [leNat_toLE]
      exact Eq.trans h (Nat.mod_eq_of_lt hlt)
    have hbytes := toLE_leNat (toLE T.valueSizeForSearchType n)
    rwa [length_toLE, hsame, ← hordered, toLE_leNat, hordered, eq_comm] at hbytes
  rw [hbytes]
  unfold SearchType.ordered
  split
  · exact List.reverse_reverse data
  · rfl

/-- Both notations of a value are read as its bytes. -/
theorem readTypedValue_shownPattern [Phosg] [LawfulPhosg] [PhosgText] [FloatText]
    (hT : T.isIntegerSearchType = true) (hlen : data.length = T.valueSizeForSearchType)
    (width : Nat) :
    readTypedValue T (printInt (T.intType.value (shownPattern T data))) = .ok data ∧
      readTypedValue T (printHexOf width (shownPattern T data).toNat) = .ok data := by
  have hpattern : (shownPattern T data).toNat = leNat (T.ordered data) := toNat_shownPattern hlen
  obtain ⟨hpos, hle⟩ := SearchType.intType_width hT
  refine ⟨?_, ?_⟩
  · have hlt := IntType.abs_lt_of_mem_range hle (IntType.value_mem_range _ (shownPattern T data))
    obtain ⟨n, endPos, hstoull, hmod⟩ := stoull_of_inDecimal (inDecimal_printInt _) hlt
    rw [readTypedValue_eq hT hstoull]
    have hvalue := (hmod.of_dvd (pow_dvd_pow 2 hle)).trans (IntType.value_modEq _ _)
    rw [hpattern] at hvalue
    exact congrArg _ (ordered_toLE hlen (by exact_mod_cast hvalue))
  · obtain ⟨endPos, hstoull⟩ := stoull_printHexOf width (n := (shownPattern T data).toNat)
      ((shownPattern T data).isLt.trans_le (Nat.pow_le_pow_right (by decide) hle))
    rw [readTypedValue_eq hT hstoull]
    exact congrArg _ (ordered_toLE hlen (hpattern ▸ rfl))

end Values

end MemwatchShell

/-! ## Lines -/

/-- Printed as zero. -/
scoped instance Plain.instPrintsFloat : PrintsFloat where
  printFloat _ := "0.000000"
  printDouble _ := "0.000000"

namespace World

open MemwatchShell MemorySearch

/-- The arguments of `set` for a result that is printed and a value. -/
def setWords (x : Nat) (value : String) : String := line ("s" ++ printCount x) value

theorem stoll_printCount {x : Nat} (hlt : x < 2 ^ 63) : stoll (printCount x) 0 = .ok x := by
  have hs : (printCount x).toList = Nat.toDigits 10 x ++ [] := by
    rw [printCount, String.toList_ofList, List.append_nil]
  rw [stoll, toSigned, number?_count hs ends_nil]
  dsimp only
  rw [if_neg Bool.false_ne_true, if_pos (by omega)]

theorem find_line {word rest : String} (hword : ' ' ∉ word.toList) :
    find (line word rest) ' ' = some word.toList.length := by
  have hnone : word.toList.findIdx? (· = ' ') = none := by
    rw [List.findIdx?_eq_none_iff]
    rintro c hc
    refine decide_eq_false ?_
    rintro rfl
    exact hword hc
  rw [find, toList_line, List.findIdx?_append, hnone, Option.none_or, List.findIdx?_cons,
    if_pos (by decide)]
  simp

theorem setArgs_setWords {x : Nat} (value : String) (hlt : x < 2 ^ 63) :
    setArgs (setWords x value) = .ok (x, value) := by
  have hword : ("s" ++ printCount x).toList = 's' :: Nat.toDigits 10 x := by simp [printCount]
  have hchars : (setWords x value).toList = 's' :: Nat.toDigits 10 x ++ ' ' :: value.toList := by
    rw [setWords, toList_line, hword]
  have hspace : ' ' ∉ ("s" ++ printCount x).toList := by
    have hbefore : ' ' ∉ 's' :: (Nat.toDigits 10 x ++ ['@']) :=
      not_mem_before_name (by decide) (by decide) rfl
    rw [hword]
    exact fun hmem => hbefore (List.mem_append_left ['@'] hmem)
  have hindex : substr (substrTo (setWords x value) ('s' :: Nat.toDigits 10 x).length) 1 =
      printCount x := by
    rw [substr, substrTo, String.toList_ofList, hchars, List.take_left]
    rfl
  have hvalue : substr (setWords x value) (('s' :: Nat.toDigits 10 x).length + 1) = value := by
    rw [substr, hchars]
    simp
  have hfirst : charAt (setWords x value) 0 = 's' := by
    rw [charAt, hchars]
    rfl
  unfold setArgs
  rw [if_pos hfirst, setWords, find_line hspace, hword]
  dsimp only
  rw [← setWords, hindex, hvalue, stoll_printCount hlt]
  rfl

/-! ## Results -/

section Results

variable [Phosg] [PhosgText] [FloatText] [PrintsFloat] {st st' : MemwatchShell} {target : Target}
  {search : MemorySearch} {x addr : Nat} {P : List Region → Prop}

/-- The line of a result tells its cell: the address stands for the result, and both values
for the bytes, also where they are given to `set` with the index. Or the cell cannot be read. -/
inductive Tells (st : MemwatchShell) (target : Target) (search : MemorySearch) (x addr : Nat) :
    String → Prop where
  | value {data : Bytes} {decimal hex : String}
      (hread : target.read addr search.type.valueSizeForSearchType = .ok data)
      (haddr : st.getAddrFromCommand (printHex addr) = .ok addr)
      (hvalues : ∀ value ∈ [decimal, hex], readTypedValue search.type value = .ok data ∧
        ∀ {σ : Type} (k : Kernel σ) (adapter : ProcessMemoryAdapter),
          commandSet k adapter st (setWords x value) =
            guarded k adapter st.pauseTarget (writeResults k data [addr])) :
      Tells st target search x addr (resultHead x addr ++ " " ++ (decimal ++ " (" ++ hex ++ ")") ++
        "\n")
  | unreadable {e : Exception}
      (hread : target.read addr search.type.valueSizeForSearchType = .error e) :
      Tells st target search x addr (resultHead x addr ++ " " ++ ("<< memory not readable, " ++
        e.what ++ " >>") ++ "\n")

omit [Phosg] [PhosgText] [FloatText] [PrintsFloat] in
theorem commandResults_eq_ok (h : commandResults "" st = .ok () st') :
    st.checkInteractive = .ok () ∧ ∃ search, st.getLatestSearch none = .ok search ∧
      search.memory.isNone = false := by
  obtain ⟨_, hinteractive, h⟩ := raise_bind_eq_ok.mp h
  obtain ⟨search, hlatest, h⟩ := raise_bind_eq_ok.mp h
  split at h
  · cases h
  · next hmemory => exact ⟨hinteractive, search, hlatest, Bool.eq_false_iff.mpr hmemory⟩

omit [PrintsFloat] in
theorem commandSet_setWords {σ : Type} {k : Kernel σ} {adapter : ProcessMemoryAdapter}
    {value : String} {data : Bytes} (hresults : commandResults "" st = .ok () st')
    (hlatest : st.getLatestSearch none = .ok search) (hlt : x < 2 ^ 63)
    (hx : search.results[x]? = some addr) (hvalue : readTypedValue search.type value = .ok data)
    (hne : data ≠ []) : commandSet k adapter st (setWords x value) =
      guarded k adapter st.pauseTarget (writeResults k data [addr]) := by
  obtain ⟨hinteractive, search', hlatest', hmemory⟩ := commandResults_eq_ok hresults
  obtain rfl := Except.ok.inj (hlatest.symm.trans hlatest')
  have hwrites : setWrites st (setWords x value) = .ok (x, search.results, data) := by
    unfold setWrites
    rw [hinteractive, setArgs_setWords value hlt, hlatest, except_ok_bind, except_ok_bind]
    dsimp only
    rw [except_ok_bind, if_neg (by rw [hmemory]; decide), hvalue, except_ok_bind, if_neg hne]
    rfl
  have hscope : setScope k x search.results data = writeResults k data [addr] := by
    rw [setScope, if_neg (by omega), Int.toNat_natCast, hx]
  unfold commandSet
  rw [hwrites, ← hscope]
  rfl

/-- In every session, what `results` prints about an integer is what the shell reads: each line
tells its cell. -/
theorem results_read_back [LawfulPhosg] (h : Session (fun p => TellsPages P p.toTarget) st)
    (hresults : commandResults "" st = .ok () st')
    (hlatest : st.getLatestSearch none = .ok search) (hT : search.type.isIntegerSearchType = true)
    (hread : ∀ addr size data, target.read addr size = .ok data → data.length = size)
    (hx : search.results[x]? = some addr) (hlt : x < 2 ^ 63) :
    ∃ line, (printSearchResults target search)[x]? = some line ∧
      Tells st target search x addr line := by
  have hdata : search.type ≠ .data := by
    intro heq
    rw [heq] at hT
    cases hT
  have haddr : addr < 2 ^ 64 := by
    obtain ⟨searches, hfind, hlast⟩ := Option.bind_eq_some_iff.mp (getLatestSearch_eq_ok.mp hlatest)
    have hhistory : History P searches := histories_session h _ _ hfind
    have hinv := hhistory.invariant search (List.mem_of_getLast? hlast) hdata
    exact hinv.lt (List.mem_of_getElem? hx)
  have hline : (printSearchResults target search)[x]? = some (resultHead x addr ++ " " ++
      contentsText target search.type addr ++ "\n") := by
    rw [printSearchResults, if_neg hdata, List.getElem?_mapIdx, hx]
    rfl
  refine ⟨_, hline, ?_⟩
  unfold contentsText
  cases hcell : target.read addr search.type.valueSizeForSearchType with
  | error e => exact .unreadable hcell
  | ok data =>
    have hlen := hread _ _ _ hcell
    have hne : data ≠ [] := by
      rintro rfl
      have hpos := (SearchType.intType_width hT).1
      rw [SearchType.intType, ← hlen] at hpos
      cases hpos
    dsimp only
    rw [valueText_eq hT]
    refine .value hcell (getAddrFromCommand_printHex st haddr) fun value hvalue => ?_
    have hback : readTypedValue search.type value = .ok data := by
      obtain ⟨hdecimal, hhex⟩ := readTypedValue_shownPattern hT hlen (search.type.intType.width / 4)
      rcases List.mem_pair.mp hvalue with rfl | rfl
      · exact hdecimal
      · exact hhex
    exact ⟨hback, fun k adapter => commandSet_setWords hresults hlatest hlt hx hback hne⟩

end Results

section

open Plain

def signedIteration : MemorySearch :=
  { MemorySearch.new .int16Re false with
    memory := some [sevenPage], resultsValid := true, results := [0x7000], prevSize := 2
    annotation := "= 1799 at now" }

def signedShell : MemwatchShell :=
  ((MemwatchShell.new "target" 1 5 false true false).openNew .int16Re false "a").setSearches "a"
    [MemorySearch.new .int16Re false, signedIteration]

def negativeTarget : Target :=
  { idleTarget with read := fun _ size => .ok (List.replicate size 0xFE) }

set_option maxRecDepth 100000 in
theorem results_read_back_negative : ∃ line,
    (printSearchResults negativeTarget signedIteration)[0]? = some line ∧
      Tells signedShell negativeTarget signedIteration 0 0x7000 line := by
  have hlawful : LawfulPhosg := bytewisePhosg_lawful
  have hpage : PageSnapshot [sevenPage] := filledPage_snapshot 7 (by decide) (by decide)
  have hnew : Session (fun p => TellsPages (fun _ => True) p.toTarget)
      (MemwatchShell.new "target" 1 5 false true false) := .new "target" 1 5 false false
  have hopen : Session (fun p => TellsPages (fun _ => True) p.toTarget)
      ((MemwatchShell.new "target" 1 5 false true false).openNew .int16Re false "a") :=
    .line hnew (show '\x00' ∉ "open rs16 a".toList by decide) (tellsPages_showing hpage) rfl
  have hsearch : Session (fun p => TellsPages (fun _ => True) p.toTarget) signedShell :=
    .line hopen (show '\x00' ∉ "search = 1799".toList by decide) (tellsPages_showing hpage) rfl
  exact results_read_back hsearch (show commandResults "" signedShell = .ok () signedShell from rfl)
    rfl rfl (fun addr size data h => Except.ok.inj h ▸ List.length_replicate) rfl (by decide)

/-- The line is that of the number. -/
example : printSearchResults negativeTarget signedIteration =
    ["(0) 0000000000007000 -258 (0xFEFE)\n"] := by decide

end

end World

end Memwatch
