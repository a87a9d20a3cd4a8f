import Memwatch.Search.Update

/-!
# Exceptions and text

What the shell uses of the C++ library: exceptions that are told apart by their
class, the parts of strings, and the conversions of strings to numbers.
-/

namespace Memwatch

inductive ExceptionType where
  | invalidArgument | outOfRange | runtimeError
  deriving DecidableEq

structure Exception where
  type : ExceptionType
  what : String
  deriving DecidableEq

def invalidArgument (what : String) : Exception := ⟨.invalidArgument, what⟩

def outOfRange (what : String) : Exception := ⟨.outOfRange, what⟩

def runtimeError (what : String) : Exception := ⟨.runtimeError, what⟩

/-- `try x catch (const type&) handler`. -/
def catching {α : Type} (type : ExceptionType) (x handler : Except Exception α) :
    Except Exception α :=
  match x with
  | .error e => if e.type = type then handler else x
  | .ok _ => x

/-! ## Strings -/

namespace Text

/-- The character at a position; there is a null character at the end. -/
def charAt (s : String) (pos : Nat) : Char := s.toList.getD pos '\x00'

def substr (s : String) (pos : Nat) : String := String.ofList (s.toList.drop pos)

def substrTo (s : String) (n : Nat) : String := String.ofList (s.toList.take n)

def find (s : String) (c : Char) : Option Nat := s.toList.findIdx? (· = c)

/-! ## Numbers -/

def isSpace (c : Char) : Bool := c = ' ' || ('\t' ≤ c && c ≤ '\r')

/-- The digit a character is in bases up to 36. -/
def digit? (base : Nat) (c : Char) : Option Nat :=
  let value :=
    if '0' ≤ c ∧ c ≤ '9' then c.toNat - '0'.toNat
    else if 'a' ≤ c ∧ c ≤ 'z' then c.toNat - 'a'.toNat + 10
    else if 'A' ≤ c ∧ c ≤ 'Z' then c.toNat - 'A'.toNat + 10
    else base
  if value < base then some value else none

def digits (base : Nat) : List Char → List Nat
  | [] => []
  | c :: cs =>
    match digit? base c with
    | some d => d :: digits base cs
    | none => []

def ofDigits (base : Nat) (ds : List Nat) : Nat := ds.foldl (fun n d => n * base + d) 0

/-- `0x` and a hexadecimal digit. -/
def startsHex : List Char → Bool
  | '0' :: x :: c :: _ => (x = 'x' || x = 'X') && (digit? 16 c).isSome
  | _ => false

/-- The base of a number and where its digits are: base 0 stands for the base the
number is written in. -/
def radix (base : Nat) (cs : List Char) : Nat × List Char :=
  if (base = 0 ∨ base = 16) ∧ startsHex cs then (16, cs.drop 2)
  else if base = 0 then (if cs.head? = some '0' then 8 else 10, cs)
  else (base, cs)

/-- A number in a text, and where it ends. -/
structure Number where
  negative : Bool
  magnitude : Nat
  endPos : Nat

/-- `strtoull` and `strtoll` without their ranges. -/
def number? (s : String) (base : Nat) : Option Number :=
  let cs := s.toList.dropWhile isSpace
  let (negative, cs) :=
    match cs with
    | '-' :: cs => (true, cs)
    | '+' :: cs => (false, cs)
    | cs => (false, cs)
  let (base, cs) := radix base cs
  let ds := digits base cs
  if ds = [] then none
  else some ⟨negative, ofDigits base ds, s.toList.length - cs.length + ds.length⟩

/-- `stoull`, with the position where the number ends. -/
def stoull (s : String) (base : Nat) : Except Exception (Nat × Nat) :=
  match number? s base with
  | none => .error (invalidArgument "stoull: no conversion")
  | some n =>
    if n.magnitude < 2 ^ 64 then
      .ok (if n.negative then sub64 0 n.magnitude else n.magnitude, n.endPos)
    else .error (outOfRange "stoull: out of range")

/-- A signed conversion, into a type of the given width. -/
def toSigned (what : String) (width : Nat) (s : String) (base : Nat) : Except Exception Int :=
  match number? s base with
  | none => .error (invalidArgument (what ++ ": no conversion"))
  | some n =>
    let value : Int := if n.negative then -n.magnitude else n.magnitude
    if -2 ^ (width - 1) ≤ value ∧ value < 2 ^ (width - 1) then .ok value
    else .error (outOfRange (what ++ ": out of range"))

def stoll (s : String) (base : Nat) : Except Exception Int := toSigned "stoll" 64 s base

def stoi (s : String) (base : Nat) : Except Exception Int := toSigned "stoi" 32 s base

theorem toSigned_lt {what s : String} {width base : Nat} {n : Int}
    (h : toSigned what width s base = .ok n) : n < 2 ^ (width - 1) := by
  unfold toSigned at h
  cases hnumber : number? s base with
  | none => rw [hnumber] at h; cases h
  | some number =>
    rw [hnumber] at h
    dsimp only at h
    generalize (if number.negative = true then -(number.magnitude : Int)
      else number.magnitude) = value at h
    split at h
    · next hrange =>
      obtain rfl := Except.ok.inj h
      exact hrange.2
    · cases h

theorem stoull_lt {s : String} {base n endPos : Nat} (h : stoull s base = .ok (n, endPos)) :
    n < 2 ^ 64 := by
  unfold stoull at h
  cases hnumber : number? s base with
  | none => rw [hnumber] at h; cases h
  | some number =>
    rw [hnumber] at h
    dsimp only at h
    split at h
    · next hlt =>
      obtain ⟨rfl, -⟩ := Prod.mk.inj (Except.ok.inj h)
      split
      · exact Nat.mod_lt _ (by decide)
      · exact hlt
    · cases h

end Text

/-- The text functions of phosg, which may throw. -/
class PhosgText where
  split : String → Char → List String
  skipWhitespace : String → Nat → Nat
  skipNonWhitespace : String → Nat → Nat
  parseDataString : String → Except Exception (Bytes × Bytes)
  formatDataString : Bytes → Option Bytes → String

/-- The characters that are skipped as whitespace. -/
def Text.blanks : List Char := [' ', '\t', '\r', '\n']

/-- A mask has a byte for every byte of the data, which it covers or not. -/
def IsMask (data mask : Bytes) : Prop := mask.length = data.length ∧ ∀ m ∈ mask, m = 0 ∨ m = 0xFF

/-- A text is cut at every space, and parsing inverts formatting, which writes pairs of
hexadecimal digits, and question marks where the mask changes. -/
class LawfulPhosgText [PhosgText] : Prop where
  split_eq (s : String) : PhosgText.split s ' ' = (s.toList.splitOn ' ').map String.ofList
  skipWhitespace_eq (s : String) (pos : Nat) : PhosgText.skipWhitespace s pos =
    pos + ((s.toList.drop pos).takeWhile (· ∈ Text.blanks)).length
  skipNonWhitespace_eq (s : String) (pos : Nat) : PhosgText.skipNonWhitespace s pos =
    pos + ((s.toList.drop pos).takeWhile (· ∉ Text.blanks)).length
  parse_empty : PhosgText.parseDataString "" = .ok ([], [])
  isMask_of_parse {s : String} {data mask : Bytes}
    (h : PhosgText.parseDataString s = .ok (data, mask)) : IsMask data mask
  parse_format {data mask : Bytes} (h : IsMask data mask) :
    PhosgText.parseDataString (PhosgText.formatDataString data (some mask)) = .ok (data, mask)
  format_none (data : Bytes) : PhosgText.formatDataString data none =
    PhosgText.formatDataString data (some (List.replicate data.length 0xFF))
  mem_format {data : Bytes} {mask : Option Bytes} {c : Char}
    (h : c ∈ (PhosgText.formatDataString data mask).toList) :
    c = '?' ∨ (Text.digit? 16 c).isSome

/-- The conversions of strings to floating-point numbers. -/
class FloatText where
  stof : String → Except Exception (BitVec 32)
  stod : String → Except Exception (BitVec 64)

/-! ## Plain text functions -/

def hexDigit (n : Nat) : Char :=
  Char.ofNat (if n < 10 then '0'.toNat + n else 'A'.toNat + n - 10)

/-- Data as two digits a byte, with `?` where the mask changes. -/
def formatHex : Bool → Bytes → Bytes → List Char
  | masked, b :: data, m :: mask =>
    let rest := hexDigit (b.toNat / 16) :: hexDigit (b.toNat % 16) :: formatHex (m = 0) data mask
    if masked = decide (m = 0) then rest else '?' :: rest
  | _, _, _ => []

def parseHex : Bool → List Char → Bytes × Bytes
  | masked, '?' :: cs => parseHex (!masked) cs
  | masked, c :: c' :: cs =>
    match Text.digit? 16 c, Text.digit? 16 c' with
    | some d, some d' =>
      let (data, mask) := parseHex masked cs
      (UInt8.ofNat (16 * d + d') :: data, (if masked then 0 else 0xFF) :: mask)
    | _, _ => parseHex masked (c' :: cs)
  | _, _ => ([], [])

/-- Words are what stands between the characters that are cut at, and data is in
hexadecimal digits only. -/
abbrev plainPhosg : PhosgText where
  split s c := (s.toList.splitOn c).map String.ofList
  skipWhitespace s pos := pos + ((s.toList.drop pos).takeWhile (· ∈ Text.blanks)).length
  skipNonWhitespace s pos := pos + ((s.toList.drop pos).takeWhile (· ∉ Text.blanks)).length
  parseDataString s := .ok (parseHex false s.toList)
  formatDataString data mask :=
    String.ofList (formatHex false data (mask.getD (List.replicate data.length 0xFF)))

theorem digit?_hexDigit {n : Nat} (h : n < 16) : Text.digit? 16 (hexDigit n) = some n := by
  interval_cases n <;> rfl

theorem hexDigit_ne {n : Nat} (h : n < 16) : hexDigit n ≠ '?' := by
  intro heq
  have hdigit := digit?_hexDigit h
  rw [heq, show Text.digit? 16 '?' = none from rfl] at hdigit
  cases hdigit

theorem isMask_parseHex (masked : Bool) (cs : List Char) :
    IsMask (parseHex masked cs).1 (parseHex masked cs).2 := by
  fun_induction parseHex masked cs with
  | case1 masked cs ih => exact ih
  | case2 masked c c' cs _ d d' _ _ data mask hrec ih =>
    rw [hrec] at ih
    refine ⟨congrArg Nat.succ ih.1, fun m hm => ?_⟩
    rcases List.mem_cons.mp hm with rfl | hm
    · cases masked
      · exact .inr rfl
      · exact .inl rfl
    · exact ih.2 m hm
  | case3 masked c c' cs _ _ ih => exact ih
  | case4 => exact ⟨rfl, nofun⟩

theorem parseHex_formatHex {data mask : Bytes} (h : IsMask data mask) (masked : Bool) :
    parseHex masked (formatHex masked data mask) = (data, mask) := by
  induction data generalizing mask masked with
  | nil =>
    obtain rfl := List.length_eq_zero_iff.mp h.1
    rfl
  | cons b data ih =>
    obtain ⟨m, mask, rfl⟩ := List.exists_cons_of_length_eq_add_one h.1
    obtain ⟨hlen, hm⟩ := h
    have ih : parseHex (m = 0) (formatHex (m = 0) data mask) = (data, mask) :=
      ih ⟨Nat.succ.inj hlen, fun m hmem => hm m (List.mem_cons_of_mem _ hmem)⟩ _
    have hb : b.toNat < 256 := b.toNat_lt
    have hrest : parseHex (m = 0) (hexDigit (b.toNat / 16) :: hexDigit (b.toNat % 16) ::
        formatHex (m = 0) data mask) = (b :: data, m :: mask) := by
      rw [parseHex, digit?_hexDigit (by omega), digit?_hexDigit (by omega)]
      · dsimp only
        rw [ih, Nat.div_add_mod, UInt8.ofNat_toNat]
        rcases hm m List.mem_cons_self with rfl | rfl <;> rfl
      · exact fun heq => hexDigit_ne (by omega) heq
    unfold formatHex
    dsimp only
    split
    · next hmasked => rw [hmasked]; exact hrest
    · next hmasked =>
      rw [parseHex, Bool.not_eq.mpr hmasked]
      exact hrest

theorem mem_formatHex {c : Char} {masked : Bool} {data mask : Bytes}
    (h : c ∈ formatHex masked data mask) : c = '?' ∨ (Text.digit? 16 c).isSome := by
  induction data generalizing masked mask with
  | nil => exact absurd h List.not_mem_nil
  | cons b data ih =>
    cases mask with
    | nil => exact absurd h List.not_mem_nil
    | cons m mask =>
      have hb : b.toNat < 256 := b.toNat_lt
      have hrest : c ∈ hexDigit (b.toNat / 16) :: hexDigit (b.toNat % 16) ::
          formatHex (m = 0) data mask → c = '?' ∨ (Text.digit? 16 c).isSome := by
        intro h
        rcases List.mem_cons.mp h with rfl | h
        · exact .inr (by rw [digit?_hexDigit (by omega)]; rfl)
        rcases List.mem_cons.mp h with rfl | h
        · exact .inr (by rw [digit?_hexDigit (by omega)]; rfl)
        · exact ih h
      unfold formatHex at h
      dsimp only at h
      split at h
      · exact hrest h
      · rcases List.mem_cons.mp h with rfl | h
        · exact .inl rfl
        · exact hrest h

theorem plainPhosg_lawful : @LawfulPhosgText plainPhosg := by
  let _ := plainPhosg
  refine ⟨fun _ => rfl, fun _ _ => rfl, fun _ _ => rfl, rfl, fun {s} data mask h => ?_, fun h => ?_,
    fun _ => rfl, fun h => ?_⟩
  · have hparse : parseHex false s.toList = (data, mask) := Except.ok.inj h
    have hmask := isMask_parseHex false s.toList
    rw [hparse] at hmask
    exact hmask
  · show Except.ok (parseHex false (String.ofList _).toList) = _
    rw [String.toList_ofList]
    exact congrArg Except.ok (parseHex_formatHex h false)
  · exact mem_formatHex (String.toList_ofList ▸ h)

abbrev noFloats : FloatText where
  stof _ := .error (invalidArgument "stof: no conversion")
  stod _ := .error (invalidArgument "stod: no conversion")

namespace Plain

scoped instance : Phosg := bytewisePhosg

scoped instance : PhosgText := plainPhosg

scoped instance : FloatText := noFloats

end Plain

end Memwatch
