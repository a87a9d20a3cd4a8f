import Memwatch.Shell.Text

/-!
# Printed numbers

What `printf` prints for a number, `stoull` reads back. Only digits are printed, so
that the number takes up the whole text.
-/

namespace Memwatch.Text

/-- `%016PRIX64`. -/
def printHex (n : Nat) : String :=
  String.ofList (((Nat.toDigits 16 n).map Char.toUpper).leftpad 16 '0')

/-- `%zu`. -/
def printCount (n : Nat) : String := String.ofList (Nat.toDigits 10 n)

/-! ## Digits -/

section Digits

variable {base d n : Nat} {c : Char} {cs : List Char} {ds : List Nat}

/-- The characters are the digits of a list. -/
def DigitsOf (base : Nat) (cs : List Char) (ds : List Nat) : Prop :=
  List.Forall₂ (fun c d => digit? base c = some d) cs ds

theorem zero_le_of_digit? (h : digit? base c = some d) : '0' ≤ c := by
  unfold digit? at h
  dsimp only at h
  by_contra hlt
  have ha : ¬ 'a' ≤ c := fun ha => hlt (le_trans (by decide) ha)
  have hA : ¬ 'A' ≤ c := fun hA => hlt (le_trans (by decide) hA)
  simp [hlt, ha, hA] at h

theorem ne_of_digit? {c' : Char} (h : digit? base c = some d) (hc' : c' < '0') : c ≠ c' := by
  rintro rfl
  exact absurd (zero_le_of_digit? h) hc'.not_ge

theorem not_isSpace_of_digit? (h : digit? base c = some d) : isSpace c = false := by
  have hle := zero_le_of_digit? h
  have hspace : c ≠ ' ' := ne_of_digit? h (by decide)
  have hreturn : ¬ c ≤ '\r' := fun hc => absurd (hle.trans hc) (by decide)
  simp [isSpace, hspace, hreturn]

theorem exists_digit_of_mem (h : DigitsOf base cs ds) (hc : c ∈ cs) :
    ∃ d, digit? base c = some d := by
  induction h with
  | nil => cases hc
  | cons hd _ ih =>
    rcases List.mem_cons.mp hc with rfl | hc
    · exact ⟨_, hd⟩
    · exact ih hc

theorem digits_eq (h : DigitsOf base cs ds) : digits base cs = ds := by
  induction h with
  | nil => rfl
  | cons hd _ ih => rw [digits, hd, ih]

theorem ofDigits_append (base : Nat) (ds : List Nat) (d : Nat) :
    ofDigits base (ds ++ [d]) = ofDigits base ds * base + d := by
  rw [ofDigits, List.foldl_append]
  rfl

theorem ofDigits_zeros (base k : Nat) (ds : List Nat) :
    ofDigits base (List.replicate k 0 ++ ds) = ofDigits base ds := by
  induction k with
  | zero => rfl
  | succ k ih =>
    rw [List.replicate_succ, List.cons_append, ofDigits, List.foldl_cons, Nat.zero_mul]
    exact ih

theorem digitsOf_toDigits {f : Char → Char} (hbase : 1 < base)
    (hf : ∀ d < base, digit? base (f (Nat.digitChar d)) = some d) (n : Nat) :
    ∃ ds, DigitsOf base ((Nat.toDigits base n).map f) ds ∧ ofDigits base ds = n := by
  induction n using Nat.strong_induction_on with
  | h n ih =>
    rw [Nat.toDigits_eq_if hbase]
    split
    · next hlt => exact ⟨[n], .cons (hf n hlt) .nil, by simp [ofDigits]⟩
    · next hge =>
      obtain ⟨ds, hds, hn⟩ := ih (n / base) (Nat.div_lt_self (by omega) hbase)
      refine ⟨ds ++ [n % base], ?_, ?_⟩
      · rw [List.map_append]
        exact List.rel_append hds (.cons (hf _ (Nat.mod_lt _ (by omega))) .nil)
      · rw [ofDigits_append, hn]
        exact Nat.div_add_mod' n base

theorem digitsOf_leftpad (hzero : digit? base '0' = some 0) (h : DigitsOf base cs ds) (k : Nat) :
    DigitsOf base (cs.leftpad k '0') (List.replicate (k - cs.length) 0 ++ ds) := by
  refine List.rel_append ?_ h
  induction k - cs.length with
  | zero => exact .nil
  | succ k ih => exact .cons hzero ih

end Digits

/-! ## Numbers -/

section Numbers

variable {s : String} {base n : Nat} {ds : List Nat}

theorem second_of_startsHex {cs : List Char} (h : startsHex cs = true) :
    cs[1]? = some 'x' ∨ cs[1]? = some 'X' := by
  unfold startsHex at h
  split at h
  · simp only [Bool.and_eq_true, Bool.or_eq_true, decide_eq_true_eq] at h
    exact h.1.imp (congrArg some) (congrArg some)
  · cases h

/-- Digits and what may follow them do not start with `0x`. -/
theorem not_startsHex {base : Nat} {cs rest : List Char} {ds : List Nat}
    (h : DigitsOf base cs ds) (hle : base ≤ 16)
    (hrest : ∀ c, rest.head? = some c → c ≠ 'x' ∧ c ≠ 'X') (hne : cs ≠ []) :
    ¬ startsHex (cs ++ rest) := by
  intro hstarts
  have hx : digit? base 'x' = none := if_neg (show ¬ 33 < base by omega)
  have hX : digit? base 'X' = none := if_neg (show ¬ 33 < base by omega)
  have hsecond : ∀ c, (cs ++ rest)[1]? = some c → c ≠ 'x' ∧ c ≠ 'X' := by
    intro c hc
    obtain ⟨c₀, cs, rfl⟩ := List.exists_cons_of_ne_nil hne
    cases cs with
    | nil => exact hrest c (by rwa [List.head?_eq_getElem?])
    | cons c₁ cs =>
      obtain rfl : c₁ = c := Option.some.inj hc
      obtain ⟨d, hd⟩ := exists_digit_of_mem h (List.mem_cons_of_mem _ List.mem_cons_self)
      exact ⟨by rintro rfl; simp [hx] at hd, by rintro rfl; simp [hX] at hd⟩
  rcases second_of_startsHex hstarts with heq | heq
  · exact (hsecond _ heq).1 rfl
  · exact (hsecond _ heq).2 rfl

theorem radix_eq {cs : List Char} (h : DigitsOf base cs ds) (hne : cs ≠ []) (hpos : base ≠ 0)
    (hle : base ≤ 16) : radix base cs = (base, cs) := by
  have hstarts : ¬ startsHex (cs ++ []) := not_startsHex h hle (fun c hc => nomatch hc) hne
  rw [List.append_nil] at hstarts
  rw [radix, if_neg fun hhex => hstarts hhex.2, if_neg hpos]

theorem number?_of_radix {c : Char} {cs tail : List Char} {b d : Nat} (hs : s.toList = c :: cs)
    (hc : digit? b c = some d) (hradix : radix base s.toList = (b, tail))
    (hne : digits b tail ≠ []) : number? s base = some ⟨false, ofDigits b (digits b tail),
      s.toList.length - tail.length + (digits b tail).length⟩ := by
  have hspaces : s.toList.dropWhile isSpace = s.toList := by
    rw [hs, List.dropWhile_cons_of_neg (by simp [not_isSpace_of_digit? hc])]
  unfold number?
  rw [hspaces]
  extract_lets unsigned
  split
  next negative cs' hsign =>
  have hcs' : false = negative ∧ s.toList = cs' := by
    rw [show unsigned = c :: cs from hs] at hsign
    split at hsign
    · next heq => cases heq; exact absurd rfl (ne_of_digit? hc (by decide))
    · next heq => cases heq; exact absurd rfl (ne_of_digit? hc (by decide))
    · exact hs ▸ Prod.mk.inj hsign
  obtain ⟨rfl, rfl⟩ := hcs'
  rw [hradix]
  dsimp only
  rw [if_neg hne]

theorem number?_of_digits (h : DigitsOf base s.toList ds) (hne : s.toList ≠ [])
    (hpos : base ≠ 0) (hle : base ≤ 16) :
    number? s base = some ⟨false, ofDigits base ds, s.toList.length⟩ := by
  obtain ⟨c, cs, hs⟩ := List.exists_cons_of_ne_nil hne
  obtain ⟨d, hd⟩ := exists_digit_of_mem h (hs ▸ List.mem_cons_self)
  have hds : ds ≠ [] := by
    rintro rfl
    exact hne (List.forall₂_nil_right_iff.mp h)
  rw [number?_of_radix hs hd (radix_eq h hne hpos hle) (by rwa [digits_eq h]), digits_eq h,
    ← List.Forall₂.length_eq h, Nat.sub_self, Nat.zero_add]

theorem stoull_of_number? {endPos : Nat} (h : number? s base = some ⟨false, n, endPos⟩)
    (hlt : n < 2 ^ 64) : stoull s base = .ok (n, endPos) := by
  rw [stoull, h]
  dsimp only
  rw [if_pos hlt, if_neg Bool.false_ne_true]

/-- Digits are read as the number they stand for. -/
theorem stoull_of_digits (h : DigitsOf base s.toList ds) (hne : s.toList ≠ [])
    (hpos : base ≠ 0) (hle : base ≤ 16) (hlt : ofDigits base ds < 2 ^ 64) :
    stoull s base = .ok (ofDigits base ds, s.toList.length) :=
  stoull_of_number? (number?_of_digits h hne hpos hle) hlt

theorem digitsOf_printHex (n : Nat) :
    ∃ ds, DigitsOf 16 (printHex n).toList ds ∧ ofDigits 16 ds = n := by
  obtain ⟨ds, hds, hn⟩ := digitsOf_toDigits (f := Char.toUpper) (show 1 < 16 by decide)
    (by decide) n
  rw [printHex, String.toList_ofList]
  exact ⟨_, digitsOf_leftpad (by decide) hds 16, (ofDigits_zeros ..).trans hn⟩

theorem printHex_ne_nil (n : Nat) : (printHex n).toList ≠ [] := by
  rw [printHex, String.toList_ofList, List.leftpad]
  simp [Nat.toDigits_ne_nil]

theorem digitsOf_printCount (n : Nat) :
    ∃ ds, DigitsOf 10 (printCount n).toList ds ∧ ofDigits 10 ds = n := by
  obtain ⟨ds, hds, hn⟩ := digitsOf_toDigits (f := id) (show 1 < 10 by decide) (by decide) n
  rw [List.map_id] at hds
  rw [printCount, String.toList_ofList]
  exact ⟨ds, hds, hn⟩

theorem stoull_printCount (hlt : n < 2 ^ 64) :
    ∃ endPos, stoull (printCount n) 10 = .ok (n, endPos) := by
  obtain ⟨ds, hds, rfl⟩ := digitsOf_printCount n
  refine ⟨_, stoull_of_digits hds ?_ (by decide) (by decide) hlt⟩
  rw [printCount, String.toList_ofList]
  exact Nat.toDigits_ne_nil

/-! ## Numbers before other text -/

/-- What may follow a number: nothing, a space or an `@`. -/
def Ends (rest : List Char) : Prop := ∀ c, rest.head? = some c → c = ' ' ∨ c = '@'

theorem ends_nil : Ends [] := nofun

theorem ends_cons {c : Char} {cs : List Char} (h : c = ' ' ∨ c = '@') : Ends (c :: cs) := by
  intro c' hc'
  rwa [← Option.some.inj hc']

theorem digits_of_ends {rest : List Char} (h : Ends rest) : digits base rest = [] := by
  cases rest with
  | nil => rfl
  | cons c cs =>
    have hnone : digit? base c = none := by
      rcases h c rfl with rfl | rfl
      · exact if_neg (Nat.lt_irrefl base)
      · exact if_neg (Nat.lt_irrefl base)
    rw [digits, hnone]

theorem digits_append {cs rest : List Char} (h : DigitsOf base cs ds) (hrest : Ends rest) :
    digits base (cs ++ rest) = ds := by
  induction h with
  | nil => exact digits_of_ends hrest
  | cons hd _ ih => rw [List.cons_append, digits, hd, ih]

theorem not_startsHex_of_ends {cs rest : List Char} (h : DigitsOf base cs ds) (hle : base ≤ 16)
    (hrest : Ends rest) (hne : cs ≠ []) : ¬ startsHex (cs ++ rest) := by
  refine not_startsHex h hle (fun c hc => ?_) hne
  rcases hrest c hc with rfl | rfl
  · decide
  · decide

/-- A number in hexadecimal digits, perhaps after `0x`. -/
def HexToken (tok : String) (n : Nat) : Prop :=
  ∃ pre cs ds, tok.toList = pre ++ cs ∧ (pre = [] ∨ pre = ['0', 'x'] ∨ pre = ['0', 'X']) ∧
    cs ≠ [] ∧ DigitsOf 16 cs ds ∧ ofDigits 16 ds = n

theorem hexToken_printHex (n : Nat) : HexToken (printHex n) n := by
  obtain ⟨ds, hds, hn⟩ := digitsOf_printHex n
  exact ⟨[], (printHex n).toList, ds, (List.nil_append _).symm, .inl rfl, printHex_ne_nil n, hds,
    hn⟩

theorem digit_of_hexToken {tok : String} (h : HexToken tok n) :
    ∃ c cs d, tok.toList = c :: cs ∧ digit? 16 c = some d := by
  obtain ⟨pre, cs, ds, htok, hpre, hne, hds, -⟩ := h
  rcases hpre with rfl | rfl | rfl
  · obtain ⟨c, cs, rfl⟩ := List.exists_cons_of_ne_nil hne
    obtain ⟨d, hd⟩ := exists_digit_of_mem hds List.mem_cons_self
    exact ⟨c, cs, d, htok, hd⟩
  · exact ⟨_, _, 0, htok, rfl⟩
  · exact ⟨_, _, 0, htok, rfl⟩

theorem charAt_hexToken {tok : String} {rest : List Char} (h : HexToken tok n)
    (hs : s.toList = tok.toList ++ rest) : ∃ d, digit? 16 (charAt s 0) = some d := by
  obtain ⟨c, cs, d, htok, hd⟩ := digit_of_hexToken h
  refine ⟨d, ?_⟩
  rw [charAt, hs, htok]
  exact hd

theorem stoull_of_hexToken {tok : String} {rest : List Char} (h : HexToken tok n)
    (hs : s.toList = tok.toList ++ rest) (hrest : Ends rest) (hlt : n < 2 ^ 64) :
    ∃ endPos, stoull s 16 = .ok (n, endPos) := by
  obtain ⟨c, cs', d, htok', hd⟩ := digit_of_hexToken h
  obtain ⟨pre, cs, ds, htok, hpre, hne, hds, rfl⟩ := h
  have hdigits := digits_append hds hrest
  have hnil : digits 16 (cs ++ rest) ≠ [] := by
    rw [hdigits]
    rintro rfl
    exact hne (List.forall₂_nil_right_iff.mp hds)
  have hradix : radix 16 s.toList = (16, cs ++ rest) := by
    have hstarts := not_startsHex_of_ends hds (le_refl 16) hrest hne
    rw [hs, htok]
    rcases hpre with rfl | rfl | rfl
    · rw [List.nil_append, radix, if_neg fun hhex => hstarts hhex.2, if_neg (by decide)]
    all_goals
      obtain ⟨c, cs, rfl⟩ := List.exists_cons_of_ne_nil hne
      obtain ⟨d, hd⟩ := exists_digit_of_mem hds List.mem_cons_self
      refine if_pos ⟨.inr rfl, ?_⟩
      simp [startsHex, hd]
  rw [htok', List.cons_append] at hs
  have hnumber := number?_of_radix hs hd hradix hnil
  rw [hdigits] at hnumber
  exact ⟨_, stoull_of_number? hnumber hlt⟩

theorem head?_toDigits (h : 0 < n) : (Nat.toDigits 10 n).head? ≠ some '0' := by
  induction n using Nat.strong_induction_on with
  | h n ih =>
    rw [Nat.toDigits_eq_if (by decide)]
    split
    · next hlt =>
      interval_cases n <;> simp [Nat.digitChar]
    · next hge =>
      rw [List.head?_append_of_ne_nil _ Nat.toDigits_ne_nil]
      exact ih (n / 10) (by omega) (by omega)

theorem digitsOf_count (n : Nat) : ∃ ds,
    DigitsOf (if (Nat.toDigits 10 n).head? = some '0' then 8 else 10) (Nat.toDigits 10 n) ds ∧
      ofDigits (if (Nat.toDigits 10 n).head? = some '0' then 8 else 10) ds = n := by
  rcases Nat.eq_zero_or_pos n with rfl | hpos
  · exact ⟨[0], .cons (by decide) .nil, rfl⟩
  · obtain ⟨ds, hds, hn⟩ := digitsOf_toDigits (f := id) (show 1 < 10 by decide) (by decide) n
    rw [List.map_id] at hds
    rw [if_neg (head?_toDigits hpos)]
    exact ⟨ds, hds, hn⟩

/-- The base of a count and its digits, with text after it. -/
theorem radix_count {rest : List Char} (n : Nat) (hrest : Ends rest) :
    ∃ b ds, radix 0 (Nat.toDigits 10 n ++ rest) = (b, Nat.toDigits 10 n ++ rest) ∧
      DigitsOf b (Nat.toDigits 10 n) ds ∧ digits b (Nat.toDigits 10 n ++ rest) = ds ∧ ds ≠ [] ∧
      ofDigits b ds = n := by
  have hne : Nat.toDigits 10 n ≠ [] := Nat.toDigits_ne_nil
  obtain ⟨ds, hds, hn⟩ := digitsOf_count n
  refine ⟨_, ds, ?_, hds, digits_append hds hrest, ?_, hn⟩
  · have hstarts := not_startsHex_of_ends hds (by split <;> decide) hrest hne
    rw [radix, if_neg fun hhex => hstarts hhex.2, if_pos rfl, List.head?_append_of_ne_nil _ hne]
  · rintro rfl
    exact hne (List.forall₂_nil_right_iff.mp hds)

theorem cons_of_digitsOf_count {b : Nat} (h : DigitsOf b (Nat.toDigits 10 n) ds) :
    ∃ c cs d, Nat.toDigits 10 n = c :: cs ∧ digit? b c = some d := by
  obtain ⟨c, cs, hcs⟩ := List.exists_cons_of_ne_nil (Nat.toDigits_ne_nil (b := 10) (n := n))
  obtain ⟨d, hd⟩ := exists_digit_of_mem h (hcs ▸ List.mem_cons_self)
  exact ⟨c, cs, d, hcs, hd⟩

theorem number?_count {rest : List Char} (hs : s.toList = Nat.toDigits 10 n ++ rest)
    (hrest : Ends rest) : number? s 0 = some ⟨false, n, (Nat.toDigits 10 n).length⟩ := by
  obtain ⟨b, ds, hradix, hds, hdigits, hnil, hn⟩ := radix_count n hrest
  obtain ⟨c, cs, d, hcs, hd⟩ := cons_of_digitsOf_count hds
  rw [← hs] at hradix hdigits
  have hnumber := number?_of_radix (hs.trans (by rw [hcs, List.cons_append])) hd hradix
    (by rwa [hdigits])
  rwa [hdigits, hn, ← List.Forall₂.length_eq hds, Nat.sub_self, Nat.zero_add] at hnumber

theorem stoull_count {rest : List Char} (hs : s.toList = Nat.toDigits 10 n ++ rest)
    (hrest : Ends rest) (hlt : n < 2 ^ 64) :
    stoull s 0 = .ok (n, (Nat.toDigits 10 n).length) :=
  stoull_of_number? (number?_count hs hrest) hlt

theorem number?_of_minus {cs tail : List Char} {b : Nat} (hs : s.toList = '-' :: cs)
    (hradix : radix base cs = (b, tail)) (hne : digits b tail ≠ []) :
    ∃ endPos, number? s base = some ⟨true, ofDigits b (digits b tail), endPos⟩ := by
  have hspaces : s.toList.dropWhile isSpace = '-' :: cs := by
    rw [hs, List.dropWhile_cons_of_neg (by decide)]
  unfold number?
  rw [hspaces]
  extract_lets unsigned
  split
  next negative cs' hsign =>
  obtain ⟨rfl, rfl⟩ := Prod.mk.inj hsign
  rw [hradix]
  dsimp only
  rw [if_neg hne]
  exact ⟨_, rfl⟩

/-- A minus takes the number from `2 ^ 64`. -/
theorem stoull_minus_count (hs : s.toList = '-' :: Nat.toDigits 10 n) (hlt : n < 2 ^ 64) :
    ∃ endPos, stoull s 0 = .ok (sub64 0 n, endPos) := by
  obtain ⟨b, ds, hradix, -, hdigits, hnil, hn⟩ := radix_count n ends_nil
  rw [List.append_nil] at hradix hdigits
  obtain ⟨endPos, hnumber⟩ := number?_of_minus hs hradix (by rwa [hdigits])
  rw [hdigits, hn] at hnumber
  refine ⟨endPos, ?_⟩
  rw [stoull, hnumber]
  dsimp only
  rw [if_pos hlt, if_pos rfl]

end Numbers

end Memwatch.Text
