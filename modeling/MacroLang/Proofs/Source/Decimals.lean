import Mathlib.Data.List.TakeWhile
import Mathlib.Tactic.FieldSimp
import MacroLang.Proofs.Number.Bits
import MacroLang.Proofs.Number.Shortest
import MacroLang.Proofs.Source.Spelling

/-!
# Words for doubles

A double is written with the digits of its shortest decimal. If the text has a point, it is read as a decimal of the
same value (`isDecimal_positional`, `isDecimal_scientific`) and so as the same double. Without one it is read as an atom
(`ofWord_of_pointless`): that happens to a single digit with an exponent, and to infinity.

Main statement: `Double.isWordOf_write`.
-/

namespace MacroLang

/-! ## Digits -/

/-- At least one character, and only the ten digits. -/
def IsNumeral (cs : List Char) : Prop :=
  cs ≠ [] ∧ ∀ c ∈ cs, c.isDigit = true

theorem isNumeral_toDigits (n : ℕ) : IsNumeral (Nat.toDigits 10 n) :=
  ⟨Nat.toDigits_ne_nil, isDigit_toDigits n⟩

theorem isDigit_replicate_zero (n : ℕ) : ∀ c ∈ List.replicate n '0', c.isDigit = true := by
  intro c hc
  rw [List.eq_of_mem_replicate hc]
  rfl

theorem IsNumeral.append {cs ds : List Char} (h : IsNumeral cs) (h' : ∀ c ∈ ds, c.isDigit = true) :
    IsNumeral (cs ++ ds) :=
  ⟨List.append_ne_nil_of_left_ne_nil h.1 ds, List.forall_mem_append.2 ⟨h.2, h'⟩⟩

theorem IsNumeral.zeros_append {cs : List Char} (h : IsNumeral cs) (n : ℕ) : IsNumeral (List.replicate n '0' ++ cs) :=
  ⟨List.append_ne_nil_of_right_ne_nil _ h.1, List.forall_mem_append.2 ⟨isDigit_replicate_zero n, h.2⟩⟩

section

variable {cs ds : List Char}

theorem digitsValue_append (h : ∀ c ∈ cs, c.isDigit = true) (h' : ∀ c ∈ ds, c.isDigit = true) :
    Text.digitsValue (cs ++ ds) = Text.digitsValue cs * 10 ^ ds.length + Text.digitsValue ds := by
  rw [digitsValue_eq_ofDigitChars (List.forall_mem_append.2 ⟨h, h'⟩), digitsValue_eq_ofDigitChars h,
    digitsValue_eq_ofDigitChars h', Nat.ofDigitChars_append, Nat.ofDigitChars_eq_ofDigitChars_zero (l := ds),
    Nat.mul_comm]

theorem digitsValue_zeros (n : ℕ) : Text.digitsValue (List.replicate n '0') = 0 := by
  rw [digitsValue_eq_ofDigitChars (isDigit_replicate_zero n), Nat.ofDigitChars_replicate_zero, Nat.mul_zero]

theorem digitsValue_append_zeros (h : ∀ c ∈ cs, c.isDigit = true) (n : ℕ) :
    Text.digitsValue (cs ++ List.replicate n '0') = Text.digitsValue cs * 10 ^ n := by
  rw [digitsValue_append h (isDigit_replicate_zero n), digitsValue_zeros, List.length_replicate, Nat.add_zero]

theorem digitsValue_zeros_append (h : ∀ c ∈ cs, c.isDigit = true) (n : ℕ) :
    Text.digitsValue (List.replicate n '0' ++ cs) = Text.digitsValue cs := by
  rw [digitsValue_append (isDigit_replicate_zero n) h, digitsValue_zeros, Nat.zero_mul, Nat.zero_add]

theorem digitsValue_toDigits (n : ℕ) : Text.digitsValue (Nat.toDigits 10 n) = n := by
  rw [digitsValue_eq_ofDigitChars (isDigit_toDigits n), Nat.ofDigitChars_ten_toDigits]

theorem digitValue_lt (c : Char) : (Text.digitValue? c).getD 0 < 10 := by
  unfold Text.digitValue?
  cases hzero : Text.digitZeros.find? fun base => base ≤ c.toNat && c.toNat < base + 10 with
  | none => exact Nat.succ_pos 9
  | some base =>
    have hrange := List.find?_some hzero
    simp only [Bool.and_eq_true, decide_eq_true_eq] at hrange
    rw [Option.map_some, Option.getD_some]
    omega

theorem digitsValue_lt (cs : List Char) : Text.digitsValue cs < 10 ^ cs.length := by
  induction cs using List.reverseRecOn with
  | nil => exact Nat.one_pos
  | append_singleton cs c ih =>
    have hc := digitValue_lt c
    have hvalue : Text.digitsValue (cs ++ [c]) = 10 * Text.digitsValue cs + (Text.digitValue? c).getD 0 :=
      List.foldl_concat ..
    rw [hvalue, List.length_append, List.length_singleton, Nat.pow_succ]
    omega

theorem digitsValue_lt_tenTo {n : ℕ} (h : cs.length ≤ n) : Text.digitsValue cs < Double.tenTo n := by
  rw [Double.tenTo, Nat.pow_eq]
  exact (digitsValue_lt cs).trans_le (Nat.pow_le_pow_right (by decide) h)

end

/-- What is stripped are the zeros at the end. -/
theorem stripZeros_append (cs : List Char) :
    Double.stripZeros cs ++ List.replicate (cs.length - (Double.stripZeros cs).length) '0' = cs := by
  have hsplit : Double.stripZeros cs ++ (cs.reverse.takeWhile (· = '0')).reverse = cs := by
    rw [Double.stripZeros, ← List.reverse_append, List.takeWhile_append_dropWhile, List.reverse_reverse]
  have hlength := congrArg List.length hsplit
  have hzeros : (cs.reverse.takeWhile (· = '0')).reverse =
      List.replicate (cs.reverse.takeWhile (· = '0')).reverse.length '0' := by
    refine List.eq_replicate_of_mem fun c hc => ?_
    simpa using List.mem_takeWhile_imp (List.mem_reverse.1 hc)
  rw [List.length_append] at hlength
  have hcount : cs.length - (Double.stripZeros cs).length = (cs.reverse.takeWhile (· = '0')).reverse.length := by omega
  rw [hcount, ← hzeros, hsplit]

theorem digitsValue_stripZeros {cs : List Char} (h : ∀ c ∈ cs, c.isDigit = true) :
    (Text.digitsValue (Double.stripZeros cs) : ℚ) * 10 ^ ((cs.length : ℤ) - (Double.stripZeros cs).length) =
      Text.digitsValue cs := by
  have hsplit := stripZeros_append cs
  have hlength := congrArg List.length hsplit
  rw [List.length_append, List.length_replicate] at hlength
  have hdigits : ∀ c ∈ Double.stripZeros cs, c.isDigit = true := fun c hc => h c (hsplit ▸ List.mem_append_left _ hc)
  have hvalue := digitsValue_append_zeros hdigits (cs.length - (Double.stripZeros cs).length)
  rw [hsplit] at hvalue
  have hcount : (cs.length : ℤ) - (Double.stripZeros cs).length = (cs.length - (Double.stripZeros cs).length : ℕ) := by
    omega
  rw [hvalue, hcount, zpow_natCast]
  push_cast
  rfl

theorem IsNumeral.stripZeros {cs : List Char} (h : IsNumeral cs) (hpos : 0 < Text.digitsValue cs) :
    IsNumeral (Double.stripZeros cs) := by
  have hvalue := digitsValue_stripZeros h.2
  refine ⟨fun hempty => ?_, fun c hc => h.2 c (stripZeros_append cs ▸ List.mem_append_left _ hc)⟩
  rw [hempty, show Text.digitsValue [] = 0 from rfl, Nat.cast_zero, zero_mul] at hvalue
  exact hpos.ne (by exact_mod_cast hvalue)

/-! ## Decimals -/

/-- The word is written with a point, and this is the number it stands for. -/
inductive IsDecimal : List Char → ℚ → Prop
  | mk {whole fraction tail : List Char} {exponent : ℤ} (hwhole : IsNumeral whole) (hfraction : IsNumeral fraction)
      (htail : ∀ c ∈ tail, isDelimiter c = false) (hfirst : ∀ c ∈ tail.head?, Text.isDigit c = false)
      (hexponent : exponentOfWord? tail = some exponent) :
      IsDecimal (whole ++ '.' :: (fraction ++ tail))
        (Text.digitsValue (whole ++ fraction) * 10 ^ (exponent - fraction.length))

theorem IsDecimal.of_eq {word : List Char} {r r' : ℚ} (h : IsDecimal word r) (hr : r = r') : IsDecimal word r' :=
  hr ▸ h

/-- A word without an exponent. -/
theorem IsDecimal.plain {whole fraction : List Char} (hwhole : IsNumeral whole) (hfraction : IsNumeral fraction) :
    IsDecimal (whole ++ '.' :: fraction) (Text.digitsValue (whole ++ fraction) * 10 ^ (-(fraction.length : ℤ))) := by
  have hword := IsDecimal.mk hwhole hfraction (List.forall_mem_nil _) nofun rfl
  rwa [List.append_nil, zero_sub] at hword

theorem isDecimal_positional {digits : List Char} (h : IsNumeral digits) (point : ℤ) :
    IsDecimal (Double.positional digits point) (Text.digitsValue digits * 10 ^ (point - digits.length)) := by
  unfold Double.positional
  split
  · -- The point stands in front of the digits.
    rename_i hpoint
    have hword := IsDecimal.plain (isNumeral_toDigits 0) (h.zeros_append (-point).toNat)
    rw [Nat.toDigits_zero] at hword
    refine hword.of_eq ?_
    rw [show ['0'] = List.replicate 1 '0' from rfl, ← List.append_assoc, List.replicate_append_replicate,
      digitsValue_zeros_append h.2, List.length_append, List.length_replicate]
    congr 2
    push_cast
    omega
  · rename_i hpoint
    dsimp only
    by_cases hlong : digits.length ≤ point.toNat
    · -- It stands behind them.
      have hpadded : (digits ++ List.replicate (point.toNat - digits.length) '0').length = point.toNat := by
        rw [List.length_append, List.length_replicate]
        omega
      rw [List.take_of_length_le hpadded.le, List.drop_of_length_le hpadded.le]
      refine (IsDecimal.plain (h.append (isDigit_replicate_zero _)) (isNumeral_toDigits 0)).of_eq ?_
      rw [Nat.toDigits_zero, show ['0'] = List.replicate 1 '0' from rfl, List.append_assoc,
        List.replicate_append_replicate, digitsValue_append_zeros h.2, List.length_replicate]
      push_cast
      rw [mul_assoc, ← zpow_natCast, ← zpow_add₀ (by norm_num)]
      congr 2
      push_cast
      omega
    · -- It stands between them.
      have hnone : point.toNat - digits.length = 0 := by omega
      rw [hnone, List.replicate_zero, List.append_nil]
      have hfraction : digits.drop point.toNat ≠ [] := by
        rw [Ne, List.drop_eq_nil_iff]
        exact hlong
      have hwhole : digits.take point.toNat ≠ [] := by
        rw [Ne, List.take_eq_nil_iff]
        exact fun hempty => hempty.elim (by omega) h.1
      rw [if_neg (by simpa using hfraction)]
      refine (IsDecimal.plain ⟨hwhole, fun c hc => h.2 c (List.mem_of_mem_take hc)⟩
        ⟨hfraction, fun c hc => h.2 c (List.mem_of_mem_drop hc)⟩).of_eq ?_
      rw [List.take_append_drop, List.length_drop]
      congr 2
      omega

theorem intOfWord?_numeral {digits : List Char} (h : IsNumeral digits) (negative : Bool) :
    intOfWord? ((if negative then '-' else '+') :: digits) =
      some (if negative then -(Text.digitsValue digits : ℤ) else Text.digitsValue digits) := by
  have hall : digits.all Text.isDigit = true := List.all_eq_true.2 fun c hc => isDigit_of_isDigit (h.2 c hc)
  have hempty : digits.isEmpty = false := List.isEmpty_eq_false_iff.2 h.1
  cases negative with
  | true => simp [intOfWord?, splitSign, hall, hempty]
  | false => simp [intOfWord?, splitSign, hall, hempty]

/-- The exponent at the end of a double. -/
def writtenExponent (exponent : ℤ) : List Char :=
  'e' :: (if exponent < 0 then '-' else '+') ::
    (List.replicate (Double.layout.exponentWidth - (Nat.toDigits 10 exponent.natAbs).length) '0' ++
      Nat.toDigits 10 exponent.natAbs)

theorem exponentOfWord?_written (exponent : ℤ) : exponentOfWord? (writtenExponent exponent) = some exponent := by
  have hint (width : ℕ) :=
    intOfWord?_numeral ((isNumeral_toDigits exponent.natAbs).zeros_append width) (decide (exponent < 0))
  simp only [decide_eq_true_eq, digitsValue_zeros_append (isDigit_toDigits _), digitsValue_toDigits] at hint
  rw [writtenExponent, exponentOfWord?, if_pos (by decide), hint]
  congr 1
  split
  · omega
  · omega

theorem not_isDelimiter_writtenExponent (exponent : ℤ) : ∀ c ∈ writtenExponent exponent, isDelimiter c = false := by
  intro c hc
  simp only [writtenExponent, List.mem_cons] at hc
  rcases hc with rfl | rfl | hdigit
  · rfl
  · split <;> rfl
  · exact not_isDelimiter_of_isDigit (((isNumeral_toDigits _).zeros_append _).2 c hdigit)

theorem point_notMem_writtenExponent (exponent : ℤ) : '.' ∉ writtenExponent exponent := by
  intro hmem
  simp only [writtenExponent, List.mem_cons] at hmem
  rcases hmem with hmem | hmem | hmem
  · exact absurd hmem (by decide)
  · split at hmem <;> exact absurd hmem (by decide)
  · exact absurd (((isNumeral_toDigits _).zeros_append _).2 _ hmem) (by decide)

theorem scientific_single (digit : Char) (exponent : ℤ) :
    Double.scientific Double.layout [digit] exponent = digit :: writtenExponent exponent :=
  rfl

theorem scientific_several (first second : Char) (rest : List Char) (exponent : ℤ) :
    Double.scientific Double.layout (first :: second :: rest) exponent =
      [first] ++ '.' :: (second :: rest ++ writtenExponent exponent) := by
  simp [Double.scientific, writtenExponent]

theorem isDecimal_scientific {first second : Char} {rest : List Char} (h : IsNumeral (first :: second :: rest))
    (exponent : ℤ) :
    IsDecimal (Double.scientific Double.layout (first :: second :: rest) exponent)
      (Text.digitsValue (first :: second :: rest) * 10 ^ (exponent + 1 - (first :: second :: rest).length)) := by
  have hwhole : IsNumeral [first] := ⟨List.cons_ne_nil _ _, fun c hc => h.2 c (by simp_all)⟩
  have hfraction : IsNumeral (second :: rest) := ⟨List.cons_ne_nil _ _, fun c hc => h.2 c (List.mem_cons_of_mem _ hc)⟩
  have hfirst : ∀ c ∈ (writtenExponent exponent).head?, Text.isDigit c = false := by
    intro c hc
    cases hc
    decide
  rw [scientific_several]
  refine (IsDecimal.mk hwhole hfraction (not_isDelimiter_writtenExponent exponent) hfirst
    (exponentOfWord?_written exponent)).of_eq ?_
  congr 2
  simp only [List.length_cons]
  push_cast
  omega

/-! ## Reading -/

theorem splitSign_of_isDigit {c : Char} (h : Text.isDigit c = true) (cs : List Char) :
    splitSign (c :: cs) = (false, c :: cs) := by
  have hminus : c ≠ '-' := by
    rintro rfl
    exact absurd h (by decide)
  have hplus : c ≠ '+' := by
    rintro rfl
    exact absurd h (by decide)
  simp [splitSign, hminus, hplus]

theorem splitSign_of_isNumeral {digits : List Char} (h : IsNumeral digits) (rest : List Char) (negative : Bool) :
    splitSign ((if negative then ['-'] else []) ++ (digits ++ rest)) = (negative, digits ++ rest) := by
  obtain ⟨c, cs, rfl⟩ := List.exists_cons_of_ne_nil h.1
  cases negative with
  | true => rfl
  | false => exact splitSign_of_isDigit (isDigit_of_isDigit (h.2 c List.mem_cons_self)) (cs ++ rest)

/-- The digits in front of the rest are all that is taken. -/
theorem takeWhile_digits {digits rest : List Char} (h : ∀ c ∈ digits, c.isDigit = true)
    (hrest : ∀ c ∈ rest.head?, Text.isDigit c = false) :
    (digits ++ rest).takeWhile Text.isDigit = digits ∧ (digits ++ rest).dropWhile Text.isDigit = rest := by
  have hdigits : ∀ c ∈ digits, Text.isDigit c = true := fun c hc => isDigit_of_isDigit (h c hc)
  rw [List.takeWhile_append_of_pos hdigits, List.dropWhile_append_of_pos hdigits]
  cases rest with
  | nil => simp
  | cons c rest => simp [hrest c rfl]

/-- A decimal is read as the double that is nearest to its number. -/
theorem floatOfWord?_of_isDecimal {word : List Char} {r : ℚ} (h : IsDecimal word r) {m : ℕ} {q : ℤ}
    (hdouble : Double.IsDouble m q) (hr : (Double.neighbourhood m q).Contains r) (negative : Bool) :
    floatOfWord? ((if negative then ['-'] else []) ++ word) =
      some (Double.ofMagnitude negative ((q - Double.leastPower).toNat * Double.leadingBit + m)) := by
  cases h with
  | @mk whole fraction tail exponent hwhole hfraction htail hfirst hexponent =>
    have hpoint : ∀ c ∈ ('.' :: (fraction ++ tail)).head?, Text.isDigit c = false := by
      intro c hc
      cases hc
      decide
    obtain ⟨hwhole₁, hwhole₂⟩ := takeWhile_digits hwhole.2 hpoint
    obtain ⟨hfraction₁, hfraction₂⟩ := takeWhile_digits hfraction.2 hfirst
    have hwidth := digitsValue_lt (whole ++ fraction)
    unfold floatOfWord?
    rw [splitSign_of_isNumeral hwhole]
    dsimp only
    rw [hwhole₁, hwhole₂]
    simp only [hfraction₁, hfraction₂, hexponent, List.isEmpty_eq_false_iff.2 hwhole.1,
      List.isEmpty_eq_false_iff.2 hfraction.1, Bool.or_false, Bool.false_eq_true, if_false, Option.map_some]
    exact congrArg some (Double.ofDecimal_eq hdouble hwidth hr negative)

/-- A character that is no digit and no sign makes a word no integer. -/
theorem intOfWord?_eq_none {word : List Char} {c : Char} (hc : c ∈ word) (hdigit : Text.isDigit c = false)
    (hminus : c ≠ '-') (hplus : c ≠ '+') : intOfWord? word = none := by
  have hmem : c ∈ (splitSign word).2 := by
    unfold splitSign
    split
    · exact (List.mem_cons.1 hc).resolve_left hminus
    · exact (List.mem_cons.1 hc).resolve_left hplus
    · exact hc
  have hall : (splitSign word).2.all Text.isDigit = false :=
    List.all_eq_false.2 ⟨c, hmem, by simp [hdigit]⟩
  simp [intOfWord?, hall]

/-- Without a point, a word is an integer or an atom. -/
theorem ofWord_of_pointless {word : List Char} (hpoint : '.' ∉ word) (hint : intOfWord? word = none) :
    Lexeme.ofWord word = .ok (.atom (String.ofList word)) := by
  have hfloat : floatOfWord? word = none := by
    have hsign : '.' ∉ (splitSign word).2 := by
      unfold splitSign
      split
      · exact fun hmem => hpoint (List.mem_cons_of_mem _ hmem)
      · exact fun hmem => hpoint (List.mem_cons_of_mem _ hmem)
      · exact hpoint
    unfold floatOfWord?
    dsimp only
    split
    · rename_i hrest
      have hmem : '.' ∈ (splitSign word).2.dropWhile Text.isDigit := by
        rw [hrest]
        exact List.mem_cons_self
      exact absurd ((List.dropWhile_sublist _).subset hmem) hsign
    · rfl
  have hvariable : variableOfWord? word = none := by
    unfold variableOfWord?
    split
    · exact absurd List.mem_cons_self hpoint
    · rfl
  rw [Lexeme.ofWord, hint, hfloat, hvariable]

theorem IsDecimal.isWord {word : List Char} {r : ℚ} (h : IsDecimal word r) : isWord word = true := by
  cases h with
  | @mk whole fraction tail exponent hwhole hfraction htail =>
    refine isWord_iff.2 ⟨List.append_ne_nil_of_left_ne_nil hwhole.1 _, fun c hc => ?_⟩
    simp only [List.mem_append, List.mem_cons] at hc
    rcases hc with hc | rfl | hc | hc
    · exact not_isDelimiter_of_isDigit (hwhole.2 c hc)
    · rfl
    · exact not_isDelimiter_of_isDigit (hfraction.2 c hc)
    · exact htail c hc

theorem IsDecimal.point_mem {word : List Char} {r : ℚ} (h : IsDecimal word r) : '.' ∈ word := by
  cases h
  simp

theorem isWord_minus {word : List Char} (h : isWord word = true) (negative : Bool) :
    isWord ((if negative then ['-'] else []) ++ word) = true := by
  cases negative with
  | false => exact h
  | true =>
    have hword := isWord_iff.1 h
    exact isWord_iff.2 ⟨List.cons_ne_nil _ _, List.forall_mem_cons.2 ⟨rfl, hword.2⟩⟩

/-! ## Doubles -/

namespace Double

/-- The digits of a decimal are laid out with a point, or there is only one and it has an exponent. -/
theorem Decimal.write_cases {d : Decimal} (hd : 0 < d.digits) :
    IsDecimal (d.write layout) d.toRat ∨
      ∃ digit exponent, digit.isDigit = true ∧ d.write layout = digit :: writtenExponent exponent := by
  have hvalue := digitsValue_toDigits d.digits
  have hstripped := digitsValue_stripZeros (isDigit_toDigits d.digits)
  have hnumeral := (isNumeral_toDigits d.digits).stripZeros (hvalue.symm ▸ hd)
  rw [hvalue] at hstripped
  have hrat : (Text.digitsValue (stripZeros (Nat.toDigits 10 d.digits)) : ℚ) *
      10 ^ ((Nat.toDigits 10 d.digits).length - 1 + d.exponent + 1 - (stripZeros (Nat.toDigits 10 d.digits)).length) =
        d.toRat := by
    rw [Decimal.toRat, ← hstripped, mul_assoc, ← zpow_add₀ (by norm_num)]
    congr 2
    omega
  unfold Decimal.write
  dsimp only
  split
  · exact .inl ((isDecimal_positional hnumeral _).of_eq hrat)
  cases hdigits : stripZeros (Nat.toDigits 10 d.digits) with
  | nil => exact absurd hdigits hnumeral.1
  | cons digit rest =>
    rw [hdigits] at hnumeral hrat
    cases rest with
    | nil => exact .inr ⟨digit, _, hnumeral.2 digit List.mem_cons_self, scientific_single digit _⟩
    | cons second rest => exact .inl ((isDecimal_scientific hnumeral _).of_eq hrat)

/-- Is the double written with a point? -/
def hasPoint (x : Float) : Bool :=
  (write layout x).toList.contains '.'

/-- What the text of a double is read as. -/
def lexeme (x : Float) : Lexeme :=
  if hasPoint x then .number (.float x) else .atom (write layout x)

theorem isWordOf_of_point {x : Float} {word : List Char} (h : (write layout x).toList = word)
    (hword : isWord word = true) (hpoint : '.' ∈ word) (hfloat : floatOfWord? word = some x) :
    IsWordOf (lexeme x) word := by
  have hint : intOfWord? word = none := intOfWord?_eq_none hpoint (by decide) (by decide) (by decide)
  have hlexeme : lexeme x = .number (.float x) := if_pos (by simpa [hasPoint, h] using hpoint)
  rw [hlexeme]
  refine ⟨hword, ?_, nofun⟩
  rw [Lexeme.ofWord, hint, hfloat]

theorem isWordOf_of_pointless {x : Float} {word : List Char} (h : (write layout x).toList = word)
    (hword : isWord word = true) (hpoint : '.' ∉ word) {c : Char} (hc : c ∈ word) (hdigit : Text.isDigit c = false)
    (hminus : c ≠ '-') (hplus : c ≠ '+') : IsWordOf (lexeme x) word := by
  have hlexeme : lexeme x = .atom (String.ofList word) := by
    rw [← h, String.ofList_toList]
    exact if_neg (by simpa [hasPoint, h] using hpoint)
  rw [hlexeme]
  exact ⟨hword, ofWord_of_pointless hpoint (intOfWord?_eq_none hc hdigit hminus hplus), nofun⟩

theorem toList_signed (negative : Bool) (s : String) :
    (if negative then "-" ++ s else s).toList = (if negative then ['-'] else []) ++ s.toList := by
  cases negative with
  | true => exact String.toList_append
  | false => rfl

/-- The text of a number is a word. It is read as the number if it has a point, and as an atom otherwise. -/
theorem isWordOf_write {x : Float} (h : IsNumber x) : IsWordOf (lexeme x) (write layout x).toList := by
  cases hview : view x with
  | nan => exact absurd hview h
  | infinite negative =>
    have hlist : (write layout x).toList = (if negative then ['-'] else []) ++ layout.infinity.toList := by
      rw [write, hview]
      exact toList_signed negative _
    rw [hlist]
    refine isWordOf_of_pointless hlist (isWord_minus (by decide) negative) ?_
      (List.mem_append_right _ (show 'i' ∈ _ by decide)) (by decide) (by decide) (by decide)
    cases negative <;> decide
  | finite negative m q =>
    obtain ⟨hx, hdouble, hzero⟩ := of_view_finite hview
    rcases Nat.eq_zero_or_pos m with rfl | hpos
    · have hlist : (write layout x).toList = (if negative then ['-'] else []) ++ "0.0".toList := by
        rw [write, hview]
        exact toList_signed negative _
      rw [hlist]
      refine isWordOf_of_point hlist (isWord_minus (by decide) negative) (List.mem_append_right _ (by decide)) ?_
      rw [hx, hzero rfl]
      cases negative <;> rfl
    have hdouble := hdouble hpos
    have hcontains := contains_shortest hdouble
    have hlist : (write layout x).toList = (if negative then ['-'] else []) ++ (shortest m q).write layout := by
      obtain ⟨m, rfl⟩ := Nat.exists_eq_add_of_lt hpos
      rw [write, hview]
      exact (toList_signed negative _).trans (congrArg _ String.toList_ofList)
    rw [hlist]
    rcases Decimal.write_cases (Decimal.digits_pos (hcontains.pos hdouble)) with
      hdecimal | ⟨digit, exponent, hdigit, hsingle⟩
    · refine isWordOf_of_point hlist (isWord_minus hdecimal.isWord negative)
        (List.mem_append_right _ hdecimal.point_mem) ?_
      rw [floatOfWord?_of_isDecimal hdecimal hdouble hcontains negative, ← hx]
    · rw [hsingle] at hlist ⊢
      have hword : isWord (digit :: writtenExponent exponent) = true :=
        isWord_iff.2 ⟨List.cons_ne_nil _ _, List.forall_mem_cons.2
          ⟨not_isDelimiter_of_isDigit hdigit, not_isDelimiter_writtenExponent exponent⟩⟩
      have hpoint : '.' ∉ (if negative then ['-'] else []) ++ digit :: writtenExponent exponent := by
        have hdigit' : '.' ≠ digit := by
          rintro rfl
          cases hdigit
        cases negative <;> simp [hdigit', point_notMem_writtenExponent]
      have hexponent : 'e' ∈ (if negative then ['-'] else []) ++ digit :: writtenExponent exponent :=
        List.mem_append_right _ (List.mem_cons_of_mem _ List.mem_cons_self)
      exact isWordOf_of_pointless hlist (isWord_minus hword negative) hpoint hexponent (by decide) (by decide)
        (by decide)

end Double

end MacroLang
