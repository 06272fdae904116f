import MacroLang.Proofs.Tree.Shape
import MacroLang.Source.Reader

/-!
# The tokens of written trees

The text of a value is scanned into the tokens that the value is written with (`Value.lexemes`), whatever text comes
behind it, as long as that ends a word (`Value.spells_render`). It takes names that are words of the right kind and
integers that are not too long (`Value.isLegible`, `Value.isWritable`).

The scanner reads one character at a time and closes a word only at the character behind it. `Spells` says what it makes
of a piece of text in front of a given rest, so pieces can be put together (`Spells.append`).
-/

namespace MacroLang

/-! ## Words -/

/-- At least one character, and none that ends a word. -/
def isWord (cs : List Char) : Bool :=
  !cs.isEmpty && cs.all fun c => !isDelimiter c

/-- A word that is read as an atom. -/
def isAtomWord (name : String) : Bool :=
  isWord name.toList && Lexeme.ofWord name.toList matches .ok (.atom _)

/-- A letter or an underscore, and then no delimiters and no dots. -/
def isVariableName (name : String) : Bool :=
  (name.toList.head?.any fun c => Text.isLetter c || c == '_') &&
    name.toList.all fun c => !isDelimiter c && c != '.'

theorem isWord_iff {cs : List Char} : isWord cs = true ↔ cs ≠ [] ∧ ∀ c ∈ cs, isDelimiter c = false := by
  simp [isWord]

/-- An atom is named by all of its word. -/
theorem eq_of_ofWord_atom {word : List Char} {name : String} (h : Lexeme.ofWord word = .ok (.atom name)) :
    name = String.ofList word := by
  unfold Lexeme.ofWord at h
  split at h
  · cases h
  · cases h
  · split at h <;> cases h
  · cases h
    rfl

theorem ofWord_of_isAtomWord {name : String} (h : isAtomWord name = true) :
    Lexeme.ofWord name.toList = .ok (.atom name) := by
  have hatom := (Bool.and_eq_true_iff.1 h).2
  split at hatom
  · rename_i hword
    rw [hword, eq_of_ofWord_atom hword, String.ofList_toList]
  · cases hatom

theorem ofWord_variable {name : String} (h : isVariableName name = true) :
    Lexeme.ofWord ('.' :: name.toList) = .ok (.var name) := by
  rw [isVariableName, Bool.and_eq_true] at h
  obtain ⟨hfirst, hall⟩ := h
  cases hname : name.toList with
  | nil => rw [hname] at hfirst; cases hfirst
  | cons c cs =>
    have hdots : (c :: cs).contains '.' = false := by
      simp only [hname, List.all_eq_true, Bool.and_eq_true, bne_iff_ne] at hall
      simpa using fun hdot => (hall '.' hdot).2 rfl
    have hint : intOfWord? ('.' :: c :: cs) = none := by
      have hdot : Text.isDigit '.' = false := by decide
      simp [intOfWord?, splitSign, hdot]
    have hfloat : floatOfWord? ('.' :: c :: cs) = none := by
      have hdot : Text.isDigit '.' = false := by decide
      simp [floatOfWord?, splitSign, hdot]
    have hvariable : variableOfWord? ('.' :: c :: cs) = some (c :: cs) := by
      rw [hname] at hfirst
      exact if_pos hfirst
    rw [Lexeme.ofWord, hint, hfloat, hvariable]
    simp only [hdots, Bool.false_eq_true, if_false]
    rw [← hname, String.ofList_toList]

/-! ### Integers -/

theorem digitValue?_of_isDigit {c : Char} (h : c.isDigit = true) : Text.digitValue? c = some (c.toNat - 48) := by
  have hrange : 48 ≤ c.toNat ∧ c.toNat < 48 + 10 := by
    simp only [Char.isDigit, Bool.and_eq_true, decide_eq_true_eq] at h
    exact ⟨h.1, Nat.lt_succ_of_le h.2⟩
  simp [Text.digitValue?, Text.digitZeros, hrange]

theorem isDigit_of_isDigit {c : Char} (h : c.isDigit = true) : Text.isDigit c = true := by
  rw [Text.isDigit, digitValue?_of_isDigit h]
  rfl

theorem digitsValue_eq_ofDigitChars {cs : List Char} (h : ∀ c ∈ cs, c.isDigit = true) :
    Text.digitsValue cs = Nat.ofDigitChars 10 cs 0 := by
  suffices h : ∀ n, cs.foldl (fun n c => 10 * n + (Text.digitValue? c).getD 0) n = Nat.ofDigitChars 10 cs n from h 0
  induction cs with
  | nil => exact fun _ => rfl
  | cons c cs ih =>
    intro n
    rw [List.foldl_cons, Nat.ofDigitChars_cons, digitValue?_of_isDigit (h c List.mem_cons_self)]
    exact ih (fun c hc => h c (List.mem_cons_of_mem _ hc)) _

theorem isDigit_toDigits (n : Nat) : ∀ c ∈ Nat.toDigits 10 n, c.isDigit = true :=
  fun _ => Nat.isDigit_of_mem_toDigits (by decide) (by decide)

theorem not_isDelimiter_of_isDigit {c : Char} (h : c.isDigit = true) : isDelimiter c = false := by
  rw [Bool.eq_false_iff]
  intro hdelimiter
  simp only [isDelimiter, isBlank, Bool.or_eq_true, beq_iff_eq, or_assoc] at hdelimiter
  rcases hdelimiter with rfl | rfl | rfl | rfl | rfl | rfl | rfl | rfl | rfl | rfl | rfl | rfl | rfl | rfl | rfl <;>
    cases h

/-- What is written of an integer: the digits of its size, behind a minus if it is negative. -/
theorem toList_toString_int (n : Int) :
    (toString n).toList = (if n < 0 then ['-'] else []) ++ Nat.toDigits 10 n.natAbs := by
  rw [Int.toString_eq_repr, Int.repr_eq_if]
  by_cases h : n < 0
  · have hsize : (-n).toNat = n.natAbs := by omega
    rw [if_neg (by omega), if_pos h, hsize, Nat.repr_eq_ofList_toDigits]
    simp
  · have hsize : n.toNat = n.natAbs := by omega
    rw [if_pos (by omega), if_neg h, hsize, Nat.repr_eq_ofList_toDigits]
    simp

theorem splitSign_toDigits (n : Nat) : splitSign (Nat.toDigits 10 n) = (false, Nat.toDigits 10 n) := by
  have hdigits := isDigit_toDigits n
  unfold splitSign
  split
  · rename_i hchars
    rw [hchars] at hdigits
    cases hdigits '-' List.mem_cons_self
  · rename_i hchars
    rw [hchars] at hdigits
    cases hdigits '+' List.mem_cons_self
  · rfl

theorem splitSign_toString (n : Int) : splitSign (toString n).toList = (decide (n < 0), Nat.toDigits 10 n.natAbs) := by
  rw [toList_toString_int]
  by_cases h : n < 0
  · rw [if_pos h, decide_eq_true h]
    rfl
  · rw [if_neg h, decide_eq_false h]
    exact splitSign_toDigits n.natAbs

theorem isWord_toString (n : Int) : isWord (toString n).toList = true := by
  rw [isWord_iff, toList_toString_int]
  refine ⟨List.append_ne_nil_of_right_ne_nil _ Nat.toDigits_ne_nil, fun c hc => ?_⟩
  rcases List.mem_append.1 hc with hsign | hdigit
  · split at hsign
    · cases List.mem_singleton.1 hsign
      rfl
    · cases hsign
  · exact not_isDelimiter_of_isDigit (isDigit_toDigits _ c hdigit)

theorem intOfWord?_toString (n : Int) : intOfWord? (toString n).toList = some n := by
  have hdigits := isDigit_toDigits n.natAbs
  have hall : (Nat.toDigits 10 n.natAbs).all Text.isDigit = true :=
    List.all_eq_true.2 fun c hc => isDigit_of_isDigit (hdigits c hc)
  have hempty : (Nat.toDigits 10 n.natAbs).isEmpty = false := List.isEmpty_eq_false_iff.2 Nat.toDigits_ne_nil
  simp only [intOfWord?, splitSign_toString, hall, hempty, digitsValue_eq_ofDigitChars hdigits,
    Nat.ofDigitChars_ten_toDigits, Bool.not_true, Bool.false_or, Bool.false_eq_true, if_false, decide_eq_true_eq,
    Option.some.injEq]
  split
  · omega
  · omega

theorem ofWord_toString (n : Int) : Lexeme.ofWord (toString n).toList = .ok (.number (.int n)) := by
  rw [Lexeme.ofWord, intOfWord?_toString]

/-! ### Texts -/

/-- What stands between the quotes of a text, and the characters that it stands for. -/
inductive Unescapes : List Char → List Char → Prop
  | nil : Unescapes [] []
  | plain {c : Char} {raw s : List Char} : c ≠ '\"' → c ≠ '\\' → Unescapes raw s → Unescapes (c :: raw) (c :: s)
  | escaped (c : Char) {raw s : List Char} : Unescapes raw s → Unescapes ('\\' :: c :: raw) (unescape c :: s)

theorem unescapes_escapeText (s : String) : Unescapes (Value.escapeText s).toList s.toList := by
  rw [Value.escapeText, String.toList_ofList]
  induction s.toList with
  | nil => exact .nil
  | cons c cs ih =>
    rw [List.flatMap_cons]
    split
    · rename_i hc
      rcases hc with rfl | rfl
      · exact .escaped _ ih
      · exact .escaped _ ih
    · rename_i hc
      exact .plain (fun h => hc (.inr h)) (fun h => hc (.inl h)) ih

/-! ## Pieces of text -/

/-- The word is read as the lexeme. An integer has to be short enough. -/
structure IsWordOf (l : Lexeme) (word : List Char) : Prop where
  isWord : isWord word = true
  ofWord : Lexeme.ofWord word = .ok l
  short : ∀ n, l = .number (.int n) → (splitSign word).2.length ≤ Number.maxDigits

/-- The text is one that the lexeme can be written with. -/
def Lexeme.SpelledBy (written : List Char) : Lexeme → Prop
  | .langle => written = ['<']
  | .rangle => written = ['>']
  | .lparen => written = ['(']
  | .rparen => written = [')']
  | .lbracket => written = ['[']
  | .rbracket => written = [']']
  | .sign .quote => written = ['\x60']
  | .sign .unquote => written = ['~']
  | .sign .splice => written = ['~', '!']
  | .text s => ∃ raw, written = '\"' :: (raw ++ ['\"']) ∧ Unescapes raw s.toList
  | .atom name => IsWordOf (.atom name) written
  | .number n => IsWordOf (.number n) written
  | .var name => IsWordOf (.var name) written

/-- The next character, if there is one, ends a word. -/
def endsWord (rest : List Char) : Bool :=
  rest.head?.all isDelimiter

/-- The lexeme ends where the rest begins: a word goes on up to a delimiter, and `~` is not the beginning of `~!`. -/
def Lexeme.EndsBefore (rest : List Char) : Lexeme → Prop
  | .atom _ | .number _ | .var _ => endsWord rest = true
  | .sign .unquote => rest.head? ≠ some '!'
  | _ => True

/-- In front of the rest, the text comes to tokens with these lexemes, and none of them is left open. -/
def Spells (file : String) (text : List Char) (ls : List Lexeme) (rest : List Char) : Prop :=
  ∀ found p, ∃ (ts : List Token) (p' : Position), ts.map Token.lexeme = ls ∧
    Tokens.scanFrom file found .between p (text ++ rest) = Tokens.scanFrom file (ts.reverse ++ found) .between p' rest

theorem wordToken_eq_ok {file : String} {start stop : Position} {chars : List Char} {t : Token} :
    wordToken file start chars stop = .ok t ↔ t.position = start ∧ Lexeme.ofWord chars.reverse = .ok t.lexeme ∧
      ∀ n, t.lexeme = .number (.int n) → (splitSign chars.reverse).2.length ≤ Number.maxDigits := by
  obtain ⟨l, p⟩ := t
  unfold wordToken
  split
  · rename_i n hword
    rw [hword]
    dsimp only
    split
    · rename_i hshort
      simp [hshort, eq_comm, and_comm]
    · rename_i hlong
      constructor
      · intro h
        cases h
      · rintro ⟨-, hl, hshort⟩
        cases hl
        exact absurd (hshort n rfl) hlong
  · rename_i l' hint hword
    rw [hword]
    constructor
    · intro h
      cases h
      exact ⟨rfl, rfl, fun n hn => absurd hn (hint n)⟩
    · rintro ⟨rfl, hl, -⟩
      cases hl
      rfl
  · rename_i cause hword
    rw [hword]
    constructor
    · intro h
      cases h
    · rintro ⟨-, hl, -⟩
      cases hl

theorem IsWordOf.wordToken {l : Lexeme} {word : List Char} (h : IsWordOf l word) (file : String)
    (start stop : Position) : wordToken file start word.reverse stop = .ok ⟨l, start⟩ := by
  rw [wordToken_eq_ok, List.reverse_reverse]
  exact ⟨rfl, h.ofWord, h.short⟩

theorem length_toDigits_le {n k : Nat} (hk : 0 < k) : (Nat.toDigits 10 n).length ≤ k ↔ n < Double.tenTo k := by
  rw [Nat.length_toDigits_le_iff (by decide) hk, Double.tenTo, Nat.pow_eq]

theorem isWordOf_toString {n : Int} (h : (Number.int n).isWritable = true) :
    IsWordOf (.number (.int n)) (toString n).toList := by
  refine ⟨isWord_toString n, ofWord_toString n, fun _ _ => ?_⟩
  rw [Number.isWritable, decide_eq_true_eq] at h
  rw [splitSign_toString]
  exact (length_toDigits_le (by decide)).2 h

section

variable {file : String} {rest : List Char} {found : List Token} {start p : Position} {chars : List Char}

theorem scanFrom_cons {mode mode' : Mode} {c : Char} {ts : List Token} (h : mode.step file p c = .ok (ts, mode')) :
    Tokens.scanFrom file found mode p (c :: rest) =
      Tokens.scanFrom file (ts.reverse ++ found) mode' (p.step c) rest := by
  rw [Tokens.scanFrom, h]
  rfl

theorem begin_of_not_isDelimiter {c : Char} (h : isDelimiter c = false) : Mode.begin p c = ([], .word p [c]) := by
  simp only [isDelimiter, Bool.or_eq_false_iff, beq_eq_false_iff_ne] at h
  unfold Mode.begin
  split
  · simp_all
  · split <;> simp_all

/-- A word goes on until it is ended. -/
theorem scanFrom_word {word : List Char} (h : ∀ c ∈ word, isDelimiter c = false) (chars : List Char) (p : Position) :
    Tokens.scanFrom file found (.word start chars) p (word ++ rest) =
      Tokens.scanFrom file found (.word start (word.reverse ++ chars)) (p.steps word) rest := by
  induction word generalizing chars p with
  | nil => rfl
  | cons c word ih =>
    have hstep : Mode.step file p c (.word start chars) = .ok ([], .word start (c :: chars)) := by
      rw [Mode.step, h c List.mem_cons_self]
      rfl
    have hword := ih (fun c hc => h c (List.mem_cons_of_mem _ hc)) (c :: chars) (p.step c)
    rw [List.cons_append, scanFrom_cons hstep, List.reverse_cons, List.append_assoc]
    exact hword

/-- The token of a word comes up with the character behind it or with the end of the text. -/
theorem scanFrom_endWord {t : Token} (hrest : endsWord rest = true) (ht : wordToken file start chars p = .ok t) :
    Tokens.scanFrom file found (.word start chars) p rest = Tokens.scanFrom file (t :: found) .between p rest := by
  cases rest with
  | nil =>
    have hfinish : Mode.finish file p (.word start chars) = .ok [t] := by
      simp only [Mode.finish, ht]
      rfl
    rw [Tokens.scanFrom, Tokens.scanFrom, hfinish]
    simp [Mode.finish, bind, Except.bind]
  | cons c rest =>
    have hc : isDelimiter c = true := hrest
    have hstep : Mode.step file p c (.word start chars) = .ok (t :: (Mode.begin p c).1, (Mode.begin p c).2) := by
      rw [Mode.step, if_pos hc, ht]
      rfl
    have hbetween : Mode.step file p c .between = .ok ((Mode.begin p c).1, (Mode.begin p c).2) := rfl
    rw [scanFrom_cons hstep, scanFrom_cons hbetween, List.reverse_cons, List.append_assoc]
    rfl

/-- A text goes on until its closing quote. -/
theorem scanFrom_text {raw s : List Char} (h : Unescapes raw s) (chars : List Char) (p : Position) :
    Tokens.scanFrom file found (.text start chars) p (raw ++ '\"' :: rest) =
      Tokens.scanFrom file (⟨.text (String.ofList (chars.reverse ++ s)), start⟩ :: found) .between
        (p.steps (raw ++ ['\"'])) rest := by
  induction h generalizing chars p with
  | nil =>
    have hclose : Mode.step file p '\"' (.text start chars) =
        .ok ([⟨.text (String.ofList chars.reverse), start⟩], .between) := rfl
    rw [List.append_nil]
    exact scanFrom_cons hclose
  | @plain c raw s hquote hmark _ ih =>
    have htext := ih (c :: chars) (p.step c)
    have hplain : Mode.step file p c (.text start chars) = .ok ([], .text start (c :: chars)) := by
      simp [Mode.step, hquote, hmark]
    rw [List.reverse_cons, List.append_assoc] at htext
    exact (scanFrom_cons hplain).trans htext
  | @escaped c raw s _ ih =>
    have htext := ih (unescape c :: chars) ((p.step '\\').step c)
    have hmark : Mode.step file p '\\' (.text start chars) = .ok ([], .escape start chars) := rfl
    have hescape : Mode.step file (p.step '\\') c (.escape start chars) =
        .ok ([], .text start (unescape c :: chars)) := rfl
    rw [List.reverse_cons, List.append_assoc] at htext
    exact (scanFrom_cons hmark).trans ((scanFrom_cons hescape).trans htext)

/-- A mark of one character. -/
theorem scanFrom_mark {c : Char} {l : Lexeme} (h : ∀ p, Mode.begin p c = ([⟨l, p⟩], .between)) :
    Tokens.scanFrom file found .between p ([c] ++ rest) =
      Tokens.scanFrom file (⟨l, p⟩ :: found) .between (p.steps [c]) rest := by
  have hstep : Mode.step file p c .between = .ok ([⟨l, p⟩], .between) := by rw [Mode.step, h p]
  exact scanFrom_cons hstep

/-- `~` comes up with the character behind it or with the end of the text. -/
theorem scanFrom_endTilde (hrest : rest.head? ≠ some '!') :
    Tokens.scanFrom file found (.tilde start) p rest =
      Tokens.scanFrom file (⟨.sign .unquote, start⟩ :: found) .between p rest := by
  cases rest with
  | nil => simp [Tokens.scanFrom, Mode.finish, bind, Except.bind]
  | cons c rest =>
    have hc : c ≠ '!' := fun h => hrest (congrArg some h)
    have hstep : Mode.step file p c (.tilde start) =
        .ok (⟨.sign .unquote, start⟩ :: (Mode.begin p c).1, (Mode.begin p c).2) := by
      simp [Mode.step, hc]
    have hbetween : Mode.step file p c .between = .ok ((Mode.begin p c).1, (Mode.begin p c).2) := rfl
    rw [scanFrom_cons hstep, scanFrom_cons hbetween, List.reverse_cons, List.append_assoc]
    rfl

theorem scanFrom_isWordOf {l : Lexeme} {word : List Char} (h : IsWordOf l word) (hrest : endsWord rest = true) :
    Tokens.scanFrom file found .between p (word ++ rest) =
      Tokens.scanFrom file (⟨l, p⟩ :: found) .between (p.steps word) rest := by
  obtain ⟨hne, hall⟩ := isWord_iff.1 h.isWord
  cases word with
  | nil => exact absurd rfl hne
  | cons c cs =>
    obtain ⟨hc, hcs⟩ := List.forall_mem_cons.1 hall
    have hstep : Mode.step file p c .between = .ok ([], .word p [c]) := by
      rw [Mode.step, begin_of_not_isDelimiter hc]
    have htoken := h.wordToken file p ((p.step c).steps cs)
    rw [List.reverse_cons] at htoken
    rw [List.cons_append, scanFrom_cons hstep]
    exact (scanFrom_word hcs [c] (p.step c)).trans (scanFrom_endWord hrest htoken)

/-- Where it ends in front of the rest, a text is scanned into the lexeme that it spells. -/
theorem scanFrom_spelled {l : Lexeme} {written : List Char} (h : l.SpelledBy written) (hrest : l.EndsBefore rest) :
    Tokens.scanFrom file found .between p (written ++ rest) =
      Tokens.scanFrom file (⟨l, p⟩ :: found) .between (p.steps written) rest := by
  cases l with
  | text s =>
    obtain ⟨raw, rfl, hraw⟩ := h
    have hopen : Mode.step file p '\"' .between = .ok ([], .text p []) := rfl
    have htext := @scanFrom_text file rest found p raw _ hraw [] (p.step '\"')
    rw [List.reverse_nil, List.nil_append, String.ofList_toList] at htext
    rw [List.cons_append, List.append_assoc, scanFrom_cons hopen]
    exact htext
  | sign sign =>
    have htilde : Mode.step file p '~' .between = .ok ([], .tilde p) := rfl
    cases sign with
    | quote =>
      cases h
      exact scanFrom_mark fun _ => rfl
    | unquote =>
      cases h
      exact (scanFrom_cons htilde).trans (scanFrom_endTilde hrest)
    | splice =>
      cases h
      have hstep : Mode.step file (p.step '~') '!' (.tilde p) = .ok ([⟨.sign .splice, p⟩], .between) := rfl
      exact (scanFrom_cons htilde).trans (scanFrom_cons hstep)
  | atom name => exact scanFrom_isWordOf h hrest
  | number n => exact scanFrom_isWordOf h hrest
  | var name => exact scanFrom_isWordOf h hrest
  | langle => cases h; exact scanFrom_mark fun _ => rfl
  | rangle => cases h; exact scanFrom_mark fun _ => rfl
  | lparen => cases h; exact scanFrom_mark fun _ => rfl
  | rparen => cases h; exact scanFrom_mark fun _ => rfl
  | lbracket => cases h; exact scanFrom_mark fun _ => rfl
  | rbracket => cases h; exact scanFrom_mark fun _ => rfl

end

namespace Spells

variable {file : String} {rest : List Char}

theorem nil : Spells file [] [] rest :=
  fun _ p => ⟨[], p, rfl, rfl⟩

theorem append {s t : List Char} {ls ms : List Lexeme} (h : Spells file s ls (t ++ rest)) (h' : Spells file t ms rest) :
    Spells file (s ++ t) (ls ++ ms) rest := by
  intro found p
  obtain ⟨ts, p₁, hts, hs⟩ := h found p
  obtain ⟨us, p₂, hus, ht⟩ := h' (ts.reverse ++ found) p₁
  refine ⟨ts ++ us, p₂, by rw [List.map_append, hts, hus], ?_⟩
  rw [List.append_assoc, hs, ht, List.reverse_append, List.append_assoc]

/-- A bracket or a blank. -/
theorem single {c : Char} {ls : List Lexeme} (h : ∀ p, Mode.begin p c = (ls.map fun l => ⟨l, p⟩, .between)) :
    Spells file [c] ls rest := by
  intro found p
  refine ⟨ls.map fun l => ⟨l, p⟩, p.step c, by simp [Function.comp_def], ?_⟩
  exact scanFrom_cons (by rw [Mode.step, h p])

theorem spelled {l : Lexeme} {written : List Char} (h : l.SpelledBy written) (hrest : l.EndsBefore rest) :
    Spells file written [l] rest :=
  fun _ p => ⟨[⟨l, p⟩], p.steps written, rfl, scanFrom_spelled h hrest⟩

theorem text (s : String) : Spells file ("\"" ++ Value.escapeText s ++ "\"").toList [.text s] rest := by
  refine spelled (l := .text s) ⟨(Value.escapeText s).toList, ?_, unescapes_escapeText s⟩ trivial
  rw [String.toList_append, String.toList_append]
  rfl

theorem atom {name : String} (h : isAtomWord name = true) (hrest : endsWord rest = true) :
    Spells file name.toList [.atom name] rest :=
  spelled (l := .atom name) ⟨(Bool.and_eq_true_iff.1 h).1, ofWord_of_isAtomWord h, nofun⟩ hrest

theorem var {name : String} (h : isVariableName name = true) (hrest : endsWord rest = true) :
    Spells file ("." ++ name).toList [.var name] rest := by
  rw [String.toList_append]
  refine spelled (l := .var name) ⟨isWord_iff.2 ⟨by simp, fun c hc => ?_⟩, ofWord_variable h, nofun⟩ hrest
  rcases List.mem_cons.1 hc with rfl | hc
  · rfl
  · have hall := List.all_eq_true.1 (Bool.and_eq_true_iff.1 h).2 c hc
    simpa using (Bool.and_eq_true_iff.1 hall).1

theorem int {n : Int} (h : (Number.int n).isWritable = true) (hrest : endsWord rest = true) :
    Spells file (toString n).toList [.number (.int n)] rest :=
  spelled (l := .number (.int n)) (isWordOf_toString h) hrest

/-- A whole text. -/
theorem scan {s : String} {ls : List Lexeme} (h : Spells file s.toList ls []) :
    ∃ (ts : List Token) (stop : Position), ts.map Token.lexeme = ls ∧ Tokens.scan file s = .ok ⟨ts, stop⟩ := by
  obtain ⟨ts, stop, hts, hscan⟩ := h [] .start
  refine ⟨ts, stop, hts, ?_⟩
  rw [List.append_nil] at hscan
  rw [Tokens.scan, hscan]
  simp [Tokens.scanFrom, Mode.finish, bind, Except.bind, pure, Except.pure]

/-- A text between brackets. -/
theorem enclosed {c d : Char} {l m : Lexeme} {text : List Char} {ls : List Lexeme}
    (hc : ∀ p, Mode.begin p c = ([⟨l, p⟩], .between)) (hd : ∀ p, Mode.begin p d = ([⟨m, p⟩], .between))
    (h : Spells file text ls (d :: rest)) : Spells file (c :: text ++ [d]) (l :: ls ++ [m]) rest := by
  have hclose : Spells file [d] [m] rest := single hd
  have hopen : Spells file [c] [l] (text ++ [d] ++ rest) := single hc
  exact hopen.append (h.append hclose)

end Spells

/-! ## Values -/

/-- A name that stands for itself at the head of a form. -/
def isPlainHead (name : String) : Bool :=
  isAtomWord name && headOfName "" .start name matches .ok (.text _)

/-- A module and a function that can be told apart again when a dot is put between them. -/
def isRemoteHead (module function : String) : Bool :=
  let name := module ++ "." ++ function
  isAtomWord name && !(name.toList.splitOn '.').contains [] && !function.toList.contains '.'

namespace Value

mutual

/-- Is the value a tree without floats that is written in words of the right kinds? -/
def isLegible : Value → Bool
  | call name args _ => isPlainHead name && areLegible args
  | apply head args _ =>
    (match head.remote? with
      | some (module, function) => isRemoteHead module function
      | none => head.isNode && isLegible head) && areLegible args
  | var name _ _ => isVariableName name
  | atom name => isAtomWord name
  | number (.int _) | text _ => true
  | list items => areLegible items
  | tuple items => items.length == 2 && areLegible items
  | _ => false

def areLegible : List Value → Bool
  | [] => true
  | v :: vs => isLegible v && areLegible vs

end

mutual

/-- What a value is written with. -/
def lexemes : Value → List Lexeme
  | call name args _ => .langle :: (.atom name :: lexemesAll args) ++ [.rangle]
  | apply head args _ =>
    .langle :: ((match head.remote? with
      | some (module, function) => [.atom (module ++ "." ++ function)]
      | none => lexemes head) ++ lexemesAll args) ++ [.rangle]
  | var name _ _ => [.var name]
  | atom name => [.atom name]
  | number n => [.number n]
  | text s => [.text s]
  | list items => .lparen :: lexemesAll items ++ [.rparen]
  | tuple items => .lbracket :: lexemesAll items ++ [.rbracket]
  | _ => []

def lexemesAll : List Value → List Lexeme
  | [] => []
  | v :: vs => lexemes v ++ lexemesAll vs

end

theorem areLegible_iff {vs : List Value} : areLegible vs = true ↔ ∀ v ∈ vs, v.isLegible = true := by
  induction vs with
  | nil => simp [areLegible]
  | cons v vs ih => rw [areLegible, Bool.and_eq_true, ih, List.forall_mem_cons]

theorem lexemesAll_eq_flatMap (vs : List Value) : lexemesAll vs = vs.flatMap lexemes := by
  induction vs with
  | nil => rfl
  | cons v vs ih => rw [lexemesAll, ih, List.flatMap_cons]

/-- The text can be scanned in front of everything that ends a word. -/
def Scans (file : String) (v : Value) : Prop :=
  ∀ rest, endsWord rest = true → Spells file (v.render false).toList v.lexemes rest

section

variable {file : String} {rest : List Char} {sep : String} {blank : Char}

theorem toList_intercalate (hsep : sep.toList = [blank]) (s : String) (ss : List String) :
    (sep.intercalate (s :: ss)).toList = s.toList ++ ss.flatMap fun t => blank :: t.toList := by
  induction ss generalizing s with
  | nil => simp
  | cons t ss ih =>
    rw [String.intercalate_cons_cons, String.toList_append, ih t, String.toList_append, List.flatMap_cons, hsep]
    simp

theorem endsWord_blanks (hblank : isBlank blank = true) (ss : List String) (hrest : endsWord rest = true) :
    endsWord ((ss.flatMap fun t => blank :: t.toList) ++ rest) = true := by
  cases ss with
  | nil => exact hrest
  | cons t ss => simp [endsWord, isDelimiter, hblank]

variable {ls : Value → List Lexeme} {vs : List Value}
  (h : ∀ v ∈ vs, ∀ rest, endsWord rest = true → Spells file (v.render false).toList (ls v) rest)

include h

/-- Values behind something, with a blank in front of each. -/
theorem spells_blanks (hblank : isBlank blank = true) (hrest : endsWord rest = true) :
    Spells file ((renderAll false vs).flatMap fun t => blank :: t.toList) (vs.flatMap ls) rest := by
  induction vs with
  | nil => exact .nil
  | cons v vs ih =>
    have hfront : Spells file [blank] [] ((v.render false).toList ++
        ((renderAll false vs).flatMap fun t => blank :: t.toList) ++ rest) := .single fun _ => if_pos hblank
    have hfirst := h v List.mem_cons_self _ (endsWord_blanks hblank (renderAll false vs) hrest)
    exact hfront.append (hfirst.append (ih fun v hv => h v (List.mem_cons_of_mem _ hv)))

/-- Values in a row. -/
theorem spells_items (hsep : sep.toList = [blank]) (hblank : isBlank blank = true) (hrest : endsWord rest = true) :
    Spells file (sep.intercalate (renderAll false vs)).toList (vs.flatMap ls) rest := by
  cases vs with
  | nil => exact .nil
  | cons v vs =>
    rw [renderAll, toList_intercalate hsep]
    have hfirst := h v List.mem_cons_self _ (endsWord_blanks hblank (renderAll false vs) hrest)
    exact hfirst.append (spells_blanks (fun v hv => h v (List.mem_cons_of_mem _ hv)) hblank hrest)

/-- Values in a row between brackets. -/
theorem spells_enclosed {c d : Char} {l m : Lexeme} (hc : ∀ p, Mode.begin p c = ([⟨l, p⟩], .between))
    (hd : ∀ p, Mode.begin p d = ([⟨m, p⟩], .between)) (hend : isDelimiter d = true) :
    Spells file (c :: (" ".intercalate (renderAll false vs)).toList ++ [d]) (l :: vs.flatMap ls ++ [m]) rest :=
  .enclosed hc hd (spells_items h rfl rfl hend)

/-- A form, from what is known of its head and its arguments. -/
theorem spells_form {head : String} {hs : List Lexeme}
    (hhead : ∀ rest, endsWord rest = true → Spells file head.toList hs rest) :
    Spells file ("<" ++ " ".intercalate (head :: renderAll false vs) ++ ">").toList
      (.langle :: (hs ++ vs.flatMap ls) ++ [.rangle]) rest := by
  have hinner : Spells file (" ".intercalate (head :: renderAll false vs)).toList (hs ++ vs.flatMap ls)
      ('>' :: rest) := by
    rw [toList_intercalate rfl]
    exact (hhead _ (endsWord_blanks rfl (renderAll false vs) rfl)).append (spells_blanks h rfl rfl)
  rw [String.toList_append, String.toList_append]
  exact hinner.enclosed (fun _ => rfl) fun _ => rfl

end

/-- The text of a legible value without numbers that are too long is scanned into what it is written with. -/
theorem spells_render (file : String) (v : Value) :
    v.isLegible = true → v.isWritable = true → v.Scans file := by
  induction v using treeInduction with
  | call name args info ih =>
    intro hlegible hwritable rest _
    rw [isLegible, Bool.and_eq_true, areLegible_iff] at hlegible
    rw [isWritable, areWritable_iff] at hwritable
    have hhead : ∀ rest, endsWord rest = true → Spells file name.toList [.atom name] rest :=
      fun _ => .atom (Bool.and_eq_true_iff.1 hlegible.1).1
    rw [render, lexemes, lexemesAll_eq_flatMap]
    exact spells_form (fun v hv => ih v hv (hlegible.2 v hv) (hwritable v hv)) hhead
  | apply head args info ihHead ih =>
    intro hlegible hwritable rest _
    rw [isLegible, Bool.and_eq_true, areLegible_iff] at hlegible
    rw [isWritable, Bool.and_eq_true, areWritable_iff] at hwritable
    have hargs : ∀ v ∈ args, v.Scans file := fun v hv => ih v hv (hlegible.2 v hv) (hwritable.2 v hv)
    rw [render, lexemes, lexemesAll_eq_flatMap]
    cases hremote : head.remote? with
    | some remote =>
      rw [hremote] at hlegible
      have hname := (Bool.and_eq_true_iff.1 (Bool.and_eq_true_iff.1 hlegible.1).1).1
      exact spells_form hargs fun _ => .atom hname
    | none =>
      rw [hremote] at hlegible
      exact spells_form hargs (ihHead (Bool.and_eq_true_iff.1 hlegible.1).2 hwritable.1)
  | var name c info =>
    intro hlegible _ rest hrest
    have hname : (Value.var name c info).render false = "." ++ name := by cases c <;> rfl
    rw [hname]
    exact .var hlegible hrest
  | atom name => exact fun hlegible _ _ => .atom hlegible
  | number n =>
    intro hlegible hwritable rest hrest
    cases n with
    | int n => exact .int hwritable hrest
    | float x => cases hlegible
  | text s => exact fun _ _ _ _ => .text s
  | list items ih =>
    intro hlegible hwritable rest _
    rw [isLegible, areLegible_iff] at hlegible
    rw [isWritable, areWritable_iff] at hwritable
    rw [render, lexemes, lexemesAll_eq_flatMap, String.toList_append, String.toList_append]
    exact spells_enclosed (fun v hv => ih v hv (hlegible v hv) (hwritable v hv)) (fun _ => rfl) (fun _ => rfl) rfl
  | tuple items ih =>
    intro hlegible hwritable rest _
    rw [isLegible, Bool.and_eq_true, areLegible_iff] at hlegible
    rw [isWritable, areWritable_iff] at hwritable
    rw [render, lexemes, lexemesAll_eq_flatMap, String.toList_append, String.toList_append]
    exact spells_enclosed (fun v hv => ih v hv (hlegible.2 v hv) (hwritable v hv)) (fun _ => rfl) (fun _ => rfl) rfl
  | _ =>
    intro hlegible
    cases hlegible

end Value

end MacroLang
