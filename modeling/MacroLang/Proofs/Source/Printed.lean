import MacroLang.Proofs.Source.Decimals
import MacroLang.Proofs.Source.Places

/-!
# What was read can be written

The words of a source text are of the right kinds and its integers are not too long, so every value that was read can be
written (`Value.IsSource.isWritable`). Its text is scanned into what it is written with (`Value.IsSource.spells`),
except for the doubles that are written without a point: these become atoms.
-/

namespace MacroLang

/-! ## Words -/

/-- What a word can be, and how it is found out. -/
theorem ofWord_cases {word : List Char} {l : Lexeme} (h : Lexeme.ofWord word = .ok l) :
    (∃ n, l = .number (.int n) ∧ intOfWord? word = some n) ∨
    (∃ x, l = .number (.float x) ∧ floatOfWord? word = some x) ∨
    (∃ name, l = .var (String.ofList name) ∧ variableOfWord? word = some name ∧ '.' ∉ name) ∨
    l = .atom (String.ofList word) ∧
      intOfWord? word = none ∧ floatOfWord? word = none ∧ variableOfWord? word = none := by
  unfold Lexeme.ofWord at h
  split at h
  · rename_i hint
    cases h
    exact .inl ⟨_, rfl, hint⟩
  · rename_i hfloat
    cases h
    exact .inr (.inl ⟨_, rfl, hfloat⟩)
  · rename_i name _ _ hvariable
    split at h
    · cases h
    · rename_i hpoint
      cases h
      exact .inr (.inr (.inl ⟨name, rfl, hvariable, by simpa using hpoint⟩))
  · rename_i hint hfloat hvariable
    cases h
    exact .inr (.inr (.inr ⟨rfl, hint, hfloat, hvariable⟩))

theorem isAtomWord_iff {name : String} : isAtomWord name = true ↔ isWord name.toList = true ∧
    intOfWord? name.toList = none ∧ floatOfWord? name.toList = none ∧ variableOfWord? name.toList = none := by
  constructor
  · intro h
    rcases ofWord_cases (ofWord_of_isAtomWord h) with ⟨n, ⟨⟩, -⟩ | ⟨x, ⟨⟩, -⟩ | ⟨name, ⟨⟩, -⟩ | ⟨-, hnone⟩
    exact ⟨(Bool.and_eq_true_iff.1 h).1, hnone⟩
  · rintro ⟨hword, hint, hfloat, hvariable⟩
    rw [isAtomWord, hword, Lexeme.ofWord, hint, hfloat, hvariable]
    rfl

/-- A word is its sign and what is behind the sign. -/
theorem splitSign_cases (word : List Char) :
    ∃ sign, word = sign ++ (splitSign word).2 ∧ (sign = [] ∨ sign = ['-'] ∨ sign = ['+']) := by
  unfold splitSign
  split
  · exact ⟨['-'], rfl, .inr (.inl rfl)⟩
  · exact ⟨['+'], rfl, .inr (.inr rfl)⟩
  · exact ⟨[], rfl, .inl rfl⟩

theorem point_notMem_of_intOfWord? {word : List Char} {n : ℤ} (h : intOfWord? word = some n) : '.' ∉ word := by
  intro hmem
  rw [intOfWord?_eq_none hmem (by decide) (by decide) (by decide)] at h
  cases h

theorem point_notMem_of_exponentOfWord? {word : List Char} {n : ℤ} (h : exponentOfWord? word = some n) :
    '.' ∉ word := by
  cases word with
  | nil => exact List.not_mem_nil
  | cons c rest =>
    rw [exponentOfWord?] at h
    split at h
    · rename_i hc
      have hrest := point_notMem_of_intOfWord? h
      rintro (_ | ⟨_, hmem⟩)
      · cases hc
      · exact hrest hmem
    · cases h

theorem intOfWord?_ne_none {sign digits : List Char} (hsign : sign = [] ∨ sign = ['-'] ∨ sign = ['+'])
    (hne : digits ≠ []) (h : ∀ c ∈ digits, Text.isDigit c = true) : intOfWord? (sign ++ digits) ≠ none := by
  have hsplit : (splitSign (sign ++ digits)).2 = digits := by
    rcases hsign with rfl | rfl | rfl
    · obtain ⟨c, cs, rfl⟩ := List.exists_cons_of_ne_nil hne
      exact congrArg Prod.snd (splitSign_of_isDigit (h c List.mem_cons_self) cs)
    · rfl
    · rfl
  have hall : digits.all Text.isDigit = true := List.all_eq_true.2 h
  simp [intOfWord?, hsplit, hall, hne]

/-- A word for a double has one point, with an integer in front of it. -/
theorem floatOfWord?_point {word : List Char} {x : Float} (h : floatOfWord? word = some x) :
    Double.IsNumber x ∧ ∃ front back, word = front ++ '.' :: back ∧ intOfWord? front ≠ none ∧ '.' ∉ back := by
  obtain ⟨sign, hword, hsign⟩ := splitSign_cases word
  unfold floatOfWord? at h
  dsimp only at h
  generalize (splitSign word).2 = rest at hword h
  split at h
  · rename_i back hback
    split at h
    · cases h
    · rename_i hempty
      simp only [Bool.or_eq_true, not_or, List.isEmpty_iff] at hempty
      obtain ⟨exponent, hexponent, rfl⟩ := Option.map_eq_some_iff.1 h
      refine ⟨Double.isNumber_ofDecimal _ _ _ _, sign ++ rest.takeWhile Text.isDigit, back, ?_, ?_, ?_⟩
      · rw [List.append_assoc, ← hback, List.takeWhile_append_dropWhile]
        exact hword
      · exact intOfWord?_ne_none hsign hempty.1 fun c hc => List.mem_takeWhile_imp hc
      · rw [← List.takeWhile_append_dropWhile (p := Text.isDigit) (l := back), List.mem_append, not_or]
        refine ⟨fun hmem => absurd (List.mem_takeWhile_imp hmem) (by decide), ?_⟩
        exact point_notMem_of_exponentOfWord? hexponent
  · cases h

/-- Two atoms with a dot between them are an atom. -/
theorem isAtomWord_join {module function : String} (hmodule : isAtomWord module = true)
    (hfunction : isAtomWord function = true) : isAtomWord (module ++ "." ++ function) = true := by
  obtain ⟨hword, hint, hfloat, hvariable⟩ := isAtomWord_iff.1 hmodule
  obtain ⟨hne, hdelimiter⟩ := isWord_iff.1 hword
  have hname : (module ++ "." ++ function).toList = module.toList ++ '.' :: function.toList := by simp
  rw [isAtomWord_iff, hname]
  refine ⟨isWord_iff.2 ⟨by simp, ?_⟩, ?_, ?_, ?_⟩
  · refine List.forall_mem_append.2 ⟨hdelimiter, List.forall_mem_cons.2 ⟨rfl, ?_⟩⟩
    exact (isWord_iff.1 (isAtomWord_iff.1 hfunction).1).2
  · exact intOfWord?_eq_none (List.mem_append_right _ List.mem_cons_self) (by decide) (by decide) (by decide)
  · -- The word would have one point only, and the module would be an integer.
    rw [Option.eq_none_iff_forall_ne_some]
    intro x hx
    obtain ⟨-, front, back, hpoint, hfront, hback⟩ := floatOfWord?_point hx
    obtain ⟨n, hn⟩ := Option.ne_none_iff_exists'.1 hfront
    have hsame := (List.append_cons_inj_of_notMem (point_notMem_of_intOfWord? hn) hback).1 hpoint.symm
    rw [hsame.1, hint] at hn
    cases hn
  · -- What follows a dot at its start does not make the module a variable.
    obtain ⟨c, cs, hchars⟩ := List.exists_cons_of_ne_nil hne
    rw [hchars] at hvariable ⊢
    unfold variableOfWord? at hvariable ⊢
    split
    · rename_i d rest heq
      cases cs with
      | nil =>
        cases heq
        exact if_neg (by decide +kernel)
      | cons d' cs =>
        cases heq
        simpa using hvariable
    · rfl

/-! ### Words that were read -/

/-- The word of a lexeme was one of its kind. -/
def Lexeme.IsScanned : Lexeme → Prop
  | .atom name => isAtomWord name = true
  | .var name => isVariableName name = true
  | .number (.int n) => (Number.int n).isWritable = true
  | .number (.float x) => Double.IsNumber x
  | _ => True

theorem isWritable_of_intOfWord? {word : List Char} {n : ℤ} (h : intOfWord? word = some n)
    (hshort : (splitSign word).2.length ≤ Number.maxDigits) : (Number.int n).isWritable = true := by
  have hsize : n.natAbs = Text.digitsValue (splitSign word).2 := by
    unfold intOfWord? at h
    dsimp only at h
    split at h
    · cases h
    · cases h
      split
      · omega
      · omega
  rw [Number.isWritable, decide_eq_true_eq, hsize, Number.writeBound]
  exact digitsValue_lt_tenTo hshort

theorem IsWordOf.isScanned {l : Lexeme} {word : List Char} (h : IsWordOf l word) : l.IsScanned := by
  obtain ⟨-, hdelimiter⟩ := isWord_iff.1 h.isWord
  rcases ofWord_cases h.ofWord with ⟨n, rfl, hint⟩ | ⟨x, rfl, hfloat⟩ | ⟨name, rfl, hvariable, hpoint⟩ | ⟨rfl, hnone⟩
  · exact isWritable_of_intOfWord? hint (h.short n rfl)
  · exact (floatOfWord?_point hfloat).1
  · unfold variableOfWord? at hvariable
    split at hvariable
    · rename_i c rest
      split at hvariable
      · rename_i hfirst
        cases hvariable
        rw [Lexeme.IsScanned, isVariableName, String.toList_ofList, List.head?_cons, Option.any_some, hfirst,
          Bool.true_and, List.all_eq_true]
        intro d hd
        have hdot : d ≠ '.' := fun heq => hpoint (heq ▸ hd)
        simp [hdelimiter d (List.mem_cons_of_mem _ hd), hdot]
      · cases hvariable
    · cases hvariable
  · rw [Lexeme.IsScanned, isAtomWord_iff, String.toList_ofList]
    exact ⟨h.isWord, hnone⟩

theorem Lexeme.SpelledBy.isScanned {l : Lexeme} {written : List Char} (h : l.SpelledBy written) : l.IsScanned := by
  cases l with
  | atom name => exact IsWordOf.isScanned h
  | number n => exact IsWordOf.isScanned h
  | var name => exact IsWordOf.isScanned h
  | _ => trivial

theorem isScanned_of_scan {file source : String} {ts : Tokens} (h : Tokens.scan file source = .ok ts) :
    ∀ t ∈ ts.tokens, t.lexeme.IsScanned := by
  intro t ht
  obtain ⟨-, offsets, hcovers⟩ := scan_eq_ok_iff.1 h
  obtain ⟨k, hk⟩ := hcovers.exists_offset ht
  obtain ⟨-, written, hwritten, -⟩ := hcovers.at_offset hk
  exact hwritten.isScanned

/-! ## Values -/

namespace Value

/-- A value that a source text can have: names are words of the right kinds, numbers are such that words stand for,
heads are nodes, and tuples are pairs. -/
inductive IsSource : Value → Prop
  | call {name : String} {args : List Value} (info : Info) :
      isAtomWord name = true → ¬Grammar.IsDotted name → (∀ v ∈ args, IsSource v) → IsSource (call name args info)
  | remote {module function : String} {args : List Value} (i info : Info) :
      isAtomWord (module ++ "." ++ function) = true → (∀ v ∈ args, IsSource v) →
      IsSource (apply (.call "." [atom module, atom function] i) args info)
  | computed {head : Value} {args : List Value} (info : Info) :
      head.remote? = none → head.isNode = true → IsSource head → (∀ v ∈ args, IsSource v) →
      IsSource (apply head args info)
  | var {name : String} (info : Info) : isVariableName name = true → IsSource (var name .direct info)
  | atom {name : String} : isAtomWord name = true → IsSource (atom name)
  | int {n : ℤ} : (Number.int n).isWritable = true → IsSource (number (.int n))
  | float {x : Float} : Double.IsNumber x → IsSource (number (.float x))
  | text (s : String) : IsSource (text s)
  | list {items : List Value} : (∀ v ∈ items, IsSource v) → IsSource (list items)
  | pair {left right : Value} : IsSource left → IsSource right → IsSource (pair left right)

theorem IsSource.apply {head : Value} (h : head.IsSource) (hnode : head.isNode = true) {args : List Value}
    (hargs : ∀ v ∈ args, v.IsSource) (info : Info) : (apply head args info).IsSource := by
  cases hremote : head.remote? with
  | none => exact .computed info hremote hnode h hargs
  | some remote =>
    obtain ⟨i, rfl⟩ := eq_of_remote? hremote
    cases h with
    | call _ _ _ hparts =>
      simp only [List.forall_mem_cons] at hparts
      obtain ⟨hmodule, hfunction, -⟩ := hparts
      cases hmodule with
      | atom hmodule => cases hfunction with
        | atom hfunction => exact .remote i info (isAtomWord_join hmodule hfunction) hargs

theorem IsSource.isWritable {v : Value} (h : v.IsSource) : v.isWritable = true := by
  induction h with
  | call info _ _ _ ih => exact areWritable_iff.2 ih
  | remote i info _ _ ih => exact areWritable_iff.2 ih
  | computed info _ _ _ _ ihHead ih => exact Bool.and_eq_true_iff.2 ⟨ihHead, areWritable_iff.2 ih⟩
  | int h => exact h
  | list _ ih => exact areWritable_iff.2 ih
  | pair _ _ ihLeft ihRight => exact areWritable_iff.2 (by simp [ihLeft, ihRight])
  | _ => rfl

end Value

namespace Lexeme

/-- What the text of a lexeme is scanned into. -/
def printed : Lexeme → Lexeme
  | .number (.float x) => Double.lexeme x
  | l => l

end Lexeme

namespace Value

/-- What the text of a value is scanned into. -/
def printed (v : Value) : List Lexeme :=
  v.lexemes.map Lexeme.printed

theorem printed_flatMap (vs : List Value) : vs.flatMap printed = (lexemesAll vs).map Lexeme.printed := by
  rw [lexemesAll_eq_flatMap, List.map_flatMap]
  rfl

theorem printed_call (name : String) (args : List Value) (info : Info) :
    (call name args info).printed = .langle :: ([.atom name] ++ args.flatMap printed) ++ [.rangle] := by
  rw [printed_flatMap, printed, lexemes]
  simp [Lexeme.printed]

theorem printed_remote (module function : String) (i info : Info) (args : List Value) :
    (apply (call "." [atom module, atom function] i) args info).printed =
      .langle :: ([.atom (module ++ "." ++ function)] ++ args.flatMap printed) ++ [.rangle] := by
  rw [printed_flatMap, printed, lexemes]
  simp [Lexeme.printed, remote?]

theorem printed_computed {head : Value} (h : head.remote? = none) (args : List Value) (info : Info) :
    (apply head args info).printed = .langle :: (head.printed ++ args.flatMap printed) ++ [.rangle] := by
  rw [printed_flatMap, printed, lexemes, h, printed]
  simp [Lexeme.printed]

theorem printed_list (items : List Value) :
    (list items).printed = .lparen :: items.flatMap printed ++ [.rparen] := by
  rw [printed_flatMap, printed, lexemes]
  simp [Lexeme.printed]

theorem printed_tuple (items : List Value) :
    (tuple items).printed = .lbracket :: items.flatMap printed ++ [.rbracket] := by
  rw [printed_flatMap, printed, lexemes]
  simp [Lexeme.printed]

/-- The text of what was read, in front of everything that ends a word. -/
theorem IsSource.spells (file : String) {v : Value} (h : v.IsSource) :
    ∀ rest, endsWord rest = true → Spells file (v.render false).toList v.printed rest := by
  induction h with
  | call info hname _ _ ih =>
    intro rest _
    rw [render, printed_call]
    exact spells_form ih fun _ => .atom hname
  | remote i info hname _ ih =>
    intro rest _
    rw [render, printed_remote]
    exact spells_form ih fun _ => .atom hname
  | computed info hremote _ _ _ ihHead ih =>
    intro rest _
    rw [render, hremote, printed_computed hremote]
    exact spells_form ih ihHead
  | var info hname => exact fun _ => .var hname
  | atom hname => exact fun _ => .atom hname
  | int hshort => exact fun _ => .int hshort
  | float hx =>
    exact fun _ hrest _ p => ⟨[⟨_, p⟩], _, rfl, scanFrom_isWordOf (Double.isWordOf_write hx) hrest⟩
  | text s => exact fun _ _ => .text s
  | list _ ih =>
    intro rest _
    rw [render, printed_list, String.toList_append, String.toList_append]
    exact spells_enclosed ih (fun _ => rfl) (fun _ => rfl) rfl
  | pair _ _ ihLeft ihRight =>
    intro rest _
    rw [Value.pair, render, printed_tuple, String.toList_append, String.toList_append]
    exact spells_enclosed (by simpa using ⟨ihLeft, ihRight⟩) (fun _ => rfl) (fun _ => rfl) rfl

end Value

/-! ## Derivations -/

namespace Grammar

/-- The lexemes of the tokens are such that words stand for. -/
def AllScanned (ts : List Token) : Prop :=
  ∀ t ∈ ts, t.lexeme.IsScanned

theorem isSource_sign (sign : Sign) (p : Position) {operand : Value} (h : operand.IsSource) :
    (Value.call sign.form [operand] p.info).IsSource := by
  have hatom : isAtomWord sign.form = true := by cases sign <;> decide +kernel
  have hdot : '.' ∉ sign.form.toList := by cases sign <;> decide
  exact .call p.info hatom (fun hdotted => hdot hdotted.1) (List.forall_mem_singleton.2 h)

mutual

theorem Form.isSource (f : Form) (h : AllScanned f.tokens) : f.value.IsSource := by
  cases f with
  | atom name p => exact .atom (h _ List.mem_cons_self)
  | number n p => cases n with
    | int n => exact .int (h _ List.mem_cons_self)
    | float x => exact .float (h _ List.mem_cons_self)
  | text s p => exact .text s
  | var name p => exact .var p.info (h _ List.mem_cons_self)
  | signed sign p operand =>
    exact isSource_sign sign p (Form.isSource operand fun t ht => h t (List.mem_cons_of_mem _ ht))
  | call c => exact Call.isSource c h
  | list start items stop =>
    refine .list (Form.isSourceAll items fun t ht => h t ?_)
    simp [Form.tokens, ht]
  | pair start left right stop =>
    refine .pair (Form.isSource left fun t ht => h t ?_) (Form.isSource right fun t ht => h t ?_)
    · simp [Form.tokens, ht]
    · simp [Form.tokens, ht]
termination_by structural f

theorem Form.isSourceAll (fs : List Form) (h : AllScanned (Form.tokensAll fs)) :
    ∀ v ∈ Form.valueAll fs, v.IsSource := by
  cases fs with
  | nil => exact List.forall_mem_nil _
  | cons f fs =>
    refine List.forall_mem_cons.2 ⟨Form.isSource f fun t ht => h t ?_, Form.isSourceAll fs fun t ht => h t ?_⟩
    · simp [Form.tokensAll, ht]
    · simp [Form.tokensAll, ht]
termination_by structural fs

theorem Call.isSource (c : Call) (h : AllScanned c.tokens) : c.value.IsSource := by
  obtain ⟨start, head, args, stop⟩ := c
  refine Head.isSource head (fun t ht => h t ?_) (Form.isSourceAll args fun t ht => h t ?_) start.info
  · simp [Call.tokens, ht]
  · simp [Call.tokens, ht]
termination_by structural c

theorem Head.isSource (d : Head) (h : AllScanned d.tokens) {args : List Value} (hargs : ∀ v ∈ args, v.IsSource)
    (info : Info) : (d.applied args info).IsSource := by
  cases d with
  | plain name p hname => exact .call info (h _ List.mem_cons_self) hname hargs
  | remote module function p hjoins => exact .remote p.info info (h _ List.mem_cons_self) hargs
  | var name p => exact .apply (.var p.info (h _ List.mem_cons_self)) rfl hargs info
  | call c => exact .apply (Call.isSource c h) c.isNode_value hargs info
  | unquoted p operand =>
    have hoperand := Form.isSource operand fun t ht => h t (List.mem_cons_of_mem _ ht)
    exact .apply (isSource_sign .unquote p hoperand) rfl hargs info
termination_by structural d

end

end Grammar

theorem isSource_of_readSource {file source : String} {vs : List Value} (h : readSource file source = .ok vs) :
    ∀ v ∈ vs, v.IsSource := by
  obtain ⟨ts, hscan, hread⟩ := except_bind_eq_ok.1 h
  obtain ⟨fs, htokens, rfl⟩ := Grammar.derived_of_read hread
  exact Grammar.Form.isSourceAll fs fun t ht => isScanned_of_scan hscan t (htokens ▸ ht)

end MacroLang
