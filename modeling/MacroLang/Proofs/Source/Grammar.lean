import MacroLang.Source.Reader

/-!
# The grammar of source text

A source text is a sequence of forms:

    form ::= ATOM | NUMBER | TEXT | VAR | sign form | call | '(' form* ')' | '[' form form ']'
    call ::= '<' head form* '>'
    head ::= ATOM | VAR | call | '~' form

where a name with dots inside at the head of a call has no empty segment. `Form`, `Call` and `Head` are the derivations,
with a constructor for each rule; each has the tokens that it derives (`Form.tokens`) and the value that it denotes
(`Form.value`). Tokens have one derivation at most (`Form.tokens_inj`): the first token of a form tells its rule, and a
form never starts with a closing bracket.
-/

namespace MacroLang.Grammar

/-! ## Names at the head of a form -/

/-- The name has dots, and none of them at an end. -/
def IsDotted (name : String) : Prop :=
  '.' ∈ name.toList ∧ name.toList.head? ≠ some '.' ∧ name.toList.getLast? ≠ some '.'

/-- The names of a module and a function make a name without empty segments, and they meet at its last dot. -/
structure Joins (module function : String) : Prop where
  full : [] ∉ (module ++ "." ++ function).toList.splitOn '.'
  last : '.' ∉ function.toList

section

variable {name module function : String}

theorem splitOn_join (module : String) (h : '.' ∉ function.toList) :
    (module ++ "." ++ function).toList.splitOn '.' = module.toList.splitOn '.' ++ [function.toList] := by
  have hname : (module ++ "." ++ function).toList = module.toList ++ '.' :: function.toList := by simp
  rw [hname, List.splitOn_append_cons_self, List.splitOn_eq_singleton h]

/-- A name is divided at its last dot. -/
theorem exists_join (h : '.' ∈ name.toList) :
    ∃ module function, name = module ++ "." ++ function ∧ '.' ∉ function.toList := by
  obtain ⟨function, module, hname, hfirst⟩ := List.eq_append_cons_of_mem (List.mem_reverse.2 h)
  refine ⟨String.ofList module.reverse, String.ofList function.reverse, String.toList_inj.1 ?_, by simpa using hfirst⟩
  rw [List.reverse_eq_iff.1 hname]
  simp

/-- The segments at the ends of a name are empty if there are dots at its ends. -/
theorem isDotted_iff : IsDotted name ↔ ¬((name.toList.splitOn '.').length < 2 ∨
    (name.toList.splitOn '.').head? = some [] ∨ (name.toList.splitOn '.').getLast? = some []) := by
  by_cases hdot : '.' ∈ name.toList
  · obtain ⟨module, function, rfl, hlast⟩ := exists_join hdot
    obtain ⟨first, others, hname, hfirst⟩ := List.eq_append_cons_of_mem hdot
    have hhead : (module ++ "." ++ function).toList.splitOn '.' = first :: others.splitOn '.' := by
      rw [hname, List.splitOn_append_cons_self, List.splitOn_eq_singleton hfirst]
      rfl
    have hfront : ((module ++ "." ++ function).toList.splitOn '.').head? = some first := by rw [hhead, List.head?_cons]
    have hback : ((module ++ "." ++ function).toList.splitOn '.').getLast? = some function.toList := by
      rw [splitOn_join module hlast, List.getLast?_concat]
    have hlength : ¬((module ++ "." ++ function).toList.splitOn '.').length < 2 := by
      have := List.length_pos_iff.2 (List.splitOn_ne_nil '.' module.toList)
      rw [splitOn_join module hlast, List.length_append, List.length_singleton]
      omega
    have hstart : (module ++ "." ++ function).toList.head? = some '.' ↔ first = [] := by
      rw [hname]
      cases first with
      | nil => simp
      | cons c cs =>
        have hc : c ≠ '.' := fun h => hfirst (h ▸ List.mem_cons_self)
        simp [hc]
    have hend : (module ++ "." ++ function).toList.getLast? = some '.' ↔ function.toList = [] := by
      have hjoin : (module ++ "." ++ function).toList = module.toList ++ '.' :: function.toList := by simp
      rw [hjoin]
      cases hcs : function.toList.getLast? with
      | none => simp [List.getLast?_eq_none_iff.1 hcs]
      | some c =>
        have hc : c ≠ '.' := fun h => hlast (h ▸ List.mem_of_getLast? hcs)
        have hne : function.toList ≠ [] := fun h => by simp [h] at hcs
        simp [List.getLast?_append, List.getLast?_cons, hcs, hc, hne]
    rw [IsDotted, Ne, Ne, hstart, hend, hfront, hback]
    simp only [hdot, hlength, true_and, false_or, not_or, Option.some.injEq]
  · rw [List.splitOn_eq_singleton hdot]
    simp [IsDotted, hdot]

theorem Joins.isDotted (h : Joins module function) : IsDotted (module ++ "." ++ function) := by
  have hsplit := splitOn_join module h.last
  have hpos := List.length_pos_iff.2 (List.splitOn_ne_nil '.' module.toList)
  refine isDotted_iff.2 fun hends => ?_
  rcases hends with hlength | hfirst | hlast
  · rw [hsplit, List.length_append, List.length_singleton] at hlength
    omega
  · exact h.full (List.mem_of_head? hfirst)
  · exact h.full (List.mem_of_getLast? hlast)

/-- There is one way only to divide a name. -/
theorem Joins.unique {module' function' : String} (h : Joins module function) (h' : Joins module' function')
    (hname : module ++ "." ++ function = module' ++ "." ++ function') : module = module' ∧ function = function' := by
  have hsegments := splitOn_join module h.last
  rw [hname, splitOn_join module' h'.last] at hsegments
  obtain ⟨hmodule, hfunction⟩ := List.append_inj' hsegments rfl
  refine ⟨String.toList_inj.1 ?_, String.toList_inj.1 (List.singleton_inj.1 hfunction).symm⟩
  have hjoin (name : String) : ['.'].intercalate (name.toList.splitOn '.') = name.toList := List.intercalate_splitOn '.'
  rw [← hjoin module, ← hmodule, hjoin module']

theorem exists_joins (hdotted : IsDotted name) (hfull : [] ∉ name.toList.splitOn '.') :
    ∃ module function, name = module ++ "." ++ function ∧ Joins module function := by
  obtain ⟨module, function, rfl, hlast⟩ := exists_join hdotted.1
  exact ⟨module, function, rfl, hfull, hlast⟩

end

/-! ## Derivations -/

mutual

/-- A derivation of a form. -/
inductive Form where
  | atom (name : String) (p : Position)
  | number (n : Number) (p : Position)
  | text (s : String) (p : Position)
  | var (name : String) (p : Position)
  | signed (sign : Sign) (p : Position) (operand : Form)
  | call (c : Call)
  | list (start : Position) (items : List Form) (stop : Position)
  | pair (start : Position) (left right : Form) (stop : Position)

/-- A derivation of a form in angle brackets. -/
inductive Call where
  | mk (start : Position) (head : Head) (args : List Form) (stop : Position)

/-- A derivation of the head of a call. -/
inductive Head where
  | plain (name : String) (p : Position) (h : ¬IsDotted name)
  | remote (module function : String) (p : Position) (h : Joins module function)
  | var (name : String) (p : Position)
  | call (c : Call)
  | unquoted (p : Position) (operand : Form)

end

mutual

/-- The tokens that are derived. -/
def Form.tokens : Form → List Token
  | .atom name p => [⟨.atom name, p⟩]
  | .number n p => [⟨.number n, p⟩]
  | .text s p => [⟨.text s, p⟩]
  | .var name p => [⟨.var name, p⟩]
  | .signed sign p operand => ⟨.sign sign, p⟩ :: operand.tokens
  | .call c => c.tokens
  | .list start items stop => ⟨.lparen, start⟩ :: (Form.tokensAll items ++ [⟨.rparen, stop⟩])
  | .pair start left right stop => ⟨.lbracket, start⟩ :: (left.tokens ++ (right.tokens ++ [⟨.rbracket, stop⟩]))

def Form.tokensAll : List Form → List Token
  | [] => []
  | f :: fs => f.tokens ++ Form.tokensAll fs

def Call.tokens : Call → List Token
  | .mk start head args stop => ⟨.langle, start⟩ :: (head.tokens ++ (Form.tokensAll args ++ [⟨.rangle, stop⟩]))

def Head.tokens : Head → List Token
  | .plain name p _ => [⟨.atom name, p⟩]
  | .remote module function p _ => [⟨.atom (module ++ "." ++ function), p⟩]
  | .var name p => [⟨.var name, p⟩]
  | .call c => c.tokens
  | .unquoted p operand => ⟨.sign .unquote, p⟩ :: operand.tokens

end

mutual

/-- The value that is denoted. -/
def Form.value : Form → Value
  | .atom name _ => .atom name
  | .number n _ => .number n
  | .text s _ => .text s
  | .var name p => .var name .direct p.info
  | .signed sign p operand => .call sign.form [operand.value] p.info
  | .call c => c.value
  | .list _ items _ => .list (Form.valueAll items)
  | .pair _ left right _ => .pair left.value right.value

def Form.valueAll : List Form → List Value
  | [] => []
  | f :: fs => f.value :: Form.valueAll fs

def Call.value : Call → Value
  | .mk start head args _ => head.applied (Form.valueAll args) start.info

/-- The value that a call with this head denotes. -/
def Head.applied : Head → List Value → Info → Value
  | .plain name _ _, args, info => .call name args info
  | .remote module function p _, args, info => .apply (.call "." [.atom module, .atom function] p.info) args info
  | .var name p, args, info => .apply (.var name .direct p.info) args info
  | .call c, args, info => .apply c.value args info
  | .unquoted p operand, args, info => .apply (.call "unquote" [operand.value] p.info) args info

end

theorem Form.tokensAll_append (fs fs' : List Form) :
    Form.tokensAll (fs ++ fs') = Form.tokensAll fs ++ Form.tokensAll fs' := by
  induction fs with
  | nil => rfl
  | cons f fs ih => rw [List.cons_append, Form.tokensAll, ih, Form.tokensAll, List.append_assoc]

theorem Form.valueAll_eq_map (fs : List Form) : Form.valueAll fs = fs.map Form.value := by
  induction fs with
  | nil => rfl
  | cons f fs ih => rw [Form.valueAll, ih, List.map_cons]

/-! ## Tokens have one derivation at most -/

/-- The tokens do not start another form: there are none, or a bracket is closed. -/
def Ends (ts : List Token) : Prop :=
  ∀ t ∈ ts.head?, t.lexeme = .rangle ∨ t.lexeme = .rparen ∨ t.lexeme = .rbracket

theorem ends_nil : Ends [] := by
  simp [Ends]

theorem ends_rangle (p : Position) (ts : List Token) : Ends (⟨.rangle, p⟩ :: ts) := by
  simp [Ends]

theorem ends_rparen (p : Position) (ts : List Token) : Ends (⟨.rparen, p⟩ :: ts) := by
  simp [Ends]

theorem Form.not_ends (f : Form) (ts : List Token) : ¬Ends (f.tokens ++ ts) := by
  cases f with
  | call c => cases c; simp [Form.tokens, Call.tokens, Ends]
  | _ => simp [Form.tokens, Ends]

mutual

theorem Form.tokens_inj (f f' : Form) (rest rest' : List Token) (h : f.tokens ++ rest = f'.tokens ++ rest') :
    f = f' ∧ rest = rest' := by
  cases f with
  | signed sign p operand => cases f' with
    | signed sign' p' operand' =>
      simp only [Form.tokens, List.cons_append, List.cons.injEq, Token.mk.injEq, Lexeme.sign.injEq] at h
      obtain ⟨⟨rfl, rfl⟩, htail⟩ := h
      obtain ⟨rfl, rfl⟩ := Form.tokens_inj operand operand' rest rest' htail
      exact ⟨rfl, rfl⟩
    | call c => cases c; simp [Form.tokens, Call.tokens] at h
    | _ => simp [Form.tokens] at h
  | call c => cases f' with
    | call c' =>
      obtain ⟨rfl, rfl⟩ := Call.tokens_inj c c' rest rest' h
      exact ⟨rfl, rfl⟩
    | _ => cases c; simp [Form.tokens, Call.tokens] at h
  | list start items stop => cases f' with
    | list start' items' stop' =>
      simp only [Form.tokens, List.cons_append, List.append_assoc, List.nil_append, List.cons.injEq, Token.mk.injEq,
        true_and] at h
      obtain ⟨rfl, htail⟩ := h
      obtain ⟨rfl, hstop⟩ := Form.tokensAll_inj items items' _ _ (ends_rparen _ _) (ends_rparen _ _) htail
      cases hstop
      exact ⟨rfl, rfl⟩
    | call c => cases c; simp [Form.tokens, Call.tokens] at h
    | _ => simp [Form.tokens] at h
  | pair start left right stop => cases f' with
    | pair start' left' right' stop' =>
      simp only [Form.tokens, List.cons_append, List.append_assoc, List.nil_append, List.cons.injEq, Token.mk.injEq,
        true_and] at h
      obtain ⟨rfl, htail⟩ := h
      obtain ⟨rfl, hright⟩ := Form.tokens_inj left left' _ _ htail
      obtain ⟨rfl, hstop⟩ := Form.tokens_inj right right' _ _ hright
      cases hstop
      exact ⟨rfl, rfl⟩
    | call c => cases c; simp [Form.tokens, Call.tokens] at h
    | _ => simp [Form.tokens] at h
  | _ => cases f' with
    | call c => cases c; simp [Form.tokens, Call.tokens] at h
    | _ => simp_all [Form.tokens]
termination_by structural f

theorem Form.tokensAll_inj (fs fs' : List Form) (rest rest' : List Token) (hrest : Ends rest) (hrest' : Ends rest')
    (h : Form.tokensAll fs ++ rest = Form.tokensAll fs' ++ rest') : fs = fs' ∧ rest = rest' := by
  cases fs with
  | nil => cases fs' with
    | nil => exact ⟨rfl, h⟩
    | cons f' fs' =>
      simp only [Form.tokensAll, List.nil_append, List.append_assoc] at h
      exact absurd (h ▸ hrest) (Form.not_ends f' _)
  | cons f fs => cases fs' with
    | nil =>
      simp only [Form.tokensAll, List.nil_append, List.append_assoc] at h
      exact absurd (h ▸ hrest') (Form.not_ends f _)
    | cons f' fs' =>
      simp only [Form.tokensAll, List.append_assoc] at h
      obtain ⟨rfl, hothers⟩ := Form.tokens_inj f f' _ _ h
      obtain ⟨rfl, hsame⟩ := Form.tokensAll_inj fs fs' rest rest' hrest hrest' hothers
      exact ⟨rfl, hsame⟩
termination_by structural fs

theorem Call.tokens_inj (c c' : Call) (rest rest' : List Token) (h : c.tokens ++ rest = c'.tokens ++ rest') :
    c = c' ∧ rest = rest' := by
  obtain ⟨start, head, args, stop⟩ := c
  obtain ⟨start', head', args', stop'⟩ := c'
  simp only [Call.tokens, List.cons_append, List.append_assoc, List.nil_append, List.cons.injEq, Token.mk.injEq,
    true_and] at h
  obtain ⟨rfl, htail⟩ := h
  obtain ⟨rfl, hargs⟩ := Head.tokens_inj head head' _ _ htail
  obtain ⟨rfl, hstop⟩ := Form.tokensAll_inj args args' _ _ (ends_rangle _ _) (ends_rangle _ _) hargs
  cases hstop
  exact ⟨rfl, rfl⟩
termination_by structural c

theorem Head.tokens_inj (d d' : Head) (rest rest' : List Token) (h : d.tokens ++ rest = d'.tokens ++ rest') :
    d = d' ∧ rest = rest' := by
  cases d with
  | plain name p hname => cases d' with
    | plain name' p' hname' => simpa [Head.tokens, and_assoc] using h
    | remote module' function' p' hjoins' =>
      simp only [Head.tokens, List.cons_append, List.cons.injEq, Token.mk.injEq, Lexeme.atom.injEq] at h
      exact absurd (h.1.1 ▸ hjoins'.isDotted) hname
    | call c => cases c; simp [Head.tokens, Call.tokens] at h
    | _ => simp [Head.tokens] at h
  | remote module function p hjoins => cases d' with
    | plain name' p' hname' =>
      simp only [Head.tokens, List.cons_append, List.cons.injEq, Token.mk.injEq, Lexeme.atom.injEq] at h
      exact absurd (h.1.1 ▸ hjoins.isDotted) hname'
    | remote module' function' p' hjoins' =>
      simp only [Head.tokens, List.cons_append, List.nil_append, List.cons.injEq, Token.mk.injEq,
        Lexeme.atom.injEq] at h
      obtain ⟨⟨hname, rfl⟩, hrest⟩ := h
      obtain ⟨rfl, rfl⟩ := hjoins.unique hjoins' hname
      exact ⟨rfl, hrest⟩
    | call c => cases c; simp [Head.tokens, Call.tokens] at h
    | _ => simp [Head.tokens] at h
  | var name p => cases d' with
    | var name' p' => simpa [Head.tokens, and_assoc] using h
    | call c => cases c; simp [Head.tokens, Call.tokens] at h
    | _ => simp [Head.tokens] at h
  | call c => cases d' with
    | call c' =>
      obtain ⟨rfl, rfl⟩ := Call.tokens_inj c c' rest rest' h
      exact ⟨rfl, rfl⟩
    | _ => cases c; simp [Head.tokens, Call.tokens] at h
  | unquoted p operand => cases d' with
    | unquoted p' operand' =>
      simp only [Head.tokens, List.cons_append, List.cons.injEq, Token.mk.injEq, true_and] at h
      obtain ⟨rfl, htail⟩ := h
      obtain ⟨rfl, rfl⟩ := Form.tokens_inj operand operand' rest rest' htail
      exact ⟨rfl, rfl⟩
    | call c => cases c; simp [Head.tokens, Call.tokens] at h
    | _ => simp [Head.tokens] at h
termination_by structural d

end

end MacroLang.Grammar
