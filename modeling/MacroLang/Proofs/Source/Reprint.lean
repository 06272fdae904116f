import MacroLang.Proofs.Source.Printed
import MacroLang.Tree.Equality

/-!
# Reading again what was printed

The forms of a source text can be written, one to a line, and the text is read as the same forms if and only if they
are faithful (`Value.isFaithful`): doubles are written with a point, and where the head of a call is a module and a
function, these meet at the last dot of a name without empty segments. From the tokens of such a text a derivation is
put together (`Value.IsSource.rederives`). Conversely, a derivation of the same value takes all of the tokens and leaves
no place for anything that is not faithful (`Value.IsSource.confirms`).

Main statement: `readSource_reprint`.
-/

namespace MacroLang

open Grammar (Form Call Head Joins)

namespace Value

mutual

/-- Is every double in the value written with a point, and can the module and the function of every head be told apart
again? -/
def isFaithful : Value → Bool
  | call _ args _ => areFaithful args
  | apply head args _ =>
    (match head.remote? with
      | some (module, function) => isRemoteHead module function
      | none => isFaithful head) && areFaithful args
  | number (.float x) => Double.hasPoint x
  | list items | tuple items => areFaithful items
  | _ => true

def areFaithful : List Value → Bool
  | [] => true
  | v :: vs => isFaithful v && areFaithful vs

end

theorem areFaithful_iff {vs : List Value} : areFaithful vs = true ↔ ∀ v ∈ vs, v.isFaithful = true := by
  induction vs with
  | nil => simp [areFaithful]
  | cons v vs ih => rw [areFaithful, Bool.and_eq_true, ih, List.forall_mem_cons]

theorem isRemoteHead_iff {module function : String} (h : isAtomWord (module ++ "." ++ function) = true) :
    isRemoteHead module function = true ↔ Joins module function := by
  simp only [isRemoteHead, h, Bool.true_and, Bool.and_eq_true, Bool.not_eq_true', List.contains_eq_mem,
    decide_eq_false_iff_not]
  exact ⟨fun h => ⟨h.1, h.2⟩, fun h => ⟨h.full, h.last⟩⟩

theorem isNode_of_same {v u : Value} (h : v.same u = true) (hv : v.isNode = true) : u.isNode = true := by
  cases v <;> cases hv <;> cases u <;> first | rfl | cases h

/-! ## Tokens -/

section

variable {ts : List Token} {ls : List Lexeme} {l m : Lexeme}

theorem exists_single (h : ts.map Token.lexeme = [l]) : ∃ p, ts = [⟨l, p⟩] := by
  obtain ⟨t, rfl, rfl⟩ := List.map_eq_singleton_iff.1 h
  exact ⟨t.position, rfl⟩

theorem exists_enclosed (h : ts.map Token.lexeme = l :: ls ++ [m]) :
    ∃ p inner q, ts = ⟨l, p⟩ :: (inner ++ [⟨m, q⟩]) ∧ inner.map Token.lexeme = ls := by
  obtain ⟨opening, closing, rfl, hopening, hclosing⟩ := List.map_eq_append_iff.1 h
  obtain ⟨t, inner, rfl, rfl, hinner⟩ := List.map_eq_cons_iff.1 hopening
  obtain ⟨q, rfl⟩ := exists_single hclosing
  exact ⟨t.position, inner, q, rfl, hinner⟩

end

/-! ## Faithful values are read again -/

/-- The tokens have a derivation, and its value is the same. Those for a node can stand at the head of a call. -/
def Rederives (v : Value) (ts : List Token) : Prop :=
  ∃ f : Form, f.tokens = ts ∧ v.same f.value = true ∧ (v.isNode = true → ∃ d : Head, d.tokens = ts ∧ d.read = f.value)

/-- Data is no head of a call, so its form is all there is to find. -/
theorem rederives_data {v : Value} {ts : List Token} (hdata : v.isNode = false) (f : Form) (htokens : f.tokens = ts)
    (hsame : v.same f.value = true) : v.Rederives ts :=
  ⟨f, htokens, hsame, fun hnode => absurd (hdata.symm.trans hnode) Bool.false_ne_true⟩

theorem rederives_all {vs : List Value}
    (h : ∀ v ∈ vs, ∀ ts : List Token, ts.map Token.lexeme = v.printed → v.Rederives ts) (ts : List Token)
    (hts : ts.map Token.lexeme = vs.flatMap printed) :
    ∃ fs : List Form, Form.tokensAll fs = ts ∧ sameAll vs (Form.valueAll fs) = true := by
  induction vs generalizing ts with
  | nil =>
    obtain rfl := List.map_eq_nil_iff.1 hts
    exact ⟨[], rfl, rfl⟩
  | cons v vs ih =>
    rw [List.flatMap_cons] at hts
    obtain ⟨first, others, rfl, hfirst, hothers⟩ := List.map_eq_append_iff.1 hts
    obtain ⟨f, rfl, hf, -⟩ := h v List.mem_cons_self first hfirst
    obtain ⟨fs, rfl, hfs⟩ := ih (fun v hv => h v (List.mem_cons_of_mem _ hv)) others hothers
    exact ⟨f :: fs, rfl, Bool.and_eq_true_iff.2 ⟨hf, hfs⟩⟩

/-- A call, from what is known of its head and its arguments. -/
theorem rederives_call {v : Value} {args : List Value} {ts : List Token} {hs : List Lexeme}
    (hts : ts.map Token.lexeme = .langle :: (hs ++ args.flatMap printed) ++ [.rangle])
    (hargs : ∀ a ∈ args, ∀ ts : List Token, ts.map Token.lexeme = a.printed → a.Rederives ts)
    (hhead : ∀ ts : List Token, ts.map Token.lexeme = hs → ∃ d : Head, d.tokens = ts ∧
      ∀ us info, sameAll args us = true → v.same (d.applied us info) = true) : v.Rederives ts := by
  obtain ⟨p, inner, q, rfl, hinner⟩ := exists_enclosed hts
  obtain ⟨front, back, rfl, hfront, hback⟩ := List.map_eq_append_iff.1 hinner
  obtain ⟨d, rfl, hd⟩ := hhead front hfront
  obtain ⟨fs, rfl, hfs⟩ := rederives_all hargs back hback
  have htokens : (Call.mk p d fs q).tokens = ⟨.langle, p⟩ :: (d.tokens ++ Form.tokensAll fs ++ [⟨.rangle, q⟩]) := by
    simp [Call.tokens]
  exact ⟨.call (.mk p d fs q), htokens, hd _ _ hfs, fun _ => ⟨.call (.mk p d fs q), htokens, rfl⟩⟩

theorem IsSource.rederives {v : Value} (h : v.IsSource) :
    v.isFaithful = true → ∀ ts : List Token, ts.map Token.lexeme = v.printed → v.Rederives ts := by
  induction h with
  | @call name args info _ hplain _ ih =>
    intro hfaithful ts hts
    rw [isFaithful, areFaithful_iff] at hfaithful
    rw [printed_call] at hts
    refine rederives_call hts (fun a ha => ih a ha (hfaithful a ha)) fun ts hts => ?_
    obtain ⟨p, rfl⟩ := exists_single hts
    exact ⟨.plain name p hplain, rfl, fun us info hus => by simpa [Head.applied, same] using hus⟩
  | @remote module function args i info hname _ ih =>
    intro hfaithful ts hts
    rw [isFaithful, Bool.and_eq_true, areFaithful_iff] at hfaithful
    rw [printed_remote] at hts
    refine rederives_call hts (fun a ha => ih a ha (hfaithful.2 a ha)) fun ts hts => ?_
    obtain ⟨p, rfl⟩ := exists_single hts
    have hjoins := (isRemoteHead_iff hname).1 hfaithful.1
    exact ⟨.remote module function p hjoins, rfl, fun us info hus => by simpa [Head.applied, same, sameAll] using hus⟩
  | @computed head args info hremote hnode _ _ ihHead ih =>
    intro hfaithful ts hts
    rw [isFaithful, hremote, Bool.and_eq_true, areFaithful_iff] at hfaithful
    rw [printed_computed hremote] at hts
    refine rederives_call hts (fun a ha => ih a ha (hfaithful.2 a ha)) fun ts hts => ?_
    obtain ⟨f, -, hsame, hhead⟩ := ihHead hfaithful.1 ts hts
    obtain ⟨d, htokens, hread⟩ := hhead hnode
    refine ⟨d, htokens, fun us info hus => ?_⟩
    rw [← hread] at hsame
    rw [← Head.withHead_read, withHead_of_isNode (isNode_of_same hsame hnode)]
    exact Bool.and_eq_true_iff.2 ⟨hsame, hus⟩
  | @var name info _ =>
    intro _ ts hts
    obtain ⟨p, rfl⟩ := exists_single hts
    exact ⟨.var name p, rfl, by simp [Form.value, same], fun _ => ⟨.var name p, rfl, rfl⟩⟩
  | @atom name _ =>
    intro _ ts hts
    obtain ⟨p, rfl⟩ := exists_single hts
    exact rederives_data rfl (.atom name p) rfl (by simp [Form.value, same])
  | @int n _ =>
    intro _ ts hts
    obtain ⟨p, rfl⟩ := exists_single hts
    exact rederives_data rfl (.number (.int n) p) rfl (by simp [Form.value, same, Number.equal, Number.compare?])
  | @float x hx =>
    intro hfaithful ts hts
    obtain ⟨p, rfl⟩ := exists_single hts
    have hlexeme : Double.lexeme x = .number (.float x) := if_pos hfaithful
    refine rederives_data rfl (.number (.float x) p) ?_ (Double.equal_self hx)
    rw [Lexeme.printed, hlexeme, Form.tokens]
  | text s =>
    intro _ ts hts
    obtain ⟨p, rfl⟩ := exists_single hts
    exact rederives_data rfl (.text s p) rfl (by simp [Form.value, same])
  | @list items _ ih =>
    intro hfaithful ts hts
    rw [isFaithful, areFaithful_iff] at hfaithful
    rw [printed_list] at hts
    obtain ⟨p, inner, q, rfl, hinner⟩ := exists_enclosed hts
    obtain ⟨fs, rfl, hfs⟩ := rederives_all (fun v hv => ih v hv (hfaithful v hv)) inner hinner
    exact rederives_data rfl (.list p fs q) rfl hfs
  | @pair left right _ _ ihLeft ihRight =>
    intro hfaithful ts hts
    rw [Value.pair, isFaithful, areFaithful_iff, List.forall_mem_cons, List.forall_mem_singleton] at hfaithful
    rw [Value.pair, printed_tuple, List.flatMap_cons, List.flatMap_singleton] at hts
    obtain ⟨p, inner, q, rfl, hinner⟩ := exists_enclosed hts
    obtain ⟨front, back, rfl, hfront, hback⟩ := List.map_eq_append_iff.1 hinner
    obtain ⟨f, rfl, hf, -⟩ := ihLeft hfaithful.1 front hfront
    obtain ⟨g, rfl, hg, -⟩ := ihRight hfaithful.2 back hback
    refine rederives_data rfl (.pair p f g q) (by simp [Form.tokens]) ?_
    simp [Form.value, Value.pair, same, sameAll, hf, hg]

/-! ## What is read again is faithful -/

section

variable {f : Form} {p : Position} {rest ts : List Token}

theorem form_of_langle (h : f.tokens ++ rest = ⟨.langle, p⟩ :: ts) :
    ∃ d fs q, f = .call (.mk p d fs q) ∧ d.tokens ++ (Form.tokensAll fs ++ ⟨.rangle, q⟩ :: rest) = ts := by
  cases f with
  | call c =>
    obtain ⟨start, d, fs, q⟩ := c
    simp only [Form.tokens, Call.tokens, List.cons_append, List.append_assoc, List.nil_append, List.cons.injEq,
      Token.mk.injEq, true_and] at h
    obtain ⟨rfl, htail⟩ := h
    exact ⟨d, fs, q, rfl, htail⟩
  | _ => simp [Form.tokens] at h

/-- The form is a list or a pair with these members, and starts with this bracket. -/
inductive Encloses : Lexeme → Form → List Form → Prop
  | list (start : Position) (items : List Form) (stop : Position) : Encloses .lparen (.list start items stop) items
  | pair (start : Position) (left right : Form) (stop : Position) :
    Encloses .lbracket (.pair start left right stop) [left, right]

theorem form_of_bracket {l : Lexeme} (hl : l = .lparen ∨ l = .lbracket) (h : f.tokens ++ rest = ⟨l, p⟩ :: ts) :
    ∃ fs closing, Encloses l f fs ∧ Form.tokensAll fs ++ closing :: rest = ts := by
  cases f with
  | list start fs stop =>
    simp only [Form.tokens, List.cons_append, List.append_assoc, List.nil_append, List.cons.injEq, Token.mk.injEq] at h
    obtain ⟨⟨rfl, rfl⟩, htail⟩ := h
    exact ⟨fs, ⟨.rparen, stop⟩, .list start fs stop, htail⟩
  | pair start left right stop =>
    simp only [Form.tokens, List.cons_append, List.append_assoc, List.nil_append, List.cons.injEq, Token.mk.injEq] at h
    obtain ⟨⟨rfl, rfl⟩, htail⟩ := h
    refine ⟨[left, right], ⟨.rbracket, stop⟩, .pair start left right stop, ?_⟩
    simpa [Form.tokensAll] using htail
  | call c => cases c; rcases hl with rfl | rfl <;> simp [Form.tokens, Call.tokens] at h
  | _ => rcases hl with rfl | rfl <;> simp [Form.tokens] at h

/-- The lexeme is a form by itself. -/
def IsLeaf : Lexeme → Prop
  | .atom _ | .number _ | .text _ | .var _ => True
  | _ => False

theorem form_of_leaf {l : Lexeme} (hl : IsLeaf l) (h : f.tokens ++ rest = ⟨l, p⟩ :: ts) :
    f.tokens = [⟨l, p⟩] ∧ rest = ts := by
  cases f with
  | signed sign q operand => cases h; cases hl
  | call c => cases c; cases h; cases hl
  | list start items stop => cases h; cases hl
  | pair start left right stop => cases h; cases hl
  | _ => simpa [Form.tokens] using h

end

/-- A derivation of the same value from tokens for the value, and perhaps some more, takes the tokens for the value
only, and the value is faithful. -/
def Confirms (v : Value) : Prop :=
  ∀ ts : List Token, ts.map Token.lexeme = v.printed → ∀ (f : Form) (rest rest' : List Token),
    f.tokens ++ rest = ts ++ rest' → v.same f.value = true → v.isFaithful = true ∧ rest = rest'

theorem confirms_all {vs : List Value} (h : ∀ v ∈ vs, v.Confirms) (ts : List Token)
    (hts : ts.map Token.lexeme = vs.flatMap printed) (fs : List Form) (rest rest' : List Token)
    (htokens : Form.tokensAll fs ++ rest = ts ++ rest') (hsame : sameAll vs (Form.valueAll fs) = true) :
    areFaithful vs = true ∧ rest = rest' := by
  induction vs generalizing ts fs with
  | nil =>
    obtain rfl := List.map_eq_nil_iff.1 hts
    cases fs with
    | nil => exact ⟨rfl, htokens⟩
    | cons f fs => cases hsame
  | cons v vs ih =>
    rw [List.flatMap_cons] at hts
    obtain ⟨first, others, rfl, hfirst, hothers⟩ := List.map_eq_append_iff.1 hts
    cases fs with
    | nil => cases hsame
    | cons f fs =>
      obtain ⟨hf, hfs⟩ := Bool.and_eq_true_iff.1 hsame
      rw [Form.tokensAll, List.append_assoc, List.append_assoc] at htokens
      obtain ⟨hv, htail⟩ := h v List.mem_cons_self first hfirst f _ _ htokens hf
      obtain ⟨hvs, hrest⟩ := ih (fun v hv => h v (List.mem_cons_of_mem _ hv)) others hothers fs htail hfs
      exact ⟨Bool.and_eq_true_iff.2 ⟨hv, hvs⟩, hrest⟩

/-- A value that is written with one token. -/
theorem confirms_leaf {v : Value} {l : Lexeme} (hv : v.printed = [l]) (hl : IsLeaf l)
    (h : ∀ (f : Form) (p : Position), f.tokens = [⟨l, p⟩] → v.same f.value = true → v.isFaithful = true) :
    v.Confirms := by
  intro ts hts f rest rest' htokens hsame
  rw [hv] at hts
  obtain ⟨p, rfl⟩ := exists_single hts
  obtain ⟨hf, hrest⟩ := form_of_leaf hl htokens
  exact ⟨h f p hf hsame, hrest⟩

/-- A list or a pair, from what is known of its members. -/
theorem confirms_members {v : Value} {vs : List Value} {l m : Lexeme} (hl : l = .lparen ∨ l = .lbracket)
    (hv : v.printed = l :: vs.flatMap printed ++ [m]) (hvs : ∀ u ∈ vs, u.Confirms)
    (hsame : ∀ f fs, Encloses l f fs → v.same f.value = true → sameAll vs (Form.valueAll fs) = true)
    (hfaithful : areFaithful vs = true → v.isFaithful = true) : v.Confirms := by
  intro ts hts f rest rest' htokens hf
  rw [hv] at hts
  obtain ⟨p, inner, q, rfl, hinner⟩ := exists_enclosed hts
  simp only [List.cons_append, List.append_assoc, List.nil_append] at htokens
  obtain ⟨fs, closing, hencloses, hitems⟩ := form_of_bracket hl htokens
  obtain ⟨hvs', hclose⟩ := confirms_all hvs inner hinner fs _ _ hitems (hsame f fs hencloses hf)
  exact ⟨hfaithful hvs', (List.cons.inj hclose).2⟩

/-- A call, from what is known of its head and its arguments. -/
theorem confirms_call {v : Value} {args : List Value} {hs : List Lexeme}
    (hv : v.printed = .langle :: (hs ++ args.flatMap printed) ++ [.rangle]) (hargs : ∀ a ∈ args, a.Confirms)
    (hhead : ∀ ts : List Token, ts.map Token.lexeme = hs → ∀ (d : Head) (rest rest' : List Token) us info,
      d.tokens ++ rest = ts ++ rest' → v.same (d.applied us info) = true →
      rest = rest' ∧ sameAll args us = true ∧ (areFaithful args = true → v.isFaithful = true)) : v.Confirms := by
  intro ts hts f rest rest' htokens hsame
  rw [hv] at hts
  obtain ⟨p, inner, q, rfl, hinner⟩ := exists_enclosed hts
  obtain ⟨front, back, rfl, hfront, hback⟩ := List.map_eq_append_iff.1 hinner
  simp only [List.cons_append, List.append_assoc, List.nil_append] at htokens
  obtain ⟨d, fs, q', rfl, hinner'⟩ := form_of_langle htokens
  obtain ⟨htail, hus, hfaithful⟩ := hhead front hfront d _ _ (Form.valueAll fs) p.info hinner' hsame
  obtain ⟨hargs', hclose⟩ := confirms_all hargs back hback fs _ _ htail hus
  exact ⟨hfaithful hargs', (List.cons.inj hclose).2⟩

/-- All heads but names are forms, too. -/
theorem form_of_head (d : Head) : (∃ name p, d.tokens = [⟨.atom name, p⟩]) ∨
    d.read.isNode = true ∧ ∃ f : Form, f.tokens = d.tokens ∧ f.value = d.read := by
  cases d with
  | plain name p h => exact .inl ⟨name, p, rfl⟩
  | remote module function p h => exact .inl ⟨module ++ "." ++ function, p, rfl⟩
  | var name p => exact .inr ⟨rfl, .var name p, rfl, rfl⟩
  | call c => exact .inr ⟨c.isNode_value, .call c, rfl, rfl⟩
  | unquoted p operand => exact .inr ⟨rfl, .signed .unquote p operand, rfl, rfl⟩

/-- A node is written with a bracket or a variable in front, not with a name. -/
theorem exists_printed_node {v : Value} (h : v.isNode = true) :
    ∃ l ls, v.printed = l :: ls ∧ ∀ name, l ≠ .atom name := by
  cases v with
  | call f args info =>
    rw [printed_call]
    exact ⟨.langle, _, rfl, by simp⟩
  | apply head args info =>
    rw [printed, lexemes]
    exact ⟨.langle, _, rfl, by simp⟩
  | var x c info => exact ⟨.var x, [], rfl, by simp⟩
  | _ => cases h

theorem IsSource.confirms {v : Value} (h : v.IsSource) : v.Confirms := by
  induction h with
  | @call name args info _ hplain _ ih =>
    refine confirms_call (printed_call name args info) ih fun ts hts d rest rest' us info htokens hsame => ?_
    obtain ⟨p, rfl⟩ := exists_single hts
    cases d with
    | plain name' p' h =>
      obtain ⟨-, hus⟩ := Bool.and_eq_true_iff.1 hsame
      exact ⟨(List.cons.inj htokens).2, hus, id⟩
    | _ => cases hsame
  | @remote module function args i info hname _ ih =>
    refine confirms_call (printed_remote module function i info args) ih
      fun ts hts d rest rest' us info htokens hsame => ?_
    obtain ⟨p, rfl⟩ := exists_single hts
    cases d with
    | plain name p' h => cases hsame
    | remote module' function' p' hjoins =>
      simp only [Head.applied, same, sameAll, Bool.and_eq_true, beq_iff_eq, and_true, true_and] at hsame
      obtain ⟨⟨rfl, rfl⟩, hus⟩ := hsame
      refine ⟨(List.cons.inj htokens).2, hus, fun hargs => ?_⟩
      exact Bool.and_eq_true_iff.2 ⟨(isRemoteHead_iff hname).2 hjoins, hargs⟩
    | call c => cases c; simp [Head.tokens, Call.tokens] at htokens
    | _ => simp [Head.tokens] at htokens
  | @computed head args info hremote hnode _ _ ihHead ih =>
    refine confirms_call (printed_computed hremote args info) ih fun ts hts d rest rest' us info' htokens hsame => ?_
    rcases form_of_head d with ⟨name, p, hd⟩ | ⟨hread, f, hf, hvalue⟩
    · -- The head of the call would be a name.
      obtain ⟨l, ls, hprinted, hl⟩ := exists_printed_node hnode
      rw [hprinted] at hts
      obtain ⟨t, ts, rfl, rfl, -⟩ := List.map_eq_cons_iff.1 hts
      rw [hd] at htokens
      exact absurd (congrArg Token.lexeme (List.cons.inj htokens).1).symm (hl name)
    · rw [← Head.withHead_read, withHead_of_isNode hread, ← hvalue, same, Bool.and_eq_true] at hsame
      rw [← hf] at htokens
      obtain ⟨hhead, hrest⟩ := ihHead ts hts f rest rest' htokens hsame.1
      refine ⟨hrest, hsame.2, fun hargs => ?_⟩
      rw [isFaithful, hremote]
      exact Bool.and_eq_true_iff.2 ⟨hhead, hargs⟩
  | var info _ => exact confirms_leaf rfl trivial fun _ _ _ _ => rfl
  | atom _ => exact confirms_leaf rfl trivial fun _ _ _ _ => rfl
  | int _ => exact confirms_leaf rfl trivial fun _ _ _ _ => rfl
  | @float x _ =>
    have hleaf : IsLeaf (Double.lexeme x) := by
      unfold Double.lexeme
      split <;> trivial
    refine confirms_leaf rfl hleaf fun f p htokens hsame => ?_
    by_contra hpoint
    have hatom : Lexeme.printed (.number (.float x)) = .atom (Double.write Double.layout x) := if_neg hpoint
    rw [hatom] at htokens
    cases f with
    | atom name p' => cases hsame
    | call c => cases c; simp [Form.tokens, Call.tokens] at htokens
    | _ => simp [Form.tokens] at htokens
  | text s => exact confirms_leaf rfl trivial fun _ _ _ _ => rfl
  | @list items _ ih =>
    refine confirms_members (.inl rfl) (printed_list items) ih ?_ id
    rintro f fs ⟨⟩ hsame
    exact hsame
  | @pair left right _ _ ihLeft ihRight =>
    have ih : ∀ v ∈ [left, right], v.Confirms := List.forall_mem_cons.2 ⟨ihLeft, List.forall_mem_singleton.2 ihRight⟩
    refine confirms_members (.inr rfl) (printed_tuple [left, right]) ih ?_ id
    rintro f fs ⟨⟩ hsame
    exact hsame

end Value

/-! ## Source texts -/

theorem mapM_write {vs : List Value} (h : ∀ v ∈ vs, v.isWritable = true) :
    vs.mapM Value.write = .ok (Value.renderAll false vs) := by
  induction vs with
  | nil => rfl
  | cons v vs ih =>
    rw [List.forall_mem_cons] at h
    rw [List.mapM_cons, Value.write_of_isWritable h.1, ih h.2]
    rfl

/-- The text with one form to a line is scanned into what the forms are written with. -/
theorem scan_lines (file : String) {vs : List Value} (h : ∀ v ∈ vs, v.IsSource) :
    ∃ (ts : List Token) (stop : Position), ts.map Token.lexeme = vs.flatMap Value.printed ∧
      Tokens.scan file ("\n".intercalate (Value.renderAll false vs)) = .ok ⟨ts, stop⟩ :=
  (Value.spells_items (fun v hv => (h v hv).spells file) rfl rfl rfl).scan

/-- Whatever was read can be written. With one form to a line, the text is read as the same forms if and only if every
double is written with a point and every head that is a module and a function can be divided again; otherwise it is
refused or read as other forms. -/
theorem readSource_reprint {file source : String} {vs : List Value} (h : readSource file source = .ok vs) :
    ∃ texts, vs.mapM Value.write = .ok texts ∧
      ((∃ us, readSource file ("\n".intercalate texts) = .ok us ∧ Value.sameAll vs us = true) ↔
        ∀ v ∈ vs, v.isFaithful = true) := by
  have hsource := isSource_of_readSource h
  refine ⟨Value.renderAll false vs, mapM_write fun v hv => (hsource v hv).isWritable, ?_⟩
  obtain ⟨ts, stop, hts, hscan⟩ := scan_lines file hsource
  rw [readSource, hscan]
  constructor
  · rintro ⟨us, hread, hsame⟩
    obtain ⟨fs, htokens, rfl⟩ := Grammar.derived_of_read hread
    have hconfirmed := Value.confirms_all (fun v hv => (hsource v hv).confirms) ts hts fs [] []
      (congrArg (· ++ []) htokens) hsame
    exact Value.areFaithful_iff.1 hconfirmed.1
  · intro hfaithful
    obtain ⟨fs, rfl, hsame⟩ := Value.rederives_all (fun v hv => (hsource v hv).rederives (hfaithful v hv)) ts hts
    exact ⟨Form.valueAll fs, Form.readsEach file stop fs [], hsame⟩

/-- A call of a module's function with a quoted decimal, a comment, and a pair below. -/
def twoLines : String :=
  "<lib.f \x60-0.1> ; one\n[.x (2 \"a b\")]"

def twoForms : List Value :=
  [.apply (.call "." [.atom "lib", .atom "f"] (Info.read 1 2))
      [.call "quote" [.number (.float (Double.ofDecimal true 1 2 (-1)))] (Info.read 1 8)] (Info.read 1 1),
    .pair (.var "x" .direct (Info.read 2 2)) (.list [.number (.int 2), .text "a b"])]

theorem readSource_reprint_lines :
    readSource "" twoLines = .ok twoForms ∧ (∀ v ∈ twoForms, v.isFaithful = true) ∧
      ∃ texts us, twoForms.mapM Value.write = .ok texts ∧
        readSource "" ("\n".intercalate texts) = .ok us ∧ Value.sameAll twoForms us = true := by
  have hread : readSource "" twoLines = .ok twoForms := rfl
  have hfaithful : ∀ v ∈ twoForms, v.isFaithful = true := by decide +kernel
  obtain ⟨texts, hwrite, hiff⟩ := readSource_reprint hread
  obtain ⟨us, hus⟩ := hiff.2 hfaithful
  exact ⟨hread, hfaithful, texts, us, hwrite, hus⟩

/-- A large power of ten comes back as an atom. A head with dots in its names comes back divided elsewhere, or is
refused. -/
theorem reprint_not_same :
    (∃ v u, readSource "" "1.0e20" = .ok [v] ∧ v.write = .ok "1e+20" ∧ readSource "" "1e+20" = .ok [u] ∧
      v.same u = false) ∧
    (∃ v u, readSource "" "<<. A b.c> x>" = .ok [v] ∧ v.write = .ok "<A.b.c x>" ∧
      readSource "" "<A.b.c x>" = .ok [u] ∧ v.same u = false) ∧
    (∃ v e, readSource "" "<<. A. b> x>" = .ok [v] ∧ v.write = .ok "<A..b x>" ∧
      readSource "" "<A..b x>" = .error e) :=
  ⟨⟨_, _, rfl, rfl, rfl, rfl⟩, ⟨_, _, rfl, rfl, rfl, rfl⟩, ⟨_, _, rfl, rfl, rfl⟩⟩

end MacroLang
