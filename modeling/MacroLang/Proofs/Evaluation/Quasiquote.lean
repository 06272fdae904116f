import MacroLang.Proofs.Evaluation.Closure
import MacroLang.Proofs.Expansion.Meaning
import MacroLang.Proofs.Tree.Tagging

/-!
# Quotes in one pass

A quote is evaluated in two phases: the operands of its unquotes become placeholders (`evaluateQuoted`), then the
fragment is tagged and the placeholders are filled (`Value.quote`). `instantiate` goes through the template once
instead, and makes each part of the tree as it comes to it.

Main statement: `evaluate_quote_iff_instantiate`. Both ways succeed for the same templates, with the same tree and the
same final machine. The two phases are compared with the one pass at every part of the template (`Quotes`): what a
fragment is quoted into depends on the placeholders alone and not on the machine, so that it does not matter when it is
done.
-/

namespace MacroLang

/-! ## The one pass -/

namespace Value

/-- The operand of a form with a single one, as `unquote` is. -/
def operandOf? (form : String) : Value → Option Value
  | call name [e] _ => if name = form then some e else none
  | _ => none

/-- What an unquoted value is at the head of a call: an atom or a text is a name, and a node is itself. -/
def asHead (info : Info) : Value → Except Error Value
  | atom name | text name => if name.isEmpty then .error (Cause.emptyHead.on info) else .ok (text name)
  | v => if v.isNode then .ok v else .error ((Cause.headType v.typeName).on info)

/-- The members of a sequence that is spliced in. -/
def asItems (info : Info) (v : Value) : Except Error (List Value) :=
  match v.items? with
  | some items => .ok items
  | none => .error ((Cause.spliceOperand v).on info)

end Value

mutual

/-- The tree of a template, quoted in context `c`, with the operands of its unquotes evaluated on the way. -/
def instantiate (link : Linkage) (c : Context) : Value → Eval Value
  | .call name args info =>
    match name with
    | "unquote" => match args with
      | [e] => evaluate link e
      | _ => Eval.arityError name "1 argument" args info
    | "unquote_splicing" => throw (Cause.splicePlace.on info)
    | "var!" => ofExcept (Value.escapeArgs args info)
    | "quote" => return Value.tagged c (.call name args info)
    | name => do return .call name (← instantiateAll link c args) (info.withContext c)
  | .apply head args info => do
    let head ← match head.operandOf? "unquote" with
      | some e => do ofExcept ((← evaluate link e).asHead info)
      | none => instantiate link c head
    let args ← instantiateAll link c args
    return Value.withHead head args (info.withContext c)
  | .var name d info => return Value.taggedVar c name d info
  | .list items => do return .list (← instantiateAll link c items)
  | .tuple items => match items with
    | left :: right :: _ => do
      let left ← instantiate link c left
      let right ← instantiate link c right
      return .pair left right
    | _ => throw (.tooShort "tuple")
  | v => return v

/-- The members of a list or argument list. What an operand of `unquote_splicing` comes to is spliced in. -/
def instantiateAll (link : Linkage) (c : Context) : List Value → Eval (List Value)
  | [] => return []
  | e :: es => do
    let first ← match e.operandOf? "unquote_splicing" with
      | some operand => do ofExcept ((← evaluate link operand).asItems e.infoD)
      | none => do pure [← instantiate link c e]
    let rest ← instantiateAll link c es
    return first ++ rest

end

/-! ## Two phases and one pass -/

variable {link : Linkage} {c : Context} {m m' : Machine}

/-- The template is evaluated to a fragment, which is quoted into the value. -/
def Quotes (link : Linkage) (c : Context) (f : Value) (m : Machine) (v : Value) (m' : Machine) : Prop :=
  ∃ g, evaluateQuoted link f m = .ok g m' ∧ g.quote c = .ok v

def QuotesAll (link : Linkage) (c : Context) (fs : List Value) (m : Machine) (vs : List Value) (m' : Machine) : Prop :=
  ∃ gs, evaluateQuotedAll link fs m = .ok gs m' ∧ Value.quoteAll c gs = .ok vs

/-- The one pass comes to the same as the two phases. -/
def Direct (link : Linkage) (c : Context) (f : Value) : Prop :=
  ∀ m, m.Valid → ∀ v m', Quotes link c f m v m' ↔ instantiate link c f m = .ok v m'

/-- The head of a call, in one pass. -/
def instantiateHead (link : Linkage) (c : Context) (info : Info) (head : Value) : Eval Value :=
  match head.operandOf? "unquote" with
  | some e => do ofExcept ((← evaluate link e).asHead info)
  | none => instantiate link c head

theorem instantiate_apply (head : Value) (args : List Value) (info : Info) :
    instantiate link c (.apply head args info) = (do
      let head ← instantiateHead link c info head
      let args ← instantiateAll link c args
      return Value.withHead head args (info.withContext c)) := by
  rw [instantiate, instantiateHead]
  cases head.operandOf? "unquote" with
  | some e => exact (bind_assoc _ _ _).symm
  | none => rfl

/-- A member of a list, in one pass. -/
def instantiateMember (link : Linkage) (c : Context) (e : Value) : Eval (List Value) :=
  match e.operandOf? "unquote_splicing" with
  | some operand => do ofExcept ((← evaluate link operand).asItems e.infoD)
  | none => do return [← instantiate link c e]

theorem instantiateAll_cons (e : Value) (es : List Value) :
    instantiateAll link c (e :: es) = (do
      let first ← instantiateMember link c e
      let rest ← instantiateAll link c es
      return first ++ rest) := by
  rw [instantiateAll, instantiateMember]
  cases e.operandOf? "unquote_splicing" with
  | some operand => exact (bind_assoc _ _ _).symm
  | none => exact (bind_assoc _ _ _).symm

theorem Value.eq_call_of_operandOf? {form : String} {v e : Value} (h : v.operandOf? form = some e) :
    ∃ info, v = call form [e] info := by
  unfold operandOf? at h
  split at h
  · split at h
    · cases h
      rename_i hform
      exact ⟨_, by rw [hform]⟩
    · cases h
  · cases h

/-- What a template is evaluated to: a placeholder for an operand that is unquoted, and a node for another node. -/
theorem evaluateQuoted_eq_ok {f g : Value} (hf : f.isTree = true) (h : evaluateQuoted link f m = .ok g m') :
    (∃ e v info, f = .call "unquote" [e] info ∧ g = .unquote v info ∧ evaluate link e m = .ok v m') ∨
    (∃ e v info, f = .call "unquote_splicing" [e] info ∧ g = .splice v info ∧ evaluate link e m = .ok v m') ∨
    (g.isNode = f.isNode ∧ (∀ v info, g ≠ .unquote v info) ∧ ∀ v info, g ≠ .splice v info) := by
  cases f with
  | call name args info =>
    rw [evaluateQuoted.eq_def] at h
    dsimp only at h
    split at h
    · split at h
      · obtain ⟨v, m₁, hv, h⟩ := bind_eq_ok.1 h
        cases h
        exact .inl ⟨_, _, _, rfl, rfl, hv⟩
      · cases h
    · split at h
      · obtain ⟨v, m₁, hv, h⟩ := bind_eq_ok.1 h
        cases h
        exact .inr (.inl ⟨_, _, _, rfl, rfl, hv⟩)
      · cases h
    · obtain ⟨h, -⟩ := ofExcept_eq_ok.1 h
      obtain ⟨x, d, i, rfl⟩ := Expander.eq_var_of_escapeArgs h
      exact .inr (.inr ⟨rfl, by simp, by simp⟩)
    · cases h
      exact .inr (.inr ⟨rfl, by simp, by simp⟩)
    · obtain ⟨gs, m₁, -, h⟩ := bind_eq_ok.1 h
      cases h
      exact .inr (.inr ⟨rfl, by simp, by simp⟩)
  | apply head args info =>
    rw [evaluateQuoted.eq_def] at h
    obtain ⟨_, _, -, h⟩ := bind_eq_ok.1 h
    obtain ⟨_, _, -, h⟩ := bind_eq_ok.1 h
    cases h
    exact .inr (.inr ⟨rfl, by simp, by simp⟩)
  | list items =>
    rw [evaluateQuoted.eq_def] at h
    obtain ⟨_, _, -, h⟩ := bind_eq_ok.1 h
    cases h
    exact .inr (.inr ⟨rfl, by simp, by simp⟩)
  | tuple items =>
    obtain ⟨left, right, rfl, -, -⟩ := Value.isTree_tuple.1 hf
    rw [evaluateQuoted.eq_def] at h
    obtain ⟨_, _, -, h⟩ := bind_eq_ok.1 h
    obtain ⟨_, _, -, h⟩ := bind_eq_ok.1 h
    cases h
    exact .inr (.inr ⟨rfl, by simp [Value.pair], by simp [Value.pair]⟩)
  | unquote | splice => cases hf
  | _ =>
    rw [evaluateQuoted.eq_def] at h
    cases h
    exact .inr (.inr ⟨rfl, by simp, by simp⟩)

theorem Value.asHead_eq_ok {info : Info} {v head : Value} (hv : v.isTree = true) :
    v.asHead info = .ok head ↔ v.headOfInjected = head ∧ checkHead info head = .ok () := by
  cases v with
  | atom name | text name =>
    by_cases hname : name.isEmpty = true
    · have hasHead : asHead info (text name) = .error (Cause.emptyHead.on info) := if_pos hname
      have hcheck : checkHead info (text name) = .error (Cause.emptyHead.on info) := if_pos hname
      refine ⟨fun h => (nomatch hasHead.symm.trans h), ?_⟩
      rintro ⟨rfl, h⟩
      cases hcheck.symm.trans h
    · have hasHead : asHead info (text name) = .ok (text name) := if_neg hname
      have hcheck : checkHead info (text name) = .ok () := if_neg hname
      refine ⟨fun h => ?_, ?_⟩
      · cases hasHead.symm.trans h
        exact ⟨rfl, hcheck⟩
      · rintro ⟨rfl, -⟩
        exact hasHead
  | call | apply | var => exact ⟨fun h => by cases h; exact ⟨rfl, rfl⟩, fun h => congrArg Except.ok h.1⟩
  | unquote | splice => cases hv
  | _ => exact ⟨nofun, by rintro ⟨rfl, h⟩; cases h⟩

theorem Value.asItems_eq {v : Value} (h : v.isTree = true) (info : Info) : v.injectItems info = v.asItems info := by
  unfold injectItems asItems
  cases hitems : v.items? with
  | none => rfl
  | some items => exact injectAll_eq_ok.2 ⟨Standard.value_of_items? (S := .trees) h hitems, rfl⟩

variable (hlink : link.Meets .trees)

include hlink

theorem instantiateHead_iff {head : Value} (htree : head.isTree = true) (hnode : head.isNode = true)
    (hdirect : Direct link c head) (hm : m.Valid) (info : Info) (v : Value) :
    (∃ g, evaluateQuoted link head m = .ok g m' ∧ g.quoteHead c = .ok v ∧ Value.checkHead info v = .ok ()) ↔
      instantiateHead link c info head m = .ok v m' := by
  unfold instantiateHead
  cases hoperand : head.operandOf? "unquote" with
  | some e =>
    obtain ⟨i, rfl⟩ := Value.eq_call_of_operandOf? hoperand
    have he : e.isTree = true := Value.isTree_call.1 htree e List.mem_cons_self
    have hmade : ∀ u m₁, evaluate link e m = .ok u m₁ → u.isTree = true := fun u m₁ hu =>
      ((Eval.closed_of_value hlink e he).code.of_ok hm hu).1
    constructor
    · rintro ⟨g, hg, hv, hcheck⟩
      obtain ⟨u, m₁, hu, h⟩ := bind_eq_ok.1 hg
      cases h
      rw [Value.quoteHead, Value.inject_of_isTree (hmade u _ hu)] at hv
      have hhead := (Value.asHead_eq_ok (hmade u _ hu)).2 ⟨Except.ok.inj hv, hcheck⟩
      exact bind_eq_ok.2 ⟨u, _, hu, ofExcept_eq_ok.2 ⟨hhead, rfl⟩⟩
    · intro h
      obtain ⟨u, m₁, hu, h⟩ := bind_eq_ok.1 h
      obtain ⟨hhead, rfl⟩ := ofExcept_eq_ok.1 h
      obtain ⟨hv, hcheck⟩ := (Value.asHead_eq_ok (hmade u _ hu)).1 hhead
      refine ⟨.unquote u i, bind_eq_ok.2 ⟨u, _, hu, rfl⟩, ?_, hcheck⟩
      rw [Value.quoteHead, Value.inject_of_isTree (hmade u _ hu), ← hv]
      rfl
  | none =>
    refine Iff.trans ?_ (hdirect m hm v m')
    constructor
    · rintro ⟨g, hg, hv, -⟩
      refine ⟨g, hg, ?_⟩
      rcases evaluateQuoted_eq_ok htree hg with ⟨e, u, i, rfl, -⟩ | ⟨e, u, i, rfl, rfl, -⟩ | ⟨-, hplain, -⟩
      · cases hoperand
      · exact hv
      · rwa [Value.quoteHead_of_not_unquote hplain] at hv
    · rintro ⟨g, hg, hv⟩
      rcases evaluateQuoted_eq_ok htree hg with ⟨e, u, i, rfl, -⟩ | ⟨e, u, i, rfl, rfl, -⟩ | ⟨hsame, hplain, -⟩
      · cases hoperand
      · cases hv
      · refine ⟨g, hg, (Value.quoteHead_of_not_unquote hplain c).trans hv, ?_⟩
        exact Value.checkHead_of_isNode (Value.isNode_of_quote (hsame.trans hnode) hv) info

theorem instantiateMember_iff {e : Value} (htree : e.isTree = true) (hdirect : Direct link c e) (hm : m.Valid)
    (vs : List Value) :
    (∃ g, evaluateQuoted link e m = .ok g m' ∧ g.quoteMember c = .ok vs) ↔
      instantiateMember link c e m = .ok vs m' := by
  unfold instantiateMember
  cases hoperand : e.operandOf? "unquote_splicing" with
  | some operand =>
    obtain ⟨i, rfl⟩ := Value.eq_call_of_operandOf? hoperand
    have hoperandTree : operand.isTree = true := Value.isTree_call.1 htree operand List.mem_cons_self
    have hmade : ∀ u m₁, evaluate link operand m = .ok u m₁ → u.injectItems i = u.asItems i := fun u m₁ hu =>
      Value.asItems_eq ((Eval.closed_of_value hlink operand hoperandTree).code.of_ok hm hu).1 i
    constructor
    · rintro ⟨g, hg, hvs⟩
      obtain ⟨u, m₁, hu, h⟩ := bind_eq_ok.1 hg
      cases h
      exact bind_eq_ok.2 ⟨u, _, hu, ofExcept_eq_ok.2 ⟨(hmade u _ hu).symm.trans hvs, rfl⟩⟩
    · intro h
      obtain ⟨u, m₁, hu, h⟩ := bind_eq_ok.1 h
      obtain ⟨hvs, rfl⟩ := ofExcept_eq_ok.1 h
      exact ⟨.splice u i, bind_eq_ok.2 ⟨u, _, hu, rfl⟩, (hmade u _ hu).trans hvs⟩
  | none =>
    have hplain : ∀ g, evaluateQuoted link e m = .ok g m' → ∀ u i, g ≠ .splice u i := by
      intro g hg
      rcases evaluateQuoted_eq_ok htree hg with ⟨e, u, i, rfl, rfl, -⟩ | ⟨e, u, i, rfl, -⟩ | ⟨-, -, hplain⟩
      · simp
      · cases hoperand
      · exact hplain
    constructor
    · rintro ⟨g, hg, hvs⟩
      obtain ⟨v, hv, rfl⟩ := (Value.quoteMember_of_not_splice (hplain g hg)).1 hvs
      exact bind_eq_ok.2 ⟨v, m', (hdirect m hm v m').1 ⟨g, hg, hv⟩, rfl⟩
    · intro h
      obtain ⟨v, m₁, hv, h⟩ := bind_eq_ok.1 h
      cases h
      obtain ⟨g, hg, hquote⟩ := (hdirect m hm v m').2 hv
      exact ⟨g, hg, (Value.quoteMember_of_not_splice (hplain g hg)).2 ⟨v, hquote, rfl⟩⟩

theorem instantiateAll_iff {es : List Value} (htrees : ∀ e ∈ es, e.isTree = true)
    (hdirect : ∀ e ∈ es, Direct link c e) (hm : m.Valid) (vs : List Value) :
    QuotesAll link c es m vs m' ↔ instantiateAll link c es m = .ok vs m' := by
  induction es generalizing m vs with
  | nil =>
    rw [instantiateAll]
    constructor
    · rintro ⟨gs, hgs, hvs⟩
      rw [evaluateQuotedAll] at hgs
      cases hgs
      rw [Value.quoteAll] at hvs
      cases hvs
      rfl
    · intro h
      cases h
      exact ⟨[], by rw [evaluateQuotedAll]; rfl, by rw [Value.quoteAll]⟩
  | cons e es ih =>
    rw [List.forall_mem_cons] at htrees hdirect
    rw [instantiateAll_cons]
    constructor
    · rintro ⟨gs, hgs, hvs⟩
      rw [evaluateQuotedAll] at hgs
      obtain ⟨g, m₁, hg, hgs⟩ := bind_eq_ok.1 hgs
      obtain ⟨gs', m₂, hgs', h⟩ := bind_eq_ok.1 hgs
      cases h
      rw [Value.quoteAll_cons_eq] at hvs
      obtain ⟨first, hfirst, hvs⟩ := except_bind_eq_ok.1 hvs
      obtain ⟨rest, hrest, h⟩ := except_bind_eq_ok.1 hvs
      cases h
      have hm₁ : m₁.Valid := ((Eval.closed_of_value hlink e htrees.1).quoted.of_ok hm hg).2
      refine bind_eq_ok.2 ⟨first, m₁, (instantiateMember_iff hlink htrees.1 hdirect.1 hm _).1 ⟨g, hg, hfirst⟩, ?_⟩
      exact bind_eq_ok.2 ⟨rest, m', (ih htrees.2 hdirect.2 hm₁ rest).1 ⟨gs', hgs', hrest⟩, rfl⟩
    · intro h
      obtain ⟨first, m₁, hfirst, h⟩ := bind_eq_ok.1 h
      obtain ⟨rest, m₂, hrest, h⟩ := bind_eq_ok.1 h
      cases h
      obtain ⟨g, hg, hquote⟩ := (instantiateMember_iff hlink htrees.1 hdirect.1 hm _).2 hfirst
      have hm₁ : m₁.Valid := ((Eval.closed_of_value hlink e htrees.1).quoted.of_ok hm hg).2
      obtain ⟨gs, hgs, hquotes⟩ := (ih htrees.2 hdirect.2 hm₁ rest).2 hrest
      refine ⟨g :: gs, ?_, ?_⟩
      · rw [evaluateQuotedAll]
        exact bind_eq_ok.2 ⟨g, m₁, hg, bind_eq_ok.2 ⟨gs, m', hgs, rfl⟩⟩
      · rw [Value.quoteAll_cons_eq]
        exact except_bind_eq_ok.2 ⟨first, hquote, except_bind_eq_ok.2 ⟨rest, hquotes, rfl⟩⟩

theorem direct_unquote {args : List Value} (htrees : ∀ a ∈ args, a.isTree = true) (info : Info) :
    Direct link c (.call "unquote" args info) := by
  intro m hm v m'
  rw [Quotes, evaluateQuoted.eq_def, instantiate.eq_def]
  rcases args with _ | ⟨e, _ | ⟨second, others⟩⟩
  · constructor
    · rintro ⟨g, hg, -⟩
      cases hg
    · intro h
      cases h
  · have hmade : ∀ u m₁, evaluate link e m = .ok u m₁ → u.inject info = .ok u := fun u m₁ hu =>
      Value.inject_of_isTree ((Eval.closed_of_value hlink e (htrees e List.mem_cons_self)).code.of_ok hm hu).1 info
    constructor
    · rintro ⟨g, hg, hv⟩
      obtain ⟨u, m₁, hu, h⟩ := bind_eq_ok.1 hg
      cases h
      rw [Value.quote, hmade u _ hu] at hv
      cases hv
      exact hu
    · intro hv
      exact ⟨.unquote v info, bind_eq_ok.2 ⟨v, m', hv, rfl⟩, by rw [Value.quote, hmade v m' hv]⟩
  · constructor
    · rintro ⟨g, hg, -⟩
      cases hg
    · intro h
      cases h

omit hlink in
theorem direct_splice (args : List Value) (info : Info) : Direct link c (.call "unquote_splicing" args info) := by
  intro m hm v m'
  rw [Quotes, evaluateQuoted.eq_def, instantiate.eq_def]
  dsimp only
  refine Iff.intro ?_ fun h => by cases h
  split
  · rintro ⟨g, hg, hv⟩
    obtain ⟨u, m₁, -, h⟩ := bind_eq_ok.1 hg
    cases h
    cases hv
  · rintro ⟨g, hg, -⟩
    cases hg

omit hlink in
theorem direct_escape (args : List Value) (info : Info) : Direct link c (.call "var!" args info) := by
  intro m hm v m'
  rw [Quotes, evaluateQuoted.eq_def, instantiate.eq_def]
  dsimp only
  have hkept : ∀ u, Value.escapeArgs args info = .ok u → u.quote c = .ok u := by
    intro u hu
    obtain ⟨x, d, i, rfl⟩ := Expander.eq_var_of_escapeArgs hu
    exact Value.quote_var c x d _
  constructor
  · rintro ⟨g, hg, hv⟩
    rw [hkept g (ofExcept_eq_ok.1 hg).1] at hv
    cases hv
    exact hg
  · intro hv
    exact ⟨v, hv, hkept v (ofExcept_eq_ok.1 hv).1⟩

omit hlink in
/-- A template without a part to evaluate. -/
theorem direct_of_pure {f v : Value} (hfragment : evaluateQuoted link f = pure f) (hquote : f.quote c = .ok v)
    (hone : instantiate link c f = pure v) : Direct link c f := by
  intro m hm u m'
  rw [Quotes, hfragment, hone]
  constructor
  · rintro ⟨g, hg, hu⟩
    cases hg
    cases hquote.symm.trans hu
    rfl
  · intro h
    cases h
    exact ⟨f, rfl, hquote⟩

theorem direct_call {name : String} {args : List Value} {info : Info}
    (htree : (Value.call name args info).isTree = true) (hheaded : (Value.call name args info).isHeaded = true)
    (hdirect : ∀ a ∈ args, Direct link c a) :
    Direct link c (.call name args info) := by
  have hargs := Value.isTree_call.1 htree
  by_cases hunquote : name = "unquote"
  · subst hunquote
    exact direct_unquote hlink hargs info
  by_cases hsplice : name = "unquote_splicing"
  · subst hsplice
    exact direct_splice args info
  by_cases hescape : name = "var!"
  · subst hescape
    exact direct_escape args info
  by_cases hquote : name = "quote"
  · subst hquote
    exact direct_of_pure (by rw [evaluateQuoted.eq_def]; rfl) (Value.quote_of_isTree c _ htree hheaded)
      (by rw [instantiate.eq_def]; rfl)
  intro m hm v m'
  rw [Quotes, evaluateQuoted, instantiate]
  · constructor
    · rintro ⟨g, hg, hv⟩
      obtain ⟨gs, m₁, hgs, h⟩ := bind_eq_ok.1 hg
      cases h
      rw [Value.quote] at hv
      obtain ⟨vs, hvs, h⟩ := except_bind_eq_ok.1 hv
      cases h
      exact bind_eq_ok.2 ⟨vs, m', (instantiateAll_iff hlink hargs hdirect hm vs).1 ⟨gs, hgs, hvs⟩, rfl⟩
    · intro h
      obtain ⟨vs, m₁, hvs, h⟩ := bind_eq_ok.1 h
      cases h
      obtain ⟨gs, hgs, hquotes⟩ := (instantiateAll_iff hlink hargs hdirect hm vs).2 hvs
      refine ⟨.call name gs info, bind_eq_ok.2 ⟨gs, m', hgs, rfl⟩, ?_⟩
      rw [Value.quote]
      exact except_bind_eq_ok.2 ⟨vs, hquotes, rfl⟩
  all_goals assumption

theorem direct_apply {head : Value} {args : List Value} {info : Info}
    (htree : (Value.apply head args info).isTree = true) (hnode : head.isNode = true) (hhead : Direct link c head)
    (hdirect : ∀ a ∈ args, Direct link c a) : Direct link c (.apply head args info) := by
  obtain ⟨hheadTree, hargs⟩ := Value.isTree_apply.1 htree
  have hkept := (Eval.closed_of_value hlink head hheadTree).quoted
  intro m hm v m'
  rw [Quotes, evaluateQuoted, instantiate_apply]
  constructor
  · rintro ⟨g, hg, hv⟩
    obtain ⟨h, m₁, hh, hg⟩ := bind_eq_ok.1 hg
    obtain ⟨gs, m₂, hgs, hg⟩ := bind_eq_ok.1 hg
    cases hg
    rw [Value.quote_apply_eq] at hv
    obtain ⟨u, hu, hv⟩ := except_bind_eq_ok.1 hv
    obtain ⟨vs, hvs, hv⟩ := except_bind_eq_ok.1 hv
    obtain ⟨_, hcheck, hv⟩ := except_bind_eq_ok.1 hv
    cases hv
    have hhead' := (instantiateHead_iff hlink hheadTree hnode hhead hm info u).1 ⟨h, hh, hu, hcheck⟩
    have hargs' := (instantiateAll_iff hlink hargs hdirect (hkept.of_ok hm hh).2 vs).1 ⟨gs, hgs, hvs⟩
    exact bind_eq_ok.2 ⟨u, m₁, hhead', bind_eq_ok.2 ⟨vs, m', hargs', rfl⟩⟩
  · intro hrun
    obtain ⟨u, m₁, hu, hrun⟩ := bind_eq_ok.1 hrun
    obtain ⟨vs, m₂, hvs, hrun⟩ := bind_eq_ok.1 hrun
    cases hrun
    obtain ⟨h, hh, hquote, hcheck⟩ := (instantiateHead_iff hlink hheadTree hnode hhead hm info u).2 hu
    obtain ⟨gs, hgs, hquotes⟩ := (instantiateAll_iff hlink hargs hdirect (hkept.of_ok hm hh).2 vs).2 hvs
    refine ⟨.apply h gs info, bind_eq_ok.2 ⟨h, m₁, hh, bind_eq_ok.2 ⟨gs, m', hgs, rfl⟩⟩, ?_⟩
    rw [Value.quote_apply_eq]
    exact except_bind_eq_ok.2 ⟨u, hquote, except_bind_eq_ok.2 ⟨vs, hquotes, except_bind_eq_ok.2 ⟨(), hcheck, rfl⟩⟩⟩

theorem direct_list {items : List Value} (htrees : ∀ e ∈ items, e.isTree = true)
    (hdirect : ∀ e ∈ items, Direct link c e) : Direct link c (.list items) := by
  intro m hm v m'
  rw [Quotes, evaluateQuoted, instantiate]
  constructor
  · rintro ⟨g, hg, hv⟩
    obtain ⟨gs, m₁, hgs, h⟩ := bind_eq_ok.1 hg
    cases h
    rw [Value.quote] at hv
    obtain ⟨vs, hvs, h⟩ := except_bind_eq_ok.1 hv
    cases h
    exact bind_eq_ok.2 ⟨vs, m', (instantiateAll_iff hlink htrees hdirect hm vs).1 ⟨gs, hgs, hvs⟩, rfl⟩
  · intro h
    obtain ⟨vs, m₁, hvs, h⟩ := bind_eq_ok.1 h
    cases h
    obtain ⟨gs, hgs, hquotes⟩ := (instantiateAll_iff hlink htrees hdirect hm vs).2 hvs
    refine ⟨.list gs, bind_eq_ok.2 ⟨gs, m', hgs, rfl⟩, ?_⟩
    rw [Value.quote]
    exact except_bind_eq_ok.2 ⟨vs, hquotes, rfl⟩

theorem direct_pair {left right : Value} (hl : left.isTree = true) (hleft : Direct link c left)
    (hright : Direct link c right) : Direct link c (.tuple [left, right]) := by
  have hkept := (Eval.closed_of_value hlink left hl).quoted
  intro m hm v m'
  rw [Quotes, evaluateQuoted, instantiate]
  constructor
  · rintro ⟨g, hg, hv⟩
    obtain ⟨g₁, m₁, hg₁, hg⟩ := bind_eq_ok.1 hg
    obtain ⟨g₂, m₂, hg₂, hg⟩ := bind_eq_ok.1 hg
    cases hg
    rw [Value.pair, Value.quote] at hv
    obtain ⟨v₁, hv₁, hv⟩ := except_bind_eq_ok.1 hv
    obtain ⟨v₂, hv₂, hv⟩ := except_bind_eq_ok.1 hv
    cases hv
    have hleft' := (hleft m hm v₁ m₁).1 ⟨g₁, hg₁, hv₁⟩
    have hright' := (hright m₁ (hkept.of_ok hm hg₁).2 v₂ m').1 ⟨g₂, hg₂, hv₂⟩
    exact bind_eq_ok.2 ⟨v₁, m₁, hleft', bind_eq_ok.2 ⟨v₂, m', hright', rfl⟩⟩
  · intro hrun
    obtain ⟨v₁, m₁, hv₁, hrun⟩ := bind_eq_ok.1 hrun
    obtain ⟨v₂, m₂, hv₂, hrun⟩ := bind_eq_ok.1 hrun
    cases hrun
    obtain ⟨g₁, hg₁, hquote₁⟩ := (hleft m hm v₁ m₁).2 hv₁
    obtain ⟨g₂, hg₂, hquote₂⟩ := (hright m₁ (hkept.of_ok hm hg₁).2 v₂ m').2 hv₂
    refine ⟨.pair g₁ g₂, bind_eq_ok.2 ⟨g₁, m₁, hg₁, bind_eq_ok.2 ⟨g₂, m', hg₂, rfl⟩⟩, ?_⟩
    rw [Value.pair, Value.quote]
    exact except_bind_eq_ok.2 ⟨v₁, hquote₁, except_bind_eq_ok.2 ⟨v₂, hquote₂, rfl⟩⟩

/-- At every part of a template, the one pass comes to the same as the two phases. -/
theorem direct_of_isTree (f : Value) : f.isTree = true → f.isHeaded = true → Direct link c f := by
  induction f using Value.treeInduction with
  | call name args info ih =>
    intro htree hheaded
    exact direct_call hlink htree hheaded fun a ha =>
      ih a ha (Value.isTree_call.1 htree a ha) (Value.areHeaded_iff.1 hheaded a ha)
  | apply head args info ihHead ih =>
    intro htree hheaded
    obtain ⟨hhead, hargs⟩ := Value.isTree_apply.1 htree
    rw [Value.isHeaded, Bool.and_eq_true, Bool.and_eq_true, Value.areHeaded_iff] at hheaded
    obtain ⟨⟨hnode, hheadHeaded⟩, hheaded⟩ := hheaded
    exact direct_apply hlink htree hnode (ihHead hhead hheadHeaded) fun a ha => ih a ha (hargs a ha) (hheaded a ha)
  | list items ih =>
    intro htree hheaded
    have hitems := Value.isTree_list.1 htree
    exact direct_list hlink hitems fun e he => ih e he (hitems e he) (Value.areHeaded_iff.1 hheaded e he)
  | tuple items ih =>
    intro htree hheaded
    obtain ⟨left, right, rfl, hl, hr⟩ := Value.isTree_tuple.1 htree
    have hparts := Value.areHeaded_iff.1 hheaded
    exact direct_pair hlink hl (ih left (by simp) hl (hparts left (by simp)))
      (ih right (by simp) hr (hparts right (by simp)))
  | var name d info =>
    intro _ _
    exact direct_of_pure (by rw [evaluateQuoted.eq_def]) (Value.quote_var c name d info) (by rw [instantiate.eq_def])
  | atom | number | text =>
    intro _ _
    exact direct_of_pure (by rw [evaluateQuoted.eq_def]) rfl (by rw [instantiate.eq_def])
  | _ =>
    intro htree
    cases htree

omit hlink

/-! ## Quotes -/

/-- The two phases of a quote come to the same as the one pass over its template, with the context of the module that
the code runs in. -/
theorem evaluate_quote_iff_instantiate (imported : Imports) (depth : Nat) {f : Value} (htree : f.isTree = true)
    (hheaded : f.isHeaded = true) (info : Info) {m : Machine} (hm : m.Valid) (v : Value) (m' : Machine) :
    evaluate (.within imported depth) (.call "quote" [f] info) m = .ok v m' ↔
      instantiate (.within imported depth) (.quotedIn m.home.name) f m = .ok v m' := by
  have hdirect := direct_of_isTree (c := .quotedIn m.home.name) (Linkage.meets_within imported depth) f htree hheaded
  have hstays := Eval.stays_evaluateQuoted (Eval.callsKeep_within imported depth) m.home.name f
  rw [← hdirect m hm v m', evaluate_quote, bind_eq_ok]
  constructor
  · rintro ⟨g, m₁, hg, hv⟩
    rw [get_bind, ofExcept_eq_ok, hstays.of_ok rfl hg] at hv
    obtain ⟨hv, rfl⟩ := hv
    exact ⟨g, hg, hv⟩
  · rintro ⟨g, hg, hv⟩
    refine ⟨g, m', hg, ?_⟩
    rw [get_bind, ofExcept_eq_ok, hstays.of_ok rfl hg]
    exact ⟨hv, rfl⟩

/-- An unquoted atom is the name of a call, and two numbers are spliced in behind a variable of the quote. -/
theorem evaluate_quote_iff_instantiate_splice :
    let f : Value := .apply (.call "unquote" [.var "h" .direct {}] {})
      [.var "y" .direct {}, .call "unquote_splicing" [.var "xs" .direct {}] {}] {}
    let env := (Env.bind [] ⟨"h", .direct⟩ (.atom "f")).bind ⟨"xs", .direct⟩
      (.list [.number (.int 1), .number (.int 2)])
    let m : Machine := ⟨{}, .loaded "App", env, false⟩
    f.isTree = true ∧ f.isHeaded = true ∧ m.Valid ∧
      evaluate (.within (fun _ _ => []) 1) (.call "quote" [f] {}) m =
        .ok (.call "f" [.var "y" (.quotedIn "App") {}, .number (.int 1), .number (.int 2)]
          { context := some (.quotedIn "App") }) m := by
  intro f env m
  have hm : m.Valid := ⟨List.forall_mem_nil _, trivial, (Env.meets_nil.bind _ rfl).bind _ rfl⟩
  exact ⟨rfl, rfl, hm, (evaluate_quote_iff_instantiate (fun _ _ => []) 1 rfl rfl {} hm _ _).2 rfl⟩

/-- A variable that is marked as escaped in the template does not get the context of the module. -/
theorem quote_keeps_escaped_variable :
    let f : Value := .var "x" .direct (Info.markEscaped {})
    let m : Machine := ⟨{}, .loaded "App", [], false⟩
    f.isTree = true ∧ m.Valid ∧ evaluate (.within (fun _ _ => []) 1) (.call "quote" [f] {}) m = .ok f m ∧
      f ≠ .var "x" (.quotedIn "App") (Info.markEscaped {}) := by
  intro f m
  exact ⟨rfl, ⟨List.forall_mem_nil _, trivial, Env.meets_nil⟩, rfl, by simp [f]⟩

end MacroLang
