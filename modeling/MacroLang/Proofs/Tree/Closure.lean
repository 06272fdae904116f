import MacroLang.Evaluation.Builtin
import MacroLang.Proofs.Standard
import MacroLang.Scope.Definition
import MacroLang.Tree.Template

/-!
# What is made of values is up to their standard

Building nodes, quoting, taking definitions apart and computing with built-in functions pass on what they are given. So
they give values up to every standard for values up to it. A quote is made from a fragment, in which placeholders stand
for values (`Standard.Fragment`); if trees are asked for, then these values are trees, and there is nothing that the
quote could object to as no tree (`Standard.gives_quote`).
-/

namespace MacroLang

namespace Value

/-! ## Putting in what a placeholder holds -/

theorem inject_of_isTree {v : Value} (h : v.isTree = true) (info : Info) : v.inject info = .ok v := by
  rw [inject, isTree_iff.1 h]

theorem inject_eq_ok {v u : Value} {info : Info} : v.inject info = .ok u ↔ v.isTree = true ∧ u = v := by
  constructor
  · intro h
    unfold inject at h
    split at h
    · rename_i hvalid
      cases h
      exact ⟨isTree_iff.2 hvalid, rfl⟩
    · cases h
    · cases h
  · rintro ⟨htree, rfl⟩
    exact inject_of_isTree htree info

theorem injectAll_eq_ok {vs us : List Value} {info : Info} :
    injectAll info vs = .ok us ↔ (∀ v ∈ vs, v.isTree = true) ∧ us = vs := by
  constructor
  · intro h
    induction vs generalizing us with
    | nil =>
      cases h
      exact ⟨List.forall_mem_nil _, rfl⟩
    | cons v vs ih =>
      obtain ⟨w, hw, h⟩ := except_bind_eq_ok.1 h
      obtain ⟨ws, hws, h⟩ := except_bind_eq_ok.1 h
      cases h
      obtain ⟨htree, rfl⟩ := inject_eq_ok.1 hw
      obtain ⟨htrees, rfl⟩ := ih hws
      exact ⟨List.forall_mem_cons.2 ⟨htree, htrees⟩, rfl⟩
  · rintro ⟨htrees, rfl⟩
    induction us with
    | nil => rfl
    | cons v vs ih =>
      rw [List.forall_mem_cons] at htrees
      rw [injectAll, inject_of_isTree htrees.1, ih htrees.2]
      rfl

end Value

namespace Standard

variable (S : Standard)

/-! ## Nodes -/

theorem gives_kind {v : Value} (h : S.value v) : S.Gives (fun _ => True) v.kind := by
  unfold Value.kind
  split
  case h_9 => exact routine_on (value_of_unquote h).1 rfl
  case h_10 => exact routine_on (value_of_splice h).1 rfl
  case h_11 => exact routine_on S.info_none rfl
  all_goals trivial

theorem gives_validateAll {vs : List Value} (h : ∀ v ∈ vs, S.Gives (fun _ => True) v.validate) :
    S.Gives (fun _ => True) (Value.validateAll vs) := by
  induction vs with
  | nil => trivial
  | cons v vs ih =>
    rw [List.forall_mem_cons] at h
    rw [Value.validateAll]
    exact .bind h.1 fun _ _ => ih h.2

theorem gives_validate (v : Value) : S.value v → S.Gives (fun _ => True) v.validate := by
  induction v using Value.treeInduction with
  | call name args info ih =>
    intro h
    exact S.gives_validateAll fun v hv => ih v hv ((value_call.1 h).2 v hv)
  | apply head args info ihHead ih =>
    intro h
    obtain ⟨-, hhead, hargs⟩ := value_apply.1 h
    exact .bind (ihHead hhead) fun _ _ => S.gives_validateAll fun v hv => ih v hv (hargs v hv)
  | list items ih => exact fun h => S.gives_validateAll fun v hv => ih v hv (value_list.1 h v hv)
  | tuple items ih =>
    intro h
    exact .bind (S.gives_kind h) fun _ _ => S.gives_validateAll fun v hv => ih v hv (value_of_tuple h v hv)
  | _ => exact fun h => .bind (S.gives_kind h) fun _ _ => trivial

section

variable {info : Info} (hinfo : S.info info)

include hinfo

theorem gives_checkHead (v : Value) : S.Gives (fun _ => True) (Value.checkHead info v) := by
  unfold Value.checkHead
  split
  · split
    · exact routine_on hinfo rfl
    · trivial
  all_goals first | trivial | exact routine_on hinfo rfl

theorem gives_buildAtom (name : String) : S.Gives S.value (Value.buildAtom name info) := by
  unfold Value.buildAtom
  split
  · exact routine_on hinfo rfl
  · exact value_atom name

theorem gives_buildRemote (module function : String) :
    S.Gives S.value (Value.buildRemote module function info) := by
  refine .bind (S.gives_buildAtom hinfo module) fun m hm => .bind (S.gives_buildAtom hinfo function) fun f hf => ?_
  exact value_call.2 ⟨hinfo, List.forall_mem_cons.2 ⟨hm, List.forall_mem_singleton.2 hf⟩⟩

end

theorem gives_ofValue (v : Value) : S.Gives (fun _ => True) (Context.ofValue v) := by
  unfold Context.ofValue
  split
  · trivial
  · trivial
  · trivial
  · split
    · exact routine_on S.info_none rfl
    · trivial
  · exact routine_on S.info_none rfl

theorem gives_escape {v : Value} (h : S.value v) (target : Value) : S.Gives S.value (v.escape target) := by
  unfold Value.escape
  split
  · exact .bind (S.gives_ofValue target) fun c _ => value_var.2 (info_markEscaped (value_var.1 h))
  · exact .bind (S.gives_ofValue target) fun c _ => value_var.2 (info_markEscaped S.info_none)
  · exact routine_on (info_infoD h) rfl

theorem gives_escapeArgs {args : List Value} (hargs : ∀ v ∈ args, S.value v) {info : Info} (hinfo : S.info info) :
    S.Gives S.value (Value.escapeArgs args info) := by
  unfold Value.escapeArgs
  split
  · exact S.gives_escape (hargs _ List.mem_cons_self) _
  · exact S.gives_escape (hargs _ List.mem_cons_self) _
  · exact S.gives_escape (hargs _ List.mem_cons_self) _
  · exact routine_on hinfo rfl
  · exact routine_on hinfo rfl

/-! ## Quotes -/

/-- A fragment whose nodes, and the values in whose placeholders, are up to the standard. -/
inductive Fragment : Value → Prop where
  | unquote {v : Value} {info : Info} : S.info info → S.value v → Fragment (.unquote v info)
  | splice {v : Value} {info : Info} : S.info info → S.value v → Fragment (.splice v info)
  | call {name : String} {args : List Value} {info : Info} :
    S.info info → (∀ v ∈ args, Fragment v) → Fragment (.call name args info)
  | apply {head : Value} {args : List Value} {info : Info} :
    S.info info → Fragment head → (∀ v ∈ args, Fragment v) → Fragment (.apply head args info)
  | var {name : String} {c : Context} {info : Info} : S.info info → Fragment (.var name c info)
  | atom (name : String) : Fragment (.atom name)
  | number (n : Number) : Fragment (.number n)
  | text (s : String) : Fragment (.text s)
  | list {items : List Value} : (∀ v ∈ items, Fragment v) → Fragment (.list items)
  | tuple {items : List Value} : (∀ v ∈ items, Fragment v) → Fragment (.tuple items)
  | context (c : Context) : Fragment (.context c)
  | truth (b : Bool) : Fragment (.truth b)
  | nothing : Fragment .nothing

theorem fragment_of_value (v : Value) : S.value v → S.Fragment v := by
  induction v using Value.treeInduction with
  | call name args info ih =>
    intro h
    obtain ⟨hinfo, hargs⟩ := value_call.1 h
    exact .call hinfo fun v hv => ih v hv (hargs v hv)
  | apply head args info ihHead ih =>
    intro h
    obtain ⟨hinfo, hhead, hargs⟩ := value_apply.1 h
    exact .apply hinfo (ihHead hhead) fun v hv => ih v hv (hargs v hv)
  | var name c info => exact fun h => .var (value_var.1 h)
  | list items ih => exact fun h => .list fun v hv => ih v hv (value_list.1 h v hv)
  | tuple items ih => exact fun h => .tuple fun v hv => ih v hv (value_of_tuple h v hv)
  | unquote v info => exact fun h => .unquote (value_of_unquote h).1 (value_of_unquote h).2
  | splice v info => exact fun h => .splice (value_of_splice h).1 (value_of_splice h).2
  | atom name => exact fun _ => .atom name
  | number n => exact fun _ => .number n
  | text s => exact fun _ => .text s
  | context c => exact fun _ => .context c
  | truth b => exact fun _ => .truth b
  | nothing => exact fun _ => .nothing

/-- What a placeholder holds is a tree, or it may be objected that it is none. -/
theorem gives_inject {v : Value} (hv : S.value v) {info : Info} (hinfo : S.info info) :
    S.Gives S.value (v.inject info) := by
  rcases S.fits hv hinfo with htree | hraises
  · rw [Value.inject_of_isTree htree]
    exact hv
  have hvalid := S.gives_validate v hv
  unfold Value.inject
  split
  · exact hv
  · exact error_on (hraises _ rfl)
  · exact hvalid.raises _ (by assumption)

theorem gives_injectAll {info : Info} (hinfo : S.info info) {vs : List Value} (hvs : ∀ v ∈ vs, S.value v) :
    S.Gives (fun ws => ∀ w ∈ ws, S.value w) (Value.injectAll info vs) := by
  induction vs with
  | nil => exact List.forall_mem_nil _
  | cons v vs ih =>
    rw [List.forall_mem_cons] at hvs
    refine .bind (S.gives_inject hvs.1 hinfo) fun w hw => .bind (ih hvs.2) fun ws hws => ?_
    exact List.forall_mem_cons.2 ⟨hw, hws⟩

theorem gives_injectItems {v : Value} (hv : S.value v) {info : Info} (hinfo : S.info info) :
    S.Gives (fun ws => ∀ w ∈ ws, S.value w) (v.injectItems info) := by
  unfold Value.injectItems
  split
  · rename_i items hitems
    exact S.gives_injectAll hinfo (value_of_items? hv hitems)
  · exact routine_on hinfo rfl

theorem value_headOfInjected {v : Value} (h : S.value v) : S.value v.headOfInjected := by
  cases v with
  | atom name => exact value_text name
  | _ => exact h

theorem gives_quoteAll {c : Context} {vs : List Value} (hvs : ∀ v ∈ vs, S.Fragment v)
    (h : ∀ v ∈ vs, S.Gives S.value (v.quote c)) :
    S.Gives (fun ws => ∀ w ∈ ws, S.value w) (Value.quoteAll c vs) := by
  induction vs with
  | nil => exact List.forall_mem_nil _
  | cons v vs ih =>
    rw [List.forall_mem_cons] at hvs h
    have hrest := ih hvs.2 h.2
    unfold Value.quoteAll
    split
    · exact List.forall_mem_nil _
    · rename_i heq
      cases heq
      cases hvs.1 with
      | splice hinfo hv =>
        refine .bind (S.gives_injectItems hv hinfo) fun items hitems => .bind hrest fun ws hws => ?_
        exact List.forall_mem_append.2 ⟨hitems, hws⟩
    · rename_i heq
      cases heq
      refine .bind h.1 fun w hw => .bind hrest fun ws hws => ?_
      exact List.forall_mem_cons.2 ⟨hw, hws⟩

/-- A fragment up to the standard is quoted into a value up to it. -/
theorem gives_quote (c : Context) {f : Value} (h : S.Fragment f) : S.Gives S.value (f.quote c) := by
  induction h with
  | unquote hinfo hv => exact S.gives_inject hv hinfo
  | splice hinfo hv => exact routine_on hinfo rfl
  | call hinfo hargs ih =>
    exact .bind (S.gives_quoteAll hargs ih) fun ws hws => value_call.2 ⟨info_withContext hinfo c, hws⟩
  | @apply head args info hinfo hhead hargs ihHead ih =>
    have hrest : ∀ full : Value, S.value full → S.Gives S.value (do
        let args ← Value.quoteAll c args
        Value.checkHead info full
        return Value.withHead full args (info.withContext c)) := fun full hfull =>
      .bind (S.gives_quoteAll hargs ih) fun ws hws => .bind (S.gives_checkHead hinfo full) fun _ _ =>
        value_withHead hfull hws (info_withContext hinfo c)
    rw [Value.quote.eq_def]
    dsimp only
    split
    · -- the placeholder of a head holds a value, and an atom there becomes a name
      cases hhead with
      | unquote hi hv => exact .bind (.map (S.gives_inject hv hi) fun w hw => S.value_headOfInjected hw) hrest
    · exact .bind ihHead hrest
  | @var name d info hinfo =>
    rw [Value.quote.eq_def]
    dsimp only
    split
    · exact value_var.2 hinfo
    · exact value_var.2 hinfo
  | list hitems ih => exact .bind (S.gives_quoteAll hitems ih) fun ws hws => value_list.2 hws
  | tuple hitems ih =>
    rw [Value.quote.eq_def]
    dsimp only
    split
    · refine .bind (ih _ (by simp)) fun left hl => .bind (ih _ (by simp)) fun right hr => ?_
      exact value_pair.2 ⟨hl, hr⟩
    · exact routine_on S.info_none rfl
  | atom name => exact value_atom name
  | number n => exact value_number n
  | text s => exact value_text s
  | context | truth | nothing => exact routine_on S.info_none rfl

/-! ## Definitions -/

section

variable {info : Info} (hinfo : S.info info)

include hinfo

theorem gives_variablesOf (form : String) (vs : List Value) :
    S.Gives (fun _ => True) (Definition.variablesOf form info vs) := by
  induction vs with
  | nil => trivial
  | cons v vs ih =>
    cases v with
    | var name c i => exact .bind ih fun _ _ => trivial
    | _ => exact routine_on hinfo rfl

/-- The body in a definition consists of parts of the definition. -/
theorem gives_ofForm (form : String) {args : List Value} (hargs : ∀ v ∈ args, S.value v) :
    S.Gives (fun d => ∀ e ∈ d.body, S.value e) (Definition.ofForm form args info) := by
  have hname : S.Gives (fun _ => True) (Definition.nameOf form info args) := by
    unfold Definition.nameOf
    split
    · exact routine_on hinfo rfl
    · trivial
    · split
      · exact routine_on hinfo rfl
      · trivial
    · exact routine_on hinfo rfl
  have hparams : S.Gives (fun _ => True) (Definition.paramsOf form info args) := by
    unfold Definition.paramsOf
    split
    · exact .bind (S.gives_variablesOf hinfo form _) fun params _ => .refuseIf (routine_on hinfo rfl) trivial
    · exact routine_on hinfo rfl
  exact .bind hname fun _ _ => .bind hparams fun _ _ => fun e he => hargs e (List.mem_of_mem_drop he)

/-! ## Built-in functions -/

theorem error_showing (v : Value) {cause : Cause} (h : (Error.located cause info none).isRoutine = true) :
    S.error (Builtin.showing info v cause) := by
  unfold Builtin.showing
  split
  · exact routine_on hinfo h
  · exact routine_on hinfo rfl

theorem gives_numberOf (v : Value) : S.Gives (fun _ => True) (Builtin.numberOf info v) := by
  cases v with
  | number n => trivial
  | _ => exact S.error_showing hinfo _ rfl

theorem gives_itemsOf {v : Value} (hv : S.value v) :
    S.Gives (fun items => ∀ w ∈ items, S.value w) (Builtin.itemsOf info v) := by
  unfold Builtin.itemsOf
  split
  · rename_i items hitems
    exact value_of_items? hv hitems
  · exact S.error_showing hinfo _ rfl

theorem gives_textOf (v : Value) : S.Gives (fun _ => True) (Builtin.textOf info v) := by
  unfold Builtin.textOf
  split
  · trivial
  · split
    · trivial
    · exact routine_on hinfo rfl

theorem gives_arithmetic (op : Number → Number → Except Number.Fault Number) (a b : Value) :
    S.Gives S.value (Builtin.arithmetic info op a b) := by
  refine .bind (S.gives_numberOf hinfo a) fun m _ => .bind (S.gives_numberOf hinfo b) fun n _ => ?_
  cases op m n with
  | ok r => exact value_number r
  | error fault =>
    cases fault with
    | divisionByZero => exact routine_on hinfo rfl
    | _ => exact S.unlocated rfl

theorem gives_comparison (op : Number → Number → Bool) (a b : Value) :
    S.Gives S.value (Builtin.comparison info op a b) :=
  .bind (S.gives_numberOf hinfo a) fun _ _ => .bind (S.gives_numberOf hinfo b) fun _ _ => value_ofBool _

theorem gives_memberAt {v : Value} (hv : S.value v) (index : Value) :
    S.Gives S.value (Builtin.memberAt info v index) := by
  refine .bind (S.gives_itemsOf hinfo hv) fun items hitems => .bind (S.gives_numberOf hinfo index) fun i _ => ?_
  split
  · split
    · rename_i item hitem
      split at hitem
      · cases hitem
      · exact hitems item (List.mem_of_getElem? hitem)
    · exact S.error_showing hinfo _ rfl
  · exact S.error_showing hinfo _ rfl

/-- A built-in function returns what it was given, or what it was given in a list, or no node. -/
theorem gives_run (b : Builtin) {args : List Value} (hargs : ∀ v ∈ args, S.value v) :
    S.Gives S.value (b.run info args) := by
  unfold Builtin.run
  split
  case h_1 | h_2 | h_3 | h_4 => exact S.gives_arithmetic hinfo _ _ _
  case h_5 | h_6 => exact S.gives_comparison hinfo _ _ _
  case h_7 | h_8 | h_17 | h_18 | h_19 | h_20 => exact value_ofBool _
  case h_9 => exact value_list.2 hargs
  case h_10 => exact .bind (S.gives_itemsOf hinfo (hargs _ List.mem_cons_self)) fun _ _ => value_number _
  case h_11 =>
    refine .bind (S.gives_itemsOf hinfo (hargs _ List.mem_cons_self)) fun items hitems => ?_
    cases items with
    | nil => exact routine_on hinfo rfl
    | cons v vs => exact hitems v List.mem_cons_self
  case h_12 =>
    refine .bind (S.gives_itemsOf hinfo (hargs _ List.mem_cons_self)) fun items hitems => ?_
    cases items with
    | nil => exact routine_on hinfo rfl
    | cons v vs => exact value_list.2 fun w hw => hitems w (List.mem_cons_of_mem v hw)
  case h_13 => exact S.gives_memberAt hinfo (hargs _ List.mem_cons_self) _
  case h_14 => exact value_text _
  case h_15 =>
    refine .bind (S.gives_itemsOf hinfo (hargs _ (by simp))) fun xs hxs => ?_
    refine .bind (S.gives_itemsOf hinfo (hargs _ (by simp))) fun ys hys => ?_
    exact value_list.2 (List.forall_mem_append.2 ⟨hxs, hys⟩)
  case h_16 => exact .bind (S.gives_textOf hinfo _) fun _ _ => value_text _
  case h_21 => exact .bind (S.gives_textOf hinfo _) fun _ _ => routine_on hinfo rfl
  case h_22 => exact value_nil

end

end Standard

end MacroLang
