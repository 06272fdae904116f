import MacroLang.Proofs.Evaluation.Definitions
import MacroLang.Proofs.Tree.Closure
import MacroLang.Proofs.Tree.Variables

/-!
# What holds of all evaluation

Evaluation is code put together from a few steps: variables are looked up and bound, functions are defined and
called, and everything else is decided on the tree, where only common errors come up. A property of code that holds of
these steps, and of code put together from code that has it, therefore holds of the evaluation of every tree:
`Eval.Laws.evaluate`. The same goes for two runs of code, under one linkage and under another: so the laws are those of
a relation, and a property of code is a relation that looks at one side only. The steps that a tree can take on
variables are bounded by the variables that it mentions and the targets that it writes to (`Value.Within`), and the
functions that it can define by the definitions in it.
-/

namespace MacroLang

/-- The laws of a relation between code under one linkage and code under another, when only variables in `reads` are
looked up, only those in `writes` are bound and only definitions in `defines` are made. -/
structure Eval.Laws (link link' : Linkage) (reads writes : Variable → Prop) (defines : Value → Prop)
    (P : ⦃α : Type⦄ → Eval α → Eval α → Prop) : Prop where
  pure {α : Type} (a : α) : P (Pure.pure a : Eval α) (Pure.pure a)
  throw {α : Type} (e : Error) : e.isCommon = true → P (MonadExcept.throw e : Eval α) (MonadExcept.throw e)
  andThen {α γ : Type} {code code' : Eval α} {next next' : α → Eval γ} :
    P code code' → (∀ a, P (next a) (next' a)) → P (code >>= next) (code' >>= next')
  /-- The module that the code runs in may be asked for. -/
  atHome {α : Type} (next : Home → Eval α) :
    (∀ home, P (next home) (next home)) → P (get >>= fun m => next m.home) (get >>= fun m => next m.home)
  lookup {x : Variable} (info : Info) : reads x → P (Eval.lookup x info) (Eval.lookup x info)
  bind {x : Variable} (v : Value) : writes x → P (Eval.bind x v) (Eval.bind x v)
  define {form : String} {args : List Value} {info : Info} :
    defines (.call form args info) → P (Eval.define form args info) (Eval.define form args info)
  callLocal (name : String) (args : List Value) (info : Info) :
    P (Eval.callLocal link name args info) (Eval.callLocal link' name args info)
  /-- Private functions are called from inside their module only. -/
  callRemote (module name : String) (args : List Value) (info : Info) :
    P (get >>= fun m => Eval.callRemote link (m.home.isLoadedAs module) module name args info)
      (get >>= fun m => Eval.callRemote link' (m.home.isLoadedAs module) module name args info)

/-- The variables that a tree mentions may be read, and the targets in it may be written to. -/
structure Value.Within (reads writes : Variable → Prop) (e : Value) : Prop where
  reads : ∀ x ∈ e.vars, reads x
  writes : ∀ x ∈ e.targets, writes x

namespace Value.Within

variable {reads writes : Variable → Prop}

theorem of_call {name : String} {args : List Value} {info : Info} (hn : name ≠ "var!")
    (h : (call name args info).Within reads writes) : ∀ e ∈ args, e.Within reads writes := by
  intro e he
  refine ⟨fun x hx => h.reads x ((mem_vars_call hn).2 ⟨e, he, hx⟩), fun x hx => h.writes x ?_⟩
  rw [targets, if_neg hn]
  exact List.mem_append_right _ (mem_targetsAll.2 ⟨e, he, hx⟩)

theorem of_apply {head : Value} {args : List Value} {info : Info}
    (h : (apply head args info).Within reads writes) :
    head.Within reads writes ∧ ∀ e ∈ args, e.Within reads writes := by
  refine ⟨⟨fun x hx => h.reads x (mem_vars_apply.2 (.inl hx)), fun x hx => h.writes x ?_⟩,
    fun e he => ⟨fun x hx => h.reads x (mem_vars_apply.2 (.inr ⟨e, he, hx⟩)),
      fun x hx => h.writes x ?_⟩⟩
  · exact List.mem_append_left _ hx
  · exact List.mem_append_right _ (mem_targetsAll.2 ⟨e, he, hx⟩)

theorem of_list {items : List Value} (h : (list items).Within reads writes) :
    ∀ e ∈ items, e.Within reads writes := fun e he =>
  ⟨fun x hx => h.reads x (mem_vars_list.2 ⟨e, he, hx⟩),
    fun x hx => h.writes x (mem_targetsAll.2 ⟨e, he, hx⟩)⟩

theorem of_tuple {items : List Value} (h : (tuple items).Within reads writes) :
    ∀ e ∈ items, e.Within reads writes := fun e he =>
  ⟨fun x hx => h.reads x (mem_vars_tuple.2 ⟨e, he, hx⟩),
    fun x hx => h.writes x (mem_targetsAll.2 ⟨e, he, hx⟩)⟩

theorem of_target {x : String} {c : Context} {i info : Info} {e : Value}
    (h : (call "=" [var x c i, e] info).Within reads writes) : writes ⟨x, c⟩ :=
  h.writes _ (by simp [targets, target])

end Value.Within

theorem Form.ofName?_bind {name : String} : Form.ofName? name = some .bind → name = "=" := by
  unfold Form.ofName?
  split <;> simp

theorem Form.ofName?_escape {name : String} : Form.ofName? name = some .escape ↔ name = "var!" := by
  unfold Form.ofName?
  split <;> simp_all

namespace Eval.Laws

variable {link link' : Linkage} {reads writes : Variable → Prop} {defines : Value → Prop}
  {P : ⦃α : Type⦄ → Eval α → Eval α → Prop}

theorem ofExcept (L : Laws link link' reads writes defines P) {α : Type} {r : Except Error α} (h : Common r) :
    P (MonadExcept.ofExcept r : Eval α) (MonadExcept.ofExcept r) := by
  cases r with
  | ok a => exact L.pure a
  | error e => exact L.throw e (h e rfl)

/-! ## Lists of forms -/

theorem evaluateAll (L : Laws link link' reads writes defines P) {es : List Value}
    (h : ∀ e ∈ es, P (evaluate link e) (evaluate link' e)) : P (evaluateAll link es) (evaluateAll link' es) := by
  induction es with
  | nil => exact L.pure _
  | cons e es ih =>
    rw [MacroLang.evaluateAll, MacroLang.evaluateAll]
    refine L.andThen (h e List.mem_cons_self) fun v => ?_
    exact L.andThen (ih fun e he => h e (List.mem_cons_of_mem _ he)) fun vs => L.pure _

theorem evaluateBody (L : Laws link link' reads writes defines P) {es : List Value} (last : Value)
    (h : ∀ e ∈ es, P (evaluate link e) (evaluate link' e)) :
    P (evaluateBody link last es) (evaluateBody link' last es) := by
  induction es generalizing last with
  | nil => exact L.pure _
  | cons e es ih =>
    rw [MacroLang.evaluateBody, MacroLang.evaluateBody]
    exact L.andThen (h e List.mem_cons_self) fun v => ih v fun e he => h e (List.mem_cons_of_mem _ he)

theorem evaluateWhile (L : Laws link link' reads writes defines P) {es : List Value} (goOn : Bool) (last : Value)
    (h : ∀ e ∈ es, P (evaluate link e) (evaluate link' e)) :
    P (evaluateWhile link goOn last es) (evaluateWhile link' goOn last es) := by
  induction es generalizing last with
  | nil => exact L.pure _
  | cons e es ih =>
    rw [MacroLang.evaluateWhile, MacroLang.evaluateWhile]
    refine L.andThen (h e List.mem_cons_self) fun v => ?_
    split
    · exact ih v fun e he => h e (List.mem_cons_of_mem _ he)
    · exact L.pure v

theorem evaluateQuotedAll (L : Laws link link' reads writes defines P) {es : List Value}
    (h : ∀ e ∈ es, P (evaluateQuoted link e) (evaluateQuoted link' e)) :
    P (evaluateQuotedAll link es) (evaluateQuotedAll link' es) := by
  induction es with
  | nil => exact L.pure _
  | cons e es ih =>
    rw [MacroLang.evaluateQuotedAll, MacroLang.evaluateQuotedAll]
    refine L.andThen (h e List.mem_cons_self) fun v => ?_
    exact L.andThen (ih fun e he => h e (List.mem_cons_of_mem _ he)) fun vs => L.pure _

/-! ## Trees -/

/-- A call of `var!` looks up the variable that it mentions. -/
theorem evaluate_escape (L : Laws link link' reads writes defines P) {args : List Value} {info : Info}
    (h : (Value.call "var!" args info).Within reads writes) :
    P (evaluate link (.call "var!" args info)) (evaluate link' (.call "var!" args info)) := by
  rw [evaluate.eq_def, evaluate.eq_def link']
  show P (MonadExcept.ofExcept (Value.escapeArgs args info) >>= _)
    (MonadExcept.ofExcept (Value.escapeArgs args info) >>= _)
  have hreads := h.reads
  have hcommon : Common (Value.escapeArgs args info) :=
    (Standard.common.gives_escapeArgs (fun _ _ => trivial) trivial).raises
  simp only [Value.vars, Value.escapedBinding, if_true] at hreads
  generalize Value.escapeArgs args info = r at hreads hcommon
  cases r with
  | error e => exact L.throw e (hcommon e rfl)
  | ok v =>
    cases v with
    | var x c i => exact L.lookup i (hreads ⟨x, c⟩ (by simp [Value.binding?]))
    | _ => exact L.pure _

/-- The evaluation of a tree, as code and as the body of a quote, has the property if the definitions that it can come
to may be made. -/
structure HoldsOf (link link' : Linkage) (defines : Value → Prop) (P : ⦃α : Type⦄ → Eval α → Eval α → Prop)
    (e : Value) : Prop where
  code : (∀ d ∈ e.definitions, defines d) → P (MacroLang.evaluate link e) (MacroLang.evaluate link' e)
  quoted : (∀ d ∈ e.quotedDefinitions, defines d) → P (evaluateQuoted link e) (evaluateQuoted link' e)

/-- What is known of each operand, if they are all evaluated. -/
theorem HoldsOf.codeAll {es : List Value} (h : ∀ e ∈ es, HoldsOf link link' defines P e)
    (hd : ∀ d ∈ Value.definitionsAll es, defines d) :
    ∀ e ∈ es, P (MacroLang.evaluate link e) (MacroLang.evaluate link' e) :=
  fun e he => (h e he).code fun d hde => hd d (Value.mem_definitionsAll.2 ⟨e, he, hde⟩)

theorem HoldsOf.quotedAll {es : List Value} (h : ∀ e ∈ es, HoldsOf link link' defines P e)
    (hd : ∀ d ∈ Value.quotedDefinitionsAll es, defines d) :
    ∀ e ∈ es, P (evaluateQuoted link e) (evaluateQuoted link' e) :=
  fun e he => (h e he).quoted fun d hde => hd d (Value.mem_quotedDefinitionsAll.2 ⟨e, he, hde⟩)

/-- A call by name, from what is known of its arguments. -/
theorem evaluate_call (L : Laws link link' reads writes defines P) {name : String} {args : List Value} {info : Info}
    (h : (Value.call name args info).Within reads writes)
    (ih : ∀ e ∈ args, e.Within reads writes → HoldsOf link link' defines P e)
    (hd : ∀ d ∈ (Value.call name args info).definitions, defines d) :
    P (evaluate link (.call name args info)) (evaluate link' (.call name args info)) := by
  by_cases hn : name = "var!"
  · subst hn; exact L.evaluate_escape h
  have known : ∀ e ∈ args, HoldsOf link link' defines P e := fun e he => ih e he (h.of_call hn e he)
  rw [Value.definitions] at hd
  rw [evaluate.eq_def, evaluate.eq_def link']
  dsimp only
  cases hform : Form.ofName? name with
  | none =>
    rw [hform] at hd
    dsimp only
    split
    · exact L.throw _ rfl
    · exact L.andThen (L.evaluateAll (HoldsOf.codeAll known hd)) fun values => L.callLocal ..
  | some form =>
    rw [hform] at hd
    cases form with
    | block => exact L.evaluateBody _ (HoldsOf.codeAll known hd)
    | bind =>
      have run := HoldsOf.codeAll known hd
      cases Form.ofName?_bind hform
      dsimp only
      split
      · refine L.andThen (run _ (by simp)) fun v => ?_
        exact L.andThen (L.bind v h.of_target) fun _ => L.pure v
      · exact L.throw _ rfl
    | branch =>
      have run := HoldsOf.codeAll known hd
      dsimp only
      split
      · refine L.andThen (run _ (by simp)) fun v => ?_
        split
        · exact run _ (by simp)
        · exact L.pure _
      · refine L.andThen (run _ (by simp)) fun v => ?_
        split
        · exact run _ (by simp)
        · exact run _ (by simp)
      · exact L.throw _ rfl
    | negation =>
      have run := HoldsOf.codeAll known hd
      dsimp only
      split
      · exact L.andThen (run _ (by simp)) fun v => L.pure _
      · exact L.throw _ rfl
    | conjunction | disjunction => exact L.evaluateWhile _ _ (HoldsOf.codeAll known hd)
    | quote =>
      have run := HoldsOf.quotedAll known hd
      dsimp only
      split
      · refine L.andThen (run _ (by simp)) fun v => ?_
        exact L.atHome (fun home => MonadExcept.ofExcept (v.quote (.quotedIn home.name)))
          fun home => L.ofExcept (Standard.common.gives_quote _ (Standard.common.fragment_of_value v trivial)).raises
      · exact L.throw _ rfl
    | escape => exact absurd (Form.ofName?_escape.1 hform) hn
    | currentModule =>
      exact L.atHome (fun home => MonadExcept.ofExcept (Value.buildAtom home.name {}))
        fun home => L.ofExcept (Standard.common.gives_buildAtom trivial _).raises
    | define => exact L.define (hd _ List.mem_cons_self)
    | defineMacro => exact L.throw _ rfl
    | declare => exact L.pure _

/-- A call by name inside a quote, from what is known of its arguments. -/
theorem evaluateQuoted_call (L : Laws link link' reads writes defines P) {name : String} {args : List Value}
    {info : Info} (h : (Value.call name args info).Within reads writes)
    (ih : ∀ e ∈ args, e.Within reads writes → HoldsOf link link' defines P e)
    (hd : ∀ d ∈ (Value.call name args info).quotedDefinitions, defines d) :
    P (evaluateQuoted link (.call name args info)) (evaluateQuoted link' (.call name args info)) := by
  have known : name ≠ "var!" → ∀ e ∈ args, HoldsOf link link' defines P e :=
    fun hn e he => ih e he (h.of_call hn e he)
  rw [Value.quotedDefinitions.eq_def] at hd
  rw [evaluateQuoted.eq_def, evaluateQuoted.eq_def link']
  dsimp only at hd ⊢
  split
  · have run := HoldsOf.codeAll (known (by decide)) hd
    split
    · exact L.andThen (run _ (by simp)) fun v => L.pure _
    · exact L.throw _ rfl
  · have run := HoldsOf.codeAll (known (by decide)) hd
    split
    · exact L.andThen (run _ (by simp)) fun v => L.pure _
    · exact L.throw _ rfl
  · exact L.ofExcept (Standard.common.gives_escapeArgs (fun _ _ => trivial) trivial).raises
  · exact L.pure _
  · rename_i hunquote hsplice hn hquote
    split at hd
    · exact absurd rfl hunquote
    · exact absurd rfl hsplice
    · exact absurd rfl hn
    · exact absurd rfl hquote
    · exact L.andThen (L.evaluateQuotedAll (HoldsOf.quotedAll (known hn) hd)) fun args => L.pure _

/-- The evaluation of a tree, as code and as the body of a quote, has every property that satisfies the laws. -/
theorem holdsOf (L : Laws link link' reads writes defines P) (e : Value) :
    e.Within reads writes → HoldsOf link link' defines P e := by
  induction e using Value.treeInduction with
  | call name args info ih => exact fun h => ⟨L.evaluate_call h ih, L.evaluateQuoted_call h ih⟩
  | apply head args info ihHead ih =>
    intro h
    obtain ⟨hHead, hargs⟩ := h.of_apply
    have known : ∀ e ∈ args, HoldsOf link link' defines P e := fun e he => ih e he (hargs e he)
    constructor
    · intro hd
      rw [evaluate.eq_def, evaluate.eq_def link']
      dsimp only
      split
      · refine L.andThen (L.evaluateAll (HoldsOf.codeAll known hd)) fun values => ?_
        exact L.callRemote ..
      · exact L.throw _ (Error.isCommon_on rfl)
    · intro hd
      rw [Value.quotedDefinitions, List.forall_mem_append] at hd
      rw [evaluateQuoted.eq_def, evaluateQuoted.eq_def link']
      refine L.andThen ((ihHead hHead).quoted hd.1) fun head => ?_
      exact L.andThen (L.evaluateQuotedAll (HoldsOf.quotedAll known hd.2)) fun args => L.pure _
  | var name c info =>
    intro h
    constructor
    · intro _
      rw [evaluate.eq_def, evaluate.eq_def link']
      exact L.lookup info (h.reads _ (by simp [Value.vars]))
    · intro _
      rw [evaluateQuoted.eq_def, evaluateQuoted.eq_def link']
      exact L.pure _
  | list items ih =>
    intro h
    have known : ∀ e ∈ items, HoldsOf link link' defines P e := fun e he => ih e he (h.of_list e he)
    constructor
    · intro hd
      rw [evaluate.eq_def, evaluate.eq_def link']
      exact L.andThen (L.evaluateAll (HoldsOf.codeAll known hd)) fun values => L.pure _
    · intro hd
      rw [evaluateQuoted.eq_def, evaluateQuoted.eq_def link']
      exact L.andThen (L.evaluateQuotedAll (HoldsOf.quotedAll known hd)) fun values => L.pure _
  | tuple items ih =>
    intro h
    have known : ∀ e ∈ items, HoldsOf link link' defines P e := fun e he => ih e he (h.of_tuple e he)
    constructor
    · intro hd
      have run := HoldsOf.codeAll known hd
      rw [evaluate.eq_def, evaluate.eq_def link']
      dsimp only
      split
      · exact L.andThen (run _ (by simp)) fun _ => L.andThen (run _ (by simp)) fun _ => L.pure _
      · exact L.andThen (run _ (by simp)) fun _ => L.throw _ rfl
      · exact L.throw _ rfl
    · intro hd
      have run := HoldsOf.quotedAll known hd
      rw [evaluateQuoted.eq_def, evaluateQuoted.eq_def link']
      dsimp only
      split
      · exact L.andThen (run _ (by simp)) fun _ => L.andThen (run _ (by simp)) fun _ => L.pure _
      · exact L.throw _ rfl
  | _ =>
    intro _
    constructor
    · intro _
      rw [evaluate.eq_def, evaluate.eq_def link']
      exact L.andThen (L.ofExcept (Standard.common.gives_kind trivial).raises) fun _ => L.pure _
    · intro _
      rw [evaluateQuoted.eq_def, evaluateQuoted.eq_def link']
      exact L.pure _

theorem evaluate (L : Laws link link' reads writes defines P) {e : Value} (h : e.Within reads writes)
    (hd : ∀ d ∈ e.definitions, defines d) : P (evaluate link e) (evaluate link' e) :=
  (L.holdsOf e h).code hd

end Eval.Laws

end MacroLang
