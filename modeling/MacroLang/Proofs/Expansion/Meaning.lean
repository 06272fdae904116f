import Mathlib.Data.List.Forall2
import MacroLang.Proofs.Evaluation.Modules
import MacroLang.Proofs.Expansion.Again

/-!
# Expansion keeps the meaning of code without macros

The expander and the evaluator each have their own account of `var!`, of `__MODULE__`, of calls of other modules and of
quotes. They agree: where there are no macros and no aliases, plain code (`Value.isPlain`) and what it is expanded to
are evaluated alike in every machine whose code runs in the scope, down to the errors (`Value.Mirrors`). The proof is by
induction on the tree: a form is evaluated alike if its arguments are (`evaluate_call_congr`), as long as the module
that the code runs in keeps its name, which it does (`Eval.stays_laws`).

Main statement: `Expander.evaluate_expanded`.
-/

namespace MacroLang

/-! ## Plain code -/

/-- The forms that define or declare something. -/
def isDefinition (name : String) : Bool :=
  ["def", "defp", "defmacro", "defmacrop", "defmodule", "alias", "import", "require"].contains name

namespace Value

/-- Is the first of these arguments a call of `var!`? -/
def escapesFirst (args : List Value) : Bool :=
  args.head?.any fun v => v.callName? == some "var!"

mutual

/-- Code that defines and declares nothing, that names what it calls, and in which no `=` has a `var!` for its target.
A quote may hold anything. -/
def isPlain : Value → Bool
  | call name args _ =>
    name == "quote" || !isDefinition name && !(name == "=" && escapesFirst args) && arePlain args
  | apply head args _ => head.remote?.isSome && arePlain args
  | list items => arePlain items
  | tuple items => arePlain items
  | _ => true

def arePlain : List Value → Bool
  | [] => true
  | v :: vs => isPlain v && arePlain vs

end

theorem arePlain_iff {vs : List Value} : arePlain vs = true ↔ ∀ v ∈ vs, v.isPlain = true := by
  induction vs with
  | nil => simp [arePlain]
  | cons v vs ih => rw [arePlain, Bool.and_eq_true, ih, List.forall_mem_cons]

theorem isPlain_call {name : String} {args : List Value} {info : Info} (hquote : name ≠ "quote")
    (h : (call name args info).isPlain = true) :
    isDefinition name = false ∧ (name = "=" → escapesFirst args = false) ∧ ∀ v ∈ args, v.isPlain = true := by
  rw [isPlain, Bool.or_eq_true, beq_iff_eq, or_iff_right hquote, Bool.and_eq_true, Bool.and_eq_true, arePlain_iff] at h
  obtain ⟨⟨hdefinition, htarget⟩, hargs⟩ := h
  refine ⟨by simpa using hdefinition, fun hname => ?_, hargs⟩
  simpa [hname] using htarget

theorem isPlain_apply {head : Value} {args : List Value} {info : Info} (h : (apply head args info).isPlain = true) :
    (∃ remote, head.remote? = some remote) ∧ ∀ v ∈ args, v.isPlain = true := by
  rw [isPlain, Bool.and_eq_true, arePlain_iff, Option.isSome_iff_exists] at h
  exact h

end Value

/-! ## Code that agrees in a scope -/

namespace Eval

variable {link : Linkage} {scope : String}

theorem stays_addFunction (scope : String) (f : Function) : Preserves (·.home.name = scope) (addFunction f) := by
  refine Ensures.modify ?_
  rintro ⟨world, home, env, inFunction⟩ hm
  cases home with
  | loaded name => exact hm
  | unlisted module => exact hm

theorem stays_define (scope form : String) (args : List Value) (info : Info) :
    Preserves (·.home.name = scope) (define form args info) := by
  refine Maintains.reading fun m _ => Ensures.refuseIf (fun _ h => ⟨h, rfl⟩) fun _ => ?_
  refine Maintains.andThen (.ofExcept (Standard.common.gives_ofForm trivial _ fun _ _ => trivial).raises) fun d => ?_
  refine Ensures.refuseIf (fun _ h => ⟨h, rfl⟩) fun _ => ?_
  refine Maintains.andThen (stays_addFunction scope _) fun _ => ?_
  exact .ofExcept (Standard.common.gives_buildAtom trivial _).raises

/-- Evaluation stays in a module of the same name. -/
theorem stays_laws (h : CallsKeep link) (scope : String) :
    Laws link link (fun _ => True) (fun _ => True) (fun _ => True)
      (fun _ code _ => Preserves (·.home.name = scope) code) := by
  have hminds : Machine.MindsModules (·.home.name = scope) := by
    intro m m' hm halong
    rw [halong.home]
    exact hm
  exact respects_laws h hminds fun form args info _ => stays_define scope form args info

theorem stays_evaluate (h : CallsKeep link) (scope : String) (e : Value) :
    Preserves (·.home.name = scope) (evaluate link e) :=
  ((stays_laws h scope).holdsOf e ⟨fun _ _ => trivial, fun _ _ => trivial⟩).code fun _ _ => trivial

theorem stays_evaluateQuoted (h : CallsKeep link) (scope : String) (e : Value) :
    Preserves (·.home.name = scope) (evaluateQuoted link e) :=
  ((stays_laws h scope).holdsOf e ⟨fun _ _ => trivial, fun _ _ => trivial⟩).quoted fun _ _ => trivial

/-- From every machine whose code runs in a module of the name, the two have the same outcome, and the code still runs
in a module of that name then. -/
structure Agree {α : Type} (scope : String) (code code' : Eval α) : Prop where
  same : ∀ m : Machine, m.home.name = scope → code' m = code m
  stays : Preserves (·.home.name = scope) code

namespace Agree

variable {α γ : Type} {code code' : Eval α}

theorem refl (h : Preserves (·.home.name = scope) code) : Agree scope code code :=
  ⟨fun _ _ => rfl, h⟩

theorem pure (a : α) : Agree scope (Pure.pure a : Eval α) (Pure.pure a) :=
  refl (.pure a)

theorem throw {e : Error} (he : e.isCommon = true) :
    Agree scope (MonadExcept.throw e : Eval α) (MonadExcept.throw e) :=
  refl (.throw he)

theorem andThen {next next' : α → Eval γ} (h : Agree scope code code')
    (hnext : ∀ a, Agree scope (next a) (next' a)) : Agree scope (code >>= next) (code' >>= next') := by
  refine ⟨fun m hm => ?_, Maintains.andThen h.stays fun a => (hnext a).stays⟩
  rw [bind_apply, bind_apply, h.same m hm]
  cases hrun : code m with
  | ok a n => exact (hnext a).same n (h.stays.of_ok hm hrun)
  | error e n => rfl

end Agree

end Eval

/-! ## Forms with arguments that mean the same -/

/-- What becomes of plain code: it is evaluated alike, and it is a variable if it was that variable before, unless it
was a call of `var!`. -/
structure Value.Mirrors (link : Linkage) (scope : String) (t u : Value) : Prop where
  meaning : Eval.Agree scope (evaluate link t) (evaluate link u)
  variable_iff : t.callName? ≠ some "var!" → ∀ x c i, u = .var x c i ↔ t = .var x c i

section

open Eval

variable {link : Linkage} {scope : String} {ts us : List Value}

theorem Value.Mirrors.refl (h : CallsKeep link) (t : Value) : t.Mirrors link scope t :=
  ⟨.refl (stays_evaluate h scope t), fun _ _ _ _ => .rfl⟩

theorem evaluateAll_congr (hs : List.Forall₂ (Value.Mirrors link scope) ts us) :
    Agree scope (evaluateAll link ts) (evaluateAll link us) := by
  induction hs with
  | nil => exact .pure []
  | cons h _ ih =>
    rw [evaluateAll, evaluateAll]
    exact .andThen h.meaning fun v => .andThen ih fun vs => .pure (v :: vs)

theorem evaluateBody_congr (hs : List.Forall₂ (Value.Mirrors link scope) ts us) (last : Value) :
    Agree scope (evaluateBody link last ts) (evaluateBody link last us) := by
  induction hs generalizing last with
  | nil => exact .pure last
  | cons h _ ih =>
    rw [evaluateBody, evaluateBody]
    exact .andThen h.meaning ih

theorem evaluateWhile_congr (hs : List.Forall₂ (Value.Mirrors link scope) ts us) (goOn : Bool) (last : Value) :
    Agree scope (evaluateWhile link goOn last ts) (evaluateWhile link goOn last us) := by
  induction hs generalizing last with
  | nil => exact .pure last
  | cons h _ ih =>
    rw [evaluateWhile, evaluateWhile]
    refine .andThen h.meaning fun v => ?_
    split
    · exact ih v
    · exact .pure v

/-- The target and the value of an assignment of the right shape. -/
theorem mirrors_assignment (hs : List.Forall₂ (Value.Mirrors link scope) ts us)
    (htarget : Value.escapesFirst ts = false) :
    (∃ x c i t u, ts = [.var x c i, t] ∧ us = [.var x c i, u] ∧ t.Mirrors link scope u) ∨
      (∀ x c i t, ts ≠ [.var x c i, t]) ∧ ∀ x c i u, us ≠ [.var x c i, u] := by
  rcases hs with _ | ⟨hfirst, _ | ⟨hvalue, _ | ⟨_, _⟩⟩⟩
  · exact .inr (by simp)
  · exact .inr (by simp)
  · rename_i target target' t u
    have hplain : target.callName? ≠ some "var!" := by simpa [Value.escapesFirst] using htarget
    by_cases hvar : ∃ x c i, target = .var x c i
    · obtain ⟨x, c, i, rfl⟩ := hvar
      exact .inl ⟨x, c, i, t, u, rfl, by rw [(hfirst.variable_iff hplain x c i).2 rfl], hvalue⟩
    · refine .inr ⟨?_, ?_⟩
      · rintro x c i _ ⟨⟩
        exact hvar ⟨x, c, i, rfl⟩
      · rintro x c i _ ⟨⟩
        exact hvar ⟨x, c, i, (hfirst.variable_iff hplain x c i).1 rfl⟩
  · exact .inr (by simp)

/-- Anything but a variable and a value is refused. -/
theorem evaluate_bind_of_shape (info : Info) (h : ∀ x c i t, ts ≠ [.var x c i, t]) :
    evaluate link (.call "=" ts info) = throw (Cause.bindingShape.on info) := by
  rw [evaluate.eq_def]
  have hform : Form.ofName? "=" = some .bind := rfl
  dsimp only
  rw [hform]
  dsimp only
  split
  · exact absurd rfl (h _ _ _ _)
  · rfl

theorem evaluate_bind_congr (h : CallsKeep link) (info : Info) (hs : List.Forall₂ (Value.Mirrors link scope) ts us)
    (htarget : Value.escapesFirst ts = false) :
    Agree scope (evaluate link (.call "=" ts info)) (evaluate link (.call "=" us info)) := by
  obtain ⟨x, c, i, t, u, rfl, rfl, hvalue⟩ | ⟨hts, hus⟩ := mirrors_assignment hs htarget
  · rw [evaluate.eq_def, evaluate.eq_def]
    refine .andThen hvalue.meaning fun v => .refl ?_
    exact Maintains.andThen ((stays_laws h scope).bind v trivial) fun _ => .pure v
  · rw [evaluate_bind_of_shape info hts, evaluate_bind_of_shape info hus]
    exact .throw rfl

theorem evaluate_branch_congr (name : String) (info : Info) (hform : Form.ofName? name = some .branch)
    (hs : List.Forall₂ (Value.Mirrors link scope) ts us) :
    Agree scope (evaluate link (.call name ts info)) (evaluate link (.call name us info)) := by
  rw [evaluate.eq_def, evaluate.eq_def]
  dsimp only
  rw [hform]
  rcases hs with _ | ⟨htest, _ | ⟨hyes, _ | ⟨hno, _ | ⟨_, hrest⟩⟩⟩⟩
  · exact .throw rfl
  · exact .throw rfl
  · refine .andThen htest.meaning fun v => ?_
    split
    · exact hyes.meaning
    · exact .pure _
  · refine .andThen htest.meaning fun v => ?_
    split
    · exact hyes.meaning
    · exact hno.meaning
  · dsimp only [arityError, List.length_cons]
    rw [hrest.length_eq]
    exact .throw rfl

theorem evaluate_negation_congr (name : String) (info : Info) (hform : Form.ofName? name = some .negation)
    (hs : List.Forall₂ (Value.Mirrors link scope) ts us) :
    Agree scope (evaluate link (.call name ts info)) (evaluate link (.call name us info)) := by
  rw [evaluate.eq_def, evaluate.eq_def]
  dsimp only
  rw [hform]
  rcases hs with _ | ⟨hoperand, _ | ⟨_, hrest⟩⟩
  · exact .throw rfl
  · exact .andThen hoperand.meaning fun v => .pure _
  · dsimp only [arityError, List.length_cons]
    rw [hrest.length_eq]
    exact .throw rfl

theorem Form.ofName?_quote {name : String} : Form.ofName? name = some .quote → name = "quote" := by
  unfold Form.ofName?
  split <;> simp

/-- The evaluator's forms that define or declare something go by the names that are said to do so. -/
theorem isDefinition_of_form {name : String} :
    Form.ofName? name ∈ [some .define, some .defineMacro, some .declare] → isDefinition name = true := by
  unfold Form.ofName?
  split <;> simp [isDefinition]

/-- A form other than a quote or `var!` that defines nothing means the same if its arguments do. -/
theorem evaluate_call_congr (h : CallsKeep link) {name : String} (info : Info) (hquote : name ≠ "quote")
    (hescape : name ≠ "var!") (hdefinition : isDefinition name = false)
    (htarget : name = "=" → Value.escapesFirst ts = false) (hs : List.Forall₂ (Value.Mirrors link scope) ts us) :
    Agree scope (evaluate link (.call name ts info)) (evaluate link (.call name us info)) := by
  have hdefines := mt (@isDefinition_of_form name) (Bool.eq_false_iff.1 hdefinition)
  cases hform : Form.ofName? name with
  | none =>
    rw [evaluate.eq_def, evaluate.eq_def]
    dsimp only
    rw [hform]
    dsimp only
    split
    · exact .throw rfl
    · exact .andThen (evaluateAll_congr hs) fun values => .refl ((stays_laws h scope).callLocal name values info)
  | some form =>
    cases form with
    | block =>
      rw [evaluate.eq_def, evaluate.eq_def]
      dsimp only
      rw [hform]
      exact evaluateBody_congr hs _
    | bind =>
      cases Form.ofName?_bind hform
      exact evaluate_bind_congr h info hs (htarget rfl)
    | branch => exact evaluate_branch_congr name info hform hs
    | negation => exact evaluate_negation_congr name info hform hs
    | conjunction | disjunction =>
      rw [evaluate.eq_def, evaluate.eq_def]
      dsimp only
      rw [hform]
      exact evaluateWhile_congr hs _ _
    | currentModule =>
      have hsame : evaluate link (.call name us info) = evaluate link (.call name ts info) := by
        rw [evaluate.eq_def, evaluate.eq_def]
        dsimp only
        rw [hform]
      rw [hsame]
      exact .refl (stays_evaluate h scope _)
    | quote => exact absurd (Form.ofName?_quote hform) hquote
    | escape => exact absurd (Form.ofName?_escape.1 hform) hescape
    | define | defineMacro | declare => exact absurd (by simp [hform]) hdefines

/-- A call of another module's function means the same if its arguments do, whatever is noted at its head. -/
theorem evaluate_apply_congr (h : CallsKeep link) {head head' : Value} {module name : String} (info : Info)
    (hhead : head.remote? = some (module, name)) (hhead' : head'.remote? = some (module, name))
    (hs : List.Forall₂ (Value.Mirrors link scope) ts us) :
    Agree scope (evaluate link (.apply head ts info)) (evaluate link (.apply head' us info)) := by
  rw [evaluate.eq_def, evaluate.eq_def]
  dsimp only
  rw [hhead, hhead']
  exact .andThen (evaluateAll_congr hs) fun values => .refl ((stays_laws h scope).callRemote module name values info)

end

/-! ## A scope without macros and aliases -/

/-- The registry is in no session, it has no macros, and the scope has no aliases. -/
structure Session.Bare {β : Type} (s : Session β) (r : Nat) (scope : String) : Prop where
  alone : (s.registry r).inSession = false
  macros : (s.registry r).macros = []
  aliases : ∀ d, (s.registry r).table? scope = some d → d.aliases = []

theorem Declarations.resolve_of_no_aliases {d : Declarations} (h : d.aliases = []) (name : String) (c : Context) :
    d.resolve name c = name := by
  simp [resolve, isTarget, alias?, h]

namespace Session.Bare

variable {β : Type} {s : Session β} {r : Nat} {scope : String}

theorem otherRegistry? (h : s.Bare r scope) (other : String) : s.otherRegistry? r other = none := by
  rw [Session.otherRegistry?, h.alone]
  rfl

theorem macro? (h : s.Bare r scope) (other name : String) (arity : Nat) : s.macro? r other name arity = none := by
  simp [Session.macro?, Registry.macro?, h.macros, h.otherRegistry?]

theorem lookup (h : s.Bare r scope) (caller name : String) (arity : Nat) (c : Context) (module? : Option String) :
    s.lookup r caller name arity c module? = none :=
  lookup_eq_none h.macro? caller name arity c module?

theorem resolveAlias (h : s.Bare r scope) (module : String) (c : Context) :
    s.resolveAlias r scope module c = module := by
  unfold Session.resolveAlias declarationsFor
  cases htable : (s.registry r).table? scope with
  | some d => exact Declarations.resolve_of_no_aliases (h.aliases d htable) module c
  | none => simp [h.otherRegistry?]

end Session.Bare

/-! ## Expanding plain code -/

namespace Expander

open Eval

variable {β : Type} {x : Expander β} {scope : String} {onMacro : Macro β → List Value → Info → Expand β Value}
  {link : Linkage} {c c' : Compilation β}

theorem resolve_of_bare (h : c.session.Bare x.registry scope) (v : Value) :
    x.resolve c.session scope v = none := by
  unfold resolve
  split <;> simp [h.lookup]

theorem isDefinition_of_isDeclaration {name : String} (h : isDeclaration name = true) : isDefinition name = true := by
  simp only [isDeclaration, Bool.or_eq_true, beq_iff_eq] at h
  obtain (rfl | rfl) | rfl := h <;> rfl

/-- A call of `var!` means the variable that it is expanded to. -/
theorem mirrors_escape (h : CallsKeep link) {args : List Value} {info : Info} {u : Value}
    (hu : Value.escapeArgs args info = .ok u) : (Value.call "var!" args info).Mirrors link scope u := by
  refine ⟨?_, fun hname => absurd rfl hname⟩
  have hsame : evaluate link (.call "var!" args info) = evaluate link u := by
    obtain ⟨y, context, i, rfl⟩ := eq_var_of_escapeArgs hu
    rw [evaluate.eq_def, evaluate.eq_def link]
    show (ofExcept (Value.escapeArgs args info) >>= _ : Eval Value) = _
    rw [hu]
    rfl
  rw [hsame]
  exact .refl (stays_evaluate h scope u)

/-- In the scope, `__MODULE__` means its name. -/
theorem mirrors_currentModule (h : CallsKeep link) {info : Info} {u : Value}
    (hu : Value.buildAtom scope {} = .ok u) : (Value.call "__MODULE__" [] info).Mirrors link scope u := by
  obtain rfl := eq_of_buildAtom hu
  refine ⟨⟨?_, stays_evaluate h scope _⟩, fun _ _ _ _ => by simp⟩
  intro m hm
  rw [evaluate.eq_def, evaluate.eq_def]
  show _ = (ofExcept (Value.buildAtom m.home.name {}) : Eval Value) m
  rw [hm, hu]
  rfl

theorem mirrors_rewriteAll {ts us : List Value}
    (ih : ∀ t ∈ ts, ∀ c' u, x.rewrite scope onMacro t c = .ok u c' → c' = c ∧ t.Mirrors link scope u)
    (h : x.rewriteAll scope onMacro ts c = .ok us c') : c' = c ∧ List.Forall₂ (Value.Mirrors link scope) ts us := by
  induction ts generalizing us c' with
  | nil =>
    cases h
    exact ⟨rfl, .nil⟩
  | cons t ts ihs =>
    rw [rewriteAll, bind_eq_ok] at h
    obtain ⟨u, c₁, hfirst, h⟩ := h
    rw [bind_eq_ok] at h
    obtain ⟨us', c₂, hrest, h⟩ := h
    cases h
    obtain ⟨rfl, hu⟩ := ih t List.mem_cons_self c₁ u hfirst
    obtain ⟨rfl, hus⟩ := ihs (fun t ht => ih t (List.mem_cons_of_mem _ ht)) hrest
    exact ⟨rfl, .cons hu hus⟩

/-- What has no parts to expand stays as it is. -/
theorem mirrors_leaf (hlink : CallsKeep link) {t u : Value}
    (h : (do let _ ← ofExcept t.kind; return t : Expand β Value) c = .ok u c') :
    c' = c ∧ t.Mirrors link scope u := by
  rw [bind_eq_ok] at h
  obtain ⟨_, c₁, hkind, h⟩ := h
  obtain ⟨_, rfl⟩ := ofExcept_eq_ok.1 hkind
  cases h
  exact ⟨rfl, .refl hlink t⟩

/-- A call by name. -/
theorem mirrors_rewrite_call (hlink : CallsKeep link) (hbare : c.session.Bare x.registry scope) {name : String}
    {args : List Value} {info : Info} {u : Value} (hplain : (Value.call name args info).isPlain = true)
    (ih : ∀ t ∈ args, t.isPlain = true →
      ∀ c' u, x.rewrite scope onMacro t c = .ok u c' → c' = c ∧ t.Mirrors link scope u)
    (h : x.rewrite scope onMacro (.call name args info) c = .ok u c') :
    c' = c ∧ (Value.call name args info).Mirrors link scope u := by
  rw [rewrite, get_bind, resolve_of_bare hbare] at h
  dsimp only at h
  by_cases hquote : name = "quote"
  · rw [if_pos (.inl hquote)] at h
    cases h
    exact ⟨rfl, .refl hlink _⟩
  obtain ⟨hdefinition, htarget, hargs⟩ := Value.isPlain_call hquote hplain
  have hmodule : name ≠ "defmodule" := by rintro rfl; cases hdefinition
  rw [if_neg (not_or.2 ⟨hquote, hmodule⟩)] at h
  split at h
  · cases h
  split at h
  · subst name
    obtain ⟨hu, rfl⟩ := ofExcept_eq_ok.1 h
    exact ⟨rfl, mirrors_escape hlink hu⟩
  rename_i hescape
  split at h
  · rename_i hname
    obtain ⟨rfl, rfl⟩ := hname
    obtain ⟨hu, rfl⟩ := ofExcept_eq_ok.1 h
    exact ⟨rfl, mirrors_currentModule hlink hu⟩
  rw [bind_eq_ok] at h
  obtain ⟨us, c₁, hus, h⟩ := h
  obtain ⟨rfl, hs⟩ := mirrors_rewriteAll (fun t ht => ih t ht (hargs t ht)) hus
  have hdeclaration := mt (@isDefinition_of_isDeclaration name) (Bool.eq_false_iff.1 hdefinition)
  rw [if_neg hdeclaration] at h
  cases h
  exact ⟨rfl, evaluate_call_congr hlink info hquote hescape hdefinition htarget hs, fun _ _ _ _ => by simp⟩

/-- In a scope without macros and aliases, plain code becomes code with the same meaning, and nothing else happens. -/
theorem mirrors_rewrite (hlink : CallsKeep link) (hbare : c.session.Bare x.registry scope) (t : Value) :
    t.isPlain = true → ∀ c' u, x.rewrite scope onMacro t c = .ok u c' → c' = c ∧ t.Mirrors link scope u := by
  induction t using Value.treeInduction with
  | call name args info ih => exact fun hplain c' u h => mirrors_rewrite_call hlink hbare hplain ih h
  | apply head args info _ ih =>
    intro hplain c' u h
    obtain ⟨⟨⟨module, function⟩, hremote⟩, hargs⟩ := Value.isPlain_apply hplain
    rw [rewrite, get_bind, resolve_of_bare hbare, hremote] at h
    dsimp only at h
    rw [bind_eq_ok] at h
    obtain ⟨head', c₁, hhead, h⟩ := h
    rw [ofExcept_eq_ok] at hhead
    obtain ⟨hhead, rfl⟩ := hhead
    rw [bind_eq_ok] at h
    obtain ⟨us, c₂, hus, h⟩ := h
    obtain ⟨rfl, hs⟩ := mirrors_rewriteAll (fun t ht => ih t ht (hargs t ht)) hus
    have hremote' := (remote?_of_expandHead hremote hhead).1
    rw [hbare.resolveAlias, ite_self] at hremote'
    obtain ⟨i, rfl⟩ := Value.eq_of_remote? hremote'
    cases h
    exact ⟨rfl, evaluate_apply_congr hlink info hremote hremote' hs, fun _ _ _ _ => by simp [Value.withHead]⟩
  | list items ih =>
    intro hplain c' u h
    have hitems := Value.arePlain_iff.1 (by rwa [Value.isPlain] at hplain)
    rw [rewrite, bind_eq_ok] at h
    obtain ⟨us, c₁, hus, h⟩ := h
    cases h
    obtain ⟨rfl, hs⟩ := mirrors_rewriteAll (fun t ht => ih t ht (hitems t ht)) hus
    refine ⟨rfl, ?_, fun _ _ _ _ => by simp⟩
    rw [evaluate.eq_def, evaluate.eq_def]
    exact .andThen (evaluateAll_congr hs) fun vs => .pure _
  | tuple items ih =>
    intro hplain c' u h
    have hitems := Value.arePlain_iff.1 (by rwa [Value.isPlain] at hplain)
    -- Only a tuple of two is taken apart.
    rcases items with _ | ⟨left, _ | ⟨right, _ | ⟨_, _⟩⟩⟩
    · exact mirrors_leaf hlink h
    · exact mirrors_leaf hlink h
    · rw [rewrite, bind_eq_ok] at h
      obtain ⟨left', c₁, hleft, h⟩ := h
      obtain ⟨rfl, hl⟩ := ih left (by simp) (hitems left (by simp)) c₁ left' hleft
      rw [bind_eq_ok] at h
      obtain ⟨right', c₂, hright, h⟩ := h
      obtain ⟨rfl, hr⟩ := ih right (by simp) (hitems right (by simp)) c₂ right' hright
      cases h
      refine ⟨rfl, ?_, fun _ _ _ _ => by simp [Value.pair]⟩
      rw [evaluate.eq_def, evaluate.eq_def]
      exact .andThen hl.meaning fun l => .andThen hr.meaning fun r => .pure (Value.pair l r)
    · exact mirrors_leaf hlink h
  | _ => exact fun _ c' u h => mirrors_leaf hlink h

/-- In a scope without macros and aliases, plain code and what it is expanded to have the same outcome, the same value
or the same error, and leave the same machine behind, in every machine whose code runs in a module of that name. -/
theorem evaluate_expanded (x : Expander β) (depth : Int) (scope : String) (t u : Value) (c c' : Compilation β)
    (hbare : c.session.Bare x.registry scope) (htree : t.isTree = true) (hplain : t.isPlain = true)
    (h : x.expandFrom depth scope t c = .ok u c') (imported : Imports) (calls : Nat) (m : Machine)
    (hm : m.home.name = scope) :
    evaluate (.within imported calls) u m = evaluate (.within imported calls) t m := by
  rw [expandFrom_eq_expandWithin, value_expandWithin x scope _ depth t rfl htree, expandDirectly] at h
  have hlink := callsKeep_within imported calls
  exact (mirrors_rewrite hlink hbare t hplain c' u h).2.meaning.same m hm

section

/-- The scope `App` imports a module, and only another scope has a short name for one. -/
def libSession : Session Value :=
  { registries :=
      [{ unit := "app", inSession := false,
         tables := [{ scope := "App", imported := [⟨"Lib", .direct⟩] },
           { scope := "Lib", aliases := [⟨"Kernel", .direct, "Lib.Kernel"⟩] }] }] }

def libExpander : Expander Value :=
  { registry := 0, maxDepth := 1, run := fun _ body _ => pure body }

/-- A sum with a variable from the place of use is bound, and then, if there is a module, listed with a quote. The head
of the sum and the operand of `var!` are given. -/
def libCode (head operand module : Value) : Value :=
  .call "__block__"
    [.call "=" [.var "y" .direct {}, .apply head [operand, .int 1] {}] {},
      .call "if"
        [module, .list [.var "y" .direct {}, .call "quote" [.call "__MODULE__" [.call "def" [] {}] {}] {}]] {}] {}

def libMachine : Machine :=
  { world := {}, home := .unlisted { name := "App" }, env := [(⟨"x", .direct⟩, .int 6)] }

/-- The expanded code has no `var!` and no `__MODULE__` but the one in the quote. -/
theorem evaluate_expanded_sum :
    let t := libCode (.call "." [.atom "Kernel", .atom "+"] {}) (.call "var!" [.atom "x"] {})
      (.call "__MODULE__" [] {})
    let u := libCode (.call "." [.atom "Kernel", .atom "+"] (Info.markResolved {}))
      (.var "x" .direct (Info.markEscaped {})) (.atom "App")
    let c : Compilation Value := { session := libSession }
    c.session.Bare 0 "App" ∧ t.isTree = true ∧ t.isPlain = true ∧
      (∃ c', libExpander.expandFrom 0 "App" t c = .ok u c') ∧ libMachine.home.name = "App" ∧
      evaluate (.within (fun _ _ => []) 1) u libMachine = evaluate (.within (fun _ _ => []) 1) t libMachine := by
  intro t u c
  have hbare : c.session.Bare 0 "App" := ⟨rfl, rfl, by rintro d ⟨⟩; rfl⟩
  have hvalue : (libExpander.expandFrom 0 "App" t).run' c = some u := by
    rw [expandFrom_eq_expandWithin]
    rfl
  obtain ⟨c', hrun⟩ := run'_eq_some.1 hvalue
  exact ⟨hbare, rfl, rfl, ⟨c', hrun⟩, rfl,
    evaluate_expanded libExpander 0 "App" t u c c' hbare rfl rfl hrun (fun _ _ => []) 1 libMachine rfl⟩

end

end Expander

end MacroLang
