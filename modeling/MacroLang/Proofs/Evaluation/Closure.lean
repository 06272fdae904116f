import MacroLang.Proofs.Evaluation.Definitions
import MacroLang.Proofs.Evaluation.Hygiene
import MacroLang.Proofs.Tree.Closure

/-!
# Evaluation is up to the standard of its code

Let the bodies of all functions of a machine, and the values of its variables, be up to a standard (`Machine.Meets`).
Then a value that is up to the standard is evaluated to one that is, or to an error that is, what is defined on the way
is up to it, and so the machine stays one of that kind. It makes no difference in which module the code runs or whose
function it calls. For trees this says that values that are no trees exist inside of quotes only: a quote is run into a
fragment whose placeholders hold trees, and that is quoted into a tree.

The induction is over the value, for its evaluation as code and as the body of a quote at once (`Eval.Closed`).
Functions come in through the linkage (`Linkage.Meets`); they are covered by induction on how deep calls may nest
(`Linkage.meets_within`).
-/

namespace MacroLang

variable {S : Standard}

/-! ## States -/

/-- The body of the function is up to the standard. -/
def Function.Meets (S : Standard) (f : Function) : Prop :=
  ∀ e ∈ f.body, S.value e

/-- All functions of the module have bodies up to the standard. -/
def Module.Meets (S : Standard) (m : Module) : Prop :=
  ∀ f ∈ m.functions, f.Meets S

/-- All functions of the loaded modules have bodies up to the standard. -/
def World.Meets (S : Standard) (w : World) : Prop :=
  ∀ m ∈ w.modules, m.Meets S

def Home.Meets (S : Standard) : Home → Prop
  | loaded _ => True
  | unlisted m => m.Meets S

/-- All variables are bound to values up to the standard. -/
def Env.Meets (S : Standard) (env : Env) : Prop :=
  ∀ x v, env.get? x = some v → S.value v

/-- All functions, and the values of all variables, are up to the standard. -/
structure Machine.Meets (S : Standard) (m : Machine) : Prop where
  world : m.world.Meets S
  home : m.home.Meets S
  env : m.env.Meets S

/-- All functions of the loaded modules have trees for their bodies. -/
abbrev World.Valid (w : World) : Prop :=
  w.Meets .trees

abbrev Home.Valid (home : Home) : Prop :=
  home.Meets .trees

/-- All functions have trees for their bodies, and all variables are bound to trees. -/
abbrev Machine.Valid (m : Machine) : Prop :=
  m.Meets .trees

theorem Module.Meets.function? {m : Module} (h : m.Meets S) {name : String} {arity : Nat} {f : Function}
    (hf : m.function? name arity = some f) : f.Meets S :=
  h f (List.mem_of_find?_eq_some hf)

theorem Module.Meets.addFunction {m : Module} (h : m.Meets S) {f : Function} (hf : f.Meets S) :
    (m.addFunction f).Meets S :=
  List.forall_mem_append.2 ⟨h, List.forall_mem_singleton.2 hf⟩

theorem World.Meets.module? {w : World} (h : w.Meets S) {name : String} {m : Module} (hm : w.module? name = some m) :
    m.Meets S :=
  h m (List.mem_of_find?_eq_some hm)

theorem World.Meets.importedFunction? {w : World} (h : w.Meets S) {modules : List String} {name owner : String}
    {arity : Nat} {f : Function} (hf : w.importedFunction? modules name arity = some (owner, f)) : f.Meets S := by
  obtain ⟨m, hm, hfound, -⟩ := World.importedFunction?_eq_some hf
  exact (h.module? hm).function? hfound

theorem World.Meets.updateModule {w : World} (h : w.Meets S) (name : String) {change : Module → Module}
    (hchange : ∀ m : Module, m.Meets S → (change m).Meets S) : (w.updateModule name change).Meets S := by
  intro m hm
  obtain ⟨k, hk, rfl⟩ := List.mem_map.1 hm
  split
  · exact hchange k (h k hk)
  · exact h k hk

theorem World.Meets.unload {w : World} (h : w.Meets S) (name : String) : (w.unload name).Meets S :=
  fun m hm => h m (List.mem_filter.1 hm).1

theorem World.Meets.foldl_unload {w : World} (h : w.Meets S) (names : List String) :
    (names.foldl World.unload w).Meets S := by
  induction names generalizing w with
  | nil => exact h
  | cons name names ih => exact ih (h.unload name)

theorem Home.Meets.module {home : Home} (h : home.Meets S) {w : World} (hw : w.Meets S) :
    (home.module w).Meets S := by
  cases home with
  | unlisted m => exact h
  | loaded name =>
    show ((w.module? name).getD { name }).Meets S
    cases hm : w.module? name with
    | none => exact List.forall_mem_nil _
    | some m => exact hw.module? hm

theorem Home.meets_ofScope (w : World) (scope : String) (declarations : Option DeclarationSource) :
    (Home.ofScope w scope declarations).Meets S := by
  unfold Home.ofScope
  split
  · trivial
  · exact List.forall_mem_nil _

theorem Env.meets_nil : Env.Meets S [] :=
  nofun

theorem Env.Meets.bind {env : Env} (h : env.Meets S) (x : Variable) {v : Value} (hv : S.value v) :
    (env.bind x v).Meets S := by
  intro y w hw
  rw [Env.get?_bind] at hw
  split at hw
  · cases hw
    exact hv
  · exact h y w hw

theorem Env.meets_ofArgs (params : List Variable) {args : List Value} (h : ∀ v ∈ args, S.value v) :
    (Env.ofArgs params args).Meets S :=
  fun _ v hv => h v (Env.mem_of_get?_ofArgs hv)

/-- Every function with a body up to the standard makes values up to it. -/
def Linkage.Meets (S : Standard) (link : Linkage) : Prop :=
  ∀ home f args, home.Meets S → f.Meets S → (∀ v ∈ args, S.value v) →
    S.Makes (Machine.Meets S) S.value (link.apply home f args)

/-! ## Steps of evaluation -/

namespace Eval

open Standard

variable {link : Linkage} {info : Info}

theorem makes_lookup (x : Variable) (hinfo : S.info info) : S.Makes (Machine.Meets S) S.value (lookup x info) := by
  refine .reading fun m hm => ?_
  split
  · rename_i v hv
    exact .pure (hm.env x v hv)
  · exact .throw (routine_on hinfo rfl)

theorem makes_bind (x : Variable) {v : Value} (hv : S.value v) :
    S.Makes (Machine.Meets S) (fun _ => True) (bind x v) :=
  .modify fun _ hm => ⟨hm.world, hm.home, hm.env.bind x hv⟩

section

variable (hlink : link.Meets S)

include hlink

theorem makes_callLocal (name : String) {args : List Value} (hargs : ∀ v ∈ args, S.value v) (hinfo : S.info info) :
    S.Makes (Machine.Meets S) S.value (callLocal link name args info) := by
  refine .reading fun m hm => ?_
  dsimp only
  split
  · rename_i f hf
    exact hlink _ f args hm.home ((hm.home.module hm.world).function? hf) hargs
  · split
    · rename_i owner f hf
      exact hlink (.loaded owner) f args trivial (hm.world.importedFunction? hf) hargs
    · split
      · exact .ofExcept (S.gives_run hinfo _ hargs)
      · exact .throw (routine_on hinfo rfl)

theorem makes_callRemote (inside : Bool) (module name : String) {args : List Value} (hargs : ∀ v ∈ args, S.value v)
    (hinfo : S.info info) :
    S.Makes (Machine.Meets S) S.value (callRemote link inside module name args info) := by
  unfold callRemote
  split
  · exact .ofExcept (S.gives_run hinfo _ hargs)
  · refine .reading fun m hm => ?_
    split
    · exact .throw (routine_on hinfo rfl)
    · rename_i k hk
      split
      · exact .throw (routine_on hinfo rfl)
      · rename_i f hf
        split
        · exact hlink (.loaded module) f args trivial ((hm.world.module? hk).function? hf) hargs
        · exact .throw (routine_on hinfo rfl)

end

theorem makes_addFunction {f : Function} (hf : f.Meets S) :
    S.Makes (Machine.Meets S) (fun _ => True) (addFunction f) := by
  refine .modify fun m hm => ?_
  rcases m with ⟨world, home, env, inFunction⟩
  cases home with
  | loaded name => exact ⟨hm.world.updateModule name fun _ hk => hk.addFunction hf, hm.home, hm.env⟩
  | unlisted module => exact ⟨hm.world, Module.Meets.addFunction hm.home hf, hm.env⟩

theorem makes_define (form : String) {args : List Value} (hargs : ∀ v ∈ args, S.value v) (hinfo : S.info info) :
    S.Makes (Machine.Meets S) S.value (define form args info) := by
  refine .reading fun m _ => .refuseIf (routine_on hinfo rfl) ?_
  refine .bind (.ofExcept (S.gives_ofForm hinfo form hargs)) fun d hd => .refuseIf (routine_on hinfo rfl) ?_
  exact .bind (makes_addFunction hd) fun _ _ => .ofExcept (S.gives_buildAtom S.info_none _)

/-! ## Values -/

/-- As code the value is evaluated to a value up to the standard, and as the body of a quote to a fragment up to it. -/
structure Closed (S : Standard) (link : Linkage) (e : Value) : Prop where
  code : S.Makes (Machine.Meets S) S.value (evaluate link e)
  quoted : S.Makes (Machine.Meets S) S.Fragment (evaluateQuoted link e)

theorem makes_evaluateAll {es : List Value} (h : ∀ e ∈ es, Closed S link e) :
    S.Makes (Machine.Meets S) (fun vs => ∀ v ∈ vs, S.value v) (evaluateAll link es) := by
  induction es with
  | nil => exact .pure (List.forall_mem_nil _)
  | cons e es ih =>
    rw [List.forall_mem_cons] at h
    rw [evaluateAll]
    refine .bind h.1.code fun v hv => .bind (ih h.2) fun vs hvs => ?_
    exact .pure (List.forall_mem_cons.2 ⟨hv, hvs⟩)

theorem makes_evaluateBody {es : List Value} (h : ∀ e ∈ es, Closed S link e) {last : Value} (hlast : S.value last) :
    S.Makes (Machine.Meets S) S.value (evaluateBody link last es) := by
  induction es generalizing last with
  | nil => exact .pure hlast
  | cons e es ih =>
    rw [List.forall_mem_cons] at h
    rw [evaluateBody]
    exact .bind h.1.code fun v hv => ih h.2 hv

theorem makes_evaluateWhile (goOn : Bool) {es : List Value} (h : ∀ e ∈ es, Closed S link e) {last : Value}
    (hlast : S.value last) : S.Makes (Machine.Meets S) S.value (evaluateWhile link goOn last es) := by
  induction es generalizing last with
  | nil => exact .pure hlast
  | cons e es ih =>
    rw [List.forall_mem_cons] at h
    rw [evaluateWhile]
    refine .bind h.1.code fun v hv => ?_
    split
    · exact ih h.2 hv
    · exact .pure hv

theorem makes_evaluateQuotedAll {es : List Value} (h : ∀ e ∈ es, Closed S link e) :
    S.Makes (Machine.Meets S) (fun fs => ∀ f ∈ fs, S.Fragment f) (evaluateQuotedAll link es) := by
  induction es with
  | nil => exact .pure (List.forall_mem_nil _)
  | cons e es ih =>
    rw [List.forall_mem_cons] at h
    rw [evaluateQuotedAll]
    refine .bind h.1.quoted fun f hf => .bind (ih h.2) fun fs hfs => ?_
    exact .pure (List.forall_mem_cons.2 ⟨hf, hfs⟩)

section

variable {name : String} {args : List Value} (hinfo : S.info info) (hargs : ∀ v ∈ args, S.value v)
  (known : ∀ e ∈ args, Closed S link e)

include hinfo hargs known

/-- A call by name, from what is known of its arguments. -/
theorem makes_evaluate_call (hlink : link.Meets S) :
    S.Makes (Machine.Meets S) S.value (evaluate link (.call name args info)) := by
  rw [evaluate.eq_def]
  dsimp only
  cases Form.ofName? name with
  | none =>
    dsimp only
    split
    · exact .throw (routine_on hinfo rfl)
    · exact .bind (makes_evaluateAll known) fun vs hvs => makes_callLocal hlink name hvs hinfo
  | some form =>
    cases form with
    | block => exact makes_evaluateBody known value_nil
    | bind =>
      dsimp only
      split
      · exact .bind (known _ (by simp)).code fun v hv => .bind (makes_bind _ hv) fun _ _ => .pure hv
      · exact .throw (routine_on hinfo rfl)
    | branch =>
      dsimp only
      split
      · refine .bind (known _ (by simp)).code fun v _ => ?_
        split
        · exact (known _ (by simp)).code
        · exact .pure value_nil
      · refine .bind (known _ (by simp)).code fun v _ => ?_
        split
        · exact (known _ (by simp)).code
        · exact (known _ (by simp)).code
      · exact .throw (routine_on hinfo rfl)
    | negation =>
      dsimp only
      split
      · exact .bind (known _ (by simp)).code fun v _ => .pure (value_ofBool _)
      · exact .throw (routine_on hinfo rfl)
    | conjunction => exact makes_evaluateWhile _ known (value_atom _)
    | disjunction => exact makes_evaluateWhile _ known (value_atom _)
    | quote =>
      dsimp only
      split
      · refine .bind (known _ (by simp)).quoted fun f hf => ?_
        exact .reading fun m _ => .ofExcept (S.gives_quote _ hf)
      · exact .throw (routine_on hinfo rfl)
    | escape =>
      refine .bind (.ofExcept (S.gives_escapeArgs hargs hinfo)) fun v hv => ?_
      split
      · exact makes_lookup _ (value_var.1 hv)
      · exact .pure hv
    | currentModule => exact .reading fun m _ => .ofExcept (S.gives_buildAtom S.info_none _)
    | define => exact makes_define name hargs hinfo
    | defineMacro => exact .throw (routine_on hinfo rfl)
    | declare =>
      refine .pure ?_
      cases args with
      | nil => exact value_nil
      | cons v vs => exact hargs v List.mem_cons_self

/-- A call by name inside of a quote, from what is known of its arguments. -/
theorem makes_evaluateQuoted_call :
    S.Makes (Machine.Meets S) S.Fragment (evaluateQuoted link (.call name args info)) := by
  rw [evaluateQuoted.eq_def]
  dsimp only
  split
  · split
    · exact .bind (known _ (by simp)).code fun v hv => .pure (.unquote hinfo hv)
    · exact .throw (routine_on hinfo rfl)
  · split
    · exact .bind (known _ (by simp)).code fun v hv => .pure (.splice hinfo hv)
    · exact .throw (routine_on hinfo rfl)
  · refine .ofExcept (.of_raises (S.gives_escapeArgs hargs hinfo).raises fun v hv => ?_)
    exact S.fragment_of_value v ((S.gives_escapeArgs hargs hinfo).of_ok hv)
  · exact .pure (.call hinfo fun v hv => S.fragment_of_value v (hargs v hv))
  · exact .bind (makes_evaluateQuotedAll known) fun fs hfs => .pure (.call hinfo hfs)

end

theorem closed_of_value (hlink : link.Meets S) (e : Value) : S.value e → Closed S link e := by
  induction e using Value.treeInduction with
  | call name args info ih =>
    intro h
    obtain ⟨hinfo, hargs⟩ := value_call.1 h
    have known : ∀ e ∈ args, Closed S link e := fun e he => ih e he (hargs e he)
    exact ⟨makes_evaluate_call hinfo hargs known hlink, makes_evaluateQuoted_call hinfo hargs known⟩
  | apply head args info ihHead ih =>
    intro h
    obtain ⟨hinfo, hhead, hargs⟩ := value_apply.1 h
    have known : ∀ e ∈ args, Closed S link e := fun e he => ih e he (hargs e he)
    constructor
    · rw [evaluate.eq_def]
      dsimp only
      split
      · refine .bind (makes_evaluateAll known) fun vs hvs => ?_
        exact .reading fun m _ => makes_callRemote hlink _ _ _ hvs hinfo
      · exact .throw (routine_on hinfo rfl)
    · rw [evaluateQuoted.eq_def]
      refine .bind (ihHead hhead).quoted fun f hf => ?_
      exact .bind (makes_evaluateQuotedAll known) fun fs hfs => .pure (.apply hinfo hf hfs)
  | var name c info =>
    intro h
    constructor
    · rw [evaluate.eq_def]
      exact makes_lookup _ (value_var.1 h)
    · rw [evaluateQuoted.eq_def]
      exact .pure (.var (value_var.1 h))
  | list items ih =>
    intro h
    have known : ∀ e ∈ items, Closed S link e := fun e he => ih e he (value_list.1 h e he)
    constructor
    · rw [evaluate.eq_def]
      exact .bind (makes_evaluateAll known) fun vs hvs => .pure (value_list.2 hvs)
    · rw [evaluateQuoted.eq_def]
      exact .bind (makes_evaluateQuotedAll known) fun fs hfs => .pure (.list hfs)
  | tuple items ih =>
    intro h
    have known : ∀ e ∈ items, Closed S link e := fun e he => ih e he (value_of_tuple h e he)
    constructor
    · rw [evaluate.eq_def]
      dsimp only
      split
      · refine .bind (known _ (by simp)).code fun v hv => .bind (known _ (by simp)).code fun w hw => ?_
        exact .pure (value_pair.2 ⟨hv, hw⟩)
      · exact .bind (known _ (by simp)).code fun _ _ => .throw (S.unlocated rfl)
      · exact .throw (S.unlocated rfl)
    · rw [evaluateQuoted.eq_def]
      dsimp only
      split
      · refine .bind (known _ (by simp)).quoted fun f hf => .bind (known _ (by simp)).quoted fun g hg => ?_
        exact .pure (.tuple (List.forall_mem_cons.2 ⟨hf, List.forall_mem_singleton.2 hg⟩))
      · exact .throw (S.unlocated rfl)
  | _ =>
    intro h
    constructor
    · rw [evaluate.eq_def]
      exact .bind (.ofExcept (S.gives_kind h)) fun _ _ => .pure h
    · rw [evaluateQuoted.eq_def]
      exact .pure (S.fragment_of_value _ h)

theorem makes_evaluateBody_of_values (hlink : link.Meets S) {es : List Value} (hes : ∀ e ∈ es, S.value e) :
    S.Makes (Machine.Meets S) S.value (evaluateBody link .nil es) :=
  makes_evaluateBody (fun e he => closed_of_value hlink e (hes e he)) value_nil

/-! ## Functions -/

theorem makes_inFrame {α : Type} {Q : α → Prop} {home : Home} {env : Env} {code : Eval α} (hhome : home.Meets S)
    (henv : env.Meets S) (h : S.Makes (Machine.Meets S) Q code) :
    S.Makes (Machine.Meets S) Q (inFrame home env code) := by
  intro m hm
  have hcode := h { world := m.world, home, env, inFunction := true } ⟨hm.world, hhome, henv⟩
  unfold inFrame
  cases hrun : code { world := m.world, home, env, inFunction := true } with
  | ok a n => rw [hrun] at hcode; exact ⟨hcode.1, hcode.2.world, hm.home, hm.env⟩
  | error e n => rw [hrun] at hcode; exact ⟨⟨hcode.1.world, hm.home, hm.env⟩, hcode.2⟩

end Eval

theorem Linkage.meets_within (imported : Imports) (depth : Nat) : (Linkage.within imported depth).Meets S := by
  intro home f args hhome hf hargs
  show S.Makes _ _ (applyWithin imported depth home f args)
  induction depth generalizing home f args with
  | zero => exact .throw (S.unlocated rfl)
  | succ depth ih =>
    have hlink : Linkage.Meets S ⟨imported, applyWithin imported depth⟩ := ih
    exact Eval.makes_inFrame hhome (Env.meets_ofArgs f.params hargs) (Eval.makes_evaluateBody_of_values hlink hf)

/-! ## Code that is run in the world -/

namespace World

variable {link : Linkage}

theorem makes_runIn {α : Type} {Q : α → Prop} {home : Home} {env : Env} {code : Eval α} (hhome : home.Meets S)
    (henv : env.Meets S) (h : S.Makes (Machine.Meets S) Q code) : S.Makes (World.Meets S) Q (runIn home env code) := by
  intro w hw
  have hcode := h { world := w, home, env } ⟨hw, hhome, henv⟩
  unfold runIn
  cases hrun : code { world := w, home, env } with
  | ok a m => rw [hrun] at hcode; exact ⟨hcode.1, hcode.2.world⟩
  | error e m => rw [hrun] at hcode; exact ⟨hcode.1.world, hcode.2⟩

section

variable (hlink : link.Meets S)

include hlink

theorem makes_script {home : Home} (hhome : home.Meets S) {forms : List Value} (hforms : ∀ e ∈ forms, S.value e) :
    S.Makes (World.Meets S) S.value (script link home forms) :=
  makes_runIn hhome Env.meets_nil (Eval.makes_evaluateBody_of_values hlink hforms)

theorem makes_call (module name : String) {args : List Value} (hargs : ∀ v ∈ args, S.value v) {info : Info}
    (hinfo : S.info info) : S.Makes (World.Meets S) S.value (call link module name args info) :=
  makes_runIn (List.forall_mem_nil _) Env.meets_nil (Eval.makes_callRemote hlink false module name hargs hinfo)

theorem makes_runMacro {body : MacroBody} (hbody : ∀ e ∈ body.forms, S.value e) {args : List Value}
    (hargs : ∀ v ∈ args, S.value v) : S.Makes (World.Meets S) S.value (runMacro link body args) :=
  fun w hw => makes_runIn (Home.meets_ofScope w _ _) (Env.meets_ofArgs _ hargs)
    (Eval.makes_evaluateBody_of_values hlink hbody) w hw

theorem makes_load (name : String) {forms : List Value} (hforms : ∀ e ∈ forms, S.value e)
    (declarations : Option DeclarationSource) :
    S.Makes (World.Meets S) (fun _ => True) (load link name forms declarations) := by
  intro w hw
  unfold load defineModule
  split
  · rename_i e he
    split at he
    · cases he
      exact ⟨hw, Standard.routine_on S.info_none rfl⟩
    · cases he
  · rename_i w₁ hw₁
    split at hw₁
    · cases hw₁
    · cases hw₁
      have hnew : World.Meets S { w with modules := w.modules ++ [{ name, declarations }] } :=
        List.forall_mem_append.2 ⟨hw, List.forall_mem_singleton.2 (List.forall_mem_nil _)⟩
      have hhome : (Home.loaded name).Meets S := trivial
      have hscript := makes_script hlink hhome hforms _ hnew
      split
      · rename_i e w' hrun
        rw [hrun] at hscript
        exact ⟨hscript.1.unload name, hscript.2⟩
      · rename_i v w' hrun
        rw [hrun] at hscript
        exact ⟨trivial, hscript.2⟩

end

end World

/-! ## Definitions in the body of a macro -/

/-- The definitions that evaluation of a value can come to are parts of the value. -/
theorem Value.meets_definitions (v : Value) :
    S.value v → (∀ d ∈ v.definitions, S.value d) ∧ ∀ d ∈ v.quotedDefinitions, S.value d := by
  have hall : ∀ vs : List Value, (∀ v ∈ vs, (∀ d ∈ v.definitions, S.value d) ∧ ∀ d ∈ v.quotedDefinitions, S.value d) →
      (∀ d ∈ definitionsAll vs, S.value d) ∧ ∀ d ∈ quotedDefinitionsAll vs, S.value d := by
    refine fun vs h => ⟨fun d hd => ?_, fun d hd => ?_⟩
    · obtain ⟨v, hv, hd⟩ := mem_definitionsAll.1 hd
      exact (h v hv).1 d hd
    · obtain ⟨v, hv, hd⟩ := mem_quotedDefinitionsAll.1 hd
      exact (h v hv).2 d hd
  induction v using treeInduction with
  | call name args info ih =>
    intro h
    obtain ⟨hcode, hquoted⟩ := hall args fun v hv => ih v hv ((Standard.value_call.1 h).2 v hv)
    constructor
    · rw [definitions]
      split
      · exact List.forall_mem_singleton.2 h
      · exact hquoted
      all_goals first | exact List.forall_mem_nil _ | exact hcode
    · rw [quotedDefinitions.eq_def]
      dsimp only
      split
      · exact hcode
      · exact hcode
      all_goals first | exact List.forall_mem_nil _ | exact hquoted
  | apply head args info ihHead ih =>
    intro h
    obtain ⟨-, hhead, hargs⟩ := Standard.value_apply.1 h
    obtain ⟨hcode, hquoted⟩ := hall args fun v hv => ih v hv (hargs v hv)
    rw [definitions, quotedDefinitions]
    exact ⟨hcode, List.forall_mem_append.2 ⟨(ihHead hhead).2, hquoted⟩⟩
  | list items ih =>
    intro h
    rw [definitions, quotedDefinitions]
    exact hall items fun v hv => ih v hv (Standard.value_list.1 h v hv)
  | tuple items ih =>
    intro h
    rw [definitions, quotedDefinitions]
    exact hall items fun v hv => ih v hv (Standard.value_of_tuple h v hv)
  | _ => exact fun _ => ⟨List.forall_mem_nil _, List.forall_mem_nil _⟩

theorem Function.meets_of_ofForm? {module : String} {d : Value} (hd : S.value d) {f : Function}
    (hf : Function.ofForm? module d = some f) : f.Meets S := by
  cases d with
  | call form args info =>
    obtain ⟨hinfo, hargs⟩ := Standard.value_call.1 hd
    obtain ⟨d, hdefinition, rfl⟩ := Option.map_eq_some_iff.1 hf
    have hbody := S.gives_ofForm hinfo form hargs
    cases hform : Definition.ofForm form args info with
    | ok d' =>
      rw [hform] at hdefinition hbody
      cases hdefinition
      exact hbody
    | error e =>
      rw [hform] at hdefinition
      cases hdefinition
  | _ => cases hf

/-- What the body of a macro can define is up to the standard of the body. -/
theorem MacroBody.meets_definitions {body : MacroBody} (h : ∀ e ∈ body.forms, S.value e) {f : Function}
    (hf : f ∈ body.definitions) : f.Meets S := by
  obtain ⟨d, hd, hf⟩ := List.mem_filterMap.1 hf
  obtain ⟨e, he, hd⟩ := Value.mem_definitionsAll.1 hd
  exact Function.meets_of_ofForm? ((Value.meets_definitions e (h e he)).1 d hd) hf

end MacroLang
