import MacroLang.Proofs.Code
import MacroLang.Proofs.Evaluation.Laws

/-!
# Evaluation touches only the bindings it names

Two machines that differ in their variables alone are told apart by a tree only through the variables that the tree
mentions, and a tree changes only the targets that it writes to. Functions take no part in this: a body runs with
variables of its own (`Eval.Blind`), whatever its caller has bound.

* `Eval.dependsOn_laws`: evaluation depends on the mentioned variables only, also where it fails;
* `Eval.keeps_laws`: every other binding than the targets is kept;
* `evaluate_touches_named`: both, for the evaluator whose calls may nest as deep as one likes.
-/

namespace MacroLang

/-- Machines that differ at most in their variables, and agree on the variables in `keys`. -/
structure Machine.Agree (keys : Variable → Prop) (m m' : Machine) : Prop where
  world : m'.world = m.world
  home : m'.home = m.home
  inFunction : m'.inFunction = m.inFunction
  env : ∀ x, keys x → m'.env.get? x = m.env.get? x

theorem Env.get?_bind (env : Env) (x y : Variable) (v : Value) :
    (env.bind y v).get? x = if x = y then some v else env.get? x := by
  unfold Env.get? Env.bind
  rw [List.lookup_cons]
  by_cases h : x = y
  · simp [h]
  · simp [h, beq_false_of_ne h]

namespace Eval

variable {α γ : Type}

/-- The machine that code leaves, whether it succeeds or fails. -/
def after (code : Eval α) (m : Machine) : Machine :=
  match code m with
  | .ok _ n => n
  | .error _ n => n

/-- The same value or the same error, in machines that agree on `keys`. -/
inductive SameOutcome (keys : Variable → Prop) :
    EStateM.Result Error Machine α → EStateM.Result Error Machine α → Prop where
  | ok {a : α} {m m' : Machine} : m.Agree keys m' → SameOutcome keys (.ok a m) (.ok a m')
  | error {e : Error} {m m' : Machine} : m.Agree keys m' → SameOutcome keys (.error e m) (.error e m')

/-- Machines that agree on `keys` are the same to the code. -/
def DependsOn (keys : Variable → Prop) ⦃α : Type⦄ (code : Eval α) : Prop :=
  ∀ ⦃m m' : Machine⦄, m.Agree keys m' → SameOutcome keys (code m) (code m')

/-- The code leaves the binding of a variable, or its absence, as it was. -/
def Keeps (x : Variable) ⦃α : Type⦄ (code : Eval α) : Prop :=
  ∀ m, (code.after m).env.get? x = m.env.get? x

/-! ## Code without variables -/

def withEnv (env : Env) : EStateM.Result Error Machine α → EStateM.Result Error Machine α
  | .ok a m => .ok a { m with env }
  | .error e m => .error e { m with env }

/-- The code neither looks at variables nor changes them. -/
def Blind (code : Eval α) : Prop :=
  ∀ m env, code { m with env } = withEnv env (code m)

namespace Blind

theorem pure (a : α) : Blind (Pure.pure a : Eval α) := fun _ _ => rfl

theorem throw (e : Error) : Blind (MonadExcept.throw e : Eval α) := fun _ _ => rfl

theorem ofExcept (r : Except Error α) : Blind (MonadExcept.ofExcept r : Eval α) := by
  cases r with
  | ok a => exact .pure a
  | error e => exact .throw e

theorem andThen {code : Eval α} {next : α → Eval γ} (h : Blind code) (hn : ∀ a, Blind (next a)) :
    Blind (code >>= next) := by
  intro m env
  rw [bind_apply, bind_apply, h m env]
  cases code m with
  | ok a n => exact hn a n env
  | error e n => rfl

/-- An objection may be raised first. -/
theorem refuseIf {c : Prop} [Decidable c] {e : Error} {next : Eval α} (h : Blind next) :
    Blind (if c then MonadExcept.throw e >>= fun _ : PUnit => next else next) := by
  split
  · exact .andThen (.throw e) fun _ => h
  · exact h

/-- The machine may be asked for, as long as its variables are not. -/
theorem reading {next : Machine → Eval α} (h : ∀ m, Blind (next m))
    (hn : ∀ m env, next { m with env } = next m) : Blind (get >>= next) := by
  intro m env
  show next { m with env } { m with env } = withEnv env (next m m)
  rw [hn, h m m env]

/-- Blind code has nothing to tell machines with different variables apart by. -/
theorem dependsOn {code : Eval α} (h : Blind code) (keys : Variable → Prop) : DependsOn keys code := by
  intro m m' agree
  have hm : m' = { m with env := m'.env } := by
    cases m; cases m'
    cases agree.world; cases agree.home; cases agree.inFunction
    rfl
  have hself : code m = withEnv m.env (code m) := h m m.env
  rw [hm, h m m'.env, hself]
  cases code m with
  | ok a n => exact .ok ⟨rfl, rfl, rfl, agree.env⟩
  | error e n => exact .error ⟨rfl, rfl, rfl, agree.env⟩

theorem keeps {code : Eval α} (h : Blind code) (x : Variable) : Keeps x code := by
  intro m
  have hself : code m = withEnv m.env (code m) := h m m.env
  unfold after
  rw [hself]
  cases code m with
  | ok a n => rfl
  | error e n => rfl

end Blind

/-- Code in a frame of its own sees nothing of the variables around it. -/
theorem blind_inFrame (home : Home) (env : Env) (code : Eval α) : Blind (inFrame home env code) := by
  intro m env'
  unfold inFrame
  dsimp only
  cases code { world := m.world, home, env, inFunction := true } with
  | ok a n => rfl
  | error e n => rfl

theorem blind_addFunction (f : Function) : Blind (addFunction f) := by
  rintro ⟨world, home, env, inFunction⟩ env'
  cases home with
  | loaded name => rfl
  | unlisted module => rfl

theorem blind_define (form : String) (args : List Value) (info : Info) :
    Blind (define form args info) := by
  unfold define
  refine .reading (fun m => ?_) fun _ _ => rfl
  refine .refuseIf ?_
  refine .andThen (.ofExcept _) fun d => .refuseIf ?_
  exact .andThen (blind_addFunction _) fun _ => .ofExcept _

/-! ## Calls -/

/-- Functions run apart from the variables of their callers. -/
def CallsApart (link : Linkage) : Prop :=
  ∀ home f args, Blind (link.apply home f args)

theorem callsApart_within (imported : Imports) (depth : Nat) :
    CallsApart (.within imported depth) := by
  intro home f args
  show Blind (applyWithin imported depth home f args)
  cases depth with
  | zero => exact .throw _
  | succ depth => exact blind_inFrame _ _ _

theorem blind_callLocal {link : Linkage} (h : CallsApart link) (name : String) (args : List Value)
    (info : Info) : Blind (callLocal link name args info) := by
  unfold callLocal
  refine .reading (fun m => ?_) fun _ _ => rfl
  dsimp only
  split
  · exact h _ _ _
  · split
    · exact h _ _ _
    · split
      · exact .ofExcept _
      · exact .throw _

theorem blind_callRemote {link : Linkage} (h : CallsApart link) (inside : Bool)
    (module name : String) (args : List Value) (info : Info) :
    Blind (callRemote link inside module name args info) := by
  unfold callRemote
  split
  · exact .ofExcept _
  · unfold callModule
    refine .reading (fun m => ?_) fun _ _ => rfl
    split
    · exact .throw _
    · split
      · exact .throw _
      · split
        · exact h _ _ _
        · exact .throw _

/-! ## The two laws -/

theorem dependsOn_lookup {keys : Variable → Prop} {x : Variable} (info : Info) (hx : keys x) :
    DependsOn keys (lookup x info) := by
  intro m m' agree
  have same : m'.env.get? x = m.env.get? x := agree.env x hx
  rw [lookup, get_bind, get_bind, same]
  cases m.env.get? x with
  | some v => exact .ok agree
  | none => exact .error agree

theorem dependsOn_bind {keys : Variable → Prop} (x : Variable) (v : Value) :
    DependsOn keys (bind x v) := by
  intro m m' agree
  refine .ok ⟨agree.world, agree.home, agree.inFunction, fun y hy => ?_⟩
  show (m'.env.bind x v).get? y = (m.env.bind x v).get? y
  rw [Env.get?_bind, Env.get?_bind, agree.env y hy]

theorem DependsOn.andThen {keys : Variable → Prop} {code : Eval α} {next : α → Eval γ}
    (h : DependsOn keys code) (hn : ∀ a, DependsOn keys (next a)) : DependsOn keys (code >>= next) := by
  intro m m' agree
  rw [bind_apply, bind_apply]
  have same := h agree
  cases hm : code m with
  | ok a n =>
    cases hm' : code m' with
    | ok a' n' =>
      rw [hm, hm'] at same
      cases same with
      | ok agree => exact hn a agree
    | error e n' => rw [hm, hm'] at same; cases same
  | error e n =>
    cases hm' : code m' with
    | ok a n' => rw [hm, hm'] at same; cases same
    | error e' n' =>
      rw [hm, hm'] at same
      cases same with
      | error agree => exact .error agree

theorem dependsOn_atHome {keys : Variable → Prop} {next : Home → Eval α} (h : ∀ home, DependsOn keys (next home)) :
    DependsOn keys (get >>= fun m => next m.home) := by
  intro m m' agree
  show SameOutcome keys (next m.home m) (next m'.home m')
  rw [agree.home]
  exact h m.home agree

/-- Evaluation depends on the variables that it may read, provided that it writes to no others. -/
theorem dependsOn_laws {link : Linkage} (h : CallsApart link) (keys : Variable → Prop) :
    Laws link link keys keys (fun _ => True) fun _ code _ => DependsOn keys code where
  pure a := (Blind.pure a).dependsOn keys
  throw e _ := (Blind.throw e).dependsOn keys
  andThen := DependsOn.andThen
  atHome _ := dependsOn_atHome
  lookup := dependsOn_lookup
  bind v _ := dependsOn_bind _ v
  define _ := (blind_define _ _ _).dependsOn keys
  callLocal name args info := (blind_callLocal h name args info).dependsOn keys
  callRemote module name args info :=
    dependsOn_atHome fun _ => (blind_callRemote h _ module name args info).dependsOn keys

theorem Keeps.andThen {x : Variable} {code : Eval α} {next : α → Eval γ} (h : Keeps x code)
    (hn : ∀ a, Keeps x (next a)) : Keeps x (code >>= next) := by
  intro m
  have hm := h m
  unfold after at hm ⊢
  rw [bind_apply]
  cases hcode : code m with
  | ok a n =>
    rw [hcode] at hm
    exact (hn a n).trans hm
  | error e n =>
    rw [hcode] at hm
    exact hm

/-- Evaluation keeps a binding that is no target. -/
theorem keeps_laws {link : Linkage} (h : CallsApart link) (x : Variable) :
    Laws link link (fun _ => True) (· ≠ x) (fun _ => True) fun _ code _ => Keeps x code where
  pure a := (Blind.pure a).keeps x
  throw e _ := (Blind.throw e).keeps x
  andThen := Keeps.andThen
  atHome next hn := fun m => hn m.home m
  lookup {y} info _ := by
    refine Keeps.andThen (fun m => rfl) fun m => ?_
    split
    · exact (Blind.pure _).keeps x
    · exact (Blind.throw _).keeps x
  bind {y} v hy := by
    intro m
    show (m.env.bind y v).get? x = m.env.get? x
    rw [Env.get?_bind, if_neg (Ne.symm hy)]
  define _ := (blind_define _ _ _).keeps x
  callLocal name args info := (blind_callLocal h name args info).keeps x
  callRemote module name args info := fun m => (blind_callRemote h _ module name args info).keeps x m

end Eval

/-! ## What a tree touches -/

section

variable (imported : Imports) (depth : Nat)

/-- Trees whose variables are all in `keys` cannot tell apart machines that agree on `keys`. -/
theorem evaluate_dependsOn {keys : Variable → Prop} {e : Value} (h : ∀ x ∈ e.vars, keys x) :
    Eval.DependsOn keys (evaluate (.within imported depth) e) :=
  (Eval.dependsOn_laws (Eval.callsApart_within imported depth) keys).evaluate
    ⟨h, fun x hx => h x (e.targets_subset_vars x hx)⟩ fun _ _ => trivial

theorem evaluate_keeps {x : Variable} {e : Value} (h : x ∉ e.targets) :
    Eval.Keeps x (evaluate (.within imported depth) e) :=
  (Eval.keeps_laws (Eval.callsApart_within imported depth) x).evaluate
    ⟨fun _ _ => trivial, fun _ hy => ne_of_mem_of_not_mem hy h⟩ fun _ _ => trivial

end

/-- In machines that agree on the variables of a tree, its evaluation has the same outcome and leaves them agreeing;
and in either machine it leaves every binding alone that is no target of a `=` in the tree. -/
theorem evaluate_touches_named (imported : Imports) (depth : Nat) (e : Value) {m m' : Machine}
    (h : m.Agree (· ∈ e.vars) m') :
    Eval.SameOutcome (· ∈ e.vars) (evaluate (.within imported depth) e m)
        (evaluate (.within imported depth) e m') ∧
      ∀ x, x ∉ e.targets →
        ((evaluate (.within imported depth) e).after m).env.get? x = m.env.get? x ∧
        ((evaluate (.within imported depth) e).after m').env.get? x = m'.env.get? x := by
  refine ⟨evaluate_dependsOn imported depth (fun _ hx => hx) h, fun x hx => ?_⟩
  have keeps := evaluate_keeps imported depth hx
  exact ⟨keeps m, keeps m'⟩

/-- A block that binds `.x` to the value of `.y` and then fails, with and without a binding of `.z` around it. -/
theorem evaluate_touches_named_failing_block :
    let e : Value := .call "__block__"
      [.call "=" [.var "x" .direct {}, .var "y" .direct {}] {}, .call "raise" [.var "x" .direct {}] {}] {}
    let m : Machine := ⟨{}, .loaded "M", [(⟨"y", .direct⟩, .text "stop")], false⟩
    let m' : Machine := ⟨{}, .loaded "M", [(⟨"z", .direct⟩, .nil), (⟨"y", .direct⟩, .text "stop")], false⟩
    m.Agree (· ∈ e.vars) m' ∧
      Eval.SameOutcome (· ∈ e.vars) (evaluate (.within (fun _ _ => []) 1) e m)
        (evaluate (.within (fun _ _ => []) 1) e m') ∧
      ((evaluate (.within (fun _ _ => []) 1) e).after m').env.get? ⟨"z", .direct⟩ = some .nil := by
  intro e m m'
  have agree : m.Agree (· ∈ e.vars) m' := by
    refine ⟨rfl, rfl, rfl, fun x hx => ?_⟩
    have hx : x ∈ [⟨"x", .direct⟩, ⟨"y", .direct⟩, ⟨"x", .direct⟩] := hx
    simp only [List.mem_cons, List.not_mem_nil, or_false] at hx
    rcases hx with rfl | rfl | rfl <;> rfl
  obtain ⟨same, kept⟩ := evaluate_touches_named (fun _ _ => []) 1 e agree
  exact ⟨agree, same, (kept ⟨"z", .direct⟩ (by decide)).2⟩

end MacroLang
