import MacroLang.Proofs.Expansion.Effects
import MacroLang.Proofs.Expansion.Recursion

/-!
# The course of expansion

`Expander.Trace` follows the work stack from task to task and notes the macro calls that it comes to: each one is
invoked, and what the macro made of it is visited one level deeper, or it is refused and the work ends. Work ends for
every stack (`exists_trace`), and the outcome of a trace is that of the work (`Trace.work_eq`).

Between two macro calls expansion only makes declarations, and the visits that it adds may replace as often as the one
that they come from (`quiet_step`). So what declarations and invocations of macros that the unit sees keep, all of
expansion keeps (`Trace.maintains`).
-/

namespace MacroLang

variable {β : Type}

/-- A macro call that expansion came to. -/
structure Encounter (β : Type) where
  callee : Macro β
  args : List Value
  info : Info
  /-- How many macro calls were replaced, one by the next, until there was this one. The count starts at the depth
  that expansion starts at. -/
  depth : Int
  /-- The compilation at that time. -/
  compilation : Compilation β
  /-- Was the macro invoked? Otherwise the call was refused. -/
  invoked : Bool

/-- The visits among the tasks may replace as often as the task. -/
def Step.KeepsBudget {task : Task} (st : Step task) : Prop :=
  ∀ v budget, Task.visit v budget ∈ st.tasks → ∃ w, task = .visit w budget

namespace Step

theorem keepsBudget_done {task : Task} {v : Value} {changed : Bool} {results : List Expanded} :
    (done v changed results : Step task).KeepsBudget :=
  fun _ _ h => nomatch h

theorem keepsBudget_parts {w : Value} {b : Nat} {vs : List Value} {last : Task} {results : List Expanded}
    {hvs : ∀ v ∈ vs, sizeOf v < sizeOf w} {hlast : last.rank = (0, 0)} :
    (parts vs last results hvs hlast : Step (.visit w b)).KeepsBudget := by
  intro v budget h
  rcases List.mem_append.1 h with h | h
  · obtain ⟨_, _, hv⟩ := List.mem_map.1 h
    cases hv
    exact ⟨w, rfl⟩
  · rw [← List.mem_singleton.1 h] at hlast
    simp [Task.rank] at hlast

end Step

namespace Expander

/-- The macro call that a value is, taken apart. -/
def macroCall? (x : Expander β) (s : Session β) (scope : String) (v : Value) :
    Option (Macro β × List Value × Info) :=
  match v with
  | .call name args info => (x.resolve s scope (.call name args info)).map (·, args, info)
  | .apply head args info => (x.resolve s scope (.apply head args info)).map (·, args, info)
  | _ => none

/-- The macro call that a task comes to. -/
def meets? (x : Expander β) (s : Session β) (scope : String) : Task → Option (Macro β × List Value × Info)
  | .visit v _ => x.macroCall? s scope v
  | _ => none

variable {x : Expander β} {scope : String}

/-! ## Between macro calls -/

theorem keepsBudget_visitCall {name : String} {args : List Value} {info : Info} {budget : Nat}
    {results : List Expanded} {st : Step (.visit (.call name args info) budget)}
    (h : visitCall scope name args info budget results = .ok st) : st.KeepsBudget := by
  unfold visitCall at h
  split at h
  · cases h
    exact Step.keepsBudget_done
  · split at h
    · cases h
    · split at h
      · obtain ⟨v, -, hv⟩ := except_bind_eq_ok.1 h
        cases hv
        exact Step.keepsBudget_done
      · split at h
        · obtain ⟨v, -, hv⟩ := except_bind_eq_ok.1 h
          cases hv
          exact Step.keepsBudget_done
        · cases h
          exact Step.keepsBudget_parts

theorem common_visitCall (scope name : String) (args : List Value) (info : Info) (budget : Nat)
    (results : List Expanded) : Common (visitCall scope name args info budget results) := by
  unfold visitCall
  split
  · exact .ok _
  · split
    · exact .error rfl
    · split
      · exact .bind (Standard.common.gives_escapeArgs (fun _ _ => trivial) trivial).raises fun _ => .ok _
      · split
        · exact .bind (Standard.common.gives_buildAtom trivial _).raises fun _ => .ok _
        · exact .ok _

theorem keepsBudget_visitApply {s : Session β} {head : Value} {args : List Value} {info : Info} {budget : Nat}
    {results : List Expanded} {st : Step (.visit (.apply head args info) budget)}
    (h : x.visitApply s scope head args info budget results = .ok st) : st.KeepsBudget := by
  unfold visitApply at h
  split at h
  · obtain ⟨v, -, hv⟩ := except_bind_eq_ok.1 h
    cases hv
    exact Step.keepsBudget_parts
  · cases h
    exact Step.keepsBudget_parts

theorem common_visitApply (s : Session β) (scope : String) (head : Value) (args : List Value) (info : Info)
    (budget : Nat) (results : List Expanded) :
    Common (x.visitApply s scope head args info budget results) := by
  unfold visitApply
  split
  · exact .bind (gives_expandHead (S := .common) s _ trivial _ _).raises fun _ => .ok _
  · exact .ok _

section

variable {c : Compilation β} {task : Task}

/-- The work on a task makes declarations at most, and keeps budgets. -/
def Quiet (x : Expander β) (scope : String) (c : Compilation β) (code : Expand β (Step task)) : Prop :=
  Ensures (· = c) code
    (fun st c' => c.Declares x.registry scope c' ∧ st.KeepsBudget)
    (fun e c' => c.Declares x.registry scope c' ∧ e.isCommon = true)

theorem Quiet.pure {st : Step task} (h : st.KeepsBudget) : x.Quiet scope c (Pure.pure st) :=
  fun _ hc => ⟨hc ▸ .refl .., h⟩

theorem Quiet.ofExcept {r : Except Error (Step task)} (hr : Common r) (h : ∀ st, r = .ok st → st.KeepsBudget) :
    x.Quiet scope c (MonadExcept.ofExcept r) :=
  Ensures.ofExcept (fun st hst _ hc => ⟨hc ▸ .refl .., h st hst⟩) fun e he _ hc => ⟨hc ▸ .refl .., hr e he⟩

theorem Quiet.andThen {α : Type} {code : Expand β α} {st : α → Step task}
    (h : Preserves (c.Declares x.registry scope) code) (hst : ∀ a, (st a).KeepsBudget) :
    x.Quiet scope c (do return st (← code)) := by
  refine Ensures.bind (R := fun _ => c.Declares x.registry scope) ?_ fun a _ hc => ⟨hc, hst a⟩
  exact h.weaken (fun _ hc => hc ▸ .refl ..) (fun _ _ hok => hok) fun _ _ herror => herror

/-- So it is with every task that comes to no macro call. -/
theorem quiet_step (h : x.meets? c.session scope task = none) (results : List Expanded) :
    x.Quiet scope c (x.step scope task results) := by
  cases task with
  | visit v budget =>
    cases v with
    | list items => exact .pure Step.keepsBudget_parts
    | tuple items => exact .pure Step.keepsBudget_parts
    | call name args info =>
      have hnone : x.resolve c.session scope (.call name args info) = none := Option.map_eq_none_iff.1 h
      refine Ensures.reading fun _ hc => ?_
      rw [hc, hnone]
      exact Quiet.ofExcept (common_visitCall _ _ _ _ _ _) fun _ => keepsBudget_visitCall
    | apply head args info =>
      have hnone : x.resolve c.session scope (.apply head args info) = none := Option.map_eq_none_iff.1 h
      refine Ensures.reading fun _ hc => ?_
      rw [hc]
      dsimp only
      rw [hnone]
      exact Quiet.ofExcept (common_visitApply _ _ _ _ _ _ _) fun _ => keepsBudget_visitApply
    | _ => exact .andThen (.ofExcept (Standard.common.gives_kind trivial).raises) fun _ => Step.keepsBudget_done
  | rebuildCall name args info =>
    exact .andThen (makes_finishCall (S := .common) _ trivial fun _ _ => trivial).maintains
      fun _ => Step.keepsBudget_done
  | rebuildApply head args info | rebuildComputed args info =>
    exact .andThen (.ofExcept (gives_finishApply (S := .common) trivial trivial fun _ _ => trivial).raises)
      fun _ => Step.keepsBudget_done
  | rebuildList items => exact .pure Step.keepsBudget_done
  | rebuildTuple items =>
    exact .andThen (.ofExcept (gives_finishTuple (S := .common) False.elim fun _ _ => trivial).raises)
      fun _ => Step.keepsBudget_done
  | replaced => exact .pure Step.keepsBudget_done

end

end Expander

/-! ## Traces -/

/-- Tasks, all at one depth. -/
def Task.atDepth (d : Int) (tasks : List Task) : List (Int × Task) :=
  tasks.map (d, ·)

@[simp] theorem Task.map_snd_atDepth (d : Int) (tasks : List Task) : (atDepth d tasks).map Prod.snd = tasks := by
  simp [atDepth, Function.comp_def]

namespace Expander

variable {x : Expander β} {scope : String}

/-- The work on tasks at their depths, with the macro calls that it comes to and its outcome. -/
inductive Trace (x : Expander β) (scope : String) : List (Int × Task) → List Expanded → Compilation β →
    List (Encounter β) → EStateM.Result Error (Compilation β) (List Expanded) → Prop where
  | done {results : List Expanded} {c : Compilation β} : Trace x scope [] results c [] (.ok results c)
  /-- A macro is invoked, and its result is visited one level deeper. -/
  | invoke {d : Int} {v result : Value} {budget : Nat} {rest : List (Int × Task)} {results : List Expanded}
      {c c' : Compilation β} {m : Macro β} {args : List Value} {info : Info} {met : List (Encounter β)}
      {out : EStateM.Result Error (Compilation β) (List Expanded)} :
      x.macroCall? c.session scope v = some (m, args, info) → x.invoke m args info c = .ok result c' →
      Trace x scope ((d + 1, .visit result budget) :: (d, .replaced) :: rest) results c' met out →
      Trace x scope ((d, .visit v (budget + 1)) :: rest) results c (⟨m, args, info, d, c, true⟩ :: met) out
  /-- A macro is invoked and fails. -/
  | fail {d : Int} {v : Value} {budget : Nat} {rest : List (Int × Task)} {results : List Expanded}
      {c c' : Compilation β} {m : Macro β} {args : List Value} {info : Info} {e : Error} :
      x.macroCall? c.session scope v = some (m, args, info) → x.invoke m args info c = .error e c' →
      Trace x scope ((d, .visit v (budget + 1)) :: rest) results c [⟨m, args, info, d, c, true⟩] (.error e c')
  /-- A macro call is refused. -/
  | refuse {d : Int} {v : Value} {rest : List (Int × Task)} {results : List Expanded}
      {c : Compilation β} {m : Macro β} {args : List Value} {info : Info} :
      x.macroCall? c.session scope v = some (m, args, info) →
      Trace x scope ((d, .visit v 0) :: rest) results c [⟨m, args, info, d, c, false⟩]
        (.error ((Cause.depthExceeded m.name m.arity x.maxDepth).on info) c)
  /-- A task that comes to no macro call leaves tasks of the same depth. -/
  | quiet {d : Int} {task : Task} {rest : List (Int × Task)} {results : List Expanded} {c c' : Compilation β}
      {st : Step task} {met : List (Encounter β)} {out : EStateM.Result Error (Compilation β) (List Expanded)} :
      x.meets? c.session scope task = none → x.step scope task results c = .ok st c' →
      Trace x scope (Task.atDepth d st.tasks ++ rest) st.results c' met out →
      Trace x scope ((d, task) :: rest) results c met out
  | object {d : Int} {task : Task} {rest : List (Int × Task)} {results : List Expanded} {c c' : Compilation β}
      {e : Error} :
      x.meets? c.session scope task = none → x.step scope task results c = .error e c' →
      Trace x scope ((d, task) :: rest) results c [] (.error e c')

theorem sees_of_resolve {s : Session β} {v : Value} {m : Macro β} (h : x.resolve s scope v = some m) :
    s.Sees x.registry m := by
  cases v with
  | call name args info =>
    rw [resolve] at h
    exact Session.sees_of_lookup h
  | apply head args info =>
    obtain ⟨_, -, hlookup⟩ := Option.bind_eq_some_iff.1 h
    exact Session.sees_of_lookup hlookup
  | _ => cases h

theorem sees_of_macroCall? {s : Session β} {v : Value} {m : Macro β} {args : List Value} {info : Info}
    (h : x.macroCall? s scope v = some (m, args, info)) : s.Sees x.registry m := by
  cases v with
  | call name as i =>
    obtain ⟨_, hresolve, hm⟩ := Option.map_eq_some_iff.1 h
    cases hm
    exact sees_of_resolve hresolve
  | apply head as i =>
    obtain ⟨_, hresolve, hm⟩ := Option.map_eq_some_iff.1 h
    cases hm
    exact sees_of_resolve hresolve
  | _ => cases h

/-- A visit of a macro call replaces it. -/
theorem step_of_macroCall? {v : Value} {m : Macro β} {args : List Value} {info : Info} {c : Compilation β}
    (h : x.macroCall? c.session scope v = some (m, args, info)) (budget : Nat) (results : List Expanded) :
    x.step scope (.visit v budget) results c = x.replace m v args info budget results c := by
  cases v with
  | call name as i =>
    obtain ⟨_, hresolve, hm⟩ := Option.map_eq_some_iff.1 h
    cases hm
    rw [step, visit, get_bind, hresolve]
  | apply head as i =>
    obtain ⟨_, hresolve, hm⟩ := Option.map_eq_some_iff.1 h
    cases hm
    rw [step, visit, get_bind, hresolve]
  | _ => cases h

theorem exists_replace {m : Macro β} {args : List Value} {info : Info} {c c' : Compilation β} {result : Value}
    (h : x.invoke m args info c = .ok result c') (v : Value) (budget : Nat) (results : List Expanded) :
    ∃ st : Step (.visit v (budget + 1)), x.replace m v args info (budget + 1) results c = .ok st c' ∧
      st.tasks = [.visit result budget, .replaced] ∧ st.results = results := by
  rw [replace, bind_apply, h]
  exact ⟨_, rfl, rfl, rfl⟩

variable {agenda : List (Int × Task)} {results : List Expanded} {c : Compilation β} {met : List (Encounter β)}
  {out : EStateM.Result Error (Compilation β) (List Expanded)}

/-- What the work comes to is the outcome of its trace. -/
theorem Trace.work_eq (h : x.Trace scope agenda results c met out) :
    x.work scope (agenda.map Prod.snd) results c = out := by
  induction h with
  | done => rw [List.map_nil, work]; rfl
  | invoke hcall hinvoke _ ih =>
    rw [List.map_cons, work_cons, bind_apply, step_of_macroCall? hcall, replace, bind_apply, hinvoke]
    exact ih
  | fail hcall hinvoke =>
    rw [List.map_cons, work_cons, bind_apply, step_of_macroCall? hcall, replace, bind_apply, hinvoke]
  | refuse hcall =>
    rw [List.map_cons, work_cons, bind_apply, step_of_macroCall? hcall]
    rfl
  | quiet _ hstep _ ih =>
    rw [List.map_cons, work_cons, bind_apply, hstep]
    rw [List.map_append, Task.map_snd_atDepth] at ih
    exact ih
  | object _ hstep => rw [List.map_cons, work_cons, bind_apply, hstep]

/-- The work on any tasks ends. -/
theorem exists_trace (x : Expander β) (scope : String) (agenda : List (Int × Task)) (results : List Expanded)
    (c : Compilation β) : ∃ met out, x.Trace scope agenda results c met out := by
  generalize htasks : agenda.map Prod.snd = tasks
  induction tasks, results using work.induct generalizing agenda c with
  | case1 results =>
    cases List.map_eq_nil_iff.1 htasks
    exact ⟨_, _, .done⟩
  | case2 results task rest ih =>
    obtain ⟨⟨d, task⟩, entries, rfl, rfl, rfl⟩ := List.map_eq_cons_iff.1 htasks
    cases hmeets : x.meets? c.session scope task with
    | none =>
      cases hstep : x.step scope task results c with
      | error e c' => exact ⟨_, _, .object hmeets hstep⟩
      | ok st c' =>
        obtain ⟨met, out, h⟩ := ih st (Task.atDepth d st.tasks ++ entries) c' (by simp)
        exact ⟨_, _, .quiet hmeets hstep h⟩
    | some call =>
      obtain ⟨m, args, info⟩ := call
      cases task with
      | visit v budget => cases budget with
        | zero => exact ⟨_, _, .refuse hmeets⟩
        | succ budget => cases hinvoke : x.invoke m args info c with
          | error e c' => exact ⟨_, _, .fail hmeets hinvoke⟩
          | ok result c' =>
            obtain ⟨st, -, hst, hresults⟩ := exists_replace hinvoke v budget results
            obtain ⟨met, out, h⟩ :=
              ih st ((d + 1, .visit result budget) :: (d, .replaced) :: entries) c' (by simp [hst])
            exact ⟨_, _, .invoke hmeets hinvoke (hresults ▸ h)⟩
      | _ => cases hmeets

/-- What declarations and invocations of macros that the unit sees keep, the work on any tasks keeps. -/
theorem Trace.maintains {I : Compilation β → Prop} {raises : Error → Prop}
    (hdeclares : ∀ c c', I c → c.Declares x.registry scope c' → I c')
    (hinvoke : ∀ m args info, Ensures (fun c => c.session.Sees x.registry m ∧ I c) (x.invoke m args info)
      (fun _ => I) (fun e c => I c ∧ raises e))
    (hcommon : ∀ e, e.isCommon = true → raises e)
    (hdepth : ∀ name arity info, raises ((Cause.depthExceeded name arity x.maxDepth).on info))
    (h : x.Trace scope agenda results c met out) (hc : I c) :
    Ends (fun _ => I) (fun e c' => I c' ∧ raises e) out := by
  induction h with
  | done => exact hc
  | invoke hcall hcode _ ih => exact ih ((hinvoke _ _ _).of_ok ⟨sees_of_macroCall? hcall, hc⟩ hcode)
  | fail hcall hcode => exact (hinvoke _ _ _).of_error ⟨sees_of_macroCall? hcall, hc⟩ hcode
  | refuse => exact ⟨hc, hdepth _ _ _⟩
  | quiet hmeets hstep _ ih => exact ih (hdeclares _ _ hc ((quiet_step hmeets _).of_ok rfl hstep).1)
  | object hmeets hstep =>
    obtain ⟨hdeclared, he⟩ := (quiet_step hmeets _).of_error rfl hstep
    exact ⟨hdeclares _ _ hc hdeclared, hcommon _ he⟩

/-- The tasks that expansion starts with. -/
def start (x : Expander β) (depth : Int) (v : Value) : List (Int × Task) :=
  [(depth, .visit v (x.maxDepth - depth).toNat)]

/-- The value of the result on top. -/
def topValue (results : List Expanded) : Value :=
  (results.headD ⟨.nothing, false⟩).value

theorem Trace.expandFrom_eq {depth : Int} {v : Value} (h : x.Trace scope (x.start depth v) [] c met out) :
    x.expandFrom depth scope v c = mapValue topValue out := by
  have hwork : x.work scope [.visit v (x.maxDepth - depth).toNat] [] c = out := h.work_eq
  rw [expandFrom, bind_apply, hwork]
  cases out with
  | ok results c' => rfl
  | error e c' => rfl

theorem maintains_expandFrom {I : Compilation β → Prop} {raises : Error → Prop}
    (hdeclares : ∀ c c', I c → c.Declares x.registry scope c' → I c')
    (hinvoke : ∀ m args info, Ensures (fun c => c.session.Sees x.registry m ∧ I c) (x.invoke m args info)
      (fun _ => I) (fun e c => I c ∧ raises e))
    (hcommon : ∀ e, e.isCommon = true → raises e)
    (hdepth : ∀ name arity info, raises ((Cause.depthExceeded name arity x.maxDepth).on info))
    (depth : Int) (v : Value) : Maintains I raises (x.expandFrom depth scope v) := by
  intro c hc
  obtain ⟨met, out, h⟩ := exists_trace x scope (x.start depth v) [] c
  have hout := h.maintains hdeclares hinvoke hcommon hdepth hc
  rw [h.expandFrom_eq]
  cases out with
  | ok results c' => exact hout
  | error e c' => exact hout

end Expander

end MacroLang
