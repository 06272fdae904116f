import MacroLang.Proofs.Expansion.Depth

/-!
# Another bound on repeated expansion

Expansion takes no notice of its bound until it comes to a macro call that it has to refuse. So the work under one bound
goes on in the same way under a larger one, task by task, as long as no call is refused (`Trace.withBound`): the visits
on the stack differ in how often they may replace, and in nothing else (`step_withBudget`).

Main statement: `bound_only_cutsOff`.
-/

namespace MacroLang

/-- The task, with another budget if it is a visit. -/
def Task.withBudget (budget : Nat) : Task → Task
  | visit v _ => visit v budget
  | task => task

namespace Step

variable {task : Task}

/-- The tasks and the finished values of a step, the visits with another budget. -/
def contentAt (budget : Nat) (st : Step task) : List Task × List Expanded :=
  (st.tasks.map (Task.withBudget budget), st.results)

/-- The tasks and the finished values of a step. -/
def content (st : Step task) : List Task × List Expanded :=
  (st.tasks, st.results)

theorem content_parts {w : Value} {b budget : Nat} {vs : List Value} {last : Task} {results : List Expanded}
    {hvs : ∀ v ∈ vs, sizeOf v < sizeOf w} {hlast : last.rank = (0, 0)} (h : last.withBudget b = last) :
    (parts vs last results hvs hlast : Step (.visit w b)).content =
      (parts vs last results hvs hlast : Step (.visit w budget)).contentAt b := by
  have hvisits : (Task.visits budget vs).map (Task.withBudget b) = Task.visits b vs := by
    simp [Task.visits, Task.withBudget, Function.comp_def]
  simp only [content, contentAt, parts, List.map_append, List.map_cons, List.map_nil, hvisits, h]

end Step

namespace Expander

variable {β : Type} {x : Expander β} {scope : String} {agenda : List (Int × Task)} {results : List Expanded}
  {c : Compilation β} {met met' : List (Encounter β)} {out out' : EStateM.Result Error (Compilation β) (List Expanded)}

/-- The expander with another bound. -/
def withBound (x : Expander β) (bound : Nat) : Expander β :=
  { x with maxDepth := bound }

/-! ## One task -/

theorem visitCall_withBudget (scope name : String) (args : List Value) (info : Info) (budget b : Nat)
    (results : List Expanded) :
    (visitCall scope name args info b results).map Step.content =
      (visitCall scope name args info budget results).map (Step.contentAt b) := by
  unfold visitCall
  split
  · rfl
  split
  · rfl
  split
  · cases Value.escapeArgs args info <;> rfl
  split
  · cases Value.buildAtom scope {} <;> rfl
  · exact congrArg Except.ok (Step.content_parts rfl)

theorem visitApply_withBudget (s : Session β) (scope : String) (head : Value) (args : List Value) (info : Info)
    (budget b bound : Nat) (results : List Expanded) :
    ((x.withBound bound).visitApply s scope head args info b results).map Step.content =
      (x.visitApply s scope head args info budget results).map (Step.contentAt b) := by
  unfold visitApply
  cases head.remote? with
  | none => exact congrArg Except.ok (Step.content_parts rfl)
  | some remote =>
    have hhead : (x.withBound bound).expandHead s scope (info.context.getD .direct) head remote.1 remote.2 =
      x.expandHead s scope (info.context.getD .direct) head remote.1 remote.2 := rfl
    dsimp only
    rw [hhead]
    cases x.expandHead s scope (info.context.getD .direct) head remote.1 remote.2 with
    | error e => rfl
    | ok full => exact congrArg Except.ok (Step.content_parts rfl)

theorem mapValue_ofExcept {α γ δ : Type} {f : α → δ} {g : γ → δ} {r : Except Error α} {r' : Except Error γ}
    (h : r.map f = r'.map g) (c : Compilation β) :
    mapValue f ((ofExcept r : Expand β α) c) = mapValue g ((ofExcept r' : Expand β γ) c) := by
  cases r with
  | ok a =>
    cases r' with
    | ok b => exact congrArg (EStateM.Result.ok · c) (Except.ok.inj h)
    | error e => cases h
  | error e =>
    cases r' with
    | ok b => cases h
    | error e' => cases h; rfl

theorem mapValue_andThen {α : Type} {task task' : Task} {code : Expand β α} {st : α → Step task} {st' : α → Step task'}
    {budget : Nat} (h : ∀ a, (st a).content = (st' a).contentAt budget) :
    mapValue Step.content ((do return st (← code) : Expand β (Step task)) c) =
      mapValue (Step.contentAt budget) ((do return st' (← code) : Expand β (Step task')) c) := by
  rw [bind_apply, bind_apply]
  cases code c with
  | ok a c' => exact congrArg (EStateM.Result.ok · c') (h a)
  | error e c' => rfl

/-- A task that comes to no macro call leaves the same tasks under another bound, with the budget of the task. -/
theorem step_withBudget {task : Task} (h : x.meets? c.session scope task = none) (bound b : Nat)
    (results : List Expanded) :
    mapValue Step.content ((x.withBound bound).step scope (task.withBudget b) results c) =
      mapValue (Step.contentAt b) (x.step scope task results c) := by
  cases task with
  | visit v budget =>
    cases v with
    | list items => exact congrArg (EStateM.Result.ok · c) (Step.content_parts rfl)
    | tuple items => exact congrArg (EStateM.Result.ok · c) (Step.content_parts rfl)
    | call name args info =>
      have hnone : x.resolve c.session scope (.call name args info) = none := Option.map_eq_none_iff.1 h
      have hnone' : (x.withBound bound).resolve c.session scope (.call name args info) = none := hnone
      rw [Task.withBudget, step, step, visit, visit, get_bind, get_bind, hnone, hnone']
      exact mapValue_ofExcept (visitCall_withBudget scope name args info budget b results) c
    | apply head args info =>
      have hnone : x.resolve c.session scope (.apply head args info) = none := Option.map_eq_none_iff.1 h
      have hnone' : (x.withBound bound).resolve c.session scope (.apply head args info) = none := hnone
      rw [Task.withBudget, step, step, visit, visit, get_bind, get_bind, hnone, hnone']
      exact mapValue_ofExcept (visitApply_withBudget c.session scope head args info budget b bound results) c
    | _ => exact mapValue_andThen fun _ => rfl
  | rebuildCall name args info => exact mapValue_andThen fun _ => rfl
  | rebuildApply head args info => exact mapValue_andThen fun _ => rfl
  | rebuildComputed args info => exact mapValue_andThen fun _ => rfl
  | rebuildList items => rfl
  | rebuildTuple items => exact mapValue_andThen fun _ => rfl
  | replaced => rfl

theorem step_ok_withBudget {task : Task} (h : x.meets? c.session scope task = none) {st : Step task}
    {c' : Compilation β} (hstep : x.step scope task results c = .ok st c') (bound b : Nat) :
    ∃ st', (x.withBound bound).step scope (task.withBudget b) results c = .ok st' c' ∧
      st'.tasks = st.tasks.map (Task.withBudget b) ∧ st'.results = st.results := by
  have hsame := step_withBudget h bound b results
  rw [hstep] at hsame
  cases hstep' : (x.withBound bound).step scope (task.withBudget b) results c with
  | error e c₁ =>
    rw [hstep'] at hsame
    cases hsame
  | ok st' c₁ =>
    rw [hstep'] at hsame
    injection hsame with hcontent hc
    injection hcontent with htasks hresults
    exact ⟨st', hc ▸ rfl, htasks, hresults⟩

theorem step_error_withBudget {task : Task} (h : x.meets? c.session scope task = none) {e : Error}
    {c' : Compilation β} (hstep : x.step scope task results c = .error e c') (bound b : Nat) :
    (x.withBound bound).step scope (task.withBudget b) results c = .error e c' := by
  have hsame := step_withBudget h bound b results
  rw [hstep] at hsame
  cases hstep' : (x.withBound bound).step scope (task.withBudget b) results c with
  | error e₁ c₁ =>
    rw [hstep'] at hsame
    cases hsame
    rfl
  | ok st' c₁ =>
    rw [hstep'] at hsame
    cases hsame

theorem meets?_withBudget (s : Session β) (task : Task) (bound b : Nat) :
    (x.withBound bound).meets? s scope (task.withBudget b) = x.meets? s scope task := by
  cases task <;> rfl

/-! ## All tasks -/

/-- The tasks, as they are under another bound. -/
def rebound (bound : Nat) (agenda : List (Int × Task)) : List (Int × Task) :=
  agenda.map fun entry => (entry.1, entry.2.withBudget (bound - entry.1).toNat)

theorem rebound_atDepth (bound : Nat) (d : Int) (tasks : List Task) (rest : List (Int × Task)) :
    rebound bound (Task.atDepth d tasks ++ rest) =
      Task.atDepth d (tasks.map (Task.withBudget (bound - d).toNat)) ++ rebound bound rest := by
  simp [rebound, Task.atDepth, Function.comp_def]

/-- Work that refuses no macro call goes the same way under a larger bound. -/
theorem Trace.withBound (h : x.Trace scope agenda results c met out) (hmet : ∀ e ∈ met, e.invoked = true)
    (hsynced : x.Synced agenda) {bound : Nat} (hbound : x.maxDepth ≤ bound) :
    (x.withBound bound).Trace scope (rebound bound agenda) results c met out := by
  induction h with
  | done => exact .done
  | @invoke d v result budget rest results c c' m args info met out hcall hinvoke _ ih =>
    have hbudget := hsynced d v (budget + 1) List.mem_cons_self
    have hmore : (bound - d).toNat = (bound - (d + 1)).toNat + 1 := by omega
    have htail := ih (List.forall_mem_cons.1 hmet).2 (hsynced.invoke result)
    simp only [rebound, List.map_cons, Task.withBudget] at htail ⊢
    rw [hmore]
    exact .invoke hcall hinvoke htail
  | @fail d v budget rest results c c' m args info e hcall hinvoke =>
    have hbudget := hsynced d v (budget + 1) List.mem_cons_self
    have hmore : (bound - d).toNat = (bound - (d + 1)).toNat + 1 := by omega
    simp only [rebound, List.map_cons, Task.withBudget]
    rw [hmore]
    exact .fail hcall hinvoke
  | refuse =>
    have hinvoked := List.forall_mem_singleton.1 hmet
    cases hinvoked
  | @quiet d task rest results c c' st met out hmeets hstep _ ih =>
    have htail := ih hmet (hsynced.quiet ((quiet_step hmeets _).of_ok rfl hstep).2)
    obtain ⟨st', hstep', htasks, hresults⟩ := step_ok_withBudget hmeets hstep bound (bound - d).toNat
    rw [rebound_atDepth, ← htasks, ← hresults] at htail
    exact .quiet ((meets?_withBudget ..).trans hmeets) hstep' htail
  | object hmeets hstep =>
    exact .object ((meets?_withBudget ..).trans hmeets) (step_error_withBudget hmeets hstep ..)

/-- There is one trace only. -/
theorem Trace.unique (h : x.Trace scope agenda results c met out) (h' : x.Trace scope agenda results c met' out') :
    met = met' ∧ out = out' := by
  induction h generalizing met' out' with
  | done =>
    cases h'
    exact ⟨rfl, rfl⟩
  | invoke hcall hinvoke _ ih => cases h' with
    | invoke hcall' hinvoke' htail =>
      cases hcall.symm.trans hcall'
      cases hinvoke.symm.trans hinvoke'
      obtain ⟨rfl, rfl⟩ := ih htail
      exact ⟨rfl, rfl⟩
    | fail hcall' hinvoke' =>
      cases hcall.symm.trans hcall'
      cases hinvoke.symm.trans hinvoke'
    | quiet hmeets => cases hcall.symm.trans hmeets
    | object hmeets => cases hcall.symm.trans hmeets
  | fail hcall hinvoke => cases h' with
    | invoke hcall' hinvoke' =>
      cases hcall.symm.trans hcall'
      cases hinvoke.symm.trans hinvoke'
    | fail hcall' hinvoke' =>
      cases hcall.symm.trans hcall'
      cases hinvoke.symm.trans hinvoke'
      exact ⟨rfl, rfl⟩
    | quiet hmeets => cases hcall.symm.trans hmeets
    | object hmeets => cases hcall.symm.trans hmeets
  | refuse hcall => cases h' with
    | refuse hcall' =>
      cases hcall.symm.trans hcall'
      exact ⟨rfl, rfl⟩
    | quiet hmeets => cases hcall.symm.trans hmeets
    | object hmeets => cases hcall.symm.trans hmeets
  | quiet hmeets hstep _ ih => cases h' with
    | invoke hcall => cases hcall.symm.trans hmeets
    | fail hcall => cases hcall.symm.trans hmeets
    | refuse hcall => cases hcall.symm.trans hmeets
    | quiet _ hstep' htail =>
      cases hstep.symm.trans hstep'
      exact ih htail
    | object _ hstep' => cases hstep.symm.trans hstep'
  | object hmeets hstep => cases h' with
    | invoke hcall => cases hcall.symm.trans hmeets
    | fail hcall => cases hcall.symm.trans hmeets
    | refuse hcall => cases hcall.symm.trans hmeets
    | quiet _ hstep' => cases hstep.symm.trans hstep'
    | object _ hstep' =>
      cases hstep.symm.trans hstep'
      exact ⟨rfl, rfl⟩

/-! ## The whole expansion -/

/-- Expansion comes to a macro call that it refuses, so that it ends in the error of the bound. An error of the same
kind that the body of a macro raises is another matter. -/
def CutsOff (x : Expander β) (depth : Int) (scope : String) (v : Value) (c : Compilation β) : Prop :=
  ∃ met out, x.Trace scope (x.start depth v) [] c met out ∧ ∃ e ∈ met, e.invoked = false

variable {depth : Int} {v : Value}

theorem expandFrom_of_cutsOff (h : x.CutsOff depth scope v c) :
    ∃ name arity info c', x.expandFrom depth scope v c =
      .error ((Cause.depthExceeded name arity x.maxDepth).on info) c' := by
  obtain ⟨met, out, htrace, e, he, hrefused⟩ := h
  rw [htrace.expandFrom_eq, htrace.eq_of_refused he hrefused]
  exact ⟨_, _, _, _, rfl⟩

theorem Trace.invoked_of_not_cutsOff (h : x.Trace scope (x.start depth v) [] c met out)
    (hnot : ¬ x.CutsOff depth scope v c) : ∀ e ∈ met, e.invoked = true := by
  intro e he
  cases hinvoked : e.invoked with
  | true => rfl
  | false => exact absurd ⟨met, out, h, e, he, hinvoked⟩ hnot

theorem cutsOff_iff (hrun : ∀ s body args, Preserves (fun _ => True) (x.run s body args)) :
    x.CutsOff depth scope v c ↔ ∃ name arity info c', x.expandFrom depth scope v c =
      .error ((Cause.depthExceeded name arity x.maxDepth).on info) c' := by
  refine ⟨expandFrom_of_cutsOff, fun ⟨name, arity, info, c', hexpand⟩ => Classical.byContradiction fun hnot => ?_⟩
  obtain ⟨met, out, htrace⟩ := exists_trace x scope (x.start depth v) [] c
  rw [htrace.expandFrom_eq] at hexpand
  cases out with
  | ok results c₁ => cases hexpand
  | error e c₁ =>
    cases hexpand
    have hcommon := htrace.common_of_invoked rfl fun e he => ⟨htrace.invoked_of_not_cutsOff hnot e he,
      fun _ _ hinvoke => ((ensures_invoke _ (fun _ he => he) (hrun _ _ _) fun _ => trivial).of_error rfl hinvoke).2⟩
    cases hcommon

/-- Under the smaller bound and under the larger one, the work that is not cut off is the same. -/
theorem exists_trace_withBound {bound bound' : Nat} (hbound : bound ≤ bound')
    (hnot : ¬ (x.withBound bound).CutsOff depth scope v c) :
    ∃ met out, (∀ e ∈ met, e.invoked = true) ∧
      (x.withBound bound).Trace scope ((x.withBound bound).start depth v) [] c met out ∧
      (x.withBound bound').Trace scope ((x.withBound bound').start depth v) [] c met out := by
  obtain ⟨met, out, htrace⟩ := exists_trace (x.withBound bound) scope ((x.withBound bound).start depth v) [] c
  have hmet := htrace.invoked_of_not_cutsOff hnot
  exact ⟨met, out, hmet, htrace, htrace.withBound hmet (synced_start depth v) hbound⟩

/-- The bound on repeated expansion only cuts off. Expansion that does not end in the error of its bound comes to the
same under a larger bound: the same tree or the same error, and the same declarations, warnings, world and count of
invocations. Expansion that a bound cuts off is cut off by every smaller one, too. To be cut off is to end in the error
of the bound, unless the body of a macro raises one. -/
theorem bound_only_cutsOff (x : Expander β) (depth : Int) (scope : String) (v : Value) (c : Compilation β)
    {bound bound' : Nat} (hbound : bound ≤ bound') :
    (¬ (x.withBound bound).CutsOff depth scope v c →
      (x.withBound bound').expandFrom depth scope v c = (x.withBound bound).expandFrom depth scope v c) ∧
    ((x.withBound bound').CutsOff depth scope v c → (x.withBound bound).CutsOff depth scope v c) ∧
    ((x.withBound bound).CutsOff depth scope v c → ∃ name arity info c',
      (x.withBound bound).expandFrom depth scope v c =
        .error ((Cause.depthExceeded name arity bound).on info) c') ∧
    ((∀ s body args, Preserves (fun _ => True) (x.run s body args)) →
      (∃ name arity info c', (x.withBound bound).expandFrom depth scope v c =
        .error ((Cause.depthExceeded name arity bound).on info) c') →
      (x.withBound bound).CutsOff depth scope v c) := by
  refine ⟨fun hnot => ?_, fun hcut => Classical.byContradiction fun hnot => ?_, expandFrom_of_cutsOff,
    fun hrun => (cutsOff_iff (x := x.withBound bound) hrun).2⟩
  · obtain ⟨met, out, -, htrace, htrace'⟩ := exists_trace_withBound hbound hnot
    rw [htrace.expandFrom_eq, htrace'.expandFrom_eq]
  · obtain ⟨met, out, hmet, -, htrace'⟩ := exists_trace_withBound hbound hnot
    obtain ⟨met', out', hcut, e, he, hrefused⟩ := hcut
    obtain ⟨rfl, rfl⟩ := htrace'.unique hcut
    rw [hmet e he] at hrefused
    cases hrefused

/-- The calls that a macro makes of its call without end are cut off at a bound of 5 and so at a bound of 2. A macro
that makes an atom of its call is invoked once under a bound of 1 and under a bound of 3. -/
theorem bound_only_cutsOff_loop :
    (loopExpander.withBound 2).CutsOff 0 "App" (.call "m" [] {}) { session := loopSession } ∧
      ∃ c', c'.expansions = 1 ∧ ∀ bound ∈ [1, 3],
        ((loopExpander.withRun fun _ _ _ => pure (.atom "done")).withBound bound).expandFrom 0 "App" (.call "m" [] {})
          { session := loopSession } = .ok (.atom "done") c' := by
  constructor
  · have hloop : ∃ name arity info c', (loopExpander.withBound 5).expandFrom 0 "App" (.call "m" [] {})
        { session := loopSession } = .error ((Cause.depthExceeded name arity 5).on info) c' := by
      rw [expandFrom_eq_expandWithin]
      exact ⟨_, _, _, _, rfl⟩
    have hfive := (bound_only_cutsOff loopExpander 0 "App" (.call "m" [] {}) { session := loopSession }
      (Nat.le_refl 5)).2.2.2 (fun _ _ _ => .pure _) hloop
    exact (bound_only_cutsOff loopExpander 0 "App" (.call "m" [] {}) { session := loopSession }
      (by decide : 2 ≤ 5)).2.1 hfive
  · obtain ⟨c', hexpand, hexpansions⟩ : ∃ c',
        ((loopExpander.withRun fun _ _ _ => pure (.atom "done")).withBound 1).expandFrom 0 "App" (.call "m" [] {})
          { session := loopSession } = .ok (.atom "done") c' ∧ c'.expansions = 1 := by
      rw [expandFrom_eq_expandWithin]
      exact ⟨_, rfl, rfl⟩
    obtain ⟨hsame, -, hcut, -⟩ := bound_only_cutsOff (loopExpander.withRun fun _ _ _ => pure (.atom "done")) 0 "App"
      (.call "m" [] {}) { session := loopSession } (by decide : 1 ≤ 3)
    refine ⟨c', hexpansions, List.forall_mem_cons.2 ⟨hexpand, List.forall_mem_singleton.2 ?_⟩⟩
    refine (hsame fun h => ?_).trans hexpand
    obtain ⟨_, _, _, _, herror⟩ := hcut h
    cases hexpand.symm.trans herror

end Expander

end MacroLang
