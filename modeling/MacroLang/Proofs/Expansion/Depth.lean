import MacroLang.Proofs.Expansion.Trace

/-!
# The bound on repeated expansion

A macro may make further macro calls of its call without end. The expander counts how deep they are nested in each
other's results, and refuses the first one that it comes to at `maxDepth`. A visit has as many replacements left as
its depth is short of the bound (`Expander.Synced`), all along a trace. So the macro calls that are invoked are those
above the bound (`Trace.invoked_iff`), and no others take part in the outcome (`Trace.withRun`).

Main statement: `expandFrom_within_bound`.
-/

namespace MacroLang.Expander

variable {β : Type} {x : Expander β} {scope : String} {agenda rest : List (Int × Task)} {results : List Expanded}
  {c : Compilation β} {met : List (Encounter β)} {out : EStateM.Result Error (Compilation β) (List Expanded)}

/-! ## Depth and budget -/

/-- Each visit may replace as often as its depth is short of the bound. -/
def Synced (x : Expander β) (agenda : List (Int × Task)) : Prop :=
  ∀ d v budget, (d, Task.visit v budget) ∈ agenda → budget = (x.maxDepth - d).toNat

theorem synced_start (depth : Int) (v : Value) : x.Synced (x.start depth v) := by
  intro d w budget h
  cases List.mem_singleton.1 h
  rfl

theorem Synced.tail {entry : Int × Task} (h : x.Synced (entry :: rest)) : x.Synced rest :=
  fun d v budget hmem => h d v budget (List.mem_cons_of_mem _ hmem)

theorem Synced.invoke {d : Int} {v : Value} {budget : Nat} (h : x.Synced ((d, .visit v (budget + 1)) :: rest))
    (result : Value) : x.Synced ((d + 1, .visit result budget) :: (d, .replaced) :: rest) := by
  have hbudget := h d v (budget + 1) List.mem_cons_self
  intro d' w budget' hmem
  rcases List.mem_cons.1 hmem with heq | hmem
  · cases heq
    omega
  · rcases List.mem_cons.1 hmem with heq | hmem
    · cases heq
    · exact h.tail d' w budget' hmem

theorem Synced.quiet {d : Int} {task : Task} {st : Step task} (h : x.Synced ((d, task) :: rest))
    (hst : st.KeepsBudget) : x.Synced (Task.atDepth d st.tasks ++ rest) := by
  intro d' v budget hmem
  rcases List.mem_append.1 hmem with hnew | hold
  · obtain ⟨_, hvisit, heq⟩ := List.mem_map.1 hnew
    cases heq
    obtain ⟨w, rfl⟩ := hst v budget hvisit
    exact h d w budget List.mem_cons_self
  · exact h.tail d' v budget hold

/-- The macro calls that are invoked are those above the bound. -/
theorem Trace.invoked_iff (h : x.Trace scope agenda results c met out) (hsynced : x.Synced agenda) :
    ∀ e ∈ met, e.invoked = true ↔ e.depth < x.maxDepth := by
  induction h with
  | done => exact List.forall_mem_nil _
  | @invoke d v _ budget _ _ _ _ _ _ _ _ _ _ _ _ ih =>
    have hbudget := hsynced d v (budget + 1) List.mem_cons_self
    refine List.forall_mem_cons.2 ⟨?_, ih (hsynced.invoke _)⟩
    simp only [true_iff]
    omega
  | @fail d v budget =>
    have hbudget := hsynced d v (budget + 1) List.mem_cons_self
    refine List.forall_mem_singleton.2 ?_
    simp only [true_iff]
    omega
  | @refuse d v =>
    have hbudget := hsynced d v 0 List.mem_cons_self
    refine List.forall_mem_singleton.2 ?_
    simp only [Bool.false_eq_true, false_iff]
    omega
  | quiet hmeets hstep _ ih => exact ih (hsynced.quiet ((quiet_step hmeets _).of_ok rfl hstep).2)
  | object => exact List.forall_mem_nil _

/-! ## The count of invocations -/

theorem expansions_invoke (x : Expander β) (m : Macro β) (args : List Value) (info : Info) (c : Compilation β) :
    (finalState (x.invoke m args info c)).expansions = c.expansions + 1 := by
  have hrun : Maintains (fun _ => True) (fun _ => True) (x.run c.session m.body args) := .trivial _
  have h := ensures_invoke info (fun _ _ => trivial) hrun (fun _ => trivial)
  cases hinvoke : x.invoke m args info c with
  | ok result c' => exact (h.of_ok rfl hinvoke).1.2
  | error e c' => exact (h.of_error rfl hinvoke).1.1.2

theorem Trace.expansions_eq (h : x.Trace scope agenda results c met out) :
    (finalState out).expansions = c.expansions + met.countP (·.invoked) := by
  induction h with
  | done => rfl
  | @invoke _ _ _ _ _ _ c c' m args info _ _ _ hinvoke _ ih =>
    have hcount : c'.expansions = c.expansions + 1 := by
      rw [← expansions_invoke x m args info c, hinvoke]
      rfl
    rw [ih, hcount, List.countP_cons_of_pos rfl]
    omega
  | @fail _ _ _ _ _ c c' m args info _ _ hinvoke =>
    have hcount := expansions_invoke x m args info c
    rwa [hinvoke] at hcount
  | refuse => rfl
  | quiet hmeets hstep _ ih => rw [ih, ((quiet_step hmeets _).of_ok rfl hstep).1.expansions]
  | object hmeets hstep => exact ((quiet_step hmeets _).of_error rfl hstep).1.expansions

/-! ## Refusal -/

/-- A macro call that is refused ends the work. -/
theorem Trace.eq_of_refused (h : x.Trace scope agenda results c met out) {e : Encounter β} (he : e ∈ met)
    (hrefused : e.invoked = false) :
    out = .error ((Cause.depthExceeded e.callee.name e.callee.arity x.maxDepth).on e.info) e.compilation := by
  induction h with
  | done => cases he
  | invoke _ _ _ ih =>
    rcases List.mem_cons.1 he with rfl | he
    · cases hrefused
    · exact ih he
  | fail =>
    cases List.mem_singleton.1 he
    cases hrefused
  | refuse =>
    cases List.mem_singleton.1 he
    rfl
  | quiet _ _ _ ih => exact ih he
  | object => cases he

/-- Until then, all invocations went well. -/
theorem Trace.invoke_of_refused (h : x.Trace scope agenda results c met out)
    (hrefused : ∃ e ∈ met, e.invoked = false) : ∀ e ∈ met, e.invoked = true →
      ∃ result c', x.invoke e.callee e.args e.info e.compilation = .ok result c' := by
  induction h with
  | done => exact List.forall_mem_nil _
  | invoke _ hinvoke _ ih =>
    obtain ⟨e, he, hrefused⟩ := hrefused
    refine List.forall_mem_cons.2 ⟨fun _ => ⟨_, _, hinvoke⟩, ih ⟨e, ?_, hrefused⟩⟩
    rcases List.mem_cons.1 he with rfl | he
    · cases hrefused
    · exact he
  | fail =>
    obtain ⟨e, he, hrefused⟩ := hrefused
    cases List.mem_singleton.1 he
    cases hrefused
  | refuse => exact List.forall_mem_singleton.2 nofun
  | quiet _ _ _ ih => exact ih hrefused
  | object => exact List.forall_mem_nil _

/-- If no macro call is refused and invocations come to common errors only, the error is a common one. -/
theorem Trace.common_of_invoked (h : x.Trace scope agenda results c met out) {error : Error}
    {c' : Compilation β} (hout : out = .error error c') (hmet : ∀ e ∈ met, e.invoked = true ∧ ∀ error c',
      x.invoke e.callee e.args e.info e.compilation = .error error c' → error.isCommon = true) :
    error.isCommon = true := by
  induction h with
  | done => cases hout
  | invoke _ _ _ ih => exact ih hout (List.forall_mem_cons.1 hmet).2
  | fail _ hinvoke =>
    cases hout
    exact (List.forall_mem_singleton.1 hmet).2 _ _ hinvoke
  | refuse =>
    have hinvoked := (List.forall_mem_singleton.1 hmet).1
    cases hinvoked
  | quiet _ _ _ ih => exact ih hout hmet
  | object hmeets hstep =>
    cases hout
    exact ((quiet_step hmeets _).of_error rfl hstep).2

/-! ## Other macros -/

/-- The expander with other bodies of macros. -/
def withRun (x : Expander β) (run : Session β → β → List Value → EStateM Error World Value) : Expander β :=
  { x with run }

variable {run : Session β → β → List Value → EStateM Error World Value}

/-- Without a macro call, what macros do is of no concern. -/
theorem step_withRun {task : Task} (h : x.meets? c.session scope task = none) :
    (x.withRun run).step scope task results c = x.step scope task results c := by
  cases task with
  | visit v budget => cases v with
    | call name args info =>
      have hnone : x.resolve c.session scope (.call name args info) = none := Option.map_eq_none_iff.1 h
      have hnone' : (x.withRun run).resolve c.session scope (.call name args info) = none := hnone
      rw [step, step, visit, visit, get_bind, get_bind, hnone, hnone']
    | apply head args info =>
      have hnone : x.resolve c.session scope (.apply head args info) = none := Option.map_eq_none_iff.1 h
      have hnone' : (x.withRun run).resolve c.session scope (.apply head args info) = none := hnone
      rw [step, step, visit, visit, get_bind, get_bind, hnone, hnone']
      rfl
    | _ => rfl
  | _ => rfl

theorem invoke_withRun {m : Macro β} {args : List Value}
    (h : run c.session m.body args = x.run c.session m.body args) (info : Info) :
    (x.withRun run).invoke m args info c = x.invoke m args info c := by
  change (Expand.onWorld (run c.session m.body args) >>= _) _ =
    (Expand.onWorld (x.run c.session m.body args) >>= _) _
  rw [h]

/-- Only what the bodies of invoked macros do takes part in the work. -/
theorem Trace.withRun (h : x.Trace scope agenda results c met out)
    (hrun : ∀ e ∈ met, e.invoked = true →
      run e.compilation.session e.callee.body e.args = x.run e.compilation.session e.callee.body e.args) :
    (x.withRun run).Trace scope agenda results c met out := by
  induction h with
  | done => exact .done
  | invoke hcall hinvoke _ ih =>
    obtain ⟨hfirst, hrest⟩ := List.forall_mem_cons.1 hrun
    exact .invoke hcall ((invoke_withRun (hfirst rfl) _).trans hinvoke) (ih hrest)
  | fail hcall hinvoke =>
    have hfirst := List.forall_mem_singleton.1 hrun
    exact .fail hcall ((invoke_withRun (hfirst rfl) _).trans hinvoke)
  | refuse hcall => exact .refuse hcall
  | quiet hmeets hstep _ ih => exact .quiet hmeets ((step_withRun hmeets).trans hstep) (ih hrun)
  | object hmeets hstep => exact .object hmeets ((step_withRun hmeets).trans hstep)

/-! ## The bound -/

/-- Whatever macros make of their calls, expansion ends. A macro is invoked for the macro calls above the bound that
the work comes to and for no others, each invocation is counted, also if the work ends in an error, and the outcome
depends on these invocations only. The first macro call at the bound or below it ends the work with an error that
names it; and if expansion ends in such an error that no macro has raised, it has come to such a call. -/
theorem expandFrom_within_bound (x : Expander β) (depth : Int) (scope : String) (v : Value) (c : Compilation β) :
    (∃ met out, x.Trace scope (x.start depth v) [] c met out) ∧
    ∀ met out, x.Trace scope (x.start depth v) [] c met out →
      x.expandFrom depth scope v c = mapValue topValue out ∧
      (∀ e ∈ met, e.invoked = true ↔ e.depth < x.maxDepth) ∧
      (∀ run, (∀ e ∈ met, e.invoked = true →
          run e.compilation.session e.callee.body e.args = x.run e.compilation.session e.callee.body e.args) →
        (x.withRun run).expandFrom depth scope v c = x.expandFrom depth scope v c) ∧
      (finalState out).expansions = c.expansions + met.countP (·.invoked) ∧
      (∀ e ∈ met, x.maxDepth ≤ e.depth →
        out = .error ((Cause.depthExceeded e.callee.name e.callee.arity x.maxDepth).on e.info) e.compilation) ∧
      ((∃ e ∈ met, x.maxDepth ≤ e.depth) ↔
        (∃ name arity info c', out = .error ((Cause.depthExceeded name arity x.maxDepth).on info) c') ∧
        ∀ e ∈ met, e.invoked = true →
          ∃ result c', x.invoke e.callee e.args e.info e.compilation = .ok result c') := by
  refine ⟨exists_trace .., fun met out h => ?_⟩
  have hinvoked := h.invoked_iff (synced_start depth v)
  have hrefused : ∀ e ∈ met, x.maxDepth ≤ e.depth ↔ e.invoked = false := by
    intro e he
    rw [← Bool.not_eq_true, hinvoked e he, Int.not_lt]
  refine ⟨h.expandFrom_eq, hinvoked, fun run hrun => ?_, h.expansions_eq, fun e he hdepth => ?_, ?_, ?_⟩
  · have h' : (x.withRun run).Trace scope ((x.withRun run).start depth v) [] c met out := h.withRun hrun
    rw [h'.expandFrom_eq, h.expandFrom_eq]
  · exact h.eq_of_refused he ((hrefused e he).1 hdepth)
  · rintro ⟨e, he, hdepth⟩
    have hfalse := (hrefused e he).1 hdepth
    exact ⟨⟨_, _, _, _, h.eq_of_refused he hfalse⟩, h.invoke_of_refused ⟨e, he, hfalse⟩⟩
  · rintro ⟨⟨name, arity, info, c', hout⟩, hok⟩
    refine Classical.byContradiction fun hnone => ?_
    have hall : ∀ e ∈ met, e.invoked = true := fun e he =>
      (hinvoked e he).2 (Int.not_le.1 fun hdepth => hnone ⟨e, he, hdepth⟩)
    have hmet : ∀ e ∈ met, e.invoked = true ∧ ∀ error c',
        x.invoke e.callee e.args e.info e.compilation = .error error c' → error.isCommon = true := by
      refine fun e he => ⟨hall e he, fun error c' hinvoke => ?_⟩
      obtain ⟨_, _, hresult⟩ := hok e he (hall e he)
      cases hinvoke.symm.trans hresult
    have hcommon := h.common_of_invoked hout hmet
    cases hcommon

section

def loopSession : Session Unit :=
  { registries := [{ unit := "app", macros := [⟨"App", "m", [], (), true, {}⟩] }] }

/-- Every macro makes a call of `m` of its call. -/
def loopExpander : Expander Unit :=
  { registry := 0, maxDepth := 2, run := fun _ _ _ => pure (.call "m" [] {}) }

/-- The macro is invoked twice, and its third call, two levels down, is refused. -/
theorem expandFrom_within_bound_loop :
    ∃ met c', loopExpander.Trace "App" (loopExpander.start 0 (.call "m" [] {})) [] { session := loopSession } met
        (.error ((Cause.depthExceeded "m" 0 2).on {}) c') ∧
      met.countP (·.invoked) = 2 ∧ ∃ e ∈ met, 2 ≤ e.depth := by
  obtain ⟨⟨met, out, htrace⟩, hbound⟩ :=
    expandFrom_within_bound loopExpander 0 "App" (.call "m" [] {}) { session := loopSession }
  obtain ⟨hexpand, -, -, hcount, -, hreached⟩ := hbound met out htrace
  obtain ⟨c', hc', hexpansions⟩ : ∃ c', loopExpander.expandFrom 0 "App" (.call "m" [] {}) { session := loopSession } =
      .error ((Cause.depthExceeded "m" 0 2).on {}) c' ∧ c'.expansions = 2 := by
    rw [expandFrom_eq_expandWithin]
    exact ⟨_, rfl, rfl⟩
  rw [hc'] at hexpand
  cases out with
  | ok results c₁ => cases hexpand
  | error e c₁ =>
    cases hexpand
    have htwo : 0 + met.countP (·.invoked) = 2 := hcount.symm.trans hexpansions
    rw [Nat.zero_add] at htwo
    exact ⟨met, c', htrace, htwo, hreached.2 ⟨⟨_, _, _, _, rfl⟩, fun e _ _ => ⟨_, _, rfl⟩⟩⟩

end

end MacroLang.Expander
