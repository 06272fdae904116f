import MacroLang.Proofs.Expansion.Again
import MacroLang.Proofs.Expansion.Effects
import MacroLang.Proofs.Registry.Contexts

/-!
# Declarations that expansion makes

Expansion records the aliases, imports and requirements that it comes to, each in the scope of the code and with the
context of the form that makes it (`Expander.agreesBut_declare`). Nothing else that it does changes the registries. So a
run changes what nodes of some contexts read of the scope: the contexts of the declarations that it visits
(`Expander.agreesBut_work`). A form that a macro has quoted has the context of the quote. If a run visits no other
declarations, it does not change what any call that was typed means.

Main statement: `declarations_of_context`.
-/

namespace MacroLang

variable {β : Type}

/-- The context with which a form makes a declaration. -/
def Value.declares? : Value → Option Context
  | call name _ info => if isDeclaration name then some (info.context.getD .direct) else none
  | _ => none

/-- The context of the declaration that is recorded when a task is done. -/
def Task.declares? : Task → Option Context
  | rebuildCall name _ info => if isDeclaration name then some (info.context.getD .direct) else none
  | _ => none

/-- The code makes declarations in a scope, with contexts that satisfy `made`, and changes no registry otherwise. -/
abbrev Confined {α : Type} (scope : String) (made : Context → Prop) (s : Session β) (code : Expand β α) : Prop :=
  Maintains (fun c => s.AgreesBut scope made c.session) (fun _ => True) code

namespace Expander

variable {x : Expander β} {scope : String} {made : Context → Prop} {s : Session β}

theorem confined_warn (notice : Notice) (w : Warning) : Confined scope made s (Expand.warn notice w) :=
  Ensures.modify fun _ h => h

theorem confined_debug (text : String) : Confined scope made s (modify (·.debug text) : Expand β PUnit) :=
  Ensures.modify fun _ h => h

/-- A change of the session that may be refused. -/
theorem confined_change {γ : Type} {f : Session β → Except Error (Session β)} {next : Expand β γ}
    (hf : ∀ s s', f s = .ok s' → s.AgreesBut scope made s') (hnext : Confined scope made s next) :
    Confined scope made s (do
      Expand.setSession (← ofExcept (f (← get).session))
      next) := by
  refine Ensures.reading fun c hc => ?_
  refine Ensures.bind (R := fun s' c' => c' = c ∧ f c.session = .ok s') ?_ fun s' => ?_
  · exact .ofExcept (fun s' hok c' hc' => ⟨hc', hok⟩) fun e _ c' hc' => hc' ▸ ⟨hc, trivial⟩
  · refine Ensures.bind (R := fun _ (c' : Compilation β) => s.AgreesBut scope made c'.session) ?_ fun _ => hnext
    rintro _ ⟨rfl, hok⟩
    exact hc.trans (hf _ _ hok)

theorem confined_declareAlias (module : String) (short? : Option String) {ctx : Context} (hctx : made ctx) :
    Confined scope made s (x.declareAlias scope module short? ctx) := by
  refine Ensures.reading fun c hc => ?_
  refine Ensures.bind
    (R := fun p c' => c' = c ∧ (c.session.table x.registry scope).addAlias module short? ctx = .ok p) ?_
    fun ⟨previous, table⟩ => ?_
  · exact .ofExcept (fun p hok c' hc' => ⟨hc', hok⟩) fun e _ c' hc' => hc' ▸ ⟨hc, trivial⟩
  · refine Ensures.bind (R := fun _ c' => s.AgreesBut scope made c'.session) ?_ fun _ => ?_
    · rintro _ ⟨rfl, hok⟩
      exact hc.trans (Session.agreesBut_addAlias hctx hok)
    · cases previous with
      | none => exact confined_debug _
      | some old =>
        dsimp only
        split
        · exact Maintains.andThen (confined_warn _ _) fun _ => confined_debug _
        · exact confined_debug _

/-- A declaration is recorded with the context of its form. -/
theorem confined_declare (form : String) (args : List Value) {info : Info} (hinfo : made (info.context.getD .direct)) :
    Confined scope made s (x.declare scope form args info) := by
  unfold declare
  refine confined_change (fun _ _ => Session.agreesBut_openScope made) ?_
  refine Maintains.andThen (.ofExcept fun _ _ => trivial) fun _ => ?_
  refine Maintains.andThen (.ofExcept fun _ _ => trivial) fun written => ?_
  refine Maintains.reading fun c _ => ?_
  have hlast : ∀ module, Confined scope made s (if info.isResolved then
        pure (Value.call form args info)
      else do
        let full ← ofExcept (Value.buildAtom module info)
        pure (Value.call form (full :: args.tail) info.markResolved)) := by
    intro module
    split
    · exact .pure _
    · exact .andThen (.ofExcept fun _ _ => trivial) fun _ => .pure _
  dsimp only
  split
  · refine Maintains.andThen (.ofExcept fun _ _ => trivial) fun short? => ?_
    exact .andThen (confined_declareAlias _ _ hinfo) fun _ => hlast _
  · refine Maintains.andThen ?_ fun _ => hlast _
    exact confined_change (fun _ _ => Session.agreesBut_addDependency hinfo) (confined_debug _)

theorem confined_finishCall (name : String) {info : Info} (args : List Expanded)
    (h : isDeclaration name = true → made (info.context.getD .direct)) :
    Confined scope made s (x.finishCall scope name info args) := by
  unfold finishCall
  dsimp only
  split
  · rename_i hname
    exact .andThen (confined_declare _ _ (h hname)) fun _ => .pure _
  · exact .pure _

/-- An invocation leaves the registries alone. -/
theorem confined_invoke (m : Macro β) (args : List Value) (info : Info) :
    Confined scope made s (x.invoke m args info) := by
  refine .of_finalState fun c hc => ?_
  show s.AgreesBut scope made (finalState (x.invoke m args info c)).session
  rw [session_invoke]
  exact hc

end Expander

/-! ## Runs -/

/-- The tasks that take the place of a task record declarations of these contexts only. -/
def Step.DeclaresOnly {task : Task} (made : Context → Prop) (st : Step task) : Prop :=
  ∀ t ∈ st.tasks, ∀ ctx ∈ t.declares?, made ctx

namespace Step

variable {made : Context → Prop}

theorem declaresOnly_done {task : Task} {v : Value} {changed : Bool} {results : List Expanded} :
    (done v changed results : Step task).DeclaresOnly made :=
  fun _ h => nomatch h

theorem declaresOnly_parts {w : Value} {b : Nat} {vs : List Value} {last : Task} {results : List Expanded}
    {hvs : ∀ v ∈ vs, sizeOf v < sizeOf w} {hrank : last.rank = (0, 0)} (hlast : ∀ ctx ∈ last.declares?, made ctx) :
    (parts vs last results hvs hrank : Step (.visit w b)).DeclaresOnly made := by
  intro t ht
  rcases List.mem_append.1 ht with ht | ht
  · obtain ⟨v, -, rfl⟩ := List.mem_map.1 ht
    simp [Task.declares?]
  · rw [List.mem_singleton.1 ht]
    exact hlast

end Step

namespace Expander

variable {x : Expander β} {scope : String} {made : Context → Prop} {s : Session β}

theorem declaresOnly_visitCall {name : String} {args : List Value} {info : Info} {budget : Nat}
    {results : List Expanded} {st : Step (.visit (.call name args info) budget)}
    (hv : ∀ ctx ∈ (Value.call name args info).declares?, made ctx)
    (h : visitCall scope name args info budget results = .ok st) : st.DeclaresOnly made := by
  unfold visitCall at h
  split at h
  · cases h
    exact Step.declaresOnly_done
  split at h
  · cases h
  split at h
  · obtain ⟨v, -, hv⟩ := except_bind_eq_ok.1 h
    cases hv
    exact Step.declaresOnly_done
  split at h
  · obtain ⟨v, -, hv⟩ := except_bind_eq_ok.1 h
    cases hv
    exact Step.declaresOnly_done
  · cases h
    exact Step.declaresOnly_parts hv

theorem declaresOnly_visitApply {session : Session β} {head : Value} {args : List Value} {info : Info} {budget : Nat}
    {results : List Expanded} {st : Step (.visit (.apply head args info) budget)}
    (h : x.visitApply session scope head args info budget results = .ok st) : st.DeclaresOnly made := by
  unfold visitApply at h
  split at h
  · obtain ⟨v, -, hv⟩ := except_bind_eq_ok.1 h
    cases hv
    exact Step.declaresOnly_parts (by simp [Task.declares?])
  · cases h
    exact Step.declaresOnly_parts (by simp [Task.declares?])

/-- The work on a task makes declarations of some contexts, now or in the tasks that it leaves. -/
def Restrained {task : Task} (scope : String) (made : Context → Prop) (s : Session β) (code : Expand β (Step task)) :
    Prop :=
  Ensures (fun c => s.AgreesBut scope made c.session) code
    (fun st c => s.AgreesBut scope made c.session ∧ st.DeclaresOnly made)
    (fun _ c => s.AgreesBut scope made c.session)

namespace Restrained

variable {task : Task}

theorem pure {st : Step task} (h : st.DeclaresOnly made) : Restrained scope made s (Pure.pure st) :=
  fun _ hc => ⟨hc, h⟩

theorem ofExcept {r : Except Error (Step task)} (h : ∀ st, r = .ok st → st.DeclaresOnly made) :
    Restrained scope made s (MonadExcept.ofExcept r) :=
  Ensures.ofExcept (fun st hst _ hc => ⟨hc, h st hst⟩) fun _ _ _ hc => hc

theorem andThen {α : Type} {code : Expand β α} {st : α → Step task} (h : Confined scope made s code)
    (hst : ∀ a, (st a).DeclaresOnly made) : Restrained scope made s (do return st (← code)) := by
  refine Ensures.bind (R := fun _ (c : Compilation β) => s.AgreesBut scope made c.session) ?_ fun a _ hc => ⟨hc, hst a⟩
  exact Ensures.weaken h (fun _ hc => hc) (fun _ _ hok => hok) fun _ _ herror => herror.1

theorem replace (m : Macro β) (v : Value) (args : List Value) (info : Info) (budget : Nat) (results : List Expanded) :
    Restrained scope made s (x.replace m v args info budget results) := by
  cases budget with
  | zero => exact fun _ hc => hc
  | succ budget =>
    refine andThen (confined_invoke m args info) fun result t ht => ?_
    rcases List.mem_cons.1 ht with rfl | ht
    · simp [Task.declares?]
    · simp [List.mem_singleton.1 ht, Task.declares?]

end Restrained

theorem restrained_visit {v : Value} (hv : ∀ ctx ∈ v.declares?, made ctx) (budget : Nat) (results : List Expanded) :
    Restrained scope made s (x.visit scope v budget results) := by
  cases v with
  | list items => exact .pure (Step.declaresOnly_parts (by simp [Task.declares?]))
  | tuple items => exact .pure (Step.declaresOnly_parts (by simp [Task.declares?]))
  | call name args info =>
    refine Ensures.peeking fun c => ?_
    split
    · exact Restrained.replace _ _ _ _ _ _
    · exact Restrained.ofExcept fun _ => declaresOnly_visitCall hv
  | apply head args info =>
    refine Ensures.peeking fun c => ?_
    dsimp only
    split
    · exact Restrained.replace _ _ _ _ _ _
    · exact Restrained.ofExcept fun _ => declaresOnly_visitApply
  | _ => exact .andThen (.ofExcept fun _ _ => trivial) fun _ => Step.declaresOnly_done

theorem restrained_step {task : Task} (htask : ∀ ctx ∈ task.declares?, made ctx)
    (hvisit : ∀ v ∈ task.visited?, ∀ ctx ∈ v.declares?, made ctx) (results : List Expanded) :
    Restrained scope made s (x.step scope task results) := by
  cases task with
  | visit v budget => exact restrained_visit (hvisit v rfl) budget results
  | rebuildCall name args info =>
    refine .andThen (confined_finishCall _ _ fun hname => htask _ ?_) fun _ => Step.declaresOnly_done
    exact if_pos hname
  | rebuildApply head args info => exact .andThen (.ofExcept fun _ _ => trivial) fun _ => Step.declaresOnly_done
  | rebuildComputed args info => exact .andThen (.ofExcept fun _ _ => trivial) fun _ => Step.declaresOnly_done
  | rebuildList items => exact .pure Step.declaresOnly_done
  | rebuildTuple items => exact .andThen (.ofExcept fun _ _ => trivial) fun _ => Step.declaresOnly_done
  | replaced => exact .pure Step.declaresOnly_done

/-- What the work on some tasks does to the registries, whether or not it fails: declarations of the contexts that are
under way or visited. -/
theorem agreesBut_work {agenda : List Task} {results : List Expanded} {c : Compilation β}
    (hagenda : ∀ t ∈ agenda, ∀ ctx ∈ t.declares?, made ctx)
    (hvisited : ∀ v ∈ x.visitedBy scope agenda results c, ∀ ctx ∈ v.declares?, made ctx) :
    c.session.AgreesBut scope made (finalState (x.work scope agenda results c)).session := by
  induction agenda, results using work.induct generalizing c with
  | case1 results =>
    rw [work]
    exact .refl ..
  | case2 results task rest ih =>
    rw [List.forall_mem_cons] at hagenda
    have hfirst : ∀ v ∈ task.visited?, ∀ ctx ∈ v.declares?, made ctx := by
      intro v hv
      rw [visitedBy] at hvisited
      exact hvisited v (List.mem_append_left _ (Option.mem_toList.2 hv))
    have hrestrained : Restrained scope made c.session (x.step scope task results) :=
      restrained_step hagenda.1 hfirst results
    have hstep := hrestrained c (.refl ..)
    rw [work_cons, bind_apply]
    cases hcode : x.step scope task results c with
    | error e c' =>
      rw [hcode] at hstep
      exact hstep
    | ok st c' =>
      rw [hcode] at hstep
      rw [forall_visitedBy_cons hcode] at hvisited
      refine hstep.1.trans (ih st (fun t ht => ?_) hvisited.2)
      rcases List.mem_append.1 ht with ht | ht
      · exact hstep.2 t ht
      · exact hagenda.2 t ht

theorem agreesBut_expandFrom {depth : Int} {v : Value} {c : Compilation β}
    (hvisited : ∀ w ∈ x.visited depth scope v c, ∀ ctx ∈ w.declares?, made ctx) :
    c.session.AgreesBut scope made (finalState (x.expandFrom depth scope v c)).session := by
  have hwork := agreesBut_work (by simp [Task.declares?]) hvisited
  rw [expandFrom, bind_apply]
  cases hcode : x.work scope [.visit v (x.maxDepth - depth).toNat] [] c with
  | ok results c' => rw [hcode] at hwork; exact hwork
  | error e c' => rw [hcode] at hwork; exact hwork

/-- What a call means depends on what nodes of its context read. -/
theorem resolve_of_agreesBut {s' : Session β} (h : s.AgreesBut scope made s') (caller : String) {v : Value}
    (hv : ¬(caller = scope ∧ made v.contextOf)) (horigin : ¬(made .direct ∧ v.contextOf = .quotedIn scope)) :
    x.resolve s' caller v = x.resolve s caller v := by
  cases v with
  | call name args info =>
    unfold resolve
    exact h.lookup_eq hv horigin ..
  | apply head args info =>
    have hcontext : ¬(caller = scope ∧ made (info.context.getD .direct)) := hv
    unfold resolve
    refine congrArg (Option.bind _) (funext fun ⟨module, name⟩ => ?_)
    dsimp only
    rw [h.resolveAlias_eq hcontext]
    exact h.lookup_eq hcontext horigin ..
  | _ => rfl

/-- Declarations are seen by nodes of their own context.

* A declaration that a registry is asked for in a scope changes what a call means, or what a module name stands for,
  only if the call stands in that scope and has the context of the declaration; or if the declaration was typed and the
  call comes from a quote of that scope, in which case aliases stay the same.
* After any declarations a table answers for a context as if only those of that context had been made, and it lists each
  module that was imported once, in the order in which they were first imported.
* If all declarations that the expansion of some code comes to were quoted, then, whether or not the expansion fails,
  every call that was typed means what it meant before, in every scope and to every unit. -/
theorem declarations_of_context :
    (∀ (s : Session β) (r : Nat) (op : Operation β) (scope : String) (made : Context),
      op.declares? = some (scope, made) →
      let s' := (s.perform r op).1
      ∀ q caller c, ¬(caller = scope ∧ c = made) →
        (∀ module, s'.resolveAlias q caller module c = s.resolveAlias q caller module c) ∧
        (¬(made = .direct ∧ c = .quotedIn scope) →
          ∀ name arity module?, s'.lookup q caller name arity c module? = s.lookup q caller name arity c module?)) ∧
    (∀ (scope : String) (declarations : List Declaration) (c : Context),
      let d := Declarations.declareAll { scope } declarations
      let own := Declarations.declareAll { scope } (declarations.filter (·.context == c))
      (∀ name, d.resolve name c = own.resolve name c) ∧ d.imports c = own.imports c ∧
      (∀ module, d.dependsOn module c = own.dependsOn module c) ∧
      d.imports c = (declarations.filterMap (·.imported? c)).eraseDups) ∧
    ∀ (x : Expander β) (depth : Int) (scope : String) (v : Value) (c : Compilation β),
      (∀ w ∈ x.visited depth scope v c, w.declares? ≠ some .direct) →
      ∀ (y : Expander β) (caller : String) (call : Value), call.contextOf = .direct →
        y.resolve (finalState (x.expandFrom depth scope v c)).session caller call =
          y.resolve c.session caller call := by
  refine ⟨?_, fun scope declarations c => ?_, ?_⟩
  · intro s r op scope made hop s' q caller c hc
    have hagrees : s.AgreesBut scope (· = made) s' := s.agreesBut_perform r hop
    refine ⟨hagrees.resolveAlias_eq hc q, fun horigin => hagrees.lookup_eq hc ?_ q⟩
    exact fun h => horigin ⟨h.1.symm, h.2⟩
  · have hown : (Declarations.declareAll { scope } declarations).ofContext c =
        Declarations.declareAll { scope } (declarations.filter (·.context == c)) :=
      Declarations.ofContext_declareAll ..
    dsimp only
    rw [← hown]
    refine ⟨fun name => ?_, ?_, fun module => ?_, Declarations.imports_declareAll ..⟩
    · rw [Declarations.resolve_ofContext]
    · rw [Declarations.imports_ofContext]
    · rw [Declarations.dependsOn_ofContext]
  · intro x depth scope v c hvisited y caller call hcall
    have hagrees : c.session.AgreesBut scope (· ≠ .direct) (finalState (x.expandFrom depth scope v c)).session := by
      refine agreesBut_expandFrom fun w hw ctx hctx hdirect => hvisited w hw ?_
      rw [Option.mem_def.1 hctx, hdirect]
    exact resolve_of_agreesBut hagrees caller (fun h => h.2 hcall) fun h => h.1 rfl

section

/-- A public macro of `Base`, and one of `Lib` that stands for a quoted import of `Base`. -/
def useSession : Session Value :=
  { registries := [{
      unit := "app"
      macros := [⟨"Base", "shift", [], .nothing, true, {}⟩,
        ⟨"Lib", "use", [], .call "import" [.atom "Base"] { context := some (.quotedIn "Lib") }, true, {}⟩]
      tables := [{ scope := "Base" }, { scope := "Lib" },
        { scope := "App", imported := [⟨"Lib", .direct⟩] }] }] }

def useExpander : Expander Value :=
  { registry := 0, maxDepth := 4, run := fun _ body _ => pure body }

/-- `App` calls `use`. From then on code from quotes of `Lib` sees the macro of `Base` there; typed code does not. -/
theorem declarations_of_context_use :
    let c : Compilation Value := { session := useSession }
    let used := (finalState (useExpander.expandFrom 0 "App" (.call "use" [] {}) c)).session
    (∀ w ∈ useExpander.visited 0 "App" (.call "use" [] {}) c, w.declares? ≠ some .direct) ∧
      (useExpander.resolve used "App" (.call "shift" [] { context := some (.quotedIn "Lib") })).isSome ∧
      useExpander.resolve used "App" (.call "shift" [] {}) = none ∧
      let imported := (useSession.perform 0 (.addDependency "App" "Base" .direct true)).1
      (imported.lookup 0 "App" "shift" 0 .direct none).isSome ∧
      imported.lookup 0 "App" "shift" 0 (.quotedIn "Lib") none = none := by
  intro c used
  obtain ⟨hperform, -, hexpand⟩ := declarations_of_context (β := Value)
  have hvisited : ∀ w ∈ useExpander.visited 0 "App" (.call "use" [] {}) c, w.declares? ≠ some .direct := by
    refine (forall_visitedBy_cons rfl).2 ⟨by rintro _ ⟨⟩; decide, ?_⟩
    refine (forall_visitedBy_cons rfl).2 ⟨by rintro _ ⟨⟩; decide, ?_⟩
    refine (forall_visitedBy_cons rfl).2 ⟨by rintro _ ⟨⟩; decide, ?_⟩
    refine (forall_visitedBy_cons rfl).2 ⟨nofun, ?_⟩
    refine (forall_visitedBy_cons rfl).2 ⟨nofun, ?_⟩
    exact forall_visitedBy_nil
  refine ⟨hvisited, ?_, ?_, by rfl, ?_⟩
  · have hused : used = (finalState (useExpander.expandFrom 0 "App" (.call "use" [] {}) c)).session := rfl
    rw [hused, expandFrom_eq_expandWithin]
    rfl
  · exact (hexpand useExpander 0 "App" _ c hvisited useExpander "App" _ rfl).trans (by rfl)
  · have hlookup := (hperform useSession 0 (.addDependency "App" "Base" .direct true) "App" .direct rfl 0 "App"
      (.quotedIn "Lib") (by decide)).2 (by decide)
    exact (hlookup "shift" 0 none).trans (by rfl)

end

end Expander

end MacroLang
