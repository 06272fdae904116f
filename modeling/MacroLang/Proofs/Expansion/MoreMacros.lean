import MacroLang.Proofs.Evaluation.Alike
import MacroLang.Proofs.Expansion.Again
import MacroLang.Proofs.Registry.MoreMacros

/-!
# Expansion with more macros

Two expansions of the same code concur if the second one has more macros to go by and the code that the first one visits
calls none of them (`Expander.concur_expandAll`). Neither the log nor the warnings play a part in that. With no
additional macros this says that expansion reads neither of them (`Expander.alike_expand`).
-/

namespace MacroLang

variable {β : Type}

/-- The name and the number of arguments of a call. -/
def Value.called? : Value → Option (String × Nat)
  | call name args _ => some (name, args.length)
  | apply head args _ => head.remote?.map fun (_, name) => (name, args.length)
  | _ => none

namespace Compilation

/-- The compilation `c'` is `c` with another log and other warnings. -/
def Alike (c c' : Compilation β) : Prop :=
  ∃ log warnings, c' = { c with world := { c.world with log }, warnings }

/-- The compilation `c'` is `c` with more macros in registry `r`, another log and other warnings. -/
def Ahead (r : Nat) (more : List (Macro β)) (c c' : Compilation β) : Prop :=
  ∃ log warnings, c' =
    { c with session := c.session.withMacros r more, world := { c.world with log }, warnings }

variable {c c' c'' : Compilation β} {r : Nat} {more : List (Macro β)}

theorem Alike.refl (c : Compilation β) : c.Alike c :=
  ⟨c.world.log, c.warnings, rfl⟩

theorem Alike.symm (h : c.Alike c') : c'.Alike c := by
  obtain ⟨log, warnings, rfl⟩ := h
  exact ⟨c.world.log, c.warnings, rfl⟩

theorem Alike.trans (h : c.Alike c') (h' : c'.Alike c'') : c.Alike c'' := by
  obtain ⟨log, warnings, rfl⟩ := h
  obtain ⟨log', warnings', rfl⟩ := h'
  exact ⟨log', warnings', rfl⟩

theorem ahead_nil (r : Nat) : c.Ahead r [] c' ↔ c.Alike c' := by
  rw [Ahead, Session.withMacros_nil, Alike]

/-- Compilations that are the same apart from macros stay so if they gain the same ones. -/
theorem Ahead.unique {c₁ c₂ : Compilation β} (h : c.Ahead r more c₁) (h' : c.Ahead r more c₂) : c₁.Alike c₂ := by
  obtain ⟨log, warnings, rfl⟩ := h
  obtain ⟨log', warnings', rfl⟩ := h'
  exact ⟨log', warnings', rfl⟩

end Compilation

open Compilation

namespace Expand

variable {r : Nat} {more : List (Macro β)}

theorem concurs_onWorld {α : Type} {code : EStateM Error World α} (h : Concurs World.Alike code) :
    Concurs (Ahead r more) (onWorld code : Expand β α) := by
  rintro c _ ⟨log, warnings, rfl⟩
  have hcode := h (⟨log, rfl⟩ : c.world.Alike _)
  unfold onWorld
  dsimp only
  generalize code c.world = result at hcode
  generalize code _ = result' at hcode
  cases hcode with
  | ok hw =>
    obtain ⟨log', rfl⟩ := hw
    exact .ok ⟨log', warnings, rfl⟩
  | error hw =>
    obtain ⟨log', rfl⟩ := hw
    exact .error ⟨log', warnings, rfl⟩

theorem concurs_debug (text : String) : Concurs (Ahead r more) (modify (·.debug text) : Expand β PUnit) := by
  refine .modify ?_
  rintro c _ ⟨log, warnings, rfl⟩
  exact ⟨_, warnings, rfl⟩

theorem concurs_warn (notice : Notice) (w : Warning) : Concurs (Ahead r more) (warn notice w : Expand β Unit) := by
  refine .modify ?_
  rintro c _ ⟨log, warnings, rfl⟩
  exact ⟨_, _, rfl⟩

/-- A change of the session that goes past the macros, and that may be refused. -/
theorem concurs_change {γ : Type} {f : Session β → Except Error (Session β)} {next : Expand β γ}
    (hf : ∀ s : Session β, f (s.withMacros r more) = (f s).map (·.withMacros r more))
    (hnext : Concurs (Ahead r more) next) :
    Concurs (Ahead r more) (do
      setSession (← ofExcept (f (← get).session))
      next) := by
  rintro c _ ⟨log, warnings, rfl⟩
  rw [get_bind, get_bind]
  dsimp only
  rw [hf]
  cases f c.session with
  | error e => exact .error ⟨log, warnings, rfl⟩
  | ok s => exact hnext ⟨log, warnings, rfl⟩

end Expand

namespace Expander

variable {x : Expander β} {scope : String} {more : List (Macro β)}

/-- Macro bodies are run without a look at other macros or at the log. -/
structure Oblivious (x : Expander β) : Prop where
  macros : ∀ s more body args, x.run (s.withMacros x.registry more) body args = x.run s body args
  log : ∀ s body args, Concurs World.Alike (x.run s body args)

/-! ## The steps of expansion -/

theorem resolve_withMacros (s : Session β) {v : Value} (h : ∀ m ∈ more, v.called? ≠ some (m.name, m.arity)) :
    x.resolve (s.withMacros x.registry more) scope v = x.resolve s scope v := by
  cases v with
  | call name args info =>
    unfold resolve
    refine s.lookup_withMacros x.registry (fun m hm hkey => h m hm ?_) ..
    rw [Value.called?, hkey.1, hkey.2]
  | apply head args info =>
    simp only [resolve, Value.called?] at h ⊢
    cases hremote : head.remote? with
    | none => rfl
    | some p =>
      rw [hremote] at h
      dsimp only [bind, Option.bind]
      rw [Session.resolveAlias_withMacros]
      refine s.lookup_withMacros x.registry (fun m hm hkey => h m hm ?_) ..
      rw [hkey.1, hkey.2, Option.map_some]
  | _ => rfl

theorem visitApply_withMacros (s : Session β) (head : Value) (args : List Value) (info : Info) (budget : Nat)
    (results : List Expanded) :
    x.visitApply (s.withMacros x.registry more) scope head args info budget results =
      x.visitApply s scope head args info budget results := by
  have hhead : ∀ module function,
      x.expandHead (s.withMacros x.registry more) scope (info.context.getD .direct) head module function =
        x.expandHead s scope (info.context.getD .direct) head module function := by
    intro module function
    rw [expandHead, Session.resolveAlias_withMacros, expandHead]
  unfold visitApply
  simp only [hhead]

theorem concurs_invoke (hx : x.Oblivious) (m : Macro β) (args : List Value) (info : Info) :
    Concurs (Ahead x.registry more) (x.invoke m args info) := by
  refine .andThen (.modify ?_) fun _ => .reading (fun c => ?_) ?_
  · rintro c _ ⟨log, warnings, rfl⟩
    exact ⟨_, warnings, rfl⟩
  · refine .andThen (Expand.concurs_onWorld (hx.log ..)) fun result => ?_
    split
    · exact .pure _
    · exact .throw _
    · exact .throw _
  · rintro c _ ⟨log, warnings, rfl⟩
    dsimp only
    rw [hx.macros]

theorem concurs_declareAlias (module : String) (short? : Option String) (ctx : Context) :
    Concurs (Ahead x.registry more) (x.declareAlias scope module short? ctx) := by
  rintro c _ ⟨log, warnings, rfl⟩
  unfold declareAlias
  rw [get_bind, get_bind]
  dsimp only
  rw [Session.table_withMacros]
  cases (c.session.table x.registry scope).addAlias module short? ctx with
  | error e => exact .error ⟨log, warnings, rfl⟩
  | ok p =>
    obtain ⟨previous, table⟩ := p
    rw [ofExcept_ok, pure_bind, pure_bind]
    dsimp only
    rw [Session.update_withMacros _ fun g => rfl]
    refine Concur.bind (.ok ⟨log, warnings, rfl⟩) fun _ c₁ c₁' hc₁ => ?_
    cases previous with
    | none => exact Expand.concurs_debug _ hc₁
    | some old =>
      dsimp only
      split
      · exact Concurs.andThen (Expand.concurs_warn _ _) (fun _ => Expand.concurs_debug _) hc₁
      · exact Expand.concurs_debug _ hc₁

theorem concurs_declare (form : String) (args : List Value) (info : Info) :
    Concurs (Ahead x.registry more) (x.declare scope form args info) := by
  unfold declare
  refine Expand.concurs_change (f := (·.openScope x.registry scope)) (fun s => s.openScope_withMacros ..) ?_
  refine .andThen (.ofExcept _) fun _ => .andThen (.ofExcept _) fun written => .reading (fun c => ?_) ?_
  · have hlast : ∀ module, Concurs (Ahead x.registry more) (if info.isResolved then
          pure (Value.call form args info)
        else do
          let full ← ofExcept (Value.buildAtom module info)
          pure (Value.call form (full :: args.tail) info.markResolved) : Expand β Value) := by
      intro module
      split
      · exact .pure _
      · exact .andThen (.ofExcept _) fun _ => .pure _
    dsimp only
    split
    · exact .andThen (.ofExcept _) fun short? => .andThen (concurs_declareAlias _ _ _) fun _ => hlast _
    · refine .andThen ?_ fun _ => hlast _
      exact Expand.concurs_change (f := (·.addDependency ..)) (fun s => s.addDependency_withMacros ..)
        (Expand.concurs_debug _)
  · rintro c _ ⟨log, warnings, rfl⟩
    dsimp only
    rw [Session.table_withMacros]

theorem concurs_finishCall (name : String) (info : Info) (args : List Expanded) :
    Concurs (Ahead x.registry more) (x.finishCall scope name info args) := by
  unfold finishCall
  dsimp only
  split
  · exact .andThen (concurs_declare _ _ _) fun _ => .pure _
  · exact .pure _

theorem concurs_replace (hx : x.Oblivious) (m : Macro β) (v : Value) (args : List Value) (info : Info) (budget : Nat)
    (results : List Expanded) : Concurs (Ahead x.registry more) (x.replace m v args info budget results) := by
  cases budget with
  | zero => exact .throw _
  | succ budget => exact .andThen (concurs_invoke hx m args info) fun _ => .pure _

theorem concurs_visit (hx : x.Oblivious) {v : Value} (h : ∀ m ∈ more, v.called? ≠ some (m.name, m.arity))
    (budget : Nat) (results : List Expanded) : Concurs (Ahead x.registry more) (x.visit scope v budget results) := by
  cases v with
  | list items => exact .pure _
  | tuple items => exact .pure _
  | call name args info =>
    refine .reading (fun c => ?_) ?_
    · split
      · exact concurs_replace hx ..
      · exact .ofExcept _
    · rintro c _ ⟨log, warnings, rfl⟩
      dsimp only
      rw [resolve_withMacros _ h]
  | apply head args info =>
    refine .reading (fun c => ?_) ?_
    · dsimp only
      split
      · exact concurs_replace hx ..
      · exact .ofExcept _
    · rintro c _ ⟨log, warnings, rfl⟩
      dsimp only
      rw [resolve_withMacros _ h, visitApply_withMacros]
  | _ => exact .andThen (.ofExcept _) fun _ => .pure _

/-- One step, if the value that it visits calls none of the additional macros. -/
theorem concurs_step (hx : x.Oblivious) {task : Task}
    (h : ∀ v ∈ task.visited?, ∀ m ∈ more, v.called? ≠ some (m.name, m.arity)) (results : List Expanded) :
    Concurs (Ahead x.registry more) (x.step scope task results) := by
  cases task with
  | visit v budget => exact concurs_visit hx (h v rfl) budget results
  | rebuildCall name args info => exact .andThen (concurs_finishCall _ _ _) fun _ => .pure _
  | rebuildApply head args info => exact .andThen (.ofExcept _) fun _ => .pure _
  | rebuildComputed args info => exact .andThen (.ofExcept _) fun _ => .pure _
  | rebuildList items => exact .pure _
  | rebuildTuple items => exact .andThen (.ofExcept _) fun _ => .pure _
  | replaced => exact .pure _

/-! ## Runs -/

variable {c c' : Compilation β}

/-- The work on some tasks, if no value that is visited on the way calls one of the additional macros. -/
theorem concur_work (hx : x.Oblivious) {agenda : List Task} {results : List Expanded}
    (h : ∀ v ∈ x.visitedBy scope agenda results c, ∀ m ∈ more, v.called? ≠ some (m.name, m.arity))
    (hc : c.Ahead x.registry more c') :
    Concur (Ahead x.registry more) (x.work scope agenda results c) (x.work scope agenda results c') := by
  induction agenda, results using work.induct generalizing c c' with
  | case1 results =>
    rw [work]
    exact .ok hc
  | case2 results task rest ih =>
    have hfirst : ∀ v ∈ task.visited?, ∀ m ∈ more, v.called? ≠ some (m.name, m.arity) := by
      intro v hv
      rw [visitedBy] at h
      exact h v (List.mem_append_left _ (Option.mem_toList.2 hv))
    have hstep : Concur (Ahead x.registry more) (x.step scope task results c) (x.step scope task results c') :=
      concurs_step hx hfirst results hc
    rw [work_cons, bind_apply, bind_apply]
    cases hcode : x.step scope task results c with
    | error e c₁ =>
      obtain ⟨c₁', hcode', hc₁⟩ := hstep.of_error hcode
      rw [hcode']
      exact .error hc₁
    | ok st c₁ =>
      obtain ⟨c₁', hcode', hc₁⟩ := hstep.of_ok hcode
      rw [hcode']
      exact ih st ((forall_visitedBy_cons hcode).1 h).2 hc₁

theorem concur_expand (hx : x.Oblivious) {v : Value}
    (h : ∀ w ∈ x.visited 0 scope v c, ∀ m ∈ more, w.called? ≠ some (m.name, m.arity))
    (hc : c.Ahead x.registry more c') :
    Concur (Ahead x.registry more) (x.expand scope v c) (x.expand scope v c') :=
  (concur_work hx h hc).bind fun _ _ _ hc₁ => .ok hc₁

/-- Neither the log nor the warnings are read. -/
theorem alike_expand (hx : x.Oblivious) (scope : String) (v : Value) : Concurs Alike (x.expand scope v) := by
  intro c c' hc
  have hahead : c.Ahead x.registry [] c' := (ahead_nil _).2 hc
  refine (concur_expand hx ?_ hahead).mono fun _ _ => (ahead_nil _).1
  exact fun _ _ _ hm => nomatch hm

/-- The values that are visited while some values are expanded, one after the other. -/
def visitedAll (x : Expander β) (scope : String) : List Value → Compilation β → List Value
  | [], _ => []
  | v :: vs, c => x.visited 0 scope v c ++
    match x.expand scope v c with
    | .ok _ c' => visitedAll x scope vs c'
    | .error _ _ => []

theorem forall_visitedAll_singleton {v : Value} {p : Value → Prop} :
    (∀ w ∈ x.visitedAll scope [v] c, p w) ↔ ∀ w ∈ x.visited 0 scope v c, p w := by
  rw [visitedAll]
  cases x.expand scope v c with
  | ok v' c' => simp only [visitedAll, List.append_nil]
  | error e c' => simp only [List.append_nil]

theorem concur_expandAll (hx : x.Oblivious) {vs : List Value}
    (h : ∀ w ∈ x.visitedAll scope vs c, ∀ m ∈ more, w.called? ≠ some (m.name, m.arity))
    (hc : c.Ahead x.registry more c') :
    Concur (Ahead x.registry more) (x.expandAll scope vs c) (x.expandAll scope vs c') := by
  induction vs generalizing c c' with
  | nil => exact .ok hc
  | cons v vs ih =>
    rw [visitedAll, List.forall_mem_append] at h
    have hexpand := concur_expand hx h.1 hc
    rw [expandAll, bind_apply, bind_apply]
    cases hcode : x.expand scope v c with
    | error e c₁ =>
      obtain ⟨c₁', hcode', hc₁⟩ := hexpand.of_error hcode
      rw [hcode']
      exact .error hc₁
    | ok v' c₁ =>
      obtain ⟨c₁', hcode', hc₁⟩ := hexpand.of_ok hcode
      rw [hcode']
      rw [hcode] at h
      exact (ih h.2 hc₁).bind fun _ _ _ hc₂ => .ok hc₂

end Expander

/-- The expander of a unit runs macro bodies without a look at other macros or at the log. -/
theorem Settings.oblivious_expander (o : Settings) (registry maxDepth : Nat) :
    (o.expander registry maxDepth).Oblivious where
  macros s more body args := by
    have hlink : o.linkage (s.withMacros registry more) = o.linkage s := by
      rw [linkage, Session.imports_withMacros, linkage]
    show World.runMacro (o.linkage (s.withMacros registry more)) body args = _
    rw [hlink]
    rfl
  log s body args := World.concurs_runMacro (Eval.callsAlike_within _ _) body args

end MacroLang
