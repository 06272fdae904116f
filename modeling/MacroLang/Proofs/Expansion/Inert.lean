import MacroLang.Proofs.Expansion.Contexts
import MacroLang.Proofs.Expansion.MoreMacros

/-!
# Expansion that does nothing but expand

If the values that an expansion visits are neither declarations nor macro calls, it leaves everything as it was. And it
gives the same elsewhere, wherever they are no macro calls either and short names stand for the same modules
(`Expander.concur_expandAll_of_inert`).
-/

namespace MacroLang

namespace Expander

variable {β : Type} {x : Expander β} {scope : String} {c c' : Compilation β}

/-- A value that is no declaration and in neither session a macro call. -/
structure Inert (x : Expander β) (scope : String) (s s' : Session β) (v : Value) : Prop where
  declares : v.declares? = none
  before : x.resolve s scope v = none
  after : x.resolve s' scope v = none

/-- The first run is still where it started, and so is the second. -/
abbrev Unmoved (c c' : Compilation β) (d d' : Compilation β) : Prop :=
  c = d ∧ c' = d'

theorem concur_ofExcept {α : Type} (r : Except Error α) :
    Concur (Unmoved c c') ((ofExcept r : Expand β α) c) ((ofExcept r : Expand β α) c') :=
  Concurs.ofExcept r ⟨rfl, rfl⟩

theorem concur_visit_of_inert
    (halias : ∀ module ctx, c'.session.resolveAlias x.registry scope module ctx =
      c.session.resolveAlias x.registry scope module ctx)
    {v : Value} (h : x.Inert scope c.session c'.session v) (budget : Nat) (results : List Expanded) :
    Concur (Unmoved c c') (x.visit scope v budget results c) (x.visit scope v budget results c') := by
  cases v with
  | list items => exact .ok ⟨rfl, rfl⟩
  | tuple items => exact .ok ⟨rfl, rfl⟩
  | call name args info =>
    rw [visit, get_bind, get_bind, h.before, h.after]
    exact concur_ofExcept _
  | apply head args info =>
    have hsame : x.visitApply c'.session scope head args info budget results =
        x.visitApply c.session scope head args info budget results := by
      unfold visitApply expandHead
      simp only [halias]
    rw [visit, get_bind, get_bind, h.before, h.after]
    simp only [hsame]
    exact concur_ofExcept _
  | _ => exact (concur_ofExcept _).bind fun _ _ _ hc => .ok hc

/-- One step. Calls are put together without further ado if they are no declarations. -/
theorem concur_step_of_inert
    (halias : ∀ module ctx, c'.session.resolveAlias x.registry scope module ctx =
      c.session.resolveAlias x.registry scope module ctx)
    {task : Task} (htask : task.declares? = none) (h : ∀ v ∈ task.visited?, x.Inert scope c.session c'.session v)
    (results : List Expanded) :
    Concur (Unmoved c c') (x.step scope task results c) (x.step scope task results c') := by
  cases task with
  | visit v budget => exact concur_visit_of_inert halias (h v rfl) budget results
  | rebuildCall name args info =>
    have hname : ¬isDeclaration name = true := by
      intro hname
      rw [Task.declares?, if_pos hname] at htask
      cases htask
    unfold step finishCall
    dsimp only
    rw [if_neg hname]
    exact .ok ⟨rfl, rfl⟩
  | rebuildApply head args info => exact (concur_ofExcept _).bind fun _ _ _ hc => .ok hc
  | rebuildComputed args info => exact (concur_ofExcept _).bind fun _ _ _ hc => .ok hc
  | rebuildList items => exact .ok ⟨rfl, rfl⟩
  | rebuildTuple items => exact (concur_ofExcept _).bind fun _ _ _ hc => .ok hc
  | replaced => exact .ok ⟨rfl, rfl⟩

/-- The work on some tasks, none of which records a declaration, if all values that are visited are inert. -/
theorem concur_work_of_inert
    (halias : ∀ module ctx, c'.session.resolveAlias x.registry scope module ctx =
      c.session.resolveAlias x.registry scope module ctx)
    {agenda : List Task} {results : List Expanded} (hagenda : ∀ t ∈ agenda, t.declares? = none)
    (h : ∀ v ∈ x.visitedBy scope agenda results c, x.Inert scope c.session c'.session v) :
    Concur (Unmoved c c') (x.work scope agenda results c) (x.work scope agenda results c') := by
  induction agenda, results using work.induct with
  | case1 results =>
    rw [work]
    exact .ok ⟨rfl, rfl⟩
  | case2 results task rest ih =>
    rw [List.forall_mem_cons] at hagenda
    have hfirst : ∀ v ∈ task.visited?, x.Inert scope c.session c'.session v := by
      intro v hv
      rw [visitedBy] at h
      exact h v (List.mem_append_left _ (Option.mem_toList.2 hv))
    have hstep := concur_step_of_inert halias hagenda.1 hfirst results
    rw [work_cons, bind_apply, bind_apply]
    cases hcode : x.step scope task results c with
    | error e d =>
      obtain ⟨d', hcode', hd⟩ := hstep.of_error hcode
      rw [hcode']
      exact .error hd
    | ok st d =>
      obtain ⟨d', hcode', rfl, rfl⟩ := hstep.of_ok hcode
      rw [hcode']
      -- a value that is no declaration leaves no task that records one
      have honly : st.DeclaresOnly fun _ => False := by
        have hrestrained : Restrained scope (fun _ => False) c.session (x.step scope task results) :=
          restrained_step (by simp [hagenda.1]) (fun v hv => by simp [(hfirst v hv).declares]) results
        have hleft := hrestrained c (.refl ..)
        rw [hcode] at hleft
        exact hleft.2
      refine ih st (fun t ht => ?_) ((forall_visitedBy_cons hcode).1 h).2
      rcases List.mem_append.1 ht with ht | ht
      · exact Option.eq_none_iff_forall_not_mem.2 fun ctx hctx => honly t ht ctx hctx
      · exact hagenda.2 t ht

theorem concur_expandAll_of_inert
    (halias : ∀ module ctx, c'.session.resolveAlias x.registry scope module ctx =
      c.session.resolveAlias x.registry scope module ctx)
    {vs : List Value} (h : ∀ w ∈ x.visitedAll scope vs c, x.Inert scope c.session c'.session w) :
    Concur (Unmoved c c') (x.expandAll scope vs c) (x.expandAll scope vs c') := by
  induction vs with
  | nil => exact .ok ⟨rfl, rfl⟩
  | cons v vs ih =>
    rw [visitedAll, List.forall_mem_append] at h
    have hexpand : Concur (Unmoved c c') (x.expand scope v c) (x.expand scope v c') :=
      (concur_work_of_inert halias (by simp [Task.declares?]) h.1).bind fun _ _ _ hc => .ok hc
    rw [expandAll, bind_apply, bind_apply]
    cases hcode : x.expand scope v c with
    | error e d =>
      obtain ⟨d', hcode', hd⟩ := hexpand.of_error hcode
      rw [hcode']
      exact .error hd
    | ok v' d =>
      obtain ⟨d', hcode', rfl, rfl⟩ := hexpand.of_ok hcode
      rw [hcode']
      rw [hcode] at h
      exact (ih h.2).bind fun _ _ _ hc => .ok hc

end Expander

end MacroLang
