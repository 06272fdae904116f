import MacroLang.Expansion.Recursion
import MacroLang.Expansion.WorkStack
import MacroLang.Proofs.Code

/-!
# The work stack and the recursion agree

Main statement: `expandFrom_eq_expandWithin`, the expander with a work stack does what the plain recursion does, effects
and errors included. A visit on top of the stack amounts to a walk down the value, after which the other tasks go on
with the result on top (`work_visit`), provided that this holds of what becomes of macro calls (`Follows`). That is then
shown by induction on the number of replacements (`work_visit_eq_expandWithin`).
-/

namespace MacroLang.Expander

variable {β : Type}

theorem work_cons (x : Expander β) (scope : String) (task : Task) (rest : List Task)
    (results : List Expanded) :
    x.work scope (task :: rest) results =
      x.step scope task results >>= fun s => x.work scope (s.tasks ++ rest) s.results := by
  rw [work]

/-- The results of the parts that were visited last lie on top, last one first. -/
theorem takeResults_reverse_append (es rest : List Expanded) :
    takeResults es.length (es.reverse ++ rest) = (es, rest) := by
  simp [takeResults]

/-! ## Walking down a list -/

section

variable {x : Expander β} {scope : String}
  {onMacro : Macro β → List Value → Info → Expand β Expanded}

theorem length_of_walkAll : ∀ {vs : List Value} {c c' : Compilation β} {es : List Expanded},
    x.walkAll scope onMacro vs c = .ok es c' → es.length = vs.length
  | [], _, _, _, h => by cases h; rfl
  | v :: vs, _, _, _, h => by
    simp only [walkAll, bind, EStateM.bind] at h
    split at h
    · split at h
      · rename_i hvs
        cases h
        simp [length_of_walkAll hvs]
      · cases h
    · cases h

/-- What goes on after a walk down a list may count on as many results as there are members. -/
theorem walkAll_bind_congr {α : Type} {vs : List Value} {f g : List Expanded → Expand β α}
    (h : ∀ es, es.length = vs.length → f es = g es) :
    x.walkAll scope onMacro vs >>= f = x.walkAll scope onMacro vs >>= g := by
  funext c
  simp only [bind, EStateM.bind]
  split
  · rename_i hvs
    rw [h _ (length_of_walkAll hvs)]
  · rfl

end

/-! ## Visits -/

/-- On the stack, `onMacro` is what becomes of a macro call that may be replaced `budget` times over. -/
def Follows (x : Expander β) (scope : String) (budget : Nat)
    (onMacro : Macro β → List Value → Info → Expand β Expanded) : Prop :=
  ∀ m v args info rest results,
    (x.replace m v args info budget results >>= fun s => x.work scope (s.tasks ++ rest) s.results) =
      onMacro m args info >>= fun e => x.work scope rest (e :: results)

section

variable {x : Expander β} {scope : String} {budget : Nat}
  {onMacro : Macro β → List Value → Info → Expand β Expanded}

mutual

theorem work_visit (h : Follows x scope budget onMacro) :
    ∀ (v : Value) (rest : List Task) (results : List Expanded),
      x.work scope (.visit v budget :: rest) results =
        x.walk scope onMacro v >>= fun e => x.work scope rest (e :: results)
  | .list items, rest, results => by
    rw [work_cons]
    simp only [step, visit, Step.parts, walk, pure_bind, bind_assoc, List.append_assoc]
    rw [work_visits h items]
    refine walkAll_bind_congr fun es hes => ?_
    rw [List.singleton_append, work_cons]
    simp only [step, ← hes, takeResults_reverse_append]
    rfl
  | .tuple items, rest, results => by
    rw [work_cons]
    simp only [step, visit, Step.parts, walk, pure_bind, bind_assoc, List.append_assoc]
    rw [work_visits h items]
    refine walkAll_bind_congr fun es hes => ?_
    rw [List.singleton_append, work_cons]
    simp only [step, ← hes, takeResults_reverse_append, bind_assoc]
    rfl
  | .call name args info, rest, results => by
    rw [work_cons]
    simp only [step, visit, walk, bind_assoc]
    congr 1; funext c
    cases x.resolve c.session scope (.call name args info) with
    | some m => exact h ..
    | none =>
      simp only [visitCall]
      by_cases h1 : isSealed name
      · simp only [h1, if_true]; rfl
      by_cases h2 : (name == "unquote" || name == "unquote_splicing")
      · simp only [h1, h2, if_true]; rfl
      by_cases h3 : name == "var!"
      · simp only [h1, h2, h3, if_true]
        cases Value.escapeArgs args info <;> rfl
      by_cases h4 : (name == "__MODULE__" && args.isEmpty)
      · simp only [h1, h2, h3, h4, if_true]
        cases Value.buildAtom scope {} <;> rfl
      simp only [h1, h2, h3, h4, if_false, Bool.false_eq_true, ofExcept_ok, pure_bind, Step.parts,
        List.append_assoc]
      rw [work_visits h args]
      simp only [bind_assoc]
      refine walkAll_bind_congr fun es hes => ?_
      rw [List.singleton_append, work_cons]
      simp only [step, ← hes, takeResults_reverse_append, bind_assoc]
      rfl
  | .apply head args info, rest, results => by
    rw [work_cons]
    simp only [step, visit, walk, bind_assoc]
    congr 1; funext c
    cases x.resolve c.session scope (.apply head args info) with
    | some m => exact h ..
    | none =>
      simp only [visitApply]
      cases head.remote? with
      | some remote =>
        obtain ⟨module, function⟩ := remote
        dsimp only
        generalize x.expandHead c.session scope (info.context.getD .direct) head module function = r
        cases r with
        | error e => rfl
        | ok full =>
          simp only [ofExcept_ok, pure_bind, bind_assoc]
          show x.work scope ((Task.visits budget args
            ++ [.rebuildApply ⟨full, !head.isResolved⟩ args info]) ++ rest) results = _
          rw [List.append_assoc, work_visits h args]
          refine walkAll_bind_congr fun es hes => ?_
          rw [List.singleton_append, work_cons]
          simp only [step, ← hes, takeResults_reverse_append, bind_assoc]
          rfl
      | none =>
        simp only [ofExcept_ok, pure_bind, bind_assoc]
        show x.work scope (.visit head budget :: ((Task.visits budget args
          ++ [.rebuildComputed args info]) ++ rest)) results = _
        rw [work_visit h head]
        congr 1; funext e
        rw [List.append_assoc, work_visits h args]
        refine walkAll_bind_congr fun es hes => ?_
        rw [List.singleton_append, work_cons]
        simp only [step, ← hes, takeResults_reverse_append, bind_assoc]
        rfl
  | .var .., _, _ | .atom _, _, _ | .number _, _, _ | .text _, _, _ | .unquote .., _, _
  | .splice .., _, _ | .context _, _, _ | .truth _, _, _ | .nothing, _, _ => by
    rw [work_cons]; rfl

theorem work_visits (h : Follows x scope budget onMacro) :
    ∀ (vs : List Value) (rest : List Task) (results : List Expanded),
      x.work scope (Task.visits budget vs ++ rest) results =
        x.walkAll scope onMacro vs >>= fun es => x.work scope rest (es.reverse ++ results)
  | [], _, _ => rfl
  | v :: vs, rest, results => by
    simp only [walkAll, bind_assoc, pure_bind]
    show x.work scope (.visit v budget :: (Task.visits budget vs ++ rest)) results = _
    rw [work_visit h v]
    congr 1; funext e
    rw [work_visits h vs]
    simp

end

end

/-! ## Replacements -/

theorem work_visit_eq_expandWithin (x : Expander β) (scope : String) :
    ∀ (budget : Nat) (v : Value) (rest : List Task) (results : List Expanded),
      x.work scope (.visit v budget :: rest) results =
        x.expandWithin scope budget v >>= fun e => x.work scope rest (e :: results)
  | 0, v, rest, results => by
    rw [expandWithin]
    exact work_visit (fun _ _ _ _ _ _ => rfl) v rest results
  | budget + 1, v, rest, results => by
    rw [expandWithin]
    refine work_visit (fun m v args info rest results => ?_) v rest results
    simp only [replace, bind_assoc, pure_bind]
    congr 1; funext result
    show x.work scope (.visit result budget :: .replaced :: rest) results = _
    rw [work_visit_eq_expandWithin x scope budget result]
    congr 1; funext e
    rw [work_cons]
    rfl

/-- The work stack does what the recursion does. -/
theorem expandFrom_eq_expandWithin (x : Expander β) (depth : Int) (scope : String) (v : Value) :
    x.expandFrom depth scope v =
      Expanded.value <$> x.expandWithin scope (x.maxDepth - depth).toNat v := by
  rw [expandFrom, work_visit_eq_expandWithin, bind_assoc, map_eq_pure_bind]
  congr 1; funext e
  simp [work]

end MacroLang.Expander
