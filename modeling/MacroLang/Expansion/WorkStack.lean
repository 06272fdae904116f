import MacroLang.Expansion.Agenda
import MacroLang.Expansion.Basic

/-!
# Expansion with a work stack

The expander keeps its tasks on a stack, the next one first, and the values it has finished on another, the last one
first. A task either visits a value, which may put tasks for its parts in its place, or puts a node together from
finished values. A visit carries the number of times that a macro call met there may still be replaced; a replacement
is visited with one less.

Main definition: `Expander.expand`. The work ends because each task is replaced by smaller ones: visits are
ordered by how often they may replace, then by size, and putting together comes below all visits.
-/

namespace MacroLang

inductive Task where
  /-- Expand a value, replacing macro calls at most `budget` times over. -/
  | visit (v : Value) (budget : Nat)
  /-- Put a call by name together from finished arguments. -/
  | rebuildCall (name : String) (args : List Value) (info : Info)
  /-- Put a call together from finished arguments and a finished head. -/
  | rebuildApply (head : Expanded) (args : List Value) (info : Info)
  /-- Put a call together from a finished head and finished arguments. -/
  | rebuildComputed (args : List Value) (info : Info)
  | rebuildList (items : List Value)
  | rebuildTuple (items : List Value)
  /-- Note that a finished value took the place of a macro call. -/
  | replaced

namespace Task

/-- How much is left to do: replacements first, then size. -/
noncomputable def rank : Task → Nat × Nat
  | visit v budget => (budget, 1 + sizeOf v)
  | _ => (0, 0)

/-- The order in which tasks get smaller. -/
def Below (a b : Task) : Prop :=
  Prod.Lex (· < ·) (· < ·) a.rank b.rank

theorem below_wellFounded : WellFounded Below :=
  InvImage.wf rank (Prod.lex Nat.lt_wfRel Nat.lt_wfRel).wf

theorem visit_below_of_budget {v w : Value} {b b' : Nat} (h : b < b') :
    Below (visit v b) (visit w b') :=
  .left _ _ h

theorem visit_below_of_size {v w : Value} (b : Nat) (h : sizeOf v < sizeOf w) :
    Below (visit v b) (visit w b) :=
  .right _ (Nat.add_lt_add_left h 1)

/-- A task that visits nothing comes below every visit. -/
theorem below_visit {t : Task} (h : t.rank = (0, 0)) (v : Value) (b : Nat) :
    Below t (visit v b) := by
  unfold Below
  rw [h]
  by_cases hb : b = 0
  · subst hb; exact .right _ (Nat.lt_of_lt_of_le Nat.one_pos (Nat.le_add_right 1 _))
  · exact .left _ _ (Nat.pos_of_ne_zero hb)

/-- Visits of some values, one after the other. -/
def visits (budget : Nat) (vs : List Value) : List Task :=
  vs.map (visit · budget)

theorem visits_below {vs : List Value} {w : Value} {b : Nat} (h : ∀ v ∈ vs, sizeOf v < sizeOf w) :
    ∀ t ∈ visits b vs, Below t (visit w b) := by
  intro t ht
  obtain ⟨v, hv, rfl⟩ := List.mem_map.1 ht
  exact visit_below_of_size b (h v hv)

end Task

namespace Value

theorem sizeOf_lt_call {name : String} {args : List Value} {info : Info} :
    ∀ v ∈ args, sizeOf v < sizeOf (call name args info) := by
  intro v hv
  have := List.sizeOf_lt_of_mem hv
  simp only [call.sizeOf_spec]
  omega

theorem sizeOf_lt_apply {head : Value} {args : List Value} {info : Info} :
    ∀ v ∈ head :: args, sizeOf v < sizeOf (apply head args info) := by
  intro v hv
  simp only [apply.sizeOf_spec]
  rcases List.mem_cons.1 hv with rfl | h
  · omega
  · have := List.sizeOf_lt_of_mem h
    omega

theorem sizeOf_lt_list {items : List Value} : ∀ v ∈ items, sizeOf v < sizeOf (list items) := by
  intro v hv
  have := List.sizeOf_lt_of_mem hv
  simp only [list.sizeOf_spec]
  omega

theorem sizeOf_lt_tuple {items : List Value} : ∀ v ∈ items, sizeOf v < sizeOf (tuple items) := by
  intro v hv
  have := List.sizeOf_lt_of_mem hv
  simp only [tuple.sizeOf_spec]
  omega

end Value

/-- The finished values on top of the stack, first one first, and the stack below them. -/
def takeResults (count : Nat) (results : List Expanded) : List Expanded × List Expanded :=
  ((results.take count).reverse, results.drop count)

/-- The tasks that take the place of a task, all of them smaller, and the finished values. -/
structure Step (task : Task) where
  tasks : List Task
  results : List Expanded
  smaller : ∀ t ∈ tasks, Task.Below t task

namespace Step

/-- Nothing takes the place of the task, and a value is finished. -/
def done {task : Task} (v : Value) (changed : Bool) (results : List Expanded) : Step task :=
  ⟨[], ⟨v, changed⟩ :: results, fun _ h => nomatch h⟩

/-- Parts of a value are visited, then it is put together. -/
def parts {w : Value} {b : Nat} (parts : List Value) (last : Task) (results : List Expanded)
    (hparts : ∀ v ∈ parts, sizeOf v < sizeOf w) (hlast : last.rank = (0, 0)) : Step (.visit w b) where
  tasks := Task.visits b parts ++ [last]
  results := results
  smaller := by
    intro t ht
    rcases List.mem_append.1 ht with h | h
    · exact Task.visits_below hparts t h
    · rw [List.mem_singleton.1 h]; exact Task.below_visit hlast w b

end Step

namespace Expander

variable {β : Type}

/-- Replaces a macro call and goes on with what the macro made of it, unless that was done too often. -/
def replace (x : Expander β) (m : Macro β) (v : Value) (args : List Value) (info : Info)
    (budget : Nat) (results : List Expanded) : Expand β (Step (.visit v budget)) :=
  match budget with
  | 0 => throw ((Cause.depthExceeded m.name m.arity x.maxDepth).on info)
  | budget + 1 => do
    let result ← x.invoke m args info
    return ⟨[.visit result budget, .replaced], results, by
      intro t ht
      rcases List.mem_cons.1 ht with rfl | ht
      · exact Task.visit_below_of_budget (Nat.lt_succ_self budget)
      · rw [List.mem_singleton.1 ht]; exact Task.below_visit rfl v _⟩

/-- Visits a call by name that is no macro call. -/
def visitCall (scope name : String) (args : List Value) (info : Info) (budget : Nat)
    (results : List Expanded) : Except Error (Step (.visit (.call name args info) budget)) :=
  if isSealed name then .ok (.done (.call name args info) false results)
  else if name == "unquote" || name == "unquote_splicing" then
    .error ((Cause.outsideQuote name).on info)
  else if name == "var!" then do
    return .done (← Value.escapeArgs args info) true results
  else if name == "__MODULE__" && args.isEmpty then do
    return .done (← Value.buildAtom scope {}) true results
  else .ok (.parts args (.rebuildCall name args info) results Value.sizeOf_lt_call rfl)

/-- Visits a call with a node for its head that is no macro call. -/
def visitApply (x : Expander β) (s : Session β) (scope : String) (head : Value) (args : List Value)
    (info : Info) (budget : Nat) (results : List Expanded) :
    Except Error (Step (.visit (.apply head args info) budget)) :=
  match head.remote? with
  | some (module, function) => do
    let full ← x.expandHead s scope (info.context.getD .direct) head module function
    return .parts args (.rebuildApply ⟨full, !head.isResolved⟩ args info) results
      (fun v hv => Value.sizeOf_lt_apply v (List.mem_cons_of_mem _ hv)) rfl
  | none =>
    .ok (.parts (head :: args) (.rebuildComputed args info) results Value.sizeOf_lt_apply rfl)

/-- Visits a value. -/
def visit (x : Expander β) (scope : String) :
    (v : Value) → (budget : Nat) → List Expanded → Expand β (Step (.visit v budget))
  | .list items, _, results =>
    return .parts items (.rebuildList items) results Value.sizeOf_lt_list rfl
  | .tuple items, _, results =>
    return .parts items (.rebuildTuple items) results Value.sizeOf_lt_tuple rfl
  | .call name args info, budget, results => do
    match x.resolve (← get).session scope (.call name args info) with
    | some m => x.replace m _ args info budget results
    | none => ofExcept (visitCall scope name args info budget results)
  | .apply head args info, budget, results => do
    let s := (← get).session
    match x.resolve s scope (.apply head args info) with
    | some m => x.replace m _ args info budget results
    | none => ofExcept (x.visitApply s scope head args info budget results)
  | v, _, results => do
    let _ ← ofExcept v.kind
    return .done v false results

/-- Works on the first task. -/
def step (x : Expander β) (scope : String) (task : Task) (results : List Expanded) :
    Expand β (Step task) :=
  match task with
  | .visit v budget => x.visit scope v budget results
  | .rebuildCall name args info => do
    let (args, results) := takeResults args.length results
    let e ← x.finishCall scope name info args
    return .done e.value e.changed results
  | .rebuildApply head args info => do
    let (args, results) := takeResults args.length results
    let e ← ofExcept (finishApply info head args)
    return .done e.value e.changed results
  | .rebuildComputed args info => do
    let (args, results) := takeResults args.length results
    let (head, results) := takeResults 1 results
    let e ← ofExcept (finishApply info (head.headD ⟨.nothing, false⟩) args)
    return .done e.value e.changed results
  | .rebuildList items => do
    let (items, results) := takeResults items.length results
    let e := finishList items
    return .done e.value e.changed results
  | .rebuildTuple items => do
    let (items, results) := takeResults items.length results
    let e ← ofExcept (finishTuple items)
    return .done e.value e.changed results
  | .replaced => do
    let (e, results) := takeResults 1 results
    return .done (e.headD ⟨.nothing, false⟩).value true results

/-- Works until no task is left. -/
def work (x : Expander β) (scope : String) (agenda : List Task) (results : List Expanded) :
    Expand β (List Expanded) :=
  match agenda with
  | [] => return results
  | task :: rest => do
    let s ← x.step scope task results
    work x scope (s.tasks ++ rest) s.results
termination_by (Agenda.wellFounded Task.below_wellFounded).wrap agenda
decreasing_by exact .step s.smaller

/-- Expands a value as code written in a scope, starting at a depth of repeated expansion. -/
def expandFrom (x : Expander β) (depth : Int) (scope : String) (v : Value) : Expand β Value := do
  let results ← x.work scope [.visit v (x.maxDepth - depth).toNat] []
  return (results.headD ⟨.nothing, false⟩).value

/-- Expands a value as code written in a scope. -/
def expand (x : Expander β) (scope : String) (v : Value) : Expand β Value :=
  x.expandFrom 0 scope v

/-- Expands some values in order. -/
def expandAll (x : Expander β) (scope : String) : List Value → Expand β (List Value)
  | [] => return []
  | v :: vs => do
    let v ← x.expand scope v
    let vs ← x.expandAll scope vs
    return v :: vs

/-- Replaces a macro call once; any other value stays. -/
def expandOnce (x : Expander β) (scope : String) (v : Value) : Expand β Value := do
  match x.resolve (← get).session scope v, v with
  | some m, .call _ args info | some m, .apply _ args info => x.invoke m args info
  | _, v => return v

end Expander

end MacroLang
