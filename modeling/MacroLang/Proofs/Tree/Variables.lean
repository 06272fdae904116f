import MacroLang.Proofs.Tree.Shape
import MacroLang.Tree.Hygiene

/-!
# The variables of a tree

`Value.vars` lists the bindings that a tree mentions, and `Value.targets` those that a binding form `=` in it
writes to. A call of `var!` mentions the variable that it stands for and nothing else: its operands are never run.
-/

namespace MacroLang.Value

/-- The binding that `var!` with these arguments stands for. -/
def escapedBinding (args : List Value) (info : Info) : List Variable :=
  match escapeArgs args info with
  | .ok v => v.binding?.toList
  | .error _ => []

/-- The binding that `=` with these arguments writes to. -/
def target : List Value → List Variable
  | [var name c _, _] => [⟨name, c⟩]
  | _ => []

mutual

/-- The bindings of the variables that occur in a value. -/
def vars : Value → List Variable
  | call name args info => if name = "var!" then escapedBinding args info else varsAll args
  | apply head args _ => vars head ++ varsAll args
  | var name c _ => [⟨name, c⟩]
  | list items | tuple items => varsAll items
  | unquote v _ | splice v _ => vars v
  | _ => []

def varsAll : List Value → List Variable
  | [] => []
  | v :: vs => vars v ++ varsAll vs

end

mutual

/-- The bindings that are targets of a `=` in a value. -/
def targets : Value → List Variable
  | call name args _ =>
    if name = "var!" then [] else (if name = "=" then target args else []) ++ targetsAll args
  | apply head args _ => targets head ++ targetsAll args
  | list items | tuple items => targetsAll items
  | unquote v _ | splice v _ => targets v
  | _ => []

def targetsAll : List Value → List Variable
  | [] => []
  | v :: vs => targets v ++ targetsAll vs

end

theorem mem_varsAll {vs : List Value} {x : Variable} :
    x ∈ varsAll vs ↔ ∃ v ∈ vs, x ∈ v.vars := by
  induction vs with
  | nil => simp [varsAll]
  | cons v vs ih => simp [varsAll, ih]

theorem mem_targetsAll {vs : List Value} {x : Variable} :
    x ∈ targetsAll vs ↔ ∃ v ∈ vs, x ∈ v.targets := by
  induction vs with
  | nil => simp [targetsAll]
  | cons v vs ih => simp [targetsAll, ih]

theorem mem_vars_call {name : String} {args : List Value} {info : Info} {x : Variable}
    (h : name ≠ "var!") : x ∈ (call name args info).vars ↔ ∃ v ∈ args, x ∈ v.vars := by
  rw [vars, if_neg h, mem_varsAll]

theorem mem_vars_apply {head : Value} {args : List Value} {info : Info} {x : Variable} :
    x ∈ (apply head args info).vars ↔ x ∈ head.vars ∨ ∃ v ∈ args, x ∈ v.vars := by
  rw [vars, List.mem_append, mem_varsAll]

theorem mem_vars_list {items : List Value} {x : Variable} :
    x ∈ (list items).vars ↔ ∃ v ∈ items, x ∈ v.vars := by
  rw [vars, mem_varsAll]

theorem mem_vars_tuple {items : List Value} {x : Variable} :
    x ∈ (tuple items).vars ↔ ∃ v ∈ items, x ∈ v.vars := by
  rw [vars, mem_varsAll]

theorem mem_vars_of_items {v : Value} {items : List Value} (h : v.items? = some items)
    {x : Variable} : x ∈ v.vars ↔ ∃ u ∈ items, x ∈ u.vars := by
  cases v <;> cases h
  · exact mem_vars_list
  · exact mem_vars_tuple

/-- What is written to is also mentioned. -/
theorem targets_subset_vars (v : Value) : ∀ x ∈ v.targets, x ∈ v.vars := by
  induction v using treeInduction with
  | call name args info ih =>
    intro x hx
    by_cases hv : name = "var!"
    · simp [targets, hv] at hx
    rw [mem_vars_call hv]
    rw [targets, if_neg hv, List.mem_append, mem_targetsAll] at hx
    rcases hx with hx | ⟨v, hv, hx⟩
    · split at hx
      · match args, hx with
        | [var y c i, e], hx =>
          refine ⟨var y c i, by simp, ?_⟩
          simpa [target, vars] using hx
      · cases hx
    · exact ⟨v, hv, ih v hv x hx⟩
  | apply head args info ihHead ih =>
    intro x hx
    rw [targets, List.mem_append, mem_targetsAll] at hx
    rw [mem_vars_apply]
    exact hx.imp (ihHead x) fun ⟨v, hv, hx⟩ => ⟨v, hv, ih v hv x hx⟩
  | list items ih | tuple items ih =>
    intro x hx
    rw [targets, mem_targetsAll] at hx
    rw [vars, mem_varsAll]
    exact hx.imp fun v ⟨hv, hx⟩ => ⟨hv, ih v hv x hx⟩
  | unquote v info ih | splice v info ih =>
    intro x hx
    exact ih x hx
  | _ =>
    intro x hx
    cases hx

end MacroLang.Value
