import MacroLang.Proofs.Code
import MacroLang.Proofs.Expansion.Recursion
import MacroLang.Proofs.Tree.Shape

/-!
# Expansion, directly

What expansion of a tree means, in the fewest words: `Expander.expandDirectly` recurs on the tree, left to right, and a
macro call becomes what its macro makes of the arguments as they are written, expanded one level deeper. It keeps no
stack, and no account of which parts have changed. Main statement: `expandFrom_eq_expandDirectly`, on every tree the
expander with a work stack does just that, with the same outcome and the same effects.

The account of changes matters for tuples that are no pairs only (`finishTuple`), and there are none in a tree
(`value_walk`); nor are there any in what a macro makes (`invoke_bind_congr`).
-/

namespace MacroLang.Expander

variable {β : Type}

mutual

/-- Expands a tree; `onMacro` says what becomes of the macro calls in it. -/
def rewrite (x : Expander β) (scope : String)
    (onMacro : Macro β → List Value → Info → Expand β Value) : Value → Expand β Value
  | .list items => do return .list (← rewriteAll x scope onMacro items)
  | .tuple [left, right] => do
    let left ← rewrite x scope onMacro left
    let right ← rewrite x scope onMacro right
    return .pair left right
  | .call name args info => do
    match x.resolve (← get).session scope (.call name args info) with
    | some m => onMacro m args info
    | none =>
      if name = "quote" ∨ name = "defmodule" then return .call name args info
      else if name = "unquote" ∨ name = "unquote_splicing" then
        throw ((Cause.outsideQuote name).on info)
      else if name = "var!" then ofExcept (Value.escapeArgs args info)
      else if name = "__MODULE__" ∧ args = [] then ofExcept (Value.buildAtom scope {})
      else do
        let args ← rewriteAll x scope onMacro args
        if isDeclaration name then x.declare scope name args info else return .call name args info
  | .apply head args info => do
    -- the aliases that count are those from before the arguments
    let s := (← get).session
    match x.resolve s scope (.apply head args info) with
    | some m => onMacro m args info
    | none =>
      let head ← match head.remote? with
        | some (module, function) =>
          ofExcept (x.expandHead s scope (info.context.getD .direct) head module function)
        | none => rewrite x scope onMacro head
      let args ← rewriteAll x scope onMacro args
      ofExcept (Value.checkHead info head)
      return Value.withHead head args info
  | v => do
    let _ ← ofExcept v.kind
    return v

/-- Expands some trees in order. -/
def rewriteAll (x : Expander β) (scope : String)
    (onMacro : Macro β → List Value → Info → Expand β Value) : List Value → Expand β (List Value)
  | [] => return []
  | v :: vs => do
    let v ← rewrite x scope onMacro v
    let vs ← rewriteAll x scope onMacro vs
    return v :: vs

end

/-- Expands a tree as code written in a scope, from a depth of repeated expansion on. -/
def expandDirectly (x : Expander β) (depth : Int) (scope : String) (v : Value) : Expand β Value :=
  x.rewrite scope (fun m args info =>
    if _ : x.maxDepth ≤ depth then throw ((Cause.depthExceeded m.name m.arity x.maxDepth).on info)
    else do
      let result ← x.invoke m args info
      expandDirectly x (depth + 1) scope result) v
termination_by (x.maxDepth - depth).toNat
decreasing_by omega

/-! ## Leaving out which parts have changed -/

section

variable {x : Expander β} {scope : String}
  {onMacro : Macro β → List Value → Info → Expand β Expanded}
  {onMacro' : Macro β → List Value → Info → Expand β Value}

theorem values_walkAll {vs : List Value}
    (h : ∀ v ∈ vs, Expanded.value <$> x.walk scope onMacro v = x.rewrite scope onMacro' v) :
    (List.map Expanded.value) <$> x.walkAll scope onMacro vs = x.rewriteAll scope onMacro' vs := by
  induction vs with
  | nil => rfl
  | cons v vs ih =>
    rw [walkAll, rewriteAll, ← h v List.mem_cons_self,
      ← ih fun v hv => h v (List.mem_cons_of_mem _ hv)]
    simp only [map_eq_pure_bind, bind_assoc, pure_bind, List.map_cons]

theorem finishTuple_pair (left right : Expanded) :
    finishTuple [left, right] =
      .ok ⟨.pair left.value right.value, left.changed || (right.changed || false)⟩ := by
  obtain ⟨v, cv⟩ := left
  obtain ⟨w, cw⟩ := right
  cases cv <;> cases cw <;> rfl

/-- A call by name that is no macro call. -/
theorem value_walk_plainCall {name : String} {args : List Value} {info : Info}
    (h : (List.map Expanded.value) <$> x.walkAll scope onMacro args = x.rewriteAll scope onMacro' args) :
    Expanded.value <$> (do
        let es ← x.walkAll scope onMacro args
        x.finishCall scope name info es) =
      (do
        let vs ← x.rewriteAll scope onMacro' args
        if isDeclaration name then x.declare scope name vs info else return .call name vs info) := by
  rw [← h]
  simp only [map_eq_pure_bind, bind_assoc, pure_bind]
  congr 1; funext es
  unfold finishCall
  by_cases hd : isDeclaration name
  · simp only [hd, if_true, bind_assoc, pure_bind, bind_pure]
  · simp only [hd, if_false, pure_bind, Bool.false_eq_true]

/-- Putting a call with a node for its head together. -/
theorem value_finishApply (info : Info) (head : Expanded) (es : List Expanded) :
    Expanded.value <$> (ofExcept (finishApply info head es) : Expand β Expanded) =
      (do
        ofExcept (Value.checkHead info head.value)
        return Value.withHead head.value (es.map Expanded.value) info) := by
  unfold finishApply
  cases Value.checkHead info head.value with
  | ok u => rfl
  | error e => rfl

/-- On trees, the walk does what the direct expansion does. -/
theorem value_walk (h : ∀ m args info, Expanded.value <$> onMacro m args info = onMacro' m args info)
    (v : Value) :
    v.isTree = true → Expanded.value <$> x.walk scope onMacro v = x.rewrite scope onMacro' v := by
  induction v using Value.treeInduction with
  | list items ih =>
    intro ht
    have hitems := Value.isTree_list.1 ht
    rw [walk, rewrite, ← values_walkAll fun v hv => ih v hv (hitems v hv)]
    simp only [map_eq_pure_bind, bind_assoc, pure_bind, finishList]
  | tuple items ih =>
    intro ht
    obtain ⟨left, right, rfl, hl, hr⟩ := Value.isTree_tuple.1 ht
    rw [walk, rewrite, ← ih left (by simp) hl, ← ih right (by simp) hr]
    simp only [walkAll, map_eq_pure_bind, bind_assoc, pure_bind, finishTuple_pair, ofExcept_ok]
  | call name args info ih =>
    intro ht
    have hargs := Value.isTree_call.1 ht
    rw [walk, rewrite, map_bind]
    congr 1; funext c
    cases x.resolve c.session scope (.call name args info) with
    | some m => exact h m args info
    | none =>
      simp only [isSealed, Bool.or_eq_true, Bool.and_eq_true, beq_iff_eq, List.isEmpty_iff]
      -- the forms in the order in which they are told apart
      split
      · rfl
      split
      · rfl
      split
      · simp only [map_eq_pure_bind, bind_assoc, pure_bind, bind_pure]
      split
      · simp only [map_eq_pure_bind, bind_assoc, pure_bind, bind_pure]
      exact value_walk_plainCall (values_walkAll fun v hv => ih v hv (hargs v hv))
  | apply head args info ihHead ih =>
    intro ht
    obtain ⟨hhead, hargs⟩ := Value.isTree_apply.1 ht
    rw [walk, rewrite, map_bind]
    congr 1; funext c
    dsimp only
    have hall := values_walkAll fun v hv => ih v hv (hargs v hv)
    cases x.resolve c.session scope (.apply head args info) with
    | some m => exact h m args info
    | none =>
      dsimp only
      cases head.remote? with
      | some remote =>
        simp only [map_bind, value_finishApply, ← hall]
        simp only [map_eq_pure_bind, bind_assoc, pure_bind]
      | none =>
        simp only [map_bind, value_finishApply, ← hall, ← ihHead hhead]
        simp only [map_eq_pure_bind, bind_assoc, pure_bind]
  | _ =>
    intro _
    rfl

end

/-! ## Macro results -/

/-- A macro makes a tree, and it leaves the session alone. -/
theorem of_invoke {x : Expander β} {m : Macro β} {args : List Value} {info : Info}
    {c c' : Compilation β} {v : Value} (h : x.invoke m args info c = .ok v c') :
    v.isTree = true ∧ c'.session = c.session := by
  unfold invoke at h
  rw [bind_eq_ok] at h
  obtain ⟨_, c₁, hmodify, h⟩ := h
  cases hmodify
  rw [get_bind, bind_eq_ok] at h
  obtain ⟨result, c₃, hrun, h⟩ := h
  have hkept : c₃.session = c.session := by
    unfold Expand.onWorld at hrun
    split at hrun
    · cases hrun; rfl
    · cases hrun
  cases hvalid : result.validate with
  | ok u =>
    rw [hvalid] at h
    cases h
    exact ⟨Value.isTree_iff.2 hvalid, hkept⟩
  | error e => rw [hvalid] at h; cases e <;> cases h

/-- What goes on after a macro was invoked may count on a tree. -/
theorem invoke_bind_congr {α : Type} {x : Expander β} {m : Macro β} {args : List Value} {info : Info}
    {f g : Value → Expand β α} (h : ∀ v, v.isTree = true → f v = g v) :
    x.invoke m args info >>= f = x.invoke m args info >>= g := by
  funext c
  rw [bind_apply, bind_apply]
  cases hrun : x.invoke m args info c with
  | error e c' => rfl
  | ok v c' => exact congrFun (h v (of_invoke hrun).1) c'

theorem value_expandWithin (x : Expander β) (scope : String) (budget : Nat) :
    ∀ (depth : Int) (v : Value), (x.maxDepth - depth).toNat = budget → v.isTree = true →
      Expanded.value <$> x.expandWithin scope budget v = x.expandDirectly depth scope v := by
  induction budget with
  | zero =>
    intro depth v hbudget ht
    rw [expandWithin, expandDirectly]
    refine value_walk (fun m args info => ?_) v ht
    rw [dif_pos (by omega)]
    rfl
  | succ budget ih =>
    intro depth v hbudget ht
    rw [expandWithin, expandDirectly]
    refine value_walk (fun m args info => ?_) v ht
    rw [dif_neg (by omega), map_bind]
    refine invoke_bind_congr fun result hresult => ?_
    rw [← ih (depth + 1) result (by omega) hresult]
    simp only [map_eq_pure_bind, bind_assoc, pure_bind]

/-- On every tree, from every depth on, the expander with a work stack has the outcome and the effects of the direct
expansion. -/
theorem expandFrom_eq_expandDirectly (x : Expander β) (depth : Int) (scope : String) (v : Value)
    (h : v.isTree = true) : x.expandFrom depth scope v = x.expandDirectly depth scope v := by
  rw [expandFrom_eq_expandWithin, value_expandWithin x scope _ depth v rfl h]

/-- A list whose first member declares a short name that the head of the second one uses, with a pair of macro calls for
its argument. -/
theorem expandFrom_eq_expandDirectly_alias :
    let x : Expander Value := { registry := 0, maxDepth := 2, run := fun _ body _ => pure body }
    let v : Value := .list
      [.call "alias" [.atom "A.B"] {},
        .apply (.call "." [.atom "B", .atom "f"] {})
          [.pair (.call "twice" [.int 1] {}) (.call "__MODULE__" [] {})] {}]
    v.isTree = true ∧ x.expandFrom 1 "App" v = x.expandDirectly 1 "App" v := by
  intro x v
  have tree : v.isTree = true := rfl
  exact ⟨tree, expandFrom_eq_expandDirectly x 1 "App" v tree⟩

end MacroLang.Expander
