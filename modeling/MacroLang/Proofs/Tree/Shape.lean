import MacroLang.Tree.Shape

/-!
# Trees and their parts

A value is taken apart once here, so that later proofs follow the tree and not the lists inside it:

* `Value.treeInduction`: what holds of a node whenever it holds of all of its parts, holds of every value;
* `Value.isTree_call` and its kin: a node is a tree if its parts are.

Calls and variables are the nodes (`Value.isNode`), which can be heads of calls.
-/

namespace MacroLang.Value

/-- Induction along the parts of a value: heads, arguments, members, and what placeholders hold. -/
@[elab_as_elim]
theorem treeInduction {motive : Value → Prop}
    (call : ∀ name args info, (∀ v ∈ args, motive v) → motive (call name args info))
    (apply : ∀ head args info, motive head → (∀ v ∈ args, motive v) → motive (apply head args info))
    (var : ∀ name c info, motive (var name c info))
    (atom : ∀ name, motive (atom name))
    (number : ∀ n, motive (number n))
    (text : ∀ s, motive (text s))
    (list : ∀ items, (∀ v ∈ items, motive v) → motive (list items))
    (tuple : ∀ items, (∀ v ∈ items, motive v) → motive (tuple items))
    (unquote : ∀ v info, motive v → motive (unquote v info))
    (splice : ∀ v info, motive v → motive (splice v info))
    (context : ∀ c, motive (context c))
    (truth : ∀ b, motive (truth b))
    (nothing : motive nothing)
    (v : Value) : motive v :=
  @Value.rec motive (fun vs => ∀ v ∈ vs, motive v)
    call apply var atom number text list tuple unquote splice context truth nothing
    (fun _ h => nomatch h)
    (fun _ _ hv hvs u hu => (List.mem_cons.1 hu).elim (fun e => e ▸ hv) (hvs u))
    v

/-! ## Which values are trees -/

theorem isTree_iff {v : Value} : v.isTree = true ↔ v.validate = .ok () := by
  unfold isTree
  cases v.validate with
  | ok u => simp [Except.isOk, Except.toBool]
  | error e => simp [Except.isOk, Except.toBool]

theorem validateAll_iff {vs : List Value} :
    validateAll vs = .ok () ↔ ∀ v ∈ vs, v.isTree = true := by
  induction vs with
  | nil => simp [validateAll]
  | cons v vs ih =>
    rw [List.forall_mem_cons, isTree_iff, ← ih, validateAll]
    cases v.validate with
    | ok u => simp [bind, Except.bind]
    | error e => simp [bind, Except.bind]

theorem isTree_call {name : String} {args : List Value} {info : Info} :
    (call name args info).isTree = true ↔ ∀ v ∈ args, v.isTree = true := by
  rw [isTree_iff, validate, validateAll_iff]

theorem isTree_apply {head : Value} {args : List Value} {info : Info} :
    (apply head args info).isTree = true ↔ head.isTree = true ∧ ∀ v ∈ args, v.isTree = true := by
  rw [isTree_iff, validate, isTree_iff, ← validateAll_iff]
  cases head.validate with
  | ok u => simp [bind, Except.bind]
  | error e => simp [bind, Except.bind]

theorem isTree_list {items : List Value} :
    (list items).isTree = true ↔ ∀ v ∈ items, v.isTree = true := by
  rw [isTree_iff, validate, validateAll_iff]

/-- A tuple is a tree if it is a pair of trees. -/
theorem isTree_tuple {items : List Value} :
    (tuple items).isTree = true ↔
      ∃ left right, items = [left, right] ∧ left.isTree = true ∧ right.isTree = true := by
  rw [isTree_iff, validate]
  match items with
  | [] | [_] | _ :: _ :: _ :: _ => simp [kind, bind, Except.bind]
  | [left, right] =>
    show validateAll [left, right] = .ok () ↔ _
    rw [validateAll_iff]
    constructor
    · intro h
      exact ⟨left, right, rfl, h left (by simp), h right (by simp)⟩
    · rintro ⟨_, _, ⟨⟩, hl, hr⟩
      simp [hl, hr]

/-! ## Which values can be written -/

theorem areWritable_iff {vs : List Value} : areWritable vs = true ↔ ∀ v ∈ vs, v.isWritable = true := by
  induction vs with
  | nil => simp [areWritable]
  | cons v vs ih => rw [areWritable, Bool.and_eq_true, ih, List.forall_mem_cons]

/-! ## Nodes -/

/-- A call or a variable. -/
def isNode : Value → Bool
  | call .. | apply .. | var .. => true
  | _ => false

theorem withHead_of_isNode {head : Value} (h : head.isNode = true) (args : List Value) (info : Info) :
    withHead head args info = apply head args info := by
  cases head with
  | text s => cases h
  | _ => rfl

theorem eq_of_remote? {head : Value} {module function : String} (h : head.remote? = some (module, function)) :
    ∃ info, head = call "." [atom module, atom function] info := by
  unfold remote? at h
  split at h
  · cases h
    exact ⟨_, rfl⟩
  · cases h

end MacroLang.Value
