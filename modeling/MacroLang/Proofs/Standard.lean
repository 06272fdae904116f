import MacroLang.Proofs.Errors
import MacroLang.Proofs.Tree.Shape

/-!
# Standards

What is made of trees is made of their parts: nodes are taken apart and put together again, with the annotations that
they had, or with none. So several things that are true of all values at the start stay true of whatever the program
makes of them, for one and the same reason: that they are trees, and that their nodes are from certain places.

A `Standard` says what is asked of annotations and of errors, and whether values have to be trees. The values up to the
standard are those whose annotations all are (`Standard.value_iff`). That a function gives values up to every standard
for values up to it, or objects with an error that is, is proved once; the standards are put in at the end:

* `Standard.common` asks nothing of values, and of errors that they are common ones;
* `Standard.trees` asks that values are trees, and that no error says that one is not;
* `Standard.places` asks that nodes are from certain places, and that errors are reported there. It is defined where
  units are compiled, as an error may name a file.
-/

namespace MacroLang

/-! ## Annotations in a value -/

namespace Value

mutual

/-- The annotations of all nodes and placeholders in a value. -/
def infos : Value → List Info
  | call _ args info => info :: infosAll args
  | apply head args info => info :: (infos head ++ infosAll args)
  | var _ _ info => [info]
  | list items | tuple items => infosAll items
  | unquote v info | splice v info => info :: infos v
  | _ => []

def infosAll : List Value → List Info
  | [] => []
  | v :: vs => infos v ++ infosAll vs

end

theorem mem_infosAll {vs : List Value} {i : Info} : i ∈ infosAll vs ↔ ∃ v ∈ vs, i ∈ v.infos := by
  induction vs with
  | nil => simp [infosAll]
  | cons v vs ih => simp [infosAll, ih]

end Value

/-! ## What is asked -/

/-- What is asked of values, of the annotations of their nodes, and of errors. -/
structure Standard where
  value : Value → Prop
  info : Info → Prop
  error : Error → Prop
  /-- Do values have to be trees? -/
  strict : Prop
  value_iff : ∀ v, value v ↔ (strict → v.isTree = true) ∧ ∀ i ∈ v.infos, info i
  info_none : info {}
  /-- Of annotations only the place matters, and not contexts and marks. -/
  info_of_place : ∀ {i j}, info i → j.line = i.line → j.column = i.column → info j
  /-- Routine objections may be raised at every node. -/
  routine : ∀ {cause i}, info i → (Error.located cause i none).isRoutine = true → error (.located cause i none)
  unlocated : ∀ {e}, e.isLocated = false → error e
  /-- Where a tree is wanted a value is one, or the objection that it is none may be raised. -/
  fits : ∀ {v i}, value v → info i →
    v.isTree = true ∨ ∀ cause, (Error.located cause i none).isCommon = true → error (.located cause i none)

namespace Standard

/-- The outcome is a value with `Q`, or an error up to the standard. -/
abbrev Gives {α : Type} (S : Standard) (Q : α → Prop) (r : Except Error α) : Prop :=
  Yields S.error Q r

/-- From a state with `I` the code comes to a value with `Q`, or to an error up to the standard, and the state still has
`I`. -/
abbrev Makes {σ α : Type} (S : Standard) (I : σ → Prop) (Q : α → Prop) (code : EStateM Error σ α) : Prop :=
  Delivers S.error I Q code

/-- All common errors, on any values. -/
def common : Standard where
  value _ := True
  info _ := True
  error e := e.isCommon = true
  strict := False
  value_iff _ := ⟨fun _ => ⟨False.elim, fun _ _ => trivial⟩, fun _ => trivial⟩
  info_none := trivial
  info_of_place _ _ _ := trivial
  routine _ h := Error.isCommon_of_isRoutine h
  unlocated := by
    intro e h
    cases e with
    | located => cases h
    | _ => rfl
  fits _ _ := .inr fun _ h => h

/-- Values are trees, and no error says that one is not. -/
def trees : Standard where
  value v := v.isTree = true
  info _ := True
  error e := e.isMisfit = false
  strict := True
  value_iff _ := ⟨fun h => ⟨fun _ => h, fun _ _ => trivial⟩, fun h => h.1 trivial⟩
  info_none := trivial
  info_of_place _ _ _ := trivial
  routine _ h := Error.isMisfit_of_isRoutine h
  unlocated := by
    intro e h
    cases e with
    | located => cases h
    | _ => rfl
  fits h _ := .inl h

end Standard

/-- The outcome is a value with `P`, or an error other than that a value is no tree. -/
abbrev Gives {α : Type} (P : α → Prop) (r : Except Error α) : Prop :=
  Standard.trees.Gives P r

/-- From a state with `I` the code comes to a value with `Q`, or to an error other than that a value is no tree, and the
state still has `I`. -/
abbrev Makes {σ α : Type} (I : σ → Prop) (Q : α → Prop) (code : EStateM Error σ α) : Prop :=
  Standard.trees.Makes I Q code

namespace Standard

variable {S : Standard} {i : Info}

/-! ## Annotations and errors -/

-- marks and contexts are of no consequence

theorem info_markEscaped (h : S.info i) : S.info i.markEscaped :=
  S.info_of_place h rfl rfl

theorem info_markResolved (h : S.info i) : S.info i.markResolved :=
  S.info_of_place h rfl rfl

theorem info_withContext (h : S.info i) (c : Context) : S.info (i.withContext c) :=
  S.info_of_place h rfl rfl

/-- The error of a cause, which is another one if its message cannot be written. -/
theorem error_on {cause : Cause} (h : S.error (.located cause i none)) : S.error (cause.on i) := by
  unfold Cause.on
  split
  · exact h
  · exact S.unlocated rfl

/-- A routine objection. -/
theorem routine_on {cause : Cause} (h : S.info i) (hcause : (Error.located cause i none).isRoutine = true) :
    S.error (cause.on i) :=
  error_on (S.routine h hcause)

/-! ## Values -/

theorem values_iff {vs : List Value} : (∀ v ∈ vs, S.value v) ↔
    (S.strict → ∀ v ∈ vs, v.isTree = true) ∧ ∀ i ∈ Value.infosAll vs, S.info i := by
  simp only [S.value_iff, Value.mem_infosAll]
  constructor
  · exact fun h => ⟨fun hs v hv => (h v hv).1 hs, fun i ⟨v, hv, hi⟩ => (h v hv).2 i hi⟩
  · exact fun h v hv => ⟨fun hs => h.1 hs v hv, fun i hi => h.2 i ⟨v, hv, hi⟩⟩

/-- A value that is a tree if its parts are, and that has their annotations and those of its own. -/
theorem value_iff_of_parts {v : Value} {vs : List Value} (own : List Info)
    (htree : v.isTree = true ↔ ∀ u ∈ vs, u.isTree = true) (hinfos : v.infos = own ++ Value.infosAll vs) :
    S.value v ↔ (∀ i ∈ own, S.info i) ∧ ∀ u ∈ vs, S.value u := by
  rw [S.value_iff, values_iff, htree, hinfos, List.forall_mem_append]
  exact and_left_comm

theorem value_call {name : String} {args : List Value} :
    S.value (.call name args i) ↔ S.info i ∧ ∀ v ∈ args, S.value v := by
  rw [value_iff_of_parts [i] Value.isTree_call rfl, List.forall_mem_singleton]

theorem value_apply {head : Value} {args : List Value} :
    S.value (.apply head args i) ↔ S.info i ∧ S.value head ∧ ∀ v ∈ args, S.value v := by
  have htree : (Value.apply head args i).isTree = true ↔ ∀ u ∈ head :: args, u.isTree = true := by
    rw [Value.isTree_apply, List.forall_mem_cons]
  rw [value_iff_of_parts [i] htree rfl, List.forall_mem_singleton, List.forall_mem_cons]

theorem value_var {name : String} {c : Context} : S.value (.var name c i) ↔ S.info i := by
  have htree : (Value.var name c i).isTree = true ↔ ∀ u ∈ [], Value.isTree u = true :=
    ⟨fun _ => List.forall_mem_nil _, fun _ => rfl⟩
  rw [value_iff_of_parts [i] htree rfl, List.forall_mem_singleton]
  exact and_iff_left (List.forall_mem_nil _)

theorem value_list {items : List Value} : S.value (.list items) ↔ ∀ v ∈ items, S.value v := by
  rw [value_iff_of_parts [] Value.isTree_list rfl]
  exact and_iff_right (List.forall_mem_nil _)

theorem value_tuple {items : List Value} :
    S.value (.tuple items) ↔ (S.strict → items.length = 2) ∧ ∀ v ∈ items, S.value v := by
  have htree : (Value.tuple items).isTree = true ↔ items.length = 2 ∧ ∀ v ∈ items, v.isTree = true := by
    rw [Value.isTree_tuple]
    constructor
    · rintro ⟨left, right, rfl, hl, hr⟩
      exact ⟨rfl, List.forall_mem_cons.2 ⟨hl, List.forall_mem_singleton.2 hr⟩⟩
    · rintro ⟨hlength, hall⟩
      rcases items with _ | ⟨left, _ | ⟨right, _ | ⟨_, _⟩⟩⟩
      case cons.cons.nil => exact ⟨left, right, rfl, hall left (by simp), hall right (by simp)⟩
      all_goals simp at hlength
  rw [S.value_iff, values_iff, htree, imp_and, and_assoc]
  rfl

theorem value_pair {left right : Value} : S.value (.pair left right) ↔ S.value left ∧ S.value right := by
  rw [Value.pair, value_tuple, List.forall_mem_cons, List.forall_mem_singleton]
  exact and_iff_right fun _ => rfl

/-- The members of a tuple, also of one that is no pair. -/
theorem value_of_tuple {items : List Value} (h : S.value (.tuple items)) : ∀ v ∈ items, S.value v :=
  (value_tuple.1 h).2

/-- A placeholder is no tree, but it may be in a value of which none is asked. -/
theorem value_of_placeholder {v w : Value} (h : S.value w) (htree : w.isTree = false)
    (hinfos : w.infos = i :: v.infos) : S.info i ∧ S.value v := by
  obtain ⟨htrees, hall⟩ := (S.value_iff w).1 h
  rw [hinfos, List.forall_mem_cons] at hall
  refine ⟨hall.1, (S.value_iff v).2 ⟨fun hs => ?_, hall.2⟩⟩
  exact absurd (htree.symm.trans (htrees hs)) Bool.false_ne_true

theorem value_of_unquote {v : Value} (h : S.value (.unquote v i)) : S.info i ∧ S.value v :=
  value_of_placeholder h rfl rfl

theorem value_of_splice {v : Value} (h : S.value (.splice v i)) : S.info i ∧ S.value v :=
  value_of_placeholder h rfl rfl

/-- A tree without nodes. -/
theorem value_of_infos {v : Value} (htree : v.isTree = true) (h : v.infos = []) : S.value v :=
  (S.value_iff v).2 ⟨fun _ => htree, h ▸ List.forall_mem_nil _⟩

theorem value_atom (name : String) : S.value (.atom name) :=
  value_of_infos rfl rfl

theorem value_number (n : Number) : S.value (.number n) :=
  value_of_infos rfl rfl

theorem value_text (s : String) : S.value (.text s) :=
  value_of_infos rfl rfl

theorem value_nil : S.value .nil :=
  value_atom _

theorem value_ofBool (b : Bool) : S.value (.ofBool b) := by
  cases b <;> exact value_atom _

theorem value_withHead {head : Value} {args : List Value} (hhead : S.value head) (hargs : ∀ v ∈ args, S.value v)
    (hi : S.info i) : S.value (.withHead head args i) := by
  cases head with
  | text name => exact value_call.2 ⟨hi, hargs⟩
  | _ => exact value_apply.2 ⟨hi, hhead, hargs⟩

theorem info_infoD {v : Value} (h : S.value v) : S.info v.infoD := by
  cases v with
  | call => exact (value_call.1 h).1
  | apply => exact (value_apply.1 h).1
  | var => exact value_var.1 h
  | unquote => exact (value_of_unquote h).1
  | splice => exact (value_of_splice h).1
  | _ => exact S.info_none

theorem value_of_items? {v : Value} (h : S.value v) {items : List Value} (hitems : v.items? = some items) :
    ∀ w ∈ items, S.value w := by
  cases v with
  | list =>
    cases hitems
    exact value_list.1 h
  | tuple =>
    cases hitems
    exact value_of_tuple h
  | _ => cases hitems

end Standard

end MacroLang
