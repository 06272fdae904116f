import MacroLang.Proofs.Tree.Closure
import MacroLang.Proofs.Tree.Tagging

/-!
# Filling placeholders

A fragment is made of nodes, literals and placeholders (`Value.isFragment`). Each placeholder stands at a place
(`Value.holes`), and the place decides what it may hold (`Place.admits`). If all of them hold what they may, then a
quote tags the nodes of the fragment and puts in what the placeholders hold (`Value.plug`), and otherwise it fails.

Main statement: `Value.quote_fills`. The objections of a quote are that a splice is out of place or that something is no
tree, unless the message would have to show an integer that is too long to be written (`Value.quote_long_integer`).
-/

namespace MacroLang

/-- Where a part of a fragment stands: at the head of a call, among the arguments of a call or the members of a list, or
elsewhere, which is in a pair or all by itself. -/
inductive Place where
  | head
  | member
  | elsewhere
deriving DecidableEq, Repr

namespace Value

def isPlaceholder : Value → Bool
  | unquote .. | splice .. => true
  | _ => false

mutual

/-- Is the value made of nodes, literals and placeholders? The head of a call is a name, a node or a placeholder, and a
tuple is a pair. A placeholder may hold anything. -/
def isFragment : Value → Bool
  | call _ args _ => areFragments args
  | apply head args _ => (head.isNode || head.isPlaceholder) && isFragment head && areFragments args
  | list items => areFragments items
  | tuple items => items.length == 2 && areFragments items
  | context _ | truth _ | nothing => false
  | _ => true

def areFragments : List Value → Bool
  | [] => true
  | v :: vs => isFragment v && areFragments vs

end

mutual

/-- The placeholders of a fragment that stands at a place, each with its own place. What a placeholder holds is not
looked into. -/
def holes (place : Place) : Value → List (Place × Value)
  | call _ args _ => holesAll .member args
  | apply head args _ => holes .head head ++ holesAll .member args
  | list items => holesAll .member items
  | tuple items => holesAll .elsewhere items
  | unquote v info => [(place, unquote v info)]
  | splice v info => [(place, splice v info)]
  | _ => []

def holesAll (place : Place) : List Value → List (Place × Value)
  | [] => []
  | v :: vs => holes place v ++ holesAll place vs

end

/-- What an unquoted value may be at the head of a call: a name, which is an atom or a text that is not empty, or a
node. -/
def canHead : Value → Bool
  | atom name | text name => !name.isEmpty
  | v => v.isNode

end Value

/-- May the placeholder stand at the place, with what it holds? -/
def Place.admits : Place → Value → Bool
  | .head, .unquote v _ => v.isTree && v.canHead
  | .member, .splice v _ => v.items?.any fun items => items.all Value.isTree
  | _, .unquote v _ => v.isTree
  | _, _ => false

namespace Value

/-- A call with any head, where an atom or a text is a name. -/
def callOf (head : Value) (args : List Value) (info : Info) : Value :=
  match head with
  | atom name | text name => call name args info
  | head => apply head args info

mutual

/-- The fragment with what its placeholders hold in their place. -/
def plug : Value → Value
  | call name args info => call name (plugAll args) info
  | apply head args info => callOf (plug head) (plugAll args) info
  | list items => list (plugAll items)
  | tuple items => match items with
    | [left, right] => pair (plug left) (plug right)
    | items => tuple items
  | unquote v _ => v
  | v => v

/-- The members of a spliced sequence stand side by side with the others. -/
def plugAll : List Value → List Value
  | [] => []
  | splice v _ :: vs => v.items?.getD [] ++ plugAll vs
  | v :: vs => plug v :: plugAll vs

end

/-- How many members a member of a fragment stands for. -/
def width : Value → Nat
  | splice v _ => (v.items?.getD []).length
  | _ => 1

/-- How many members some members of a fragment stand for together. -/
def totalWidth : List Value → Nat
  | [] => 0
  | v :: vs => v.width + totalWidth vs

/-- The arguments of a call or the members of a list. -/
def row : Value → List Value
  | call _ args _ | apply _ args _ => args
  | list items => items
  | _ => []

/-! ## Parts of fragments -/

theorem areFragments_iff {vs : List Value} : areFragments vs = true ↔ ∀ v ∈ vs, v.isFragment = true := by
  induction vs with
  | nil => simp [areFragments]
  | cons v vs ih => rw [areFragments, Bool.and_eq_true, ih, List.forall_mem_cons]

theorem isFragment_apply {head : Value} {args : List Value} {info : Info} :
    (apply head args info).isFragment = true ↔
      (head.isNode = true ∨ head.isPlaceholder = true) ∧ head.isFragment = true ∧
        ∀ v ∈ args, v.isFragment = true := by
  rw [isFragment, Bool.and_eq_true, Bool.and_eq_true, Bool.or_eq_true, areFragments_iff, and_assoc]

theorem isFragment_tuple {items : List Value} :
    (tuple items).isFragment = true ↔
      ∃ left right, items = [left, right] ∧ left.isFragment = true ∧ right.isFragment = true := by
  rw [isFragment, Bool.and_eq_true, areFragments_iff]
  rcases items with _ | ⟨left, _ | ⟨right, _ | ⟨third, others⟩⟩⟩
  · simp
  · simp
  · constructor
    · rintro ⟨-, h⟩
      exact ⟨left, right, rfl, h left (by simp), h right (by simp)⟩
    · rintro ⟨_, _, ⟨⟩, hl, hr⟩
      exact ⟨rfl, by simp [hl, hr]⟩
  · simp

/-- The place of a part matters only if the part is a placeholder. -/
theorem holes_of_not_placeholder {v : Value} (h : v.isPlaceholder = false) (p q : Place) : v.holes p = v.holes q := by
  cases v with
  | unquote | splice => cases h
  | _ => rfl

theorem mem_holesAll {p : Place} {vs : List Value} {hole : Place × Value} :
    hole ∈ holesAll p vs ↔ ∃ v ∈ vs, hole ∈ v.holes p := by
  induction vs with
  | nil => simp [holesAll]
  | cons v vs ih => simp [holesAll, ih]

/-- A tree has no placeholders. -/
theorem holes_of_isTree (v : Value) : v.isTree = true → ∀ p, v.holes p = [] := by
  have hall : ∀ vs : List Value, (∀ v ∈ vs, ∀ p, v.holes p = []) → ∀ p, holesAll p vs = [] := by
    intro vs h p
    rw [List.eq_nil_iff_forall_not_mem]
    intro hole hmem
    obtain ⟨v, hv, hhole⟩ := mem_holesAll.1 hmem
    rw [h v hv p] at hhole
    cases hhole
  induction v using treeInduction with
  | call name args info ih => exact fun h p => hall args (fun v hv => ih v hv (isTree_call.1 h v hv)) _
  | apply head args info ihHead ih =>
    intro h p
    obtain ⟨hhead, hargs⟩ := isTree_apply.1 h
    rw [holes, ihHead hhead, hall args fun v hv => ih v hv (hargs v hv)]
    rfl
  | list items ih => exact fun h p => hall items (fun v hv => ih v hv (isTree_list.1 h v hv)) _
  | tuple items ih =>
    intro h p
    refine hall items (fun v hv => ih v hv ?_) _
    exact isTree_of_mem_parts h hv
  | unquote | splice =>
    intro h
    cases h
  | _ => exact fun _ _ => rfl

theorem plugAll_cons (v : Value) (vs : List Value) : plugAll (v :: vs) = plugAll [v] ++ plugAll vs := by
  cases v with
  | splice u info => rw [plugAll, plugAll, plugAll, List.append_nil]
  | _ => rfl

theorem plugAll_singleton {v : Value} (h : ∀ u info, v ≠ splice u info) : plugAll [v] = [v.plug] := by
  cases v with
  | splice u info => exact absurd rfl (h u info)
  | _ => rfl

theorem length_plugAll (vs : List Value) : (plugAll vs).length = totalWidth vs := by
  induction vs with
  | nil => rfl
  | cons v vs ih =>
    rw [plugAll_cons, List.length_append, ih, totalWidth]
    cases v with
    | splice u info => rw [plugAll, plugAll, List.append_nil, width]
    | _ => rfl

theorem width_tagged (c : Context) (v : Value) : (v.tagged c).width = v.width := by
  cases v with
  | var name d info =>
    rw [tagged, taggedVar_eq]
    rfl
  | _ => rfl

theorem totalWidth_taggedAll (c : Context) (vs : List Value) : totalWidth (taggedAll c vs) = totalWidth vs := by
  induction vs with
  | nil => rfl
  | cons v vs ih => rw [taggedAll, totalWidth, width_tagged, ih, totalWidth]

/-! ## When a quote succeeds -/

/-- A sequence is spliced in if it is admitted among the members of a list. -/
theorem injectItems_eq_ok {v : Value} {us : List Value} {info : Info} :
    v.injectItems info = .ok us ↔ Place.member.admits (splice v info) = true ∧ us = v.items?.getD [] := by
  rw [injectItems, Place.admits]
  cases v.items? with
  | none => simp
  | some items => simp [injectAll_eq_ok]

/-- The value is quoted if every placeholder is admitted at its place, and then into the tagged value with what the
placeholders hold. -/
def Fills (c : Context) (v : Value) : Prop :=
  ∀ u, v.quote c = .ok u ↔ (∀ hole ∈ v.holes .elsewhere, hole.1.admits hole.2 = true) ∧ u = (v.tagged c).plug

section

variable {c : Context}

theorem Fills.quoteMember_eq_ok {v : Value} {us : List Value} (h : v.Fills c) :
    v.quoteMember c = .ok us ↔
      (∀ hole ∈ v.holes .member, hole.1.admits hole.2 = true) ∧ us = plugAll [v.tagged c] := by
  by_cases hsplice : ∃ u info, v = splice u info
  · obtain ⟨u, info, rfl⟩ := hsplice
    rw [quoteMember, injectItems_eq_ok, holes, List.forall_mem_singleton, tagged, plugAll, plugAll, List.append_nil]
    all_goals simp
  · have hplain : ∀ u info, v ≠ splice u info := fun u info hv => hsplice ⟨u, info, hv⟩
    have hplain' : ∀ u info, v.tagged c ≠ splice u info := by
      cases v with
      | splice u info => exact absurd rfl (hplain u info)
      | var name d info => rw [tagged, taggedVar_eq]; simp
      | _ => simp [tagged]
    have hholes : (∀ hole ∈ v.holes .member, hole.1.admits hole.2 = true) ↔
        ∀ hole ∈ v.holes .elsewhere, hole.1.admits hole.2 = true := by
      cases v with
      | splice u info => exact absurd rfl (hplain u info)
      | unquote u info => rw [holes, holes, List.forall_mem_singleton, List.forall_mem_singleton]; rfl
      | _ => rfl
    rw [quoteMember_of_not_splice hplain, hholes, plugAll_singleton hplain']
    constructor
    · rintro ⟨u, hu, rfl⟩
      obtain ⟨hadmits, rfl⟩ := (h u).1 hu
      exact ⟨hadmits, rfl⟩
    · rintro ⟨hadmits, rfl⟩
      exact ⟨_, (h _).2 ⟨hadmits, rfl⟩, rfl⟩

theorem quoteAll_eq_ok {vs us : List Value} (h : ∀ v ∈ vs, v.Fills c) :
    quoteAll c vs = .ok us ↔
      (∀ hole ∈ holesAll .member vs, hole.1.admits hole.2 = true) ∧ us = plugAll (taggedAll c vs) := by
  induction vs generalizing us with
  | nil =>
    rw [quoteAll, taggedAll, plugAll, holesAll]
    exact ⟨fun h => ⟨List.forall_mem_nil _, (Except.ok.inj h).symm⟩, fun h => congrArg Except.ok h.2.symm⟩
  | cons v vs ih =>
    rw [List.forall_mem_cons] at h
    rw [quoteAll_cons_eq, holesAll, List.forall_mem_append, taggedAll, plugAll_cons]
    constructor
    · intro hall
      obtain ⟨first, hfirst, hall⟩ := except_bind_eq_ok.1 hall
      obtain ⟨rest, hrest, hall⟩ := except_bind_eq_ok.1 hall
      cases hall
      obtain ⟨hadmits, rfl⟩ := h.1.quoteMember_eq_ok.1 hfirst
      obtain ⟨hadmitsRest, rfl⟩ := (ih h.2).1 hrest
      exact ⟨⟨hadmits, hadmitsRest⟩, rfl⟩
    · rintro ⟨⟨hadmits, hadmitsRest⟩, rfl⟩
      refine except_bind_eq_ok.2 ⟨_, h.1.quoteMember_eq_ok.2 ⟨hadmits, rfl⟩, ?_⟩
      exact except_bind_eq_ok.2 ⟨_, (ih h.2).2 ⟨hadmitsRest, rfl⟩, rfl⟩

theorem callOf_eq_withHead (head : Value) (args : List Value) (info : Info) :
    callOf head args info = withHead head.headOfInjected args info := by
  cases head <;> rfl

theorem canHead_iff {v : Value} (h : v.isTree = true) (info : Info) :
    v.canHead = true ↔ checkHead info v.headOfInjected = .ok () := by
  cases v with
  | atom name | text name => by_cases hname : name = "" <;> simp [canHead, headOfInjected, checkHead, hname]
  | call | apply | var => exact ⟨fun _ => rfl, fun _ => rfl⟩
  | unquote | splice => cases h
  | _ =>
    constructor
    · intro hcan
      cases hcan
    · intro hcheck
      cases hcheck

theorem isNode_plug {v : Value} (h : v.isNode = true) : v.plug.isNode = true := by
  cases v with
  | call | var => rfl
  | apply head args info =>
    rw [plug, callOf_eq_withHead]
    exact isNode_withHead ..
  | _ => cases h

theorem headOfInjected_of_isNode {v : Value} (h : v.isNode = true) : v.headOfInjected = v := by
  cases v with
  | atom => cases h
  | _ => rfl

theorem quoteHead_unquote_eq_ok {v u : Value} {info : Info} :
    (unquote v info).quoteHead c = .ok u ↔ v.isTree = true ∧ u = v.headOfInjected := by
  rw [quoteHead]
  constructor
  · intro h
    cases hinject : v.inject info with
    | ok w =>
      rw [hinject] at h
      cases h
      obtain ⟨htree, rfl⟩ := inject_eq_ok.1 hinject
      exact ⟨htree, rfl⟩
    | error e =>
      rw [hinject] at h
      cases h
  · rintro ⟨htree, rfl⟩
    rw [inject_of_isTree htree]
    rfl

/-- The head of a call: what stands there after the quote, and when it is one that a call can have. -/
theorem Fills.quoteHead_eq_ok {head : Value} (h : head.Fills c)
    (hkind : head.isNode = true ∨ head.isPlaceholder = true) (info : Info) (u : Value) :
    head.quoteHead c = .ok u ∧ checkHead info u = .ok () ↔
      (∀ hole ∈ head.holes .head, hole.1.admits hole.2 = true) ∧ u = (head.tagged c).plug.headOfInjected := by
  rcases hkind with hnode | hplaceholder
  · -- a node is quoted into a node, which can be the head of a call
    have hplaceholder : head.isPlaceholder = false := by
      cases head with
      | unquote | splice => cases hnode
      | _ => rfl
    have hplain : ∀ v i, head ≠ unquote v i := by
      rintro v i rfl
      cases hplaceholder
    have hplugged : (head.tagged c).plug.isNode = true := isNode_plug ((isNode_tagged c head).trans hnode)
    rw [quoteHead_of_not_unquote hplain, holes_of_not_placeholder hplaceholder .head .elsewhere,
      headOfInjected_of_isNode hplugged, h u]
    refine and_iff_left_of_imp ?_
    rintro ⟨-, rfl⟩
    exact checkHead_of_isNode hplugged info
  · cases head with
    | unquote v i =>
      rw [quoteHead_unquote_eq_ok, holes, List.forall_mem_singleton]
      show _ ↔ (v.isTree && v.canHead) = true ∧ u = v.headOfInjected
      rw [Bool.and_eq_true]
      constructor
      · rintro ⟨⟨htree, rfl⟩, hcheck⟩
        exact ⟨⟨htree, (canHead_iff htree info).2 hcheck⟩, rfl⟩
      · rintro ⟨⟨htree, hcan⟩, rfl⟩
        exact ⟨⟨htree, rfl⟩, (canHead_iff htree info).1 hcan⟩
    | splice v i =>
      constructor
      · rintro ⟨hu, -⟩
        cases hu
      · rintro ⟨hadmits, -⟩
        cases hadmits _ List.mem_cons_self
    | _ => cases hplaceholder

/-- A node that is made of the quoted members. -/
theorem quoteAll_node_eq_ok {vs : List Value} (node : List Value → Value) (h : ∀ v ∈ vs, v.Fills c) (u : Value) :
    (do return node (← quoteAll c vs) : Except Error Value) = .ok u ↔
      (∀ hole ∈ holesAll .member vs, hole.1.admits hole.2 = true) ∧ u = node (plugAll (taggedAll c vs)) := by
  constructor
  · intro hu
    obtain ⟨us, hus, hu⟩ := except_bind_eq_ok.1 hu
    cases hu
    obtain ⟨hadmits, rfl⟩ := (quoteAll_eq_ok h).1 hus
    exact ⟨hadmits, rfl⟩
  · rintro ⟨hadmits, rfl⟩
    exact except_bind_eq_ok.2 ⟨_, (quoteAll_eq_ok h).2 ⟨hadmits, rfl⟩, rfl⟩

theorem fills_of_isFragment (f : Value) : f.isFragment = true → f.Fills c := by
  induction f using treeInduction with
  | call name args info ih =>
    intro hf v
    rw [quote, holes, tagged, plug]
    exact quoteAll_node_eq_ok (call name · _) (fun a ha => ih a ha (areFragments_iff.1 hf a ha)) v
  | apply head args info ihHead ih =>
    intro hf v
    obtain ⟨hkind, hhead, hargs⟩ := isFragment_apply.1 hf
    have hquoteHead := (ihHead hhead).quoteHead_eq_ok hkind info
    have hquoteAll (us : List Value) : quoteAll c args = .ok us ↔ _ :=
      quoteAll_eq_ok fun a ha => ih a ha (hargs a ha)
    rw [quote_apply_eq, holes, List.forall_mem_append, tagged, plug, callOf_eq_withHead]
    constructor
    · intro h
      obtain ⟨u, hu, h⟩ := except_bind_eq_ok.1 h
      obtain ⟨us, hus, h⟩ := except_bind_eq_ok.1 h
      obtain ⟨_, hcheck, h⟩ := except_bind_eq_ok.1 h
      cases h
      obtain ⟨hadmits, rfl⟩ := (hquoteHead u).1 ⟨hu, hcheck⟩
      obtain ⟨hadmitsAll, rfl⟩ := (hquoteAll us).1 hus
      exact ⟨⟨hadmits, hadmitsAll⟩, rfl⟩
    · rintro ⟨⟨hadmits, hadmitsAll⟩, rfl⟩
      obtain ⟨hu, hcheck⟩ := (hquoteHead _).2 ⟨hadmits, rfl⟩
      refine except_bind_eq_ok.2 ⟨_, hu, except_bind_eq_ok.2 ⟨_, (hquoteAll _).2 ⟨hadmitsAll, rfl⟩, ?_⟩⟩
      exact except_bind_eq_ok.2 ⟨(), hcheck, rfl⟩
  | list items ih =>
    intro hf v
    rw [quote, holes, tagged, plug]
    exact quoteAll_node_eq_ok list (fun a ha => ih a ha (areFragments_iff.1 hf a ha)) v
  | tuple items ih =>
    intro hf v
    obtain ⟨left, right, rfl, hl, hr⟩ := isFragment_tuple.1 hf
    have hleft := ih left (by simp) hl
    have hright := ih right (by simp) hr
    rw [quote, tagged, taggedAll, taggedAll, taggedAll, plug, holes, holesAll, holesAll, holesAll, List.append_nil,
      List.forall_mem_append]
    constructor
    · intro h
      obtain ⟨u, hu, h⟩ := except_bind_eq_ok.1 h
      obtain ⟨w, hw, h⟩ := except_bind_eq_ok.1 h
      cases h
      obtain ⟨hadmitsLeft, rfl⟩ := (hleft u).1 hu
      obtain ⟨hadmitsRight, rfl⟩ := (hright w).1 hw
      exact ⟨⟨hadmitsLeft, hadmitsRight⟩, rfl⟩
    · rintro ⟨⟨hadmitsLeft, hadmitsRight⟩, rfl⟩
      refine except_bind_eq_ok.2 ⟨_, (hleft _).2 ⟨hadmitsLeft, rfl⟩, ?_⟩
      exact except_bind_eq_ok.2 ⟨_, (hright _).2 ⟨hadmitsRight, rfl⟩, rfl⟩
  | var name d info =>
    intro _ v
    have hplug : ((var name d info).tagged c).plug = taggedVar c name d info := by
      rw [tagged, taggedVar_eq]
      rfl
    rw [quote_var, hplug]
    exact ⟨fun h => ⟨List.forall_mem_nil _, (Except.ok.inj h).symm⟩, fun h => congrArg Except.ok h.2.symm⟩
  | unquote u info ih =>
    intro _ v
    rw [quote, inject_eq_ok, holes, List.forall_mem_singleton]
    rfl
  | splice u info ih =>
    intro _ v
    constructor
    · intro h
      cases h
    · rintro ⟨hadmits, -⟩
      cases hadmits _ List.mem_cons_self
  | atom | number | text =>
    intro _ v
    exact ⟨fun h => ⟨List.forall_mem_nil _, (Except.ok.inj h).symm⟩, fun h => congrArg Except.ok h.2.symm⟩
  | _ =>
    intro hf
    cases hf

theorem isTree_of_injectItems {v : Value} {us : List Value} {info : Info} (h : v.injectItems info = .ok us) :
    ∀ u ∈ us, u.isTree = true := by
  unfold injectItems at h
  split at h
  · obtain ⟨htrees, rfl⟩ := injectAll_eq_ok.1 h
    exact htrees
  · cases h

theorem isTree_of_quoteAll {vs us : List Value} (h : ∀ v ∈ vs, ∀ u, v.quote c = .ok u → u.isTree = true)
    (hus : quoteAll c vs = .ok us) : ∀ u ∈ us, u.isTree = true := by
  induction vs generalizing us with
  | nil =>
    cases hus
    exact List.forall_mem_nil _
  | cons v vs ih =>
    rw [List.forall_mem_cons] at h
    rw [quoteAll_cons_eq] at hus
    obtain ⟨first, hfirst, hus⟩ := except_bind_eq_ok.1 hus
    obtain ⟨rest, hrest, hus⟩ := except_bind_eq_ok.1 hus
    cases hus
    refine List.forall_mem_append.2 ⟨?_, ih h.2 hrest⟩
    by_cases hsplice : ∃ u info, v = splice u info
    · obtain ⟨u, info, rfl⟩ := hsplice
      exact isTree_of_injectItems hfirst
    · obtain ⟨u, hu, rfl⟩ := (quoteMember_of_not_splice fun u info hv => hsplice ⟨u, info, hv⟩).1 hfirst
      exact List.forall_mem_singleton.2 (h.1 u hu)

/-- What a quote makes is a tree. -/
theorem isTree_of_quote (f : Value) : ∀ v, f.quote c = .ok v → v.isTree = true := by
  induction f using treeInduction with
  | call name args info ih =>
    intro v h
    obtain ⟨us, hus, h⟩ := except_bind_eq_ok.1 h
    cases h
    exact isTree_call.2 (isTree_of_quoteAll ih hus)
  | apply head args info ihHead ih =>
    intro v h
    rw [quote_apply_eq] at h
    obtain ⟨u, hu, h⟩ := except_bind_eq_ok.1 h
    obtain ⟨us, hus, h⟩ := except_bind_eq_ok.1 h
    obtain ⟨_, -, h⟩ := except_bind_eq_ok.1 h
    cases h
    refine Standard.value_withHead (S := .trees) ?_ (isTree_of_quoteAll ih hus) trivial
    by_cases hunquote : ∃ w i, head = unquote w i
    · obtain ⟨w, i, rfl⟩ := hunquote
      obtain ⟨htree, rfl⟩ := quoteHead_unquote_eq_ok.1 hu
      exact Standard.trees.value_headOfInjected htree
    · rw [quoteHead_of_not_unquote fun w i hw => hunquote ⟨w, i, hw⟩] at hu
      exact ihHead u hu
  | list items ih =>
    intro v h
    obtain ⟨us, hus, h⟩ := except_bind_eq_ok.1 h
    cases h
    exact isTree_list.2 (isTree_of_quoteAll ih hus)
  | tuple items ih =>
    intro v h
    rw [quote.eq_def] at h
    dsimp only at h
    split at h
    · obtain ⟨left, hleft, h⟩ := except_bind_eq_ok.1 h
      obtain ⟨right, hright, h⟩ := except_bind_eq_ok.1 h
      cases h
      exact isTree_tuple.2 ⟨left, right, rfl, ih _ (by simp) left hleft, ih _ (by simp) right hright⟩
    · cases h
  | var name d info =>
    intro v h
    rw [quote_var, taggedVar_eq] at h
    cases h
    rfl
  | unquote u info ih =>
    intro v h
    obtain ⟨htree, rfl⟩ := inject_eq_ok.1 h
    exact htree
  | _ =>
    intro v h
    cases h <;> rfl

end

end Value

/-! ## How a quote fails -/

/-- The objections of a quote: that a splice is out of place, or that something is no tree. -/
def Error.isObjection : Error → Bool
  | located cause _ none => cause.kind == .spliceArity || cause.kind == .malformedNode
  | _ => false

/-- The error is an objection of a quote or, only if `long` holds, that an integer is too long to be shown. -/
def Error.Objects (long : Prop) (e : Error) : Prop :=
  e.isObjection = true ∨ e = .usage (.digitLimit none) ∧ long

theorem Error.objects_on {long : Prop} {cause : Cause} {info : Info}
    (h : (Error.located cause info none).isObjection = true) (hlong : cause.isWritable = false → long) :
    (cause.on info).Objects long := by
  unfold Cause.on
  split
  · exact .inl h
  · rename_i hwritable
    exact .inr ⟨rfl, hlong (Bool.eq_false_iff.2 hwritable)⟩

theorem Raises.ofLonger {α : Type} {long longer : Prop} {r : Except Error α} (h : Raises (Error.Objects long) r)
    (himp : long → longer) : Raises (Error.Objects longer) r :=
  h.mono fun _ he => he.imp_right fun ⟨hlimit, hlong⟩ => ⟨hlimit, himp hlong⟩

namespace Value

theorem isWritable_of_mem_parts {v part : Value} (hpart : part ∈ v.parts) (h : part.isWritable = false) :
    v.isWritable = false := by
  rw [Bool.eq_false_iff] at h ⊢
  intro hv
  refine h ?_
  cases v with
  | call name args info => exact areWritable_iff.1 hv part hpart
  | apply head args info =>
    rw [isWritable, Bool.and_eq_true, areWritable_iff] at hv
    rcases List.mem_cons.1 hpart with rfl | hpart
    · exact hv.1
    · exact hv.2 part hpart
  | list items | tuple items => exact areWritable_iff.1 hv part hpart
  | _ => cases hpart

theorem objects_kind (v : Value) : Raises (Error.Objects (v.isWritable = false)) v.kind := by
  cases v with
  | tuple items =>
    rcases items with _ | ⟨left, _ | ⟨right, _ | ⟨third, others⟩⟩⟩
    · exact .error (Error.objects_on rfl id)
    · exact .error (Error.objects_on rfl id)
    · exact .ok _
    · exact .error (Error.objects_on rfl id)
  | unquote | splice => exact .error (.inl rfl)
  | context | truth | nothing => exact .error (Error.objects_on rfl id)
  | _ => exact .ok _

theorem objects_validateAll {long : Prop} {vs : List Value} (h : ∀ v ∈ vs, Raises (Error.Objects long) v.validate) :
    Raises (Error.Objects long) (validateAll vs) := by
  induction vs with
  | nil => exact .ok ()
  | cons v vs ih =>
    rw [List.forall_mem_cons] at h
    rw [validateAll]
    exact .bind h.1 fun _ => ih h.2

theorem objects_validate (v : Value) : Raises (Error.Objects (v.isWritable = false)) v.validate := by
  have hparts : ∀ v : Value, (∀ w ∈ v.parts, Raises (Error.Objects (w.isWritable = false)) w.validate) →
      ∀ w ∈ v.parts, Raises (Error.Objects (v.isWritable = false)) w.validate :=
    fun v h w hw => (h w hw).ofLonger (isWritable_of_mem_parts hw)
  induction v using treeInduction with
  | call name args info ih => exact objects_validateAll (hparts (call name args info) ih)
  | apply head args info ihHead ih =>
    have h := List.forall_mem_cons.1 (hparts (apply head args info) (List.forall_mem_cons.2 ⟨ihHead, ih⟩))
    exact .bind h.1 fun _ => objects_validateAll h.2
  | list items ih => exact objects_validateAll (hparts (list items) ih)
  | tuple items ih => exact .bind (objects_kind _) fun _ => objects_validateAll (hparts (tuple items) ih)
  | _ => exact .bind (objects_kind _) fun _ => .ok ()

theorem objects_inject (v : Value) (info : Info) : Raises (Error.Objects (v.isWritable = false)) (v.inject info) := by
  have hvalid := objects_validate v
  unfold inject
  split
  · exact .ok v
  · exact .error (Error.objects_on rfl id)
  · rename_i herror
    exact .error (hvalid _ herror)

theorem objects_injectItems (v : Value) (info : Info) :
    Raises (Error.Objects (v.isWritable = false)) (v.injectItems info) := by
  have hall : ∀ vs : List Value, (∀ w ∈ vs, w ∈ v.parts) →
      Raises (Error.Objects (v.isWritable = false)) (injectAll info vs) := by
    intro vs h
    induction vs with
    | nil => exact .ok _
    | cons w ws ih =>
      rw [List.forall_mem_cons] at h
      have hfirst := (objects_inject w info).ofLonger (isWritable_of_mem_parts h.1)
      exact .bind hfirst fun _ => .bind (ih h.2) fun _ => .ok _
  unfold injectItems
  cases v with
  | list items | tuple items => exact hall items fun _ => id
  | _ => exact .error (Error.objects_on rfl id)

/-- Some placeholder holds an integer that is too long to be shown. -/
def HoldsLong (holes : List (Place × Value)) : Prop :=
  ∃ hole ∈ holes, hole.2.isWritable = false

theorem HoldsLong.append_left {hs hs' : List (Place × Value)} (h : HoldsLong hs) : HoldsLong (hs ++ hs') :=
  h.imp fun _ ⟨hmem, hlong⟩ => ⟨List.mem_append_left _ hmem, hlong⟩

theorem HoldsLong.append_right {hs hs' : List (Place × Value)} (h : HoldsLong hs') : HoldsLong (hs ++ hs') :=
  h.imp fun _ ⟨hmem, hlong⟩ => ⟨List.mem_append_right _ hmem, hlong⟩

theorem HoldsLong.of_place {v : Value} {p q : Place} (h : HoldsLong (v.holes p)) : HoldsLong (v.holes q) := by
  obtain ⟨hole, hmem, hlong⟩ := h
  cases v with
  | unquote u info | splice u info =>
    cases List.mem_singleton.1 hmem
    exact ⟨_, List.mem_singleton_self _, hlong⟩
  | _ => exact ⟨hole, hmem, hlong⟩

theorem objects_checkHead (long : Prop) (info : Info) (v : Value) : Raises (Error.Objects long) (checkHead info v) := by
  cases v with
  | text name =>
    rw [checkHead]
    split
    · exact .error (.inl rfl)
    · exact .ok ()
  | call | apply | var | unquote | splice => exact .ok ()
  | _ => exact .error (.inl rfl)

section

variable {c : Context}

theorem objects_quoteMember {v : Value} (h : Raises (Error.Objects (HoldsLong (v.holes .elsewhere))) (v.quote c)) :
    Raises (Error.Objects (HoldsLong (v.holes .member))) (v.quoteMember c) := by
  cases v with
  | splice u info => exact (objects_injectItems u info).ofLonger fun hlong => ⟨_, List.mem_singleton_self _, hlong⟩
  | _ => exact .bind (h.ofLonger HoldsLong.of_place) fun _ => .ok _

theorem objects_quoteAll {vs : List Value}
    (h : ∀ v ∈ vs, Raises (Error.Objects (HoldsLong (v.holes .elsewhere))) (v.quote c)) :
    Raises (Error.Objects (HoldsLong (holesAll .member vs))) (quoteAll c vs) := by
  induction vs with
  | nil => exact .ok _
  | cons v vs ih =>
    rw [List.forall_mem_cons] at h
    rw [quoteAll_cons_eq, holesAll]
    refine .bind ((objects_quoteMember h.1).ofLonger HoldsLong.append_left) fun _ => ?_
    exact .bind ((ih h.2).ofLonger HoldsLong.append_right) fun _ => .ok _

theorem objects_quoteHead {head : Value}
    (h : Raises (Error.Objects (HoldsLong (head.holes .elsewhere))) (head.quote c)) :
    Raises (Error.Objects (HoldsLong (head.holes .head))) (head.quoteHead c) := by
  cases head with
  | unquote u info =>
    exact .map _ ((objects_inject u info).ofLonger fun hlong => ⟨_, List.mem_singleton_self _, hlong⟩)
  | _ => exact h.ofLonger HoldsLong.of_place

/-- A quote fails with an objection, unless a placeholder holds an integer that is too long to be shown. -/
theorem objects_quote (f : Value) :
    f.isFragment = true → Raises (Error.Objects (HoldsLong (f.holes .elsewhere))) (f.quote c) := by
  induction f using treeInduction with
  | call name args info ih =>
    intro hf
    exact .bind (objects_quoteAll fun v hv => ih v hv (areFragments_iff.1 hf v hv)) fun _ => .ok _
  | apply head args info ihHead ih =>
    intro hf
    obtain ⟨-, hhead, hargs⟩ := isFragment_apply.1 hf
    have hquoteAll := objects_quoteAll fun v hv => ih v hv (hargs v hv)
    rw [quote_apply_eq, holes]
    refine .bind ((objects_quoteHead (ihHead hhead)).ofLonger HoldsLong.append_left) fun u => ?_
    refine .bind (hquoteAll.ofLonger HoldsLong.append_right) fun _ => ?_
    exact .bind (objects_checkHead _ info u) fun _ => .ok _
  | list items ih =>
    intro hf
    exact .bind (objects_quoteAll fun v hv => ih v hv (areFragments_iff.1 hf v hv)) fun _ => .ok _
  | tuple items ih =>
    intro hf
    obtain ⟨left, right, rfl, hl, hr⟩ := isFragment_tuple.1 hf
    rw [quote, holes, holesAll, holesAll, holesAll, List.append_nil]
    refine .bind ((ih left (by simp) hl).ofLonger HoldsLong.append_left) fun _ => ?_
    exact .bind ((ih right (by simp) hr).ofLonger HoldsLong.append_right) fun _ => .ok _
  | var name d info => exact fun _ => .ok _
  | unquote u info ih =>
    exact fun _ => (objects_inject u info).ofLonger fun hlong => ⟨_, List.mem_singleton_self _, hlong⟩
  | splice u info ih => exact fun _ => .error (.inl rfl)
  | atom | number | text => exact fun _ => .ok _
  | _ =>
    intro hf
    cases hf

end

/-! ## Quotes -/

theorem row_callOf (head : Value) (args : List Value) (info : Info) : (callOf head args info).row = args := by
  cases head <;> rfl

/-- The arguments of a call and the members of a list are as many as the members of the fragment stand for. -/
theorem length_row_plug_tagged (c : Context) {f : Value} (h : f.isPlaceholder = false) :
    (f.tagged c).plug.row.length = totalWidth f.row := by
  have hall : ∀ vs : List Value, (plugAll (taggedAll c vs)).length = totalWidth vs :=
    fun vs => (length_plugAll _).trans (totalWidth_taggedAll c vs)
  cases f with
  | call name args info | list items => exact hall _
  | apply head args info =>
    rw [tagged, plug, row_callOf]
    exact hall args
  | tuple items =>
    rw [tagged, plug.eq_def]
    dsimp only
    split <;> rfl
  | var name d info =>
    rw [tagged, taggedVar_eq]
    rfl
  | unquote | splice => cases h
  | _ => rfl

/-- A fragment is quoted exactly if each placeholder in it stands where it may and holds what it may there: a splice is
an argument of a call or a member of a list and holds a sequence of trees, and an unquote holds a tree, which at the
head of a call is a name or a node. Then the result is the fragment with its own variables and calls tagged, each
placeholder replaced by what it holds, and a name at a head as the name of the call. It is a tree and has no
placeholders, and it has as many arguments or members as those of the fragment stand for. If the quote fails, then with
the objection that a splice is out of place or that something is no tree, unless a placeholder holds an integer that is
too long to be shown. -/
theorem quote_fills (c : Context) {f : Value} (hf : f.isFragment = true) :
    ((∃ v, f.quote c = .ok v) ↔ ∀ hole ∈ f.holes .elsewhere, hole.1.admits hole.2 = true) ∧
      (∀ v, f.quote c = .ok v → v = (f.tagged c).plug ∧ v.isTree = true ∧ v.holes .elsewhere = [] ∧
        (f.isPlaceholder = false → v.row.length = totalWidth f.row)) ∧
      ∀ e, f.quote c = .error e → e.isObjection = true ∨
        e = .usage (.digitLimit none) ∧ ∃ hole ∈ f.holes .elsewhere, hole.2.isWritable = false := by
  have hquote : f.Fills c := fills_of_isFragment f hf
  refine ⟨⟨?_, fun hadmits => ⟨_, (hquote _).2 ⟨hadmits, rfl⟩⟩⟩, fun v hv => ?_, objects_quote f hf⟩
  · rintro ⟨v, hv⟩
    exact ((hquote v).1 hv).1
  have htree := isTree_of_quote f v hv
  obtain ⟨-, rfl⟩ := (hquote v).1 hv
  exact ⟨rfl, htree, holes_of_isTree _ htree _, length_row_plug_tagged c⟩

/-- An atom is put in as the name of a call, and the members of a tuple behind a variable of the quote. -/
theorem quote_fills_splice :
    let f : Value := .apply (.unquote (.atom "f") {})
      [.var "y" .direct {}, .splice (.tuple [.int 1, .var "y" .direct {}, .int 2]) {}] {}
    f.isFragment = true ∧ (∀ hole ∈ f.holes .elsewhere, hole.1.admits hole.2 = true) ∧
      f.quote (.quotedIn "M") = .ok (.call "f"
        [.var "y" (.quotedIn "M") {}, .int 1, .var "y" .direct {}, .int 2] { context := some (.quotedIn "M") }) := by
  intro f
  have hadmits : ∀ hole ∈ f.holes .elsewhere, hole.1.admits hole.2 = true :=
    List.forall_mem_cons.2 ⟨rfl, List.forall_mem_singleton.2 rfl⟩
  have hfills := quote_fills (.quotedIn "M") (f := f) rfl
  obtain ⟨v, hv⟩ := hfills.1.2 hadmits
  obtain ⟨rfl, -⟩ := hfills.2.1 v hv
  exact ⟨rfl, hadmits, hv⟩

theorem injectItems_number {n : Number} (h : (number n).isWritable = false) (info : Info) :
    (number n).injectItems info = .error (.usage (.digitLimit none)) := by
  show Except.error ((Cause.spliceOperand (number n)).on info) = _
  have hlong : (Cause.spliceOperand (number n)).isWritable = false := h
  rw [Cause.on, if_neg (Bool.eq_false_iff.1 hlong)]

/-- An integer is no sequence that could be spliced in, but the message that says so cannot show it if it is too
long. -/
theorem quote_long_integer :
    let f : Value := .list [.splice (.int Number.writeBound) {}]
    f.isFragment = true ∧ f.quote .direct = .error (.usage (.digitLimit none)) ∧
      (Error.usage (.digitLimit none)).isObjection = false := by
  have hlong : (Value.int Number.writeBound).isWritable = false := by
    rw [Value.int, Value.isWritable, Number.isWritable, Int.natAbs_natCast]
    exact decide_eq_false (Nat.lt_irrefl _)
  refine ⟨rfl, ?_, rfl⟩
  rw [quote, quoteAll, Value.int, injectItems_number hlong]
  rfl

end Value

end MacroLang
