import Mathlib.Data.List.Forall2
import MacroLang.Proofs.Expansion.Effects
import MacroLang.Proofs.Expansion.Recursion
import MacroLang.Proofs.Expansion.Settled
import MacroLang.Proofs.Tree.Shape

/-!
# What expansion without macros keeps

Where there are no macros, expansion goes through a value without changing how its lists, tuples and calls are nested.
That nesting is the outline of the value (`Value.outline`); it ends at quotes and modules, which expansion does not look
into, and at the forms that it replaces by a variable or an atom. Members that are no trees are refused on the way. Only
the sizes of tuples are not checked: a tuple that is no pair comes back as it is, or, if one of its members was
rewritten, as the pair of its first two members (`Value.expandedOutline`).

Main statement: `Expander.expandFrom_outline`.
-/

namespace MacroLang

/-! ## Outlines -/

/-- How lists, tuples and calls are nested. -/
inductive Outline where
  | leaf
  | list (items : List Outline)
  | tuple (items : List Outline)
  | call (head : Outline) (args : List Outline)

/-- The calls whose arguments are not expanded: quotes and modules, `var!`, and `__MODULE__` without arguments. -/
def isClosed (name : String) (args : List Value) : Bool :=
  isSealed name || name == "var!" || name == "__MODULE__" && args.isEmpty

namespace Value

mutual

/-- A text at the head of a call is the name of the call. -/
def outline : Value → Outline
  | call name args _ | apply (text name) args _ => if isClosed name args then .leaf else .call .leaf (outlineAll args)
  | apply head args _ => .call (outline head) (outlineAll args)
  | list items => .list (outlineAll items)
  | tuple items => .tuple (outlineAll items)
  | _ => .leaf

def outlineAll : List Value → List Outline
  | [] => []
  | v :: vs => outline v :: outlineAll vs

end

mutual

/-- Does expansion without macros put something new in the place of the value or of a part of it? It replaces `var!` and
`__MODULE__` and writes the names of modules in full. -/
def isRewritten : Value → Bool
  | call name args info => !isSealed name && (isClosed name args || isDeclaration name && !info.isResolved ||
      areRewritten args)
  | apply head args _ => (if head.remote?.isSome then !head.isResolved else isRewritten head) || areRewritten args
  | list items => areRewritten items
  | tuple items => areRewritten items
  | _ => false

def areRewritten : List Value → Bool
  | [] => false
  | v :: vs => isRewritten v || areRewritten vs

end

mutual

/-- The outline that is left of a value by expansion without macros. -/
def expandedOutline : Value → Outline
  | call name args _ | apply (text name) args _ =>
    if isClosed name args then .leaf else .call .leaf (expandedOutlineAll args)
  | apply head args _ => .call (expandedOutline head) (expandedOutlineAll args)
  | list items => .list (expandedOutlineAll items)
  | tuple items => .tuple (if areRewritten items then (expandedOutlineAll items).take 2 else expandedOutlineAll items)
  | _ => .leaf

def expandedOutlineAll : List Value → List Outline
  | [] => []
  | v :: vs => expandedOutline v :: expandedOutlineAll vs

end

mutual

/-- A tree, apart from what quotes and modules hold and from the sizes of tuples. Only a tuple in which something is
rewritten has to have two members at least. -/
def isLooseTree : Value → Bool
  | call name args _ => isSealed name || areLooseTrees args
  | apply head args _ => isLooseTree head && areLooseTrees args
  | list items => areLooseTrees items
  | tuple items => areLooseTrees items && (!areRewritten items || decide (2 ≤ items.length))
  | var .. | atom _ | number _ | text _ => true
  | _ => false

def areLooseTrees : List Value → Bool
  | [] => true
  | v :: vs => isLooseTree v && areLooseTrees vs

end

mutual

/-- Is every tuple outside quotes and modules a pair? -/
def hasOnlyPairs : Value → Bool
  | call name args _ => isSealed name || haveOnlyPairs args
  | apply head args _ => hasOnlyPairs head && haveOnlyPairs args
  | list items => haveOnlyPairs items
  | tuple items => items.length == 2 && haveOnlyPairs items
  | _ => true

def haveOnlyPairs : List Value → Bool
  | [] => true
  | v :: vs => hasOnlyPairs v && haveOnlyPairs vs

end

mutual

/-- The value without what its quotes and modules hold. -/
def emptied : Value → Value
  | call name args info => call name (if isSealed name then [] else emptiedAll args) info
  | apply head args info => apply (emptied head) (emptiedAll args) info
  | list items => list (emptiedAll items)
  | tuple items => tuple (emptiedAll items)
  | v => v

def emptiedAll : List Value → List Value
  | [] => []
  | v :: vs => emptied v :: emptiedAll vs

end

theorem outlineAll_eq_map (vs : List Value) : outlineAll vs = vs.map outline := by
  induction vs with
  | nil => rfl
  | cons v vs ih => rw [outlineAll, ih, List.map_cons]

theorem expandedOutlineAll_eq_map (vs : List Value) : expandedOutlineAll vs = vs.map expandedOutline := by
  induction vs with
  | nil => rfl
  | cons v vs ih => rw [expandedOutlineAll, ih, List.map_cons]

theorem emptiedAll_eq_map (vs : List Value) : emptiedAll vs = vs.map emptied := by
  induction vs with
  | nil => rfl
  | cons v vs ih => rw [emptiedAll, ih, List.map_cons]

theorem areLooseTrees_iff {vs : List Value} : areLooseTrees vs = true ↔ ∀ v ∈ vs, v.isLooseTree = true := by
  induction vs with
  | nil => simp [areLooseTrees]
  | cons v vs ih => rw [areLooseTrees, Bool.and_eq_true, ih, List.forall_mem_cons]

theorem haveOnlyPairs_iff {vs : List Value} : haveOnlyPairs vs = true ↔ ∀ v ∈ vs, v.hasOnlyPairs = true := by
  induction vs with
  | nil => simp [haveOnlyPairs]
  | cons v vs ih => rw [haveOnlyPairs, Bool.and_eq_true, ih, List.forall_mem_cons]

/-! ## Pairs only -/

/-- Without tuples of other sizes, nothing is cut off. -/
theorem expandedOutline_of_hasOnlyPairs (v : Value) : v.hasOnlyPairs = true → v.expandedOutline = v.outline := by
  have hall {vs : List Value} (ih : ∀ v ∈ vs, v.hasOnlyPairs = true → v.expandedOutline = v.outline)
      (h : haveOnlyPairs vs = true) : expandedOutlineAll vs = outlineAll vs := by
    rw [expandedOutlineAll_eq_map, outlineAll_eq_map]
    exact List.map_congr_left fun v hv => ih v hv (haveOnlyPairs_iff.1 h v hv)
  induction v using treeInduction with
  | call name args info ih =>
    intro h
    rw [hasOnlyPairs, Bool.or_eq_true] at h
    rw [expandedOutline, outline]
    split
    · rfl
    · rename_i hclosed
      rcases h with h | h
      · simp [isClosed, h] at hclosed
      · rw [hall ih h]
  | apply head args info ihHead ih =>
    intro h
    rw [hasOnlyPairs, Bool.and_eq_true] at h
    by_cases hname : ∃ name, head = text name
    · obtain ⟨name, rfl⟩ := hname
      rw [expandedOutline, outline, hall ih h.2]
    · rw [expandedOutline, outline, ihHead h.1, hall ih h.2]
      all_goals exact not_exists.1 hname
  | list items ih =>
    intro h
    rw [hasOnlyPairs] at h
    rw [expandedOutline, outline, hall ih h]
  | tuple items ih =>
    intro h
    rw [hasOnlyPairs, Bool.and_eq_true, beq_iff_eq] at h
    have hlength : (expandedOutlineAll items).length = 2 := by
      rw [expandedOutlineAll_eq_map, List.length_map, h.1]
    rw [expandedOutline, outline, List.take_of_length_le (by omega), ite_self, hall ih h.2]
  | _ => exact fun _ => rfl

/-- Once quotes and modules are emptied, only tuples of other sizes keep a value from being a tree. -/
theorem isTree_emptied_iff (v : Value) :
    v.isLooseTree = true → (v.emptied.isTree = true ↔ v.hasOnlyPairs = true) := by
  have hall {vs : List Value}
      (ih : ∀ v ∈ vs, v.isLooseTree = true → (v.emptied.isTree = true ↔ v.hasOnlyPairs = true))
      (h : areLooseTrees vs = true) : (∀ v ∈ emptiedAll vs, v.isTree = true) ↔ haveOnlyPairs vs = true := by
    rw [emptiedAll_eq_map, List.forall_mem_map, haveOnlyPairs_iff]
    exact forall₂_congr fun v hv => ih v hv (areLooseTrees_iff.1 h v hv)
  induction v using treeInduction with
  | call name args info ih =>
    intro h
    rw [isLooseTree, Bool.or_eq_true] at h
    rw [emptied, isTree_call, hasOnlyPairs, Bool.or_eq_true]
    cases hsealed : isSealed name with
    | true => simp
    | false =>
      rw [hsealed, or_iff_right Bool.false_ne_true] at h
      simpa using hall ih h
  | apply head args info ihHead ih =>
    intro h
    rw [isLooseTree, Bool.and_eq_true] at h
    rw [emptied, isTree_apply, hasOnlyPairs, Bool.and_eq_true, ihHead h.1, hall ih h.2]
  | list items ih =>
    intro h
    rw [isLooseTree] at h
    rw [emptied, isTree_list, hasOnlyPairs, hall ih h]
  | tuple items ih =>
    intro h
    rw [isLooseTree, Bool.and_eq_true] at h
    rw [emptied, isTree_tuple, hasOnlyPairs, Bool.and_eq_true, beq_iff_eq, ← hall ih h.1, emptiedAll_eq_map]
    constructor
    · rintro ⟨left, right, hitems, hl, hr⟩
      have hlength : (items.map emptied).length = 2 := by rw [hitems]; rfl
      rw [List.length_map] at hlength
      rw [hitems]
      exact ⟨hlength, by simp [hl, hr]⟩
    · rintro ⟨hlength, htrees⟩
      obtain ⟨left, right, rfl⟩ := List.length_eq_two.1 hlength
      exact ⟨_, _, rfl, htrees _ (by simp), htrees _ (by simp)⟩
  | var | atom | number | text => exact fun _ => ⟨fun _ => rfl, fun _ => rfl⟩
  | _ =>
    intro h
    cases h

end Value

/-! ## No macros -/

/-- Neither the registry nor, for the scopes that it reads from other units, theirs has a macro. -/
structure Session.HasNoMacros {β : Type} (s : Session β) (r : Nat) : Prop where
  own : (s.registry r).macros = []
  others : (s.registry r).inSession = true → ∀ scope q, s.publisher? scope = some q → q ≠ r →
    (s.registry q).macrosOf scope = []

namespace Session.HasNoMacros

variable {β : Type} {s s' : Session β} {r : Nat} {scope : String}

theorem macro? (h : s.HasNoMacros r) (scope name : String) (arity : Nat) : s.macro? r scope name arity = none := by
  have hown : (s.registry r).macro? scope name arity = none := by simp [Registry.macro?, h.own]
  have hother : ∀ g, s.otherRegistry? r scope = some g → g.macro? scope name arity = none := by
    intro g hg
    unfold otherRegistry? at hg
    split at hg
    · rename_i hin
      obtain ⟨q, hq, hg⟩ := Option.bind_eq_some_iff.1 hg
      split at hg
      · cases hg
      · rename_i hne
        cases hg
        have hnone := h.others hin scope q hq hne
        refine List.find?_eq_none.2 fun m hm hkey => ?_
        have hscope : m ∈ (s.registry q).macrosOf scope := by
          simp only [Macro.hasKey, Bool.and_eq_true] at hkey
          exact List.mem_filter.2 ⟨hm, hkey.1.1⟩
        rw [hnone] at hscope
        cases hscope
    · cases hg
  rw [Session.macro?, hown]
  dsimp only
  split
  · rfl
  · exact Option.bind_eq_none_iff.2 hother

/-- Declarations add none. -/
theorem redeclare (h : s.HasNoMacros r) (hs : s.Redeclares r scope s') : s'.HasNoMacros r where
  own := by rw [hs.registry.macros, h.own]
  others hin other q hq hne := by
    rw [hs.registry.inSession] at hin
    rw [publisher?, hs.published] at hq
    rw [hs.others q hne]
    exact h.others hin other q hq hne

end Session.HasNoMacros

namespace Expander

variable {β : Type} {x : Expander β} {scope : String}

theorem resolve_of_hasNoMacros {s : Session β} (h : s.HasNoMacros x.registry) (v : Value) :
    x.resolve s scope v = none := by
  unfold resolve
  split <;> simp [Session.lookup_eq_none h.macro?]

end Expander

/-! ## Going through a value -/

/-- What expansion without macros makes of a value. -/
structure Value.ExpandsAs (v : Value) (e : Expanded) : Prop where
  isLooseTree : v.isLooseTree = true
  changed : e.changed = v.isRewritten
  outline : e.value.outline = v.expandedOutline
  /-- A text stands for nothing but itself. -/
  text : ∀ s, e.value = .text s ↔ v = .text s

namespace Expander

open Value

section

variable {vs : List Value} {es : List Expanded} (h : List.Forall₂ ExpandsAs vs es)

include h

theorem areLooseTrees_of_expandsAs : areLooseTrees vs = true := by
  induction h with
  | nil => rfl
  | cons hv _ ih => rw [areLooseTrees, hv.isLooseTree, ih]; rfl

theorem any_changed : es.any (·.changed) = areRewritten vs := by
  induction h with
  | nil => rfl
  | cons hv _ ih => rw [List.any_cons, hv.changed, ih, areRewritten]

theorem outlineAll_values : outlineAll (es.map (·.value)) = expandedOutlineAll vs := by
  induction h with
  | nil => rfl
  | cons hv _ ih => rw [List.map_cons, outlineAll, hv.outline, ih, expandedOutlineAll]

theorem isClosed_values (name : String) : isClosed name (es.map (·.value)) = isClosed name vs := by
  have hempty : (es.map (·.value)).isEmpty = vs.isEmpty := by
    cases h <;> rfl
  rw [isClosed, hempty, isClosed]

theorem outline_call (name : String) (info info' : Info) :
    (call name (es.map (·.value)) info).outline = (call name vs info').expandedOutline := by
  rw [outline, expandedOutline, isClosed_values h, outlineAll_values h]

theorem expandsAs_tuple {e : Expanded} (hfinish : finishTuple es = .ok e) : (tuple vs).ExpandsAs e := by
  have hloose := areLooseTrees_of_expandsAs h
  have hchanged := any_changed h
  have houtline := outlineAll_values h
  unfold finishTuple at hfinish
  split at hfinish
  · rename_i hany
    rw [hany] at hchanged
    split at hfinish
    · rename_i left right more
      cases hfinish
      refine ⟨?_, hchanged, ?_, by simp [pair]⟩
      · have hsize : 2 ≤ vs.length := by
          rw [h.length_eq]
          simp
        simp [isLooseTree, hloose, hsize]
      · rw [expandedOutline, ← hchanged, if_pos rfl, ← houtline]
        rfl
    · cases hfinish
  · rename_i hany
    rw [Bool.not_eq_true] at hany
    rw [hany] at hchanged
    cases hfinish
    refine ⟨?_, hchanged, ?_, by simp⟩
    · simp [isLooseTree, hloose, ← hchanged]
    · rw [expandedOutline, ← hchanged, outline, houtline]
      rfl

end

variable {β : Type} {x : Expander β} {scope : String} {c c' : Compilation β}

/-- A declaration comes back with as many arguments as it has; the first one is the name of a module. -/
theorem outline_of_declare {form : String} {args : List Value} {info : Info} {v : Value}
    (hform : isDeclaration form = true) (h : x.declare scope form args info c = .ok v c') :
    v.outline = (Value.call form args info).outline ∧ ∃ args' info', v = .call form args' info' := by
  have hopen : ∀ args, isClosed form args = false := by
    intro args
    simp only [isDeclaration, Bool.or_eq_true, beq_iff_eq] at hform
    obtain (rfl | rfl) | rfl := hform <;> rfl
  unfold declare at h
  obtain ⟨_, _, -, h⟩ := bind_eq_ok.1 h
  obtain ⟨_, _, -, h⟩ := bind_eq_ok.1 h
  obtain ⟨_, _, -, h⟩ := bind_eq_ok.1 h
  obtain ⟨_, _, -, h⟩ := bind_eq_ok.1 h
  obtain ⟨written, _, hwritten, h⟩ := bind_eq_ok.1 h
  obtain ⟨_, _, -, h⟩ := bind_eq_ok.1 h
  have hlast : ∀ module c₁, (if info.isResolved then pure (Value.call form args info)
      else do
        let full ← ofExcept (Value.buildAtom module info)
        pure (Value.call form (full :: args.tail) info.markResolved) : Expand β Value) c₁ = .ok v c' →
      v.outline = (Value.call form args info).outline ∧ ∃ args' info', v = .call form args' info' := by
    intro module c₁ h
    split at h
    · cases h
      exact ⟨rfl, _, _, rfl⟩
    · obtain ⟨full, _, hfull, h⟩ := bind_eq_ok.1 h
      cases h
      cases eq_of_buildAtom (ofExcept_eq_ok.1 hfull).1
      have hname := (ofExcept_eq_ok.1 hwritten).1
      refine ⟨?_, _, _, rfl⟩
      rw [outline, outline, hopen, hopen]
      cases args with
      | nil => cases hname
      | cons first rest =>
        cases first with
        | atom | text => rfl
        | _ => cases hname
  dsimp only at h
  split at h
  · obtain ⟨_, _, -, h⟩ := bind_eq_ok.1 h
    obtain ⟨_, _, -, h⟩ := bind_eq_ok.1 h
    exact hlast _ _ h
  · obtain ⟨_, _, -, h⟩ := bind_eq_ok.1 h
    exact hlast _ _ h

variable {onMacro : Macro β → List Value → Info → Expand β Expanded}

/-- Without macros, the walk down the value leaves the session without macros and comes to what is due. -/
def WalksOutline (x : Expander β) (scope : String) (onMacro : Macro β → List Value → Info → Expand β Expanded)
    (v : Value) : Prop :=
  ∀ c c' e, c.session.HasNoMacros x.registry → x.walk scope onMacro v c = .ok e c' →
    c'.session.HasNoMacros x.registry ∧ v.ExpandsAs e

theorem expandsAs_walkAll {vs : List Value} (ih : ∀ v ∈ vs, WalksOutline x scope onMacro v) {es : List Expanded}
    (hc : c.session.HasNoMacros x.registry) (h : x.walkAll scope onMacro vs c = .ok es c') :
    c'.session.HasNoMacros x.registry ∧ List.Forall₂ ExpandsAs vs es := by
  induction vs generalizing c es with
  | nil =>
    cases h
    exact ⟨hc, .nil⟩
  | cons v vs ihvs =>
    rw [List.forall_mem_cons] at ih
    rw [walkAll] at h
    obtain ⟨e, c₁, he, h⟩ := bind_eq_ok.1 h
    obtain ⟨es', c₂, hes, h⟩ := bind_eq_ok.1 h
    cases h
    obtain ⟨hc₁, hv⟩ := ih.1 _ _ _ hc he
    obtain ⟨hc₂, hvs⟩ := ihvs ih.2 hc₁ hes
    exact ⟨hc₂, .cons hv hvs⟩

/-- What `var!` is applied to are a variable or an atom and perhaps the name of a scope. -/
theorem areLooseTrees_of_escapeArgs {args : List Value} {info : Info} {w : Value} (h : escapeArgs args info = .ok w) :
    areLooseTrees args = true ∧ ∃ name c i, w = var name c i := by
  have hescape : ∀ v target : Value, v.escape target = .ok w →
      v.isLooseTree = true ∧ ∃ name c i, w = var name c i := by
    intro v target h
    unfold escape at h
    split at h
    · obtain ⟨c, -, h⟩ := except_bind_eq_ok.1 h
      cases h
      exact ⟨rfl, _, c, _, rfl⟩
    · obtain ⟨c, -, h⟩ := except_bind_eq_ok.1 h
      cases h
      exact ⟨rfl, _, c, _, rfl⟩
    · cases h
  unfold escapeArgs at h
  split at h
  · obtain ⟨hv, hw⟩ := hescape _ _ h
    exact ⟨by simp [areLooseTrees, hv], hw⟩
  · obtain ⟨hv, hw⟩ := hescape _ _ h
    exact ⟨by simp [areLooseTrees, isLooseTree, hv], hw⟩
  · obtain ⟨hv, hw⟩ := hescape _ _ h
    exact ⟨by simp [areLooseTrees, isLooseTree, hv], hw⟩
  · cases h
  · cases h

theorem expandsAs_finishCall {name : String} {args : List Value} {info : Info} {es : List Expanded} {e : Expanded}
    (hopen : isClosed name args = false) (hc : c.session.HasNoMacros x.registry)
    (hargs : List.Forall₂ ExpandsAs args es) (h : x.finishCall scope name info es c = .ok e c') :
    c'.session.HasNoMacros x.registry ∧ (Value.call name args info).ExpandsAs e := by
  have hsealed : isSealed name = false := by
    simp only [isClosed, Bool.or_eq_false_iff] at hopen
    exact hopen.1.1
  have hloose : (Value.call name args info).isLooseTree = true := by
    rw [isLooseTree, hsealed, areLooseTrees_of_expandsAs hargs]
    rfl
  have hdeclares : c.Declares x.registry scope c' :=
    ((makes_finishCall (S := .common) name trivial fun _ _ => trivial).of_ok (.refl x.registry scope c) h).2
  refine ⟨hc.redeclare hdeclares.session, ?_⟩
  unfold finishCall at h
  split at h
  · rename_i hform
    obtain ⟨v, _, hdeclare, h⟩ := bind_eq_ok.1 h
    cases h
    obtain ⟨houtline, args', info', rfl⟩ := outline_of_declare hform hdeclare
    refine ⟨hloose, ?_, houtline.trans (outline_call hargs name info info), by simp⟩
    rw [isRewritten, hsealed, hopen, hform, any_changed hargs]
    rfl
  · rename_i hform
    cases h
    refine ⟨hloose, ?_, outline_call hargs name info info, by simp⟩
    rw [isRewritten, hsealed, hopen, Bool.eq_false_iff.2 hform, any_changed hargs]
    rfl

/-- A call that is replaced by something without parts. -/
theorem expandsAs_closed {name : String} {args : List Value} {w : Value} (info : Info)
    (hclosed : isClosed name args = true) (hsealed : isSealed name = false) (hargs : areLooseTrees args = true)
    (hw : w.outline = .leaf) (htext : ∀ s, w ≠ .text s) : (Value.call name args info).ExpandsAs ⟨w, true⟩ := by
  refine ⟨?_, ?_, ?_, by simp [htext]⟩
  · simp [isLooseTree, hargs]
  · simp [isRewritten, hsealed, hclosed]
  · simp [expandedOutline, hclosed, hw]

theorem walksOutline_call {name : String} {args : List Value} {info : Info}
    (ih : ∀ v ∈ args, WalksOutline x scope onMacro v) : WalksOutline x scope onMacro (.call name args info) := by
  intro c c' e hc h
  rw [walk, get_bind, resolve_of_hasNoMacros hc] at h
  dsimp only at h
  split at h
  · rename_i hsealed
    cases h
    exact ⟨hc, by simp [isLooseTree, hsealed], by simp [isRewritten, hsealed],
      by simp [outline, expandedOutline, isClosed, hsealed], by simp⟩
  rename_i hsealed
  rw [Bool.not_eq_true] at hsealed
  split at h
  · cases h
  split at h
  · rename_i hname
    obtain ⟨w, _, hescape, h⟩ := bind_eq_ok.1 h
    obtain ⟨hw, rfl⟩ := ofExcept_eq_ok.1 hescape
    cases h
    obtain ⟨hargs, _, _, _, rfl⟩ := areLooseTrees_of_escapeArgs hw
    exact ⟨hc, expandsAs_closed info (by simp [isClosed, hname]) hsealed hargs rfl (by simp)⟩
  rename_i hescape
  split at h
  · rename_i hmodule
    obtain ⟨w, _, hatom, h⟩ := bind_eq_ok.1 h
    obtain ⟨hw, rfl⟩ := ofExcept_eq_ok.1 hatom
    cases h
    cases eq_of_buildAtom hw
    have hargs : args = [] := List.isEmpty_iff.1 (Bool.and_eq_true_iff.1 hmodule).2
    have hclosed : isClosed name args = true := by rw [isClosed, hmodule, Bool.or_true]
    exact ⟨hc, expandsAs_closed info hclosed hsealed (by rw [hargs, areLooseTrees]) rfl (by simp)⟩
  rename_i hmodule
  have hopen : isClosed name args = false := by
    simp only [isClosed, hsealed, Bool.eq_false_iff.2 hescape, Bool.eq_false_iff.2 hmodule, Bool.or_false]
  obtain ⟨es, c₁, hes, h⟩ := bind_eq_ok.1 h
  obtain ⟨hc₁, hargs⟩ := expandsAs_walkAll ih hc hes
  exact expandsAs_finishCall hopen hc₁ hargs h

/-- A call is put together from its expanded head and arguments. -/
theorem expandsAs_finishApply {head : Value} {args : List Value} {info : Info} {head' e : Expanded}
    {es : List Expanded} (hloose : head.isLooseTree = true)
    (hchanged : head'.changed = if head.remote?.isSome then !head.isResolved else head.isRewritten)
    (houtline : head'.value.outline = head.expandedOutline) (htext : ∀ s, head'.value = .text s ↔ head = .text s)
    (hargs : List.Forall₂ ExpandsAs args es) (h : finishApply info head' es = .ok e) :
    (Value.apply head args info).ExpandsAs e := by
  obtain ⟨_, -, h⟩ := except_bind_eq_ok.1 h
  cases h
  refine ⟨?_, ?_, ?_, fun s => ?_⟩
  · rw [isLooseTree, hloose, areLooseTrees_of_expandsAs hargs]
    rfl
  · rw [isRewritten, hchanged, any_changed hargs]
  · by_cases hname : ∃ name, head = .text name
    · obtain ⟨name, rfl⟩ := hname
      rw [(htext name).2 rfl]
      exact outline_call hargs name info info
    · have hnode : withHead head'.value (es.map (·.value)) info = .apply head'.value (es.map (·.value)) info := by
        cases hhead : head'.value with
        | text s => exact absurd ⟨s, (htext s).1 hhead⟩ hname
        | _ => rfl
      rw [hnode, outline, expandedOutline, houtline, outlineAll_values hargs]
      · exact not_exists.1 hname
      · exact fun s hs => hname ⟨s, (htext s).1 hs⟩
  · cases head'.value <;> simp [withHead]

theorem expandsAs_expandHead {s : Session β} {ctx : Context} {head full : Value} {module function : String}
    (hremote : head.remote? = some (module, function))
    (h : x.expandHead s scope ctx head module function = .ok full) :
    head.isLooseTree = true ∧ full.outline = head.expandedOutline ∧ ∀ t, full = .text t ↔ head = .text t := by
  obtain ⟨i, rfl⟩ := Value.eq_of_remote? hremote
  unfold expandHead at h
  split at h
  · cases h
    exact ⟨rfl, rfl, fun _ => .rfl⟩
  · obtain ⟨m, hm, h⟩ := except_bind_eq_ok.1 h
    obtain ⟨f, hf, h⟩ := except_bind_eq_ok.1 h
    cases h
    cases eq_of_buildAtom hm
    cases eq_of_buildAtom hf
    exact ⟨rfl, rfl, by simp⟩

theorem walksOutline (v : Value) : WalksOutline x scope onMacro v := by
  induction v using treeInduction with
  | call name args info ih => exact walksOutline_call ih
  | apply head args info ihHead ih =>
    intro c c' e hc h
    rw [walk, get_bind, resolve_of_hasNoMacros hc] at h
    dsimp only at h
    cases hremote : head.remote? with
    | some remote =>
      obtain ⟨module, function⟩ := remote
      rw [hremote] at h
      obtain ⟨full, _, hfull, h⟩ := bind_eq_ok.1 h
      obtain ⟨hhead, rfl⟩ := ofExcept_eq_ok.1 hfull
      obtain ⟨es, c₁, hes, h⟩ := bind_eq_ok.1 h
      obtain ⟨hc₁, hargs⟩ := expandsAs_walkAll ih hc hes
      obtain ⟨hfinish, rfl⟩ := ofExcept_eq_ok.1 h
      obtain ⟨hloose, houtline, htext⟩ := expandsAs_expandHead hremote hhead
      exact ⟨hc₁, expandsAs_finishApply hloose (by simp [hremote]) houtline htext hargs hfinish⟩
    | none =>
      rw [hremote] at h
      obtain ⟨head', c₁, hhead, h⟩ := bind_eq_ok.1 h
      obtain ⟨hc₁, hexpands⟩ := ihHead _ _ _ hc hhead
      obtain ⟨es, c₂, hes, h⟩ := bind_eq_ok.1 h
      obtain ⟨hc₂, hargs⟩ := expandsAs_walkAll ih hc₁ hes
      obtain ⟨hfinish, rfl⟩ := ofExcept_eq_ok.1 h
      have hchanged : head'.changed = if head.remote?.isSome then !head.isResolved else head.isRewritten := by
        simp [hremote, hexpands.changed]
      exact ⟨hc₂, expandsAs_finishApply hexpands.isLooseTree hchanged hexpands.outline hexpands.text hargs hfinish⟩
  | list items ih =>
    intro c c' e hc h
    rw [walk] at h
    obtain ⟨es, c₁, hes, h⟩ := bind_eq_ok.1 h
    cases h
    obtain ⟨hc₁, hitems⟩ := expandsAs_walkAll ih hc hes
    refine ⟨hc₁, areLooseTrees_of_expandsAs hitems, any_changed hitems, ?_, by simp [finishList]⟩
    rw [finishList, outline, outlineAll_values hitems, expandedOutline]
  | tuple items ih =>
    intro c c' e hc h
    rw [walk] at h
    obtain ⟨es, c₁, hes, h⟩ := bind_eq_ok.1 h
    obtain ⟨hc₁, hitems⟩ := expandsAs_walkAll ih hc hes
    obtain ⟨hfinish, rfl⟩ := ofExcept_eq_ok.1 h
    exact ⟨hc₁, expandsAs_tuple hitems hfinish⟩
  | var | atom | number | text =>
    intro c c' e hc h
    cases h
    exact ⟨hc, rfl, rfl, rfl, fun _ => .rfl⟩
  | _ =>
    intro c c' e hc h
    cases h

/-- Where there are no macros, every value that expansion accepts is a tree outside its quotes and modules, apart from
the sizes of tuples, and comes back with the same lists, tuples and calls, nested in the same way and with the same
numbers of members. Only a tuple that is no pair may come back changed: if one of its members is rewritten, it has two
members at least, and its first two are left of it. So what comes back of a value in which all tuples are pairs has the
outline of the value; and no other value that is accepted is a tree, with its quotes and modules emptied. -/
theorem expandFrom_outline (x : Expander β) (depth : Int) (scope : String) (v r : Value) (c c' : Compilation β)
    (hnone : c.session.HasNoMacros x.registry) (h : x.expandFrom depth scope v c = .ok r c') :
    v.isLooseTree = true ∧ r.outline = v.expandedOutline ∧
      (v.emptied.isTree = true ↔ v.hasOnlyPairs = true) ∧ (v.hasOnlyPairs = true → r.outline = v.outline) := by
  rw [expandFrom_eq_expandWithin, map_eq_pure_bind] at h
  obtain ⟨e, c₁, hwalk, h⟩ := bind_eq_ok.1 h
  cases h
  have hexpands : v.ExpandsAs e := by
    cases hbudget : (x.maxDepth - depth).toNat with
    | zero =>
      rw [hbudget, expandWithin] at hwalk
      exact (walksOutline v _ _ _ hnone hwalk).2
    | succ budget =>
      rw [hbudget, expandWithin] at hwalk
      exact (walksOutline v _ _ _ hnone hwalk).2
  refine ⟨hexpands.isLooseTree, hexpands.outline, isTree_emptied_iff v hexpands.isLooseTree, fun hpairs => ?_⟩
  rw [hexpands.outline, expandedOutline_of_hasOnlyPairs v hpairs]

section

/-- A unit in a session in which nothing is defined. -/
def newCompilation : Compilation Value :=
  { session := { registries := [{ unit := "app" }] } }

def newExpander : Expander Value :=
  { registry := 0, maxDepth := 1, run := fun _ body _ => pure body }

theorem hasNoMacros_newCompilation : newCompilation.session.HasNoMacros 0 :=
  ⟨rfl, fun _ scope q hq => by cases hq⟩

/-- A list of a quote that holds no tree, of a call with a pair in which a module name is put in, and of a tuple of
three texts. -/
def looseCode (name : Value) : Value :=
  .list [.call "quote" [.tuple [.nothing]] {}, .call "f" [.pair name (.int 1)] {},
    .tuple [.text "a", .text "b", .text "c"]]

/-- The quote is not looked into, the pair stays a pair, and the tuple of three comes back as it is. -/
theorem expandFrom_outline_list :
    let v := looseCode (.call "__MODULE__" [] {})
    let r := looseCode (.atom "App")
    newCompilation.session.HasNoMacros 0 ∧ (∃ c', newExpander.expandFrom 0 "App" v newCompilation = .ok r c') ∧
      v.isLooseTree = true ∧ r.outline = v.expandedOutline ∧
      (v.emptied.isTree = true ↔ v.hasOnlyPairs = true) ∧ (v.hasOnlyPairs = true → r.outline = v.outline) := by
  intro v r
  have hvalue : (newExpander.expandFrom 0 "App" v).run' newCompilation = some r := by
    rw [expandFrom_eq_expandWithin]
    rfl
  obtain ⟨c', hrun⟩ := run'_eq_some.1 hvalue
  exact ⟨hasNoMacros_newCompilation, ⟨c', hrun⟩,
    expandFrom_outline newExpander 0 "App" v r newCompilation c' hasNoMacros_newCompilation hrun⟩

/-- A tuple of three is no tree, but it is accepted. If one of its members is rewritten, the third one is lost. -/
theorem tuple_of_three_is_accepted :
    let v := Value.tuple [.int 1, .int 2, .int 3]
    let w := Value.tuple [.call "__MODULE__" [] {}, .int 2, .int 3]
    newCompilation.session.HasNoMacros 0 ∧ v.emptied.isTree = false ∧ w.emptied.isTree = false ∧
      (newExpander.expandFrom 0 "App" v).run' newCompilation = some v ∧
      (newExpander.expandFrom 0 "App" w).run' newCompilation = some (.pair (.atom "App") (.int 2)) := by
  refine ⟨hasNoMacros_newCompilation, rfl, rfl, ?_, ?_⟩
  · rw [expandFrom_eq_expandWithin]
    rfl
  · rw [expandFrom_eq_expandWithin]
    rfl

end

end Expander

end MacroLang
