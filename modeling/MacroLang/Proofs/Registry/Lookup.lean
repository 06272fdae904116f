import MacroLang.Proofs.Registry.Invariant

/-!
# The visibility rule

For a unit, a scope is as its own registry has it, if it has the scope, and otherwise as the registry that published it
has it (`Session.authority?`). A call by name means the first macro along a list of candidates (`Session.candidates`):
the scope of the caller, the modules that it imports for nodes of the call's context, and for a call from a quote the
scope of the quote and the modules imported there. Everywhere but in the caller's scope only public macros count. A call
by module and name means a public macro of a module that may be named (`Session.MayName`), or any macro of the caller's
own scope. In every session that commands can lead to, look-up is exactly this rule.

Main statement: `lookup_eq_visible`.
-/

namespace MacroLang

variable {β : Type}

namespace Session

/-- The registry by which unit `r` knows a scope. -/
def authority? (s : Session β) (r : Nat) (scope : String) : Option (Registry β) :=
  if (s.registry r).owns scope then some (s.registry r) else (s.publisher? scope).map s.registry

/-- The definition of a macro in a scope, as unit `r` knows it. -/
def definition? (s : Session β) (r : Nat) (scope name : String) (arity : Nat) : Option (Macro β) :=
  (s.authority? r scope).bind (·.macro? scope name arity)

/-- The declarations of a scope, as unit `r` knows them. -/
def declarations? (s : Session β) (r : Nat) (scope : String) : Option Declarations :=
  (s.authority? r scope).bind (·.table? scope)

/-- The modules that nodes of a context import in a scope, in the order of declaration. -/
def importedIn (s : Session β) (r : Nat) (scope : String) (c : Context) : List String :=
  ((s.declarations? r scope).map (·.imports c)).getD []

/-- In the scope, a node of the context imported or required the module. -/
def DependsIn (s : Session β) (r : Nat) (scope module : String) (c : Context) : Prop :=
  ∃ d, s.declarations? r scope = some d ∧ d.dependsOn module c = true

/-- A scope in which a call by name looks for a macro. -/
structure Candidate where
  scope : String
  /-- Do private macros count too? -/
  privateToo : Bool

/-- Scopes in which only public macros count. -/
def publicOnly (scopes : List String) : List Candidate :=
  scopes.map (⟨·, false⟩)

/-- The scopes in which a call by name looks for a macro, in this order. -/
def candidates (s : Session β) (r : Nat) (caller : String) (c : Context) : List Candidate :=
  ⟨caller, true⟩ :: (publicOnly (s.importedIn r caller c) ++
    match c with
    | .direct => []
    | .quotedIn origin => publicOnly (origin :: s.importedIn r origin .direct))

/-- The macro that a call of this name and arity finds in a candidate. -/
def offer? (s : Session β) (r : Nat) (name : String) (arity : Nat) (k : Candidate) : Option (Macro β) :=
  (s.definition? r k.scope name arity).filter fun m => k.privateToo || m.isPublic

/-- A node of the context in scope `caller` may name the public macros of a module. -/
def MayName (s : Session β) (r : Nat) (caller module : String) (c : Context) : Prop :=
  s.DependsIn r caller module c ∨
    ∃ origin, c = .quotedIn origin ∧ (origin = module ∨ s.DependsIn r origin module .direct)

variable {s : Session β} {r : Nat} {caller name : String} {arity : Nat} {c : Context}

theorem scope_of_definition? {scope : String} {m : Macro β} (h : s.definition? r scope name arity = some m) :
    m.scope = scope := by
  obtain ⟨g, -, hm⟩ := Option.bind_eq_some_iff.1 h
  exact (Registry.key_of_macro? hm).2.1

/-- Where a scope has no macro, its public macros need not be looked for. -/
theorem offer?_of_definition? {scope : String} (h : s.definition? r scope name arity = none) (privateToo : Bool) :
    s.offer? r name arity ⟨scope, privateToo⟩ = none := by
  rw [offer?, h, Option.filter_none]

namespace Consistent

/-! ## One registry for each scope -/

theorem macro?_eq (hs : s.Consistent) (scope : String) :
    s.macro? r scope name arity = s.definition? r scope name arity := by
  unfold definition? authority?
  cases howns : (s.registry r).owns scope with
  | true =>
    rw [if_pos rfl, Option.bind_some, macro?, howns, if_pos rfl]
    cases (s.registry r).macro? scope name arity with
    | some m => rfl
    | none => rfl
  | false => rw [if_neg Bool.false_ne_true, hs.macro?_of_not_owns howns, Option.bind_map]; rfl

theorem declarationsFor_eq (hs : s.Consistent) (scope : String) :
    s.declarationsFor r scope = s.declarations? r scope := by
  unfold declarations? authority? declarationsFor
  cases howns : (s.registry r).owns scope with
  | true =>
    obtain ⟨d, hd⟩ := Option.isSome_iff_exists.1 howns
    rw [if_pos rfl, Option.bind_some, hd]
  | false =>
    have hnone : (s.registry r).table? scope = none := by simpa [Registry.owns] using howns
    rw [if_neg Bool.false_ne_true, hnone, hs.otherRegistry?_of_not_owns howns]

theorem importsOf_eq (hs : s.Consistent) (scope : String) (c : Context) :
    s.importsOf r scope c = s.importedIn r scope c := by
  rw [importsOf, hs.declarationsFor_eq, importedIn]

theorem dependsOn_iff (hs : s.Consistent) {scope module : String} :
    s.dependsOn r scope module c = true ↔ s.DependsIn r scope module c := by
  rw [dependsOn, hs.declarationsFor_eq, DependsIn]
  cases s.declarations? r scope with
  | none => simp
  | some d => simp

/-! ## Calls by name -/

theorem publicMacro?_eq (hs : s.Consistent) (scope : String) :
    s.publicMacro? r scope name arity = s.offer? r name arity ⟨scope, false⟩ := by
  rw [publicMacro?, hs.macro?_eq, offer?]
  simp only [Bool.false_or]

theorem firstPublic?_eq (hs : s.Consistent) (modules : List String) :
    s.firstPublic? r modules name arity = (publicOnly modules).findSome? (s.offer? r name arity) := by
  unfold firstPublic? publicOnly
  rw [List.findSome?_map]
  simp only [hs.publicMacro?_eq]
  rfl

theorem lookupOrigin_eq (hs : s.Consistent) {origin : String} (h : s.definition? r caller name arity = none) :
    s.lookupOrigin r caller origin name arity =
      (publicOnly (origin :: s.importedIn r origin .direct)).findSome? (s.offer? r name arity) := by
  rw [lookupOrigin, hs.publicMacro?_eq, hs.firstPublic?_eq, hs.importsOf_eq]
  conv => rhs; rw [publicOnly, List.map_cons, List.findSome?_cons]
  split
  · rename_i horigin
    rw [horigin, offer?_of_definition? h, Option.none_or]
    rfl
  · cases s.offer? r name arity ⟨origin, false⟩ with
    | some m => rfl
    | none => rfl

theorem lookupLocal_eq (hs : s.Consistent) :
    s.lookupLocal r caller name arity c = (s.candidates r caller c).findSome? (s.offer? r name arity) := by
  have hown : s.offer? r name arity ⟨caller, true⟩ = s.definition? r caller name arity := by
    rw [offer?]
    cases s.definition? r caller name arity with
    | none => rfl
    | some m => rfl
  unfold lookupLocal candidates
  rw [hs.macro?_eq, hs.firstPublic?_eq, hs.importsOf_eq, List.findSome?_cons, hown]
  cases hdefinition : s.definition? r caller name arity with
  | some m => rfl
  | none =>
    rw [Option.none_or, List.findSome?_append]
    cases c with
    | direct => rfl
    | quotedIn origin =>
      dsimp only
      rw [hs.lookupOrigin_eq hdefinition]

/-! ## Calls by module and name -/

theorem mayName_iff (hs : s.Consistent) {module : String} :
    s.mayName r caller module c = true ↔ s.MayName r caller module c := by
  unfold mayName MayName
  rw [Bool.or_eq_true, hs.dependsOn_iff]
  cases c with
  | direct => simp
  | quotedIn origin =>
    rw [Bool.or_eq_true, beq_iff_eq, hs.dependsOn_iff]
    simp

theorem lookupRemote_eq_some_iff (hs : s.Consistent) {module : String} {m : Macro β} :
    s.lookupRemote r caller module name arity c = some m ↔
      s.definition? r module name arity = some m ∧
        (module = caller ∨ m.isPublic = true ∧ s.MayName r caller module c) := by
  rw [lookupRemote, hs.macro?_eq, Option.filter_eq_some_iff, Bool.or_eq_true, beq_iff_eq, Bool.and_eq_true,
    hs.mayName_iff]

end Consistent

/-- Private macros count in the first candidate only. -/
theorem scope_of_candidate {k : Candidate} (hk : k ∈ s.candidates r caller c) (hprivate : k.privateToo = true) :
    k.scope = caller := by
  have hpublic : ∀ scopes, k ∉ publicOnly scopes := by
    intro scopes hmem
    obtain ⟨scope, -, rfl⟩ := List.mem_map.1 hmem
    cases hprivate
  rcases List.mem_cons.1 hk with rfl | hk
  · rfl
  · rcases List.mem_append.1 hk with hk | hk
    · exact absurd hk (hpublic _)
    · cases c with
      | direct => cases hk
      | quotedIn origin => exact absurd hk (hpublic _)

theorem lookup_of_name (h : isSpecialForm name = false) :
    s.lookup r caller name arity c none = s.lookupLocal r caller name arity c :=
  if_neg (Bool.eq_false_iff.1 h)

theorem lookup_of_module {module : String} (h : isSpecialForm name = false) :
    s.lookup r caller name arity c (some module) = s.lookupRemote r caller module name arity c :=
  if_neg (Bool.eq_false_iff.1 h)

/-- In every session that commands lead to, for every unit, caller and context:

* the name of a special form is no macro;
* a call by name means the first macro that a candidate offers, and none just if no candidate offers one;
* a call by module and name means the macro that the module defines, just if there is one and the module is the caller's
  own scope, or the macro is public and the module may be named;
* hence a private macro is found from its own scope only. -/
theorem lookup_eq_visible (commands : List (Command β)) (r : Nat) (caller name : String) (arity : Nat) (c : Context) :
    let s := ofCommands commands
    (isSpecialForm name = true → ∀ module?, s.lookup r caller name arity c module? = none) ∧
    (isSpecialForm name = false →
      (∀ m, s.lookup r caller name arity c none = some m ↔
        ∃ before k after, s.candidates r caller c = before ++ k :: after ∧ s.offer? r name arity k = some m ∧
          ∀ j ∈ before, s.offer? r name arity j = none) ∧
      (s.lookup r caller name arity c none = none ↔ ∀ k ∈ s.candidates r caller c, s.offer? r name arity k = none) ∧
      ∀ module m, s.lookup r caller name arity c (some module) = some m ↔
        s.definition? r module name arity = some m ∧
          (module = caller ∨ m.isPublic = true ∧ s.MayName r caller module c)) ∧
    ∀ module? m, s.lookup r caller name arity c module? = some m → m.isPublic = false → m.scope = caller := by
  intro s
  have hs : s.Consistent := consistent_ofCommands commands
  have hspecial : isSpecialForm name = true → ∀ module?, s.lookup r caller name arity c module? = none :=
    fun h module? => if_pos h
  refine ⟨hspecial, fun hordinary => ?_, fun module? m hm hprivate => ?_⟩
  · refine ⟨fun m => ?_, ?_, fun module m => ?_⟩
    · rw [lookup_of_name hordinary, hs.lookupLocal_eq, List.findSome?_eq_some_iff]
    · rw [lookup_of_name hordinary, hs.lookupLocal_eq, List.findSome?_eq_none_iff]
    · rw [lookup_of_module hordinary, hs.lookupRemote_eq_some_iff]
  · cases hname : isSpecialForm name with
    | true => rw [hspecial hname] at hm; cases hm
    | false =>
      cases module? with
      | some module =>
        rw [lookup_of_module hname] at hm
        obtain ⟨hdefinition, hseen⟩ := hs.lookupRemote_eq_some_iff.1 hm
        rcases hseen with rfl | ⟨hpublic, -⟩
        · exact scope_of_definition? hdefinition
        · rw [hprivate] at hpublic; cases hpublic
      | none =>
        rw [lookup_of_name hname] at hm
        obtain ⟨k, hk, hoffer⟩ := List.exists_of_findSome?_eq_some (hs.lookupLocal_eq ▸ hm)
        obtain ⟨hdefinition, hcounts⟩ := Option.filter_eq_some_iff.1 hoffer
        rw [hprivate, Bool.or_false] at hcounts
        rw [scope_of_definition? hdefinition, scope_of_candidate hk hcounts]

end Session

end MacroLang
