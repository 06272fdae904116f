import Mathlib.Logic.Relation
import MacroLang.Proofs.Registry.Redeclaration

/-!
# Operations on the registries of a session

A session is asked for new registries, each registry for changes, and at any time a registry may be frozen or published
(`Session.Command`). Some commands are refused, and what a command did before it was refused stays done. Whatever is
asked, a registry moves by few kinds of steps: a scope is opened or a macro is registered, both only where the scope may
be written to, the declarations of a scope are changed, a scope is hidden, or the registry is frozen (`Registry.Step`).
Besides, a registry can be added, and the scopes of a frozen one can be published, if no other one published any of them
(`Session.Step`).

Main statement: `Session.reaches_run`, any commands come to a sequence of such steps.
-/

namespace MacroLang

variable {β : Type}

/-- A change that a registry is asked to make. -/
inductive Operation (β : Type) where
  /-- Add a macro. -/
  | register (m : Macro β)
  /-- Add a macro whose visibility and parameters are yet to be read. -/
  | define (scope name : String) (params : List Value) (body : β) (visibility : String) (info : Info)
  /-- Give a scope declarations. -/
  | openScope (scope : String)
  /-- Declare a short name in a scope. -/
  | addAlias (scope module : String) (short? : Option String) (c : Context)
  /-- Record that a scope imports or requires a module. -/
  | addDependency (scope module : String) (c : Context) (imported : Bool)
  /-- Keep a scope from being published. -/
  | hideScope (scope : String)

namespace Session

variable {s s' : Session β} {r : Nat} {scope : String}

/-- The session after a change, or as it was if the change is refused. -/
def attempt (s : Session β) : Except Error (Session β) → Session β × Except Error Unit
  | .ok s' => (s', .ok ())
  | .error e => (s, .error e)

/-- Declares a short name in an open scope of the unit. -/
def addAlias (s : Session β) (r : Nat) (scope module : String) (short? : Option String) (c : Context) :
    Except Error (Session β) := do
  let (_, table) ← (s.table r scope).addAlias module short? c
  return s.update r (·.updateTable scope fun _ => table)

/-- What registry `r` makes of an operation. -/
def perform (s : Session β) (r : Nat) : Operation β → Session β × Except Error Unit
  | .register m => s.attempt (s.register r m)
  | .define scope name params body visibility info => s.attempt do
    let isPublic ← Macro.readVisibility visibility
    s.register r { scope, name, params := params.map Macro.paramName, body, isPublic, info }
  | .openScope scope => s.attempt (s.openScope r scope)
  | .addAlias scope module short? c =>
    match s.openScope r scope with
    | .ok s => s.attempt (s.addAlias r scope module short? c)
    | .error e => (s, .error e)
  | .addDependency scope module c imported => s.attempt (s.addDependency r scope module c imported)
  | .hideScope scope =>
    let s := s.hideScope r scope
    s.attempt (s.openScope r scope)

/-- The session after registry `r` was asked for some operations, one after the other. -/
def performAll (s : Session β) (r : Nat) (operations : List (Operation β)) : Session β :=
  operations.foldl (fun s op => (s.perform r op).1) s

/-- What a session is asked to do. -/
inductive Command (β : Type) where
  | newRegistry (unit : String)
  | change (r : Nat) (op : Operation β)
  | freeze (r : Nat)
  | publish (r : Nat)

/-- The session after a command, which may have been refused. -/
def next (s : Session β) : Command β → Session β
  | .newRegistry unit => s.addRegistry { unit }
  | .change r op => (s.perform r op).1
  | .freeze r => s.freeze r
  | .publish r => (s.publish r).1

def run (s : Session β) (commands : List (Command β)) : Session β :=
  commands.foldl next s

/-- The session that commands make of an empty one. -/
def ofCommands (commands : List (Command β)) : Session β :=
  run {} commands

/-! ## Steps -/

/-- May registry `r` change this scope? -/
structure Writable (s : Session β) (r : Nat) (scope : String) : Prop where
  unfrozen : (s.registry r).frozen = false
  unpublished : (s.registry r).inSession = true → s.isPublished scope = false

theorem checkWritable_eq_ok {info : Info} : s.checkWritable r scope info = .ok () ↔ s.Writable r scope := by
  unfold checkWritable
  dsimp only
  constructor
  · intro h
    split at h
    · cases h
    · split at h
      · cases h
      · rename_i hfrozen hpublished
        exact ⟨Bool.eq_false_iff.2 hfrozen, fun hin => by simpa [hin] using hpublished⟩
  · intro h
    rw [if_neg (Bool.eq_false_iff.1 h.unfrozen), if_neg]
    rw [Bool.and_eq_true, not_and, Bool.not_eq_true]
    exact h.unpublished

end Session

/-- A step of a registry, where `writable` says which scopes it may change. -/
inductive Registry.Step (writable : String → Prop) (g : Registry β) : Registry β → Prop where
  | openScope {scope : String} : writable scope → g.owns scope = false → Step writable g (g.withTable scope)
  | register {m : Macro β} : writable m.scope → isSpecialForm m.name = false →
      g.macro? m.scope m.name m.arity = none → Step writable g (g.addMacro m)
  /-- Declarations are changed in every scope that there is, whether or not it may be written to. -/
  | redeclare {scope : String} {f : Declarations → Declarations} :
      (∀ d, d.scope = scope → (f d).scope = scope) → Step writable g (g.updateTable scope f)
  | hide (scope : String) : Step writable g { g with unshared := g.unshared ++ [scope] }
  | freeze : Step writable g { g with frozen := true }

namespace Session

variable {s s' : Session β} {r : Nat} {scope : String}

/-- A step of a session. -/
inductive Step (s : Session β) : Session β → Prop where
  | newRegistry (unit : String) : Step s (s.addRegistry { unit })
  | change {r : Nat} {f : Registry β → Registry β} : r < s.registries.length →
      (s.registry r).Step (s.Writable r) (f (s.registry r)) → Step s (s.update r f)
  | publish {r : Nat} : (s.registry r).frozen = true →
      (∀ scope ∈ (s.registry r).sharedScopes, ∀ q, s.publisher? scope = some q → q = r) →
      Step s { s with published := (s.registry r).sharedScopes.foldl (addPublished r) s.published }

/-- The session comes to `s'` by steps. -/
abbrev Reaches : Session β → Session β → Prop :=
  Relation.ReflTransGen Step

theorem reaches_update {f : Registry β → Registry β}
    (h : (s.registry r).Step (s.Writable r) (f (s.registry r))) : s.Reaches (s.update r f) := by
  rcases Nat.lt_or_ge r s.registries.length with hr | hr
  · exact .single (.change hr h)
  · rw [update_of_le s f hr]

theorem reaches_attempt {outcome : Except Error (Session β)} (h : ∀ s', outcome = .ok s' → s.Reaches s') :
    s.Reaches (s.attempt outcome).1 := by
  cases outcome with
  | ok s' => exact h s' rfl
  | error e => exact .refl

theorem reaches_openScope (h : s.openScope r scope = .ok s') : s.Reaches s' := by
  unfold openScope at h
  split at h
  · cases h
    exact .refl
  · rename_i howns
    obtain ⟨_, hwritable, h⟩ := except_bind_eq_ok.1 h
    cases h
    exact reaches_update (.openScope (checkWritable_eq_ok.1 hwritable) (Bool.eq_false_iff.2 howns))

/-- A macro is registered in a scope that may be written to, where there is none under its key. -/
theorem register_eq_ok {m : Macro β} (h : s.register r m = .ok s') :
    (s.Writable r m.scope ∧ isSpecialForm m.name = false ∧ (s.registry r).macro? m.scope m.name m.arity = none) ∧
      s' = s.update r (·.addMacro m) := by
  unfold register at h
  dsimp only at h
  split at h
  · cases h
  · rename_i hspecial
    obtain ⟨_, hwritable, h⟩ := except_bind_eq_ok.1 h
    split at h
    · cases h
    · rename_i hnew
      cases h
      refine ⟨⟨checkWritable_eq_ok.1 hwritable, Bool.eq_false_iff.2 hspecial, ?_⟩, rfl⟩
      simpa using hnew

theorem reaches_register {m : Macro β} (h : s.register r m = .ok s') : s.Reaches s' := by
  obtain ⟨⟨hwritable, hspecial, hnew⟩, rfl⟩ := register_eq_ok h
  exact reaches_update (.register hwritable hspecial hnew)

theorem reaches_addAlias {module : String} {short? : Option String} {c : Context}
    (h : s.addAlias r scope module short? c = .ok s') : s.Reaches s' := by
  unfold addAlias at h
  obtain ⟨⟨previous, table⟩, htable, h⟩ := except_bind_eq_ok.1 h
  cases h
  refine reaches_update (.redeclare fun _ _ => ?_)
  rw [Declarations.scope_of_addAlias htable, scope_table]

theorem reaches_addDependency {module : String} {c : Context} {imported : Bool}
    (h : s.addDependency r scope module c imported = .ok s') : s.Reaches s' := by
  unfold addDependency at h
  obtain ⟨s₁, hopen, h⟩ := except_bind_eq_ok.1 h
  cases h
  refine (reaches_openScope hopen).trans (reaches_update (.redeclare fun d hd => ?_))
  split
  · exact hd
  · exact hd

theorem reaches_perform (s : Session β) (r : Nat) (op : Operation β) : s.Reaches (s.perform r op).1 := by
  cases op with
  | register m => exact reaches_attempt fun _ => reaches_register
  | define scope name params body visibility info =>
    refine reaches_attempt fun _ h => ?_
    obtain ⟨isPublic, -, h⟩ := except_bind_eq_ok.1 h
    exact reaches_register h
  | openScope scope => exact reaches_attempt fun _ => reaches_openScope
  | addAlias scope module short? c =>
    unfold perform
    dsimp only
    split
    · rename_i s₁ hopen
      exact (reaches_openScope hopen).trans (reaches_attempt fun _ => reaches_addAlias)
    · exact .refl
  | addDependency scope module c imported => exact reaches_attempt fun _ => reaches_addDependency
  | hideScope scope =>
    have hhidden : s.Reaches (s.hideScope r scope) := reaches_update (.hide scope)
    exact hhidden.trans (reaches_attempt fun _ => reaches_openScope)

theorem reaches_freeze (s : Session β) (r : Nat) : s.Reaches (s.freeze r) :=
  reaches_update .freeze

/-- There is no conflict just if no other registry published any of the scopes. -/
theorem conflict?_eq_none {scopes : List String} :
    s.conflict? r scopes = none ↔ ∀ scope ∈ scopes, ∀ q, s.publisher? scope = some q → q = r := by
  unfold conflict?
  rw [List.findSome?_eq_none_iff]
  refine forall₂_congr fun scope _ => ?_
  cases s.publisher? scope with
  | none => simp
  | some owner => simp

theorem reaches_publish (s : Session β) (r : Nat) : s.Reaches (s.publish r).1 := by
  refine (s.reaches_freeze r).trans ?_
  unfold publish
  dsimp only
  split
  · exact .refl
  · rename_i hconflict
    rcases Nat.lt_or_ge r s.registries.length with hr | hr
    · refine .single (.publish ?_ (conflict?_eq_none.1 hconflict))
      rw [freeze, registry_update_self s r _ hr]
    · -- a registry that there is not has no scopes to publish
      rw [freeze, update_of_le s _ hr, registry_of_le s hr]
      exact .refl

theorem reaches_next (s : Session β) (command : Command β) : s.Reaches (s.next command) := by
  cases command with
  | newRegistry unit => exact .single (.newRegistry unit)
  | change r op => exact s.reaches_perform r op
  | freeze r => exact s.reaches_freeze r
  | publish r => exact s.reaches_publish r

/-- Any commands come to a sequence of steps. -/
theorem reaches_run (s : Session β) (commands : List (Command β)) : s.Reaches (s.run commands) := by
  induction commands generalizing s with
  | nil => exact .refl
  | cons command commands ih => exact (s.reaches_next command).trans (ih (s.next command))

end Session

end MacroLang
