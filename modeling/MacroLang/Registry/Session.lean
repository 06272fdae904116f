import MacroLang.Registry.Basic

/-!
# Sessions

A session numbers the registries of its units and records which unit published each scope. A unit reads the
scopes that others published and changes only its own. `Session.lookup` says which macro a call means:

* a scope sees its own macros, private ones included;
* it sees the public macros of a scope that it imports, and of one that it imports or requires if the call
  names the module;
* code from a quote of a scope also sees that scope's public macros and what that scope imports.
-/

namespace MacroLang

structure Session (β : Type) where
  registries : List (Registry β) := []
  /-- Scopes and the number of the registry that published them, in the order of publication. -/
  published : List (String × Nat) := []

namespace Session

variable {β : Type}

def registry (s : Session β) (r : Nat) : Registry β :=
  (s.registries[r]?).getD { unit := "" }

/-- Adds a registry. Its number is the number of registries before it. -/
def addRegistry (s : Session β) (registry : Registry β) : Session β :=
  { s with registries := s.registries ++ [registry] }

def update (s : Session β) (r : Nat) (f : Registry β → Registry β) : Session β :=
  { s with registries := s.registries.modify r f }

def publisher? (s : Session β) (scope : String) : Option Nat :=
  s.published.lookup scope

def isPublished (s : Session β) (scope : String) : Bool :=
  (s.publisher? scope).isSome

/-- The registry of another unit from which registry `r` reads a scope. -/
def otherRegistry? (s : Session β) (r : Nat) (scope : String) : Option (Registry β) :=
  if (s.registry r).inSession then do
    let owner ← s.publisher? scope
    if owner = r then none else some (s.registry owner)
  else none

/-! ## Changes -/

def checkWritable (s : Session β) (r : Nat) (scope : String) (info : Info) : Except Error Unit :=
  let registry := s.registry r
  if registry.frozen then .error ((Cause.registryFinalized registry.unit scope).on info)
  else if registry.inSession && s.isPublished scope then
    .error ((Cause.scopeFinalized scope).on info)
  else .ok ()

/-- Adds a macro to its scope. -/
def register (s : Session β) (r : Nat) (m : Macro β) : Except Error (Session β) := do
  if isSpecialForm m.name then throw ((Cause.specialForm m.name m.arity).on m.info)
  s.checkWritable r m.scope m.info
  if ((s.registry r).macro? m.scope m.name m.arity).isSome then
    throw ((Cause.duplicateMacro m.scope m.name m.arity).on m.info)
  return s.update r (·.addMacro m)

/-- Makes sure that a scope of the unit has declarations. -/
def openScope (s : Session β) (r : Nat) (scope : String) : Except Error (Session β) := do
  if (s.registry r).owns scope then return s
  s.checkWritable r scope {}
  return s.update r (·.withTable scope)

/-- The declarations of an open scope of the unit. -/
def table (s : Session β) (r : Nat) (scope : String) : Declarations :=
  ((s.registry r).table? scope).getD { scope }

def addDependency (s : Session β) (r : Nat) (scope module : String) (c : Context)
    (imported : Bool) : Except Error (Session β) := do
  let s ← s.openScope r scope
  return s.update r (·.updateTable scope fun d =>
    if imported then d.addImport module c else d.addRequire module c)

/-- Keeps a scope of the unit from being published. -/
def hideScope (s : Session β) (r : Nat) (scope : String) : Session β :=
  s.update r fun registry => { registry with unshared := registry.unshared ++ [scope] }

def freeze (s : Session β) (r : Nat) : Session β :=
  s.update r fun registry => { registry with frozen := true }

/-- The first of some scopes that another unit published, with that unit's registry. -/
def conflict? (s : Session β) (r : Nat) (scopes : List String) : Option (String × Registry β) :=
  scopes.findSome? fun scope => do
    let owner ← s.publisher? scope
    if owner = r then none else some (scope, s.registry owner)

def addPublished (r : Nat) (published : List (String × Nat)) (scope : String) :
    List (String × Nat) :=
  if (published.lookup scope).isSome then published else published ++ [(scope, r)]

/-- Freezes a registry and publishes its scopes, all or, if another unit published one of them, none. -/
def publish (s : Session β) (r : Nat) : Session β × Except Error Unit :=
  let s := s.freeze r
  let scopes := (s.registry r).sharedScopes
  match s.conflict? r scopes with
  | some (scope, owner) =>
    (s, .error (Cause.scopeConflict scope owner.unit (s.registry r).unit).nowhere)
  | none => ({ s with published := scopes.foldl (addPublished r) s.published }, .ok ())

/-! ## Reading -/

/-- The declarations of a scope, as unit `r` sees them. -/
def declarationsFor (s : Session β) (r : Nat) (scope : String) : Option Declarations :=
  match (s.registry r).table? scope with
  | some d => some d
  | none => (s.otherRegistry? r scope).bind (·.table? scope)

/-- The macro of a scope, as unit `r` sees it. A scope of the unit hides a published one of that name. -/
def macro? (s : Session β) (r : Nat) (scope name : String) (arity : Nat) : Option (Macro β) :=
  match (s.registry r).macro? scope name arity with
  | some m => some m
  | none =>
    if (s.registry r).owns scope then none
    else (s.otherRegistry? r scope).bind (·.macro? scope name arity)

def publicMacro? (s : Session β) (r : Nat) (scope name : String) (arity : Nat) :
    Option (Macro β) :=
  (s.macro? r scope name arity).filter (·.isPublic)

/-- The modules that nodes of a context import in a scope. -/
def importsOf (s : Session β) (r : Nat) (scope : String) (c : Context) : List String :=
  ((s.declarationsFor r scope).map (·.imports c)).getD []

def dependsOn (s : Session β) (r : Nat) (scope module : String) (c : Context) : Bool :=
  (s.declarationsFor r scope).any (·.dependsOn module c)

/-- The full name of a module, as a node of a context means it in a scope. -/
def resolveAlias (s : Session β) (r : Nat) (scope module : String) (c : Context) : String :=
  ((s.declarationsFor r scope).map (·.resolve module c)).getD module

/-- The first public macro of this name and arity in some modules. -/
def firstPublic? (s : Session β) (r : Nat) (modules : List String) (name : String) (arity : Nat) :
    Option (Macro β) :=
  modules.findSome? fun module => s.publicMacro? r module name arity

/-- The macro that code quoted in a scope sees there: a public one of that scope, unless the caller is the scope
itself, or one of a module that the scope imports. -/
def lookupOrigin (s : Session β) (r : Nat) (caller origin name : String) (arity : Nat) :
    Option (Macro β) :=
  (if origin = caller then none else s.publicMacro? r origin name arity).or
    (s.firstPublic? r (s.importsOf r origin .direct) name arity)

/-- The macro that a call by name means. -/
def lookupLocal (s : Session β) (r : Nat) (caller name : String) (arity : Nat) (c : Context) :
    Option (Macro β) :=
  (s.macro? r caller name arity).or <|
    (s.firstPublic? r (s.importsOf r caller c) name arity).or <|
      match c with
      | .direct => none
      | .quotedIn origin => s.lookupOrigin r caller origin name arity

/-- May a node of this context in scope `caller` name the public macros of a module? -/
def mayName (s : Session β) (r : Nat) (caller module : String) (c : Context) : Bool :=
  s.dependsOn r caller module c ||
    match c with
    | .direct => false
    | .quotedIn origin => origin == module || s.dependsOn r origin module .direct

/-- The macro that a call by module and name means. -/
def lookupRemote (s : Session β) (r : Nat) (caller module name : String) (arity : Nat)
    (c : Context) : Option (Macro β) :=
  (s.macro? r module name arity).filter fun m =>
    module == caller || m.isPublic && s.mayName r caller module c

/-- The macro that a call in scope `caller` means, if any. -/
def lookup (s : Session β) (r : Nat) (caller name : String) (arity : Nat) (c : Context)
    (module? : Option String) : Option (Macro β) :=
  if isSpecialForm name then none
  else match module? with
    | some module => s.lookupRemote r caller module name arity c
    | none => s.lookupLocal r caller name arity c

end Session

end MacroLang
