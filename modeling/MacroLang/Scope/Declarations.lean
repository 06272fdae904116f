import MacroLang.Error

/-!
# Declarations of a scope

A scope declares short names for modules, imports and requirements. Every declaration remembers the context
of the node that made it and holds for nodes of that context only.
-/

namespace MacroLang

/-- A short name for a module. -/
structure Alias where
  short : String
  context : Context
  module : String
deriving DecidableEq, Repr

/-- A module that a scope imports or requires. -/
structure Dependency where
  module : String
  context : Context
deriving DecidableEq, Repr

/-- The declarations of one scope, each kind in the order of declaration. -/
structure Declarations where
  scope : String
  aliases : List Alias := []
  imported : List Dependency := []
  required : List Dependency := []
deriving DecidableEq, Repr

/-- The part of a module name behind its last dot. -/
def lastSegment (module : String) : String :=
  String.ofList (module.toList.reverse.takeWhile (· ≠ '.')).reverse

/-- The parts of a module name before and behind its first dot. -/
def splitFirst (name : String) : String × String :=
  let first := name.toList.takeWhile (· ≠ '.')
  (String.ofList first, String.ofList (name.toList.drop (first.length + 1)))

namespace Declarations

/-- The module that a short name stands for. -/
def alias? (d : Declarations) (short : String) (c : Context) : Option String :=
  (d.aliases.find? fun a => a.short == short && a.context == c).map (·.module)

/-- Does some alias of this context already stand for the module? -/
def isTarget (d : Declarations) (module : String) (c : Context) : Bool :=
  d.aliases.any fun a => a.context == c && a.module == module

/-- Puts an alias in the place of the one with the same short name and context, or at the end. -/
def putAlias (new : Alias) : List Alias → List Alias
  | [] => [new]
  | a :: rest =>
    if a.short == new.short && a.context == new.context then new :: rest else a :: putAlias new rest

/-- Declares a short name, by default the last segment of the module name. The module that the name stood
for before comes back too. -/
def addAlias (d : Declarations) (module : String) (short? : Option String) (c : Context) :
    Except Error (Option String × Declarations) :=
  let short := short?.getD (lastSegment module)
  if short.toList.contains '.' then .error (Cause.aliasName short).nowhere
  else .ok (d.alias? short c, { d with aliases := putAlias ⟨short, c, module⟩ d.aliases })

/-- The full name of a module whose first segment may be a short name. A name that an alias of this context
already stands for is kept. -/
def resolve (d : Declarations) (name : String) (c : Context) : String :=
  if d.isTarget name c then name
  else
    let (first, rest) := splitFirst name
    match d.alias? first c with
    | none => name
    | some module => if rest.isEmpty then module else module ++ "." ++ rest

def addDependency (new : Dependency) (ds : List Dependency) : List Dependency :=
  if ds.contains new then ds else ds ++ [new]

def addImport (d : Declarations) (module : String) (c : Context) : Declarations :=
  { d with imported := addDependency ⟨module, c⟩ d.imported }

def addRequire (d : Declarations) (module : String) (c : Context) : Declarations :=
  { d with required := addDependency ⟨module, c⟩ d.required }

/-- The modules imported by nodes of a context, in the order of declaration. -/
def imports (d : Declarations) (c : Context) : List String :=
  (d.imported.filter (·.context == c)).map (·.module)

/-- Did a node of this context import or require the module? -/
def dependsOn (d : Declarations) (module : String) (c : Context) : Bool :=
  d.required.contains ⟨module, c⟩ || d.imported.contains ⟨module, c⟩

/-- Every module that the scope requires or imports, once, requirements first. -/
def dependencies (d : Declarations) : List String :=
  ((d.required ++ d.imported).map (·.module)).foldl
    (fun seen module => if seen.contains module then seen else seen ++ [module]) []

def describe (d : Declarations) : String :=
  "DeclarationTable(" ++ d.scope ++ ", " ++ toString d.aliases.length ++ " aliases, "
    ++ toString d.imported.length ++ " imports, " ++ toString d.required.length ++ " requires)"

end Declarations

end MacroLang
