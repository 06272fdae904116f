import MacroLang.Evaluation.Run
import MacroLang.Expansion.WorkStack
import MacroLang.Source.Reader

/-!
# Compilation units

A unit is compiled scope by scope: the body of each module, and around them the script. The forms of a scope are
expanded in order, which registers its macros and compiles its modules; what is left is run, which defines a
module's functions or is the script itself. When all went well the macros of the unit are published. When it
did not, the modules that the unit loaded are unloaded.
-/

namespace MacroLang

/-- The scope of the script. -/
def scriptScope : String := "__top__"

structure Settings where
  maxDepth : Option Int := some defaultMaxDepth
  verbose : Bool := false
  /-- Directories to search for sources. -/
  includePaths : List String := []
  jobs : Option Int := some 1
  /-- How many units are compiled at once if the number of jobs does not say. -/
  processors : Nat := 8
  /-- How deep function calls may nest. -/
  callDepth : Nat := 1000000

structure CompiledUnit where
  filename : String
  /-- The number of the unit's registry. -/
  registry : Nat
  modules : List String
  /-- The expanded forms of each scope, in the order in which the scopes were finished. -/
  expanded : List (String × List Value)
  result : Value

namespace CompiledUnit

def formsOf (u : CompiledUnit) (scope : String) : List Value :=
  (u.expanded.lookup scope).getD []

def script (u : CompiledUnit) : List Value :=
  u.formsOf scriptScope

/-- The expanded forms as source text, each module behind a comment with its name. -/
def render (u : CompiledUnit) : String :=
  "\n".intercalate <| u.expanded.flatMap fun (scope, forms) =>
    (if scope == scriptScope then [] else ["; module " ++ scope])
      ++ forms.map (·.render false)

/-- The expanded forms as source text, unless a number in them is too long. -/
def write (u : CompiledUnit) : Except Error String := do
  u.expanded.forM fun (_, forms) => forms.forM Value.checkWritable
  return u.render

end CompiledUnit

/-- The modules that a declaration source imports, read from the registries of a session. -/
def Session.imports {β : Type} (s : Session β) : Imports
  | .own d, c => d.imports c
  | .registered unit scope, c => (((s.registry unit).table? scope).map (·.imports c)).getD []

/-- The state in which a unit is being compiled. -/
structure Building where
  compilation : Compilation MacroBody
  modules : List String := []
  expanded : List (String × List Value) := []
  /-- The modules loaded so far, last one first. -/
  loaded : List String := []

abbrev Build := EStateM Error Building

abbrev Compile := Expand MacroBody

namespace Settings

def linkage (o : Settings) (s : Session MacroBody) : Linkage :=
  .within s.imports o.callDepth

/-- The expander of the unit with the given registry. -/
def expander (o : Settings) (registry maxDepth : Nat) : Expander MacroBody where
  registry := registry
  maxDepth := maxDepth
  run := fun s body args => World.runMacro (o.linkage s) body args
  notice := .announced

end Settings

namespace Build

/-- Runs code that knows nothing of the unit. -/
def lift {α : Type} (code : Compile α) : Build α := fun b =>
  match code b.compilation with
  | .ok a c => .ok a { b with compilation := c }
  | .error e c => .error e { b with compilation := c }

end Build

/-- Logs progress, if that is wanted. -/
def report (o : Settings) (text : String) : Compile Unit := do
  if o.verbose then
    modify fun s => { s with world := { s.world with log := s.world.log.info text } }

mutual

/-- The forms in a form: blocks stand for their members. -/
def spliceBlocks : Value → List Value
  | .call name args info =>
    if name == "__block__" then spliceBlocksAll args else [.call name args info]
  | v => [v]

def spliceBlocksAll : List Value → List Value
  | [] => []
  | v :: vs => spliceBlocks v ++ spliceBlocksAll vs

end

namespace Build

/-- Registers the macro that a form defines in a scope. -/
def defineMacro (r : Nat) (scope form : String) (args : List Value) (info : Info) : Build Unit := do
  let d ← ofExcept (Definition.ofForm form args info)
  let session ← ofExcept ((← get).compilation.session.openScope r scope)
  lift (Expand.setSession session)
  lift (Expand.register r
    { scope, name := d.name, params := d.params.map (·.name), isPublic := form == "defmacro", info
      body := ⟨scope, d.params, d.body, some (.registered r scope)⟩ })

/-- Deals with an expanded form: modules are compiled and macros registered, all others are kept. -/
def item (r : Nat) (onModule : List Value → Info → Build Unit) (scope : String) (v : Value) :
    Build (List Value) :=
  match v with
  | .call "defmodule" args info => do
    onModule args info
    return []
  | .call "defmacro" args info => do
    defineMacro r scope "defmacro" args info
    return []
  | .call "defmacrop" args info => do
    defineMacro r scope "defmacrop" args info
    return []
  | v => return [v]

def items (r : Nat) (onModule : List Value → Info → Build Unit) (scope : String) :
    List Value → Build (List Value)
  | [] => return []
  | v :: vs => do
    let kept ← item r onModule scope v
    let rest ← items r onModule scope vs
    return kept ++ rest

/-- Expands forms in order and deals with what comes out of each before the next one is expanded. -/
def forms (x : Expander MacroBody) (onModule : List Value → Info → Build Unit) (scope : String) :
    List Value → Build (List Value)
  | [] => return []
  | v :: vs => do
    let v ← lift (x.expand scope v)
    let kept ← items x.registry onModule scope (spliceBlocks v)
    let rest ← forms x onModule scope vs
    return kept ++ rest

/-- Expands the forms of a scope. -/
def expandScope (o : Settings) (x : Expander MacroBody) (onModule : List Value → Info → Build Unit)
    (scope : String) (vs : List Value) : Build (List Value) := do
  lift (report o ("Expanding " ++ scope))
  forms x onModule scope vs

/-- Warns of functions that no call can reach because a macro of that name and arity comes first. -/
def warnShadowed (x : Expander MacroBody) (module : String) : List Function → Build Unit
  | [] => return ()
  | f :: fs => do
    match (← get).compilation.session.lookup x.registry module f.name f.arity .direct none with
    | some m =>
      lift (Expand.warn x.notice ⟨"MEX0101", "function " ++ module ++ "."
        ++ Cause.signature f.name f.arity ++ " is shadowed by macro " ++ m.scope ++ "."
        ++ Cause.signature m.name m.arity⟩)
    | none => pure ()
    warnShadowed x module fs

/-- Refuses the name of a module that there is already. -/
def checkNew (r : Nat) (name : String) (info : Info) : Build Unit := do
  let c := (← get).compilation
  if (c.session.registry r).owns name || c.session.isPublished name || c.world.isLoaded name then
    throw ((Cause.moduleDefined name).on info)

/-- Compiles a module: expands its body and loads what is left. -/
def module (o : Settings) (x : Expander MacroBody) (args : List Value) (info : Info) :
    Build Unit := do
  match args with
  | [] => throw (Cause.moduleNameMissing.on info)
  | first :: body =>
    let name ← ofExcept (moduleName info first)
    checkNew x.registry name info
    let session ← ofExcept ((← get).compilation.session.openScope x.registry name)
    lift (Expand.setSession session)
    modify fun b => { b with modules := b.modules ++ [name] }
    lift (report o ("Compiling module " ++ name))
    let nested := fun _ info => throw ((Cause.nestedModule name).on info)
    let kept ← expandScope o x nested name body
    modify fun b => { b with expanded := b.expanded ++ [(name, kept)] }
    lift (report o ("Lowering " ++ name))
    let link := o.linkage (← get).compilation.session
    lift (Expand.onWorld (World.load link name kept (some (.registered x.registry name))))
    modify fun b => { b with loaded := name :: b.loaded }
    let functions := ((← get).compilation.world.module? name).map (·.functions)
    warnShadowed x name (functions.getD [])

end Build

/-- Runs the expanded script of a unit in a module of its own and returns its last value. -/
def runForms (o : Settings) (registry : Nat) (forms : List Value) : Compile Value := do
  report o ("Lowering " ++ scriptScope)
  let link := o.linkage (← get).session
  Expand.onWorld (World.script link
    (.unlisted { name := scriptScope, declarations := some (.registered registry scriptScope) })
    forms)

def runUnit (o : Settings) (u : CompiledUnit) : Compile Value :=
  runForms o u.registry u.script

/-- Publishes the macros of a unit. -/
def publish (registry : Nat) : Compile Unit := do
  let (session, outcome) := (← get).session.publish registry
  Expand.setSession session
  ofExcept outcome
  modify (·.debug ("Published " ++ (session.registry registry).describe))

/-- Compiles the forms of a unit and returns the value of its script. -/
def Build.unit (o : Settings) (x : Expander MacroBody) (runScript : Bool) (vs : List Value) :
    Build Value := do
  let script ← expandScope o x (module o x) scriptScope vs
  modify fun b => { b with expanded := b.expanded ++ [(scriptScope, script)] }
  let result ← if runScript then lift (runForms o x.registry script) else pure .nil
  lift (publish x.registry)
  return result

/-- Opens the registry of a new unit. Its script scope is not published. -/
def openUnit (filename : String) : Compile Nat := do
  let s := (← get).session
  let r := s.registries.length
  let s := (s.addRegistry { unit := filename }).hideScope r scriptScope
  Expand.setSession s
  Expand.setSession (← ofExcept (s.openScope r scriptScope))
  return r

/-- Runs the compilation of a unit; if it fails, the modules it loaded are unloaded, last one first. -/
def finishUnit (filename : String) (registry : Nat) (code : Build Value) : Compile CompiledUnit :=
  fun c => match code { compilation := c } with
  | .ok result b =>
    .ok { filename, registry, modules := b.modules, expanded := b.expanded, result } b.compilation
  | .error e b =>
    .error e { b.compilation with world := b.loaded.foldl World.unload b.compilation.world }

def compileForms (o : Settings) (filename : String) (runScript : Bool) (source : String) :
    Compile CompiledUnit := do
  report o ("Parsing " ++ filename ++ "...")
  let vs ← ofExcept (readSource filename source)
  let r ← openUnit filename
  let maxDepth ← ofExcept (readMaxDepth o.maxDepth)
  modify fun c => { c with expansions := 0 }
  let u ← finishUnit filename r (Build.unit o (o.expander r maxDepth) runScript vs)
  let c ← get
  report o ("Compiled " ++ filename ++ ": " ++ toString u.modules.length ++ " modules, "
    ++ toString (c.session.registry r).macros.length ++ " macros, " ++ toString c.expansions
    ++ " expansions")
  return u

/-- Compiles a source text. Errors name the file. -/
def compile (o : Settings) (filename : String) (runScript : Bool) (source : String) :
    Compile CompiledUnit := fun c =>
  match compileForms o filename runScript source c with
  | .ok u c => .ok u c
  | .error e c => .error (e.inFile filename) c

end MacroLang
