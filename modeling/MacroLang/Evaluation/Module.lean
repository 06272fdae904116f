import MacroLang.Log
import MacroLang.Scope.Declarations
import MacroLang.Scope.Definition

/-!
# Modules

A module has a name, declarations and functions. The world holds the modules that are loaded and the log.
Code may also run in a module that is not loaded; `Home` tells the two apart.
-/

namespace MacroLang

/-- A function defined in a module. -/
structure Function where
  module : String
  name : String
  params : List Variable
  body : List Value
  isPublic : Bool

namespace Function

def arity (f : Function) : Nat :=
  f.params.length

def describe (f : Function) : String :=
  "Function(" ++ (if f.isPublic then "def " else "defp ") ++ f.module ++ "."
    ++ Cause.signature f.name f.arity ++ ")"

end Function

/-- Where the declarations of a module are kept. -/
inductive DeclarationSource where
  | own (d : Declarations)
  /-- With the macros of a compilation unit, under the name of the scope. -/
  | registered (unit : Nat) (scope : String)

/-- The modules that nodes of a context import, by where the declarations are kept. -/
abbrev Imports := DeclarationSource → Context → List String

structure Module where
  name : String
  declarations : Option DeclarationSource := none
  /-- In the order of definition, at most one for a name and arity. -/
  functions : List Function := []

namespace Module

def function? (m : Module) (name : String) (arity : Nat) : Option Function :=
  m.functions.find? fun f => f.name == name && f.arity == arity

def addFunction (m : Module) (f : Function) : Module :=
  { m with functions := m.functions ++ [f] }

/-- The modules that a node of the given context imports. -/
def imports (m : Module) (imported : Imports) (c : Context) : List String :=
  match m.declarations with
  | some source => imported source c
  | none => []

end Module

structure World where
  modules : List Module := []
  log : Log := #[]

namespace World

def module? (w : World) (name : String) : Option Module :=
  w.modules.find? (·.name == name)

def isLoaded (w : World) (name : String) : Bool :=
  (w.module? name).isSome

def debug (w : World) (text : String) : World :=
  { w with log := w.log.debug text }

/-- Changes the loaded module of a name. -/
def updateModule (w : World) (name : String) (f : Module → Module) : World :=
  { w with modules := w.modules.map fun m => if m.name == name then f m else m }

/-- Adds a module without functions, unless one of that name is loaded. -/
def defineModule (w : World) (name : String) (declarations : Option DeclarationSource) :
    Except Error World :=
  if w.isLoaded name then .error (Cause.moduleDefined name).nowhere
  else .ok { w with modules := w.modules ++ [{ name, declarations }] }

def removeModule (w : World) (name : String) : World :=
  { w with modules := w.modules.filter (·.name != name) }

/-- Forgets the loaded module of a name. -/
def unload (w : World) (name : String) : World :=
  (w.removeModule name).debug ("Unloaded module " ++ name)

/-- The public function that a call by name finds in the first of some modules that has one. -/
def importedFunction? (w : World) (modules : List String) (name : String) (arity : Nat) :
    Option (String × Function) :=
  modules.findSome? fun module => do
    let m ← w.module? module
    let f ← m.function? name arity
    if f.isPublic then some (module, f) else none

theorem name_of_module? {w : World} {name : String} {m : Module} (h : w.module? name = some m) : m.name = name := by
  have hname := List.find?_some h
  exact eq_of_beq hname

theorem importedFunction?_eq_some {w : World} {modules : List String} {name owner : String} {arity : Nat}
    {f : Function} (h : w.importedFunction? modules name arity = some (owner, f)) :
    ∃ m, w.module? owner = some m ∧ m.function? name arity = some f ∧ f.isPublic = true := by
  obtain ⟨module, -, hmodule⟩ := List.exists_of_findSome?_eq_some h
  simp only [Option.bind_eq_bind, Option.bind_eq_some_iff] at hmodule
  obtain ⟨m, hm, g, hg, hfound⟩ := hmodule
  split at hfound
  · rename_i hpublic
    cases hfound
    exact ⟨m, hm, hg, hpublic⟩
  · cases hfound

end World

/-- The module that code runs in. -/
inductive Home where
  | loaded (name : String)
  | unlisted (module : Module)

namespace Home

def name : Home → String
  | loaded name => name
  | unlisted m => m.name

def module (w : World) : Home → Module
  | loaded name => (w.module? name).getD { name }
  | unlisted m => m

/-- Is this the loaded module of that name? -/
def isLoadedAs (name : String) : Home → Bool
  | loaded n => n == name
  | unlisted _ => false

/-- The loaded module of a scope or else, for want of one, an empty module with these declarations. -/
def ofScope (w : World) (scope : String) (declarations : Option DeclarationSource) : Home :=
  if w.isLoaded scope then loaded scope else unlisted { name := scope, declarations }

end Home

/-- Variables and their values, the latest binding first. -/
abbrev Env := List (Variable × Value)

namespace Env

def get? (env : Env) (x : Variable) : Option Value :=
  env.lookup x

def bind (env : Env) (x : Variable) (v : Value) : Env :=
  (x, v) :: env

/-- The bindings of parameters to arguments. -/
def ofArgs (params : List Variable) (args : List Value) : Env :=
  (params.zip args).foldl (fun env (x, v) => env.bind x v) []

end Env

end MacroLang
