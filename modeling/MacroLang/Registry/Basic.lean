import MacroLang.Scope.Declarations
import MacroLang.Scope.SpecialForm

/-!
# Registries

A compilation unit registers its macros, each under a scope, a name and an arity, and the declarations of its
scopes. What a macro body is, is left open: `β`.
-/

namespace MacroLang

structure Macro (β : Type) where
  scope : String
  name : String
  params : List String
  body : β
  isPublic : Bool := true
  info : Info := {}

namespace Macro

variable {β : Type}

def arity (m : Macro β) : Nat :=
  m.params.length

def describe (m : Macro β) : String :=
  "Macro(" ++ (if m.isPublic then "defmacro " else "defmacrop ") ++ m.scope ++ "."
    ++ Cause.signature m.name m.arity ++ ")"

/-- Is the macro registered under this scope, name and arity? -/
def hasKey (m : Macro β) (scope name : String) (arity : Nat) : Bool :=
  m.scope == scope && m.name == name && m.arity == arity

/-- The name that a parameter is registered under. -/
def paramName : Value → String
  | .var name _ _ => name
  | .atom name => name
  | .text s => s
  | v => v.describe

/-- Reads the visibility of a macro; true for a public one. -/
def readVisibility : String → Except Error Bool
  | "public" => .ok true
  | "private" => .ok false
  | s => .error (.usage (.visibility s))

end Macro

/-- The macros and declarations of one compilation unit. -/
structure Registry (β : Type) where
  unit : String
  /-- Does the unit see what other units published? -/
  inSession : Bool := true
  frozen : Bool := false
  /-- In the order of registration. -/
  macros : List (Macro β) := []
  /-- The declarations of each scope, in the order in which the scopes came up. -/
  tables : List Declarations := []
  /-- The scopes that are not published. -/
  unshared : List String := []

namespace Registry

variable {β : Type}

def macro? (r : Registry β) (scope name : String) (arity : Nat) : Option (Macro β) :=
  r.macros.find? (·.hasKey scope name arity)

def table? (r : Registry β) (scope : String) : Option Declarations :=
  r.tables.find? (·.scope == scope)

def owns (r : Registry β) (scope : String) : Bool :=
  (r.table? scope).isSome

def scopes (r : Registry β) : List String :=
  r.tables.map (·.scope)

def sharedScopes (r : Registry β) : List String :=
  r.scopes.filter fun scope => !r.unshared.contains scope

def macrosOf (r : Registry β) (scope : String) : List (Macro β) :=
  r.macros.filter (·.scope == scope)

/-- Gives the scope a table, if it has none. -/
def withTable (r : Registry β) (scope : String) : Registry β :=
  if r.owns scope then r else { r with tables := r.tables ++ [{ scope }] }

def updateTable (r : Registry β) (scope : String) (f : Declarations → Declarations) : Registry β :=
  { r with tables := r.tables.map fun d => if d.scope == scope then f d else d }

/-- Adds a macro and makes its scope one of the unit. -/
def addMacro (r : Registry β) (m : Macro β) : Registry β :=
  { r with macros := r.macros ++ [m] }.withTable m.scope

def describe (r : Registry β) : String :=
  "MacroRegistry(" ++ r.unit ++ ", " ++ toString r.macros.length ++ " macros, "
    ++ (if r.frozen then "frozen)" else "open)")

end Registry

end MacroLang
