import MacroLang.Evaluation.Module
import MacroLang.Registry.Session
import MacroLang.Tree.Hygiene

/-!
# Steps of expansion

Expansion replaces macro calls in a tree until none is left. This module has its steps: which macro a call means
(`Expander.resolve`), how a macro replaces a call (`Expander.invoke`), how the head of a call of another module is
written in full (`Expander.expandHead`), how declarations are recorded (`Expander.declare`), and how a value is put
together from expanded parts (`Expander.finishCall` and its kin).
-/

namespace MacroLang

/-- Something the user should know about. -/
structure Warning where
  code : String
  message : String
deriving DecidableEq, Repr

def Warning.text (w : Warning) : String :=
  w.code ++ ": " ++ w.message

/-- What expanding and running code can change. -/
structure Compilation (β : Type) where
  session : Session β := {}
  world : World := {}
  /-- In the order in which they came up. -/
  warnings : List Warning := []
  /-- How many times a macro was invoked. -/
  expansions : Nat := 0

namespace Compilation

variable {β : Type}

def debug (s : Compilation β) (text : String) : Compilation β :=
  { s with world := s.world.debug text }

end Compilation

/-- How warnings are logged. -/
inductive Notice where
  | silent
  | plain
  | announced
deriving DecidableEq, Repr

def Notice.log (n : Notice) (w : Warning) (log : Log) : Log :=
  match n with
  | silent => log
  | plain => log.warning w.text
  | announced => log.warning ("Warning: " ++ w.text)

/-- An expanded value, and whether it differs from what was there before. -/
structure Expanded where
  value : Value
  changed : Bool

abbrev Expand (β : Type) := EStateM Error (Compilation β)

structure Expander (β : Type) where
  /-- The number of the registry that calls are resolved in. -/
  registry : Nat
  maxDepth : Nat
  /-- Runs the body of a macro on the arguments of a call. -/
  run : Session β → β → List Value → EStateM Error World Value
  notice : Notice := .silent

def defaultMaxDepth : Nat := 256

/-- The bound on repeated expansion. It has to be positive. -/
def readMaxDepth : Option Int → Except Error Nat
  | some n => if n < 1 then .error (.usage (.maxDepth n)) else .ok n.toNat
  | none => .error .valueAbsent

/-- The forms that make a declaration. -/
def isDeclaration (name : String) : Bool :=
  name == "alias" || name == "import" || name == "require"

/-- The forms whose arguments are not expanded. -/
def isSealed (name : String) : Bool :=
  name == "quote" || name == "defmodule"

/-- The name of a module: an atom or a text. -/
def moduleName (info : Info) : Value → Except Error String
  | .atom name => .ok name
  | .text name =>
    if name.isEmpty then .error ((Cause.moduleExpected (.text name)).on info) else .ok name
  | v => .error ((Cause.moduleExpected v).on info)

/-- The short name that an alias with these arguments gives, if it gives one. -/
def shortName (info : Info) : List Value → Except Error (Option String)
  | [_, short] => some <$> moduleName info short
  | _ => .ok none

namespace Expand

variable {β : Type}

/-- Runs code that changes the world only. -/
def onWorld {α : Type} (code : EStateM Error World α) : Expand β α := fun s =>
  match code s.world with
  | .ok a w => .ok a { s with world := w }
  | .error e w => .error e { s with world := w }

def warn (notice : Notice) (w : Warning) : Expand β Unit :=
  modify fun s =>
    { s with
      warnings := s.warnings ++ [w]
      world := { s.world with log := notice.log w s.world.log } }

def setSession (session : Session β) : Expand β Unit :=
  modify fun s => { s with session }

/-- Makes a change to the session and logs it. -/
def change (f : Session β → Except Error (Session β)) (entry : String) : Expand β Unit := do
  setSession (← ofExcept (f (← get).session))
  modify (·.debug entry)

/-- Registers a macro. -/
def register (r : Nat) (m : Macro β) : Expand β Unit :=
  change (·.register r m) ("Registered " ++ m.describe)

/-- Records that a scope imports or requires a module. -/
def addDependency (r : Nat) (scope module : String) (c : Context) (imported : Bool) :
    Expand β Unit :=
  change (·.addDependency r scope module c imported)
    (scope ++ (if imported then " imports " else " requires ") ++ module
      ++ " (context " ++ c.describe ++ ")")

end Expand

namespace Expander

variable {β : Type}

/-- The macro that a call in a scope means, if any. -/
def resolve (x : Expander β) (s : Session β) (scope : String) : Value → Option (Macro β)
  | .call name args info =>
    s.lookup x.registry scope name args.length (info.context.getD .direct) none
  | .apply head args info => do
    let (module, name) ← head.remote?
    let c := info.context.getD .direct
    let module := if head.isResolved then module else s.resolveAlias x.registry scope module c
    s.lookup x.registry scope name args.length c (some module)
  | _ => none

/-- The tree that a macro makes of a call with these arguments and annotations. -/
def invoke (x : Expander β) (m : Macro β) (args : List Value) (info : Info) : Expand β Value := do
  let place := if info.location.isEmpty then "?" else info.location
  modify fun s =>
    { s.debug ("Expanding " ++ m.describe ++ " at " ++ place) with expansions := s.expansions + 1 }
  let session := (← get).session
  let result ← Expand.onWorld (x.run session m.body args)
  match result.validate with
  | .ok () => return result
  | .error (.located why _ _) => throw ((Cause.invalidResult m.name m.arity why).on info)
  | .error e => throw e

/-- The head of a call of another module's function with the module's full name. It is marked, so that the
aliases are consulted once only. -/
def expandHead (x : Expander β) (s : Session β) (scope : String) (c : Context) (head : Value)
    (module function : String) : Except Error Value :=
  if head.isResolved then .ok head
  else Value.buildRemote (s.resolveAlias x.registry scope module c) function
    head.infoD.markResolved

/-- Declares a short name, with a warning if it stood for another module. -/
def declareAlias (x : Expander β) (scope module : String) (short? : Option String) (c : Context) :
    Expand β Unit := do
  let s := (← get).session
  let (previous, table) ← ofExcept ((s.table x.registry scope).addAlias module short? c)
  Expand.setSession (s.update x.registry (·.updateTable scope fun _ => table))
  match previous with
  | some old =>
    if old != module then
      Expand.warn x.notice ⟨"MEX0102", "alias " ++ short?.getD (lastSegment module) ++ " in "
        ++ scope ++ " now refers to " ++ module ++ " instead of " ++ old⟩
  | none => pure ()
  modify (·.debug (scope ++ " aliases " ++ module ++ " (context " ++ c.describe ++ ")"))

/-- Checks how many arguments a declaration has. -/
def checkDeclaration (form : String) (count : Nat) (info : Info) : Except Error Unit :=
  if form == "alias" then
    if count = 1 ∨ count = 2 then .ok () else .error ((Cause.aliasArity count).on info)
  else if count = 1 then .ok () else .error ((Cause.dependencyArity form count).on info)

/-- Records a declaration made in a scope. The declaration comes back with the module's full name, marked so
that recording it again has the same effect. -/
def declare (x : Expander β) (scope form : String) (args : List Value) (info : Info) :
    Expand β Value := do
  let c := info.context.getD .direct
  Expand.setSession (← ofExcept ((← get).session.openScope x.registry scope))
  ofExcept (checkDeclaration form args.length info)
  let written ← ofExcept (moduleName info (args.headD .nothing))
  let table := (← get).session.table x.registry scope
  let module := if info.isResolved then written else table.resolve written c
  if form == "alias" then
    let short? ← ofExcept (shortName info args)
    declareAlias x scope module short? c
  else Expand.addDependency x.registry scope module c (form == "import")
  if info.isResolved then return .call form args info
  let full ← ofExcept (Value.buildAtom module info)
  return .call form (full :: args.tail) info.markResolved

/-! ## Putting values together -/

/-- Puts a call by name together. Declarations are recorded now. -/
def finishCall (x : Expander β) (scope name : String) (info : Info) (args : List Expanded) :
    Expand β Expanded := do
  let values := args.map (·.value)
  if isDeclaration name then
    return ⟨← x.declare scope name values info, !info.isResolved || args.any (·.changed)⟩
  return ⟨.call name values info, args.any (·.changed)⟩

/-- Puts a call with a node for its head together. -/
def finishApply (info : Info) (head : Expanded) (args : List Expanded) : Except Error Expanded := do
  Value.checkHead info head.value
  return ⟨Value.withHead head.value (args.map (·.value)) info,
    head.changed || args.any (·.changed)⟩

/-- Puts a list together. -/
def finishList (items : List Expanded) : Expanded :=
  ⟨.list (items.map (·.value)), items.any (·.changed)⟩

/-- Puts a tuple together. Once a member has changed, the result is a pair. -/
def finishTuple (items : List Expanded) : Except Error Expanded :=
  if items.any (·.changed) then
    match items with
    | left :: right :: _ => .ok ⟨.pair left.value right.value, true⟩
    | _ => .error (.tooShort "list")
  else .ok ⟨.tuple (items.map (·.value)), false⟩

end Expander

end MacroLang
