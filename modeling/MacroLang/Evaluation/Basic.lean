import MacroLang.Evaluation.Builtin
import MacroLang.Evaluation.Module
import MacroLang.Scope.SpecialForm
import MacroLang.Tree.Template

/-!
# Evaluation

A tree is evaluated in a machine: the world, the module that the code runs in, the variables bound so far, and
whether this is the body of a function. Evaluation goes down the tree; what lies outside the tree, the imports
and the bodies of functions, comes in through a `Linkage`. `applyWithin` ties the knot: a function body is
evaluated with one level of calls less.
-/

namespace MacroLang

structure Machine where
  world : World
  home : Home
  env : Env := []
  inFunction : Bool := false

abbrev Eval := EStateM Error Machine

/-- What evaluation needs from outside the tree. -/
structure Linkage where
  imported : Imports
  /-- Runs a function of a module on arguments. -/
  apply : Home → Function → List Value → Eval Value

/-- The forms that the evaluator itself handles. -/
inductive Form where
  | block | bind | branch | negation | conjunction | disjunction
  | quote | escape | currentModule
  | define | defineMacro | declare
deriving DecidableEq, Repr

def Form.ofName? : String → Option Form
  | "__block__" => some block
  | "=" => some bind
  | "if" => some branch
  | "not" => some negation
  | "and" => some conjunction
  | "or" => some disjunction
  | "quote" => some quote
  | "var!" => some escape
  | "__MODULE__" => some currentModule
  | "def" | "defp" => some define
  | "defmacro" | "defmacrop" => some defineMacro
  | "alias" | "import" | "require" => some declare
  | _ => none

namespace Eval

def lookup (x : Variable) (info : Info) : Eval Value := do
  match (← get).env.get? x with
  | some v => return v
  | none => throw ((Cause.undefinedVariable x.name x.context).on info)

def bind (x : Variable) (v : Value) : Eval Unit :=
  modify fun m => { m with env := m.env.bind x v }

/-- Runs code in another module with its own variables. Only the world is kept from it. -/
def inFrame {α : Type} (home : Home) (env : Env) (code : Eval α) : Eval α := fun m =>
  match code { world := m.world, home, env, inFunction := true } with
  | .ok a m' => .ok a { m with world := m'.world }
  | .error e m' => .error e { m with world := m'.world }

/-- Calls a function by its name alone: of the current module, of an imported one, or a built-in one. -/
def callLocal (link : Linkage) (name : String) (args : List Value) (info : Info) : Eval Value := do
  let m ← get
  let module := m.home.module m.world
  let arity := args.length
  match module.function? name arity with
  | some f => link.apply m.home f args
  | none =>
    let candidates := module.imports link.imported (info.context.getD .direct)
    match m.world.importedFunction? candidates name arity with
    | some (owner, f) => link.apply (.loaded owner) f args
    | none => match Builtin.find? name arity with
      | some b => ofExcept (b.run info args)
      | none => throw ((Cause.undefinedLocal name arity module.name).on info)

/-- Calls a function of a loaded module; a private one only from inside that module. -/
def callModule (link : Linkage) (inside : Bool) (module name : String) (args : List Value)
    (info : Info) : Eval Value := do
  let arity := args.length
  match (← get).world.module? module with
  | none => throw ((Cause.moduleMissing module name arity).on info)
  | some m => match m.function? name arity with
    | none => throw ((Cause.undefinedRemote module name arity).on info)
    | some f =>
      if f.isPublic || inside then link.apply (.loaded module) f args
      else throw ((Cause.undefinedRemote module name arity).on info)

/-- Calls a function by module and name. The built-in functions are those of the module `Kernel`. -/
def callRemote (link : Linkage) (inside : Bool) (module name : String) (args : List Value)
    (info : Info) : Eval Value :=
  match if module == "Kernel" then Builtin.find? name args.length else none with
  | some b => ofExcept (b.run info args)
  | none => callModule link inside module name args info

/-- Adds a function to the module that the code runs in. -/
def addFunction (f : Function) : Eval Unit :=
  modify fun m =>
    let m := match m.home with
      | .loaded name => { m with world := m.world.updateModule name (·.addFunction f) }
      | .unlisted module => { m with home := .unlisted (module.addFunction f) }
    { m with world := m.world.debug ("Defined " ++ f.describe) }

/-- Defines a function in the current module, outside of function bodies only. -/
def define (form : String) (args : List Value) (info : Info) : Eval Value := do
  let m ← get
  if m.inFunction then throw ((Cause.definitionInFunction form).on info)
  let d ← ofExcept (Definition.ofForm form args info)
  let module := m.home.module m.world
  if (module.function? d.name d.params.length).isSome then
    throw ((Cause.functionDefined d.name d.params.length module.name).on info)
  addFunction
    { module := module.name, name := d.name, params := d.params, body := d.body,
      isPublic := form == "def" }
  ofExcept (Value.buildAtom d.name {})

def arityError {α : Type} (form expected : String) (args : List Value) (info : Info) : Eval α :=
  throw ((Cause.formArity form expected args.length).on info)

end Eval

open Eval in
mutual

def evaluate (link : Linkage) : Value → Eval Value
  | .call name args info =>
    match Form.ofName? name with
    | some .block => evaluateBody link .nil args
    | some .bind => match args with
      | [.var x c _, e] => do
        let v ← evaluate link e
        bind ⟨x, c⟩ v
        return v
      | _ => throw (Cause.bindingShape.on info)
    | some .branch => match args with
      | [test, yes] => do
        if (← evaluate link test).isTruthy then evaluate link yes else return .nil
      | [test, yes, no] => do
        if (← evaluate link test).isTruthy then evaluate link yes else evaluate link no
      | _ => arityError name "2 or 3 arguments" args info
    | some .negation => match args with
      | [e] => do return .ofBool !(← evaluate link e).isTruthy
      | _ => arityError name "1 argument" args info
    | some .conjunction => evaluateWhile link true .yes args
    | some .disjunction => evaluateWhile link false .no args
    | some .quote => match args with
      | [e] => do
        let fragment ← evaluateQuoted link e
        ofExcept (fragment.quote (.quotedIn (← get).home.name))
      | _ => arityError name "1 argument" args info
    | some .escape => do
      match ← ofExcept (Value.escapeArgs args info) with
      | .var x c i => lookup ⟨x, c⟩ i
      | v => return v
    | some .currentModule => do ofExcept (Value.buildAtom (← get).home.name {})
    | some .define => define name args info
    | some .defineMacro => throw ((Cause.misplacedMacro name).on info)
    | some .declare => return args.head?.getD .nil
    | none =>
      if isSpecialForm name then throw ((Cause.unsupportedForm name).on info)
      else do
        let values ← evaluateAll link args
        callLocal link name values info
  | .apply head args info =>
    match head.remote? with
    | some (module, name) => do
      let values ← evaluateAll link args
      callRemote link ((← get).home.isLoadedAs module) module name values info
    | none => throw ((Cause.cannotCall head).on info)
  | .var name c info => lookup ⟨name, c⟩ info
  | .list items => do return .list (← evaluateAll link items)
  | .tuple items => match items with
    | left :: right :: _ => do
      let left ← evaluate link left
      let right ← evaluate link right
      return .pair left right
    | [only] => do
      let _ ← evaluate link only
      throw (.tooShort "tuple")
    | [] => throw (.tooShort "tuple")
  | v => do
    let _ ← ofExcept v.kind
    return v

/-- Evaluates one after the other and returns all values. -/
def evaluateAll (link : Linkage) : List Value → Eval (List Value)
  | [] => return []
  | e :: es => do
    let v ← evaluate link e
    let vs ← evaluateAll link es
    return v :: vs

/-- Evaluates one after the other and returns the last value. -/
def evaluateBody (link : Linkage) (last : Value) : List Value → Eval Value
  | [] => return last
  | e :: es => do
    let v ← evaluate link e
    evaluateBody link v es

/-- Evaluates one after the other as long as the values are as true as `goOn`, and returns the last value. -/
def evaluateWhile (link : Linkage) (goOn : Bool) (last : Value) : List Value → Eval Value
  | [] => return last
  | e :: es => do
    let v ← evaluate link e
    if v.isTruthy == goOn then evaluateWhile link goOn v es else return v

/-- The fragment that a quote is made from: the operands of `unquote` are evaluated and become placeholders, and
inner quotes are left alone. -/
def evaluateQuoted (link : Linkage) : Value → Eval Value
  | .call name args info =>
    match name with
    | "unquote" => match args with
      | [e] => do return .unquote (← evaluate link e) info
      | _ => arityError name "1 argument" args info
    | "unquote_splicing" => match args with
      | [e] => do return .splice (← evaluate link e) info
      | _ => arityError name "1 argument" args info
    | "var!" => ofExcept (Value.escapeArgs args info)
    | "quote" => return .call name args info
    | name => do return .call name (← evaluateQuotedAll link args) info
  | .apply head args info => do
    let head ← evaluateQuoted link head
    let args ← evaluateQuotedAll link args
    return .apply head args info
  | .list items => do return .list (← evaluateQuotedAll link items)
  | .tuple items => match items with
    | left :: right :: _ => do
      let left ← evaluateQuoted link left
      let right ← evaluateQuoted link right
      return .pair left right
    | _ => throw (.tooShort "tuple")
  | v => return v

def evaluateQuotedAll (link : Linkage) : List Value → Eval (List Value)
  | [] => return []
  | e :: es => do
    let v ← evaluateQuoted link e
    let vs ← evaluateQuotedAll link es
    return v :: vs

end

/-- Runs a function whose calls may nest at most `depth` deep. -/
def applyWithin (imported : Imports) : Nat → Home → Function → List Value → Eval Value
  | 0, _, _, _ => throw .callDepth
  | depth + 1, home, f, args =>
    Eval.inFrame home (Env.ofArgs f.params args)
      (evaluateBody ⟨imported, applyWithin imported depth⟩ .nil f.body)

/-- The linkage under which calls may nest at most `depth` deep. -/
def Linkage.within (imported : Imports) (depth : Nat) : Linkage where
  imported := imported
  apply := applyWithin imported depth

end MacroLang
