import MacroLang.Build.Files
import MacroLang.Build.Unit

/-!
# The compiler

Compiles files and groups of units, and calls functions of what was compiled.
-/

namespace MacroLang

/-- Compiles a file, as it is named or from one of the include paths. -/
def compileFile (o : Settings) (files : Files) (name : String) (runScript : Bool) :
    Compile CompiledUnit := do
  let (path, located) ← ofExcept (files.find o.includePaths name)
  report o ("Reading " ++ path.text ++ "...")
  let source ← ofExcept (Files.textOf path located)
  compile o path.text runScript source

/-- Compiles units in order. The first one that fails is the last one compiled. -/
def compileInOrder (o : Settings) : List (String × String) → Compile (List CompiledUnit)
  | [] => return []
  | (filename, source) :: rest => do
    let u ← compile o filename true source
    let us ← compileInOrder o rest
    return u :: us

/-- Compiles units that do not depend on each other. All are compiled; the first failure is reported. -/
def compileApart (o : Settings) : List (String × String) → Compile (List CompiledUnit)
  | [] => return []
  | (filename, source) :: rest => fun c =>
    match compile o filename true source c with
    | .error e c => match compileApart o rest c with
      | .ok _ c | .error _ c => .error e c
    | .ok u c => match compileApart o rest c with
      | .ok us c => .ok (u :: us) c
      | .error e c => .error e c

/-- Compiles several units, given as file names and sources: in order with one job, and otherwise apart. -/
def compileUnits (o : Settings) (units : List (String × String)) :
    Compile (List CompiledUnit) := do
  let some jobs := o.jobs | throw .valueAbsent
  let jobs : Int := if jobs ≤ 0 then o.processors else jobs
  if jobs = 1 || units.length ≤ 1 then compileInOrder o units
  else
    report o ("Compiling " ++ toString units.length ++ " units with " ++ toString jobs ++ " workers")
    compileApart o units

/-- Splits the name of a function at its last dot. -/
def splitFunction (name : String) : Except Error (String × String) :=
  let function := lastSegment name
  let module := String.ofList (name.toList.take (name.length - function.length - 1))
  if function.isEmpty || module.isEmpty then .error (.usage (.functionName name))
  else .ok (module, function)

/-- Calls a public function by its full name. -/
def callFunction (o : Settings) (name : String) (args : List Value) : Compile Value := do
  let (module, function) ← ofExcept (splitFunction name)
  let link := o.linkage (← get).session
  Expand.onWorld (World.call link module function args {})

end MacroLang
