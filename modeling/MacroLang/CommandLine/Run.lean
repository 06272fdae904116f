import MacroLang.Build.Compiler
import MacroLang.CommandLine.Options

/-!
# A run of the compiler from the command line

The included files are compiled first, then the input. Its expanded source or the value of its script is printed, and
the value of a function, if one is to be called. The log and the error, if any, go to the error output.
-/

namespace MacroLang.CommandLine

structure Outcome where
  exit : Nat
  out : String
  err : String
  /-- An error that is no fault of the source or the arguments. It is not reported but left to the caller. -/
  escaped : Option Error := none

def Options.settings (o : Options) : Settings where
  maxDepth := o.maxDepth
  verbose := o.verbose
  jobs := o.jobs

/-- The lines printed so far are kept when a later step fails. -/
structure Run where
  compilation : Compilation MacroBody := {}
  printed : List String := []

abbrev RunM := EStateM Error Run

def lift {α : Type} (code : Compile α) : RunM α := fun r =>
  match code r.compilation with
  | .ok a c => .ok a { r with compilation := c }
  | .error e c => .error e { r with compilation := c }

def print (line : String) : RunM Unit :=
  modify fun r => { r with printed := r.printed ++ [line] }

/-- Reads the included files, all before any is compiled. -/
def readIncluded (files : Files) : List (Option String) → Except Error (List (String × String))
  | [] => .ok []
  | none :: _ => .error .valueAbsent
  | some name :: rest => do
    let (path, located) ← files.find [] name
    let text ← Files.textOf path located
    let units ← readIncluded files rest
    return (path.text, text) :: units

def run (o : Options) (files : Files) : RunM Unit := do
  let settings := o.settings
  let units ← ofExcept (readIncluded files o.included)
  if !units.isEmpty then
    let _ ← lift (compileUnits settings units)
  let unit ← lift (compileFile settings files o.input !o.expand)
  if o.expand then print (← ofExcept unit.write)
  else if !(unit.result matches .atom "nil") then print (← ofExcept unit.result.write)
  match o.call with
  | some name => if !name.isEmpty then print (← ofExcept (← lift (callFunction settings name [])).write)
  | none => pure ()

def logLines (verbose : Bool) (log : Log) : List String :=
  (log.toList.filter fun e => verbose || e.level != .debug).map fun e =>
    "[mexc] " ++ e.level.name ++ ": " ++ e.text

/-- Is the error a fault of the source or the arguments? -/
def isReported : Error → Bool
  | .overflow _ | .isDirectory _ | .tooShort _ | .valueAbsent | .callDepth => false
  | .located .. | .reading .. | .usage _ | .fileMissing _ => true

def unlines (lines : List String) : String :=
  String.join (lines.map (· ++ "\n"))

/-- What a run with these options on these files prints. -/
def outcome (o : Options) (files : Files) : Outcome :=
  let logged (r : Run) := logLines o.verbose r.compilation.world.log
  match run o files {} with
  | .ok () r => { exit := 0, out := unlines r.printed, err := unlines (logged r) }
  | .error e r =>
    if isReported e then
      { exit := 1, out := unlines r.printed
        err := unlines (logged r ++ ["Compilation error: " ++ e.message]) }
    else { exit := 1, out := unlines r.printed, err := unlines (logged r), escaped := some e }

/-- What a run with arguments that set no options prints. -/
def refuse : Refusal → Outcome
  | .helpWanted => { exit := 0, out := "", err := "" }
  | r => { exit := 2, out := "", err := unlines ["mexc: error: " ++ r.message] }

/-- The files that a run with these arguments may read. -/
def sources (arguments : List String) : List String :=
  match read arguments with
  | .ok o => o.included.filterMap id ++ [o.input]
  | .error _ => []

/-- What the compiler does with these arguments and files. -/
def execute (arguments : List String) (files : Files) : Outcome :=
  match read arguments with
  | .ok o => outcome o files
  | .error r => refuse r

end MacroLang.CommandLine
