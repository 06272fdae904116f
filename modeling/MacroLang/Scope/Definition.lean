import MacroLang.Tree.Hygiene

/-!
# Definitions

A definition of a function or a macro is a form with a name, a list of parameters and a body. The parameters
are different variables.
-/

namespace MacroLang

/-- The parts of a definition. -/
structure Definition where
  name : String
  params : List Variable
  body : List Value

namespace Definition

/-- The name in a definition: an atom or a text. -/
def nameOf (form : String) (info : Info) : List Value → Except Error String
  | [] => .error ((Cause.nameMissing form).on info)
  | .atom name :: _ => .ok name
  | .text name :: _ =>
    if name.isEmpty then .error ((Cause.nameExpected form (.text name)).on info) else .ok name
  | v :: _ => .error ((Cause.nameExpected form v).on info)

/-- The variables in a list of parameters. -/
def variablesOf (form : String) (info : Info) : List Value → Except Error (List Variable)
  | [] => .ok []
  | .var name c _ :: rest => do return ⟨name, c⟩ :: (← variablesOf form info rest)
  | v :: _ => .error ((Cause.parameterKind form v).on info)

def hasRepeats : List Variable → Bool
  | [] => false
  | x :: xs => xs.contains x || hasRepeats xs

/-- The parameters in a definition. -/
def paramsOf (form : String) (info : Info) : List Value → Except Error (List Variable)
  | _ :: .list params :: _ => do
    let params ← variablesOf form info params
    if hasRepeats params then throw ((Cause.parametersRepeated form).on info)
    return params
  | _ => .error ((Cause.parametersMissing form).on info)

/-- The definition that a form with this name and these arguments makes. -/
def ofForm (form : String) (args : List Value) (info : Info) : Except Error Definition := do
  let name ← nameOf form info args
  let params ← paramsOf form info args
  return ⟨name, params, args.drop 2⟩

end Definition

end MacroLang
