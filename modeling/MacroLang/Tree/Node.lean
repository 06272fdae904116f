import MacroLang.Tree.Shape

/-!
# Nodes from arbitrary parts

The `make` functions take parts of any type, and annotations of any type with them. A part that does not fit is an
error, located by the annotations as far as they can be read (`Annotation.report`); annotations that are not
annotations are an error of their own, found after a head or a name that does not fit.
-/

namespace MacroLang

/-- What a caller hands over as the annotations of a node: annotations, or anything else. -/
inductive Annotation where
  | info (i : Info)
  | other (d : Datum)

namespace Annotation

/-- Sets the field with this name. A context is written as the name of its scope, or as nothing. -/
def setField (i : Info) (name : String) (d : Datum) : Info :=
  let others := i.others.filter (·.1 != name)
  match name, d with
  | "line", d => { i with line := some d }
  | "column", d => { i with column := some d }
  | "escaped", d => { i with escaped := some d }
  | "alias", d => { i with aliasing := some d }
  | "context", .text scope => { i with context := some (.quotedIn scope), others }
  | "context", .nothing => { i with context := some .direct, others }
  | "context", d => { i with context := none, others := others ++ [("context", d)] }
  | name, d => { i with others := others ++ [(name, d)] }

/-- The annotations with these fields; of two with the same name the later one counts. -/
def ofFields (fields : List (String × Datum)) : Info :=
  fields.foldl (fun i (name, d) => setField i name d) {}

/-- Reads entries, each a sequence of a field's name and its value. -/
def readEntries (i : Info) (index : Nat) : List Datum → Except Error Info
  | [] => .ok i
  | entry :: rest => match entry.members? with
    | some [name, d] => readEntries (setField i name.written d) (index + 1) rest
    | some ms => .error (.usage (.entrySize index ms.length))
    | none => .error (.usage (.entryType index))

/-- The annotations, if need be read from a sequence of entries. What is not set holds no entries. -/
def read : Annotation → Except Error Info
  | info i => .ok i
  | other d =>
    if !d.isSet then .ok {}
    else match d.members? with
      | some entries => readEntries {} 0 entries
      | none => .error (.usage (.notEntries d.typeName))

/-- The annotations of a node must be annotations. -/
def check : Annotation → Except Error Info
  | info i => .ok i
  | other d => .error (Cause.infoType d.typeName).nowhere

/-- Runs a check that locates its errors by these annotations. They are read only if there is an error to locate;
annotations that cannot be read are then the error. -/
def report {α : Type} (a : Annotation) (check : Info → Except Error α) : Except Error α :=
  match a.read with
  | .ok i => check i
  | .error e => match check {} with
    | .error (.located ..) => .error e
    | r => r

end Annotation

namespace Value

def makeCall (head args : Value) (a : Annotation) : Except Error Value := do
  a.report (checkHead · head)
  let info ← a.check
  match args with
  | context _ => throw ((Cause.contextAsArguments head).on info)
  | list items | tuple items =>
    checkMembers info items
    return withHead head items info
  | v => throw ((Cause.argumentsType v.typeName).on info)

def checkName (info : Info) : Value → Except Error String
  | text x => if x.isEmpty then .error ((Cause.variableName (text x)).on info) else .ok x
  | v => .error ((Cause.variableName v).on info)

def makeVar (name token : Value) (a : Annotation) : Except Error Value := do
  let x ← a.report (checkName · name)
  let info ← a.check
  match token with
  | context c => return var x c info
  | v => throw ((Cause.variableContext x v.typeName).on info)

def makeAtom (name : Value) (a : Annotation) : Except Error Value :=
  a.report fun info => match name with
    | text s => buildAtom s info
    | v => .error ((Cause.atomName v).on info)

def makeNumber (v : Value) (a : Annotation) : Except Error Value :=
  a.report fun info => match v with
    | number n => .ok (number n)
    | v => .error ((Cause.notNumber v).on info)

def makeText (v : Value) (a : Annotation) : Except Error Value :=
  a.report fun info => match v with
    | text s => .ok (text s)
    | v => .error ((Cause.notText v).on info)

/-- A list of the members of a sequence, or of the characters of a text. -/
def makeList (v : Value) (a : Annotation) : Except Error Value := do
  let items := v.members?.getD []
  a.report (checkMembers · items)
  return list items

def makePair (left right : Value) (a : Annotation) : Except Error Value := do
  a.report (checkMember · (pair left right))
  return pair left right

def makeRemote (module function : Value) (a : Annotation) : Except Error Value := do
  let m ← makeAtom module a
  let f ← makeAtom function a
  makeCall (text ".") (list [m, f]) a

/-- A placeholder. What it holds is not checked, and its annotations are read as they are. -/
def makeUnquote (v : Value) (a : Annotation) : Except Error Value := do
  return unquote v (← a.read)

/-- A placeholder for the members of a list. -/
def makeSplice (v : Value) (a : Annotation) : Except Error Value := do
  return splice v (← a.read)

end Value

end MacroLang
