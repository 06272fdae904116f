import MacroLang.Error

/-!
# The shape of trees

A tree is a call, a variable, an atom, a number, a text, or a list or pair of trees; the head of a call is
a name or a tree. `Value.validate` checks this all the way down. The constructors check less: what is
placed inside a node must be a tree or a placeholder (`Value.checkMember`), and nodes inside it were
checked when they were built.
-/

namespace MacroLang

/-- The kinds of trees. -/
inductive TreeKind where
  | call
  | var
  | atom
  | number
  | text
  | list
  | pair
deriving DecidableEq, Repr

def TreeKind.name : TreeKind → String
  | call => "CALL"
  | var => "VARIABLE"
  | atom => "ATOM"
  | number => "NUMBER"
  | text => "STRING"
  | list => "LIST"
  | pair => "PAIR"

namespace Value

/-- The kind of a value by its outermost shape. -/
def kind : Value → Except Error TreeKind
  | call .. | apply .. => .ok .call
  | var .. => .ok .var
  | atom _ => .ok .atom
  | number _ => .ok .number
  | text _ => .ok .text
  | list _ => .ok .list
  | tuple [_, _] => .ok .pair
  | unquote _ info | splice _ info => .error ((Cause.outsideQuote "unquote").on info)
  | v => .error (Cause.notTree v).nowhere

mutual

/-- Succeeds on trees only. -/
def validate : Value → Except Error Unit
  | call _ args _ => validateAll args
  | apply head args _ => do
    validate head
    validateAll args
  | list items => validateAll items
  | tuple items => do
    let _ ← kind (tuple items)
    validateAll items
  | v => do
    let _ ← v.kind

def validateAll : List Value → Except Error Unit
  | [] => .ok ()
  | v :: vs => do
    validate v
    validateAll vs

end

/-- Succeeds on values that can be written. -/
def checkWritable (v : Value) : Except Error Unit :=
  if v.isWritable then .ok () else .error (.usage (.digitLimit none))

/-- Writes a value as source text, unless a number in it is too long. -/
def write (v : Value) : Except Error String := do
  v.checkWritable
  return v.render false

def isTree (v : Value) : Bool :=
  v.validate.isOk

/-- Neither a call nor a variable. -/
def isLiteral (v : Value) : Bool :=
  match v.kind with
  | .ok .call | .ok .var | .error _ => false
  | .ok _ => true

mutual

/-- Checks a value that is placed inside a node with the given annotations. -/
def checkMember (info : Info) : Value → Except Error Unit
  | list items => checkMembers info items
  | tuple items =>
    if items.length = 2 then checkMembers info items
    else .error ((Cause.tupleSize items.length).on info)
  | context c => .error ((Cause.notTree (context c)).on info)
  | truth b => .error ((Cause.notTree (truth b)).on info)
  | nothing => .error ((Cause.notTree nothing).on info)
  | _ => .ok ()

def checkMembers (info : Info) : List Value → Except Error Unit
  | [] => .ok ()
  | v :: vs => do
    checkMember info v
    checkMembers info vs

end

/-- The head of a call: a name, or a node or placeholder. -/
def checkHead (info : Info) : Value → Except Error Unit
  | text name => if name.isEmpty then .error (Cause.emptyHead.on info) else .ok ()
  | call .. | apply .. | var .. | unquote .. | splice .. => .ok ()
  | v => .error ((Cause.headType v.typeName).on info)

/-- The call with a checked head; a text is taken as the name of the call. -/
def withHead (head : Value) (args : List Value) (info : Info) : Value :=
  match head with
  | text name => call name args info
  | head => apply head args info

/-- Builds a call after checking its head and members. -/
def build (head : Value) (args : List Value) (info : Info) : Except Error Value := do
  checkHead info head
  checkMembers info args
  return withHead head args info

/-- Builds an atom; only an empty name is refused. -/
def buildAtom (name : String) (info : Info) : Except Error Value :=
  if name.isEmpty then .error ((Cause.atomName (text name)).on info) else .ok (atom name)

/-- Builds the head of a call of another module's function. -/
def buildRemote (module function : String) (info : Info) : Except Error Value := do
  let m ← buildAtom module info
  let f ← buildAtom function info
  return call "." [m, f] info

end Value

/-- Reads a scope name or token as a context. -/
def Context.ofValue : Value → Except Error Context
  | .context c => .ok c
  | .nothing => .ok .direct
  | .atom name => .ok (.quotedIn name)
  | .text name =>
    if name.isEmpty then .error (Cause.notScope (.text name)).nowhere else .ok (.quotedIn name)
  | v => .error (Cause.notScope v).nowhere

end MacroLang
