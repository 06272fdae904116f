import MacroLang.Number.Basic
import MacroLang.Tree.Datum

/-!
# Trees

Code is data: a call, a variable tagged with the context it was written in, or a literal (an atom, a
number, a text, a list or a pair). `Value` also holds what may stand beside trees: the placeholders of
an unfinished quote, tuples that are no pairs, context tokens, truth values and nothing at all.
Which values are trees is decided in `MacroLang.Tree.Shape`.
-/

namespace MacroLang

/-- Where code was written: directly at its place of use, or in a quote of a scope. Two variables are
the same binding only if their contexts agree. -/
inductive Context where
  | direct
  | quotedIn (scope : String)
deriving DecidableEq, Repr

/-- Annotations of a node. They never take part in equality. -/
structure Info where
  line : Option Datum := none
  column : Option Datum := none
  /-- The context of a call that a quote built. -/
  context : Option Context := none
  /-- A set mark keeps the context of a variable through later quotes. -/
  escaped : Option Datum := none
  /-- Off on a remote head or a declaration whose module name needs no alias any more. -/
  aliasing : Option Datum := none
  /-- Fields that say nothing to this library. -/
  others : List (String × Datum) := []

namespace Info

/-- The annotations of a node read at a position of a source text. -/
def read (line column : Nat) : Info where
  line := some (.int line)
  column := some (.int column)

def isEscaped (i : Info) : Bool :=
  i.escaped.any Datum.isSet

def isResolved (i : Info) : Bool :=
  i.aliasing matches some (.truth false)

/-- Records that the module name of the node went through the aliases. -/
def markResolved (i : Info) : Info :=
  { i with aliasing := some (.truth false) }

def markEscaped (i : Info) : Info :=
  { i with escaped := some (.truth true) }

/-- Records the context of a call that a quote builds. -/
def withContext (i : Info) (c : Context) : Info :=
  { i with context := some c }

/-- Line and column, as far as they are known, joined by a colon. -/
def location (i : Info) : String :=
  match i.line.filter Datum.isSet, i.column.filter Datum.isSet with
  | none, _ => ""
  | some line, none => line.written
  | some line, some column => line.written ++ ":" ++ column.written

end Info

inductive Value where
  /-- A call by name. -/
  | call (name : String) (args : List Value) (info : Info)
  /-- A call whose head is itself a node. -/
  | apply (head : Value) (args : List Value) (info : Info)
  | var (name : String) (context : Context) (info : Info)
  | atom (name : String)
  | number (n : Number)
  | text (s : String)
  | list (items : List Value)
  | tuple (items : List Value)
  /-- A value that a quote takes in. -/
  | unquote (value : Value) (info : Info)
  /-- A sequence whose members a quote takes in one by one. -/
  | splice (value : Value) (info : Info)
  | context (token : Context)
  | truth (b : Bool)
  | nothing
deriving Inhabited

namespace Value

def pair (left right : Value) : Value :=
  tuple [left, right]

def int (n : Int) : Value :=
  number (.int n)

def yes : Value := atom "true"

def no : Value := atom "false"

def nil : Value := atom "nil"

def ofBool (b : Bool) : Value :=
  if b then yes else no

/-- Every value but the atoms `false` and `nil` counts as true. -/
def isTruthy : Value → Bool
  | atom name => name != "false" && name != "nil"
  | _ => true

/-- The annotations of a node or a placeholder. -/
def info? : Value → Option Info
  | call _ _ info | apply _ _ info | var _ _ info | unquote _ info | splice _ info => some info
  | _ => none

def infoD (v : Value) : Info :=
  v.info?.getD {}

/-- The name of a call by name. -/
def callName? : Value → Option String
  | call name _ _ => some name
  | _ => none

/-- The members of a list or tuple. -/
def items? : Value → Option (List Value)
  | list items | tuple items => some items
  | _ => none

/-- The members of a list or tuple, or the characters of a text. -/
def members? : Value → Option (List Value)
  | text s => some (s.toList.map fun c => text (String.ofList [c]))
  | v => v.items?

/-- Module and function of the head of a remote call. -/
def remote? : Value → Option (String × String)
  | call "." [atom module, atom function] _ => some (module, function)
  | _ => none

/-- The context that a node carries; literals carry none. -/
def contextOf : Value → Context
  | var _ c _ => c
  | call _ _ info | apply _ _ info => info.context.getD .direct
  | _ => .direct

/-- Does the module name in this node need no alias any more? -/
def isResolved : Value → Bool
  | call _ _ info | apply _ _ info => info.isResolved
  | _ => false

end Value

end MacroLang
