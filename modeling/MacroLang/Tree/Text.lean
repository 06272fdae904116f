import MacroLang.Tree.Basic
import MacroLang.Text.Quoted

/-!
# Trees as text

`Value.describe` names the shape of a value in messages; `Value.render` writes a value as source text.
-/

namespace MacroLang

namespace Context

def describe : Context → String
  | direct => "Context(none)"
  | quotedIn scope => "Context(" ++ scope ++ ")"

end Context

namespace Value

/-- The name of a value's type, as messages give it. -/
def typeName : Value → String
  | call .. | apply .. => "CallNode"
  | var .. => "VarNode"
  | atom _ => "Atom"
  | number (.int _) => "int"
  | number (.float _) => "float"
  | text _ => "str"
  | list _ => "list"
  | tuple _ => "tuple"
  | unquote .. => "Unquote"
  | splice .. => "UnquoteSplice"
  | context _ => "Context"
  | truth _ => "bool"
  | nothing => "NoneType"

def describeTuple : List String → String
  | [item] => "(" ++ item ++ ",)"
  | items => "(" ++ ", ".intercalate items ++ ")"

mutual

def describe : Value → String
  | call name args _ => "Call(" ++ Text.quoted name ++ ", [" ++ ", ".intercalate (describeAll args) ++ "])"
  | apply head args _ => "Call(" ++ describe head ++ ", [" ++ ", ".intercalate (describeAll args) ++ "])"
  | var name .direct _ => "Var(" ++ name ++ ")"
  | var name (.quotedIn scope) _ => "Var(" ++ name ++ ", " ++ scope ++ ")"
  | atom name => "Atom(" ++ name ++ ")"
  | number n => n.text
  | text s => Text.quoted s
  | list items => "[" ++ ", ".intercalate (describeAll items) ++ "]"
  | tuple items => describeTuple (describeAll items)
  | unquote value _ => "Unquote(" ++ describe value ++ ")"
  | splice value _ => "UnquoteSplice(" ++ describe value ++ ")"
  | context token => token.describe
  | truth b => if b then "True" else "False"
  | nothing => "None"

def describeAll : List Value → List String
  | [] => []
  | v :: vs => describe v :: describeAll vs

end

/-- Backslashes and double quotes are the only characters that source text escapes. -/
def escapeText (s : String) : String :=
  String.ofList (s.toList.flatMap fun c => if c = '\\' ∨ c = '\"' then ['\\', c] else [c])

mutual

/-- Source text of a value. With `showContext` a variable from a quote is followed by its scope. -/
def render (showContext : Bool) : Value → String
  | call name args _ => "<" ++ " ".intercalate (name :: renderAll showContext args) ++ ">"
  | apply head args _ =>
    let written := match head.remote? with
      | some (module, function) => module ++ "." ++ function
      | none => render showContext head
    "<" ++ " ".intercalate (written :: renderAll showContext args) ++ ">"
  | var name (.quotedIn scope) _ =>
    if showContext then "." ++ name ++ "#" ++ scope else "." ++ name
  | var name .direct _ => "." ++ name
  | atom name => name
  | text s => "\"" ++ escapeText s ++ "\""
  | list items => "(" ++ " ".intercalate (renderAll showContext items) ++ ")"
  | tuple items => "[" ++ " ".intercalate (renderAll showContext items) ++ "]"
  | unquote value _ => "~" ++ render showContext value
  | splice value _ => "~!" ++ render showContext value
  | v => v.describe

def renderAll (showContext : Bool) : List Value → List String
  | [] => []
  | v :: vs => render showContext v :: renderAll showContext vs

end

mutual

/-- Is every number in the value short enough to be written? -/
def isWritable : Value → Bool
  | number n => n.isWritable
  | call _ args _ => areWritable args
  | apply head args _ => isWritable head && areWritable args
  | list items | tuple items => areWritable items
  | unquote value _ | splice value _ => isWritable value
  | _ => true

def areWritable : List Value → Bool
  | [] => true
  | v :: vs => isWritable v && areWritable vs

end

end Value

end MacroLang
