import MacroLang.Number.Basic
import MacroLang.Text.Quoted

/-!
# Plain data

The value of a field in the annotations of a node. A line or column is an integer and a mark is a truth value, but
annotations may also be handed over from outside, and then a field holds whatever was handed over.
-/

namespace MacroLang

inductive Datum where
  | nothing
  | truth (b : Bool)
  | number (n : Number)
  | text (s : String)
  | list (items : List Datum)
  | record (fields : List (String × Datum))
deriving Inhabited

namespace Datum

def int (n : Int) : Datum :=
  number (.int n)

/-- Everything counts as set but nothing, falsehood, zero and what is empty. -/
def isSet : Datum → Bool
  | nothing => false
  | truth b => b
  | number n => !n.isZero
  | text s => !s.isEmpty
  | list items => !items.isEmpty
  | record fields => !fields.isEmpty

/-- The name of a datum's type, as messages give it. -/
def typeName : Datum → String
  | nothing => "NoneType"
  | truth _ => "bool"
  | number (.int _) => "int"
  | number (.float _) => "float"
  | text _ => "str"
  | list _ => "list"
  | record _ => "dict"

/-- The members of a list, the characters of a text, or the names of a record's fields. -/
def members? : Datum → Option (List Datum)
  | text s => some (s.toList.map fun c => text (String.ofList [c]))
  | list items => some items
  | record fields => some (fields.map fun field => text field.1)
  | _ => none

mutual

def describe : Datum → String
  | nothing => "None"
  | truth b => if b then "True" else "False"
  | number n => n.text
  | text s => Text.quoted s
  | list items => "[" ++ ", ".intercalate (describeAll items) ++ "]"
  | record fields => "\x7b" ++ ", ".intercalate (describeFields fields) ++ "\x7d"

def describeAll : List Datum → List String
  | [] => []
  | d :: ds => describe d :: describeAll ds

def describeFields : List (String × Datum) → List String
  | [] => []
  | (name, d) :: fields => (Text.quoted name ++ ": " ++ describe d) :: describeFields fields

end

/-- A datum as it stands in a message; a text stands there without quotes. -/
def written : Datum → String
  | text s => s
  | d => d.describe

end Datum

end MacroLang
