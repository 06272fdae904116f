import MacroLang.Tree.Equality
import MacroLang.Tree.Shape

/-!
# Built-in functions

The functions of the module `Kernel`. They are called by name and arity, and take the annotations of the
call to locate their errors.
-/

namespace MacroLang

inductive Builtin where
  | add | sub | mul | div
  | less | greater
  | equal | differ
  | list | length | head | tail | elem | concat
  | toText
  | isAtom | isNumber | isList | isCall
  | raise
deriving DecidableEq, Repr

namespace Builtin

def ofName? : String → Option Builtin
  | "+" => some add
  | "-" => some sub
  | "*" => some mul
  | "/" => some div
  | "less?" => some less
  | "greater?" => some greater
  | "==" => some equal
  | "!=" => some differ
  | "list" => some list
  | "length" => some length
  | "hd" => some head
  | "tl" => some tail
  | "elem" => some elem
  | "concat" => some concat
  | "to_string" => some toText
  | "is_atom" => some isAtom
  | "is_number" => some isNumber
  | "is_list" => some isList
  | "is_call" => some isCall
  | "raise" => some raise
  | _ => none

/-- The number of arguments, if it is fixed. -/
def arity? : Builtin → Option Nat
  | list => none
  | length | head | tail | toText | isAtom | isNumber | isList | isCall | raise => some 1
  | _ => some 2

/-- The built-in function with this name that takes this many arguments. -/
def find? (name : String) (arity : Nat) : Option Builtin :=
  (ofName? name).filter fun b => b.arity?.all (· == arity)

/-- The error for a cause whose message shows a value. -/
def showing (info : Info) (v : Value) (cause : Cause) : Error :=
  (if v.isWritable then cause else .digitLimit).on info

def numberOf (info : Info) : Value → Except Error Number
  | .number n => .ok n
  | v => .error (showing info v (.numberExpected v))

def itemsOf (info : Info) (v : Value) : Except Error (List Value) :=
  match v.items? with
  | some items => .ok items
  | none => .error (showing info v (.listExpected v))

def textOf (info : Info) : Value → Except Error String
  | .text s => .ok s
  | v => if v.isWritable then .ok (v.render false) else .error (Cause.digitLimit.on info)

/-- The error for a fault in an operation on numbers. -/
def faultError (info : Info) : Number.Fault → Error
  | .divisionByZero => Cause.divisionByZero.on info
  | .intTooLarge => .overflow .intTooLarge
  | .quotientTooLarge => .overflow .quotientTooLarge

def arithmetic (info : Info) (op : Number → Number → Except Number.Fault Number) (a b : Value) :
    Except Error Value := do
  let m ← numberOf info a
  let n ← numberOf info b
  match op m n with
  | .ok r => return .number r
  | .error fault => throw (faultError info fault)

def comparison (info : Info) (op : Number → Number → Bool) (a b : Value) : Except Error Value := do
  let m ← numberOf info a
  let n ← numberOf info b
  return .ofBool (op m n)

/-- The member of a list or tuple at an index from zero on. -/
def memberAt (info : Info) (v index : Value) : Except Error Value := do
  let items ← itemsOf info v
  let i ← numberOf info index
  match i with
  | .int n => match if n < 0 then none else items[n.toNat]? with
    | some item => return item
    | none => throw (showing info index (.indexRange i))
  | .float _ => throw (showing info index (.indexRange i))

/-- Applies a built-in function to as many arguments as it takes. -/
def run (info : Info) : Builtin → List Value → Except Error Value
  | add, [a, b] => arithmetic info Number.add a b
  | sub, [a, b] => arithmetic info Number.sub a b
  | mul, [a, b] => arithmetic info Number.mul a b
  | div, [a, b] => arithmetic info Number.div a b
  | less, [a, b] => comparison info Number.less a b
  | greater, [a, b] => comparison info (fun m n => n.less m) a b
  | equal, [a, b] => .ok (.ofBool (a.same b))
  | differ, [a, b] => .ok (.ofBool !(a.same b))
  | list, items => .ok (.list items)
  | length, [v] => do return .int (← itemsOf info v).length
  | head, [v] => do
    match ← itemsOf info v with
    | [] => throw ((Cause.emptyList "hd").on info)
    | first :: _ => return first
  | tail, [v] => do
    match ← itemsOf info v with
    | [] => throw ((Cause.emptyList "tl").on info)
    | _ :: rest => return .list rest
  | elem, [v, index] => memberAt info v index
  | concat, [.text s, .text t] => .ok (.text (s ++ t))
  | concat, [a, b] => do
    let xs ← itemsOf info a
    let ys ← itemsOf info b
    return .list (xs ++ ys)
  | toText, [v] => do return .text (← textOf info v)
  | isAtom, [v] => .ok (.ofBool (v matches .atom _))
  | isNumber, [v] => .ok (.ofBool (v matches .number _))
  | isList, [v] => .ok (.ofBool (v matches .list _))
  | isCall, [v] => .ok (.ofBool (v matches .call .. | .apply ..))
  | raise, [v] => do throw ((Cause.raised (← textOf info v)).on info)
  | _, _ => .ok .nil

end Builtin

end MacroLang
