import MacroLang.Tree.Basic

/-!
# Equality of trees

`Value.same` compares two values up to their annotations; contexts of variables count. `Value.equals`
is the equality of plain values, for which truth values are the numbers 0 and 1.
-/

namespace MacroLang.Value

mutual

/-- Equality up to annotations. Numbers are equal if their values are. -/
def same : Value → Value → Bool
  | call f as _, call g bs _ => f == g && sameAll as bs
  | apply f as _, apply g bs _ => same f g && sameAll as bs
  | var x c _, var y d _ => x == y && c == d
  | atom a, atom b => a == b
  | number a, number b => a.equal b
  | text a, text b => a == b
  | list as, list bs => sameAll as bs
  | tuple as, tuple bs => sameAll as bs
  | unquote a _, unquote b _ => same a b
  | splice a _, splice b _ => same a b
  | context a, context b => a == b
  | truth a, truth b => a == b
  | nothing, nothing => true
  | _, _ => false

def sameAll : List Value → List Value → Bool
  | [], [] => true
  | a :: as, b :: bs => same a b && sameAll as bs
  | _, _ => false

end

/-- A number, or a truth value as the number 0 or 1. -/
def numeric? : Value → Option Number
  | number n => some n
  | truth b => some (.int (if b then 1 else 0))
  | _ => none

mutual

/-- As `same`, but truth values count as numbers, also inside lists and tuples. -/
def equals : Value → Value → Bool
  | list as, list bs => equalsAll as bs
  | tuple as, tuple bs => equalsAll as bs
  | a, b => match a.numeric?, b.numeric? with
    | some m, some n => m.equal n
    | _, _ => same a b

def equalsAll : List Value → List Value → Bool
  | [], [] => true
  | a :: as, b :: bs => equals a b && equalsAll as bs
  | _, _ => false

end

end MacroLang.Value
