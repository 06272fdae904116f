import MacroLang.Number.Layout

/-!
# Numbers

A number is an integer of any size or a double. Integers are added, subtracted and multiplied exactly;
a quotient is always a double, correctly rounded. When an integer meets a double it is first converted
to the nearest double. Comparisons are exact.
-/

namespace MacroLang

inductive Number where
  | int (n : Int)
  | float (x : Float)

namespace Number

/-- Why an operation on numbers has no result. -/
inductive Fault where
  | divisionByZero
  | intTooLarge
  | quotientTooLarge
deriving DecidableEq, Repr

/-- Integers with more digits are neither read nor written. -/
def maxDigits : Nat := 4300

/-- The least natural number that is not written. -/
def writeBound : Nat := Double.tenTo maxDigits

def isWritable : Number → Bool
  | int n => n.natAbs < writeBound
  | float _ => true

def text : Number → String
  | int n => toString n
  | float x => Double.write Double.layout x

def isZero : Number → Bool
  | int n => n == 0
  | float x => x == 0.0

def toFloat : Number → Except Fault Float
  | int n => match Double.ofInt? n with
    | some x => .ok x
    | none => .error .intTooLarge
  | float x => .ok x

/-- Applies the integer operation to two integers and the other one as soon as a double takes part. -/
def lift (onInts : Int → Int → Int) (onFloats : Float → Float → Float) :
    Number → Number → Except Fault Number
  | int a, int b => .ok (int (onInts a b))
  | a, b => do return float (onFloats (← a.toFloat) (← b.toFloat))

def add : Number → Number → Except Fault Number :=
  lift (· + ·) (· + ·)

def sub : Number → Number → Except Fault Number :=
  lift (· - ·) (· - ·)

def mul : Number → Number → Except Fault Number :=
  lift (· * ·) (· * ·)

def div (a b : Number) : Except Fault Number :=
  if b.isZero then .error .divisionByZero
  else match a, b with
    | int a, int b => match Double.ofQuotient? a b with
      | some x => .ok (float x)
      | none => .error .quotientTooLarge
    | a, b => do return float ((← a.toFloat) / (← b.toFloat))

/-- How two numbers compare; `none` if one of them is not a number. -/
def compare? : Number → Number → Option Ordering
  | int a, int b => some (compare a b)
  | int a, float y => Double.compareInt? a y
  | float x, int b => (Double.compareInt? b x).map Ordering.swap
  | float x, float y =>
    if x < y then some .lt else if x == y then some .eq else if y < x then some .gt else none

def equal (a b : Number) : Bool :=
  a.compare? b == some .eq

def less (a b : Number) : Bool :=
  a.compare? b == some .lt

end Number

end MacroLang
