/-!
# Doubles as exact numbers

A finite double is a sign, a significand `m` and a power `q`, and its value is `m * 2 ^ q`. This
module takes doubles apart (`view`), finds the double nearest to a quotient of natural numbers, a tie
going to the even significand (`ofRatio?`), and reads decimals (`ofDecimal`).
-/

namespace MacroLang.Double

/-- What the bits of a double stand for. -/
inductive View where
  | nan
  | infinite (negative : Bool)
  | finite (negative : Bool) (significand : Nat) (power : Int)

def twoTo (n : Nat) : Nat :=
  Nat.pow 2 n

def tenTo (n : Nat) : Nat :=
  Nat.pow 10 n

def signBit : Nat := twoTo 63

/-- The leading bit of a significand, which is not stored. -/
def leadingBit : Nat := twoTo 52

/-- Magnitude bits of infinity. Every smaller number is the magnitude of a finite double. -/
def infinityBits : Nat := 0x7FF * leadingBit

/-- The power of the smallest positive double. -/
def leastPower : Int := -1074

def viewBits (bits : Nat) : View :=
  let negative := decide (signBit ≤ bits)
  let magnitude := bits % signBit
  let exponent := magnitude / leadingBit
  let fraction := magnitude % leadingBit
  if infinityBits < magnitude then .nan
  else if magnitude = infinityBits then .infinite negative
  else if exponent = 0 then .finite negative fraction leastPower
  else .finite negative (leadingBit + fraction) (exponent + leastPower - 1)

def view (x : Float) : View :=
  viewBits x.toBits.toNat

def ofMagnitude (negative : Bool) (magnitude : Nat) : Float :=
  Float.ofBits (UInt64.ofNat (if negative then signBit + magnitude else magnitude))

def infinity (negative : Bool) : Float :=
  ofMagnitude negative infinityBits

/-- The quotient rounded to a natural number, a tie going to the even one. -/
def roundDiv (num den : Nat) : Nat :=
  let quotient := num / den
  let twice := 2 * (num % den)
  if twice < den ∨ (twice = den ∧ quotient % 2 = 0) then quotient else quotient + 1

/-- The numerator and denominator of `num / den * 2 ^ shift`. -/
def scale (num den : Nat) (shift : Int) : Nat × Nat :=
  (num * twoTo shift.toNat, den * twoTo (-shift).toNat)

/-- The largest `e` with `2 ^ e ≤ num / den`, for positive arguments. -/
def floorLog2 (num den : Nat) : Int :=
  let estimate : Int := (num.log2 : Int) - den.log2
  let (n, d) := scale num den (-estimate)
  if d ≤ n then estimate else estimate - 1

/-- Magnitude bits of the double nearest to `num / den`; `infinityBits` or more if it is too large. -/
def nearestBits (num den : Nat) : Nat :=
  if num = 0 then 0
  else
    let power := max (floorLog2 num den - 52) leastPower
    let (n, d) := scale num den (-power)
    (power - leastPower).toNat * leadingBit + roundDiv n d

/-- The double nearest to `num / den`, unless it is too large for one. -/
def ofRatio? (negative : Bool) (num den : Nat) : Option Float :=
  let bits := nearestBits num den
  if bits < infinityBits then some (ofMagnitude negative bits) else none

/-- The double nearest to `digits * 10 ^ exponent`, infinite if that is too large. The exponent is
first compared with what `width` digits can make up for, so that its size does not matter. -/
def ofDecimal (negative : Bool) (digits width : Nat) (exponent : Int) : Float :=
  if digits = 0 ∨ exponent + width < -400 then ofMagnitude negative 0
  else if 400 < exponent then infinity negative
  else
    (ofRatio? negative (digits * tenTo exponent.toNat) (tenTo (-exponent).toNat)).getD
      (infinity negative)

/-- The double nearest to an integer, unless it is too large for one. -/
def ofInt? (n : Int) : Option Float :=
  ofRatio? (decide (n < 0)) n.natAbs 1

/-- The double nearest to the quotient of two integers, unless it is too large for one. A zero
quotient has the sign that the operands' signs give. -/
def ofQuotient? (a b : Int) : Option Float :=
  ofRatio? (decide (a < 0) != decide (b < 0)) a.natAbs b.natAbs

/-- How an integer compares with a double; `none` if the double is not a number. -/
def compareInt? (n : Int) (x : Float) : Option Ordering :=
  match view x with
  | .nan => none
  | .infinite negative => some (if negative then .gt else .lt)
  | .finite negative significand power =>
    let signed : Int := if negative then -significand else significand
    some (compare (n * twoTo (-power).toNat) (signed * twoTo power.toNat))

end MacroLang.Double
