import MacroLang.Number.Shortest

/-!
# The text of a double

Decimal exponents from -4 to 15 are written positionally, always with a point and at least one digit
on each side of it. The others are written with one digit before the point and an exponent that has a
sign and at least two digits.
-/

namespace MacroLang.Double

/-- Where positional writing ends and how exponents look. -/
structure Layout where
  leastPositional : Int
  greatestPositional : Int
  exponentWidth : Nat
  infinity : String
  nan : String

def layout : Layout where
  leastPositional := -4
  greatestPositional := 15
  exponentWidth := 2
  infinity := "inf"
  nan := "nan"

def stripZeros (digits : List Char) : List Char :=
  (digits.reverse.dropWhile (· = '0')).reverse

/-- Digits with the point after the first `point` of them, padded with zeros on either side. -/
def positional (digits : List Char) (point : Int) : List Char :=
  if point ≤ 0 then '0' :: '.' :: List.replicate (-point).toNat '0' ++ digits
  else
    let padded := digits ++ List.replicate (point.toNat - digits.length) '0'
    let fraction := padded.drop point.toNat
    padded.take point.toNat ++ '.' :: (if fraction.isEmpty then ['0'] else fraction)

def scientific (l : Layout) (digits : List Char) (exponent : Int) : List Char :=
  let size := Nat.toDigits 10 exponent.natAbs
  let mantissa := match digits with
    | first :: rest@(_ :: _) => first :: '.' :: rest
    | digits => digits
  mantissa ++ 'e' :: (if exponent < 0 then '-' else '+')
    :: List.replicate (l.exponentWidth - size.length) '0' ++ size

def Decimal.write (l : Layout) (d : Decimal) : List Char :=
  let all := Nat.toDigits 10 d.digits
  let digits := stripZeros all
  let exponent : Int := all.length - 1 + d.exponent
  if l.leastPositional ≤ exponent ∧ exponent ≤ l.greatestPositional then
    positional digits (exponent + 1)
  else scientific l digits exponent

def write (l : Layout) (x : Float) : String :=
  let signed (negative : Bool) (s : String) := if negative then "-" ++ s else s
  match view x with
  | .nan => l.nan
  | .infinite negative => signed negative l.infinity
  | .finite negative 0 _ => signed negative "0.0"
  | .finite negative significand power =>
    signed negative (String.ofList ((shortest significand power).write l))

end MacroLang.Double
