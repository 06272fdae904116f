import MacroLang.Number.Double

/-!
# The shortest decimal of a double

A decimal reads back as a double if it lies between the midpoints to the two neighbouring doubles;
a midpoint itself reads back if the significand is even. `shortest` takes the fewest digits that read
back and, of those decimals, the one nearest to the double; a tie goes to the even last digit.
-/

namespace MacroLang.Double

/-- A positive decimal `digits * 10 ^ exponent`. -/
structure Decimal where
  digits : Nat
  exponent : Int

/-- A positive double in units of a quarter of its last place: the midpoints to its neighbours below
and above, the double itself between them, and whether the midpoints read back as the double. -/
structure Neighbourhood where
  low : Nat
  value : Nat
  high : Nat
  closed : Bool
  power : Int

def neighbourhood (significand : Nat) (power : Int) : Neighbourhood where
  low := if significand = leadingBit ∧ leastPower < power then 4 * significand - 1 else 4 * significand - 2
  value := 4 * significand
  high := 4 * significand + 2
  closed := significand % 2 = 0
  power := power - 2

/-- The largest `e` with `10 ^ e ≤ num / den`, for a quotient of at least `10 ^ (-400)`. -/
def floorLog10 (num den : Nat) : Int :=
  if den ≤ num then (Nat.toDigits 10 (num / den)).length - 1
  else -(((List.range 400).find? fun p => den ≤ num * tenTo p).getD 0)

/-- The decimal with unit `10 ^ exponent` that reads back, if there is one, the nearer of two. -/
def Neighbourhood.onGrid? (n : Neighbourhood) (exponent : Int) : Option Decimal :=
  -- One step of the grid and one quarter of the last place, over a common denominator.
  let step := tenTo exponent.toNat * twoTo (-n.power).toNat
  let quarter := tenTo (-exponent).toNat * twoTo n.power.toNat
  let inside (k : Nat) : Bool :=
    if n.closed then n.low * quarter ≤ k * step && k * step ≤ n.high * quarter
    else n.low * quarter < k * step && k * step < n.high * quarter
  let below := n.value * quarter / step
  let nearest := roundDiv (n.value * quarter) step
  let other := if nearest = below then below + 1 else below
  if inside nearest then some ⟨nearest, exponent⟩
  else if inside other then some ⟨other, exponent⟩
  else none

/-- The fewest digits that read back as `significand * 2 ^ power`. Seventeen digits always do. -/
def shortest (significand : Nat) (power : Int) : Decimal :=
  let n := neighbourhood significand power
  let (num, den) := scale n.value 1 n.power
  let top := floorLog10 num den
  ((List.range 17).findSome? fun (count : Nat) => n.onGrid? (top - count)).getD ⟨significand, 0⟩

end MacroLang.Double
