import Mathlib.Algebra.Order.Field.Power
import Mathlib.Data.Nat.Cast.Order.Field
import Mathlib.Data.Rat.Cast.Order
import Mathlib.Tactic.Linarith
import Mathlib.Tactic.Positivity
import Mathlib.Tactic.Ring
import MacroLang.Proofs.Number.Rounding

/-!
# The shortest decimal reads back

A decimal that is found on a grid lies in the neighbourhood of the double. With seventeen digits, a step of the grid is
less than the distance between the midpoints, so one is found (`contains_shortest`). It rounds to the double again
(`ofDecimal_eq`).
-/

namespace MacroLang.Double

/-- The number that a decimal stands for. -/
def Decimal.toRat (d : Decimal) : ℚ :=
  d.digits * 10 ^ d.exponent

theorem Decimal.digits_pos {d : Decimal} (h : 0 < d.toRat) : 0 < d.digits := by
  refine Nat.pos_of_ne_zero fun hzero => h.ne ?_
  rw [toRat, hzero, Nat.cast_zero, zero_mul]

/-! ## Decimals on a grid -/

/-- One step of the grid `10 ^ exponent`, in units that `quarter` is measured in too. -/
def step (power exponent : ℤ) : ℕ :=
  tenTo exponent.toNat * twoTo (-power).toNat

/-- The unit `2 ^ power`, measured as `step` is. -/
def quarter (power exponent : ℤ) : ℕ :=
  tenTo (-exponent).toNat * twoTo power.toNat

theorem step_pos (power exponent : ℤ) : 0 < step power exponent :=
  Nat.mul_pos (tenTo_pos _) (twoTo_pos _)

theorem quarter_div_step (power exponent : ℤ) :
    (quarter power exponent : ℚ) / step power exponent = 2 ^ power / 10 ^ exponent := by
  rw [← twoTo_div_twoTo, ← tenTo_div_tenTo, quarter, step]
  push_cast
  rw [div_div_div_eq, mul_comm (tenTo (-exponent).toNat : ℚ), mul_comm (tenTo exponent.toNat : ℚ)]

section

variable {a k : ℕ} {power exponent : ℤ}

theorem mul_quarter_le :
    a * quarter power exponent ≤ k * step power exponent ↔ (a : ℚ) * 2 ^ power ≤ k * 10 ^ exponent := by
  have hstep : (0 : ℚ) < step power exponent := by exact_mod_cast step_pos power exponent
  have hten : (0 : ℚ) < 10 ^ exponent := by positivity
  rw [← Nat.cast_le (α := ℚ)]
  push_cast
  rw [← div_le_iff₀ hstep, mul_div_assoc, quarter_div_step, ← mul_div_assoc, div_le_iff₀ hten]

theorem le_mul_quarter :
    k * step power exponent ≤ a * quarter power exponent ↔ (k : ℚ) * 10 ^ exponent ≤ a * 2 ^ power := by
  have hstep : (0 : ℚ) < step power exponent := by exact_mod_cast step_pos power exponent
  have hten : (0 : ℚ) < 10 ^ exponent := by positivity
  rw [← Nat.cast_le (α := ℚ)]
  push_cast
  rw [← le_div_iff₀ hstep, mul_div_assoc, quarter_div_step, ← mul_div_assoc, le_div_iff₀ hten]

end

/-- Whether the decimal `k * 10 ^ exponent` reads back. -/
def Neighbourhood.inside (n : Neighbourhood) (exponent : ℤ) (k : ℕ) : Bool :=
  if n.closed then
    n.low * quarter n.power exponent ≤ k * step n.power exponent &&
      k * step n.power exponent ≤ n.high * quarter n.power exponent
  else
    n.low * quarter n.power exponent < k * step n.power exponent &&
      k * step n.power exponent < n.high * quarter n.power exponent

theorem Neighbourhood.inside_iff (n : Neighbourhood) (exponent : ℤ) (k : ℕ) :
    n.inside exponent k = true ↔ n.Contains (k * 10 ^ exponent) := by
  unfold inside Contains
  split
  · rename_i hclosed
    simp [hclosed, mul_quarter_le, le_mul_quarter]
  · rename_i hopen
    simp only [Bool.and_eq_true, decide_eq_true_eq, ← not_le, mul_quarter_le, le_mul_quarter]
    simp only [not_le, Bool.eq_false_iff.2 hopen, true_implies]
    exact ⟨fun h => ⟨h.1.le, h.2.le, h⟩, fun h => h.2.2⟩

/-- The step of the grid that is nearest to the double. -/
def Neighbourhood.nearest (n : Neighbourhood) (exponent : ℤ) : ℕ :=
  roundDiv (n.value * quarter n.power exponent) (step n.power exponent)

/-- The step on the other side of the double. -/
def Neighbourhood.farther (n : Neighbourhood) (exponent : ℤ) : ℕ :=
  let below := n.value * quarter n.power exponent / step n.power exponent
  if n.nearest exponent = below then below + 1 else below

theorem onGrid?_eq (n : Neighbourhood) (exponent : ℤ) :
    n.onGrid? exponent =
      if n.inside exponent (n.nearest exponent) then some ⟨n.nearest exponent, exponent⟩
      else if n.inside exponent (n.farther exponent) then some ⟨n.farther exponent, exponent⟩
      else none :=
  rfl

theorem contains_of_onGrid? {n : Neighbourhood} {exponent : ℤ} {d : Decimal} (h : n.onGrid? exponent = some d) :
    n.Contains d.toRat := by
  rw [onGrid?_eq] at h
  split at h
  · rename_i hinside
    cases h
    exact (n.inside_iff _ _).1 hinside
  split at h
  · rename_i hinside
    cases h
    exact (n.inside_iff _ _).1 hinside
  · nomatch h

theorem roundDiv_near {num den : ℕ} (hden : 0 < den) :
    (roundDiv num den : ℚ) - 1 / 2 ≤ num / den ∧ (num : ℚ) / den ≤ roundDiv num den + 1 / 2 := by
  have hden' : (0 : ℚ) < den := by exact_mod_cast hden
  have hmod := Nat.mod_lt num hden
  have hdiv := Nat.div_add_mod num den
  have hround : 2 * (roundDiv num den * den) ≤ 2 * num + den ∧ 2 * num ≤ 2 * (roundDiv num den * den) + den := by
    unfold roundDiv
    dsimp only
    split
    · rw [Nat.mul_comm (num / den)]
      omega
    · rw [Nat.add_mul, Nat.mul_comm (num / den)]
      omega
  have hlow : (2 * (roundDiv num den * den) : ℚ) ≤ 2 * num + den := by exact_mod_cast hround.1
  have hhigh : (2 * num : ℚ) ≤ 2 * (roundDiv num den * den) + den := by exact_mod_cast hround.2
  rw [le_div_iff₀ hden', div_le_iff₀ hden']
  constructor
  · linarith
  · linarith

theorem nearest_near (n : Neighbourhood) (exponent : ℤ) :
    (n.nearest exponent - 1 / 2 : ℚ) * 10 ^ exponent ≤ n.value * 2 ^ n.power ∧
      (n.value : ℚ) * 2 ^ n.power ≤ (n.nearest exponent + 1 / 2) * 10 ^ exponent := by
  have hten : (0 : ℚ) < 10 ^ exponent := by positivity
  have hnear := @roundDiv_near (n.value * quarter n.power exponent) _ (step_pos n.power exponent)
  push_cast at hnear
  rw [mul_div_assoc, quarter_div_step, ← mul_div_assoc, le_div_iff₀ hten, div_le_iff₀ hten] at hnear
  exact hnear

/-- A grid whose steps are small enough has a decimal that reads back. -/
theorem onGrid?_isSome {n : Neighbourhood} {exponent : ℤ}
    (hlow : (10 : ℚ) ^ exponent < 2 * (n.value - n.low) * 2 ^ n.power)
    (hhigh : (10 : ℚ) ^ exponent < 2 * (n.high - n.value) * 2 ^ n.power) : (n.onGrid? exponent).isSome = true := by
  obtain ⟨h₁, h₂⟩ := nearest_near n exponent
  have hlow' : (n.low : ℚ) * 2 ^ n.power < n.nearest exponent * 10 ^ exponent := by linarith
  have hhigh' : (n.nearest exponent : ℚ) * 10 ^ exponent < n.high * 2 ^ n.power := by linarith
  have hinside := (n.inside_iff _ _).2 ⟨hlow'.le, hhigh'.le, fun _ => ⟨hlow', hhigh'⟩⟩
  rw [onGrid?_eq, if_pos hinside]
  rfl

/-! ## Seventeen digits -/

theorem floorLog10_le {num den : ℕ} (hnum : 0 < num) (hden : 0 < den) (hle : den ≤ num * tenTo 399) :
    (10 : ℚ) ^ floorLog10 num den ≤ num / den := by
  have hden' : (0 : ℚ) < den := by exact_mod_cast hden
  unfold floorLog10
  split
  · rename_i hone
    have hquot : 0 < num / den := Nat.div_pos hone hden
    have hlength : 10 ^ ((Nat.toDigits 10 (num / den)).length - 1) ≤ num / den := by
      rcases Nat.eq_zero_or_pos ((Nat.toDigits 10 (num / den)).length - 1) with hzero | hpos
      · rw [hzero, Nat.pow_zero]
        exact hquot
      · have hlong : ¬(Nat.toDigits 10 (num / den)).length ≤ (Nat.toDigits 10 (num / den)).length - 1 := by omega
        exact not_lt.1 (mt (Nat.length_toDigits_le_iff (by decide) hpos).2 hlong)
    have hsize : 0 < (Nat.toDigits 10 (num / den)).length := List.length_pos_iff.2 Nat.toDigits_ne_nil
    rw [show ((Nat.toDigits 10 (num / den)).length : ℤ) - 1 = ((Nat.toDigits 10 (num / den)).length - 1 : ℕ) by omega,
      zpow_natCast]
    calc (10 : ℚ) ^ ((Nat.toDigits 10 (num / den)).length - 1) ≤ (num / den : ℕ) := by exact_mod_cast hlength
      _ ≤ num / den := Nat.cast_div_le
  · have hsome : ((List.range 400).find? fun p => den ≤ num * tenTo p).isSome = true := by
      rw [List.find?_isSome]
      exact ⟨399, by simp, by simpa using hle⟩
    obtain ⟨p, hp⟩ := Option.isSome_iff_exists.1 hsome
    have hden_le : den ≤ num * tenTo p := by simpa using List.find?_some hp
    rw [hp, Option.getD_some, zpow_neg, zpow_natCast, inv_le_comm₀ (by positivity) (by positivity), inv_div,
      div_le_iff₀ (by exact_mod_cast hnum), ← cast_tenTo, mul_comm]
    exact_mod_cast hden_le

section

variable {m : ℕ} {q : ℤ}

/-- Ten is more than three binary digits. -/
theorem twoTo_le_tenTo {a b : ℕ} (h : a ≤ 3 * b) : twoTo a ≤ tenTo b := by
  rw [twoTo, tenTo, Nat.pow_eq, Nat.pow_eq]
  calc 2 ^ a ≤ 2 ^ (3 * b) := Nat.pow_le_pow_right (by decide) h
    _ = (2 ^ 3) ^ b := Nat.pow_mul 2 3 b
    _ ≤ 10 ^ b := Nat.pow_le_pow_left (by decide) b

/-- A double has less than seventeen digits between the midpoints. -/
theorem value_lt (h : IsDouble m q) :
    ((neighbourhood m q).value : ℚ) < 2 * ((neighbourhood m q).value - (neighbourhood m q).low) * 10 ^ 16 ∧
      ((neighbourhood m q).value : ℚ) < 2 * ((neighbourhood m q).high - (neighbourhood m q).value) * 10 ^ 16 := by
  have hm : (m : ℚ) + 1 ≤ 2 ^ 53 := by
    have hlt : m + 1 ≤ 2 ^ 53 := h.lt
    exact_mod_cast hlt
  have hvalue : ((neighbourhood m q).value : ℚ) = 4 * m := by
    simp only [neighbourhood]
    push_cast
    rfl
  have hhigh : ((neighbourhood m q).high : ℚ) = 4 * m + 2 := by
    simp only [neighbourhood]
    push_cast
    rfl
  refine ⟨?_, by linarith⟩
  by_cases hleading : m = leadingBit ∧ leastPower < q
  · have hlow := low_of_leadingBit hleading.2
    rw [← hleading.1] at hlow
    have hleading' : (m : ℚ) = 2 ^ 52 := by
      rw [hleading.1, cast_leadingBit]
      norm_cast
    linarith
  · have hlow := low_of_normal h hleading
    linarith

/-- The power of ten that the first digit of the double stands for. -/
def leadingExponent (m : ℕ) (q : ℤ) : ℤ :=
  let (num, den) := scale (neighbourhood m q).value 1 (q - 2)
  floorLog10 num den

theorem shortest_eq (m : ℕ) (q : ℤ) :
    shortest m q =
      ((List.range 17).findSome? fun count : ℕ => (neighbourhood m q).onGrid? (leadingExponent m q - count)).getD
        ⟨m, 0⟩ :=
  rfl

theorem leadingExponent_le (h : IsDouble m q) :
    (10 : ℚ) ^ leadingExponent m q ≤ (neighbourhood m q).value * 2 ^ (q - 2) := by
  have hvalue : 0 < (neighbourhood m q).value := Nat.mul_pos (by decide) h.pos
  have hnum : 0 < (scale (neighbourhood m q).value 1 (q - 2)).1 := Nat.mul_pos hvalue (twoTo_pos _)
  have hle : (scale (neighbourhood m q).value 1 (q - 2)).2 ≤
      (scale (neighbourhood m q).value 1 (q - 2)).1 * tenTo 399 := by
    have hleast := h.least
    rw [leastPower] at hleast
    rw [show (scale (neighbourhood m q).value 1 (q - 2)).2 = twoTo (-(q - 2)).toNat from Nat.one_mul _]
    exact (twoTo_le_tenTo (by omega)).trans (Nat.le_mul_of_pos_left _ hnum)
  have hlog := floorLog10_le hnum (scale_pos Nat.one_pos _ _) hle
  rwa [scale_ratio, Nat.cast_one, div_one] at hlog

theorem contains_shortest (h : IsDouble m q) : (neighbourhood m q).Contains (shortest m q).toRat := by
  have htop := leadingExponent_le h
  have hstep : (10 : ℚ) ^ (leadingExponent m q - 16) * 10 ^ 16 = 10 ^ leadingExponent m q := by
    rw [← zpow_natCast, ← zpow_add₀ (by norm_num)]
    simp
  have hunit : (0 : ℚ) < 2 ^ (q - 2) := by positivity
  obtain ⟨hlow, hhigh⟩ := value_lt h
  have hlow' := mul_lt_mul_of_pos_right hlow hunit
  have hhigh' := mul_lt_mul_of_pos_right hhigh hunit
  have hsome : ((neighbourhood m q).onGrid? (leadingExponent m q - 16)).isSome = true := by
    refine onGrid?_isSome ?_ ?_
    · show (10 : ℚ) ^ _ < _ * 2 ^ (q - 2)
      linarith
    · show (10 : ℚ) ^ _ < _ * 2 ^ (q - 2)
      linarith
  have hfound : ((List.range 17).findSome? fun count : ℕ =>
      (neighbourhood m q).onGrid? (leadingExponent m q - count)).isSome = true := by
    rw [List.findSome?_isSome_iff]
    exact ⟨16, by simp, hsome⟩
  obtain ⟨d, hd⟩ := Option.isSome_iff_exists.1 hfound
  obtain ⟨count, -, hcount⟩ := List.exists_of_findSome?_eq_some hd
  rw [shortest_eq, hd, Option.getD_some]
  exact contains_of_onGrid? hcount

/-! ## Reading back -/

theorem two_zpow_le (k : ℕ) : (2 : ℚ) ^ (3 * k : ℤ) ≤ 10 ^ (k : ℤ) := by
  have h := twoTo_le_tenTo (Nat.le_refl (3 * k))
  rw [← Nat.cast_le (α := ℚ), cast_twoTo, cast_tenTo] at h
  exact_mod_cast h

/-- The number is far from the exponents at which decimals are not looked at any more. -/
theorem Neighbourhood.Contains.bounds {r : ℚ} (hr : (neighbourhood m q).Contains r) (h : IsDouble m q) :
    (10 : ℚ) ^ (-400 : ℤ) < r ∧ r < 10 ^ (400 : ℤ) := by
  have hpower := two_zpow_le 400
  rw [Nat.cast_ofNat] at hpower
  have hleast := h.least
  have hgreatest := h.greatest
  rw [leastPower] at hleast
  constructor
  · have hlow : (1 : ℚ) ≤ (neighbourhood m q).low := by exact_mod_cast low_pos h
    calc (10 : ℚ) ^ (-400 : ℤ) ≤ 2 ^ (-(3 * 400) : ℤ) := by
          rw [zpow_neg, zpow_neg]
          exact inv_anti₀ (by positivity) hpower
      _ < 2 ^ (q - 2) := zpow_lt_zpow_right₀ (by norm_num) (by omega)
      _ ≤ (neighbourhood m q).low * 2 ^ (q - 2) := le_mul_of_one_le_left (by positivity) hlow
      _ ≤ r := hr.1
  · have hhigh : ((neighbourhood m q).high : ℚ) < 2 ^ (55 : ℤ) := by
      have hlt := h.lt
      have : (neighbourhood m q).high < 2 ^ 55 := by
        simp only [neighbourhood, show 2 * leadingBit = 2 ^ 53 from rfl] at hlt ⊢
        omega
      exact_mod_cast this
    calc r ≤ (neighbourhood m q).high * 2 ^ (q - 2) := hr.2.1
      _ < 2 ^ (55 : ℤ) * 2 ^ (q - 2) := mul_lt_mul_of_pos_right hhigh (by positivity)
      _ = 2 ^ (55 + (q - 2)) := (zpow_add₀ (by norm_num) _ _).symm
      _ ≤ 2 ^ (3 * 400 : ℤ) := zpow_le_zpow_right₀ (by norm_num) (by omega)
      _ ≤ 10 ^ (400 : ℤ) := hpower

/-- A decimal in the neighbourhood of a double is read as that double. -/
theorem ofDecimal_eq (h : IsDouble m q) {digits width : ℕ} (hwidth : digits < 10 ^ width) {exponent : ℤ}
    (hr : (neighbourhood m q).Contains (digits * 10 ^ exponent)) (negative : Bool) :
    ofDecimal negative digits width exponent = ofMagnitude negative ((q - leastPower).toNat * leadingBit + m) := by
  obtain ⟨hlow, hhigh⟩ := hr.bounds h
  have hten : (0 : ℚ) < 10 ^ exponent := by positivity
  have hdigits : 0 < digits := by
    rcases Nat.eq_zero_or_pos digits with rfl | hpos
    · have := hr.pos h
      simp at this
    · exact hpos
  have hleast : -400 < exponent + width := by
    have hlt : (digits : ℚ) < 10 ^ (width : ℤ) := by exact_mod_cast hwidth
    have hpower : (10 : ℚ) ^ (-400 : ℤ) < 10 ^ (exponent + width) := by
      rw [add_comm, zpow_add₀ (by norm_num)]
      exact hlow.trans (mul_lt_mul_of_pos_right hlt hten)
    exact (zpow_lt_zpow_iff_right₀ (by norm_num)).1 hpower
  have hgreatest : exponent < 400 := by
    have hone : (1 : ℚ) ≤ digits := by exact_mod_cast hdigits
    have hpower := (le_mul_of_one_le_left hten.le hone).trans_lt hhigh
    exact (zpow_lt_zpow_iff_right₀ (by norm_num)).1 hpower
  have hratio : ((digits * tenTo exponent.toNat : ℕ) : ℚ) / (tenTo (-exponent).toNat : ℕ) = digits * 10 ^ exponent := by
    rw [← tenTo_div_tenTo]
    push_cast
    exact mul_div_assoc _ _ _
  have hbits := nearestBits_eq h (tenTo_pos (-exponent).toNat) (hratio ▸ hr)
  have hfinite : (q - leastPower).toNat * leadingBit + m < infinityBits := by
    have hm := h.lt
    have hq := h.greatest
    have hplace : (q - leastPower).toNat ≤ 2045 := by
      rw [leastPower]
      omega
    have := Nat.mul_le_mul_right leadingBit hplace
    rw [infinityBits]
    omega
  rw [ofDecimal, if_neg (by omega), if_neg (by omega), ofRatio?, hbits, if_pos hfinite, Option.getD_some]

end

end MacroLang.Double
