import Mathlib.Algebra.Order.Field.Power
import Mathlib.Data.Rat.Cast.Order
import Mathlib.Tactic.FieldSimp
import Mathlib.Tactic.Linarith
import Mathlib.Tactic.Positivity
import Mathlib.Tactic.Ring
import MacroLang.Number.Shortest

/-!
# Rounding to the nearest double

The double nearest to a quotient is found by scaling it to the size of a significand and rounding to a natural number. A
quotient between the midpoints to the two neighbours of a double rounds to that double (`nearestBits_eq`). The
comparisons are made between rational numbers, `m * 2 ^ q` for a double and `k * 10 ^ e` for a decimal.
-/

namespace MacroLang.Double

/-! ## Powers -/

theorem cast_twoTo (n : ℕ) : (twoTo n : ℚ) = 2 ^ n := by
  rw [twoTo, Nat.pow_eq]
  push_cast
  rfl

theorem cast_tenTo (n : ℕ) : (tenTo n : ℚ) = 10 ^ n := by
  rw [tenTo, Nat.pow_eq]
  push_cast
  rfl

theorem cast_leadingBit : (leadingBit : ℚ) = 2 ^ (52 : ℤ) := by
  rw [leadingBit, cast_twoTo]
  norm_cast

/-- A power with an integer exponent as a quotient of two with natural ones. -/
theorem zpow_eq_div (a : ℚ) (k : ℤ) : a ^ k = a ^ k.toNat / a ^ (-k).toNat := by
  rcases Int.le_total 0 k with hk | hk
  · have hneg : (-k).toNat = 0 := by omega
    rw [hneg, pow_zero, div_one, ← zpow_natCast, Int.toNat_of_nonneg hk]
  · have hpos : k.toNat = 0 := by omega
    rw [hpos, pow_zero, one_div, ← zpow_natCast, Int.toNat_of_nonneg (by omega), zpow_neg, inv_inv]

theorem twoTo_div_twoTo (k : ℤ) : (twoTo k.toNat : ℚ) / twoTo (-k).toNat = 2 ^ k := by
  rw [cast_twoTo, cast_twoTo, ← zpow_eq_div]

theorem tenTo_div_tenTo (k : ℤ) : (tenTo k.toNat : ℚ) / tenTo (-k).toNat = 10 ^ k := by
  rw [cast_tenTo, cast_tenTo, ← zpow_eq_div]

theorem twoTo_pos (n : ℕ) : 0 < twoTo n :=
  Nat.pow_pos (by decide)

theorem tenTo_pos (n : ℕ) : 0 < tenTo n :=
  Nat.pow_pos (by decide)

theorem scale_ratio (num den : ℕ) (shift : ℤ) :
    ((scale num den shift).1 : ℚ) / (scale num den shift).2 = num / den * 2 ^ shift := by
  rw [← twoTo_div_twoTo, scale]
  push_cast
  exact mul_div_mul_comm _ _ _ _

theorem scale_pos {den : ℕ} (h : 0 < den) (num : ℕ) (shift : ℤ) : 0 < (scale num den shift).2 :=
  Nat.mul_pos h (twoTo_pos _)

/-! ## Logarithms and quotients -/

theorem floorLog2_spec {num den : ℕ} (hnum : 0 < num) (hden : 0 < den) :
    (2 : ℚ) ^ floorLog2 num den ≤ num / den ∧ (num : ℚ) / den < 2 ^ (floorLog2 num den + 1) := by
  have hden' : (0 : ℚ) < den := by exact_mod_cast hden
  -- The logarithms of numerator and denominator give the one of the quotient up to one.
  have hlow : (2 : ℚ) ^ ((num.log2 : ℤ) - den.log2 - 1) ≤ num / den := by
    have hn : (2 : ℚ) ^ (num.log2 : ℤ) ≤ num := by exact_mod_cast Nat.log2_self_le hnum.ne'
    have hd : (den : ℚ) ≤ 2 ^ ((den.log2 : ℤ) + 1) := by exact_mod_cast Nat.lt_log2_self.le
    rw [sub_sub, zpow_sub₀ (by norm_num)]
    exact div_le_div₀ (Nat.cast_nonneg _) hn hden' hd
  have hhigh : (num : ℚ) / den < 2 ^ ((num.log2 : ℤ) - den.log2 + 1) := by
    have hn : (num : ℚ) < 2 ^ ((num.log2 : ℤ) + 1) := by exact_mod_cast Nat.lt_log2_self
    have hd : (2 : ℚ) ^ (den.log2 : ℤ) ≤ den := by exact_mod_cast Nat.log2_self_le hden.ne'
    rw [sub_add_eq_add_sub, zpow_sub₀ (by norm_num)]
    exact div_lt_div₀ hn hd (by positivity) (by positivity)
  have hscale := scale_ratio num den (-((num.log2 : ℤ) - den.log2))
  have hpos : (0 : ℚ) < (scale num den (-((num.log2 : ℤ) - den.log2))).2 := by
    exact_mod_cast scale_pos hden num _
  have hunit : (2 : ℚ) ^ (-((num.log2 : ℤ) - den.log2)) * 2 ^ ((num.log2 : ℤ) - den.log2) = 1 := by
    rw [← zpow_add₀ (by norm_num)]
    simp
  unfold floorLog2
  dsimp only
  split
  · rename_i hle
    refine ⟨?_, hhigh⟩
    have hone : (1 : ℚ) ≤ num / den * 2 ^ (-((num.log2 : ℤ) - den.log2)) := by
      rw [← hscale, one_le_div hpos]
      exact_mod_cast hle
    calc (2 : ℚ) ^ ((num.log2 : ℤ) - den.log2)
        ≤ num / den * 2 ^ (-((num.log2 : ℤ) - den.log2)) * 2 ^ ((num.log2 : ℤ) - den.log2) :=
          le_mul_of_one_le_left (by positivity) hone
      _ = num / den := by rw [mul_assoc, hunit, mul_one]
  · rename_i hlt
    refine ⟨hlow, ?_⟩
    have hone : (num : ℚ) / den * 2 ^ (-((num.log2 : ℤ) - den.log2)) < 1 := by
      rw [← hscale, div_lt_one hpos]
      exact_mod_cast not_le.1 hlt
    calc (num : ℚ) / den
        = num / den * 2 ^ (-((num.log2 : ℤ) - den.log2)) * 2 ^ ((num.log2 : ℤ) - den.log2) := by
          rw [mul_assoc, hunit, mul_one]
      _ < 1 * 2 ^ ((num.log2 : ℤ) - den.log2) := mul_lt_mul_of_pos_right hone (by positivity)
      _ = 2 ^ ((num.log2 : ℤ) - den.log2 - 1 + 1) := by rw [one_mul, sub_add_cancel]

/-- The natural number that a quotient is nearest to. A tie goes to the even one. -/
theorem roundDiv_eq {num den k : ℕ} (hden : 0 < den) (hlow : (k : ℚ) - 1 / 2 ≤ num / den)
    (hhigh : (num : ℚ) / den ≤ k + 1 / 2)
    (hodd : k % 2 = 1 → (k : ℚ) - 1 / 2 < num / den ∧ (num : ℚ) / den < k + 1 / 2) : roundDiv num den = k := by
  have hden' : (0 : ℚ) < den := by exact_mod_cast hden
  have hlow' : 2 * (k * den) ≤ 2 * num + den := by
    rw [le_div_iff₀ hden'] at hlow
    have : (2 * (k * den) : ℚ) ≤ 2 * num + den := by linarith
    exact_mod_cast this
  have hhigh' : 2 * num ≤ 2 * (k * den) + den := by
    rw [div_le_iff₀ hden'] at hhigh
    have : (2 * num : ℚ) ≤ 2 * (k * den) + den := by linarith
    exact_mod_cast this
  have hodd' : k % 2 = 1 → 2 * (k * den) < 2 * num + den ∧ 2 * num < 2 * (k * den) + den := by
    intro hk
    obtain ⟨h₁, h₂⟩ := hodd hk
    rw [lt_div_iff₀ hden'] at h₁
    rw [div_lt_iff₀ hden'] at h₂
    have h₃ : (2 * (k * den) : ℚ) < 2 * num + den := by linarith
    have h₄ : (2 * num : ℚ) < 2 * (k * den) + den := by linarith
    exact ⟨by exact_mod_cast h₃, by exact_mod_cast h₄⟩
  have hdiv := Nat.div_add_mod num den
  have hmod := Nat.mod_lt num hden
  -- The number is the quotient or one more.
  have hk : k = num / den ∨ k = num / den + 1 := by
    have h₁ : num / den ≤ k := by
      by_contra h
      have := Nat.mul_le_mul_right den (show k + 1 ≤ num / den by omega)
      rw [Nat.add_mul, Nat.one_mul, Nat.mul_comm (num / den)] at this
      omega
    have h₂ : k ≤ num / den + 1 := by
      by_contra h
      have := Nat.mul_le_mul_right den (show num / den + 2 ≤ k by omega)
      rw [Nat.add_mul, Nat.mul_comm (num / den)] at this
      omega
    omega
  unfold roundDiv
  dsimp only
  rcases hk with hk | hk
  · rw [hk, Nat.mul_comm (num / den)] at hlow' hhigh' hodd'
    rw [if_pos (by omega), hk]
  · rw [hk, Nat.add_mul, Nat.mul_comm (num / den), Nat.one_mul] at hlow' hhigh' hodd'
    rw [if_neg (by omega), hk]

/-! ## The nearest double -/

/-- The significand and the power of a positive double. -/
structure IsDouble (m : ℕ) (q : ℤ) : Prop where
  pos : 0 < m
  lt : m < 2 * leadingBit
  least : leastPower ≤ q
  greatest : q ≤ 971
  normal : leastPower < q → leadingBit ≤ m

/-- The number lies between the midpoints, or on one of them if they read back. -/
def Neighbourhood.Contains (n : Neighbourhood) (r : ℚ) : Prop :=
  n.low * 2 ^ n.power ≤ r ∧ r ≤ n.high * 2 ^ n.power ∧
    (n.closed = false → n.low * 2 ^ n.power < r ∧ r < n.high * 2 ^ n.power)

/-- In units of the last place, the number is at most one half off. -/
theorem Neighbourhood.Contains.units {m : ℕ} {q : ℤ} {r : ℚ} (h : (neighbourhood m q).Contains r) :
    ((neighbourhood m q).low : ℚ) / 4 ≤ r * 2 ^ (-q) ∧ r * 2 ^ (-q) ≤ m + 1 / 2 ∧
      (m % 2 = 1 → ((neighbourhood m q).low : ℚ) / 4 < r * 2 ^ (-q) ∧ r * 2 ^ (-q) < m + 1 / 2) := by
  have hunit : (0 : ℚ) < 2 ^ (-q) := by positivity
  have hpower : (2 : ℚ) ^ (q - 2) * 2 ^ (-q) = 1 / 4 := by
    rw [← zpow_add₀ (by norm_num), show q - 2 + -q = -2 by omega]
    norm_num
  have hlow (x : ℚ) : x * 2 ^ (q - 2) * 2 ^ (-q) = x / 4 := by
    rw [mul_assoc, hpower, mul_one_div]
  have hhigh : ((neighbourhood m q).high : ℚ) / 4 = m + 1 / 2 := by
    simp only [neighbourhood]
    push_cast
    ring
  obtain ⟨h₁, h₂, h₃⟩ := h
  have h₁' := mul_le_mul_of_nonneg_right h₁ hunit.le
  have h₂' := mul_le_mul_of_nonneg_right h₂ hunit.le
  rw [show (neighbourhood m q).power = q - 2 from rfl, hlow] at h₁' h₂'
  rw [hhigh] at h₂'
  refine ⟨h₁', h₂', fun hodd => ?_⟩
  have hclosed : (neighbourhood m q).closed = false := by simp [neighbourhood, hodd]
  have h₃' := mul_lt_mul_of_pos_right (h₃ hclosed).1 hunit
  have h₄' := mul_lt_mul_of_pos_right (h₃ hclosed).2 hunit
  rw [show (neighbourhood m q).power = q - 2 from rfl, hlow] at h₃' h₄'
  rw [hhigh] at h₄'
  exact ⟨h₃', h₄'⟩

section

variable {m : ℕ} {q : ℤ}

theorem low_of_normal (h : IsDouble m q) (hm : ¬(m = leadingBit ∧ leastPower < q)) :
    ((neighbourhood m q).low : ℚ) / 4 = m - 1 / 2 := by
  have hpos := h.pos
  have hlow : (neighbourhood m q).low + 2 = 4 * m := by
    simp only [neighbourhood, if_neg hm]
    omega
  have hcast : ((neighbourhood m q).low : ℚ) + 2 = 4 * m := by exact_mod_cast hlow
  linarith

/-- Below a power of two, the doubles are twice as close. -/
theorem low_of_leadingBit (hq : leastPower < q) :
    ((neighbourhood leadingBit q).low : ℚ) / 4 = leadingBit - 1 / 4 := by
  have hlow : (neighbourhood leadingBit q).low + 1 = 4 * leadingBit := by
    simp only [neighbourhood, hq, and_self, if_true]
    decide
  have hcast : ((neighbourhood leadingBit q).low : ℚ) + 1 = 4 * leadingBit := by exact_mod_cast hlow
  linarith

theorem le_low (h : IsDouble m q) : (m : ℚ) - 1 / 2 ≤ ((neighbourhood m q).low : ℚ) / 4 := by
  by_cases hm : m = leadingBit ∧ leastPower < q
  · obtain ⟨rfl, hq⟩ := hm
    rw [low_of_leadingBit hq]
    linarith
  · rw [low_of_normal h hm]

theorem low_pos (h : IsDouble m q) : (0 : ℚ) < (neighbourhood m q).low := by
  have hpos := h.pos
  have hlow : 0 < (neighbourhood m q).low := by
    simp only [neighbourhood]
    split
    · omega
    · omega
  exact_mod_cast hlow

theorem Neighbourhood.Contains.pos {r : ℚ} (h : (neighbourhood m q).Contains r) (hm : IsDouble m q) : 0 < r :=
  lt_of_lt_of_le (mul_pos (low_pos hm) (by positivity)) h.1

/-- A quotient in the neighbourhood of a double rounds to that double. -/
theorem nearestBits_eq (h : IsDouble m q) {num den : ℕ} (hden : 0 < den)
    (hr : (neighbourhood m q).Contains ((num : ℚ) / den)) :
    nearestBits num den = (q - leastPower).toNat * leadingBit + m := by
  have hnum : 0 < num := by
    have hpos := hr.pos h
    rcases Nat.eq_zero_or_pos num with rfl | hnum
    · simp at hpos
    · exact hnum
  obtain ⟨hlow, hhigh, hodd⟩ := hr.units
  obtain ⟨hlog, hlog'⟩ := floorLog2_spec hnum hden
  have hm : (m : ℚ) + 1 ≤ 2 ^ (53 : ℤ) := by
    have hlt : m + 1 ≤ 2 ^ 53 := h.lt
    exact_mod_cast hlt
  have hunit : (0 : ℚ) < 2 ^ (-q) := by positivity
  have hscale (e : ℤ) : (2 : ℚ) ^ e * 2 ^ (-q) = 2 ^ (e - q) := by
    rw [← zpow_add₀ (by norm_num), sub_eq_add_neg]
  have hlog₁ := mul_le_mul_of_nonneg_right hlog hunit.le
  have hlog₂ := mul_lt_mul_of_pos_right hlog' hunit
  rw [hscale] at hlog₁ hlog₂
  -- The number has at most as many binary digits as the double.
  have htop : floorLog2 num den - 52 ≤ q := by
    have hlt : (2 : ℚ) ^ (floorLog2 num den - q) < 2 ^ (53 : ℤ) := by linarith
    have := (zpow_lt_zpow_iff_right₀ (by norm_num : (1 : ℚ) < 2)).1 hlt
    omega
  rw [nearestBits, if_neg hnum.ne']
  dsimp only
  by_cases hq : leastPower < q ∧ floorLog2 num den - 52 < q
  · -- It has one digit less only just below a power of two.
    obtain ⟨hnormal, hless⟩ := hq
    have hbelow : (num : ℚ) / den * 2 ^ (-q) < leadingBit := by
      rw [cast_leadingBit]
      refine hlog₂.trans_le (zpow_le_zpow_right₀ (by norm_num) ?_)
      omega
    have hleading : m = leadingBit := by
      by_contra hne
      rw [low_of_normal h fun hm => hne hm.1] at hlow
      have hnext : leadingBit + 1 ≤ m := by
        have := h.normal hnormal
        omega
      have hcast : (leadingBit : ℚ) + 1 ≤ m := by exact_mod_cast hnext
      linarith
    subst hleading
    rw [low_of_leadingBit hnormal] at hlow
    have hlog₃ : q + 51 ≤ floorLog2 num den := by
      have hhalf : (2 : ℚ) ^ (51 : ℤ) < 2 ^ (floorLog2 num den + 1 - q) := by
        rw [cast_leadingBit] at hlow
        exact lt_of_lt_of_le (by norm_num) hlow |>.trans hlog₂
      have := (zpow_lt_zpow_iff_right₀ (by norm_num : (1 : ℚ) < 2)).1 hhalf
      omega
    have hpower : max (floorLog2 num den - 52) leastPower = q - 1 := by omega
    have hdouble : (num : ℚ) / den * 2 ^ (-(q - 1)) = 2 * (num / den * 2 ^ (-q)) := by
      rw [show -(q - 1) = 1 + -q by omega, zpow_add₀ (by norm_num), zpow_one]
      ring
    have hround : roundDiv (scale num den (-(q - 1))).1 (scale num den (-(q - 1))).2 = 2 * leadingBit := by
      refine roundDiv_eq (scale_pos hden _ _) ?_ ?_ (by omega) <;> rw [scale_ratio, hdouble] <;> push_cast <;> linarith
    have hplace : (q - leastPower).toNat = (q - 1 - leastPower).toNat + 1 := by omega
    rw [hpower, hround, hplace, Nat.add_mul]
    omega
  · have hpower : max (floorLog2 num den - 52) leastPower = q := by
      have := h.least
      omega
    have hround : roundDiv (scale num den (-q)).1 (scale num den (-q)).2 = m := by
      have hlow' := le_low h
      refine roundDiv_eq (scale_pos hden _ _) ?_ ?_ fun hm => ?_
      · rw [scale_ratio]
        exact hlow'.trans hlow
      · rwa [scale_ratio]
      · rw [scale_ratio]
        exact ⟨hlow'.trans_lt (hodd hm).1, (hodd hm).2⟩
    rw [hpower, hround]

end

end MacroLang.Double
