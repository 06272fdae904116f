import Mathlib
import MacroLang.Number.Basic
import MacroLang.Proofs.Number.Rounding

/-!
# The bits of a double

Bits that are not those of a NaN are kept (`toBits_ofBits`). So a double that is put together from a sign and a
magnitude is viewed as that (`view_ofMagnitude`), and the view of a finite number determines it (`of_view_finite`).

That unpacking undoes packing is `Float.Model.UnpackedFloat.pack_unpack`. No single file of Mathlib has it, only the
whole library.
-/

namespace MacroLang.Double

open Float.Model

theorem isNaNBits_iff (b : BitVec 64) :
    @UnpackedFloat.isNaNBits Format.binary64 b = true ↔ infinityBits < b.toNat % signBit := by
  have hexponent : (@UnpackedFloat.unpackExponent Format.binary64 b).toNat = b.toNat / 2 ^ 52 % 2 ^ 11 := by
    rw [UnpackedFloat.unpackExponent_def, BitVec.extractLsb'_toNat, Nat.shiftRight_eq_div_pow]
  have hmantissa : (@UnpackedFloat.unpackMantissa Format.binary64 b).toNat = b.toNat % 2 ^ 52 := by
    rw [UnpackedFloat.unpackMantissa_def, BitVec.extractLsb'_toNat, Nat.shiftRight_zero]
  rw [UnpackedFloat.isNaNBits, decide_eq_true_eq, Ne, ← BitVec.toNat_inj, ← BitVec.toNat_inj, hexponent, hmantissa]
  show b.toNat / 2 ^ 52 % 2 ^ 11 = 2047 ∧ ¬b.toNat % 2 ^ 52 = 0 ↔ 2047 * 2 ^ 52 < b.toNat % 2 ^ 63
  have := b.isLt
  omega

theorem toBits_ofBits {b : UInt64} (h : b.toNat % signBit ≤ infinityBits) : (Float.ofBits b).toBits = b := by
  have hpack := @UnpackedFloat.pack_unpack Format.binary64 b.toBitVec
  rw [if_neg] at hpack
  · exact UInt64.toBitVec_inj.1 (hpack (by decide))
  · rw [isNaNBits_iff]
    exact not_lt.2 h

/-- The sign bit and the magnitude. -/
def signed (negative : Bool) (magnitude : ℕ) : ℕ :=
  if negative then signBit + magnitude else magnitude

theorem signed_mod {negative : Bool} {magnitude : ℕ} (h : magnitude ≤ infinityBits) :
    signed negative magnitude % signBit = magnitude ∧ (signBit ≤ signed negative magnitude ↔ negative = true) := by
  have hlt : magnitude < signBit := h.trans_lt (by decide)
  cases negative with
  | true => simp [signed, Nat.mod_eq_of_lt hlt]
  | false => simp [signed, Nat.mod_eq_of_lt hlt, hlt]

theorem view_ofMagnitude (negative : Bool) {magnitude : ℕ} (h : magnitude ≤ infinityBits) :
    view (ofMagnitude negative magnitude) = viewBits (signed negative magnitude) := by
  have hlt : signed negative magnitude < 2 ^ 64 := by
    have hmagnitude : magnitude < signBit := h.trans_lt (by decide)
    rw [signed]
    split
    · exact lt_of_lt_of_eq (Nat.add_lt_add_left hmagnitude _) rfl
    · exact hmagnitude.trans (by decide)
  have hbits : (UInt64.ofNat (signed negative magnitude)).toNat = signed negative magnitude :=
    UInt64.toNat_ofNat_of_lt' hlt
  have hkept : (ofMagnitude negative magnitude).toBits = UInt64.ofNat (signed negative magnitude) := by
    refine toBits_ofBits ?_
    show (UInt64.ofNat (signed negative magnitude)).toNat % signBit ≤ infinityBits
    rw [hbits, (signed_mod h).1]
    exact h
  rw [view, hkept, hbits]

/-! ## Numbers -/

/-- A double that is not a NaN. -/
def IsNumber (x : Float) : Prop :=
  view x ≠ .nan

theorem isNumber_ofMagnitude (negative : Bool) {magnitude : ℕ} (h : magnitude ≤ infinityBits) :
    IsNumber (ofMagnitude negative magnitude) := by
  rw [IsNumber, view_ofMagnitude negative h, viewBits]
  simp only [(signed_mod h).1, if_neg (not_lt.2 h)]
  split_ifs <;> nofun

/-- What is read is never a NaN. -/
theorem isNumber_ofDecimal (negative : Bool) (digits width : ℕ) (exponent : ℤ) :
    IsNumber (ofDecimal negative digits width exponent) := by
  have hinfinity : IsNumber (infinity negative) := isNumber_ofMagnitude negative le_rfl
  unfold ofDecimal ofRatio?
  dsimp only
  split_ifs with hzero hlarge hbits
  · exact isNumber_ofMagnitude negative (Nat.zero_le _)
  · exact hinfinity
  · exact isNumber_ofMagnitude negative hbits.le
  · exact hinfinity

theorem equal_self {x : Float} (h : IsNumber x) : (Number.float x).equal (.float x) = true := by
  have hnan : x ≠ Float.nan := by
    rintro rfl
    exact h rfl
  have hbeq : (x == x) = true := Float.beq_self_iff.2 hnan
  have hcompare : x.toModel.unpack.compare x.toModel.unpack = some .eq := beq_iff_eq.1 hbeq
  have hless : ¬x < x := by
    intro hlt
    have hlt' : (x.toModel.unpack.compare x.toModel.unpack == some .lt) = true := of_decide_eq_true hlt
    rw [hcompare] at hlt'
    cases hlt'
  simp [Number.equal, Number.compare?, hbeq, hless]

/-- The bits of a number are its sign and a magnitude. -/
theorem exists_ofMagnitude {x : Float} (h : IsNumber x) :
    ∃ negative magnitude, magnitude ≤ infinityBits ∧ x = ofMagnitude negative magnitude := by
  refine ⟨decide (signBit ≤ x.toBits.toNat), x.toBits.toNat % signBit, ?_, ?_⟩
  · by_contra hlarge
    refine h ?_
    rw [view, viewBits]
    exact if_pos (not_le.1 hlarge)
  · have hbits : signed (decide (signBit ≤ x.toBits.toNat)) (x.toBits.toNat % signBit) = x.toBits.toNat := by
      have hlt : x.toBits.toNat < 2 * signBit := x.toBits.toNat_lt
      rw [signed]
      simp only [decide_eq_true_eq]
      split
      · rename_i hsign
        rw [Nat.mod_eq_sub_mod hsign, Nat.mod_eq_of_lt (by omega)]
        omega
      · rename_i hsign
        exact Nat.mod_eq_of_lt (not_le.1 hsign)
    show x = Float.ofBits (UInt64.ofNat (signed _ _))
    rw [hbits, UInt64.ofNat_toNat, Float.ofBits_toBits]

/-- A finite number is its sign, its significand and its power. -/
theorem of_view_finite {x : Float} {negative : Bool} {m : ℕ} {q : ℤ} (h : view x = .finite negative m q) :
    x = ofMagnitude negative ((q - leastPower).toNat * leadingBit + m) ∧
      (0 < m → IsDouble m q) ∧ (m = 0 → q = leastPower) := by
  have hnumber : IsNumber x := by
    rw [IsNumber, h]
    nofun
  obtain ⟨negative', magnitude, hle, rfl⟩ := exists_ofMagnitude hnumber
  rw [view_ofMagnitude _ hle, viewBits] at h
  obtain ⟨hmod, hsign⟩ := @signed_mod negative' magnitude hle
  simp only [hmod, hsign, if_neg (not_lt.2 hle), Bool.decide_eq_true] at h
  have hdiv := Nat.div_add_mod magnitude leadingBit
  have hrest := Nat.mod_lt magnitude (show 0 < leadingBit by decide)
  have hexponent : magnitude ≠ infinityBits → magnitude / leadingBit < 2047 := fun hne =>
    Nat.div_lt_of_lt_mul (Nat.mul_comm 2047 _ ▸ lt_of_le_of_ne hle hne)
  generalize magnitude / leadingBit = exponent at h hdiv hexponent
  split_ifs at h with hinfinite hsubnormal
  · cases h
    have hmagnitude : (leastPower - leastPower).toNat * leadingBit + magnitude % leadingBit = magnitude := by
      rw [hsubnormal] at hdiv
      rw [Int.sub_self]
      exact hdiv
    rw [hmagnitude]
    exact ⟨rfl, fun hpos => ⟨hpos, by omega, le_rfl, by decide, fun hlt => absurd hlt (lt_irrefl _)⟩, fun _ => rfl⟩
  · cases h
    have hplace : (exponent + leastPower - 1 - leastPower).toNat + 1 = exponent := by omega
    have hmagnitude : (exponent + leastPower - 1 - leastPower).toNat * leadingBit +
        (leadingBit + magnitude % leadingBit) = magnitude := by
      rw [← hplace, Nat.mul_add, Nat.mul_one, Nat.mul_comm] at hdiv
      rw [← Nat.add_assoc]
      exact hdiv
    rw [hmagnitude]
    have hleading : 0 < leadingBit := by decide
    have hlarge := hexponent hinfinite
    refine ⟨rfl, fun _ => ⟨by omega, by omega, by omega, ?_, fun _ => by omega⟩, by omega⟩
    rw [leastPower]
    omega

end MacroLang.Double
