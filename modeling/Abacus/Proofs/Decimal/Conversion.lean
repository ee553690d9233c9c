import Mathlib
import Abacus.Proofs.Number.Rounding

/-! A decimal is converted to the nearest number. Small decimals are converted by one product or
quotient of numbers that are exact, all others with whole numbers of any length; either way only the
result is rounded. -/

namespace Abacus

open Float.Model UnpackedFloat

section Exact

variable {m n : ℕ} {t : ℤ}

theorem le_targetExponent (h : 2 ^ 52 ≤ m) (e : ℤ) :
    e ≤ Format.binary64.targetExponent (totalExponent m e) := by
  have hlog : 52 ≤ m.log2 := (Nat.le_log2 (by omega)).mpr h
  rw [targetExponent_eq]
  omega

theorem toNat_fullMantissa (f : BitVec 52) : (1#1 ++ f).toNat = 2 ^ 52 + f.toNat := by
  rw [BitVec.toNat_append, ← Nat.shiftLeft_add_eq_or_of_lt (BitVec.isLt _), Nat.shiftLeft_eq]
  simp

theorem unpack_pack_finite (s : Sign) (hn : 2 ^ 52 ≤ n) (hlt : n < 2 ^ 53) (hleast : -1074 ≤ t)
    (hmost : t ≤ 971) : (pack (.finite s n t (by omega))).unpack = .finite s n t (by omega) := by
  have hlog : n.log2 = 52 := by
    have hlow : 52 ≤ n.log2 := (Nat.le_log2 (by omega)).mpr hn
    have hhigh : n.log2 < 53 := (Nat.log2_lt (by omega)).mpr hlt
    omega
  obtain ⟨k, rfl⟩ : ∃ k : ℕ, t = k - 1075 := ⟨(t + 1075).toNat, by omega⟩
  have hexponent : (BitVec.ofNat 11 k).toNat = k := by
    rw [BitVec.toNat_ofNat, Nat.mod_eq_of_lt (by omega)]
  have hzero : BitVec.ofNat 11 k ≠ 0#11 := fun h => by
    have := congrArg BitVec.toNat h
    rw [hexponent, BitVec.toNat_zero] at this
    omega
  have hones : BitVec.ofNat 11 k ≠ -1#11 := fun h => by
    have := congrArg BitVec.toNat h
    rw [hexponent, show (-1#11 : BitVec 11).toNat = 2047 by decide] at this
    omega
  have hmantissa : (1#1 ++ BitVec.ofNat 52 n).toNat = n := by
    rw [toNat_fullMantissa, BitVec.toNat_ofNat]
    omega
  have hbiased : ((k : ℤ) - 1075 + Format.binary64.exponentBias + (52 : ℕ)).toNat = k := by
    dsimp only [Format.exponentBias]
    omega
  have hpacked : UnpackedFloat.pack .binary64 (.finite s n (k - 1075) (by omega)) =
      packComponents .binary64 s (BitVec.ofNat 11 k) (BitVec.ofNat 52 n) := by
    have hfits : ¬ 2 ^ 11 ≤ k + 1 := by omega
    have hfull : n.log2 + 1 = Format.binary64.mantissaBits := by rw [hlog]; rfl
    simp only [UnpackedFloat.pack, hbiased, if_neg hfits, if_pos hfull]
  have hunpacked : UnpackedFloat.unpack .binary64
      (packComponents .binary64 s (BitVec.ofNat 11 k) (BitVec.ofNat 52 n)) =
        .finite s n (k - 1075) (by omega) := by
    unfold UnpackedFloat.unpack
    simp only [unpackMantissa_packComponents, unpackExponent_packComponents,
      unpackSign_packComponents, Sign.ofBitVec_toBitVec, if_neg hones, if_neg hzero,
      hmantissa, hexponent]
    rfl
  simp only [Float.Model.pack, Float.Model.unpack, hpacked, hunpacked]

theorem unpack_toFloat (hpos : 0 < m) (hlt : m < 2 ^ 53) :
    ∃ (n : ℕ) (t : ℤ) (h : 0 < n), m.toUInt64.toFloat.toModel.unpack = .finite .positive n t h ∧
      2 ^ 52 ≤ n ∧
      (n : ℚ) * 2 ^ t = m := by
  have hlog : m.log2 < 53 := (Nat.log2_lt hpos.ne').mpr hlt
  have hlow : 2 ^ m.log2 ≤ m := Nat.log2_self_le hpos.ne'
  have hhigh : m < 2 ^ (m.log2 + 1) := Nat.lt_log2_self
  obtain ⟨shift, hshift⟩ : ∃ shift, m.log2 + shift = 52 := ⟨52 - m.log2, by omega⟩
  have hfull : 2 ^ 52 ≤ m * 2 ^ shift := by
    calc 2 ^ 52 = 2 ^ m.log2 * 2 ^ shift := by rw [← pow_add, hshift]
      _ ≤ m * 2 ^ shift := Nat.mul_le_mul_right _ hlow
  have hshort : m * 2 ^ shift < 2 ^ 53 := by
    calc m * 2 ^ shift < 2 ^ (m.log2 + 1) * 2 ^ shift :=
        Nat.mul_lt_mul_of_pos_right hhigh (by positivity)
      _ = 2 ^ 53 := by rw [← pow_add]; congr 1; omega
  have hn : Normalized (m * 2 ^ shift) (-shift) := ⟨by positivity, hshort, by omega, .inr hfull⟩
  have hvalue : ((m * 2 ^ shift : ℕ) : ℚ) * 2 ^ (-shift : ℤ) = m := by
    rw [zpow_neg, zpow_natCast]
    push_cast
    field_simp
  have hrounded : UnpackedFloat.ofNat .binary64 m =
      .finite .positive (m * 2 ^ shift) (-shift) hn.pos := by
    have htarget : Format.binary64.targetExponent (totalExponent m 0) = -shift := by
      rw [targetExponent_eq]
      omega
    have hexact : UnpackedFloat.ofNat .binary64 m =
        roundWithAccuracy .binary64 .positive (m * 2 ^ shift) (-shift) .exact := by
      have hgt : compare (m : ℤ) 0 = .gt := Int.compare_eq_gt.mpr (by omega)
      simp only [UnpackedFloat.ofNat, UnpackedFloat.ofInt, UnpackedFloat.normalize, hgt,
        UnpackedFloat.round, Int.toNat_natCast, htarget, decreaseExponent, sub_neg_eq_add, zero_add,
        Nat.shiftLeft_eq, zero_sub]
    rw [hexact]
    refine roundWithAccuracy_of_encloses hn (encloses_self _ _) ?_ (le_targetExponent hfull _)
    rw [mul_div_assoc, div_self (by positivity), mul_one]
    exact locates_exact _
  have hmodel : m.toUInt64.toFloat.toModel.unpack =
      (Float.Model.pack (UnpackedFloat.ofNat .binary64 m)).unpack := by
    have hword : m.toUInt64.toNat = m := Nat.mod_eq_of_lt (by omega)
    have hdefinition : m.toUInt64.toFloat.toModel.unpack =
        (Float.Model.pack (UnpackedFloat.ofNat .binary64 m.toUInt64.toNat)).unpack := rfl
    rw [hdefinition, hword]
  refine ⟨m * 2 ^ shift, -shift, hn.pos, ?_, hfull, hvalue⟩
  rw [hmodel, hrounded, unpack_pack_finite _ hfull hshort (by omega) (by omega)]

/-- Whether a number is this power of ten, with all its bits. -/
def isPowerOfTen (i : ℕ) : UnpackedFloat → Bool
  | .finite .positive n t _ => n * 2 ^ t.toNat == 10 ^ i * 2 ^ (-t).toNat && decide (2 ^ 52 ≤ n)
  | _ => false

theorem isPowerOfTen_table :
    ∀ i : Fin 23, isPowerOfTen i (Float.exactlyRepresentablePowersOfTen[i.val]).toModel.unpack =
      true := by decide +kernel

theorem zpow_eq_div (b : ℚ) (t : ℤ) : b ^ t = b ^ t.toNat / b ^ (-t).toNat := by
  rcases Int.eq_nat_or_neg t with ⟨k, rfl | rfl⟩ <;> simp [zpow_neg]

theorem unpack_powerOfTen (i : Fin 23) :
    ∃ (n : ℕ) (t : ℤ) (h : 0 < n), (Float.exactlyRepresentablePowersOfTen[i.val]).toModel.unpack =
      .finite .positive n t h ∧
      2 ^ 52 ≤ n ∧ (n : ℚ) * 2 ^ t = 10 ^ i.val := by
  have htable := isPowerOfTen_table i
  revert htable
  rcases (Float.exactlyRepresentablePowersOfTen[i.val]).toModel.unpack with _ | _ | _
    | ⟨_ | _, n, t, hpos⟩ <;> intro htable
  case finite.positive =>
    simp only [isPowerOfTen, Bool.and_eq_true, beq_iff_eq, decide_eq_true_eq] at htable
    refine ⟨n, t, hpos, rfl, htable.2, ?_⟩
    have hcast : (n : ℚ) * 2 ^ t.toNat = 10 ^ i.val * 2 ^ (-t).toNat := by exact_mod_cast htable.1
    rw [zpow_eq_div, ← mul_div_assoc, hcast, mul_div_cancel_right₀ _ (by positivity)]
  all_goals cases htable

end Exact

section Rounded

variable {m₁ m₂ n : ℕ} {e₁ e₂ t : ℤ} (h₁ : 0 < m₁) (h₂ : 0 < m₂)

theorem mul_of_encloses (hn : Normalized n t) (hlong : 2 ^ 52 ≤ m₁ * m₂)
    (hq : Encloses n t (m₁ * 2 ^ e₁ * (m₂ * 2 ^ e₂))) :
    UnpackedFloat.mul .binary64 (.finite .positive m₁ e₁ h₁) (.finite .positive m₂ e₂ h₂) =
      .finite .positive n t hn.pos := by
  have hvalue : (m₁ * 2 ^ e₁ * (m₂ * 2 ^ e₂) : ℚ) / 2 ^ (e₁ + e₂) = (m₁ * m₂ : ℕ) := by
    rw [zpow_add₀ (by norm_num)]
    field_simp
    push_cast
    ring
  exact roundWithAccuracy_of_encloses hn hq (hvalue ▸ locates_exact _) (le_targetExponent hlong _)

theorem div_of_encloses (hn : Normalized n t) (hq : Encloses n t (m₁ * 2 ^ e₁ / (m₂ * 2 ^ e₂))) :
    UnpackedFloat.div .binary64 (.finite .positive m₁ e₁ h₁) (.finite .positive m₂ e₂ h₂) =
      .finite .positive n t hn.pos := by
  have htarget : Format.binary64.targetExponent (totalExponent m₁ e₁ - totalExponent m₂ e₂) =
      max (m₁.log2 + 1 + e₁ - (m₂.log2 + 1 + e₂) - 53) (-1074) := rfl
  obtain ⟨e, he⟩ : ∃ e,
      e = min (e₁ - e₂) (max (m₁.log2 + 1 + e₁ - (m₂.log2 + 1 + e₂) - 53) (-1074)) := ⟨_, rfl⟩
  obtain ⟨shift, hshift⟩ : ∃ shift : ℕ, e₁ - e₂ - e = shift := ⟨(e₁ - e₂ - e).toNat, by omega⟩
  have hcore : divCore .binary64 m₁ e₁ m₂ e₂ =
      (m₁ * 2 ^ shift / m₂, e, accuracyOfFraction (m₁ * 2 ^ shift % m₂) m₂) := by
    simp only [divCore, htarget, ← he, hshift, Int.toNat_natCast, Nat.shiftLeft_eq]
  have hvalue : (m₁ * 2 ^ e₁ / (m₂ * 2 ^ e₂) : ℚ) / 2 ^ e = (m₁ * 2 ^ shift : ℕ) / m₂ := by
    have hpow : (2 : ℚ) ^ e₁ = 2 ^ shift * 2 ^ e₂ * 2 ^ e := by
      rw [← zpow_natCast, ← zpow_add₀ (by norm_num), ← zpow_add₀ (by norm_num), ← hshift]
      congr 1
      omega
    rw [hpow]
    push_cast
    field_simp
  have hlong : e ≤ Format.binary64.targetExponent (totalExponent (m₁ * 2 ^ shift / m₂) e) := by
    by_cases hleast : e ≤ -1074
    · rw [targetExponent_eq]
      omega
    · have hlow : 2 ^ m₁.log2 ≤ m₁ := Nat.log2_self_le h₁.ne'
      have hhigh : m₂ < 2 ^ (m₂.log2 + 1) := Nat.lt_log2_self
      refine le_targetExponent ((Nat.le_div_iff_mul_le h₂).mpr ?_) e
      calc 2 ^ 52 * m₂ ≤ 2 ^ 52 * 2 ^ (m₂.log2 + 1) := Nat.mul_le_mul_left _ hhigh.le
        _ = 2 ^ (52 + (m₂.log2 + 1)) := (pow_add ..).symm
        _ ≤ 2 ^ (m₁.log2 + shift) := Nat.pow_le_pow_right (by norm_num) (by omega)
        _ = 2 ^ m₁.log2 * 2 ^ shift := pow_add ..
        _ ≤ m₁ * 2 ^ shift := Nat.mul_le_mul_right _ hlow
  simp only [UnpackedFloat.div, hcore]
  exact roundWithAccuracy_of_encloses hn hq (hvalue ▸ locates_quotient _ h₂) hlong

end Rounded

section Conversion

variable {m n e : ℕ} {t : ℤ}

theorem ofScientific_product (hn : Normalized n t) (hm : 0 < m) (he : e ≤ 2 ^ 11)
    (hq : Encloses n t (m * 10 ^ e)) :
    Float.ofScientific m false e =
      Float.ofModel (Float.Model.pack (.finite .positive n t hn.pos)) := by
  unfold Float.ofScientific
  split
  · next h =>
    obtain ⟨m₁, e₁, h₁, hwhole, hlong, hvalue⟩ := unpack_toFloat hm h.1
    obtain ⟨m₂, e₂, h₂, hpower, -, hvalue'⟩ := unpack_powerOfTen ⟨e, by omega⟩
    rw [← hvalue, ← hvalue'] at hq
    have hmul := mul_of_encloses h₁ h₂ hn (hlong.trans (Nat.le_mul_of_pos_right _ h₂)) hq
    rw [← hwhole, ← hpower] at hmul
    exact congrArg (fun u => Float.ofModel (Float.Model.pack u)) hmul
  · have hlong : 2 ^ 52 ≤ (m <<< 53) * 10 ^ e := by
      rw [Nat.shiftLeft_eq]
      calc 2 ^ 52 ≤ 1 * 2 ^ 53 * 1 := by norm_num
        _ ≤ m * 2 ^ 53 * 10 ^ e :=
          Nat.mul_le_mul (Nat.mul_le_mul_right _ hm) (Nat.one_le_pow _ _ (by norm_num))
    have hvalue :
        (m * 10 ^ e : ℚ) = (m <<< 53 : ℕ) * 2 ^ (-53 : ℤ) * ((10 ^ e : ℕ) * 2 ^ (0 : ℤ)) := by
      rw [Nat.shiftLeft_eq, zpow_neg]
      push_cast
      field_simp
    rw [hvalue] at hq
    have hshifted : 0 < m <<< 53 := by simpa [Nat.pos_iff_ne_zero] using hm.ne'
    have hmul := mul_of_encloses hshifted (Nat.pow_pos (by norm_num)) hn hlong hq
    have hmodel : Float.Model.ofScientific m (Int.ofNat e) =
        Float.Model.pack (UnpackedFloat.mul .binary64 (.finite .positive (m <<< 53) (-53) hshifted)
          (.finite .positive (10 ^ e) 0 (Nat.pow_pos (by norm_num)))) := by
      have hsmall : ¬ (Int.ofNat e : ℤ) > 2 ^ 11 := by
        simp only [Int.ofNat_eq_natCast]
        omega
      have hlarge : ¬ (Int.ofNat e : ℤ) < -((2 ^ 11 : ℤ) + m.log2) := by
        simp only [Int.ofNat_eq_natCast]
        omega
      simp only [Float.Model.ofScientific, UnpackedFloat.ofScientific, dif_neg hm.ne',
        if_neg hsmall, if_neg hlarge]
      rfl
    exact congrArg Float.ofModel (hmodel.trans (congrArg Float.Model.pack hmul))

theorem ofScientific_quotient (hn : Normalized n t) (hm : 0 < m) (hpos : 0 < e)
    (he : (e : ℤ) ≤ 2 ^ 11 + m.log2) (hq : Encloses n t (m / 10 ^ e)) :
    Float.ofScientific m true e =
      Float.ofModel (Float.Model.pack (.finite .positive n t hn.pos)) := by
  unfold Float.ofScientific
  split
  · next h =>
    obtain ⟨m₁, e₁, h₁, hwhole, -, hvalue⟩ := unpack_toFloat hm h.1
    obtain ⟨m₂, e₂, h₂, hpower, -, hvalue'⟩ := unpack_powerOfTen ⟨e, by omega⟩
    rw [← hvalue, ← hvalue'] at hq
    have hdiv := div_of_encloses h₁ h₂ hn hq
    rw [← hwhole, ← hpower] at hdiv
    exact congrArg (fun u => Float.ofModel (Float.Model.pack u)) hdiv
  · have hvalue : (m / 10 ^ e : ℚ) = m * 2 ^ (0 : ℤ) / ((10 ^ e : ℕ) * 2 ^ (0 : ℤ)) := by simp
    rw [hvalue] at hq
    have hdiv := div_of_encloses hm (Nat.pow_pos (by norm_num)) hn hq
    have hmodel : Float.Model.ofScientific m (Int.negOfNat e) =
        Float.Model.pack (UnpackedFloat.div .binary64 (.finite .positive m 0 hm)
          (.finite .positive (10 ^ e) 0 (Nat.pow_pos (by norm_num)))) := by
      have hexponent : Int.negOfNat e = -(e : ℤ) := Int.negOfNat_eq
      have hsmall : ¬ (-(e : ℤ)) > 2 ^ 11 := by omega
      have hlarge : ¬ (-(e : ℤ)) < -((2 ^ 11 : ℤ) + m.log2) := by omega
      have hnegative : ¬ 0 ≤ -(e : ℤ) := by omega
      simp only [Float.Model.ofScientific, UnpackedFloat.ofScientific, hexponent, dif_neg hm.ne',
        if_neg hsmall, if_neg hlarge, if_neg hnegative, neg_neg, Int.toNat_natCast]
    exact congrArg Float.ofModel (hmodel.trans (congrArg Float.Model.pack hdiv))

end Conversion

namespace Decimal

variable {n : ℕ} {t : ℤ} {d : Decimal}

def value (d : Decimal) : ℚ := d.digits * 10 ^ d.exponent

theorem two_pow_le_ten_pow {a b : ℕ} (h : a ≤ 3 * b) : (2 : ℚ) ^ a ≤ 10 ^ b := by
  calc (2 : ℚ) ^ a ≤ 2 ^ (3 * b) := pow_le_pow_right₀ (by norm_num) h
    _ = 8 ^ b := by rw [pow_mul]; norm_num
    _ ≤ 10 ^ b := pow_le_pow_left₀ (by norm_num) (by norm_num) b

theorem lt_of_encloses {q : ℚ} (hn : Normalized n t) (hmost : t ≤ 971) (hq : Encloses n t q) :
    ((2 : ℚ) ^ 1075)⁻¹ ≤ q ∧ q < 2 ^ 1024 := by
  have hgap := halfGapBelow_bounds n t
  have hone : (1 : ℚ) ≤ n := by exact_mod_cast hn.pos
  have hmore : (n : ℚ) + 1 ≤ 2 ^ 53 := by exact_mod_cast hn.lt
  have hpow : (0 : ℚ) < 2 ^ t := by positivity
  constructor
  · calc ((2 : ℚ) ^ 1075)⁻¹
      _ = 1 / 2 * 2 ^ (-1074 : ℤ) := by
        rw [zpow_neg, pow_succ, mul_inv, mul_comm]; norm_num
      _ ≤ (n - halfGapBelow n t) * 2 ^ t :=
        mul_le_mul (by linarith) (zpow_le_zpow_right₀ (by norm_num) hn.least) (by positivity)
          (by linarith)
      _ ≤ q := hq.below
  · calc q ≤ (n + 1 / 2) * 2 ^ t := hq.above
      _ < 2 ^ 53 * 2 ^ t := mul_lt_mul_of_pos_right (by linarith) hpow
      _ ≤ 2 ^ 53 * 2 ^ (971 : ℤ) :=
        mul_le_mul_of_nonneg_left (zpow_le_zpow_right₀ (by norm_num) hmost) (by norm_num)
      _ = 2 ^ 1024 := by rw [← zpow_natCast, ← zpow_natCast, ← zpow_add₀ (by norm_num)]; rfl

/-- Whatever is close enough to a number is converted to it. -/
theorem toFloat_of_encloses (hn : Normalized n t) (hmost : t ≤ 971) (hq : Encloses n t d.value) :
    d.toFloat = Float.ofModel (Float.Model.pack (.finite .positive n t hn.pos)) := by
  obtain ⟨hlow, hhigh⟩ := lt_of_encloses hn hmost hq
  have hpow : (0 : ℚ) < 10 ^ d.exponent := by positivity
  have hdigits : d.digits ≠ 0 := by
    intro hzero
    rw [value, hzero, Nat.cast_zero, zero_mul] at hlow
    exact absurd hlow (not_le.mpr (by positivity))
  have hone : (1 : ℚ) ≤ d.digits := by exact_mod_cast Nat.pos_of_ne_zero hdigits
  have hsmall : d.exponent ≤ 400 := by
    by_contra hlarge
    have hvalue : (2 : ℚ) ^ 1024 ≤ d.value := by
      calc (2 : ℚ) ^ 1024 ≤ 10 ^ 401 := two_pow_le_ten_pow (by norm_num)
        _ = 10 ^ (401 : ℤ) := (zpow_natCast 10 401).symm
        _ ≤ 10 ^ d.exponent := zpow_le_zpow_right₀ (by norm_num) (by omega)
        _ ≤ d.value := le_mul_of_one_le_left hpow.le hone
    exact absurd hhigh (not_lt.mpr hvalue)
  have hlarge : ¬ d.exponent + (d.digits.log2 + 1 : ℕ) < -400 := by
    intro hless
    have hlog : (d.digits : ℚ) ≤ 10 ^ (d.digits.log2 + 1 : ℕ) := by
      have hlt : d.digits < 2 ^ (d.digits.log2 + 1) := Nat.lt_log2_self
      exact_mod_cast hlt.le.trans (Nat.pow_le_pow_left (by norm_num) _)
    have hvalue : d.value < ((2 : ℚ) ^ 1075)⁻¹ := by
      calc d.value ≤ 10 ^ (d.digits.log2 + 1 : ℕ) * 10 ^ d.exponent :=
          mul_le_mul_of_nonneg_right hlog hpow.le
        _ = 10 ^ (d.exponent + (d.digits.log2 + 1 : ℕ)) := by
          rw [zpow_add₀ (by norm_num), zpow_natCast, mul_comm]
        _ ≤ 10 ^ (-401 : ℤ) := zpow_le_zpow_right₀ (by norm_num) (by omega)
        _ = ((10 : ℚ) ^ 401)⁻¹ := by rw [zpow_neg]; rfl
        _ ≤ ((2 : ℚ) ^ 1076)⁻¹ := inv_anti₀ (by positivity) (two_pow_le_ten_pow (by norm_num))
        _ < ((2 : ℚ) ^ 1075)⁻¹ :=
          inv_strictAnti₀ (by positivity) (pow_lt_pow_right₀ (by norm_num) (by norm_num))
    exact absurd hlow (not_le.mpr hvalue)
  rw [toFloat, if_neg hdigits, if_neg (by omega), if_neg hlarge]
  by_cases hsign : d.exponent < 0
  · obtain ⟨e, he⟩ : ∃ e : ℕ, d.exponent = -e := ⟨d.exponent.natAbs, by omega⟩
    rw [decide_eq_true hsign, he, Int.natAbs_neg, Int.natAbs_natCast]
    refine ofScientific_quotient hn (Nat.pos_of_ne_zero hdigits) (by omega)
      (by push_cast at hlarge; omega) ?_
    rwa [value, he, zpow_neg, zpow_natCast, ← div_eq_mul_inv] at hq
  · obtain ⟨e, he⟩ : ∃ e : ℕ, d.exponent = e := ⟨d.exponent.natAbs, by omega⟩
    rw [decide_eq_false hsign, he, Int.natAbs_natCast]
    refine ofScientific_product hn (Nat.pos_of_ne_zero hdigits) (by omega) ?_
    rwa [value, he, zpow_natCast] at hq

end Decimal

end Abacus
