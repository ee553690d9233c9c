import Mathlib
import Abacus.Proofs.Decimal.Conversion
import Abacus.Proofs.Decimal.Numeral
import Abacus.Proofs.Number.Order
import Abacus.Proofs.Reading.Literals

/-! A number is written with digits that are converted back to it. So a text that shows a number has
that number as its value. -/

namespace Abacus

open Float.Model UnpackedFloat

section Bits

variable {x : Float}

def signOf (x : Float) : Sign := if isNegative x then .negative else .positive

theorem toNat_unpackExponent (b : BitVec 64) :
    (@unpackExponent .binary64 b).toNat = b.toNat / 2 ^ 52 % 2 ^ 11 := by
  simp [unpackExponent, Nat.shiftRight_eq_div_pow]

theorem toNat_unpackMantissa (b : BitVec 64) :
    (@unpackMantissa .binary64 b).toNat = b.toNat % 2 ^ 52 := by
  simp [unpackMantissa]

theorem toNat_unpackSign (b : BitVec 64) :
    (@unpackSign .binary64 b).toNat = b.toNat / 2 ^ 63 % 2 := by
  simp [unpackSign, Nat.shiftRight_eq_div_pow]

theorem exponentBits_eq (x : Float) :
    ((x.toBits >>> 52) &&& 0x7FF).toNat = (@unpackExponent .binary64 x.toBits.toBitVec).toNat := by
  rw [toNat_unpackExponent, UInt64.toNat_and, UInt64.toNat_shiftRight]
  exact (Nat.and_two_pow_sub_one_eq_mod _ 11).trans (by rw [Nat.shiftRight_eq_div_pow]; rfl)

theorem mantissaBits_eq (x : Float) :
    (x.toBits &&& 0xFFFFFFFFFFFFF).toNat = (@unpackMantissa .binary64 x.toBits.toBitVec).toNat := by
  rw [toNat_unpackMantissa, UInt64.toNat_and]
  exact Nat.and_two_pow_sub_one_eq_mod _ 52

theorem ofBitVec_unpackSign (x : Float) :
    Sign.ofBitVec (@unpackSign .binary64 x.toBits.toBitVec) = signOf x := by
  have hbound : x.toBits.toBitVec.toNat < 2 ^ 64 := x.toBits.toBitVec.isLt
  have hsign : isNegative x = true ↔ (@unpackSign .binary64 x.toBits.toBitVec).toNat = 1 := by
    have hshift : (x.toBits >>> 63).toNat = x.toBits.toBitVec.toNat / 2 ^ 63 := by
      rw [UInt64.toNat_shiftRight, Nat.shiftRight_eq_div_pow]
      rfl
    rw [isNegative, beq_iff_eq, ← UInt64.toNat_inj, hshift, toNat_unpackSign,
      show (1 : UInt64).toNat = 1 from rfl]
    omega
  rw [signOf, Sign.ofBitVec]
  rcases BitVec.eq_zero_or_eq_one (@unpackSign .binary64 x.toBits.toBitVec) with h | h
  · rw [if_pos h, if_neg (by rw [hsign, h]; decide)]
  · rw [if_neg (by rw [h]; decide), if_pos (by rw [hsign, h]; rfl)]

/-- The magnitude with these bits for its exponent and its mantissa. -/
def magnitudeOf (e f : ℕ) : Binary :=
  if e = 0 then ⟨f, -1074, false⟩ else ⟨0x10000000000000 + f, e - 1075, f == 0 && 1 < e⟩

theorem ofFloat_eq (x : Float) :
    Binary.ofFloat x = magnitudeOf (@unpackExponent .binary64 x.toBits.toBitVec).toNat
    (@unpackMantissa .binary64 x.toBits.toBitVec).toNat := by
  rw [← exponentBits_eq, ← mantissaBits_eq]
  rfl

theorem unpack_components {s : Sign} {e : BitVec 11} {f : BitVec 52} {u : UnpackedFloat}
    {b : Binary} (hu : UnpackedFloat.unpack .binary64 (packComponents .binary64 s e f) = u)
    (hb : magnitudeOf e.toNat f.toNat = b) (h : u.isFinite = true) :
    (b.m = 0 ∧ u = .zero s) ∨ ∃ hn : Normalized b.m b.q, b.q ≤ 971 ∧ u = .finite s b.m b.q hn.pos ∧
      (b.narrowBelow = true ↔ b.m = 2 ^ 52 ∧ -1074 < b.q) := by
  unfold UnpackedFloat.unpack at hu
  simp only [unpackMantissa_packComponents, unpackExponent_packComponents,
    unpackSign_packComponents, Sign.ofBitVec_toBitVec] at hu
  have hexponent : e.toNat < 2 ^ 11 := e.isLt
  have hmantissa : f.toNat < 2 ^ 52 := f.isLt
  split at hu
  · split at hu <;> (subst hu; cases h)
  · next hones =>
    have hmost : e.toNat ≠ 2047 := fun he => hones (BitVec.eq_of_toNat_eq he)
    split at hu
    · next hzero =>
      subst hzero
      split at hu
      · next hf =>
        subst hf hu hb
        exact .inl ⟨rfl, rfl⟩
      · next hf =>
        have hpos : 0 < f.toNat := Nat.pos_of_ne_zero fun h => hf (BitVec.eq_of_toNat_eq h)
        subst hu hb
        have hn : Normalized f.toNat (-1074) := ⟨hpos, by omega, le_rfl, .inl rfl⟩
        exact .inr ⟨hn, (by norm_num : (-1074 : ℤ) ≤ 971), rfl,
          iff_of_false Bool.false_ne_true fun h => hmantissa.ne h.1⟩
    · next hzero =>
      have hpos : e.toNat ≠ 0 := fun h => hzero (BitVec.eq_of_toNat_eq h)
      have hmagnitude : magnitudeOf e.toNat f.toNat =
          ⟨0x10000000000000 + f.toNat, e.toNat - 1075, f.toNat == 0 && 1 < e.toNat⟩ :=
        if_neg hpos
      rw [hmagnitude] at hb
      subst hu hb
      have hn : Normalized (0x10000000000000 + f.toNat) (e.toNat - 1075) :=
        ⟨by omega, by omega, by omega, .inr (by omega)⟩
      refine .inr ⟨hn, by dsimp only; omega, ?_, ?_⟩
      · simp only [toNat_fullMantissa]
        rfl
      · simp only [Bool.and_eq_true, beq_iff_eq, decide_eq_true_eq]
        omega

theorem unpack_ofFloat (h : x.isFinite = true) :
    ((Binary.ofFloat x).m = 0 ∧ x.toModel.unpack = .zero (signOf x)) ∨
      ∃ hn : Normalized (Binary.ofFloat x).m (Binary.ofFloat x).q, (Binary.ofFloat x).q ≤ 971 ∧
        x.toModel.unpack = .finite (signOf x) (Binary.ofFloat x).m (Binary.ofFloat x).q hn.pos ∧
        ((Binary.ofFloat x).narrowBelow = true ↔
          (Binary.ofFloat x).m = 2 ^ 52 ∧ -1074 < (Binary.ofFloat x).q) := by
  have hunpack : UnpackedFloat.unpack .binary64
      (packComponents .binary64 (signOf x) (@unpackExponent .binary64 x.toBits.toBitVec)
        (@unpackMantissa .binary64 x.toBits.toBitVec)) = x.toModel.unpack := by
    have hunfold : x.toModel.unpack = UnpackedFloat.unpack .binary64 x.toBits.toBitVec := rfl
    rw [hunfold, ← ofBitVec_unpackSign]
    unfold UnpackedFloat.unpack
    simp only [unpackMantissa_packComponents, unpackExponent_packComponents,
      unpackSign_packComponents, Sign.ofBitVec_toBitVec]
  exact unpack_components hunpack (ofFloat_eq x).symm h

end Bits

section Digits

variable {b : Binary} {n : ℕ} {g : ℤ}

theorem le_scaled_iff (k n : ℕ) (q g : ℤ) :
    (k * (twoTo (q - 2).toNat * tenTo (-g).toNat) ≤ n * tenTo g.toNat * twoTo (2 - q).toNat ↔
      (k : ℚ) / 4 * 2 ^ q ≤ n * 10 ^ g) ∧
    (n * tenTo g.toNat * twoTo (2 - q).toNat ≤ k * (twoTo (q - 2).toNat * tenTo (-g).toNat) ↔
      (n * 10 ^ g : ℚ) ≤ k / 4 * 2 ^ q) := by
  have hquarter : (k : ℚ) / 4 * 2 ^ q = k * (2 ^ (q - 2).toNat / 2 ^ (2 - q).toNat) := by
    have hunit : (2 : ℚ) ^ q = 4 * 2 ^ (q - 2) := by
      rw [zpow_sub₀ (by norm_num)]
      norm_num
      ring
    have hsplit := zpow_eq_div 2 (q - 2)
    rw [neg_sub] at hsplit
    rw [hunit, hsplit]
    ring
  have hten := zpow_eq_div 10 g
  have hpos : (0 : ℚ) < 2 ^ (2 - q).toNat * 10 ^ (-g).toNat := by positivity
  have hleft : (k : ℚ) / 4 * 2 ^ q * (2 ^ (2 - q).toNat * 10 ^ (-g).toNat) =
      (k * (twoTo (q - 2).toNat * tenTo (-g).toNat) : ℕ) := by
    rw [hquarter]
    simp only [twoTo, tenTo, Nat.pow_eq]
    push_cast
    field_simp
  have hright : (n * 10 ^ g : ℚ) * (2 ^ (2 - q).toNat * 10 ^ (-g).toNat) =
      (n * tenTo g.toNat * twoTo (2 - q).toNat : ℕ) := by
    rw [hten]
    simp only [twoTo, tenTo, Nat.pow_eq]
    push_cast
    field_simp
  constructor
  · rw [← mul_le_mul_iff_of_pos_right hpos, hleft, hright, Nat.cast_le]
  · rw [← mul_le_mul_iff_of_pos_right hpos, hleft, hright, Nat.cast_le]

theorem encloses_of_readsBack (hn : Normalized b.m b.q)
    (hnarrow : b.narrowBelow = true ↔ b.m = 2 ^ 52 ∧ -1074 < b.q) (h : b.readsBack n g = true) :
    Encloses b.m b.q (Decimal.value ⟨n, g⟩) := by
  have hone := hn.pos
  have hlow : ((4 * b.m - if b.narrowBelow then 1 else 2 : ℕ) : ℚ) / 4 =
      b.m - halfGapBelow b.m b.q := by
    by_cases h : b.narrowBelow = true
    · rw [if_pos h, halfGapBelow, if_pos (hnarrow.mp h), Nat.cast_sub (by omega)]
      push_cast
      ring
    · rw [if_neg h, halfGapBelow, if_neg (mt hnarrow.mpr h), Nat.cast_sub (by omega)]
      push_cast
      ring
  have hhigh : ((4 * b.m + 2 : ℕ) : ℚ) / 4 = b.m + 1 / 2 := by
    push_cast
    ring
  obtain ⟨hbelow, hbelow'⟩ := le_scaled_iff (4 * b.m - if b.narrowBelow then 1 else 2) n b.q g
  obtain ⟨habove', habove⟩ := le_scaled_iff (4 * b.m + 2) n b.q g
  rw [hlow] at hbelow hbelow'
  rw [hhigh] at habove habove'
  simp only [Binary.readsBack] at h
  split at h
  · next heven =>
    simp only [Bool.and_eq_true, decide_eq_true_eq] at h
    exact ⟨hbelow.mp h.1, habove.mp h.2, fun hodd => by omega⟩
  · next hodd =>
    simp only [Bool.and_eq_true, decide_eq_true_eq] at h
    have hlt := lt_of_not_ge (mt hbelow'.mpr (not_le.mpr h.1))
    have hlt' := lt_of_not_ge (mt habove'.mpr (not_le.mpr h.2))
    exact ⟨hlt.le, hlt'.le, fun _ => ⟨hlt, hlt'⟩⟩

namespace Decimal

variable {d : Decimal}

theorem readsBack_onGrid? (h : onGrid? b g = some d) : b.readsBack d.digits d.exponent = true := by
  simp only [onGrid?] at h
  split at h <;> cases h
  · next hlow hhigh =>
    dsimp only
    split <;> assumption
  · assumption
  · assumption

theorem value_exact (b : Binary) : (exact b).value = b.m * 2 ^ b.q := by
  rcases Int.eq_nat_or_neg b.q with ⟨k, hk | hk⟩
  · simp [exact, value, hk, twoTo]
  · have hten : (10 : ℚ) ^ k = 2 ^ k * 5 ^ k := by rw [← mul_pow]; norm_num
    simp [exact, value, hk, twoTo, hten]
    field_simp

theorem value_withoutTrailingZeros (d : Decimal) : d.withoutTrailingZeros.value = d.value := by
  fun_induction withoutTrailingZeros d with
  | case1 d h ih =>
    have hten : (d.digits : ℚ) = (d.digits / 10 : ℕ) * 10 := by
      exact_mod_cast (Nat.div_mul_cancel (Nat.dvd_of_mod_eq_zero h.2)).symm
    rw [ih, value, value, hten, zpow_add_one₀ (by norm_num)]
    ring
  | case2 => rfl

/-- The digits with which a number is written are converted back to it. -/
theorem encloses_shortest (hn : Normalized b.m b.q)
    (hnarrow : b.narrowBelow = true ↔ b.m = 2 ^ 52 ∧ -1074 < b.q) :
    Encloses b.m b.q (shortest b).value := by
  have hgrid {o : Option Decimal} (ho : ∀ d ∈ o, b.readsBack d.digits d.exponent = true) :
      Encloses b.m b.q (o.getD (exact b)).value := by
    cases o with
    | none => exact value_exact b ▸ encloses_self _ _
    | some d => exact encloses_of_readsBack hn hnarrow (ho d rfl)
  rw [shortest, if_neg hn.pos.ne', value_withoutTrailingZeros]
  refine hgrid fun d hd => ?_
  obtain ⟨k, -, hk⟩ := List.exists_of_findSome?_eq_some hd
  exact readsBack_onGrid? hk

theorem value_padded (d : Decimal) (k : ℕ) :
    value ⟨d.digits * 10 ^ k, d.exponent - k⟩ = d.value := by
  rw [value, value, zpow_sub₀ (by norm_num), zpow_natCast]
  push_cast
  field_simp

end Decimal

end Digits

section Numerals

variable {x : Float}

/-- The magnitude of a finite number is a number of the grammar that is converted to it. -/
theorem exists_positional (h : x.isFinite = true) :
    ∃ d, IsNumeral (Numeral.positional (.shortest (.ofFloat x))) d ∧
    x = if isNegative x then -d.toFloat else d.toFloat := by
  obtain ⟨k, hnumeral⟩ := isNumeral_positional (.shortest (.ofFloat x))
  refine ⟨_, hnumeral, ?_⟩
  have hsigned {u : Sign → UnpackedFloat} (hu : x.toModel.unpack = u (signOf x))
      (hneg : (u .positive).neg = u .negative) : x = if isNegative x then -Float.ofModel
        (Float.Model.pack (u .positive)) else Float.ofModel (Float.Model.pack (u .positive)) := by
    have hx : x = Float.ofModel (Float.Model.pack x.toModel.unpack) := by rw [pack_unpack]
    rw [neg_pack, hneg]
    by_cases h : isNegative x = true
    · rw [hu, signOf, if_pos h] at hx
      rwa [if_pos h]
    · rw [hu, signOf, if_neg h] at hx
      rwa [if_neg h]
  rcases unpack_ofFloat h with ⟨hzero, hunpack⟩ | ⟨hn, hmost, hunpack, hnarrow⟩
  · have hshortest : Decimal.shortest (.ofFloat x) = ⟨0, 0⟩ := if_pos hzero
    have hconverted : Decimal.toFloat ⟨0 * 10 ^ k, 0 - k⟩ =
        Float.ofModel (Float.Model.pack (.zero .positive)) := by
      rw [Decimal.toFloat, if_pos (Nat.zero_mul _)]
      rfl
    rw [hshortest, hconverted]
    exact hsigned (u := .zero) hunpack rfl
  · have hencloses := Decimal.encloses_shortest hn hnarrow
    rw [← Decimal.value_padded _ k] at hencloses
    rw [Decimal.toFloat_of_encloses hn hmost hencloses]
    exact hsigned (u := fun s => .finite s _ _ hn.pos) hunpack rfl

theorem evaluateText_numeral (h : x.isFinite = true) (s : Settings) (scope : List Variable) :
    evaluateText s scope (numeral x) = .ok x := by
  obtain ⟨d, hnumeral, hx⟩ := exists_positional h
  obtain ⟨hpositive, hnegative⟩ := (IsLiteral.numeral hnumeral).evaluateText s scope
  obtain ⟨hnan, hinf⟩ := isFinite_iff.mp h
  cases hneg : isNegative x with
  | true =>
    have hwritten : numeral x = '-' :: Numeral.positional (.shortest (.ofFloat x)) := by
      simp only [numeral, Numeral.signed, hnan, hinf, hneg]
      rfl
    rw [if_pos hneg] at hx
    rw [hwritten, hnegative, ← hx]
  | false =>
    have hwritten : numeral x = Numeral.positional (.shortest (.ofFloat x)) := by
      simp only [numeral, Numeral.signed, hnan, hinf, hneg]
      rfl
    rw [if_neg (by rw [hneg]; decide)] at hx
    rw [hwritten, hpositive, ← hx]

/-- A number that is typed has the value that its decimal is converted to, with the minus kept also
before a zero; and what a finite number is shown as has that number as its value. -/
theorem evaluateText_literal (s : Settings) (scope : List Variable) :
    (∀ (t : Text) (d : Decimal), IsLiteral t d →
      evaluateText s scope t = .ok d.toFloat ∧ evaluateText s scope ('-' :: t) = .ok (-d.toFloat)) ∧
    ∀ x : Float, x.isFinite = true → evaluateText s scope (numeral x) = .ok x :=
  ⟨fun _ _ h => h.evaluateText s scope, fun _ h => evaluateText_numeral h s scope⟩

theorem evaluateText_literal_negative_zero :
    IsLiteral ".00".toList ⟨0, -2⟩ ∧ Float.isFinite (-0.1) = true ∧
    evaluateText {} [⟨"x".toList, some 3⟩] "-.00".toList = .ok (-0) ∧
    evaluateText {} [⟨"x".toList, some 3⟩] (numeral (-0.1)) = .ok (-0.1) := by
  have hliteral : IsLiteral ".00".toList ⟨0, -2⟩ :=
    @IsLiteral.pointBefore ['0', '0'] (by simp) (by simp [Char.isDigit])
  have hfinite : Float.isFinite (-0.1) = true := by decide
  obtain ⟨hliterals, hnumerals⟩ := evaluateText_literal {} [⟨"x".toList, some 3⟩]
  exact ⟨hliteral, hfinite, (hliterals _ _ hliteral).2, hnumerals _ hfinite⟩

end Numerals

end Abacus
