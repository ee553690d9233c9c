import Mathlib
import Abacus.Number.Basic
import Abacus.Proofs.Number.Nearest

/-! Arithmetic with numbers that are exactly some value. Where the exact result is a number, an
operation gives that number; otherwise it is rounded once, to within one part in two to the power of
53. -/

namespace Abacus

open Float.Model UnpackedFloat

section Values

variable {m n n' : ℕ} {t t' : ℤ} {p q : ℚ} {u v w : UnpackedFloat}

theorem Normalized.value_pos (h : Normalized n t) : (0 : ℚ) < n * 2 ^ t :=
  mul_pos (by exact_mod_cast h.pos) (by positivity)

theorem Normalized.lt_iff (h : Normalized n t) (h' : Normalized n' t') :
    (n : ℚ) * 2 ^ t < n' * 2 ^ t' ↔ t < t' ∨ t = t' ∧ n < n' := by
  have hless {n n' : ℕ} {t t' : ℤ} (h : Normalized n t) (h' : Normalized n' t') (ht : t < t') :
      (n : ℚ) * 2 ^ t < n' * 2 ^ t' := by
    obtain ⟨hfull, hle⟩ := h'.le_of_exponent_lt h ht
    have hfull' : (2 : ℚ) ^ 52 ≤ n' := by exact_mod_cast hfull
    exact hle.trans_lt (mul_lt_mul_of_pos_right (by linarith) (by positivity))
  rcases lt_trichotomy t t' with ht | rfl | ht
  · exact iff_of_true (hless h h' ht) (.inl ht)
  · rw [mul_lt_mul_iff_left₀ (by positivity), Nat.cast_lt]
    simp
  · refine iff_of_false (hless h' h ht).le.not_gt ?_
    omega

theorem Normalized.inj (h : Normalized n t) (h' : Normalized n' t')
    (heq : (n : ℚ) * 2 ^ t = n' * 2 ^ t') : n = n' ∧ t = t' := by
  have hless := mt (h.lt_iff h').mpr heq.not_lt
  have hmore := mt (h'.lt_iff h).mpr heq.not_gt
  omega

/-- What stands for this value exactly: zero, or a magnitude with all its bits. -/
inductive Represents : UnpackedFloat → ℚ → Prop
  | zero : Represents (.zero .positive) 0
  | finite {n : ℕ} {t : ℤ} (hn : Normalized n t) (hfull : 2 ^ 52 ≤ n) (hmost : t ≤ 971) :
    Represents (.finite .positive n t hn.pos) (n * 2 ^ t)

theorem Represents.nonneg (hu : Represents u q) : 0 ≤ q := by
  cases hu with
  | zero => exact le_rfl
  | finite => positivity

theorem Represents.lt_iff (hu : Represents u p) (hw : Represents w q) : u.lt w = true ↔ p < q := by
  cases hu with
  | zero =>
    cases hw with
    | zero => simp [UnpackedFloat.lt, UnpackedFloat.compare]
    | finite hn => exact iff_of_true rfl hn.value_pos
  | finite hn =>
    cases hw with
    | zero =>
      exact iff_of_false (by simp [UnpackedFloat.lt, UnpackedFloat.compare]) hn.value_pos.not_gt
    | finite hn' =>
      rw [hn.lt_iff hn']
      simp only [UnpackedFloat.lt, UnpackedFloat.compare, beq_iff_eq, Option.some.injEq,
        Ordering.then_eq_lt, Int.compare_eq_lt, Int.compare_eq_eq, Nat.compare_eq_lt]

theorem Represents.unique (hu : Represents u p) (hw : Represents w q) (h : p = q) : u = w := by
  have hless := mt (hu.lt_iff hw).mp h.not_lt
  have hmore := mt (hw.lt_iff hu).mp h.not_gt
  cases hu with
  | zero =>
    cases hw with
    | zero => rfl
    | finite => exact absurd rfl hless
  | finite hn =>
    cases hw with
    | zero => exact absurd rfl hmore
    | finite hn' =>
      obtain ⟨rfl, rfl⟩ := hn.inj hn' h
      rfl

theorem shiftLeft_value (n k : ℕ) (t : ℤ) : ((n <<< k : ℕ) : ℚ) * 2 ^ (t - k) = n * 2 ^ t := by
  rw [Nat.shiftLeft_eq, zpow_sub₀ (by norm_num), zpow_natCast]
  push_cast
  field_simp

theorem round_of_encloses {e : ℤ} (hn : Normalized n t) (hm : 0 < m)
    (hq : Encloses n t (m * 2 ^ e)) :
    UnpackedFloat.round .binary64 .positive m e = .finite .positive n t hn.pos := by
  simp only [UnpackedFloat.round, decreaseExponent]
  generalize hshift : (e - Format.binary64.targetExponent (totalExponent m e)).toNat = k
  have hlocates : Locates (ExtendedMantissa.ofMantissaAndAccuracy (m <<< k) .exact)
      (m * 2 ^ e / 2 ^ (e - k)) := by
    rw [← shiftLeft_value m k e, mul_div_cancel_right₀ _ (by positivity)]
    exact locates_exact _
  have hlog : (m <<< k).log2 = m.log2 + k := by
    rw [Nat.shiftLeft_eq, Nat.log2_eq_iff (by positivity), pow_add, add_right_comm, pow_add]
    exact ⟨Nat.mul_le_mul_right _ (Nat.log2_self_le hm.ne'),
      Nat.mul_lt_mul_of_pos_right Nat.lt_log2_self (by positivity)⟩
  refine roundWithAccuracy_of_encloses hn hq hlocates ?_
  rw [targetExponent_eq] at hshift ⊢
  rw [hlog]
  omega

/-- A whole multiple of a unit is rounded to the value it is, if that is a number. -/
theorem normalize_of_represents {m e : ℤ} (hw : Represents w q) (hm : m * 2 ^ e = q) :
    UnpackedFloat.normalize .binary64 m e .positive = w := by
  have hpow : (0 : ℚ) < 2 ^ e := by positivity
  cases hw with
  | zero =>
    obtain rfl : m = 0 := by exact_mod_cast (mul_eq_zero.mp hm).resolve_right hpow.ne'
    rfl
  | @finite n t hn =>
    have hpos : 0 < m := by
      have hvalue : (0 : ℚ) < m * 2 ^ e := hm ▸ hn.value_pos
      exact_mod_cast pos_of_mul_pos_left hvalue hpow.le
    obtain ⟨k, rfl⟩ : ∃ k : ℕ, m = k := ⟨m.toNat, by omega⟩
    have hencloses : Encloses n t (k * 2 ^ e) := by
      rw [Int.cast_natCast] at hm
      exact hm ▸ encloses_self n t
    rw [UnpackedFloat.normalize, Int.compare_eq_gt.mpr hpos]
    exact round_of_encloses hn (by exact_mod_cast hpos) hencloses

theorem decreaseExponent_value (n : ℕ) (h : t' ≤ t) :
    ((decreaseExponent n t t').1 : ℚ) * 2 ^ t' = n * 2 ^ t := by
  obtain ⟨k, rfl⟩ : ∃ k : ℕ, t' = t - k := ⟨(t - t').toNat, by omega⟩
  rw [decreaseExponent, sub_sub_cancel, Int.toNat_natCast]
  exact shiftLeft_value n k t

theorem roundToInt_of_value (h : (n : ℚ) * 2 ^ t = m) : roundToInt .positive n t = m := by
  simp only [roundToInt, decreaseExponent, shiftToExponent, sub_zero, zero_sub, Sign.apply]
  obtain ⟨s, hs⟩ : ∃ s : ℕ, t - t.toNat = -s := ⟨(t.toNat - t).toNat, by omega⟩
  have hvalue := shiftLeft_value n t.toNat t
  rw [h, hs, zpow_neg, zpow_natCast, ← div_eq_mul_inv] at hvalue
  obtain ⟨hbelow, habove⟩ := ((locates_exact (n <<< t.toNat)).shiftRight s).mantissa_le
  rw [hvalue] at hbelow habove
  rw [hs, neg_neg, Int.toNat_natCast]
  generalize (ExtendedMantissa.ofMantissaAndAccuracy (n <<< t.toNat) .exact >>> s).mantissa =
    k at hbelow habove ⊢
  norm_cast at hbelow habove ⊢
  omega

theorem Represents.add (hu : Represents u p) (hv : Represents v q) (hw : Represents w (p + q)) :
    u.add .binary64 v = w := by
  cases hu with
  | zero =>
    have hzero : UnpackedFloat.add .binary64 (.zero .positive) v = v := by cases hv <;> rfl
    rw [hzero]
    exact hv.unique hw (zero_add q).symm
  | @finite n t hn hfull hmost =>
    cases hv with
    | zero => exact (Represents.finite hn hfull hmost).unique hw (add_zero _).symm
    | @finite n' t' =>
      refine normalize_of_represents hw ?_
      rw [← decreaseExponent_value n (min_le_left t t'),
        ← decreaseExponent_value n' (min_le_right t t'), ← add_mul]
      simp only [Sign.apply]
      push_cast
      rfl

theorem Represents.sub (hu : Represents u p) (hv : Represents v q) (hw : Represents w (p - q)) :
    u.sub .binary64 v = w := by
  cases hv with
  | zero =>
    have hzero : UnpackedFloat.sub .binary64 u (.zero .positive) = u := by cases hu <;> rfl
    rw [hzero]
    exact hu.unique hw (sub_zero p).symm
  | @finite n' t' hn' =>
    cases hu with
    | zero => exact absurd hw.nonneg (by linarith [hn'.value_pos])
    | @finite n t =>
      refine normalize_of_represents hw ?_
      rw [← decreaseExponent_value n (min_le_left t t'),
        ← decreaseExponent_value n' (min_le_right t t'), ← sub_mul]
      simp only [Sign.apply]
      push_cast
      rfl

theorem Represents.unpack_pack (h : Represents u q) : (Float.Model.pack u).unpack = u := by
  cases h with
  | zero => rfl
  | finite hn hfull hmost => exact unpack_pack_finite _ hfull hn.lt hn.least hmost

theorem Represents.nonpos_or (h : Represents u q) :
    q ≤ 0 ∨ ∃ n t, Normalized n t ∧ q = n * 2 ^ t := by
  cases h with
  | zero => exact .inl le_rfl
  | finite hn => exact .inr ⟨_, _, hn, rfl⟩

end Values

section Numbers

variable {m n : ℕ} {t : ℤ} {p q : ℚ} {x y z : Float}

/-- A number without a minus that is exactly this value. -/
def IsExactly (x : Float) (q : ℚ) : Prop := Represents x.toModel.unpack q

theorem Represents.isExactly_pack {u : UnpackedFloat} (h : Represents u q) :
    IsExactly (.ofModel (Float.Model.pack u)) q := by
  have hunpack := h.unpack_pack
  change Represents (Float.Model.pack u).unpack q
  rwa [hunpack]

theorem ofModel_pack (x : Float) : Float.ofModel (pack x.toModel.unpack) = x := by rw [pack_unpack]

theorem IsExactly.unique (hx : IsExactly x p) (hy : IsExactly y q) (h : p = q) : x = y := by
  rw [← ofModel_pack x, ← ofModel_pack y, Represents.unique hx hy h]

theorem IsExactly.exists_finite (hx : IsExactly x q) (h : q ≠ 0) :
    ∃ (n : ℕ) (t : ℤ) (hn : Normalized n t), 2 ^ 52 ≤ n ∧
      x.toModel.unpack = .finite .positive n t hn.pos ∧ n * 2 ^ t = q := by
  rw [IsExactly] at hx
  generalize x.toModel.unpack = u at hx
  cases hx with
  | zero => exact absurd rfl h
  | finite hn hfull hmost => exact ⟨_, _, hn, hfull, rfl, rfl⟩

theorem IsExactly.lt_iff (hx : IsExactly x p) (hy : IsExactly y q) : x < y ↔ p < q := by
  have hlt : x < y ↔ x.toModel.unpack.lt y.toModel.unpack = true := decide_eq_true_iff
  exact hlt.trans (Represents.lt_iff hx hy)

theorem IsExactly.add (hx : IsExactly x p) (hy : IsExactly y q) (hz : IsExactly z (p + q)) :
    x + y = z := by
  have hsum : x + y =
      Float.ofModel (pack (UnpackedFloat.add .binary64 x.toModel.unpack y.toModel.unpack)) := rfl
  rw [hsum, Represents.add hx hy hz, ofModel_pack]

theorem IsExactly.sub (hx : IsExactly x p) (hy : IsExactly y q) (hz : IsExactly z (p - q)) :
    x - y = z := by
  have hdifference : x - y =
      Float.ofModel (pack (UnpackedFloat.sub .binary64 x.toModel.unpack y.toModel.unpack)) := rfl
  rw [hdifference, Represents.sub hx hy hz, ofModel_pack]

theorem IsExactly.isFinite (hx : IsExactly x q) : x.isFinite = true := by
  have hfinite {u : UnpackedFloat} (hu : Represents u q) : u.isFinite = true := by cases hu <;> rfl
  exact hfinite hx

theorem IsExactly.of_unpack {hpos : 0 < n} (h : x.toModel.unpack = .finite .positive n t hpos)
    (hfull : 2 ^ 52 ≤ n) : IsExactly x (n * 2 ^ t) := by
  have hfinite : x.isFinite = true := by
    change x.toModel.unpack.isFinite = true
    rw [h]
    rfl
  rcases unpack_ofFloat hfinite with ⟨-, hzero⟩ | ⟨hn, hmost, hunpack, -⟩
  · rw [h] at hzero
    cases hzero
  · rw [h] at hunpack
    injection hunpack with _ hm hq
    rw [← hm, ← hq] at hn
    rw [← hq] at hmost
    rw [IsExactly, h]
    exact .finite hn hfull hmost

/-- The number that a value is rounded to: the value itself, or one that differs from it by one part
in two to the power of 53 at most. -/
structure Rounded (x : Float) (q : ℚ) : Prop where
  exact : ∀ z, IsExactly z q → x = z
  error : ∃ r, IsExactly x r ∧ |r - q| ≤ q / 2 ^ 53

theorem rounded_of_encloses (hlow : 2 ^ (-1022 : ℤ) ≤ q) (hhigh : q < 2 ^ (1023 : ℤ))
    (h : ∀ n t (hn : Normalized n t), Encloses n t q →
      x = Float.ofModel (pack (.finite .positive n t hn.pos))) : Rounded x q := by
  obtain ⟨n, t, hn, hfull, hmost, hq, herror⟩ := exists_normalized hlow hhigh
  have hx : IsExactly x (n * 2 ^ t) :=
    h n t hn hq ▸ (Represents.finite hn hfull hmost).isExactly_pack
  refine ⟨fun z hz => hx.unique hz ?_, _, hx, herror⟩
  -- the value is a number, and nothing else is nearer to it than itself
  by_contra hne
  have hdistance := (hq.distance_le hn (Represents.nonpos_or hz) (Ne.symm hne)).1
  rw [sub_self, abs_zero, abs_nonpos_iff, sub_eq_zero] at hdistance
  exact hne hdistance

theorem IsExactly.mul (hx : IsExactly x p) (hy : IsExactly y q) (hlow : 2 ^ (-1022 : ℤ) ≤ p * q)
    (hhigh : p * q < 2 ^ (1023 : ℤ)) : Rounded (x * y) (p * q) := by
  have hproduct : x * y =
      Float.ofModel (pack (UnpackedFloat.mul .binary64 x.toModel.unpack y.toModel.unpack)) := rfl
  have hpos : (0 : ℚ) < p * q := lt_of_lt_of_le (by positivity) hlow
  refine rounded_of_encloses hlow hhigh fun n t hn h => ?_
  rw [hproduct]
  obtain ⟨n₁, t₁, hn₁, hfull, hx', rfl⟩ := hx.exists_finite (left_ne_zero_of_mul hpos.ne')
  obtain ⟨n₂, t₂, hn₂, -, hy', rfl⟩ := hy.exists_finite (right_ne_zero_of_mul hpos.ne')
  rw [hx', hy',
    mul_of_encloses hn₁.pos hn₂.pos hn (hfull.trans (Nat.le_mul_of_pos_right _ hn₂.pos)) h]

theorem IsExactly.div (hx : IsExactly x p) (hy : IsExactly y q) (hlow : 2 ^ (-1022 : ℤ) ≤ p / q)
    (hhigh : p / q < 2 ^ (1023 : ℤ)) : Rounded (x / y) (p / q) := by
  have hquotient : x / y =
      Float.ofModel (pack (UnpackedFloat.div .binary64 x.toModel.unpack y.toModel.unpack)) := rfl
  have hpos : (0 : ℚ) < p / q := lt_of_lt_of_le (by positivity) hlow
  obtain ⟨hp, hq⟩ := div_ne_zero_iff.mp hpos.ne'
  refine rounded_of_encloses hlow hhigh fun n t hn h => ?_
  rw [hquotient]
  obtain ⟨n₁, t₁, hn₁, -, hx', rfl⟩ := hx.exists_finite hp
  obtain ⟨n₂, t₂, hn₂, -, hy', rfl⟩ := hy.exists_finite hq
  rw [hx', hy', div_of_encloses hn₁.pos hn₂.pos hn h]

end Numbers

section Naturals

variable {m n : ℕ} {q : ℚ} {x : Float}

theorem rounded_ofNat (hpos : 0 < m) (hm : m < 2 ^ 1023) : Rounded (.ofNat m) m := by
  have hone : (1 : ℚ) ≤ m := by exact_mod_cast hpos
  refine rounded_of_encloses ?_ (by exact_mod_cast hm) fun n t hn h => ?_
  · exact (zpow_le_one_of_nonpos₀ (by norm_num) (by norm_num)).trans hone
  · exact ofScientific_product hn hpos (by norm_num) (by simpa using h)

theorem isExactly_toFloat (hm : m < 2 ^ 53) : IsExactly m.toUInt64.toFloat m := by
  rcases m.eq_zero_or_pos with rfl | hpos
  · exact .zero
  · obtain ⟨n, t, h, hunpack, hfull, hvalue⟩ := unpack_toFloat hpos hm
    exact hvalue ▸ .of_unpack hunpack hfull

theorem isExactly_ofNat (hm : m < 2 ^ 53) : IsExactly (.ofNat m) m := by
  rcases m.eq_zero_or_pos with rfl | hpos
  · exact .zero
  · have hless : 2 ^ 53 < 2 ^ 1023 := by decide +kernel
    rw [(rounded_ofNat hpos (hm.trans hless)).exact _ (isExactly_toFloat hm)]
    exact isExactly_toFloat hm

theorem ofNat_add (h : m + n < 2 ^ 53) : Float.ofNat m + .ofNat n = .ofNat (m + n) := by
  refine (isExactly_ofNat (show m < 2 ^ 53 by omega)).add
    (isExactly_ofNat (show n < 2 ^ 53 by omega)) ?_
  exact_mod_cast isExactly_ofNat h

theorem ofNat_sub (hm : m < 2 ^ 53) (h : n ≤ m) : Float.ofNat m - .ofNat n = .ofNat (m - n) := by
  refine (isExactly_ofNat hm).sub (isExactly_ofNat (show n < 2 ^ 53 by omega)) ?_
  rw [← Nat.cast_sub h]
  exact isExactly_ofNat (by omega)

theorem ofNat_lt (hm : m < 2 ^ 53) (hn : n < 2 ^ 53) : Float.ofNat m < .ofNat n ↔ m < n := by
  rw [(isExactly_ofNat hm).lt_iff (isExactly_ofNat hn), Nat.cast_lt]

theorem ofNat_div (hn : 0 < n) (h : n ≤ m) (hm : m < 2 ^ 53) :
    Rounded (.ofNat m / .ofNat n) (m / n) := by
  have hpos : (0 : ℚ) < n := by exact_mod_cast hn
  have hone : (1 : ℚ) ≤ m / n := by
    rw [one_le_div hpos]
    exact_mod_cast h
  have hless : (m : ℚ) / n < 2 ^ (1023 : ℤ) := by
    calc (m : ℚ) / n ≤ m := div_le_self (Nat.cast_nonneg m) (by exact_mod_cast hn)
      _ < 2 ^ (53 : ℤ) := by exact_mod_cast hm
      _ ≤ 2 ^ (1023 : ℤ) := zpow_le_zpow_right₀ (by norm_num) (by norm_num)
  exact (isExactly_ofNat hm).div (isExactly_ofNat (h.trans_lt hm))
    ((zpow_le_one_of_nonpos₀ (by norm_num) (by norm_num)).trans hone) hless

theorem IsExactly.toUInt64 (hx : IsExactly x m) (hm : m < 2 ^ 53) : x.toUInt64.toNat = m := by
  have hsize : m < UInt64.size := hm.trans (by decide)
  have hinteger : x.toModel.unpack.toInt 0 (UInt64.size - 1) = m := by
    by_cases hzero : (m : ℚ) = 0
    · rw [Represents.unique hx .zero hzero, UnpackedFloat.toInt]
      exact_mod_cast hzero.symm
    · obtain ⟨n, t, hn, -, hunpack, hvalue⟩ := hx.exists_finite hzero
      rw [hunpack, UnpackedFloat.toInt, roundToInt_of_value hvalue]
  change (UInt64.ofNatClamp (x.toModel.unpack.toInt 0 (UInt64.size - 1)).toNat).toNat = m
  rw [hinteger, Int.toNat_natCast, UInt64.ofNatClamp_eq_ofNat m hsize,
    UInt64.toNat_ofNat_of_lt' hsize]

theorem IsExactly.ofFloat (hx : IsExactly x q) :
    (Binary.ofFloat x).m * 2 ^ (Binary.ofFloat x).q = q ∧ (Binary.ofFloat x).m < 2 ^ 53 ∧
      isNegative x = false := by
  have hsign (h : signOf x = .positive) : isNegative x = false := by
    by_contra hnegative
    rw [signOf, if_pos (Bool.eq_true_of_not_eq_false hnegative)] at h
    cases h
  have hcases := unpack_ofFloat hx.isFinite
  rw [IsExactly] at hx
  rcases hcases with ⟨hzero, hunpack⟩ | ⟨hn, -, hunpack, -⟩
  · rw [hunpack] at hx
    generalize signOf x = s at hx hsign
    cases hx
    exact ⟨by rw [hzero, Nat.cast_zero, zero_mul], by rw [hzero]; norm_num, hsign rfl⟩
  · rw [hunpack] at hx
    generalize signOf x = s at hx hsign
    cases hx
    exact ⟨rfl, hn.lt, hsign rfl⟩

theorem abs_half_up_sub_le (m : ℕ) {u : ℕ} (hu : 0 < u) :
    |(((2 * m + u) / (2 * u) : ℕ) : ℚ) - m / u| ≤ 1 / 2 := by
  have hpos : (0 : ℚ) < u := by exact_mod_cast hu
  have hbelow : (2 * m + u) / (2 * u) * (2 * u) ≤ 2 * m + u := Nat.div_mul_le_self _ _
  have habove : 2 * m + u < ((2 * m + u) / (2 * u) + 1) * (2 * u) :=
    (Nat.div_lt_iff_lt_mul (by omega)).mp (Nat.lt_succ_self _)
  generalize (2 * m + u) / (2 * u) = w at hbelow habove ⊢
  have hbelow' : (w : ℚ) * (2 * u) ≤ 2 * m + u := by exact_mod_cast hbelow
  have habove' : (2 * m + u : ℚ) < (w + 1) * (2 * u) := by exact_mod_cast habove
  rw [abs_le]
  constructor
  · rw [le_sub_iff_add_le, neg_add_eq_sub, sub_le_iff_le_add, div_le_iff₀ hpos]
    linarith
  · rw [sub_le_iff_le_add, ← sub_le_iff_le_add', le_div_iff₀ hpos]
    linarith

/-- The nearest whole number is at most a half away. -/
theorem IsExactly.nearestWhole (hx : IsExactly x q) :
    ∃ m : ℕ, IsExactly (nearestWhole x) m ∧ |(m : ℚ) - q| ≤ 1 / 2 := by
  obtain ⟨hvalue, hfew, hpositive⟩ := hx.ofFloat
  rw [Abacus.nearestWhole, toWhole, hx.isFinite, hpositive]
  generalize Binary.ofFloat x = b at hvalue hfew
  simp only [Bool.not_true, Bool.false_eq_true, if_false]
  split
  · next hwhole =>
    obtain ⟨k, hk⟩ := Int.eq_ofNat_of_zero_le hwhole
    have hnatural : ((b.m * 2 ^ k : ℕ) : ℚ) = q := by
      rw [← hvalue, hk, zpow_natCast]
      push_cast
      rfl
    refine ⟨b.m * 2 ^ k, hnatural ▸ hx, ?_⟩
    rw [hnatural, sub_self, abs_zero]
    norm_num
  · next hfraction =>
    obtain ⟨k, hk⟩ : ∃ k : ℕ, b.q = -(k + 1 : ℕ) := ⟨(-b.q).toNat - 1, by omega⟩
    obtain ⟨u, hu⟩ : ∃ u, u = 2 ^ (k + 1) := ⟨_, rfl⟩
    have hunit : twoTo (-b.q).toNat = u := by rw [hk, neg_neg, Int.toNat_natCast, hu]; rfl
    have htwo : 2 ≤ u := hu ▸ Nat.le_self_pow (by omega) 2
    have hquotient : q = b.m / u := by
      rw [← hvalue, hk, zpow_neg, zpow_natCast, hu]
      push_cast
      rfl
    rw [hunit, hquotient]
    exact ⟨_, isExactly_toFloat (Nat.div_lt_of_lt_mul (by omega)),
      abs_half_up_sub_le b.m (by omega)⟩

end Naturals

end Abacus
