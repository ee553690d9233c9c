import Mathlib
import Abacus.Number.Basic
import Abacus.Proofs.Number.Arithmetic

/-! A binomial coefficient is multiplied up with two roundings for every factor but the first. So it
is exact as long as the coefficient is small beside the number of factors, and off by no more than
the roundings otherwise. -/

namespace Abacus

section Roundings

variable {j k : ℕ} {a b p q r : ℚ}

/-- The part of a value that one rounding changes at most. -/
def roundoff : ℚ := 1 / 2 ^ 53

/-- What a value may have become after so many roundings. -/
structure Drifted (k : ℕ) (q p : ℚ) : Prop where
  below : (1 - roundoff) ^ k * q ≤ p
  above : p ≤ (1 + roundoff) ^ k * q

theorem roundoff_le_one : roundoff ≤ 1 := by norm_num [roundoff]

theorem roundoff_nonneg : 0 ≤ roundoff := by norm_num [roundoff]

theorem drifted_zero : Drifted 0 q p ↔ p = q := by
  refine ⟨fun h => ?_, fun h => ?_⟩
  · have hbelow := h.below
    have habove := h.above
    rw [pow_zero, one_mul] at hbelow habove
    exact le_antisymm habove hbelow
  · subst h
    constructor <;> simp

theorem drifted_one (h : |p - q| ≤ q / 2 ^ 53) : Drifted 1 q p := by
  obtain ⟨hbelow, habove⟩ := abs_le.mp h
  constructor
  · rw [pow_one, roundoff]
    linarith
  · rw [pow_one, roundoff]
    linarith

theorem Drifted.nonneg (h : Drifted k q p) (hq : 0 ≤ q) : 0 ≤ p :=
  (mul_nonneg (pow_nonneg (sub_nonneg.mpr roundoff_le_one) k) hq).trans h.below

theorem Drifted.trans (h : Drifted j q p) (h' : Drifted k p r) : Drifted (j + k) q r := by
  have hless : 0 ≤ 1 - roundoff := sub_nonneg.mpr roundoff_le_one
  have hmore : 0 ≤ 1 + roundoff := add_nonneg zero_le_one roundoff_nonneg
  constructor
  · calc (1 - roundoff) ^ (j + k) * q = (1 - roundoff) ^ k * ((1 - roundoff) ^ j * q) := by ring
      _ ≤ (1 - roundoff) ^ k * p := mul_le_mul_of_nonneg_left h.below (by positivity)
      _ ≤ r := h'.below
  · calc r ≤ (1 + roundoff) ^ k * p := h'.above
      _ ≤ (1 + roundoff) ^ k * ((1 + roundoff) ^ j * q) :=
        mul_le_mul_of_nonneg_left h.above (by positivity)
      _ = (1 + roundoff) ^ (j + k) * q := by ring

theorem Drifted.mul (h : Drifted j a p) (h' : Drifted k b q) (ha : 0 ≤ a) (hb : 0 ≤ b) :
    Drifted (j + k) (a * b) (p * q) := by
  have hless : 0 ≤ 1 - roundoff := sub_nonneg.mpr roundoff_le_one
  have hmore : 0 ≤ 1 + roundoff := add_nonneg zero_le_one roundoff_nonneg
  constructor
  · calc (1 - roundoff) ^ (j + k) * (a * b) =
        (1 - roundoff) ^ j * a * ((1 - roundoff) ^ k * b) := by ring
      _ ≤ p * q := mul_le_mul h.below h'.below (by positivity) (h.nonneg ha)
  · calc p * q ≤ (1 + roundoff) ^ j * a * ((1 + roundoff) ^ k * b) :=
        mul_le_mul h.above h'.above (h'.nonneg hb) (by positivity)
      _ = (1 + roundoff) ^ (j + k) * (a * b) := by ring

theorem one_sub_le_pow (k : ℕ) : 1 - k * roundoff ≤ (1 - roundoff) ^ k := by
  have hless : -2 ≤ -roundoff := by linarith [roundoff_le_one]
  simpa [sub_eq_add_neg] using one_add_mul_le_pow hless k

/-- Roundings add up to little more than their number. -/
theorem Drifted.bounds (h : Drifted k q p) (hq : 0 ≤ q) :
    (1 - k * roundoff) * q ≤ p ∧ (1 - k * roundoff) * p ≤ q := by
  have hinverse : (1 - roundoff) ^ k * (1 + roundoff) ^ k ≤ 1 := by
    rw [← mul_pow]
    exact pow_le_one₀ (by norm_num [roundoff]) (by norm_num [roundoff])
  have hless : 0 ≤ (1 - roundoff) ^ k := pow_nonneg (sub_nonneg.mpr roundoff_le_one) k
  refine ⟨(mul_le_mul_of_nonneg_right (one_sub_le_pow k) hq).trans h.below, ?_⟩
  calc (1 - k * roundoff) * p ≤ (1 - roundoff) ^ k * p :=
      mul_le_mul_of_nonneg_right (one_sub_le_pow k) (h.nonneg hq)
    _ ≤ (1 - roundoff) ^ k * ((1 + roundoff) ^ k * q) := mul_le_mul_of_nonneg_left h.above hless
    _ = (1 - roundoff) ^ k * (1 + roundoff) ^ k * q := by ring
    _ ≤ q := mul_le_of_le_one_left hq hinverse

theorem Drifted.abs_sub_le (h : Drifted k q p) (hq : 0 ≤ q) :
    |p - q| ≤ ((1 + roundoff) ^ k - 1) * q := by
  have hmore : 1 + k * roundoff ≤ (1 + roundoff) ^ k :=
    one_add_mul_le_pow (by linarith [roundoff_nonneg]) k
  have hsum : (2 - (1 + roundoff) ^ k) * q ≤ (1 - roundoff) ^ k * q :=
    mul_le_mul_of_nonneg_right (by linarith [one_sub_le_pow k]) hq
  rw [abs_le]
  constructor
  · linarith [h.below]
  · linarith [h.above]

/-- As long as the roundings are few beside the value, a whole number is still the nearest one. -/
theorem Drifted.abs_sub_lt {m c : ℕ} (h : Drifted (2 * m) c p) (hfew : m * (2 * c + 1) < 2 ^ 52) :
    |p - c| < 1 / 2 := by
  have hc : (0 : ℚ) ≤ c := Nat.cast_nonneg c
  have hfew' : (m : ℚ) * (2 * c + 1) < 2 ^ 52 := by exact_mod_cast hfew
  have hpart : ((2 * m : ℕ) : ℚ) * roundoff = m / 2 ^ 52 := by
    rw [roundoff]
    push_cast
    ring
  obtain ⟨hbelow, habove⟩ := h.bounds hc
  rw [hpart] at hbelow habove
  have hpos : (0 : ℚ) < 1 - m / 2 ^ 52 := by
    have hle : (m : ℚ) ≤ m * (2 * c + 1) := le_mul_of_one_le_right (Nat.cast_nonneg m) (by linarith)
    linarith
  rw [abs_lt]
  constructor
  · linarith
  · refine lt_of_mul_lt_mul_left ?_ hpos.le
    linarith

theorem Drifted.half_le (h : Drifted k q p) (hq : 0 ≤ q) (hk : k ≤ 2 ^ 52) :
    q / 2 ≤ p ∧ p / 2 ≤ q := by
  have hfew : 1 / 2 ≤ 1 - k * roundoff := by
    have hk' : (k : ℚ) ≤ 2 ^ 52 := by exact_mod_cast hk
    rw [roundoff]
    linarith
  obtain ⟨hbelow, habove⟩ := h.bounds hq
  constructor
  · linarith [mul_le_mul_of_nonneg_right hfew hq]
  · linarith [mul_le_mul_of_nonneg_right hfew (h.nonneg hq)]

end Roundings

section Factors

variable {rest i j k : ℕ} {p : ℚ} {result : Float}

theorem two_pow_le_choose (h : i ≤ rest) : 2 ^ i ≤ (rest + i).choose i := by
  induction i with
  | zero => simp
  | succ i ih =>
    have hfactor := Nat.add_one_mul_choose_eq (rest + i) i
    have hdouble : 2 * (rest + i).choose i * (i + 1) ≤
        (rest + (i + 1)).choose (i + 1) * (i + 1) := by
      rw [show rest + (i + 1) = rest + i + 1 from rfl, ← hfactor, mul_comm 2, mul_assoc, mul_comm]
      exact Nat.mul_le_mul_right _ (by omega)
    have hprevious := ih (by omega)
    have hnext := Nat.le_of_mul_le_mul_right hdouble i.succ_pos
    rw [pow_succ]
    omega

theorem choose_succ_value (rest i : ℕ) :
    ((rest + (i + 1)).choose (i + 1) : ℚ) =
      (rest + i).choose i * ((rest + (i + 1) : ℕ) / (i + 1 : ℕ)) := by
  have h := Nat.add_one_mul_choose_eq (rest + i) i
  have hpos : ((i + 1 : ℕ) : ℚ) ≠ 0 := by exact_mod_cast i.succ_ne_zero
  rw [← mul_div_assoc, eq_div_iff hpos, mul_comm ((rest + i).choose i : ℚ)]
  exact_mod_cast h.symm

theorem choose_le_choose_add (h : i ≤ j) : (rest + i).choose i ≤ (rest + j).choose j := by
  rw [← Nat.choose_symm_add, ← Nat.choose_symm_add]
  exact Nat.choose_le_choose rest (by omega)

theorem lt_of_choose_lt (hi : i ≤ rest) (hlt : (rest + i).choose i < 2 ^ k) : i < k :=
  (Nat.pow_lt_pow_iff_right (by norm_num)).mp ((two_pow_le_choose hi).trans_lt hlt)

theorem exists_factor (hresult : IsExactly result p)
    (hp : Drifted (2 * (i - 1)) ((rest + i).choose i) p) (hi : i < rest)
    (hsum : rest + (i + 1) < 2 ^ 53) (hfew : i ≤ 2 ^ 51)
    (hlt : 4 * ((rest + (i + 1)).choose (i + 1) : ℚ) < 2 ^ (1023 : ℤ)) :
    ∃ p', IsExactly (result * ((.ofNat rest + .ofNat (i + 1)) / .ofNat (i + 1))) p' ∧
      Drifted (2 * i) ((rest + (i + 1)).choose (i + 1)) p' := by
  have hquotient := ofNat_div i.succ_pos (Nat.le_add_left (i + 1) rest) hsum
  have hfactor : (1 : ℚ) ≤ (rest + (i + 1) : ℕ) / (i + 1 : ℕ) := by
    rw [one_le_div (by exact_mod_cast i.succ_pos)]
    exact_mod_cast Nat.le_add_left (i + 1) rest
  have hchoose : (1 : ℚ) ≤ (rest + i).choose i := by
    exact_mod_cast Nat.choose_pos (Nat.le_add_left i rest)
  have hlow : (2 : ℚ) ^ (-1022 : ℤ) ≤ 1 / 4 :=
    (zpow_le_zpow_right₀ (by norm_num) (by norm_num : (-1022 : ℤ) ≤ -2)).trans (by norm_num)
  rw [ofNat_add hsum]
  rw [choose_succ_value] at hlt ⊢
  cases i with
  | zero =>
    obtain rfl : p = 1 := by simpa using drifted_zero.mp hp
    have hnext : IsExactly (.ofNat (rest + 1)) ((rest + (0 + 1) : ℕ) / (0 + 1 : ℕ)) := by
      rw [zero_add, Nat.cast_one, div_one]
      exact isExactly_ofNat hsum
    have hrounded := hresult.mul hnext (by linarith)
      (lt_of_le_of_lt (by rw [Nat.choose_zero_right]; linarith) hlt)
    rw [one_mul] at hrounded
    refine ⟨_, ?_, drifted_zero.mpr (by rw [Nat.choose_zero_right, Nat.cast_one, one_mul])⟩
    rwa [hquotient.exact _ hnext, hrounded.exact _ hnext]
  | succ i =>
    obtain ⟨r, hr, herror⟩ := hquotient.error
    have hr' := drifted_one herror
    obtain ⟨hphalf, hptwice⟩ := hp.half_le (by linarith) (by omega)
    obtain ⟨hrhalf, hrtwice⟩ := hr'.half_le (by linarith) (by norm_num)
    have hlow' : 1 / 2 * (1 / 2) ≤ p * r :=
      mul_le_mul (by linarith) (by linarith) (by norm_num) (by linarith)
    have hhigh := mul_le_mul hptwice hrtwice (by linarith) (by linarith)
    obtain ⟨p', hp', herror'⟩ :=
      (hresult.mul hr (by linarith) (lt_of_le_of_lt (by linarith) hlt)).error
    exact ⟨p', hp', (hp.mul hr' (by linarith) (by linarith)).trans (drifted_one herror')⟩

/-- After so many factors the product is the coefficient so far, but for two roundings for every
factor after the first. -/
theorem exists_binomialProduct {count : ℕ} (hresult : IsExactly result p)
    (hp : Drifted (2 * (i - 1)) ((rest + i).choose i) p) (hcount : i + count ≤ rest)
    (hsum : rest + (i + count) < 2 ^ 53) (hfew : i + count ≤ 2 ^ 51)
    (hlt : 4 * ((rest + (i + count)).choose (i + count) : ℚ) < 2 ^ (1023 : ℤ)) :
    ∃ p', IsExactly (binomialProduct (.ofNat rest) (.ofNat (i + 1)) result count) p' ∧
      Drifted (2 * (i + count - 1)) ((rest + (i + count)).choose (i + count)) p' := by
  induction count generalizing i result p with
  | zero => exact ⟨p, hresult, hp⟩
  | succ count ih =>
    have hle : ((rest + (i + 1)).choose (i + 1) : ℚ) ≤
        (rest + (i + (count + 1))).choose (i + (count + 1)) := by
      exact_mod_cast choose_le_choose_add (show i + 1 ≤ i + (count + 1) by omega)
    obtain ⟨p', hp', hdrifted⟩ :=
      exists_factor hresult hp (by omega) (by omega) (by omega) (lt_of_le_of_lt (by linarith) hlt)
    have hindex : Float.ofNat (i + 1) + 1 = .ofNat (i + 1 + 1) := @ofNat_add (i + 1) 1 (by omega)
    rw [binomialProduct, hindex]
    simp only [hp'.isFinite, Bool.not_true, Bool.false_eq_true, if_false]
    rw [show i + (count + 1) = i + 1 + count by omega] at hcount hsum hfew hlt ⊢
    exact ih hp' hdrifted hcount hsum hfew hlt

end Factors

section Coefficients

variable {k n : ℕ}

theorem binomial_ofNat (hk : k ≤ n) (hn : n < 2 ^ 53) :
    binomial (.ofNat k) (.ofNat n) =
      nearestWhole (binomialProduct (.ofNat (n - min k (n - k))) 1 1 (min k (n - k))) := by
  have hsmaller : (if Float.ofNat (n - k) < .ofNat k then Float.ofNat (n - k) else .ofNat k) =
      .ofNat (min k (n - k)) := by
    rw [min_comm, min_def_lt, apply_ite Float.ofNat]
    simp only [ofNat_lt (show n - k < 2 ^ 53 by omega) (show k < 2 ^ 53 by omega)]
  rw [binomial, if_neg (mt (ofNat_lt hn (by omega)).mp hk.not_gt), ofNat_sub hn hk]
  simp only [hsmaller]
  rw [ofNat_sub hn (by omega),
    (isExactly_ofNat (show min k (n - k) < 2 ^ 53 by omega)).toUInt64 (by omega)]

theorem choose_min (hk : k ≤ n) : n.choose (min k (n - k)) = n.choose k := by
  rcases min_choice k (n - k) with h | h
  · rw [h]
  · rw [h, Nat.choose_symm hk]

theorem choose_le_of_min_le_one (hk : k ≤ n) (h : min k (n - k) ≤ 1) : n.choose k ≤ max 1 n := by
  rw [← choose_min hk]
  rcases Nat.le_one_iff_eq_zero_or_eq_one.mp h with h | h <;> simp [h]

theorem exists_binomial (hk : k ≤ n) (hn : n < 2 ^ 53) (hc : n.choose k < 2 ^ 1000) :
    ∃ (w : ℕ) (p : ℚ), IsExactly (binomial (.ofNat k) (.ofNat n)) w ∧ |(w : ℚ) - p| ≤ 1 / 2 ∧
      Drifted (2 * (min k (n - k) - 1)) (n.choose k) p := by
  rw [binomial_ofNat hk hn]
  have hchoose := choose_min hk
  have htwice : 2 * min k (n - k) ≤ n := by omega
  generalize min k (n - k) = j at *
  obtain ⟨rest, rfl⟩ : ∃ rest, n = rest + j := ⟨n - j, by omega⟩
  rw [Nat.add_sub_cancel]
  rw [← hchoose] at hc ⊢
  have hfew := lt_of_choose_lt (by omega) hc
  have hlt : 4 * (rest + j).choose j < 2 ^ 1023 :=
    (Nat.mul_lt_mul_of_pos_left hc (by norm_num)).trans (by decide +kernel)
  have hone : IsExactly 1 1 := by exact_mod_cast isExactly_ofNat (show 1 < 2 ^ 53 by norm_num)
  have hstart : Drifted (2 * (0 - 1)) ((rest + 0).choose 0) 1 := drifted_zero.mpr (by simp)
  have hproduct :=
    exists_binomialProduct hone hstart (show 0 + j ≤ rest by omega) (by omega) (by omega)
  simp only [zero_add] at hproduct
  obtain ⟨p, hp, hdrifted⟩ := hproduct (by exact_mod_cast hlt)
  obtain ⟨w, hw, hhalf⟩ := hp.nearestWhole
  exact ⟨w, p, hw, hhalf, hdrifted⟩

/-- A binomial coefficient is found as a whole number, a half from the product at most, which has
been rounded twice for every factor but the first. -/
theorem binomial_error (hk : k ≤ n) (hn : n < 2 ^ 53) (hc : n.choose k < 2 ^ 1000) :
    ∃ w : ℕ, IsExactly (binomial (.ofNat k) (.ofNat n)) w ∧
      |(w : ℚ) - n.choose k| ≤
        1 / 2 + ((1 + roundoff) ^ (2 * (min k (n - k) - 1)) - 1) * n.choose k := by
  obtain ⟨w, p, hw, hhalf, hp⟩ := exists_binomial hk hn hc
  exact ⟨w, hw, (abs_sub_le _ p _).trans (add_le_add hhalf (hp.abs_sub_le (Nat.cast_nonneg _)))⟩

/-- A binomial coefficient is exact if the roundings change it by less than a half. -/
theorem binomial_exact (hk : k ≤ n) (hn : n < 2 ^ 53)
    (h : (min k (n - k) - 1) * (2 * n.choose k + 1) < 2 ^ 52) :
    binomial (.ofNat k) (.ofNat n) = .ofNat (n.choose k) := by
  have hc : n.choose k < 2 ^ 53 := by
    by_cases hfew : min k (n - k) ≤ 1
    · exact (choose_le_of_min_le_one hk hfew).trans_lt (by omega)
    · have hone : 1 * (2 * n.choose k + 1) < 2 ^ 52 :=
        (Nat.mul_le_mul_right _ (by omega)).trans_lt h
      omega
  obtain ⟨w, p, hw, hhalf, hp⟩ := exists_binomial hk hn (hc.trans (by decide +kernel))
  have hless : |(w : ℚ) - n.choose k| < 1 := by
    linarith [abs_sub_le (w : ℚ) p (n.choose k), hp.abs_sub_lt h]
  have hsame : w = n.choose k := by
    have hzero : (w : ℤ) - n.choose k = 0 := Int.abs_lt_one_iff.mp (by exact_mod_cast hless)
    omega
  exact hsame ▸ hw.unique (isExactly_ofNat (hsame ▸ hc)) rfl

-- twelve factors are too many for a coefficient of fifty bits
example : binomial 12 100 = 1050421051106701 ∧ Nat.choose 100 12 = 1050421051106700 :=
  ⟨by decide +kernel, by decide +kernel⟩

end Coefficients

end Abacus
