import Mathlib
import Abacus.Proofs.Decimal.RoundTrip

/-! Every magnitude in the range of numbers lies in the interval of one of them, and the number
whose interval a value lies in is nearest to it. -/

namespace Abacus

open Float.Model UnpackedFloat

section Neighbours

variable {n n' : ℕ} {t t' : ℤ} {q : ℚ}

theorem Normalized.lt_cast (h : Normalized n t) : (n : ℚ) + 1 ≤ 2 ^ 53 := by exact_mod_cast h.lt

theorem Normalized.le_of_exponent_lt (h : Normalized n t) (h' : Normalized n' t') (ht : t' < t) :
    2 ^ 52 ≤ n ∧ (n' : ℚ) * 2 ^ t' ≤ (2 ^ 52 - 1 / 2) * 2 ^ t := by
  have hleast := h'.least
  refine ⟨h.full.resolve_left (by omega), ?_⟩
  have hpow : (2 : ℚ) ^ t' ≤ 2 ^ (t - 1) := zpow_le_zpow_right₀ (by norm_num) (by omega)
  have hunit : (2 : ℚ) ^ t = 2 * 2 ^ (t - 1) := by
    rw [zpow_sub_one₀ (by norm_num)]
    ring
  calc (n' : ℚ) * 2 ^ t' ≤ (2 ^ 53 - 1) * 2 ^ (t - 1) :=
        mul_le_mul (by linarith [h'.lt_cast]) hpow (by positivity) (by norm_num)
    _ = (2 ^ 52 - 1 / 2) * 2 ^ t := by
        rw [hunit]
        ring

theorem exists_units (n' : ℕ) (ht : t ≤ t') : ∃ k : ℕ, (n' : ℚ) * 2 ^ t' = k * 2 ^ t := by
  obtain ⟨d, rfl⟩ : ∃ d : ℕ, t' = t + d := ⟨(t' - t).toNat, by omega⟩
  refine ⟨n' * 2 ^ d, ?_⟩
  rw [zpow_add₀ (by norm_num), zpow_natCast]
  push_cast
  ring

theorem Normalized.succ_le (h : Normalized n t) (h' : Normalized n' t')
    (hlt : (n : ℚ) * 2 ^ t < n' * 2 ^ t') : ((n : ℚ) + 1) * 2 ^ t ≤ n' * 2 ^ t' := by
  have hpow : (0 : ℚ) < 2 ^ t := by positivity
  by_cases ht : t ≤ t'
  · obtain ⟨k, hk⟩ := exists_units n' ht
    rw [hk] at hlt ⊢
    have hless : n < k := by exact_mod_cast lt_of_mul_lt_mul_right hlt hpow.le
    exact mul_le_mul_of_nonneg_right (by exact_mod_cast hless) hpow.le
  · obtain ⟨hfull, hle⟩ := h.le_of_exponent_lt h' (by omega)
    have hfull' : (2 : ℚ) ^ 52 - 1 / 2 ≤ n := by
      linarith [show (2 : ℚ) ^ 52 ≤ n by exact_mod_cast hfull]
    exact absurd (hlt.trans_le hle) (not_lt.mpr (mul_le_mul_of_nonneg_right hfull' hpow.le))

theorem Normalized.le_pred (h : Normalized n t) (h' : Normalized n' t')
    (hlt : (n' : ℚ) * 2 ^ t' < n * 2 ^ t) :
    (n' : ℚ) * 2 ^ t' ≤ (n - 2 * halfGapBelow n t) * 2 ^ t := by
  have hpow : (0 : ℚ) < 2 ^ t := by positivity
  have hgap := (halfGapBelow_bounds n t).2
  by_cases ht : t ≤ t'
  · obtain ⟨k, hk⟩ := exists_units n' ht
    rw [hk] at hlt ⊢
    have hless : k < n := by exact_mod_cast lt_of_mul_lt_mul_right hlt hpow.le
    have hless' : (k : ℚ) + 1 ≤ n := by exact_mod_cast hless
    exact mul_le_mul_of_nonneg_right (by linarith) hpow.le
  · obtain ⟨hfull, hle⟩ := h.le_of_exponent_lt h' (by omega)
    refine hle.trans (mul_le_mul_of_nonneg_right ?_ hpow.le)
    have hleast := h'.least
    unfold halfGapBelow
    split
    · next hnarrow =>
      rw [hnarrow.1]
      norm_num
    · next hnarrow =>
      have hmore : 2 ^ 52 + 1 ≤ n := by omega
      linarith [show (2 : ℚ) ^ 52 + 1 ≤ n by exact_mod_cast hmore]

end Neighbours

section Existence

variable {t : ℤ} {q : ℚ}

theorem exists_roundsTo (hq : 0 ≤ q) : ∃ n, RoundsTo q n := by
  have hvalue : q = (q.num.toNat : ℕ) / (q.den : ℕ) := by
    have hnum : ((q.num.toNat : ℕ) : ℚ) = q.num := by
      exact_mod_cast Int.toNat_of_nonneg (Rat.num_nonneg.mpr hq)
    rw [hnum, Rat.num_div_den]
  rw [hvalue]
  exact ⟨_, (locates_quotient _ q.den_pos).roundedMantissa⟩

theorem exists_binade (hq : 0 < q) : ∃ t : ℤ, 2 ^ 52 * 2 ^ t ≤ q ∧ q < 2 ^ 53 * 2 ^ t := by
  have hscale (k : ℕ) (t : ℤ) : (2 : ℚ) ^ k * 2 ^ t = ((2 : ℕ) : ℚ) ^ (k + t : ℤ) := by
    rw [zpow_add₀ (by norm_num), zpow_natCast]
    rfl
  refine ⟨Int.log 2 q - 52, ?_, ?_⟩
  · rw [hscale, show ((52 : ℕ) + (Int.log 2 q - 52) : ℤ) = Int.log 2 q by push_cast; ring]
    exact Int.zpow_log_le_self (by norm_num) hq
  · rw [hscale, show ((53 : ℕ) + (Int.log 2 q - 52) : ℤ) = Int.log 2 q + 1 by push_cast; ring]
    exact Int.lt_zpow_succ_log_self (by norm_num) q

/-- A value that needs no smaller exponent than there is lies in the interval of a number with all
its bits, and half a unit in the last place at most from it. -/
theorem exists_encloses (ht : -1074 ≤ t) (hlow : 2 ^ 52 * 2 ^ t ≤ q) (hhigh : q < 2 ^ 53 * 2 ^ t) :
    ∃ (n : ℕ) (t' : ℤ), Normalized n t' ∧ 2 ^ 52 ≤ n ∧ t' ≤ t + 1 ∧ Encloses n t' q ∧
      |(n : ℚ) * 2 ^ t' - q| ≤ q / 2 ^ 53 := by
  have hpow : (0 : ℚ) < 2 ^ t := by positivity
  have hq : 0 < q := lt_of_lt_of_le (by positivity) hlow
  obtain ⟨n, hn⟩ := exists_roundsTo (q := q / 2 ^ t) (by positivity)
  have hbelow := hn.below
  have habove := hn.above
  rw [le_div_iff₀ hpow] at hbelow
  rw [div_le_iff₀ hpow] at habove
  have hscaled : 2 ^ 52 ≤ q / 2 ^ t ∧ q / 2 ^ t < 2 ^ 53 :=
    ⟨(le_div_iff₀ hpow).mpr hlow, (div_lt_iff₀ hpow).mpr hhigh⟩
  have hfull : 2 ^ 52 ≤ n := by
    have hless : (2 : ℚ) ^ 52 < n + 1 := by linarith [hn.above, hscaled.1]
    exact Nat.lt_succ_iff.mp (by exact_mod_cast hless)
  have hshort : n ≤ 2 ^ 53 := by
    have hless : (n : ℚ) < 2 ^ 53 + 1 := by linarith [hn.below, hscaled.2]
    exact Nat.lt_succ_iff.mp (by exact_mod_cast hless)
  have herror : |(n : ℚ) * 2 ^ t - q| ≤ q / 2 ^ 53 := by
    refine le_trans (b := 1 / 2 * 2 ^ t) ?_ (by linarith)
    rw [abs_le]
    constructor <;> linarith
  by_cases hcarry : n = 2 ^ 53
  · -- the mantissa is one bit too long and its last bit is a zero
    have hunit : (2 : ℚ) ^ (t + 1) = 2 * 2 ^ t := by
      rw [zpow_add_one₀ (by norm_num)]
      ring
    subst hcarry
    have hnarrow : halfGapBelow (2 ^ 52) (t + 1) = 1 / 4 := if_pos ⟨rfl, by omega⟩
    push_cast at hbelow herror
    refine ⟨2 ^ 52, t + 1, ⟨by norm_num, by norm_num, by omega, .inr le_rfl⟩, le_rfl, le_rfl,
      ⟨?_, ?_, by norm_num⟩, ?_⟩
    · rw [hnarrow, hunit]
      push_cast
      linarith
    · rw [hunit]
      push_cast
      linarith
    · rw [hunit]
      push_cast
      convert herror using 2
      ring
  · have hgap := halfGapBelow_bounds n t
    refine ⟨n, t, ⟨by omega, by omega, ht, .inr hfull⟩, hfull, by omega,
      ⟨?_, habove, fun hodd => ⟨?_, ?_⟩⟩, herror⟩
    · unfold halfGapBelow
      split
      · next hnarrow =>
        rw [hnarrow.1]
        push_cast
        linarith
      · exact hbelow
    · have hnarrow : halfGapBelow n t = 1 / 2 := if_neg fun h => by
        rw [h.1] at hodd
        exact absurd hodd (by norm_num)
      rw [hnarrow]
      exact (lt_div_iff₀ hpow).mp (hn.odd hodd).1
    · exact (div_lt_iff₀ hpow).mp (hn.odd hodd).2

theorem exists_normalized (hlow : 2 ^ (-1022 : ℤ) ≤ q) (hhigh : q < 2 ^ (1023 : ℤ)) :
    ∃ (n : ℕ) (t : ℤ), Normalized n t ∧ 2 ^ 52 ≤ n ∧ t ≤ 971 ∧ Encloses n t q ∧
      |(n : ℚ) * 2 ^ t - q| ≤ q / 2 ^ 53 := by
  obtain ⟨t, hlow', hhigh'⟩ := exists_binade (lt_of_lt_of_le (by positivity) hlow)
  have hleast : -1022 < 53 + t := by
    rw [← zpow_natCast, ← zpow_add₀ (by norm_num)] at hhigh'
    exact (zpow_lt_zpow_iff_right₀ (by norm_num)).mp (hlow.trans_lt hhigh')
  have hmost : 52 + t < 1023 := by
    rw [← zpow_natCast, ← zpow_add₀ (by norm_num)] at hlow'
    exact (zpow_lt_zpow_iff_right₀ (by norm_num)).mp (hlow'.trans_lt hhigh)
  obtain ⟨n, t', hn, hfull, ht', hq, herror⟩ := exists_encloses (by omega) hlow' hhigh'
  exact ⟨n, t', hn, hfull, by omega, hq, herror⟩

end Existence

section Values

/-- The rational that a finite number stands for. -/
def rationalOf : UnpackedFloat → ℚ
  | .finite .positive n t _ => n * 2 ^ t
  | .finite .negative n t _ => -(n * 2 ^ t)
  | _ => 0

def rational (x : Float) : ℚ := rationalOf x.toModel.unpack

/-- No finite number is closer to the value, and if another one is as close the last bit of the
mantissa is zero. -/
structure IsNearest (x : Float) (q : ℚ) : Prop where
  finite : x.isFinite = true
  least : ∀ y : Float, y.isFinite = true → |rational x - q| ≤ |rational y - q|
  even : ∀ y : Float, y.isFinite = true → rational y ≠ rational x →
  |rational y - q| = |rational x - q| →
    (Binary.ofFloat x).m % 2 = 0

variable {x : Float} {n : ℕ} {t : ℤ} {q : ℚ}

theorem rational_cases (h : x.isFinite = true) :
    rational x ≤ 0 ∨ ∃ n t, Normalized n t ∧ rational x = n * 2 ^ t := by
  rw [rational]
  rcases unpack_ofFloat h with ⟨-, hzero⟩ | ⟨hn, -, hfinite, -⟩
  · rw [hzero]
    exact .inl le_rfl
  · rw [hfinite]
    cases signOf x with
    | positive => exact .inr ⟨_, _, hn, rfl⟩
    | negative =>
      refine .inl (neg_nonpos.mpr ?_)
      positivity

/-- Whatever lies in the interval of a number is at least as far from every other one. -/
theorem Encloses.distance_le (hn : Normalized n t) (hq : Encloses n t q) {y : ℚ}
    (hy : y ≤ 0 ∨ ∃ n' t', Normalized n' t' ∧ y = n' * 2 ^ t') (hne : y ≠ n * 2 ^ t) :
    |n * 2 ^ t - q| ≤ |y - q| ∧ (n % 2 = 1 → |n * 2 ^ t - q| < |y - q|) := by
  have hpow : (0 : ℚ) < 2 ^ t := by positivity
  obtain ⟨hgap, hgap'⟩ := halfGapBelow_bounds n t
  have hunit : 0 < halfGapBelow n t * 2 ^ t := mul_pos (by linarith) hpow
  have hbelow := hq.below
  have habove := hq.above
  rw [sub_mul] at hbelow
  rw [add_mul] at habove
  have hstrict (hodd : n % 2 = 1) := hq.odd hodd
  rw [sub_mul, add_mul] at hstrict
  rcases lt_or_gt_of_ne hne with hless | hmore
  · -- the other number is a whole gap below, the value half a gap at most
    have hy' : y ≤ n * 2 ^ t - 2 * (halfGapBelow n t * 2 ^ t) := by
      rw [← mul_assoc, ← sub_mul]
      rcases hy with hy | ⟨n', t', hn', rfl⟩
      · have hone : (1 : ℚ) ≤ n := by exact_mod_cast hn.pos
        exact hy.trans (mul_nonneg (by linarith) hpow.le)
      · exact hn.le_pred hn' hless
    rw [abs_of_nonpos (show y - q ≤ 0 by linarith)]
    refine ⟨abs_le.mpr ⟨by linarith, by linarith⟩, fun hodd => abs_lt.mpr ?_⟩
    constructor <;> linarith [hstrict hodd]
  · have hy' : n * 2 ^ t + 2 ^ t ≤ y := by
      rcases hy with hy | ⟨n', t', hn', rfl⟩
      · exact absurd (hmore.trans_le hy) (not_lt.mpr (by positivity))
      · simpa [add_mul] using hn.succ_le hn' hmore
    rw [abs_of_nonneg (show 0 ≤ y - q by linarith)]
    refine ⟨abs_le.mpr ⟨by linarith, by linarith⟩, fun hodd => abs_lt.mpr ?_⟩
    constructor <;> linarith [hstrict hodd]

theorem isNearest_of_encloses (hn : Normalized n t)
    (hx : x.toModel.unpack = .finite .positive n t hn.pos) (hq : Encloses n t q) :
    IsNearest x q := by
  have hfinite : x.isFinite = true := by
    change x.toModel.unpack.isFinite = true
    rw [hx]
    rfl
  have hvalue : rational x = n * 2 ^ t := by rw [rational, hx, rationalOf]
  have hmantissa : (Binary.ofFloat x).m = n := by
    rcases unpack_ofFloat hfinite with ⟨-, hzero⟩ | ⟨hn', -, hfinite', -⟩
    · rw [hx] at hzero
      cases hzero
    · rw [hx] at hfinite'
      injection hfinite' with _ hm
      exact hm.symm
  refine ⟨hfinite, fun y hy => ?_, fun y hy hne heq => ?_⟩
  · by_cases hne : rational y = n * 2 ^ t
    · rw [hvalue, hne]
    · rw [hvalue]
      exact (hq.distance_le hn (rational_cases hy) hne).1
  · rw [hvalue] at hne heq
    rw [hmantissa]
    by_contra hodd
    exact absurd heq ((hq.distance_le hn (rational_cases hy) hne).2 (by omega)).ne'

/-- A natural number is converted to the nearest number. -/
theorem isNearest_ofNat {m : ℕ} (hpos : 0 < m) (hm : m < 2 ^ 1023) : IsNearest (.ofNat m) m := by
  have hlow : (2 : ℚ) ^ (-1022 : ℤ) ≤ m :=
    (zpow_le_one_of_nonpos₀ (by norm_num) (by norm_num)).trans (by exact_mod_cast hpos)
  obtain ⟨n, t, hn, hfull, hmost, hq, -⟩ := exists_normalized hlow (by exact_mod_cast hm)
  have hofNat : Float.ofNat m = Float.ofModel (Float.Model.pack (.finite .positive n t hn.pos)) :=
    ofScientific_product hn hpos (by norm_num) (by simpa using hq)
  refine isNearest_of_encloses hn ?_ hq
  rw [hofNat]
  exact unpack_pack_finite _ hfull hn.lt hn.least hmost

end Values

end Abacus
