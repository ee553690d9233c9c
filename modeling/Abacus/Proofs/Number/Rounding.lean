import Mathlib
import Abacus.Proofs.Number.Sign

/-! What rounding gives: the nearest number, of two that are as near the one with an even mantissa.
The value that is rounded is known by its first digits and two bits for the others, which is all
that rounding asks for. -/

namespace Abacus

open Float.Model UnpackedFloat

section Residues

/-- Beyond the mantissa and the half that the round bit stands for there is less than another half,
and the sticky bit tells whether there is anything. -/
def Locates (em : ExtendedMantissa) (x : ℚ) : Prop :=
  ∃ rest : ℚ, 0 ≤ rest ∧ rest < 1 / 2 ∧ (em.stickyBit = false ↔ rest = 0) ∧
    x = em.mantissa + (bif em.roundBit then 1 / 2 else 0) + rest

/-- The nearest whole number, and the even one of two that are as near. -/
structure RoundsTo (x : ℚ) (n : ℕ) : Prop where
  below : (n : ℚ) - 1 / 2 ≤ x
  above : x ≤ n + 1 / 2
  odd : n % 2 = 1 → (n : ℚ) - 1 / 2 < x ∧ x < n + 1 / 2

variable {em : ExtendedMantissa} {x : ℚ} {n k : ℕ}

/-- Of two neighbours one is odd, and nothing half-way is rounded to that one. -/
theorem RoundsTo.not_succ (h : RoundsTo x n) : ¬ RoundsTo x (n + 1) := by
  intro h'
  have hcast : ((n + 1 : ℕ) : ℚ) = n + 1 := Nat.cast_succ n
  have hbelow := h'.below
  have habove := h.above
  rw [hcast] at hbelow
  rcases Nat.mod_two_eq_zero_or_one n with heven | hodd
  · have hstrict := (h'.odd (by omega)).1
    rw [hcast] at hstrict
    linarith
  · linarith [(h.odd hodd).2]

theorem RoundsTo.unique (h : RoundsTo x n) (h' : RoundsTo x k) : n = k := by
  have hle : n ≤ k + 1 := by exact_mod_cast (by linarith [h.below, h'.above] : (n : ℚ) ≤ k + 1)
  have hle' : k ≤ n + 1 := by exact_mod_cast (by linarith [h'.below, h.above] : (k : ℚ) ≤ n + 1)
  rcases (by omega : n = k ∨ n = k + 1 ∨ k = n + 1) with rfl | rfl | rfl
  · rfl
  · exact absurd h h'.not_succ
  · exact absurd h' h.not_succ

theorem Locates.mantissa_le (h : Locates em x) : (em.mantissa : ℚ) ≤ x ∧ x < em.mantissa + 1 := by
  obtain ⟨rest, hrest, hlt, -, rfl⟩ := h
  cases em.roundBit <;> simp only [cond_true, cond_false] <;> constructor <;> linarith

theorem Locates.roundedMantissa (h : Locates em x) : RoundsTo x em.roundedMantissa := by
  obtain ⟨m, round, sticky⟩ := em
  obtain ⟨rest, hrest, hlt, hsticky, rfl⟩ := h
  dsimp only at *
  cases round <;> cases sticky
  case false.false =>
    obtain rfl := hsticky.mp rfl
    have hm : ExtendedMantissa.roundedMantissa ⟨m, false, false⟩ = m := rfl
    rw [hm]
    refine ⟨?_, ?_, fun _ => ⟨?_, ?_⟩⟩ <;> norm_num
  case false.true =>
    have hm : ExtendedMantissa.roundedMantissa ⟨m, false, true⟩ = m := rfl
    rw [hm]
    refine ⟨?_, ?_, fun _ => ⟨?_, ?_⟩⟩ <;> simp <;> linarith
  case true.false =>
    obtain rfl := hsticky.mp rfl
    have hm : ExtendedMantissa.roundedMantissa ⟨m, true, false⟩ = m + m % 2 := rfl
    rw [hm, cond_true]
    rcases Nat.mod_two_eq_zero_or_one m with heven | hodd
    · rw [heven]
      refine ⟨?_, ?_, fun hodd => by omega⟩ <;> (push_cast; linarith)
    · rw [hodd]
      refine ⟨?_, ?_, fun hodd' => by omega⟩ <;> (push_cast; linarith)
  case true.true =>
    have hm : ExtendedMantissa.roundedMantissa ⟨m, true, true⟩ = m + 1 := rfl
    have hpos : 0 < rest := lt_of_le_of_ne hrest fun h => absurd (hsticky.mpr h.symm) (by decide)
    rw [hm]
    refine ⟨?_, ?_, fun _ => ⟨?_, ?_⟩⟩ <;> push_cast <;> simp <;> linarith

theorem Locates.shiftRightOne (h : Locates em x) : Locates em.shiftRightOne (x / 2) := by
  obtain ⟨m, round, sticky⟩ := em
  obtain ⟨rest, hrest, hlt, hsticky, rfl⟩ := h
  have hm : (m : ℚ) = 2 * (m / 2 : ℕ) + (m % 2 : ℕ) := by exact_mod_cast (Nat.div_add_mod m 2).symm
  have hround : ((m % 2 : ℕ) : ℚ) / 2 = bif m % 2 != 0 then 1 / 2 else 0 := by
    rcases Nat.mod_two_eq_zero_or_one m with h | h <;> simp [h]
  refine ⟨(bif round then 1 / 4 else 0) + rest / 2, ?_, ?_, ?_, ?_⟩
  · cases round <;> simp only [cond_true, cond_false] <;> linarith
  · cases round <;> simp only [cond_true, cond_false] <;> linarith
  · dsimp only at hsticky
    cases round
    · simpa [ExtendedMantissa.shiftRightOne] using hsticky
    · have hne : (1 / 4 : ℚ) + rest / 2 ≠ 0 := by linarith
      simpa [ExtendedMantissa.shiftRightOne] using hne
  · dsimp only [ExtendedMantissa.shiftRightOne]
    rw [← hround, hm]
    cases round <;> simp only [cond_true, cond_false] <;> ring

theorem Locates.shiftRight (h : Locates em x) (n : ℕ) : Locates (em >>> n) (x / 2 ^ n) := by
  change Locates (n.repeat ExtendedMantissa.shiftRightOne em) _
  induction n with
  | zero => simpa [Nat.repeat] using h
  | succ n ih =>
    rw [Nat.repeat, pow_succ, ← div_div]
    exact ih.shiftRightOne

theorem locates_exact (m : ℕ) : Locates (ExtendedMantissa.ofMantissaAndAccuracy m .exact) m :=
  ⟨0, le_rfl, by norm_num, by simp [ExtendedMantissa.ofMantissaAndAccuracy],
    by simp [ExtendedMantissa.ofMantissaAndAccuracy]⟩

theorem locates_quotient (a : ℕ) {b : ℕ} (hb : 0 < b) :
    Locates (ExtendedMantissa.ofMantissaAndAccuracy (a / b) (accuracyOfFraction (a % b) b))
      (a / b) := by
  have hpos : (0 : ℚ) < b := by exact_mod_cast hb
  have hab : (a : ℚ) = b * (a / b : ℕ) + (a % b : ℕ) := by exact_mod_cast (Nat.div_add_mod a b).symm
  have hquotient : (a : ℚ) / b = (a / b : ℕ) + (a % b : ℕ) / b := by
    rw [hab]
    field_simp
  have hlt : ((a % b : ℕ) : ℚ) < b := by exact_mod_cast Nat.mod_lt a hb
  rw [hquotient, accuracyOfFraction]
  generalize a % b = r at *
  split
  · next hzero =>
    rw [hzero, Nat.cast_zero, zero_div, add_zero]
    exact locates_exact _
  · next hne =>
    have hrpos : (0 : ℚ) < r := by exact_mod_cast Nat.pos_of_ne_zero hne
    cases hcompare : compare (2 * r) b with
    | lt =>
      have hhalf : (2 * r : ℚ) < b := by exact_mod_cast Nat.compare_eq_lt.mp hcompare
      refine ⟨r / b, by positivity, ?_, ?_, ?_⟩
      · rw [div_lt_iff₀ hpos]
        linarith
      · simp [ExtendedMantissa.ofMantissaAndAccuracy, hne, hb.ne']
      · simp [ExtendedMantissa.ofMantissaAndAccuracy]
    | eq =>
      have hhalf : (2 * r : ℚ) = b := by exact_mod_cast Nat.compare_eq_eq.mp hcompare
      refine ⟨0, le_rfl, by norm_num, by simp [ExtendedMantissa.ofMantissaAndAccuracy], ?_⟩
      rw [← hhalf]
      simp only [ExtendedMantissa.ofMantissaAndAccuracy, cond_true]
      field_simp
      ring
    | gt =>
      have hhalf : (b : ℚ) < 2 * r := by exact_mod_cast Nat.compare_eq_gt.mp hcompare
      have hrest : 0 < (r : ℚ) / b - 1 / 2 := by
        rw [sub_pos, lt_div_iff₀ hpos]
        linarith
      refine ⟨r / b - 1 / 2, hrest.le, ?_, ?_, ?_⟩
      · rw [sub_lt_iff_lt_add, div_lt_iff₀ hpos]
        linarith
      · exact iff_of_false (by simp [ExtendedMantissa.ofMantissaAndAccuracy]) hrest.ne'
      · simp only [ExtendedMantissa.ofMantissaAndAccuracy, cond_true]
        ring

end Residues

section Binades

variable {m n : ℕ} {e t : ℤ} {q : ℚ} {accuracy : Accuracy} {sign : Sign}

/-- The exponent with which a magnitude has a mantissa of 53 bits, or the least exponent. -/
structure InBinade (q : ℚ) (t : ℤ) : Prop where
  least : -1074 ≤ t
  above : q < 2 ^ 53 * 2 ^ t
  below : t = -1074 ∨ 2 ^ 52 * 2 ^ t ≤ q

theorem InBinade.le {t' : ℤ} (h : InBinade q t) (h' : InBinade q t') : t' ≤ t := by
  by_contra hlt
  have hpow : (2 : ℚ) ^ (t + 1) ≤ 2 ^ t' := zpow_le_zpow_right₀ (by norm_num) (by omega)
  rw [zpow_add_one₀ (by norm_num)] at hpow
  rcases h'.below with hleast | hbelow
  · have := h.least
    omega
  · linarith [h.above]

theorem InBinade.unique {t' : ℤ} (h : InBinade q t) (h' : InBinade q t') : t = t' :=
  le_antisymm (h'.le h) (h.le h')

theorem targetExponent_eq (m : ℕ) (e : ℤ) :
    Format.binary64.targetExponent (totalExponent m e) = max (m.log2 + 1 + e - 53) (-1074) := rfl

theorem inBinade_targetExponent
    (h : Locates (ExtendedMantissa.ofMantissaAndAccuracy m accuracy) (q / 2 ^ e))
    (he : e ≤ Format.binary64.targetExponent (totalExponent m e)) :
    InBinade q (Format.binary64.targetExponent (totalExponent m e)) := by
  rw [targetExponent_eq] at he ⊢
  have hmantissa : (ExtendedMantissa.ofMantissaAndAccuracy m accuracy).mantissa = m := by
    cases accuracy with
    | exact => rfl
    | inexact o => cases o <;> rfl
  have hpow (k : ℤ) : (0 : ℚ) < 2 ^ k := by positivity
  obtain ⟨hbelow, habove⟩ := h.mantissa_le
  rw [hmantissa, le_div_iff₀ (hpow e)] at hbelow
  rw [hmantissa, div_lt_iff₀ (hpow e)] at habove
  have hscale (k : ℕ) : (2 : ℚ) ^ k * 2 ^ e = 2 ^ (k + e : ℤ) := by
    rw [zpow_add₀ (by norm_num), zpow_natCast]
  refine ⟨le_max_right _ _, ?_, ?_⟩
  · have hlog : ((m : ℚ) + 1) ≤ 2 ^ (m.log2 + 1) := by exact_mod_cast Nat.lt_log2_self
    calc q < (m + 1) * 2 ^ e := habove
      _ ≤ 2 ^ (m.log2 + 1) * 2 ^ e := by gcongr
      _ = 2 ^ (53 + (m.log2 + 1 + e - 53) : ℤ) := by rw [hscale]; congr 1; push_cast; ring
      _ = 2 ^ 53 * 2 ^ (m.log2 + 1 + e - 53 : ℤ) := by rw [zpow_add₀ (by norm_num)]; norm_num
      _ ≤ 2 ^ 53 * 2 ^ max (m.log2 + 1 + e - 53 : ℤ) (-1074) := by
        gcongr; norm_num; exact le_max_left _ _
  · by_cases hleast : (m.log2 + 1 + e - 53 : ℤ) ≤ -1074
    · exact .inl (max_eq_right hleast)
    · rw [max_eq_left (by omega)] at he ⊢
      have hm : m ≠ 0 := by
        rintro rfl
        rw [Nat.log2_zero] at he
        omega
      have hlog : ((2 : ℚ) ^ m.log2) ≤ m := by exact_mod_cast Nat.log2_self_le hm
      right
      calc (2 : ℚ) ^ 52 * 2 ^ (m.log2 + 1 + e - 53 : ℤ) = 2 ^ (52 + (m.log2 + 1 + e - 53) : ℤ) := by
            rw [zpow_add₀ (by norm_num)]; norm_num
        _ = 2 ^ m.log2 * 2 ^ e := by rw [hscale]; congr 1; ring
        _ ≤ m * 2 ^ e := by gcongr
        _ ≤ q := hbelow

theorem shiftToTargetExponent_eq (he : e ≤ Format.binary64.targetExponent (totalExponent m e)) :
    shiftToTargetExponent .binary64 m e accuracy =
      (ExtendedMantissa.ofMantissaAndAccuracy m accuracy >>>
        (Format.binary64.targetExponent (totalExponent m e) - e).toNat,
        Format.binary64.targetExponent (totalExponent m e)) := by
  simp only [shiftToTargetExponent, shiftToExponent]
  congr 1
  omega

/-- The number of units in the last place to which a value is rounded, before a carry. -/
theorem roundWithAccuracy_eq
    (h : Locates (ExtendedMantissa.ofMantissaAndAccuracy m accuracy) (q / 2 ^ e))
    (he : e ≤ Format.binary64.targetExponent (totalExponent m e)) (ht : InBinade q t)
    (hn : RoundsTo (q / 2 ^ t) n) :
    roundWithAccuracy .binary64 sign m e accuracy =
      let carried := shiftToTargetExponent .binary64 n t .exact
      if h : carried.1.mantissa = 0 then .zero sign
      else .finite sign carried.1.mantissa carried.2 (Nat.pos_of_ne_zero h) := by
  obtain rfl := (inBinade_targetExponent h he).unique ht
  have hshifted := h.shiftRight (Format.binary64.targetExponent (totalExponent m e) - e).toNat
  rw [div_div, ← zpow_natCast, ← zpow_add₀ (by norm_num), Int.toNat_of_nonneg (by omega),
    add_sub_cancel] at hshifted
  have hrounded := hshifted.roundedMantissa.unique hn
  simp only [roundWithAccuracy, shiftToTargetExponent_eq he, hrounded]

theorem roundWithAccuracy_finite
    (h : Locates (ExtendedMantissa.ofMantissaAndAccuracy m accuracy) (q / 2 ^ e))
    (he : e ≤ Format.binary64.targetExponent (totalExponent m e)) (ht : InBinade q t)
    (hn : RoundsTo (q / 2 ^ t) n) (hpos : 0 < n) (hlt : n < 2 ^ 53) :
    roundWithAccuracy .binary64 sign m e accuracy = .finite sign n t hpos := by
  have hlog : n.log2 < 53 := (Nat.log2_lt hpos.ne').mpr hlt
  have hshift : (Format.binary64.targetExponent (totalExponent n t) - t).toNat = 0 := by
    have := ht.least
    rw [targetExponent_eq]
    omega
  have hcarried : shiftToTargetExponent .binary64 n t .exact = (⟨n, false, false⟩, t) := by
    simp only [shiftToTargetExponent, shiftToExponent, hshift, Nat.cast_zero, add_zero]
    rfl
  rw [roundWithAccuracy_eq h he ht hn]
  simp only [hcarried, hpos.ne', dite_false]

/-- Where the rounded mantissa is one bit too long, the last bit is a zero. -/
theorem roundWithAccuracy_carry
    (h : Locates (ExtendedMantissa.ofMantissaAndAccuracy m accuracy) (q / 2 ^ e))
    (he : e ≤ Format.binary64.targetExponent (totalExponent m e)) (ht : InBinade q t)
    (hn : RoundsTo (q / 2 ^ t) (2 ^ 53)) :
    roundWithAccuracy .binary64 sign m e accuracy = .finite sign (2 ^ 52) (t + 1) (by decide) := by
  have hlog : Nat.log2 (2 ^ 53) = 53 := Nat.log2_two_pow
  have htarget : Format.binary64.targetExponent (totalExponent (2 ^ 53) t) = t + 1 := by
    have := ht.least
    rw [targetExponent_eq, hlog]
    omega
  have hcarried : shiftToTargetExponent .binary64 (2 ^ 53) t .exact =
      (⟨2 ^ 52, false, false⟩, t + 1) := by
    rw [shiftToTargetExponent_eq (by omega), htarget, add_sub_cancel_left]
    rfl
  rw [roundWithAccuracy_eq h he ht hn]
  simp only [hcarried]
  rfl

end Binades

section Nearest

variable {m n : ℕ} {e t : ℤ} {q : ℚ} {accuracy : Accuracy} {sign : Sign}

/-- The mantissa and exponent of a magnitude other than zero: all bits are used, or the exponent is
the least one. -/
structure Normalized (n : ℕ) (t : ℤ) : Prop where
  pos : 0 < n
  lt : n < 2 ^ 53
  least : -1074 ≤ t
  full : t = -1074 ∨ 2 ^ 52 ≤ n

/-- Half the gap to the next smaller magnitude, in units of the last place. Below a power of two the
gap is half as wide. -/
def halfGapBelow (n : ℕ) (t : ℤ) : ℚ := if n = 2 ^ 52 ∧ -1074 < t then 1 / 4 else 1 / 2

/-- The values that are rounded to `n * 2 ^ t`. The ends of the interval are among them where the
mantissa is even. -/
structure Encloses (n : ℕ) (t : ℤ) (q : ℚ) : Prop where
  below : (n - halfGapBelow n t) * 2 ^ t ≤ q
  above : q ≤ (n + 1 / 2) * 2 ^ t
  odd : n % 2 = 1 → (n - halfGapBelow n t) * 2 ^ t < q ∧ q < (n + 1 / 2) * 2 ^ t

theorem halfGapBelow_bounds (n : ℕ) (t : ℤ) :
    1 / 4 ≤ halfGapBelow n t ∧ halfGapBelow n t ≤ 1 / 2 := by
  unfold halfGapBelow
  split <;> norm_num

theorem encloses_self (n : ℕ) (t : ℤ) : Encloses n t (n * 2 ^ t) := by
  have hpow : (0 : ℚ) < 2 ^ t := by positivity
  have hgap := (halfGapBelow_bounds n t).1
  refine ⟨?_, ?_, fun _ => ⟨?_, ?_⟩⟩
  · exact mul_le_mul_of_nonneg_right (by linarith) hpow.le
  · exact mul_le_mul_of_nonneg_right (by linarith) hpow.le
  · exact mul_lt_mul_of_pos_right (by linarith) hpow
  · exact mul_lt_mul_of_pos_right (by linarith) hpow

theorem roundWithAccuracy_of_encloses (hn : Normalized n t) (hq : Encloses n t q)
    (h : Locates (ExtendedMantissa.ofMantissaAndAccuracy m accuracy) (q / 2 ^ e))
    (he : e ≤ Format.binary64.targetExponent (totalExponent m e)) :
    roundWithAccuracy .binary64 sign m e accuracy = .finite sign n t hn.pos := by
  have hpow : (0 : ℚ) < 2 ^ t := by positivity
  have hgap := halfGapBelow_bounds n t
  have hlt : ((n : ℚ) + 1) ≤ 2 ^ 53 := by exact_mod_cast hn.lt
  have habove : q < 2 ^ 53 * 2 ^ t := hq.above.trans_lt (mul_lt_mul_of_pos_right (by linarith) hpow)
  by_cases hsame : t = -1074 ∨ 2 ^ 52 * 2 ^ t ≤ q
  · -- the value is in the binade of the number itself
    refine roundWithAccuracy_finite h he ⟨hn.least, habove, hsame⟩ ⟨?_, ?_, fun hodd => ⟨?_, ?_⟩⟩
      hn.pos hn.lt
    · rw [le_div_iff₀ hpow]
      exact le_trans (mul_le_mul_of_nonneg_right (by linarith) hpow.le) hq.below
    · rw [div_le_iff₀ hpow]
      exact hq.above
    · rw [lt_div_iff₀ hpow]
      exact lt_of_le_of_lt (mul_le_mul_of_nonneg_right (by linarith) hpow.le) (hq.odd hodd).1
    · rw [div_lt_iff₀ hpow]
      exact (hq.odd hodd).2
  · -- the number is a power of two, and the value is in the binade below
    obtain ⟨hleast, hbelow⟩ := not_or.mp hsame
    rw [not_le] at hbelow
    have hfull := hn.full.resolve_left hleast
    have hminimal : n = 2 ^ 52 := by
      by_contra hne
      have hmore : (2 : ℚ) ^ 52 + 1 ≤ n := by exact_mod_cast (by omega : 2 ^ 52 + 1 ≤ n)
      have hle : (2 : ℚ) ^ 52 * 2 ^ t ≤ (n - halfGapBelow n t) * 2 ^ t :=
        mul_le_mul_of_nonneg_right (by linarith) hpow.le
      linarith [hq.below]
    subst hminimal
    have hnarrow : halfGapBelow (2 ^ 52) t = 1 / 4 := if_pos ⟨rfl, by have := hn.least; omega⟩
    have hunit : (2 : ℚ) ^ t = 2 * 2 ^ (t - 1) := by
      rw [zpow_sub_one₀ (by norm_num)]
      ring
    have hpow' : (0 : ℚ) < 2 ^ (t - 1) := by positivity
    have hlow := hq.below
    rw [hnarrow, hunit] at hlow
    rw [hunit] at hbelow
    push_cast at hlow
    have hbinade : InBinade q (t - 1) := by
      refine ⟨by have := hn.least; omega, by linarith, .inr ?_⟩
      linarith
    have hcarried : RoundsTo (q / 2 ^ (t - 1)) (2 ^ 53) := by
      refine ⟨?_, ?_, fun hodd => absurd hodd (by norm_num)⟩
      · rw [le_div_iff₀ hpow']
        push_cast
        linarith
      · rw [div_le_iff₀ hpow']
        push_cast
        linarith
    simpa using roundWithAccuracy_carry h he hbinade hcarried

end Nearest

end Abacus
