import Abacus.Proofs.Reading.Grammar

/-! A decimal is written in full, as a number of the grammar: zeros are added before or after its
digits. -/

namespace Abacus

theorem isDigit_natText (n : Nat) : ∀ c ∈ natText n, c.isDigit = true := fun _ hc =>
  Nat.isDigit_of_mem_toDigits (by decide) (by decide) hc

theorem natText_ne_nil (n : Nat) : natText n ≠ [] := Nat.toDigits_ne_nil

theorem ofDigitChars_natText (n : Nat) : Nat.ofDigitChars 10 (natText n) 0 = n :=
  Nat.ofDigitChars_toDigits (by decide) (by decide)

theorem ofDigitChars_zeros (k n : Nat) :
    Nat.ofDigitChars 10 (List.replicate k '0') n = n * 10 ^ k := by
  induction k generalizing n with
  | zero => simp
  | succ k ih =>
    have hzero : Nat.ofDigitChars 10 ['0'] n = n * 10 := by simp [Nat.ofDigitChars, Nat.mul_comm]
    rw [List.replicate_succ, ← List.singleton_append, Nat.ofDigitChars_append, hzero, ih,
      Nat.pow_succ, Nat.mul_assoc, Nat.mul_comm 10]

theorem isDigit_zeros (n : Nat) : ∀ c ∈ List.replicate n '0', c.isDigit = true := fun c hc => by
  rw [List.eq_of_mem_replicate hc]
  rfl

/-- A decimal is written with a digit at least on every side of its point, and with zeros in place
of an exponent. -/
theorem isNumeral_positional (d : Decimal) :
    ∃ k : Nat, IsNumeral (Numeral.positional d) ⟨d.digits * 10 ^ k, d.exponent - k⟩ := by
  have hdigits := isDigit_natText d.digits
  have hne := natText_ne_nil d.digits
  have hvalue := ofDigitChars_natText d.digits
  simp only [Numeral.positional]
  generalize natText d.digits = digits at *
  split
  · next hexponent =>
    have hnumeral := IsNumeral.whole (by simp [hne])
      (List.forall_mem_append.mpr ⟨hdigits, isDigit_zeros d.exponent.toNat⟩)
    rw [Nat.ofDigitChars_append, hvalue, ofDigitChars_zeros] at hnumeral
    exact ⟨d.exponent.toNat, by rwa [Int.toNat_of_nonneg hexponent, Int.sub_self]⟩
  · next hexponent =>
    obtain ⟨places, hplaces⟩ : ∃ places : Nat, d.exponent = -places :=
      ⟨(-d.exponent).toNat, by omega⟩
    have hplain : (⟨d.digits * 10 ^ 0, d.exponent - (0 : Nat)⟩ : Decimal) =
        ⟨d.digits, -places⟩ := by simp [hplaces]
    refine ⟨0, hplain ▸ ?_⟩
    rw [hplaces, Int.neg_neg, Int.toNat_natCast]
    split
    · next hinside =>
      have hwhole : digits.take (digits.length - places) ≠ [] := by
        rw [ne_eq, List.take_eq_nil_iff, not_or]
        exact ⟨by omega, hne⟩
      have hfraction : digits.drop (digits.length - places) ≠ [] := by
        rw [ne_eq, List.drop_eq_nil_iff]
        omega
      have hnumeral :=
        IsNumeral.pointed hwhole hfraction (fun c hc => hdigits c (List.mem_of_mem_take hc))
          fun c hc => hdigits c (List.mem_of_mem_drop hc)
      have hlength : (digits.drop (digits.length - places)).length = places := by
        rw [List.length_drop]
        omega
      rwa [List.take_append_drop, hvalue, hlength] at hnumeral
    · next hbefore =>
      have hnumeral := @IsNumeral.pointed ['0']
        (List.replicate (places - digits.length) '0' ++ digits) (by simp) (by simp [hne])
        (List.forall_mem_singleton.mpr rfl) (List.forall_mem_append.mpr ⟨isDigit_zeros _, hdigits⟩)
      have hlength : (List.replicate (places - digits.length) '0' ++ digits).length = places := by
        rw [List.length_append, List.length_replicate]
        omega
      have hzeros : Nat.ofDigitChars 10
          (['0'] ++ (List.replicate (places - digits.length) '0' ++ digits)) 0 = d.digits := by
        rw [Nat.ofDigitChars_append, Nat.ofDigitChars_append, ofDigitChars_zeros]
        simpa [Nat.ofDigitChars] using hvalue
      rwa [hzeros, hlength] at hnumeral

end Abacus
