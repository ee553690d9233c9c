import Mathlib
import Abacus.Text.Basic
import Abacus.Text.Lowercase

/-! Small letters: no capital of the Latin alphabet is left, and a text without other letters stays
as it is. -/

namespace Abacus

theorem isUpper_iff {c : Char} : c.isUpper = true ↔ 65 ≤ c.toNat ∧ c.toNat ≤ 90 := by
  simp [Char.isUpper, UInt32.le_iff_toNat_le]

theorem toNat_toLower (c : Char) :
    c.toLower.toNat = if c.isUpper then c.toNat + 32 else c.toNat := by
  have hcond : (c.val ≥ 'A'.val ∧ c.val ≤ 'Z'.val) ↔ c.isUpper = true := by simp [Char.isUpper]
  unfold Char.toLower
  split
  · next h =>
    have hupper := hcond.mp h
    have hbounds := isUpper_iff.mp hupper
    rw [if_pos hupper]
    have hval : (c.val + 32).toNat = c.val.toNat + 32 := by
      rw [UInt32.toNat_add]
      simp only [UInt32.reduceToNat, Char.toNat_val]
      omega
    exact hval
  · next h => rw [if_neg fun hc => h (hcond.mpr hc)]

theorem toLower_not_upper (c : Char) : c.toLower.isUpper = false := by
  rw [← Bool.not_eq_true, isUpper_iff, toNat_toLower]
  split
  · next h =>
    have hbounds := isUpper_iff.mp h
    omega
  · next h => rwa [← isUpper_iff]

theorem lowercaseRanges_large : ∀ r ∈ lowercaseRanges, 90 < (r.1 : Int) + r.2.2.2 := by
  decide +kernel

theorem toNat_ofNat_large {n : Nat} (h : 90 < n) :
    (Char.ofNat n).toNat = 0 ∨ 90 < (Char.ofNat n).toNat := by
  unfold Char.ofNat
  split
  · next hv => exact .inr h
  · exact .inl rfl

theorem lowercaseOf_large {c : Char} (h : 128 ≤ c.toNat) :
    ∀ d ∈ lowercaseOf c, d.toNat = 0 ∨ 90 < d.toNat := by
  intro d hd
  unfold lowercaseOf at hd
  rw [if_neg (by omega)] at hd
  split at hd
  · rcases List.mem_cons.mp hd with rfl | hd
    · decide
    · obtain rfl : d = '\u0307' := by simpa using hd
      decide
  split at hd
  · next r hr =>
    obtain rfl : d = Char.ofNat (c.toNat + r.2.2.2).toNat := by simpa using hd
    have hrange := List.find?_some hr
    have hmin := lowercaseRanges_large r (List.mem_of_find?_eq_some hr)
    simp only [lowercaseRange, Bool.and_eq_true, decide_eq_true_eq] at hrange
    exact toNat_ofNat_large (by omega)
  · obtain rfl : d = c := by simpa using hd
    omega

theorem lowercaseOf_not_upper (c : Char) : ∀ d ∈ lowercaseOf c, d.isUpper = false := by
  intro d hd
  by_cases hsmall : c.toNat < 128
  · rw [lowercaseOf, if_pos hsmall] at hd
    obtain rfl : d = c.toLower := by simpa using hd
    exact toLower_not_upper c
  · have hlarge := lowercaseOf_large (by omega) d hd
    rw [← Bool.not_eq_true, isUpper_iff]
    omega

theorem lowercase_not_upper (t : Text) : ∀ c ∈ lowercase t, c.isUpper = false := by
  suffices hall : ∀ before, ∀ c ∈ lowercaseAfter before t, c.isUpper = false from hall []
  induction t with
  | nil => simp [lowercaseAfter]
  | cons d rest ih =>
    intro before c hc
    rw [lowercaseAfter, List.mem_append] at hc
    rcases hc with hc | hc
    · split at hc
      · split at hc
        · obtain rfl : c = 'ς' := by simpa using hc
          decide
        · obtain rfl : c = 'σ' := by simpa using hc
          decide
      · exact lowercaseOf_not_upper d c hc
    · exact ih _ c hc

theorem toLower_of_not_upper {c : Char} (h : c.isUpper = false) : c.toLower = c := by
  refine Char.toNat_inj.mp ?_
  rw [toNat_toLower, if_neg (by simp [h])]

theorem lowercase_eq_self {t : Text} (ht : ∀ c ∈ t, c.toNat < 128 ∧ c.isUpper = false) :
    lowercase t = t := by
  suffices hall : ∀ before, lowercaseAfter before t = t from hall []
  induction t with
  | nil => simp [lowercaseAfter]
  | cons c rest ih =>
    intro before
    obtain ⟨hsmall, hupper⟩ := ht c List.mem_cons_self
    have hsigma : c ≠ 'Σ' := by
      rintro rfl
      exact absurd hsmall (by decide)
    rw [lowercaseAfter, if_neg hsigma, lowercaseOf, if_pos hsmall, toLower_of_not_upper hupper,
      ih fun d hd => ht d (List.mem_cons_of_mem _ hd)]
    rfl

theorem meetsCased_split {s : Char} (hs : isCased s = false) (hpass : isCaseIgnorable s = false)
    (left right : Text) : meetsCased (left ++ s :: right) = meetsCased left := by
  induction left with
  | nil => simp [meetsCased, hs, hpass]
  | cons c left ih =>
    simp only [meetsCased, List.cons_append, List.dropWhile_cons] at ih ⊢
    cases isCaseIgnorable c with
    | true => simpa using ih
    | false => rfl

/-- Letters on the other side of a character that has no case and is not passed over do not
matter. -/
theorem lowercase_split {s : Char} (hs : isCased s = false) (hpass : isCaseIgnorable s = false)
    (hself : lowercaseOf s = [s]) (left right : Text) :
    lowercase (left ++ s :: right) = lowercase left ++ s :: lowercase right := by
  have hbefore (before near t : Text) : lowercaseAfter (near ++ s :: before) t =
      lowercaseAfter near t := by
    induction t generalizing near with
    | nil => rfl
    | cons c t ih =>
      rw [lowercaseAfter, lowercaseAfter, meetsCased_split hs hpass, ← List.cons_append, ih]
  have hsigma : s ≠ 'Σ' := by
    rintro rfl
    exact absurd hs (by decide +kernel)
  suffices hall : ∀ before, lowercaseAfter before (left ++ s :: right) =
    lowercaseAfter before left ++ s :: lowercase right from hall []
  induction left with
  | nil =>
    intro before
    rw [List.nil_append, lowercaseAfter.eq_2, if_neg hsigma, hself]
    exact congrArg (s :: ·) (hbefore before [] right)
  | cons c left ih =>
    intro before
    rw [List.cons_append, lowercaseAfter, meetsCased_split hs hpass, ih, lowercaseAfter,
      List.append_assoc]

theorem lowercaseOf_ne_nil (c : Char) : lowercaseOf c ≠ [] := by
  unfold lowercaseOf
  split
  · simp
  split
  · simp
  split <;> simp

theorem length_le_lowercaseAfter (before t : Text) :
    t.length ≤ (lowercaseAfter before t).length := by
  induction t generalizing before with
  | nil => exact Nat.zero_le _
  | cons c t ih =>
    have hpiece : 1 ≤ (if c = 'Σ' then (if meetsCased before && !meetsCased t then ['ς'] else ['σ'])
        else lowercaseOf c).length := by
      split
      · split <;> simp
      · exact List.length_pos_iff.mpr (lowercaseOf_ne_nil c)
    rw [lowercaseAfter, List.length_append, List.length_cons]
    have hrest := ih (c :: before)
    omega

theorem lowercase_eq_self_iff {t : Text} :
    lowercase t = t ↔ ∀ c ∈ t, c ≠ 'Σ' ∧ lowercaseOf c = [c] := by
  suffices hall : ∀ before, lowercaseAfter before t = t ↔
    ∀ c ∈ t, c ≠ 'Σ' ∧ lowercaseOf c = [c] from hall []
  induction t with
  | nil => simp [lowercaseAfter]
  | cons c t ih =>
    intro before
    rw [lowercaseAfter, List.forall_mem_cons, ← ih (c :: before)]
    constructor
    · intro h
      have hlength := length_le_lowercaseAfter (c :: before) t
      have hsum := congrArg List.length h
      rw [List.length_append, List.length_cons] at hsum
      by_cases hsigma : c = 'Σ'
      · rw [if_pos hsigma] at h
        split at h
        · exact absurd ((List.cons.inj h).1.trans hsigma) (by decide)
        · exact absurd ((List.cons.inj h).1.trans hsigma) (by decide)
      · rw [if_neg hsigma] at h hsum
        obtain ⟨d, rest, hd⟩ := List.exists_cons_of_ne_nil (lowercaseOf_ne_nil c)
        rw [hd] at h hsum
        obtain rfl : rest = [] :=
          List.length_eq_zero_iff.mp (by simp only [List.length_cons] at hsum; omega)
        obtain ⟨rfl, hrest⟩ := List.cons.inj h
        exact ⟨⟨hsigma, hd⟩, hrest⟩
    · rintro ⟨⟨hsigma, hself⟩, hrest⟩
      rw [if_neg hsigma, hself, hrest]
      rfl

theorem count_lowercaseOf {s : Char} (hs : 0 < s.toNat ∧ s.toNat ≤ 64) (c : Char) :
    (lowercaseOf c).count s = [c].count s := by
  have hnone {t : Text} (h : ∀ d ∈ t, d.toNat = 0 ∨ 64 < d.toNat) : t.count s = 0 :=
    List.count_eq_zero.mpr fun hmem => by have := h s hmem; omega
  by_cases hsmall : c.toNat < 128
  · rw [lowercaseOf, if_pos hsmall]
    cases hupper : c.isUpper with
    | false => rw [toLower_of_not_upper hupper]
    | true =>
      have hbounds := isUpper_iff.mp hupper
      have hlower := toNat_toLower c
      rw [if_pos hupper] at hlower
      rw [hnone (List.forall_mem_singleton.mpr (by omega)),
        hnone (List.forall_mem_singleton.mpr (by omega))]
  · have hlarge := lowercaseOf_large (c := c) (by omega)
    rw [hnone fun d hd => (hlarge d hd).imp_right (by omega),
      hnone (List.forall_mem_singleton.mpr (by omega))]

theorem count_lowercase {s : Char} (hs : 0 < s.toNat ∧ s.toNat ≤ 64) (t : Text) :
    (lowercase t).count s = t.count s := by
  have hsigma {c : Char} (hc : c ∈ ['Σ', 'ς', 'σ']) : [c].count s = 0 := by
    refine List.count_eq_zero.mpr fun hmem => ?_
    obtain rfl := List.mem_singleton.mp hmem
    revert hs
    simp only [List.mem_cons, List.not_mem_nil, or_false] at hc
    rcases hc with rfl | rfl | rfl <;> decide
  suffices hall : ∀ before, (lowercaseAfter before t).count s = t.count s from hall []
  induction t with
  | nil => simp [lowercaseAfter]
  | cons c t ih =>
    intro before
    rw [lowercaseAfter, List.count_append, ih, ← List.singleton_append (x := c), List.count_append]
    congr 1
    split
    · next hc =>
      subst hc
      split <;> rw [hsigma (by decide), hsigma (by decide)]
    · exact count_lowercaseOf hs c

theorem withoutBlanks_eq_self {t : Text} (ht : ∀ c ∈ t, isBlank c = false) :
    withoutBlanks t = t := by
  rw [withoutBlanks, List.filter_eq_self]
  intro c hc
  simp [ht c hc]

end Abacus
