import Abacus.Canonical.Basic
import Abacus.Proofs.Canonical.Adjacent
import Abacus.Proofs.Text.Lowercase

/-! A run of minus signs between two operands. An odd one is read as a minus and two as a plus; a
longer even one leaves pluses in a row, and no text may hold these. -/

namespace Abacus

/-- The signs of sums and products. They take part in the collapsing of signs, and no other
character does. -/
def arithmeticSigns : List Char := ['+', '-', '*', '/']

section Lowering

variable {c d : Char}

theorem not_sign_of_lowercaseOf (hc : c ∉ arithmeticSigns) (hd : d ∈ lowercaseOf c) :
    d ∉ arithmeticSigns := by
  have hlarge (hn : 47 < d.toNat) : d ∉ arithmeticSigns := by
    intro hmem
    simp only [arithmeticSigns, List.mem_cons, List.not_mem_nil, or_false] at hmem
    rcases hmem with rfl | rfl | rfl | rfl <;> exact absurd hn (by decide)
  unfold lowercaseOf at hd
  split at hd
  · obtain rfl : d = c.toLower := by simpa using hd
    cases hupper : c.isUpper with
    | false => rwa [toLower_of_not_upper hupper]
    | true =>
      refine hlarge ?_
      rw [toNat_toLower, if_pos hupper]
      have hbounds := isUpper_iff.mp hupper
      omega
  split at hd
  · rcases List.mem_cons.mp hd with rfl | hd
    · decide
    · obtain rfl : d = '\u0307' := by simpa using hd
      decide
  split at hd
  · next r hr =>
    obtain rfl : d = Char.ofNat (c.toNat + r.2.2.2).toNat := by simpa using hd
    have hrange := List.find?_some hr
    have hmin := lowercaseRanges_large r (List.mem_of_find?_eq_some hr)
    simp only [lowercaseRange, Bool.and_eq_true, decide_eq_true_eq] at hrange
    by_cases hvalid : (c.toNat + r.2.2.2).toNat.isValidChar
    · refine hlarge ?_
      rw [Char.toNat_ofNat, if_pos hvalid]
      omega
    · rw [Char.ofNat, dif_neg hvalid]
      decide
  · obtain rfl : d = c := by simpa using hd
    exact hc

theorem lowercase_cons_of_not_sign (hc : c ∉ arithmeticSigns) (t : Text) :
    ∃ d rest, lowercase (c :: t) = d :: rest ∧ d ∉ arithmeticSigns := by
  unfold lowercase
  rw [lowercaseAfter]
  split
  · split
    · exact ⟨_, _, rfl, by decide⟩
    · exact ⟨_, _, rfl, by decide⟩
  · obtain ⟨d, rest, hd⟩ := List.exists_cons_of_ne_nil (lowercaseOf_ne_nil c)
    exact ⟨d, rest ++ lowercaseAfter [c] t, by rw [hd, List.cons_append],
      not_sign_of_lowercaseOf hc (by simp [hd])⟩

theorem lowercase_concat_of_not_sign (hc : c ∉ arithmeticSigns) (t : Text) :
    ∃ first d, lowercase (t ++ [c]) = first ++ [d] ∧ d ∉ arithmeticSigns := by
  suffices hall : ∀ before, ∃ first d, lowercaseAfter before (t ++ [c]) = first ++ [d] ∧
    d ∉ arithmeticSigns from hall []
  induction t with
  | nil =>
    intro before
    rw [List.nil_append, lowercaseAfter]
    split
    · split
      · exact ⟨[], _, rfl, by decide⟩
      · exact ⟨[], _, rfl, by decide⟩
    · obtain ⟨first, d, hd⟩ :=
        (List.eq_nil_or_concat' (lowercaseOf c)).resolve_left (lowercaseOf_ne_nil c)
      exact ⟨first, d, by rw [hd, lowercaseAfter, List.append_nil],
        not_sign_of_lowercaseOf hc (by simp [hd])⟩
  | cons b t ih =>
    intro before
    obtain ⟨first, d, ht, hd⟩ := ih (b :: before)
    rw [List.cons_append, lowercaseAfter, ht, ← List.append_assoc]
    exact ⟨_, d, rfl, hd⟩

end Lowering

section Collapsing

variable {c : Char} {t : Text}

theorem collapseOnce_split (hc : c ∉ arithmeticSigns) (left right : Text) :
    collapseOnce (left ++ c :: right) = collapseOnce left ++ c :: collapseOnce right := by
  simp only [arithmeticSigns, List.mem_cons, List.not_mem_nil, or_false, not_or] at hc
  obtain ⟨hplus, hminus, hstar, hslash⟩ := hc
  simp only [collapseOnce, replacePair_split hplus hminus, replacePair_split hminus hplus,
    replacePair_split hminus hminus, replacePair_split hstar hplus, replacePair_split hslash hplus]

theorem length_collapseOnce_le (t : Text) : (collapseOnce t).length ≤ t.length := by
  have hle (a b r : Char) (u : Text) : (replacePair a b [r] u).length ≤ u.length :=
    length_replacePair_le a b [r] (by simp) u
  exact (hle ..).trans <| (hle ..).trans <| (hle ..).trans <| (hle ..).trans (hle ..)

theorem collapseSigns_of_fixed (h : collapseOnce t = t) : collapseSigns t = t := by
  rw [collapseSigns, h, if_neg (Nat.lt_irrefl _)]

theorem collapseSigns_collapseOnce (t : Text) :
    collapseSigns (collapseOnce t) = collapseSigns t := by
  by_cases h : (collapseOnce t).length < t.length
  · rw [collapseSigns.eq_1 t, if_pos h]
  · rw [collapseOnce_eq_self_of_length (Nat.not_lt.mp h)]

theorem collapseSigns_split (hc : c ∉ arithmeticSigns) (left right : Text) :
    collapseSigns (left ++ c :: right) = collapseSigns left ++ c :: collapseSigns right := by
  induction hn : left.length + right.length using Nat.strongRecOn generalizing left right with
  | _ n ih =>
    have hsplit := collapseOnce_split hc left right
    have hlength := congrArg List.length hsplit
    simp only [List.length_append, List.length_cons] at hlength
    by_cases hshorter : (collapseOnce (left ++ c :: right)).length < (left ++ c :: right).length
    · simp only [List.length_append, List.length_cons] at hshorter
      rw [← collapseSigns_collapseOnce, hsplit, ih _ (by omega) _ _ rfl, collapseSigns_collapseOnce,
        collapseSigns_collapseOnce]
    · have hfixed := collapseOnce_eq_self_of_length (Nat.not_lt.mp hshorter)
      simp only [List.length_append, List.length_cons] at hshorter
      have hleft := length_collapseOnce_le left
      have hright := length_collapseOnce_le right
      rw [collapseSigns_of_fixed hfixed,
        collapseSigns_of_fixed (collapseOnce_eq_self_of_length (by omega)),
        collapseSigns_of_fixed (collapseOnce_eq_self_of_length (by omega))]

theorem replacePair_replicate {a b z : Char} {r : Text} (hz : ¬ (z = a ∧ z = b)) (n : Nat) :
    replacePair a b r (List.replicate n z) = List.replicate n z :=
  replacePair_of_not_hasPair (hasPair_eq_false_iff.mpr (List.isChain_replicate_of_rel n hz))

theorem replacePair_replicate_concat {a b z y : Char} {r : Text} (hz : z ≠ a) (n : Nat) :
    replacePair a b r (List.replicate n z ++ [y]) = List.replicate n z ++ [y] := by
  induction n with
  | zero => rfl
  | succ n ih => rw [List.replicate_succ, List.cons_append, replacePair_cons hz, ih]

theorem collapseSigns_pluses (n : Nat) :
    collapseSigns (List.replicate n '+') = List.replicate n '+' := by
  refine collapseSigns_of_fixed ?_
  rw [collapseOnce, replacePair_replicate (by decide), replacePair_replicate (by decide),
    replacePair_replicate (by decide), replacePair_replicate (by decide),
    replacePair_replicate (by decide)]

theorem replacePair_pluses_minus (n : Nat) :
    replacePair '+' '-' ['-'] (List.replicate (n + 1) '+' ++ ['-']) =
      List.replicate n '+' ++ ['-'] := by
  induction n with
  | zero => rfl
  | succ n ih =>
    rw [List.replicate_succ, List.replicate_succ, List.cons_append, List.cons_append,
      replacePair_cons_cons, if_neg (by decide), ← List.cons_append, ← List.replicate_succ, ih,
      List.replicate_succ, List.cons_append]

theorem collapseSigns_pluses_minus (n : Nat) :
    collapseSigns (List.replicate n '+' ++ ['-']) = ['-'] := by
  induction n with
  | zero => exact collapseSigns_of_fixed rfl
  | succ n ih =>
    rw [← collapseSigns_collapseOnce, collapseOnce, replacePair_pluses_minus,
      replacePair_replicate_concat (by decide), replacePair_replicate_concat (by decide),
      replacePair_replicate_concat (by decide), replacePair_replicate_concat (by decide), ih]

theorem replacePair_minuses (n : Nat) (t : Text) :
    replacePair '-' '-' ['+'] (List.replicate (2 * n) '-' ++ t) =
      List.replicate n '+' ++ replacePair '-' '-' ['+'] t := by
  induction n with
  | zero => rfl
  | succ n ih =>
    rw [Nat.mul_succ, List.replicate_succ, List.replicate_succ, List.cons_append, List.cons_append,
      replacePair_cons_cons, if_pos ⟨rfl, rfl⟩, ih, List.replicate_succ]
    rfl

theorem collapseSigns_minuses_even (n : Nat) :
    collapseSigns (List.replicate (2 * n) '-') = List.replicate n '+' := by
  have hminuses : replacePair '-' '-' ['+'] (List.replicate (2 * n) '-') =
      List.replicate n '+' := by
    simpa [replacePair] using replacePair_minuses n []
  rw [← collapseSigns_collapseOnce, collapseOnce, replacePair_replicate (by decide),
    replacePair_replicate (by decide), hminuses, replacePair_replicate (by decide),
    replacePair_replicate (by decide), collapseSigns_pluses]

theorem collapseSigns_minuses_odd (n : Nat) :
    collapseSigns (List.replicate (2 * n + 1) '-') = ['-'] := by
  have hminuses : replacePair '-' '-' ['+'] (List.replicate (2 * n + 1) '-') =
      List.replicate n '+' ++ ['-'] := by
    rw [List.replicate_succ', replacePair_minuses]
    rfl
  rw [← collapseSigns_collapseOnce, collapseOnce, replacePair_replicate (by decide),
    replacePair_replicate (by decide), hminuses, replacePair_replicate_concat (by decide),
    replacePair_replicate_concat (by decide), collapseSigns_pluses_minus]

end Collapsing

section Runs

variable {v : Vocabulary} {left right t u : Text} {a b : Char} {n : Nat}

theorem lowercase_run (ha : isBlank a = false ∧ a ∉ arithmeticSigns)
    (hb : isBlank b = false ∧ b ∉ arithmeticSigns) (left right : Text) :
    ∃ first c d last, c ∉ arithmeticSigns ∧ d ∉ arithmeticSigns ∧
      ∀ (s : Char) (n : Nat), s ∈ ['+', '-'] → 0 < n →
        lowercase (withoutBlanks (left ++ a :: (List.replicate n s ++ b :: right))) =
          first ++ c :: (List.replicate n s ++ d :: last) := by
  obtain ⟨first, c, hfirst, hc⟩ := lowercase_concat_of_not_sign ha.2 (withoutBlanks left)
  obtain ⟨d, last, hlast, hd⟩ := lowercase_cons_of_not_sign hb.2 (withoutBlanks right)
  refine ⟨first, c, d, last, hc, hd, fun s n hs hn => ?_⟩
  have hsign : isBlank s = false ∧ isCased s = false ∧ isCaseIgnorable s = false ∧
      lowercaseOf s = [s] := by
    simp only [List.mem_cons, List.not_mem_nil, or_false] at hs
    rcases hs with rfl | rfl <;> decide +kernel
  have hblanks : withoutBlanks (left ++ a :: (List.replicate n s ++ b :: right)) =
      (withoutBlanks left ++ [a]) ++ (List.replicate n s ++ b :: withoutBlanks right) := by
    simp [withoutBlanks, ha.1, hb.1, hsign.1]
  have hafter (m : Nat) : lowercase (List.replicate m s ++ b :: withoutBlanks right) =
      List.replicate m s ++ d :: last := by
    induction m with
    | zero => exact hlast
    | succ m ih =>
      have hsplit := lowercase_split hsign.2.1 hsign.2.2.1 hsign.2.2.2 []
        (List.replicate m s ++ b :: withoutBlanks right)
      rw [List.replicate_succ, List.cons_append, List.cons_append, ← ih]
      exact hsplit
  obtain ⟨m, rfl⟩ := Nat.exists_eq_add_of_lt hn
  rw [hblanks, Nat.zero_add, List.replicate_succ, List.cons_append,
    lowercase_split hsign.2.1 hsign.2.2.1 hsign.2.2.2, hfirst, hafter]
  simp

/-- Signs between two operands matter only by what they collapse to. -/
theorem settleSigns_run (hc : a ∉ arithmeticSigns) (hd : b ∉ arithmeticSigns)
    (hparens : parentheses t = parentheses u) (hcollapse : collapseSigns t = collapseSigns u)
    (left right : Text) :
    settleSigns (left ++ a :: (t ++ b :: right)) =
      settleSigns (left ++ a :: (u ++ b :: right)) := by
  have htrivial (w : Text) : checkNotTrivial (left ++ a :: (w ++ b :: right)) = .ok () := by
    cases left with
    | nil => cases w <;> rfl
    | cons x left => cases left <;> rfl
  have hbalance : checkBalance (left ++ a :: (t ++ b :: right)) =
      checkBalance (left ++ a :: (u ++ b :: right)) := by
    have hsame : parentheses (left ++ a :: (t ++ b :: right)) =
        parentheses (left ++ a :: (u ++ b :: right)) := by
      simp only [parentheses, List.filter_append, List.filter_cons] at hparens ⊢
      rw [hparens]
    rw [checkBalance, checkBalance, isBalanced, isBalanced, isBalancedFrom_congr hsame]
  have hends : checkEnds (left ++ a :: (t ++ b :: right)) =
      checkEnds (left ++ a :: (u ++ b :: right)) := by
    have hlast (w : Text) : (left ++ a :: (w ++ b :: right)).getLast? = (b :: right).getLast? := by
      rw [← List.cons_append, ← List.append_assoc,
        List.getLast?_append_of_ne_nil _ (List.cons_ne_nil b right)]
    have hhead (w : Text) : (left ++ a :: (w ++ b :: right)).head? = (left ++ [a]).head? := by
      cases left <;> rfl
    rw [checkEnds, checkEnds, hlast, hlast, hhead, hhead]
  have hsettled : completePoints (collapseSigns (left ++ a :: (t ++ b :: right))) =
      completePoints (collapseSigns (left ++ a :: (u ++ b :: right))) := by
    rw [collapseSigns_split hc, collapseSigns_split hd, hcollapse, collapseSigns_split hc,
      collapseSigns_split hd]
  simp only [settleSigns, htrivial, hbalance, hends, hsettled]

theorem pluses_of_completePoints (h : hasPair '+' '+' (completePoints t) = false) :
    hasPair '+' '+' t = false := by
  have hzero (x : Char) {w : Text} (hw : hasPair '+' '+' (replacePair x '.' [x, '0', '.'] w) =
      false) : hasPair '+' '+' w = false := by
    refine of_replacePair (P := fun w => hasPair '+' '+' w = false) (fun left right hchain => ?_) hw
    rw [hasPair_eq_false_iff] at hchain ⊢
    simp only [List.cons_append, List.nil_append, List.isChain_append_cons_cons,
      List.isChain_cons_cons] at hchain ⊢
    exact ⟨hchain.1, by simp, hchain.2.2.2⟩
  have hlast {w : Text} (hw : hasPair '+' '+' w = false) :
      hasPair '+' '+' (w ++ ['.']) = false := by
    rw [hasPair_eq_false_iff] at hw ⊢
    exact List.isChain_append.mpr ⟨hw, .singleton _, by simp⟩
  simp only [completePoints] at h
  refine hzero '*' (hzero '/' (hzero '+' (hzero '-' ?_)))
  split at h
  · next hpoint =>
    obtain ⟨w, hw⟩ := List.getLast?_eq_some_iff.mp hpoint
    rw [hw] at h ⊢
    rw [List.dropLast_concat] at h
    exact hlast h
  · exact h

/-- A text with pluses in a row is no formula. -/
theorem settleSigns_ne_ok_of_pluses (h : hasPair '+' '+' (collapseSigns t) = true) :
    settleSigns t ≠ .ok u := by
  intro hok
  have hchain := isChain_of_checkPairs (settleSigns_eq_ok hok).pairs
  have hpluses : hasPair '+' '+' (settled t) = false :=
    hasPair_eq_false_iff.mpr
      (hchain.imp fun x y hxy hplus => hxy (by rw [hplus.1, hplus.2]; decide))
  rw [pluses_of_completePoints hpluses] at h
  cases h

/-- Between two operands an odd run of minus signs is read as a minus, two of them as a plus, and a
longer even run is not read at all. -/
theorem canonical_minuses (v : Vocabulary) (ha : isBlank a = false ∧ a ∉ arithmeticSigns)
    (hb : isBlank b = false ∧ b ∉ arithmeticSigns) (left right : Text) :
    (Odd n → canonical v (left ++ a :: (List.replicate n '-' ++ b :: right)) =
      canonical v (left ++ a :: '-' :: b :: right)) ∧
    (n = 2 → canonical v (left ++ a :: (List.replicate n '-' ++ b :: right)) =
      canonical v (left ++ a :: '+' :: b :: right)) ∧
    (Even n → 4 ≤ n → ∃ err,
      canonical v (left ++ a :: (List.replicate n '-' ++ b :: right)) = .error err) := by
  obtain ⟨first, c, d, last, hc, hd, hlower⟩ := lowercase_run ha hb left right
  have hsame {s : Char} (hs : s ∈ ['+', '-']) (hn : 0 < n)
      (hcollapse : collapseSigns (List.replicate n '-') = collapseSigns [s]) :
      canonical v (left ++ a :: (List.replicate n '-' ++ b :: right)) =
        canonical v (left ++ a :: s :: b :: right) := by
    have hone : lowercase (withoutBlanks (left ++ a :: s :: b :: right)) =
        first ++ c :: ([s] ++ d :: last) :=
      hlower s 1 hs (by omega)
    have hparens : parentheses (List.replicate n '-') = parentheses [s] := by
      simp only [List.mem_cons, List.not_mem_nil, or_false] at hs
      rcases hs with rfl | rfl <;> simp [parentheses]
    have htidy : tidy v (left ++ a :: (List.replicate n '-' ++ b :: right)) =
        tidy v (left ++ a :: s :: b :: right) := by
      rw [tidy, tidy, hlower '-' n (by decide) hn, hone, tidyFrom_eq,
        settleSigns_run hc hd hparens hcollapse, ← tidyFrom_eq]
    rw [canonical, canonical, htidy]
  refine ⟨?_, ?_, ?_⟩
  · rintro ⟨m, rfl⟩
    exact hsame (by decide) (by omega)
      ((collapseSigns_minuses_odd m).trans (collapseSigns_of_fixed rfl).symm)
  · rintro rfl
    exact hsame (by decide) (by omega)
      ((collapseSigns_minuses_even 1).trans (collapseSigns_pluses 1).symm)
  · rintro ⟨m, rfl⟩ hm
    have hpluses : hasPair '+' '+'
        (collapseSigns (first ++ c :: (List.replicate (m + m) '-' ++ d :: last))) = true := by
      obtain ⟨k, rfl⟩ := Nat.exists_eq_add_of_le (show 2 ≤ m by omega)
      rw [collapseSigns_split hc, collapseSigns_split hd, ← Nat.two_mul, collapseSigns_minuses_even,
        Nat.add_comm, ← Bool.not_eq_false, hasPair_eq_false_iff]
      intro hchain
      have hrun := hchain.right_of_append.tail.left_of_append
      rw [List.replicate_succ, List.replicate_succ] at hrun
      exact hrun.rel ⟨rfl, rfl⟩
    cases hsettle : settleSigns (first ++ c :: (List.replicate (m + m) '-' ++ d :: last)) with
    | ok u => exact absurd hsettle (settleSigns_ne_ok_of_pluses hpluses)
    | error err =>
      refine ⟨err, ?_⟩
      rw [canonical, tidy, hlower '-' (m + m) (by decide) (by omega), tidyFrom_eq, hsettle,
        error_bind, error_bind]

theorem canonical_minuses_factorial :
    canonical .standard "x!---(y)".toList = canonical .standard "x!-(y)".toList ∧
      canonical .standard "x!--(y)".toList = canonical .standard "x!+(y)".toList ∧
        ∃ err, canonical .standard "x!----(y)".toList = .error err := by
  have hall (n : Nat) := canonical_minuses (a := '!') (b := '(') (n := n) .standard (by decide)
    (by decide) "x".toList "y)".toList
  exact ⟨(hall 3).1 (by decide), (hall 2).2.1 rfl, (hall 4).2.2 (by decide) (by decide)⟩

/-- Four minus signs are not read as the plus that they would be in a sum. -/
theorem canonical_four_minuses : canonical .standard "2----3".toList = .error (.pair '+' '+') ∧
    canonical .standard "2+3".toList = .ok "2+3".toList :=
  ⟨by with_unfolding_all rfl, by with_unfolding_all rfl⟩

end Runs

end Abacus
