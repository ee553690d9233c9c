import Abacus.Proofs.Reading.Collapsing
import Abacus.Proofs.Reading.Kept

/-! Tidying merges the signs of a text of the grammar and changes nothing else: the tidy text is
that of a layout with the same meaning. -/

namespace Abacus

section Collapsing

variable {t : Text}

theorem mergeSigns_eq_self_of_length (h : t.length ≤ (mergeSigns t).length) : mergeSigns t = t := by
  have hle (a b r : Char) (u : Text) : (replacePair a b [r] u).length ≤ u.length :=
    length_replacePair_le a b [r] (by simp) u
  have hkept {a b r : Char} {u : Text} (hu : u.length ≤ (replacePair a b [r] u).length) :
      replacePair a b [r] u = u :=
    replacePair_eq_self (by simp) hu
  have hplusMinus := hle '+' '-' '-' t
  have hminusPlus := hle '-' '+' '-' (replacePair '+' '-' ['-'] t)
  have hminuses := hle '-' '-' '+' (replacePair '-' '+' ['-'] (replacePair '+' '-' ['-'] t))
  rw [mergeSigns] at h ⊢
  rw [hkept (by omega), hkept (by omega), hkept (by omega)]

theorem collapseSigns_eq_mergeSigns (h : List.IsChain Tidied (mergeSigns t)) :
    collapseSigns t = mergeSigns t := by
  have honce : collapseOnce t = mergeSigns t := by
    have hall :
        collapseOnce t = replacePair '/' '+' ['/'] (replacePair '*' '+' ['*'] (mergeSigns t)) := rfl
    rw [hall, replacePair_of_tidied h (show ¬ Tidied '*' '+' by decide),
      replacePair_of_tidied h (show ¬ Tidied '/' '+' by decide)]
  rw [collapseSigns, honce]
  split
  · exact collapseSigns_eq_self h
  · exact (mergeSigns_eq_self_of_length (by omega)).symm

theorem isBalanced_of_collapsed (h : isBalanced (collapseSigns t) = true) :
    isBalanced t = true := by
  have hkept := collapseSigns_induction (keptBy_parentheses (by decide) (parentheses t)) rfl
  exact (isBalancedFrom_congr hkept 0).symm.trans h

theorem canonical_of_collapsed (h : ∀ c ∈ collapseSigns t, IsCanonical c) :
    ∀ c ∈ t, IsCanonical c := by
  have hkept : KeptBy settlingPairs fun u => ∀ c ∈ t, c ∈ u ∨ c = '+' ∨ c = '-' :=
    keptBy_contains (by simp [settlingPairs]) t
  intro c hc
  rcases collapseSigns_induction hkept (fun c hc => .inl hc) c hc with hmem | rfl | rfl
  · exact h c hmem
  · exact ⟨.inr rfl, rfl⟩
  · exact ⟨.inr rfl, rfl⟩

theorem checkNotTrivial_of_merged (h : checkNotTrivial (mergeSigns t) = .ok ()) :
    checkNotTrivial t = .ok () := by
  cases t with
  | nil => exact h
  | cons c t =>
    cases t with
    | nil => simpa [mergeSigns, replacePair] using h
    | cons d t => rfl

end Collapsing

section

variable {v : Vocabulary} {k : Strength} {t : Text} {e : Expr}

theorem BeginsOperand.head (h : BeginsOperand t) :
    ∀ c ∈ t.head?, c ∉ ['*', '/', '^', '!', ','] := by
  obtain ⟨c, rest, rfl, hc⟩ := h
  intro d hd hmem
  obtain rfl : c = d := by simpa using hd
  simp only [List.mem_cons, List.not_mem_nil, or_false] at hmem
  rcases hmem with rfl | rfl | rfl | rfl | rfl <;> simp [isOperandCharacter] at hc

theorem EndsOperand.last (h : EndsOperand t) :
    ∀ c ∈ t.getLast?, c ∉ ['+', '-', '*', '/', ',', '^'] := by
  obtain ⟨first, c, rfl, hc⟩ := h
  intro d hd hmem
  obtain rfl : c = d := by simpa using hd
  simp only [List.mem_cons, List.not_mem_nil, or_false] at hmem
  rcases hmem with rfl | rfl | rfl | rfl | rfl | rfl <;> simp [isOperandCharacter] at hc

theorem Spells.checkEnds (h : Spells v k t e) : Abacus.checkEnds t = .ok () := by
  refine checkEnds_eq_ok h.ends.last ?_
  rcases h.begins with hbegins | ⟨-, rest, rfl, -⟩
  · exact hbegins.head
  · simp

theorem Spells.tidy (hv : v.Identified) (h : Spells v .sum t e) (hne : e ≠ .identifier ['_']) :
    ∃ items e', Abacus.tidy v t = .ok (textOf items) ∧ Denotes v (fun _ => True) .sum items e' ∧
      Expr.Respelled e e' := by
  obtain ⟨items, e', htext, hd, halike⟩ := h.laysOut
  have hphrase := hd.isPhrase hv ((not_congr (halike.identifier _)).mp hne)
  have hchain := hphrase.tidied hv
  have hcollapse : collapseSigns t = textOf items := by
    rw [htext, collapseSigns_eq_mergeSigns]
    rw [← htext]
    exact hchain.tail.left_of_append
  have hbalance : checkBalance t = .ok () := by
    have hbalanced := (hphrase.loose hv).nested.isBalanced
    rw [← hcollapse] at hbalanced
    rw [checkBalance, if_pos (isBalanced_of_collapsed hbalanced)]
  have htrivial := hphrase.checkNotTrivial hv
  have hsettled := settleSigns_eq_ok_of_collapsed (checkNotTrivial_of_merged (htext ▸ htrivial))
    hbalance h.checkEnds hcollapse hchain htrivial fun c hc => (hphrase.canonical hv c hc).1
  have hcanonical := canonical_of_collapsed (hcollapse ▸ hphrase.canonical hv)
  refine ⟨items, e', ?_, hd, halike⟩
  rw [Abacus.tidy, lowercase_withoutBlanks_eq_self hcanonical,
    tidyFrom_eq_writeProducts hsettled (hphrase.dropEmptyGroup? hv), hphrase.writeProducts hv]

end

end Abacus
