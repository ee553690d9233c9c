import Abacus.Canonical.Basic
import Abacus.Proofs.Canonical.Words
import Abacus.Proofs.Text.Lowercase

/-! The text between the two times that it is tidied: its groups are written, and it is in order but
for empty groups, points at the ends of numbers and plus signs without effect. -/

namespace Abacus

section Characters

variable {c : Char}

theorem alphanum_bounds (h : c.isAlphanum = true) :
    48 ≤ c.toNat ∧ c.toNat ≤ 57 ∨ 65 ≤ c.toNat ∧ c.toNat ≤ 90 ∨ 97 ≤ c.toNat ∧ c.toNat ≤ 122 := by
  simp [Char.isAlphanum, Char.isAlpha, Char.isUpper, Char.isLower, Char.isDigit,
    UInt32.le_iff_toNat_le] at h
  omega

theorem IsAllowed.small (h : IsAllowed c) : c.toNat < 128 := by
  rcases h with h | h
  · have hbounds := alphanum_bounds h
    omega
  · simp only [isSpecial, specialCharacters, List.contains_iff_mem, List.mem_cons, List.not_mem_nil,
      or_false] at h
    rcases h with rfl | rfl | rfl | rfl | rfl | rfl | rfl | rfl | rfl | rfl | rfl <;> decide

theorem IsAllowed.not_blank (h : IsAllowed c) : isBlank c = false := by
  rcases h with h | h
  · have hbounds := alphanum_bounds h
    rw [← Bool.not_eq_true]
    simp only [isBlank, blankRanges, List.any_cons, List.any_nil, Bool.or_eq_true, Bool.and_eq_true,
      decide_eq_true_eq, Bool.or_false]
    omega
  · simp only [isSpecial, specialCharacters, List.contains_iff_mem, List.mem_cons, List.not_mem_nil,
      or_false] at h
    rcases h with rfl | rfl | rfl | rfl | rfl | rfl | rfl | rfl | rfl | rfl | rfl <;> decide

end Characters

/-- A letter, digit or sign that may stand in a canonical text. -/
def IsCanonical (c : Char) : Prop := IsAllowed c ∧ c.isUpper = false

theorem lowercase_withoutBlanks_eq_self {t : Text} (ht : ∀ c ∈ t, IsCanonical c) :
    lowercase (withoutBlanks t) = t := by
  rw [withoutBlanks_eq_self fun c hc => (ht c hc).1.not_blank,
    lowercase_eq_self fun c hc => ⟨(ht c hc).1.small, (ht c hc).2⟩]

section Settling

variable {pairs : List (Char × Char × Text)} {t u : Text}

theorem settling_cases {e : Char × Char × Text} (he : e ∈ settlingPairs ∨ e ∈ leadingPairs) :
    isOperandCharacter e.1 = false ∧
    ((isOperandCharacter e.2.1 = false ∧ ∃ c, e.2.2 = [c] ∧ isOperandCharacter c = false) ∨
      e.2.1 = '.' ∧ e.2.2 = [e.1, '0', '.']) := by
  simp only [settlingPairs, leadingPairs, List.mem_cons, List.not_mem_nil, or_false] at he
  rcases he with (rfl | rfl | rfl | rfl | rfl | rfl | rfl | rfl | rfl) | rfl | rfl | rfl
  all_goals first
    | exact ⟨by decide, .inl ⟨by decide, _, rfl, by decide⟩⟩
    | exact ⟨by decide, .inr ⟨rfl, rfl⟩⟩

theorem keptBy_parentheses (h : ∀ e ∈ pairs, parentheses [e.1, e.2.1] = parentheses e.2.2)
    (w : Text) : KeptBy pairs fun t => parentheses t = w := fun e he left right hw => by
  have hpair := h e he
  rw [← hw]
  simp only [parentheses, List.filter_append] at hpair ⊢
  rw [← hpair, ← List.filter_append]
  rfl

theorem keptBy_balanced (h : ∀ e ∈ pairs, parentheses [e.1, e.2.1] = parentheses e.2.2) :
    KeptBy pairs fun t => isBalanced t = true := fun e he left right hb => by
  have hparts := keptBy_parentheses h _ e he left right rfl
  exact (isBalancedFrom_congr hparts 0).trans hb

theorem keptBy_forall {Q : Char → Prop} (h : ∀ e ∈ pairs, ∀ c ∈ e.2.2, c = e.1 ∨ c = e.2.1 ∨ Q c) :
    KeptBy pairs fun t => ∀ c ∈ t, Q c := fun e he left right hall c hc => by
  simp only [List.mem_append, List.mem_cons] at hc hall
  rcases hc with hc | hc | hc
  · exact hall c (.inl hc)
  · rcases h e he c hc with rfl | rfl | hq
    · exact hall _ (.inr (.inl rfl))
    · exact hall _ (.inr (.inr (.inl rfl)))
    · exact hq
  · exact hall c (.inr (.inr (.inr hc)))

/-- Where no character is lost but those of the pairs that may be, every character is still
there. -/
theorem keptBy_contains {Q : Char → Prop}
    (h : ∀ e ∈ pairs, ∀ c, c = e.1 ∨ c = e.2.1 → c ∈ e.2.2 ∨ Q c) (w : Text) :
    KeptBy pairs fun t => ∀ c ∈ w, c ∈ t ∨ Q c := fun e he left right hall c hc => by
  rcases hall c hc with hmem | hq
  · simp only [List.mem_append, List.mem_cons] at hmem ⊢
    rcases hmem with hmem | hmem | hmem | hmem
    · exact .inl (.inl hmem)
    · exact (h e he c (.inl hmem)).imp_left fun hr => .inr (.inl hr)
    · exact (h e he c (.inr hmem)).imp_left fun hr => .inr (.inl hr)
    · exact .inl (.inr (.inr hmem))
  · exact .inr hq

theorem settled_balanced (hb : isBalanced t = true) : isBalanced (settled t) = true := by
  have hkept : KeptBy settlingPairs fun t => isBalanced t = true := keptBy_balanced (by decide)
  refine completePoints_induction hkept (fun t ht => ?_) (collapseSigns_induction hkept hb)
  rwa [isBalanced, isBalancedFrom_congr (u := t) (by simp [parentheses])] at ht

theorem Settles.balanced (h : Settles t u) : isBalanced u = true := by
  rw [h.result]
  refine dropPlus_induction (keptBy_balanced (by decide)) (fun t ht => ?_)
    (settled_balanced h.balance)
  rwa [isBalanced, isBalancedFrom_congr (u := t) (by simp [parentheses])] at ht

theorem Settles.settled_allowed (h : Settles t u) : ∀ c ∈ settled t, IsAllowed c := by
  intro c hc
  have hnone : (settled t).find? (fun c => !(c.isAlphanum || isSpecial c)) = none := by
    have := h.characters
    simp only [checkCharacters] at this
    split at this
    · cases this
    · assumption
  have hnot := List.find?_eq_none.mp hnone c hc
  rwa [Bool.not_eq_true, Bool.not_eq_false', Bool.or_eq_true] at hnot

theorem dropPlus_forall {Q : Char → Prop} (h : ∀ c ∈ t, Q c) : ∀ c ∈ dropPlus t, Q c :=
  dropPlus_induction (P := fun t => ∀ c ∈ t, Q c) (keptBy_forall (by simp [leadingPairs]))
    (fun _ ht c hc => ht c (List.mem_cons_of_mem _ hc)) h

theorem Settles.allowed (h : Settles t u) : ∀ c ∈ u, IsAllowed c := by
  rw [h.result]
  exact dropPlus_forall h.settled_allowed

theorem settled_forall {Q : Char → Prop} (hQ : Q '+' ∧ Q '-' ∧ Q '0') (h : ∀ c ∈ t, Q c) :
    ∀ c ∈ settled t, Q c := by
  have hkept : KeptBy settlingPairs fun t => ∀ c ∈ t, Q c :=
    keptBy_forall (by simp [settlingPairs, hQ])
  exact completePoints_induction hkept (fun t ht c hc => ht c (List.mem_append_left _ hc))
    (collapseSigns_induction hkept h)

theorem mem_of_dropEmptyGroup? {v : Vocabulary} {before w : Text}
    (h : dropEmptyGroup? v before t = some w) : ∀ c ∈ w, c ∈ t := by
  fun_induction dropEmptyGroup? v before t generalizing w with
  | case1 before rest hc ih =>
    obtain ⟨x, hx, rfl⟩ := Option.map_eq_some_iff.mp h
    simpa using fun c hc => .inr (.inr (ih hx c hc))
  | case2 before rest hc =>
    obtain rfl : rest = w := by simpa using h
    exact fun c hc => by simp [hc]
  | case3 before c rest hc ih =>
    obtain ⟨x, hx, rfl⟩ := Option.map_eq_some_iff.mp h
    simpa using fun c hc => .inr (ih hx c hc)
  | case4 => simp at h

/-- Tidying leads to a text of numbers, words and calls. -/
theorem exists_layout_of_tidyFrom {v : Vocabulary} {n : Text} (h : tidyFrom v t = .ok n) :
    ∃ items q, textOf items = n ∧
      Laid (.leveled IsAtom (IsCalled v) fun _ => True) '(' items q := by
  obtain ⟨t', u, -, hsettles, -, hwrite⟩ :=
    tidyFrom_cases (P := fun _ => True) (fun _ _ _ _ _ _ => trivial) trivial h
  exact (writeProducts_eq_ok hwrite).exists_layout hsettles.balanced hsettles.allowed

theorem canonical_of_tidyFrom {v : Vocabulary} {n : Text} (ht : ∀ c ∈ t, c.isUpper = false)
    (h : tidyFrom v t = .ok n) : ∀ c ∈ n, IsCanonical c := by
  have hsettle {t u : Text} (ht : ∀ c ∈ t, c.isUpper = false) (hs : Settles t u) :
      ∀ c ∈ u, c.isUpper = false := by
    rw [hs.result]
    exact dropPlus_forall (settled_forall (by decide) ht)
  obtain ⟨t', u, ht', hs, -, hwrite⟩ := tidyFrom_cases (P := fun t => ∀ c ∈ t, c.isUpper = false)
    (fun t u w ht hs hw c hc => hsettle ht hs c (mem_of_dropEmptyGroup? hw c hc)) ht h
  intro c hc
  rcases (writeProducts_eq_ok hwrite).mem hc with rfl | rfl | hc
  · exact ⟨.inr (by decide), by decide⟩
  · exact ⟨.inl (by decide), by decide⟩
  · exact ⟨hs.allowed c hc, hsettle ht' hs c hc⟩

end Settling

end Abacus
