import Mathlib
import Abacus.Canonical.Tidy
import Abacus.Proofs.Outcome
import Abacus.Proofs.Text.Pair

/-! What tidying does to a text, as the single replacements that it is made of: what all of these
keep, tidying keeps. -/

namespace Abacus

/-- The replacements by which rows of signs collapse and points get their zeros. -/
def settlingPairs : List (Char × Char × Text) :=
  [('+', '-', ['-']), ('-', '+', ['-']), ('-', '-', ['+']), ('*', '+', ['*']), ('/', '+', ['/']),
   ('*', '.', ['*', '0', '.']), ('/', '.', ['/', '0', '.']), ('+', '.', ['+', '0', '.']),
   ('-', '.', ['-', '0', '.'])]

/-- The replacements by which a plus at the start of a group, an argument or an exponent goes. -/
def leadingPairs : List (Char × Char × Text) :=
  [('(', '+', ['(']), (',', '+', [',']), ('^', '+', ['^'])]

/-- A condition on texts that these replacements keep. -/
def KeptBy (pairs : List (Char × Char × Text)) (P : Text → Prop) : Prop :=
  ∀ e ∈ pairs, ∀ left right, P (left ++ e.1 :: e.2.1 :: right) → P (left ++ (e.2.2 ++ right))

section

variable {P : Text → Prop}

theorem KeptBy.replacePair {pairs : List (Char × Char × Text)} (h : KeptBy pairs P) {a b : Char}
    {r : Text} (he : (a, b, r) ∈ pairs) {t : Text} (ht : P t) : P (replacePair a b r t) :=
  replacePair_induction (h _ he) ht

theorem keptBy_isChain {pairs : List (Char × Char × Text)} {R : Char → Char → Prop}
    (h : ∀ e ∈ pairs, e.2.2 = [e.1] ∧ ∀ b, R e.1 b) : KeptBy pairs (List.IsChain R) := by
  intro e he left right hchain
  obtain ⟨hr, hfirst⟩ := h e he
  rw [List.isChain_append_cons_cons] at hchain
  obtain ⟨hleft, -, hright⟩ := hchain
  rw [hr, List.singleton_append, List.isChain_split]
  refine ⟨hleft, ?_⟩
  cases right with
  | nil => exact .singleton _
  | cons b right => exact .cons_cons (hfirst b) hright.tail

theorem collapseSigns_induction (h : KeptBy settlingPairs P) {t : Text} (ht : P t) :
    P (collapseSigns t) := by
  have once {t : Text} (ht : P t) : P (collapseOnce t) :=
    h.replacePair (by decide)
      (h.replacePair (by decide)
        (h.replacePair (by decide) (h.replacePair (by decide) (h.replacePair (by decide) ht))))
  fun_induction collapseSigns t with
  | case1 t _ ih => exact ih (once ht)
  | case2 t _ => exact ht

theorem completePoints_cases {Q : Text → Prop} (h : KeptBy settlingPairs P)
    (hpoint : ∀ t, P (t ++ ['.']) → Q t) (hsame : ∀ t, t.getLast? ≠ some '.' → P t → Q t) {t : Text}
    (ht : P t) : Q (completePoints t) := by
  have hzeros := h.replacePair (a := '-') (b := '.') (r := ['-', '0', '.']) (by decide)
    (h.replacePair (a := '+') (b := '.') (r := ['+', '0', '.']) (by decide)
      (h.replacePair (a := '/') (b := '.') (r := ['/', '0', '.']) (by decide)
        (h.replacePair (a := '*') (b := '.') (r := ['*', '0', '.']) (by decide) ht)))
  simp only [completePoints]
  split
  · next hlast =>
    obtain ⟨u, hu⟩ := List.getLast?_eq_some_iff.mp hlast
    rw [hu] at hzeros ⊢
    rw [List.dropLast_concat]
    exact hpoint u hzeros
  · next hlast => exact hsame _ hlast hzeros

theorem completePoints_induction (h : KeptBy settlingPairs P) (hpoint : ∀ t, P (t ++ ['.']) → P t)
    {t : Text} (ht : P t) : P (completePoints t) :=
  completePoints_cases h hpoint (fun _ _ hu => hu) ht

theorem dropPlus_induction (h : KeptBy leadingPairs P) (hplus : ∀ t, P ('+' :: t) → P t) {t : Text}
    (ht : P t) : P (dropPlus t) := by
  have hleading := h.replacePair (a := '^') (b := '+') (r := ['^']) (by decide)
    (h.replacePair (a := ',') (b := '+') (r := [',']) (by decide)
      (h.replacePair (a := '(') (b := '+') (r := ['(']) (by decide) ht))
  simp only [dropPlus]
  split
  · next rest he =>
    rw [he] at hleading
    exact hplus rest hleading
  · exact hleading

theorem dropPoints_induction
    (h : ∀ left b right, isSpecial b = true →
      P (left ++ '.' :: b :: right) → P (left ++ b :: right))
    {t : Text} (ht : P t) : P (dropPoints t) := by
  suffices hall : ∀ left, P (left ++ t) → P (left ++ dropPoints t) from hall [] ht
  clear ht
  induction t with
  | nil => exact fun _ hleft => hleft
  | cons a t ih =>
    intro left hleft
    cases t with
    | nil => exact hleft
    | cons b rest =>
      by_cases hab : a = '.' ∧ isSpecial b
      · rw [dropPoints, if_pos hab]
        exact ih left (h left b rest hab.2 (hab.1 ▸ hleft))
      · rw [dropPoints, if_neg hab]
        have hnext := ih (left ++ [a]) (by simpa using hleft)
        simpa using hnext

end

section

variable {t : Text}

theorem dropPoints_cons {c : Char} (hc : c ≠ '.') (t : Text) :
    dropPoints (c :: t) = c :: dropPoints t := by
  cases t with
  | nil => rfl
  | cons d t => rw [dropPoints, if_neg fun hp => hc hp.1]

theorem isChain_dropPoints (t : Text) :
    List.IsChain (fun a b => ¬ (a = '.' ∧ isSpecial b = true)) (dropPoints t) := by
  induction t with
  | nil => exact .nil
  | cons a t ih =>
    cases t with
    | nil => exact .singleton a
    | cons b t =>
      rw [dropPoints]
      split
      · exact ih
      · next hab =>
        by_cases ha : a = '.'
        · -- then `b` is no point, so it stays where it is
          have hb : b ≠ '.' := by
            rintro rfl
            exact hab ⟨ha, by decide⟩
          rw [dropPoints_cons hb] at ih ⊢
          exact .cons_cons hab ih
        · generalize dropPoints (b :: t) = u at ih
          cases u with
          | nil => exact .singleton a
          | cons c u => exact .cons_cons (fun h => ha h.1) ih

theorem dropPoints_of_isChain (h : List.IsChain (fun a b => ¬ (a = '.' ∧ isSpecial b = true)) t) :
    dropPoints t = t := by
  induction t with
  | nil => rfl
  | cons a t ih =>
    cases t with
    | nil => rfl
    | cons b t =>
      obtain ⟨hab, ht⟩ := List.isChain_cons_cons.mp h
      rw [dropPoints, if_neg hab, ih ht]

theorem getLast?_dropPoints (t : Text) : (dropPoints t).getLast? = t.getLast? := by
  refine dropPoints_induction (P := fun u => u.getLast? = t.getLast?)
    (fun left b right _ h => ?_) rfl
  rw [← h, List.getLast?_append_of_ne_nil _ (by simp), List.getLast?_append_of_ne_nil _ (by simp),
    List.getLast?_cons_cons]

end

/-- The text as the checks of its pairs and characters see it. -/
def settled (t : Text) : Text := completePoints (collapseSigns t)

structure Settles (t u : Text) : Prop where
  balance : isBalanced t = true
  ends : checkEnds t = .ok ()
  notTrivial : checkNotTrivial (settled t) = .ok ()
  pairs : checkPairs (settled t) = .ok ()
  characters : checkCharacters (settled t) = .ok ()
  result : u = dropPlus (settled t)

theorem settleSigns_eq_ok {t u : Text} (h : settleSigns t = .ok u) : Settles t u := by
  simp only [settleSigns, bind_eq_ok, pure_eq_ok, Except.ok.injEq] at h
  obtain ⟨⟨⟩, -, ⟨⟩, hbalance, ⟨⟩, hends, ⟨⟩, htrivial, ⟨⟩, hpairs, ⟨⟩, hcharacters, rfl⟩ := h
  refine ⟨?_, hends, htrivial, hpairs, hcharacters, rfl⟩
  by_contra hb
  simp [checkBalance, hb] at hbalance

theorem settleSigns_iff {t u : Text} (ht : checkNotTrivial t = .ok ()) :
    settleSigns t = .ok u ↔ Settles t u := by
  refine ⟨settleSigns_eq_ok, fun h => ?_⟩
  have hbalance : checkBalance t = .ok () := by rw [checkBalance, if_pos h.balance]
  have htrivial := h.notTrivial
  have hpairs := h.pairs
  have hcharacters := h.characters
  rw [settled] at htrivial hpairs hcharacters
  rw [settleSigns, ht, hbalance, h.ends, ok_bind, ok_bind, ok_bind]
  simp only [htrivial, hpairs, hcharacters, ok_bind, pure_eq_ok, h.result, settled]

/-- One round of tidying: the signs settle, and an empty group goes or the products are written
out. -/
theorem tidyFrom_eq (v : Vocabulary) (t : Text) : tidyFrom v t = settleSigns t >>= fun u =>
    match dropEmptyGroup? v [] u with
    | some w => tidyFrom v w
    | none => writeProducts v u := by
  rw [tidyFrom]
  split
  · next h => rw [h, error_bind]
  · next u h =>
    rw [h, ok_bind]
    split <;> next hdrop => rw [hdrop]

/-- The last round of tidying, in which no empty group is left. -/
theorem tidyFrom_cases {v : Vocabulary} {P : Text → Prop}
    (hstep : ∀ t u w, P t → Settles t u → dropEmptyGroup? v [] u = some w → P w) {t n : Text}
    (ht : P t) (h : tidyFrom v t = .ok n) :
    ∃ t' u, P t' ∧ Settles t' u ∧ dropEmptyGroup? v [] u = none ∧ writeProducts v u = .ok n := by
  fun_induction tidyFrom v t with
  | case1 t e he => cases h
  | case2 t u hu w hw ih => exact ih (hstep t u w ht (settleSigns_eq_ok hu) hw) h
  | case3 t u hu hw => exact ⟨t, u, ht, settleSigns_eq_ok hu, hw, h⟩

end Abacus
