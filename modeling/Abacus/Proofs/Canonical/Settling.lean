import Abacus.Proofs.Canonical.Thinning

/-! Tidying a text that is in order takes plus signs, empty groups and points out of it and puts
nothing in. -/

namespace Abacus

section Points

/-- A point comes after a digit. -/
def AfterDigit (a b : Char) : Prop := b = '.' → a.isDigit = true

theorem isChain_afterDigit {c : Char} {t : Text} (ht : ∀ d ∈ t, d.isDigit = true ∨ d = '.')
    (hpoint : t.count '.' ≤ 1) (hc : c.isDigit = true ∨ '.' ∉ t) :
    List.IsChain AfterDigit (c :: t) := by
  induction t generalizing c with
  | nil => exact .singleton c
  | cons d t ih =>
    have ht' : ∀ e ∈ t, e.isDigit = true ∨ e = '.' := fun e he => ht e (List.mem_cons_of_mem _ he)
    refine .cons_cons (fun hd => hc.resolve_right (by simp [hd])) ?_
    rcases ht d List.mem_cons_self with hd | rfl
    · rw [List.count_cons_of_ne (ne_of_digit hd (by decide))] at hpoint
      exact ih ht' hpoint (.inl hd)
    · rw [List.count_cons_self] at hpoint
      exact ih ht' (by omega) (.inr (List.count_eq_zero.mp (by omega)))

theorem IsAtom.afterDigit {t : Text} (h : IsAtom t) :
    List.IsChain AfterDigit t ∧ ∀ c ∈ t.head?, c ≠ '.' := by
  rcases h with h | h
  · obtain ⟨c, rest, rfl, hc⟩ := h.first
    have hpoint := h.point
    rw [List.count_cons_of_ne (ne_of_digit hc (by decide))] at hpoint
    refine ⟨isChain_afterDigit (fun d hd => h.digits d (List.mem_cons_of_mem _ hd)) hpoint
      (.inl hc), ?_⟩
    simpa using ne_of_digit hc (by decide)
  · obtain ⟨c, rest, rfl, hc⟩ := h.first
    exact ⟨h.points, by simpa using ne_of_nameStart hc (by decide)⟩

variable {v : Vocabulary} {level : List Item → Prop} {p q : Char} {items : List Item}

theorem afterDigit_append {t rest : Text} {a : Char} (ht : List.IsChain AfterDigit t)
    (hfirst : ∀ c ∈ t.head?, c ≠ '.') (hrest : List.IsChain AfterDigit (')' :: rest)) :
    List.IsChain AfterDigit (a :: (t ++ rest)) := by
  have hhead : ∀ c ∈ rest.head?, c ≠ '.' := by
    rintro c hc rfl
    obtain ⟨r, rfl⟩ := List.head?_eq_some_iff.mp hc
    exact absurd ((List.isChain_cons_cons.mp hrest).1 rfl) (by decide)
  have happend : List.IsChain AfterDigit (t ++ rest) :=
    List.isChain_append.mpr ⟨ht, hrest.tail, fun _ _ y hy he => absurd he (hhead y hy)⟩
  cases t with
  | nil =>
    cases rest with
    | nil => exact .singleton a
    | cons c rest => exact .cons_cons (fun he => absurd he (hhead c rfl)) hrest.tail
  | cons c t => exact .cons_cons (fun he => absurd he (hfirst c rfl)) happend

theorem Laid.afterDigit (h : Laid (.leveled IsAtom (IsCalled v) level) p items q) (a : Char)
    {after : Text} (hafter : List.IsChain AfterDigit (')' :: after)) :
    List.IsChain AfterDigit (a :: (textOf items ++ after)) := by
  induction h generalizing a after with
  | nil => exact afterDigit_append .nil (by simp) hafter
  | sign hs _ _ ih =>
    rw [textOf_sign, List.cons_append]
    refine .cons_cons (fun he => ?_) (ih _ hafter)
    subst he
    exact absurd hs (by decide)
  | run _ ht _ ih =>
    rw [textOf_run, List.append_assoc]
    exact afterDigit_append ht.afterDigit.1 ht.afterDigit.2 (ih ')' hafter)
  | group _ _ _ _ _ ihinner ih =>
    simp only [textOf_group, List.cons_append, List.append_assoc]
    exact .cons_cons (fun he => absurd he (by decide))
      (ihinner '(' (.cons_cons (fun he => absurd he (by decide)) (ih ')' hafter)))
  | call _ hc _ _ _ ihinner ih =>
    simp only [textOf_call, List.cons_append, List.append_assoc]
    have hname : IsAtom _ := .inr hc.1.1
    exact afterDigit_append hname.afterDigit.1 hname.afterDigit.2
      (.cons_cons (fun he => absurd he (by decide))
        (ihinner '(' (.cons_cons (fun he => absurd he (by decide)) (ih ')' hafter))))

theorem InOrder.afterDigit {t : Text} (h : InOrder v level t) :
    List.IsChain AfterDigit ('(' :: t) := by
  obtain ⟨items, rfl, -, q, hq⟩ := h
  have hchain := hq.afterDigit '(' (.singleton _)
  rwa [List.append_nil] at hchain

end Points

section

variable {v : Vocabulary} {level : List Item → Prop} {left right t u : Text}

theorem InOrder.erase_plus {a : Char} (h : InOrder v AfterNegatives (left ++ a :: '+' :: right))
    (hc : a ≠ ')') (hf : a ≠ '!') (hop : isOperandCharacter a = false) :
    InOrder v AfterNegatives (left ++ a :: right) := by
  obtain ⟨items, htext, hshape, q, hq⟩ := h
  obtain ⟨others, q', hothers, hlaid, hthin⟩ := hq.erase_plus
    (show textOf items = left ++ [a] ++ '+' :: right by simpa using htext) (by simp)
      (by simpa using ⟨hc, hf, hop⟩)
  exact ⟨others, by simpa using hothers, hshape.thinned hthin, q', hlaid⟩

theorem InOrder.erase_first_plus (h : InOrder v AfterNegatives ('+' :: right)) :
    InOrder v AfterNegatives right := by
  obtain ⟨items, htext, hshape, q, hq⟩ := h
  obtain ⟨others, q', hothers, hlaid, hthin⟩ := hq.erase_plus
    (show textOf items = [] ++ '+' :: right from htext) (by simp) (by simp)
  exact ⟨others, hothers, hshape.thinned hthin, q', hlaid⟩

theorem InOrder.erase_point (hv : v.Identified)
    (hlevel : ∀ items others, level items → Trimmed items others → level others)
    (h : InOrder v level (left ++ '.' :: right)) : InOrder v level (left ++ right) := by
  obtain ⟨items, htext, hshape, q, hq⟩ := h
  obtain ⟨others, hothers, hlaid, htrim⟩ := hq.erase_point hv hlevel htext
  exact ⟨others, hothers, hlevel _ _ hshape htrim, q, hlaid⟩

theorem InOrder.erase_last_point (hv : v.Identified) (h : InOrder v AfterNegatives (t ++ ['.'])) :
    InOrder v AfterNegatives t := by
  have herase : InOrder v AfterNegatives (t ++ []) := h.erase_point hv fun _ _ hg ht =>
    hg.thinned ht.thinned
  simpa using herase

theorem InOrder.neat (h : InOrder v AfterNegatives t) : List.IsChain Neat ('(' :: t) := by
  obtain ⟨items, rfl, hs⟩ := h
  exact hs.neat

theorem isChain_pair {R : Char → Char → Prop} {a b : Char}
    (h : List.IsChain R (left ++ a :: b :: right)) : R a b :=
  (List.isChain_cons_cons.mp (List.isChain_append.mp h).2.1).1

/-- Signs collapse only where a plus has no effect, and no point needs a zero. -/
theorem keptBy_settling : KeptBy settlingPairs (InOrder v AfterNegatives) := by
  intro e he left right h
  have hminus {a : Char} (ha : a ≠ '(') (h : InOrder v AfterNegatives (left ++ a :: '-' :: right)) :
      False :=
    ha ((isChain_pair h.neat.tail).1 rfl)
  have hpoint {a : Char} (ha : a.isDigit = false)
      (h : InOrder v AfterNegatives (left ++ a :: '.' :: right)) : False := by
    have hdigit := isChain_pair h.afterDigit.tail rfl
    rw [hdigit] at ha
    cases ha
  simp only [settlingPairs, List.mem_cons, List.not_mem_nil, or_false] at he
  rcases he with rfl | rfl | rfl | rfl | rfl | rfl | rfl | rfl | rfl
  · exact (hminus (by decide) h).elim
  · exact h.erase_plus (by decide) (by decide) (by decide)
  · exact (hminus (by decide) h).elim
  · exact h.erase_plus (by decide) (by decide) (by decide)
  · exact h.erase_plus (by decide) (by decide) (by decide)
  all_goals exact (hpoint (by decide) h).elim

theorem keptBy_leading : KeptBy leadingPairs (InOrder v AfterNegatives) := by
  intro e he left right h
  simp only [leadingPairs, List.mem_cons, List.not_mem_nil, or_false] at he
  rcases he with rfl | rfl | rfl <;> exact h.erase_plus (by decide) (by decide) (by decide)

theorem InOrder.settled (hv : v.Identified) (h : InOrder v AfterNegatives t) :
    InOrder v AfterNegatives (settled t) :=
   completePoints_induction keptBy_settling (fun _ ht => ht.erase_last_point hv)
     (collapseSigns_induction keptBy_settling h)

theorem InOrder.dropPlus (h : InOrder v AfterNegatives t) : InOrder v AfterNegatives (dropPlus t) :=
  dropPlus_induction keptBy_leading (fun _ ht => ht.erase_first_plus) h

theorem InOrder.dropPoints (hv : v.Identified)
    (hlevel : ∀ items others, level items → Trimmed items others → level others)
    (h : InOrder v level t) : InOrder v level (dropPoints t) :=
  dropPoints_induction (fun _ _ _ _ ht => ht.erase_point hv hlevel) h

theorem InOrder.settles (hv : v.Identified) (h : InOrder v AfterNegatives t) (hs : Settles t u) :
    InOrder v AfterNegatives u :=
  hs.result ▸ (h.settled hv).dropPlus

theorem InOrder.dropped (hv : v.Identified) (h : InOrder v AfterNegatives t) :
    InOrder v AfterNegatives (Abacus.dropPoints t) :=
  h.dropPoints hv fun _ _ hg ht => hg.thinned ht.thinned

end

end Abacus
