import Abacus.Proofs.Canonical.MinusRuns

/-! The places between two operands where a product is understood. Settling the signs and points
goes through what is before such a place and what is after it on their own, and a product sign that
is written there changes nothing else. -/

namespace Abacus

/-- The last character of an operand and the first one of the next. -/
structure Joint (a b : Char) : Prop where
  last : isWordCharacter a = true ∨ a = ')' ∨ a = '!'
  first : isWordCharacter b = true ∨ b = '('

/-- A pass goes through both sides of the joint on their own, also if a product sign stands
there. -/
def PassesJoint (a b : Char) (f : Text → Text) : Prop := ∀ left right, ∃ left' right',
  f (left ++ [a]) = left' ++ [a] ∧ f (b :: right) = b :: right' ∧
    f (left ++ a :: b :: right) = left' ++ a :: b :: right' ∧
    f (left ++ a :: '*' :: b :: right) = left' ++ a :: '*' :: b :: right'

namespace Joint

variable {a b : Char} (h : Joint a b)
include h

theorem last_ne {c : Char} (hc : isWordCharacter c = false ∧ c ≠ ')' ∧ c ≠ '!') : a ≠ c := by
  rintro rfl
  rcases h.last with hw | rfl | rfl
  · rw [hc.1] at hw
    cases hw
  · exact hc.2.1 rfl
  · exact hc.2.2 rfl

theorem first_ne {c : Char} (hc : isWordCharacter c = false ∧ c ≠ '(') : b ≠ c := by
  rintro rfl
  rcases h.first with hw | rfl
  · rw [hc.1] at hw
    cases hw
  · exact hc.2 rfl

theorem not_signs : a ∉ arithmeticSigns ∧ b ∉ arithmeticSigns := by
  simp only [arithmeticSigns, List.mem_cons, List.not_mem_nil, or_false, not_or]
  exact ⟨⟨h.last_ne (by decide), h.last_ne (by decide), h.last_ne (by decide),
    h.last_ne (by decide)⟩, h.first_ne (by decide), h.first_ne (by decide), h.first_ne (by decide),
    h.first_ne (by decide)⟩

end Joint

section Passes

variable {a b : Char} {f g : Text → Text}

theorem PassesJoint.comp (hf : PassesJoint a b f) (hg : PassesJoint a b g) :
    PassesJoint a b fun t => f (g t) := by
  intro left right
  obtain ⟨l, r, hlast, hfirst, hplain, hstar⟩ := hg left right
  obtain ⟨l', r', hlast', hfirst', hplain', hstar'⟩ := hf l r
  exact ⟨l', r', (congrArg f hlast).trans hlast', (congrArg f hfirst).trans hfirst',
    (congrArg f hplain).trans hplain', (congrArg f hstar).trans hstar'⟩

/-- The second sign of the pair stands at no joint, and the first one stays where it is. -/
theorem passesJoint_replacePair {x y : Char} {r : Text} (hlast : a ≠ x ∧ a ≠ y) (hfirst : b ≠ y)
    (hr : b = x → r = [x]) : PassesJoint a b (replacePair x y r) := by
  intro left right
  obtain ⟨right', hright⟩ : ∃ right', replacePair x y r (b :: right) = b :: right' := by
    by_cases hb : b = x
    · obtain rfl := hr hb
      obtain rfl := hb
      exact head_replacePair b y b right
    · exact ⟨_, replacePair_cons hb right⟩
  have hstar : replacePair x y r ('*' :: b :: right) = '*' :: b :: right' := by
    rw [replacePair_cons_cons, if_neg fun hp => hfirst hp.2, hright]
  refine ⟨replacePair x y r left, right', ?_, hright, ?_, ?_⟩
  · exact replacePair_split hlast.1 hlast.2 left []
  · rw [replacePair_split hlast.1 hlast.2, hright]
  · rw [replacePair_split hlast.1 hlast.2, hstar]

/-- The text without a plus at its start. -/
def dropFirstPlus (t : Text) : Text := if t.head? = some '+' then t.tail else t

theorem dropPlus_eq (t : Text) : dropPlus t =
    dropFirstPlus (replacePair '^' '+' ['^'] <| replacePair ',' '+' [','] <| replacePair '(' '+'
      ['('] t) := by
  rw [dropPlus, dropFirstPlus]
  split
  · next he => rw [he, List.head?_cons, if_pos rfl, List.tail_cons]
  · next hnot => rw [if_neg fun hhead => hnot _ (List.head?_eq_some_iff.mp hhead).choose_spec]

theorem collapseSigns_nil : collapseSigns [] = [] := collapseSigns_of_fixed rfl

theorem exists_dropPoints_split {c : Char} (hc : c ≠ '.') (left : Text) :
    ∃ left', ∀ right, dropPoints (left ++ c :: right) = left' ++ c :: dropPoints right := by
  induction left with
  | nil => exact ⟨[], fun right => dropPoints_cons hc right⟩
  | cons d left ih =>
    obtain ⟨left', hleft⟩ := ih
    obtain ⟨e, hhead⟩ : ∃ e, ∀ right, ∃ rest, left ++ c :: right = e :: rest := by
      cases left with
      | nil => exact ⟨c, fun right => ⟨right, rfl⟩⟩
      | cons e left => exact ⟨e, fun right => ⟨left ++ c :: right, rfl⟩⟩
    by_cases hp : d = '.' ∧ isSpecial e = true
    · refine ⟨left', fun right => ?_⟩
      obtain ⟨rest, hrest⟩ := hhead right
      rw [List.cons_append, hrest, dropPoints, if_pos hp, ← hrest, hleft]
    · refine ⟨d :: left', fun right => ?_⟩
      obtain ⟨rest, hrest⟩ := hhead right
      rw [List.cons_append, hrest, dropPoints, if_neg hp, ← hrest, hleft, List.cons_append]

namespace Joint

variable (h : Joint a b)
include h

theorem passes_collapseSigns : PassesJoint a b collapseSigns := by
  intro left right
  obtain ⟨ha, hb⟩ := h.not_signs
  have hright : collapseSigns (b :: right) = b :: collapseSigns right := by
    simpa [collapseSigns_nil] using collapseSigns_split hb [] right
  have hstar : collapseSigns ('*' :: b :: right) = '*' :: b :: collapseSigns right := by
    rw [show '*' :: b :: right = ['*'] ++ b :: right from rfl, collapseSigns_split hb,
      collapseSigns_of_fixed (t := ['*']) rfl]
    rfl
  refine ⟨collapseSigns left, collapseSigns right, ?_, hright, ?_, ?_⟩
  · rw [collapseSigns_split ha, collapseSigns_nil]
  · rw [collapseSigns_split ha, hright]
  · rw [collapseSigns_split ha, hstar]

theorem passes_dropLastPoint :
    PassesJoint a b fun t => if t.getLast? = some '.' then t.dropLast else t := by
  intro left right
  have hlast : ¬ (left ++ [a]).getLast? = some '.' := by
    simpa using h.last_ne (c := '.') (by decide)
  have hsame (first : Text) : (first ++ b :: right).getLast? = (b :: right).getLast? :=
    List.getLast?_append_of_ne_nil _ (List.cons_ne_nil b right)
  have hdrop (first : Text) : (first ++ b :: right).dropLast = first ++ (b :: right).dropLast :=
    List.dropLast_append_of_ne_nil (List.cons_ne_nil b right)
  by_cases hpoint : (b :: right).getLast? = some '.'
  · have hne : right ≠ [] := by
      rintro rfl
      exact h.first_ne (c := '.') (by decide) (by simpa using hpoint)
    have hright (first : Text) :
        (if (first ++ b :: right).getLast? = some '.' then (first ++ b :: right).dropLast
          else first ++ b :: right) = first ++ b :: right.dropLast := by
      rw [hsame, if_pos hpoint, hdrop, List.dropLast_cons_of_ne_nil hne]
    exact ⟨left, right.dropLast, if_neg hlast, hright [], by simpa using hright (left ++ [a]),
      by simpa using hright (left ++ [a, '*'])⟩
  · have hright (first : Text) : (if (first ++ b :: right).getLast? = some '.' then
        (first ++ b :: right).dropLast else first ++ b :: right) = first ++ b :: right := by
      rw [hsame, if_neg hpoint]
    exact ⟨left, right, if_neg hlast, hright [], by simpa using hright (left ++ [a]),
      by simpa using hright (left ++ [a, '*'])⟩

theorem passes_completePoints : PassesJoint a b completePoints := by
  have hzero {x : Char} (hx : isWordCharacter x = false ∧ x ≠ ')' ∧ x ≠ '!') (hopen : x ≠ '(') :
      PassesJoint a b (replacePair x '.' [x, '0', '.']) :=
    passesJoint_replacePair ⟨h.last_ne hx, h.last_ne (by decide)⟩ (h.first_ne (by decide))
      fun hb => absurd hb (h.first_ne ⟨hx.1, hopen⟩)
  exact h.passes_dropLastPoint.comp
    ((hzero (by decide) (by decide)).comp
      ((hzero (by decide) (by decide)).comp
        ((hzero (by decide) (by decide)).comp (hzero (by decide) (by decide)))))

theorem passes_dropFirstPlus : PassesJoint a b dropFirstPlus := by
  have hself {c : Char} (hc : c ≠ '+') (t : Text) : dropFirstPlus (c :: t) = c :: t :=
    if_neg (by simpa using hc)
  have ha : a ≠ '+' := h.last_ne (by decide)
  have hb : b ≠ '+' := h.first_ne (by decide)
  intro left right
  cases left with
  | nil => exact ⟨[], right, hself ha _, hself hb _, hself ha _, hself ha _⟩
  | cons c left =>
    by_cases hc : c = '+'
    · subst hc
      exact ⟨left, right, rfl, hself hb _, rfl, rfl⟩
    · exact ⟨c :: left, right, hself hc _, hself hb _, hself hc _, hself hc _⟩

theorem passes_dropPlus : PassesJoint a b dropPlus := by
  have hleading {x : Char} (hx : isWordCharacter x = false ∧ x ≠ ')' ∧ x ≠ '!') :
      PassesJoint a b (replacePair x '+' [x]) :=
    passesJoint_replacePair ⟨h.last_ne hx, h.last_ne (by decide)⟩ (h.first_ne (by decide)) fun _ =>
      rfl
  rw [funext dropPlus_eq]
  exact h.passes_dropFirstPlus.comp
    ((hleading (by decide)).comp ((hleading (by decide)).comp (hleading (by decide))))

theorem passes_dropPoints : PassesJoint a b dropPoints := by
  intro left right
  obtain ⟨left', hleft⟩ := exists_dropPoints_split (h.last_ne (c := '.') (by decide)) left
  have hright := dropPoints_cons (h.first_ne (c := '.') (by decide)) right
  refine ⟨left', dropPoints right, hleft [], hright, ?_, ?_⟩
  · rw [hleft, hright]
  · rw [hleft, dropPoints_cons (by decide), hright]

theorem passes_settled : PassesJoint a b settled :=
  h.passes_completePoints.comp h.passes_collapseSigns

end Joint

end Passes

section Checks

variable {t : Text} {a b : Char}

theorem checkPairs_eq_ok_iff :
    checkPairs t = .ok () ↔ List.IsChain (fun a b => (a, b) ∉ forbiddenPairs) t := by
  refine ⟨isChain_of_checkPairs, fun h => ?_⟩
  have hnone : forbiddenPairs.find? (fun p => hasPair p.1 p.2 t) = none := by
    refine List.find?_eq_none.mpr fun p hp => ?_
    rw [Bool.not_eq_true, hasPair_eq_false_iff]
    exact h.imp fun a b hab hpair => hab (by rw [hpair.1, hpair.2]; exact hp)
  rw [checkPairs, hnone]

theorem checkCharacters_eq_ok_iff : checkCharacters t = .ok () ↔ ∀ c ∈ t, IsAllowed c := by
  have hnone : checkCharacters t = .ok () ↔
      t.find? (fun c => !(c.isAlphanum || isSpecial c)) = none := by
    unfold checkCharacters
    split <;> simp_all
  rw [hnone, List.find?_eq_none]
  refine forall₂_congr fun c _ => ?_
  rw [Bool.not_eq_true, Bool.not_eq_false', Bool.or_eq_true, IsAllowed]

/-- The checks of the settled text look the same on both sides of a joint, with the product sign and
without. -/
theorem Joint.settles (h : Joint a b) (left right : Text) :
    Settles (left ++ a :: b :: right) (dropPlus (settled (left ++ a :: b :: right))) ↔
      Settles (left ++ a :: '*' :: b :: right)
        (dropPlus (settled (left ++ a :: '*' :: b :: right))) := by
  obtain ⟨left', right', -, -, hplain, hstar⟩ := h.passes_settled left right
  have hbalance : isBalanced (left ++ a :: b :: right) =
      isBalanced (left ++ a :: '*' :: b :: right) :=
    isBalancedFrom_congr (by simp [parentheses, List.filter_cons]) 0
  have hends : checkEnds (left ++ a :: b :: right) =
      checkEnds (left ++ a :: '*' :: b :: right) := by
    have hlast (first : Text) : (first ++ b :: right).getLast? = (b :: right).getLast? :=
      List.getLast?_append_of_ne_nil _ (List.cons_ne_nil b right)
    have hhead (rest : Text) : (left ++ a :: rest).head? = (left ++ [a]).head? := by
      cases left <;> rfl
    rw [checkEnds, checkEnds, hhead, hhead ('*' :: _), show left ++ a :: b :: right =
      (left ++ [a]) ++ b :: right by simp, show left ++ a :: '*' :: b :: right =
        (left ++ [a, '*']) ++ b :: right by simp, hlast, hlast]
  have htrivial (rest : Text) (hne : rest ≠ []) : checkNotTrivial (left' ++ a :: rest) =
      .ok () := by
    obtain ⟨c, rest, rfl⟩ := List.exists_cons_of_ne_nil hne
    cases left' with
    | nil => rfl
    | cons d left' => cases left' <;> rfl
  have hpairs : checkPairs (settled (left ++ a :: b :: right)) = .ok () ↔
      checkPairs (settled (left ++ a :: '*' :: b :: right)) = .ok () := by
    have hfirst : ∀ p ∈ forbiddenPairs, (isWordCharacter p.1 = false ∧ p.1 ≠ ')' ∧ p.1 ≠ '!') ∨
        (isWordCharacter p.2 = false ∧ p.2 ≠ '(') ∧ p.2 ≠ '*' := by decide
    have hsecond : ∀ p ∈ forbiddenPairs, p.1 = '*' →
        isWordCharacter p.2 = false ∧ p.2 ≠ '(' := by decide
    have hab : (a, b) ∉ forbiddenPairs := fun hmem =>
      (hfirst _ hmem).elim (fun ha => h.last_ne ha rfl) fun hb => h.first_ne hb.1 rfl
    have hastar : (a, '*') ∉ forbiddenPairs := fun hmem =>
      (hfirst _ hmem).elim (fun ha => h.last_ne ha rfl) fun hb => hb.2 rfl
    have hstarb : ('*', b) ∉ forbiddenPairs := fun hmem => h.first_ne (hsecond _ hmem rfl) rfl
    rw [hplain, hstar, checkPairs_eq_ok_iff, checkPairs_eq_ok_iff, List.isChain_append_cons_cons,
      List.isChain_append_cons_cons, List.isChain_cons_cons]
    tauto
  have hcharacters : checkCharacters (settled (left ++ a :: b :: right)) = .ok () ↔
      checkCharacters (settled (left ++ a :: '*' :: b :: right)) = .ok () := by
    have hallowed : IsAllowed '*' := .inr (by decide)
    rw [hplain, hstar, checkCharacters_eq_ok_iff, checkCharacters_eq_ok_iff]
    simp only [List.mem_append, List.mem_cons]
    grind
  constructor
  · intro hsettles
    refine ⟨hbalance ▸ hsettles.balance, hends ▸ hsettles.ends, ?_, hpairs.mp hsettles.pairs,
      hcharacters.mp hsettles.characters, rfl⟩
    rw [hstar]
    exact htrivial _ (by simp)
  · intro hsettles
    refine ⟨hbalance ▸ hsettles.balance, hends ▸ hsettles.ends, ?_, hpairs.mpr hsettles.pairs,
      hcharacters.mpr hsettles.characters, rfl⟩
    rw [hplain]
    exact htrivial _ (by simp)

end Checks

end Abacus
