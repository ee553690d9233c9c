import Abacus.Proofs.Canonical.ArgumentCounts

/-! Which characters stand next to one another in a canonical text. -/

namespace Abacus

/-- Two characters that may follow one another. -/
def Allowed (a b : Char) : Prop := (a, b) ∉ forbiddenPairs

/-- A plus comes after an operand or a factorial. -/
def BinaryPlus (before : List Char) (a b : Char) : Prop := b = '+' → a ∉ before

section

variable {t : Text}

theorem head_replacePair (a b x : Char) (rest : Text) :
    ∃ r, replacePair a b [a] (x :: rest) = x :: r := by
  cases rest with
  | nil => exact ⟨[], rfl⟩
  | cons y rest =>
    rw [replacePair_cons_cons]
    split
    · next h => exact ⟨_, by rw [h.1]; rfl⟩
    · exact ⟨_, rfl⟩

theorem isChain_replacePair {before : List Char} (hplus : '+' ∈ before) {a x : Char}
    (h : List.IsChain (BinaryPlus before) (x :: t)) :
    List.IsChain (BinaryPlus (a :: before)) (replacePair a '+' [a] (x :: t)) := by
  induction hn : t.length using Nat.strongRecOn generalizing t x with
  | _ n ih =>
    subst hn
    cases t with
    | nil => exact .singleton x
    | cons y rest =>
      obtain ⟨hxy, hrest⟩ := List.isChain_cons_cons.mp h
      rw [replacePair_cons_cons]
      split
      · next hpair =>
        obtain ⟨rfl, rfl⟩ := hpair
        cases rest with
        | nil => exact .singleton x
        | cons z rest =>
          obtain ⟨hyz, -⟩ := List.isChain_cons_cons.mp hrest
          obtain ⟨r, hr⟩ := head_replacePair x '+' z rest
          have hnext := ih rest.length (by simp only [List.length_cons]; omega) hrest.tail rfl
          rw [hr] at hnext ⊢
          exact .cons_cons (fun he => absurd hplus (hyz he)) hnext
      · next hpair =>
        obtain ⟨r, hr⟩ := head_replacePair a '+' y rest
        have hnext := ih rest.length (by simp) hrest rfl
        rw [hr] at hnext ⊢
        refine .cons_cons (fun he hm => ?_) hnext
        rcases List.mem_cons.mp hm with rfl | hm
        · exact hpair ⟨rfl, he⟩
        · exact hxy he hm

theorem length_replacePair_lt {a b : Char} {r : Text} (hr : r.length = 1)
    (h : hasPair a b t = true) : (replacePair a b r t).length < t.length := by
  fun_induction replacePair a b r t with
  | case1 x y rest hxy ih =>
    have := length_replacePair_le a b r (by omega) rest
    simp only [List.length_append, List.length_cons]
    omega
  | case2 x y rest hxy ih =>
    have hrest : hasPair a b (y :: rest) = true := by
      rw [hasPair] at h
      simpa [hxy] using h
    have := ih hrest
    simp only [List.length_cons] at this ⊢
    omega
  | case3 t ht =>
    cases t with
    | nil => simp [hasPair] at h
    | cons x t =>
      cases t with
      | nil => simp [hasPair] at h
      | cons y rest => exact absurd rfl (ht x y rest)

/-- The pairs of signs that collapse. -/
def collapsingPairs : List (Char × Char) :=
  [('+', '-'), ('-', '+'), ('-', '-'), ('*', '+'), ('/', '+')]

theorem not_hasPair_of_length (h : t.length ≤ (collapseOnce t).length) :
    ∀ p ∈ collapsingPairs, hasPair p.1 p.2 t = false := by
  have hle (a b r : Char) (u : Text) : (replacePair a b [r] u).length ≤ u.length :=
    length_replacePair_le a b [r] (by simp) u
  have hnone (a b r : Char) (hu : t.length ≤ (replacePair a b [r] t).length) :
      hasPair a b t = false := by
    rw [← Bool.not_eq_true]
    intro hp
    have := length_replacePair_lt (r := [r]) rfl hp
    omega
  rw [collapseOnce] at h
  have h₁ := hle '+' '-' '-' t
  have h₂ := hle '-' '+' '-' (replacePair '+' '-' ['-'] t)
  have h₃ := hle '-' '-' '+' (replacePair '-' '+' ['-'] (replacePair '+' '-' ['-'] t))
  have h₄ := hle '*' '+' '*'
    (replacePair '-' '-' ['+'] (replacePair '-' '+' ['-'] (replacePair '+' '-' ['-'] t)))
  have h₅ := hle '/' '+' '/'
    (replacePair '*' '+' ['*']
      (replacePair '-' '-' ['+'] (replacePair '-' '+' ['-'] (replacePair '+' '-' ['-'] t))))
  -- every replacement leaves the text to the next one as it was
  have hplusMinus := hnone '+' '-' '-' (by omega)
  rw [replacePair_of_not_hasPair hplusMinus] at h h₂ h₃ h₄ h₅
  have hminusPlus := hnone '-' '+' '-' (by omega)
  rw [replacePair_of_not_hasPair hminusPlus] at h h₃ h₄ h₅
  have hminuses := hnone '-' '-' '+' (by omega)
  rw [replacePair_of_not_hasPair hminuses] at h h₄ h₅
  have hstar := hnone '*' '+' '*' (by omega)
  rw [replacePair_of_not_hasPair hstar] at h
  have hslash := hnone '/' '+' '/' h
  simp [collapsingPairs, hplusMinus, hminusPlus, hminuses, hstar, hslash]

theorem collapseOnce_of_not_hasPair (h : ∀ p ∈ collapsingPairs, hasPair p.1 p.2 t = false) :
    collapseOnce t = t := by
  simp only [collapsingPairs, List.forall_mem_cons] at h
  obtain ⟨hplusMinus, hminusPlus, hminuses, hstar, hslash, -⟩ := h
  rw [collapseOnce, replacePair_of_not_hasPair hplusMinus, replacePair_of_not_hasPair hminusPlus,
    replacePair_of_not_hasPair hminuses, replacePair_of_not_hasPair hstar,
    replacePair_of_not_hasPair hslash]

theorem collapseOnce_eq_self_of_length (h : t.length ≤ (collapseOnce t).length) :
    collapseOnce t = t :=
  collapseOnce_of_not_hasPair (not_hasPair_of_length h)

/-- Signs get fewer just where two of them collapse. -/
theorem length_collapseOnce_lt_iff :
    (collapseOnce t).length < t.length ↔ ∃ p ∈ collapsingPairs, hasPair p.1 p.2 t = true := by
  constructor
  · intro h
    by_contra! hnone
    rw [collapseOnce_of_not_hasPair fun p hp => Bool.not_eq_true _ ▸ hnone p hp] at h
    exact Nat.lt_irrefl _ h
  · rintro ⟨p, hp, hpair⟩
    by_contra hlong
    rw [not_hasPair_of_length (Nat.not_lt.mp hlong) p hp] at hpair
    cases hpair

/-- Where the signs have collapsed there are none left to collapse. -/
theorem hasPair_collapseSigns (t : Text) :
    ∀ p ∈ collapsingPairs, hasPair p.1 p.2 (collapseSigns t) = false := by
  fun_induction collapseSigns t with
  | case1 t h ih => exact ih
  | case2 t h => exact not_hasPair_of_length (Nat.not_lt.mp h)

variable {v : Vocabulary} {u : Text}

theorem head_settled (h : ∀ c ∈ t.head?, c ∉ ['*', '/', '^', '!', ',']) :
    ∀ c ∈ (settled t).head?, c ∉ ['*', '/', '^', '!', ','] := by
  have hkept : KeptBy settlingPairs fun t => ∀ c ∈ t.head?, c ∉ ['*', '/', '^', '!', ','] := by
    intro e he left right h
    cases left with
    | cons x left => exact h
    | nil =>
      simp only [settlingPairs, List.mem_cons, List.not_mem_nil, or_false] at he
      rcases he with rfl | rfl | rfl | rfl | rfl | rfl | rfl | rfl | rfl
      iterate 3 simp
      all_goals exact h
  refine completePoints_induction hkept (fun t ht => ?_) (collapseSigns_induction hkept h)
  cases t with
  | nil => simp
  | cons x t => exact ht

theorem getLast_settled (hv : v.Identified) (h : InOrder v AfterNegatives t)
    (hlast : ∀ c ∈ t.getLast?, c ∉ ['+', '-', '*', '/', ',', '^']) :
    ∀ c ∈ (settled t).getLast?, c ∉ ['+', '-', '*', '/', ',', '^'] := by
  have hkept : KeptBy settlingPairs fun t => InOrder v AfterNegatives t ∧ ∀ c ∈ t.getLast?,
      c ∉ ['+', '-', '*', '/', ',', '^'] := by
    intro e he left right h
    refine ⟨keptBy_settling e he left right h.1, ?_⟩
    have hlast := h.2
    cases right with
    | nil =>
      simp only [settlingPairs, List.mem_cons, List.not_mem_nil, or_false] at he
      rcases he with rfl | rfl | rfl | rfl | rfl | rfl | rfl | rfl | rfl
      iterate 5 simp at hlast
      all_goals simp
    | cons x right =>
      rw [List.getLast?_append_of_ne_nil _ (by simp)] at hlast ⊢
      rw [List.getLast?_append_of_ne_nil _ (by simp)]
      rwa [List.getLast?_cons_cons, List.getLast?_cons_cons] at hlast
  refine (completePoints_induction hkept (fun t ht => ?_)
    (collapseSigns_induction hkept ⟨h, hlast⟩)).2
  refine ⟨ht.1.erase_last_point hv, fun c hc => ?_⟩
  -- what stands before a point is a digit
  obtain ⟨r, rfl⟩ := List.getLast?_eq_some_iff.mp hc
  have hchain := ht.1.afterDigit.tail
  rw [List.append_assoc] at hchain
  have hdigit := isChain_pair hchain rfl
  simp only [List.mem_cons, List.not_mem_nil, or_false, not_or]
  exact ⟨ne_of_digit hdigit (by decide), ne_of_digit hdigit (by decide),
    ne_of_digit hdigit (by decide), ne_of_digit hdigit (by decide), ne_of_digit hdigit (by decide),
    ne_of_digit hdigit (by decide)⟩

theorem allowed_settled (hv : v.Identified) (h : InOrder v AfterNegatives t) (hs : Settles t u) :
    List.IsChain Allowed ('(' :: (settled t ++ [')'])) := by
  have hmiddle : List.IsChain Allowed (settled t) := isChain_of_checkPairs hs.pairs
  have hfirst := head_settled (not_first_of_checkEnds hs.ends)
  have hlast := getLast_settled hv h (not_last_of_checkEnds hs.ends)
  generalize settled t = c at hmiddle hfirst hlast ⊢
  have hopen {x : Char} (hx : x ∉ ['*', '/', '^', '!', ',']) : Allowed '(' x := fun hmem => by
    have hsecond : ∀ p ∈ forbiddenPairs, p.1 = '(' → p.2 ∈ ['*', '/', '^', '!', ','] := by decide
    exact hx (hsecond _ hmem rfl)
  have hclose {x : Char} (hx : x ∉ ['+', '-', '*', '/', ',', '^']) : Allowed x ')' := fun hmem => by
    have hfirst : ∀ p ∈ forbiddenPairs, p.2 = ')' →
        p.1 ∈ ['+', '-', '*', '/', ',', '^'] := by decide
    exact hx (hfirst _ hmem rfl)
  cases c with
  | nil => exact .cons_cons (show ('(', ')') ∉ forbiddenPairs by decide) (.singleton _)
  | cons x c =>
    refine .cons_cons (hopen (hfirst x rfl))
      (List.isChain_append.mpr ⟨hmiddle, .singleton _, fun y hy z hz => ?_⟩)
    obtain rfl : ')' = z := by simpa using hz
    exact hclose (hlast y hy)

theorem isChain_and {R S : Char → Char → Prop} (h : List.IsChain R t) (h' : List.IsChain S t) :
    List.IsChain (fun a b => R a b ∧ S a b) t := by
  induction t with
  | nil => exact .nil
  | cons a t ih =>
    cases t with
    | nil => exact .singleton a
    | cons b t =>
      obtain ⟨hab, ht⟩ := List.isChain_cons_cons.mp h
      obtain ⟨hab', ht'⟩ := List.isChain_cons_cons.mp h'
      exact .cons_cons ⟨hab, hab'⟩ (ih ht ht')

theorem binaryPlus_settled (hv : v.Identified) (h : InOrder v AfterNegatives t) (hs : Settles t u) :
    List.IsChain (BinaryPlus ['+', '-', '*', '/']) (settled t) := by
  have hcollapsed : List.IsChain (BinaryPlus ['-', '*', '/']) (collapseSigns t) := by
    have hnone {a b : Char} (h : (a, b) ∈ collapsingPairs) :=
      hasPair_eq_false_iff.mp (hasPair_collapseSigns t _ h)
    have hall := isChain_and (hnone (a := '-') (b := '+') (by decide))
      (isChain_and (hnone (a := '*') (b := '+') (by decide))
        (hnone (a := '/') (b := '+') (by decide)))
    refine hall.imp fun a b ⟨hm, hs, hd⟩ he hmem => ?_
    simp only [List.mem_cons, List.not_mem_nil, or_false] at hmem
    rcases hmem with rfl | rfl | rfl
    · exact hm ⟨rfl, he⟩
    · exact hs ⟨rfl, he⟩
    · exact hd ⟨rfl, he⟩
  have hkept : KeptBy settlingPairs fun t => InOrder v AfterNegatives t ∧
      List.IsChain (BinaryPlus ['-', '*', '/']) t := by
    intro e he left right h
    -- in such a text none of the pairs occurs
    exfalso
    have hminus := fun he => (isChain_pair h.1.neat.tail).1 he
    have hpoint := isChain_pair h.1.afterDigit.tail
    have hplus := isChain_pair h.2
    simp only [settlingPairs, List.mem_cons, List.not_mem_nil, or_false] at he
    rcases he with rfl | rfl | rfl | rfl | rfl | rfl | rfl | rfl | rfl
    · exact absurd (hminus rfl) (by decide)
    · exact hplus rfl (by decide)
    · exact absurd (hminus rfl) (by decide)
    · exact hplus rfl (by decide)
    · exact hplus rfl (by decide)
    all_goals exact absurd (hpoint rfl) (by decide)
  have hthree := (completePoints_induction hkept (fun t ht => ?_)
    ⟨collapseSigns_induction keptBy_settling h, hcollapsed⟩).2
  · refine (isChain_and hthree (isChain_of_checkPairs hs.pairs)).imp fun a b hab he hm => ?_
    subst he
    rcases List.mem_cons.mp hm with rfl | hm
    · exact hab.2 (by decide)
    · exact hab.1 rfl hm
  · exact ⟨ht.1.erase_last_point hv, ht.2.left_of_append⟩

/-- Where a text may not have a plus. -/
def unaryPlaces : List Char := ['^', ',', '(', '+', '-', '*', '/']

theorem binaryPlus_dropPlus (h : List.IsChain (BinaryPlus ['+', '-', '*', '/']) t) :
    List.IsChain (BinaryPlus unaryPlaces) ('(' :: dropPlus t) := by
  have hstep {before : List Char} {a : Char} {t : Text} (hplus : '+' ∈ before)
      (h : List.IsChain (BinaryPlus before) t) : List.IsChain (BinaryPlus (a :: before))
        (replacePair a '+' [a] t) := by
    cases t with
    | nil => exact .nil
    | cons x t => exact isChain_replacePair hplus h
  have hall :=
    hstep (a := '^') (by simp) (hstep (a := ',') (by simp) (hstep (a := '(') (by simp) h))
  simp only [dropPlus]
  split
  · next rest he =>
    rw [he] at hall
    cases rest with
    | nil => exact .singleton _
    | cons x rest =>
      obtain ⟨hx, hrest⟩ := List.isChain_cons_cons.mp hall
      exact .cons_cons (fun he => absurd (by simp) (hx he)) hrest
  · next u hne =>
    generalize replacePair '^' '+' ['^'] (replacePair ',' '+' [','] (replacePair '(' '+' ['('] t)) =
      u at hall hne
    cases u with
    | nil => exact .singleton _
    | cons x rest => exact .cons_cons (fun he => absurd (by rw [he]) (hne rest)) hall

theorem allowed_dropPlus (h : List.IsChain Allowed ('(' :: (t ++ [')']))) :
    List.IsChain Allowed ('(' :: (dropPlus t ++ [')'])) := by
  have hlink {a b : Char} (ha : a ∈ ['(', ',', '^']) (h : Allowed '+' b) : Allowed a b := by
    intro hmem
    apply h
    simp [forbiddenPairs] at hmem ⊢
    simp at ha
    rcases ha with rfl | rfl | rfl <;> simp at hmem <;> tauto
  have hkept : KeptBy leadingPairs fun t => List.IsChain Allowed ('(' :: (t ++ [')'])) := by
    intro e he left right h
    have hmiddle {a : Char} (ha : a ∈ ['(', ',', '^'])
        (h : List.IsChain Allowed ('(' :: (left ++ a :: '+' :: right ++ [')']))) :
          List.IsChain Allowed ('(' :: (left ++ ([a] ++ right) ++ [')'])) := by
      have hsplit : '(' :: (left ++ a :: '+' :: right ++ [')']) =
          ('(' :: left) ++ (a :: '+' :: (right ++ [')'])) := by simp
      rw [hsplit, List.isChain_append] at h
      obtain ⟨hl, hr, hlr⟩ := h
      have hright : List.IsChain Allowed (a :: (right ++ [')'])) := by
        obtain ⟨b, r, hb⟩ := List.exists_cons_of_ne_nil (show right ++ [')'] ≠ [] by simp)
        rw [hb] at hr ⊢
        exact .cons_cons (hlink ha (List.isChain_cons_cons.mp hr.tail).1) hr.tail.tail
      have hboth :=
        List.isChain_append.mpr ⟨hl, hright, fun x hx y hy => hlr x hx y (by simpa using hy)⟩
      simpa using hboth
    simp only [leadingPairs, List.mem_cons, List.not_mem_nil, or_false] at he
    rcases he with rfl | rfl | rfl <;> exact hmiddle (by decide) h
  refine dropPlus_induction hkept (fun t ht => ?_) h
  obtain ⟨b, r, hb⟩ := List.exists_cons_of_ne_nil (show t ++ [')'] ≠ [] by simp)
  rw [List.cons_append, hb] at ht
  rw [hb]
  exact .cons_cons (hlink (by decide) (List.isChain_cons_cons.mp ht.tail).1) ht.tail.tail

theorem adjacent_dropPoints (hdigit : List.IsChain AfterDigit ('(' :: t))
    (h : List.IsChain Allowed ('(' :: (t ++ [')'])))
    (hplus : List.IsChain (BinaryPlus unaryPlaces) ('(' :: t)) :
    List.IsChain Allowed ('(' :: (dropPoints t ++ [')'])) ∧
      List.IsChain (BinaryPlus unaryPlaces) ('(' :: dropPoints t) := by
  have hdrop {R : Char → Char → Prop} {left right : Text} {b : Char}
      (hR : ∀ a, a.isDigit = true → R a b)
      (hdigit : List.IsChain AfterDigit ('(' :: (left ++ '.' :: b :: right))) (after : Text)
      (h : List.IsChain R ('(' :: (left ++ '.' :: b :: right ++ after))) :
      List.IsChain R ('(' :: (left ++ b :: right ++ after)) := by
    rw [List.append_assoc, ← List.cons_append] at h ⊢
    rw [← List.cons_append] at hdigit
    obtain ⟨hl, hr, -⟩ := List.isChain_append.mp h
    refine List.isChain_append.mpr ⟨hl, hr.tail, fun x hx y hy => ?_⟩
    obtain rfl : b = y := by simpa using hy
    exact hR x ((List.isChain_append.mp hdigit).2.2 x hx '.' rfl rfl)
  have hall := dropPoints_induction (P := fun t => List.IsChain AfterDigit ('(' :: t) ∧
    List.IsChain Allowed ('(' :: (t ++ [')'])) ∧ List.IsChain (BinaryPlus unaryPlaces) ('(' :: t))
    (fun left b right _ ⟨hd, ha, hp⟩ => ?_) ⟨hdigit, h, hplus⟩
  · exact hall.2
  · refine ⟨?_, hdrop (fun a hdigit hmem => ?_) hd _ ha, ?_⟩
    · simpa using hdrop (fun a hdigit _ => hdigit) hd [] (by simpa using hd)
    · have hfirst : ∀ p ∈ forbiddenPairs, p.1.isDigit = false := by decide
      rw [hfirst _ hmem] at hdigit
      cases hdigit
    · have hplaces : ∀ c ∈ unaryPlaces, c.isDigit = false := by simp [unaryPlaces, Char.isDigit]
      have hnext := hdrop (fun a hdigit _ hmem => by
        rw [hplaces a hmem] at hdigit
        cases hdigit) hd (R := BinaryPlus unaryPlaces) [] (by simpa using hp)
      simpa using hnext

end

end Abacus
