import Mathlib.Logic.Relation
import Abacus.Canonical.Basic
import Abacus.Proofs.Text.Nested
import Abacus.Proofs.Text.Pair

/-! What the grouping of factorials, powers and negative terms adds to a balanced text. Factorials
and powers get a pair of parentheses around a balanced part, one after the other; a negative term
gets one too, and a plus may come before it and a star between two groups. -/

namespace Abacus

namespace Nested

variable {o c : Char} {P : Char → Prop} {stops : Char → Bool} {t u rest : Text}

theorem exists_of_suffix (h : Nested o c P u) (ht : t <:+ u) :
    ∃ inside rest, t = inside ++ rest ∧ Nested o c (fun _ => True) inside ∧
      ∀ x ∈ rest.head?, x = c := by
  have whole {P : Char → Prop} {t : Text} (h : Nested o c P t) : ∃ inside rest, t = inside ++ rest ∧
      Nested o c (fun _ => True) inside ∧ ∀ x ∈ rest.head?, x = c :=
    ⟨t, [], by simp, h.mono fun _ _ => trivial, by simp⟩
  induction h generalizing t with
  | nil P =>
    obtain rfl := List.suffix_nil.mp ht
    exact whole (.nil P)
  | @char P x u ho hc hx hu ih =>
    rcases List.suffix_cons_iff.mp ht with rfl | ht
    · exact whole (.char ho hc hx hu)
    · exact ih ht
  | @group P inside u hinside hu ihinside ih =>
    rcases List.suffix_cons_iff.mp ht with rfl | ht
    · exact whole (.group hinside hu)
    rcases List.suffix_or_suffix_of_suffix ht (List.suffix_append inside (c :: u)) with hafter
      | ⟨before, rfl⟩
    · rcases List.suffix_cons_iff.mp hafter with rfl | hafter
      · exact ⟨[], c :: u, rfl, .nil _, by simp⟩
      · exact ih hafter
    · obtain ⟨first, rest, rfl, hfirst, hrest⟩ := ihinside (List.suffix_append_self_iff.mp ht)
      refine ⟨first, rest ++ c :: u, by simp, hfirst, fun x hx => ?_⟩
      cases rest with
      | nil => simpa [eq_comm] using hx
      | cons y rest => exact hrest x hx

/-- A run that something stops closes the groups that it opens, besides those that were open before
it. -/
theorem of_runWith_ne_nil {depth : Nat} (h : (runWith o c stops depth t).2 ≠ []) :
    Nested o c (fun _ => True) (List.replicate depth o ++ (runWith o c stops depth t).1) := by
  fun_induction runWith o c stops depth t with
  | case1 depth => exact absurd rfl h
  | case2 depth rest ih =>
    have hrest := ih h
    rw [List.replicate_succ', List.append_assoc] at hrest
    exact hrest
  | case3 depth x rest hopen hstop =>
    obtain ⟨rfl, -⟩ := hstop
    exact .nil _
  | case4 depth x rest hopen hstop ih =>
    have hrest := ih h
    by_cases hclose : x = c
    · obtain ⟨depth, rfl⟩ := Nat.exists_eq_succ_of_ne_zero fun hzero => hstop ⟨hzero, .inl hclose⟩
      rw [if_pos hclose] at hrest ⊢
      have hpair := hrest.insert (.group (.nil _) (.nil _))
      simpa [hclose, List.replicate_succ'] using hpair
    · rw [if_neg hclose] at hrest ⊢
      exact hrest.insert (.char hopen hclose trivial (.nil _))

variable (hoc : c ≠ o)
include hoc

theorem of_runWith (h : Nested o c (fun _ => True) t) (hrest : ∀ x ∈ rest.head?, x = c) :
    Nested o c (fun x => stops x = false) (runWith o c stops 0 (t ++ rest)).1 := by
  generalize hP : (fun _ => True) = P at h
  induction h with
  | nil P =>
    cases rest with
    | nil => exact .nil _
    | cons x rest =>
      obtain rfl : x = c := hrest x rfl
      simpa [runWith, hoc] using Nested.nil _
  | @char P x t ho hc _ _ ih =>
    by_cases hstop : stops x = true
    · simpa [runWith, ho, hstop] using Nested.nil _
    · simpa [runWith, Prod.map, ho, hc, hstop] using .char ho hc (by simpa using hstop) (ih hP)
  | @group P inside t hinside _ _ ih =>
    have hgroup : runWith o c stops 0 (o :: (inside ++ c :: (t ++ rest))) = _ :=
      hinside.runWith_group hoc (t ++ rest)
    simp only [List.cons_append, List.append_assoc]
    rw [hgroup]
    exact .group hinside (ih hP)

/-- A run that a scan finds in a balanced text is balanced. -/
theorem runWith_of_suffix (h : Nested o c P u) (ht : t <:+ u) :
    Nested o c (fun x => stops x = false) (runWith o c stops 0 t).1 := by
  obtain ⟨inside, rest, rfl, hinside, hrest⟩ := h.exists_of_suffix ht
  exact hinside.of_runWith hoc hrest

end Nested

section Scans

variable {before rest : Text} {c : Char}

theorem operandBefore_append (before : Text) :
    (operandBefore before).1 ++ (operandBefore before).2 = before := runWith_append ..

variable (h : isBalanced (before.reverse ++ rest) = true)
include h

theorem nested_operandBefore : Nested '(' ')' (fun _ => True) (operandBefore before).1.reverse := by
  have hback : Nested ')' '(' (fun _ => True) (rest.reverse ++ before) := by
    simpa using (Nested.of_isBalanced h).reverse
  have hrun : Nested ')' '(' (fun c => (!isOperandCharacter c) = false) (operandBefore before).1 :=
    hback.runWith_of_suffix (by decide) (List.suffix_append ..)
  exact (hrun.mono fun _ _ => trivial).reverse

theorem nested_termAfter : Nested '(' ')' (fun _ => True) (termAfter rest).1 := by
  have hrun :
      Nested '(' ')' (fun c => ['+', '-', '*', '/', ','].contains c = false) (termAfter rest).1 :=
    (Nested.of_isBalanced h).runWith_of_suffix (by decide) (List.suffix_append before.reverse rest)
  exact hrun.mono fun _ _ => trivial

theorem nested_exponentAfter : Nested '(' ')' (fun _ => True) (exponentAfter rest).1 := by
  have hrun {t : Text} (ht : t <:+ rest) :
      Nested '(' ')' (fun _ => True) (runWith '(' ')' (fun c => !isOperandCharacter c) 0 t).1 :=
    ((Nested.of_isBalanced h).runWith_of_suffix (by decide) (ht.trans (List.suffix_append ..))).mono
      fun _ _ => trivial
  unfold exponentAfter
  split
  · exact .char (by decide) (by decide) trivial (hrun (List.suffix_cons ..))
  · exact hrun List.suffix_rfl

end Scans

section Enclosed

variable {before inside rest after : Text}

theorem nested_operandBefore_of_ne_nil (h : (operandBefore before).2 ≠ []) :
    Nested '(' ')' (fun _ => True) (operandBefore before).1.reverse := by
  have hrun : Nested ')' '(' (fun _ => True) (operandBefore before).1 := Nested.of_runWith_ne_nil h
  exact hrun.reverse

theorem nested_exponentAfter_of_ne_nil (h : (exponentAfter rest).2 ≠ []) :
    Nested '(' ')' (fun _ => True) (exponentAfter rest).1 := by
  unfold exponentAfter at h ⊢
  split at h
  · have hrun : Nested '(' ')' (fun _ => True) _ := Nested.of_runWith_ne_nil h
    exact .char (by decide) (by decide) trivial hrun
  · exact Nested.of_runWith_ne_nil h

theorem ne_nil_of_isEnclosed (h : isEnclosed before after = true) : before ≠ [] ∧ after ≠ [] := by
  constructor <;>
  · rintro rfl
    simp [isEnclosed] at h

theorem splitGroup_of_isEnclosed (h : isEnclosed before after = true)
    (hinside : Nested '(' ')' (fun _ => True) inside) :
    splitGroup 0 (inside ++ after) = some (inside, after.tail) := by
  simp only [isEnclosed, Bool.and_eq_true, beq_iff_eq] at h
  obtain ⟨rest, rfl⟩ := List.head?_eq_some_iff.mp h.2
  exact hinside.splitGroup_close rest

/-- The parentheses around a factorial belong together wherever there is one on both sides, so that
the pass does not look for the one that closes the first. -/
theorem splitGroup_factorial (h : isEnclosed (operandBefore before).2 rest = true) :
    splitGroup 0 ((operandBefore before).1.reverse ++ '!' :: rest) =
      some ((operandBefore before).1.reverse ++ ['!'], rest.tail) := by
  obtain ⟨hbefore, -⟩ := ne_nil_of_isEnclosed h
  have hinside := (nested_operandBefore_of_ne_nil hbefore).append
    (.char (by decide) (by decide) trivial (.nil _) : Nested '(' ')' (fun _ => True) ['!'])
  have hsplit := splitGroup_of_isEnclosed h hinside
  rwa [List.append_assoc] at hsplit

theorem splitGroup_power (h : isEnclosed (operandBefore before).2 (exponentAfter rest).2 = true) :
    splitGroup 0 ((operandBefore before).1.reverse ++ '^' :: rest) =
      some ((operandBefore before).1.reverse ++ '^' :: (exponentAfter rest).1,
        (exponentAfter rest).2.tail) := by
  obtain ⟨hbefore, hafter⟩ := ne_nil_of_isEnclosed h
  have hinside := (nested_operandBefore_of_ne_nil hbefore).append
    (.char (by decide) (by decide) trivial (nested_exponentAfter_of_ne_nil hafter) :
      Nested '(' ')' (fun _ => True) ('^' :: (exponentAfter rest).1))
  have hsplit := splitGroup_of_isEnclosed h hinside
  rwa [List.append_assoc, List.cons_append, exponentAfter_append] at hsplit

end Enclosed

def withoutParentheses (t : Text) : Text := t.filter fun c => c != '(' && c != ')'

/-- One pair of parentheses more, around a balanced part. -/
inductive Wraps : Text → Text → Prop
  | wrap (left : Text) {inside : Text} (right : Text) (h : Nested '(' ')' (fun _ => True) inside) :
    Wraps (left ++ (inside ++ right)) (left ++ '(' :: (inside ++ ')' :: right))

section Wrapping

variable {t u before rest left right inside : Text}

theorem isBalancedFrom_append_congr {depth : Nat}
    (h : ∀ depth, isBalancedFrom depth t = isBalancedFrom depth u) (left : Text) :
    isBalancedFrom depth (left ++ t) = isBalancedFrom depth (left ++ u) := by
  induction left generalizing depth with
  | nil => exact h depth
  | cons c left ih => rw [List.cons_append, List.cons_append, isBalancedFrom, isBalancedFrom, ih]

theorem isBalanced_wrap (h : Nested '(' ')' (fun _ => True) inside) (left right : Text) :
    isBalanced (left ++ '(' :: (inside ++ ')' :: right)) =
      isBalanced (left ++ (inside ++ right)) := by
  refine isBalancedFrom_append_congr (fun depth => ?_) left
  rw [h.isBalancedFrom_append]
  simp [isBalancedFrom, depthAfter, h.isBalancedFrom_append]

theorem Wraps.isBalanced_eq (h : Wraps t u) : isBalanced u = isBalanced t := by
  obtain ⟨left, right, hinside⟩ := h
  exact isBalanced_wrap hinside left right

theorem Wraps.withoutParentheses_eq (h : Wraps t u) :
    withoutParentheses u = withoutParentheses t := by
  obtain ⟨left, right, -⟩ := h
  simp [withoutParentheses]

theorem isBalanced_of_wraps (h : Relation.ReflTransGen Wraps t u) :
    isBalanced u = isBalanced t := by
  induction h with
  | refl => rfl
  | tail _ hlast ih => exact hlast.isBalanced_eq.trans ih

theorem withoutParentheses_of_wraps (h : Relation.ReflTransGen Wraps t u) :
    withoutParentheses u = withoutParentheses t := by
  induction h with
  | refl => rfl
  | tail _ hlast ih => exact hlast.withoutParentheses_eq.trans ih

theorem groupFactorials_wraps (before : Text) (h : isBalanced (before.reverse ++ rest) = true) :
    Relation.ReflTransGen Wraps (before.reverse ++ rest) (groupFactorials before rest) := by
  fun_induction groupFactorials before rest with
  | case1 before => simpa using Relation.ReflTransGen.refl
  | case2 before c rest hc ih =>
    have hparts := operandBefore_append before
    have hinside : Nested '(' ')' (fun _ => True) ((operandBefore before).1.reverse ++ [c]) :=
      (nested_operandBefore h).append (.char (by simp [hc.1]) (by simp [hc.1]) trivial (.nil _))
    have hstep := Wraps.wrap (operandBefore before).2.reverse rest hinside
    have hbefore : before.reverse ++ c :: rest =
        (operandBefore before).2.reverse ++ ((operandBefore before).1.reverse ++ [c] ++ rest) := by
      conv_lhs => rw [← hparts]
      simp
    rw [hbefore] at h ⊢
    have hafter : (')' :: '!' :: ((operandBefore before).1 ++ '(' ::
        (operandBefore before).2)).reverse ++ rest =
          (operandBefore before).2.reverse ++ '(' ::
            ((operandBefore before).1.reverse ++ [c] ++ ')' :: rest) := by
      simp [hc.1]
    rw [hafter] at ih
    exact .head hstep (ih (hstep.isBalanced_eq.trans h))
  | case3 before c rest hc ih => simpa using ih (by simpa using h)

theorem groupPowers_wraps (before : Text) (h : isBalanced (before.reverse ++ rest) = true) :
    Relation.ReflTransGen Wraps (before.reverse ++ rest) (groupPowers before rest) := by
  fun_induction groupPowers before rest with
  | case1 before => simpa using Relation.ReflTransGen.refl
  | case2 before c rest hc ih =>
    have hnext : isBalanced ((c :: before).reverse ++ rest) = true := by simpa using h
    have hexponent : Nested '(' ')' (fun _ => True) (exponentAfter rest).1 :=
      nested_exponentAfter hnext
    have hinside : Nested '(' ')' (fun _ => True)
        ((operandBefore before).1.reverse ++ c :: (exponentAfter rest).1) :=
      (nested_operandBefore h).append (.char (by simp [hc.1]) (by simp [hc.1]) trivial hexponent)
    have hstep := Wraps.wrap (operandBefore before).2.reverse (exponentAfter rest).2 hinside
    have hbefore : before.reverse ++ c :: rest =
        (operandBefore before).2.reverse ++
          ((operandBefore before).1.reverse ++ c :: (exponentAfter rest).1 ++
            (exponentAfter rest).2) := by
      conv_lhs => rw [← operandBefore_append before, ← exponentAfter_append rest]
      simp
    rw [hbefore] at h ⊢
    have hafter : (c :: ((operandBefore before).1 ++ '(' :: (operandBefore before).2)).reverse ++
        ((exponentAfter rest).1 ++ ')' :: (exponentAfter rest).2) =
          (operandBefore before).2.reverse ++ '(' ::
            ((operandBefore before).1.reverse ++ c :: (exponentAfter rest).1 ++ ')' ::
              (exponentAfter rest).2) := by
      simp
    rw [hafter] at ih
    exact .head hstep (ih (hstep.isBalanced_eq.trans h))
  | case3 before c rest hc ih => simpa using ih (by simpa using h)

end Wrapping

/-- The second text is the first one with parentheses put in, with plus signs in front of some of
these, and with stars between groups. -/
inductive Insertion : Text → Text → Prop
  | nil : Insertion [] []
  | keep (c : Char) {t u : Text} (h : Insertion t u) : Insertion (c :: t) (c :: u)
  | opening {t u : Text} (h : Insertion t u) : Insertion t ('(' :: u)
  | closing {t u : Text} (h : Insertion t u) : Insertion t (')' :: u)
  | plus {t u : Text} (h : Insertion t u) : Insertion t ('+' :: '(' :: u)
  | star {t u : Text} (h : Insertion t (')' :: '(' :: u)) : Insertion t (')' :: '*' :: '(' :: u)

namespace Insertion

variable {t u left right : Text}

theorem of_close (h : Insertion (left ++ ')' :: right) u) : Insertion (left ++ right) u := by
  generalize ht : left ++ ')' :: right = t at h
  induction h generalizing left with
  | nil => simp at ht
  | keep c h ih =>
    cases left with
    | nil =>
      obtain ⟨rfl, rfl⟩ := List.cons.inj ht
      exact .closing h
    | cons d left =>
      obtain ⟨rfl, hrest⟩ := List.cons.inj ht
      exact .keep d (ih hrest)
  | opening _ ih => exact .opening (ih ht)
  | closing _ ih => exact .closing (ih ht)
  | plus _ ih => exact .plus (ih ht)
  | star _ ih => exact .star (ih ht)

theorem star_append (h : Insertion t (left ++ ')' :: '(' :: right)) :
    Insertion t (left ++ ([')', '*', '('] ++ right)) := by
  generalize hu : left ++ ')' :: '(' :: right = u at h
  induction h generalizing left with
  | nil => simp at hu
  | @keep c t u h ih =>
    cases left with
    | nil =>
      obtain ⟨rfl, rfl⟩ := List.cons.inj hu
      exact .star (.keep ')' h)
    | cons d left =>
      obtain ⟨rfl, hrest⟩ := List.cons.inj hu
      exact .keep d (ih hrest)
  | opening _ ih =>
    cases left with
    | nil => simp at hu
    | cons d left =>
      obtain ⟨rfl, hrest⟩ := List.cons.inj hu
      exact .opening (ih hrest)
  | closing h ih =>
    cases left with
    | nil =>
      obtain ⟨-, rfl⟩ := List.cons.inj hu
      exact .star (.closing h)
    | cons d left =>
      obtain ⟨rfl, hrest⟩ := List.cons.inj hu
      exact .closing (ih hrest)
  | plus _ ih =>
    match left with
    | [] => simp at hu
    | [d] => simp at hu
    | d :: e :: left =>
      simp only [List.cons_append, List.cons.injEq] at hu
      obtain ⟨rfl, rfl, hrest⟩ := hu
      exact .plus (ih hrest)
  | @star t u _ ih =>
    match left with
    | [] => simp at hu
    | [d] => simp at hu
    | [d, e] => simp at hu
    | d :: e :: f :: left =>
      simp only [List.cons_append, List.cons.injEq] at hu
      obtain ⟨rfl, rfl, rfl, hrest⟩ := hu
      have hbefore : ')' :: '(' :: left ++ ')' :: '(' :: right = ')' :: '(' :: u := by
        rw [← hrest]; rfl
      exact .star (ih hbefore)

end Insertion

section Negatives

variable {t before rest : Text}

theorem opening_cases (p : Option Char) : opening p = ['('] ∨ opening p = ['(', '+'] := by
  cases p with
  | none => exact .inl rfl
  | some c =>
    rw [opening]
    split
    · exact .inl rfl
    · exact .inr rfl

theorem exists_groupNegatives (before rest : Text) :
    ∃ after, groupNegatives before rest = before.reverse ++ after ∧ Insertion rest after := by
  fun_induction groupNegatives before rest with
  | case1 before => exact ⟨[], by simp, .nil⟩
  | case2 before c rest hc ih =>
    obtain ⟨after, hafter, hinsertion⟩ := ih
    have hterm : Insertion (c :: rest) (c :: after) := by
      rw [← termAfter_append rest]
      exact .keep c hinsertion.of_close
    refine ⟨(opening before.head?).reverse ++ c :: after, by simp [hafter], ?_⟩
    rcases opening_cases before.head? with ho | ho
    · rw [ho]
      exact .opening hterm
    · rw [ho]
      exact .plus hterm
  | case3 before c rest hc ih =>
    obtain ⟨after, hafter, hinsertion⟩ := ih
    exact ⟨c :: after, by simp [hafter], .keep c hinsertion⟩

theorem scopeNegatives_insertion (t : Text) : Insertion t (scopeNegatives t) := by
  obtain ⟨after, hafter, hinsertion⟩ := exists_groupNegatives [] t
  rw [List.reverse_nil, List.nil_append] at hafter
  rw [scopeNegatives, hafter]
  exact replacePair_induction (P := Insertion t) (fun _ _ h => h.star_append) hinsertion

theorem isBalanced_groupNegatives (before : Text) (h : isBalanced (before.reverse ++ rest) = true) :
    isBalanced (groupNegatives before rest) = true := by
  fun_induction groupNegatives before rest with
  | case1 before => simpa using h
  | case2 before c rest hc ih =>
    refine ih ?_
    have hnext : isBalanced ((c :: before).reverse ++ rest) = true := by simpa using h
    have hterm : Nested '(' ')' (fun _ => True) (c :: (termAfter rest).1) :=
      .char (by simp [hc.1]) (by simp [hc.1]) trivial (nested_termAfter hnext)
    have hwrap (left : Text) :
        isBalanced (left ++ '(' :: (c :: (termAfter rest).1 ++ ')' :: (termAfter rest).2)) =
          isBalanced (left ++ (c :: rest)) := by
      rw [isBalanced_wrap hterm, List.cons_append, termAfter_append]
    rcases opening_cases before.head? with ho | ho
    · rw [ho]
      simpa using (hwrap before.reverse).trans h
    · have hplus : isBalanced (before.reverse ++ ['+'] ++ c :: rest) =
          isBalanced (before.reverse ++ c :: rest) :=
        isBalancedFrom_congr (by simp [parentheses]) 0
      rw [ho]
      simpa using ((hwrap (before.reverse ++ ['+'])).trans hplus).trans h
  | case3 before c rest hc ih => exact ih (by simpa using h)

theorem isBalanced_scopeNegatives (h : isBalanced t = true) :
    isBalanced (scopeNegatives t) = true := by
  refine replacePair_induction (P := fun u => isBalanced u = true) (fun left right hu => ?_)
    (isBalanced_groupNegatives [] h)
  have hstar : isBalanced (left ++ ([')', '*', '('] ++ right)) =
      isBalanced (left ++ ')' :: '(' :: right) :=
    isBalancedFrom_congr (by simp [parentheses]) 0
  exact hstar.trans hu

end Negatives

end Abacus
