import Abacus.Proofs.Canonical.Grouped
import Abacus.Proofs.Reading.Meaning

/-! What becomes of a canonical text that is read once more. Tidying leaves it as it is, but for a
text that is an underscore and nothing else. Of the grouping only a minus at its start is left to
do, and the parentheses around all of it are taken off, so the third canonical text in a row is the
last one. -/

namespace Abacus

section Phrases

variable {v : Vocabulary} {p q a b : Char} {t n rest after : Text} {items : List Item}

/-- A minus begins a level or stands after an operand. -/
def MinusPlace (a b : Char) : Prop := b = '-' → a = '(' ∨ a = ')'

theorem MayFollow.settled (h : MayFollow a b) (hminus : MinusPlace a b)
    (hb : isSign b = true ∨ b = '(' ∨ b = ')') : Settled a b := by
  refine ⟨h.1, fun ha => ?_⟩
  rcases hb with hs | rfl | rfl
  · obtain rfl := h.minus ha hs
    rcases hminus rfl with rfl | rfl
    · exact .inr (.inl (by decide))
    · exact absurd ha (by decide)
  · exact .inl rfl
  · refine .inr (.inr ⟨rfl, ?_⟩)
    by_contra hne
    exact h.ended (.inl rfl) (.inl hne) ha

theorem ending_of_not_mem (hq : q = ')' ∨ isSign q = true) (hended : q ∉ unaryPlaces) :
    q ∈ [')', '!'] := by
  rcases hq with rfl | hs
  · simp
  · simp only [isSign, List.contains_iff_mem, List.mem_cons, List.not_mem_nil, or_false] at hs
    rcases hs with rfl | rfl | rfl | rfl | rfl | rfl | rfl
    · simp
    all_goals exact absurd (by decide) hended

/-- A text whose characters, points and numbers tidying leaves as they are. -/
structure IsKeptText (t : Text) : Prop where
  canonical : ∀ c ∈ t, IsCanonical c
  points : List.IsChain BeforeOperand t
  numbers : checkNumbers 0 false 0 t = .ok ()

namespace IsKeptText

theorem tail {c : Char} (h : IsKeptText (c :: t)) (hc : isOperandCharacter c = false) :
    IsKeptText t :=
  ⟨fun d hd => h.canonical d (List.mem_cons_of_mem _ hd), h.points.tail,
    checkNumbers_push hc h.numbers⟩

theorem right (h : IsKeptText (t ++ rest))
    (hrest : ∀ c ∈ rest.head?, isOperandCharacter c = false) : IsKeptText rest := by
  obtain ⟨-, position, inWord, points, hnumbers⟩ := checkNumbers_append h.numbers
  exact ⟨fun c hc => h.canonical c (List.mem_append_right _ hc), h.points.right_of_append,
    checkNumbers_reset hrest hnumbers⟩

theorem isKept (h : IsKeptText (t ++ rest)) (hvalue : IsValue v t) (hne : rest ≠ [])
    (hrest : ∀ c ∈ rest.head?, isOperandCharacter c = false) : IsKept v t := by
  refine ⟨hvalue.1, hvalue.2, fun c hc => h.canonical c (List.mem_append_left _ hc), ?_,
    (checkNumbers_append h.numbers).1⟩
  obtain ⟨c, rest, rfl⟩ := List.exists_cons_of_ne_nil hne
  obtain ⟨hleft, -, hlink⟩ := List.isChain_append.mp h.points
  refine List.isChain_append.mpr ⟨hleft, .singleton _, fun x hx y _ he => ?_⟩
  have hspecial := hlink x hx c rfl he
  rcases (h.canonical c (by simp)).1 with hc | hc
  · exact absurd (hrest c rfl) (by simp [isOperandCharacter, hc])
  · rw [hspecial] at hc
    cases hc

end IsKeptText

/-- The layout of a canonical text whose runs are kept is that of a text that tidying leaves as it
is. -/
theorem Laid.phrased (h : Laid ((Rules.canonical v).inf (.following MinusPlace)) p items q)
    (hfull : .group [] ∉ items) (hne : after ≠ [])
    (hafter : ∀ c ∈ after.head?, isOperandCharacter c = false ∧ c ≠ '(')
    (hkept : IsKeptText (textOf items ++ after)) : Laid (.phrased v) p items q := by
  induction h generalizing after with
  | nil p => exact .nil p
  | sign hs hf _ ih =>
    rw [textOf_sign, List.cons_append] at hkept
    exact .sign hs (hf.1.settled hf.2 (.inl hs))
      (ih (fun hm => hfull (List.mem_cons_of_mem _ hm)) hne hafter
        (hkept.tail (not_operand_of_sign hs)))
  | run hf ht hrest ih =>
    have hplain := hrest.imp (s := .plain) (fun _ _ hf => hf.1.1) (fun _ ht => ht.2)
      (fun _ _ => trivial) fun _ _ hc => hc.2
    have hclose := hplain.head_close hafter
    rw [textOf_run, List.append_assoc] at hkept
    exact .run (hf.1.settled hf.2 (.inr (.inl rfl)))
      (hkept.isKept ht.1 (by simp [hne]) fun c hc => (hclose c hc).1)
      (ih (fun hm => hfull (List.mem_cons_of_mem _ hm)) hne hafter
        (hkept.right fun c hc => (hclose c hc).1))
  | @group _ _ _ inner _ hf hg hinner hend _ ihinner ih =>
    simp only [textOf_group, List.cons_append, List.append_assoc] at hkept
    have hin := hkept.tail rfl
    have hinside : inner ≠ [] ∧ .sign ',' ∉ inner :=
      ⟨fun he => hfull (by simp [he]), commas_eq_zero.mp hg.1.2⟩
    exact .group (hf.1.settled hf.2 (.inr (.inl rfl))) hinside
      (ihinner hg.1.1.2 (by simp) (by simp [isOperandCharacter]) hin)
      (hend.1.settled hend.2 (.inr (.inr rfl)))
      (ih (fun hm => hfull (List.mem_cons_of_mem _ hm)) hne hafter
        ((hin.right (by simp [isOperandCharacter])).tail rfl))
  | call hf hc hinner hend _ ihinner ih =>
    obtain ⟨⟨hcalled, hcompact, hcount⟩, -⟩ := hc
    simp only [textOf_call, List.cons_append, List.append_assoc] at hkept
    have hin := (hkept.right (by simp [isOperandCharacter])).tail rfl
    exact .call (hf.1.settled hf.2 (.inr (.inl rfl))) ⟨hcalled.2, hcount⟩
      (ihinner hcompact.2 (by simp) (by simp [isOperandCharacter]) hin)
      (hend.1.settled hend.2 (.inr (.inr rfl)))
      (ih (fun hm => hfull (List.mem_cons_of_mem _ hm)) hne hafter
        ((hin.right (by simp [isOperandCharacter])).tail rfl))

theorem dropPlus_not_point (h : ∀ c ∈ t.getLast?, c ≠ '.') :
    ∀ c ∈ (dropPlus t).getLast?, c ≠ '.' := by
  have hkept : KeptBy leadingPairs fun t => ∀ c ∈ t.getLast?, c ≠ '.' := by
    intro e he left right h
    cases right with
    | nil =>
      simp only [leadingPairs, List.mem_cons, List.not_mem_nil, or_false] at he
      rcases he with rfl | rfl | rfl <;> simp
    | cons x right =>
      rw [List.getLast?_append_of_ne_nil _ (by simp)] at h ⊢
      rw [List.getLast?_append_of_ne_nil _ (by simp)]
      rwa [List.getLast?_cons_cons, List.getLast?_cons_cons] at h
  refine dropPlus_induction hkept (fun t ht => ?_) h
  cases t with
  | nil => simp
  | cons x t => exact ht

theorem settled_not_point (h : InOrder v AfterNegatives t) :
    ∀ c ∈ (settled t).getLast?, c ≠ '.' := by
  refine completePoints_cases (Q := fun t => ∀ c ∈ t.getLast?, c ≠ '.') keptBy_settling
    (fun t ht => ?_) (fun t hlast _ => ?_) (collapseSigns_induction keptBy_settling h)
  · rintro c hc rfl
    obtain ⟨r, rfl⟩ := List.getLast?_eq_some_iff.mp hc
    have hchain := ht.afterDigit.tail
    rw [List.append_assoc] at hchain
    exact absurd (isChain_pair hchain rfl) (by decide)
  · rintro c hc rfl
    exact hlast hc

theorem isKeptText_of_canonical (hv : v.Identified) (h : canonical v t = .ok n) :
    IsKeptText (n ++ [')']) := by
  obtain ⟨t', u, ht', hsettles, hdropped, hwritten, hchars⟩ := exists_written_of_canonical hv h
  obtain ⟨hn, hnumbers, -⟩ := hwritten.eq hv hdropped
  refine ⟨?_, ?_, checkNumbers_eq_ok_append hnumbers (by simp [isOperandCharacter]) rfl⟩
  · exact List.forall_mem_append.mpr ⟨hchars, List.forall_mem_singleton.mpr ⟨.inr rfl, rfl⟩⟩
  · rw [hn]
    refine List.isChain_append.mpr ⟨(isChain_dropPoints u).imp fun a b hab ha => ?_, .singleton _,
      fun x hx y _ he => ?_⟩
    · simpa [ha] using hab
    · rw [getLast?_dropPoints, hsettles.result] at hx
      exact absurd he (dropPlus_not_point (settled_not_point ht') x hx)

/-- A canonical text that is no lone underscore is one that tidying leaves as it is. -/
theorem exists_phrase_of_canonical (hv : v.Identified) (h : canonical v t = .ok n)
    (hname : n ≠ ['_']) :
    ∃ items, textOf items = n ∧ Normal v items ∧ Form items ∧ IsPhrase v items := by
  obtain ⟨hne, items, rfl, hnormal, -, -, hneat⟩ := exists_normal_of_canonical hv h
  have hitems : items ≠ [] := by
    rintro rfl
    exact hne textOf_nil
  obtain ⟨q, hq, hend⟩ := hnormal.laid
  obtain ⟨m, hm⟩ := hnormal.isLevel.loose
  have hchain : List.IsChain MinusPlace ('(' :: (textOf items ++ [')'])) := by
    rw [← List.cons_append]
    refine List.isChain_append.mpr ⟨hneat.imp fun a b hab hb => .inl (hab.1 hb), .singleton _,
      fun x _ y hy he => ?_⟩
    obtain rfl : ')' = y := by simpa using hy
    exact absurd he (by decide)
  obtain ⟨q', hminus, hlast⟩ := hm.of_isChain (R := MinusPlace) (fun _ he => absurd he (by decide))
    (fun _ _ => .inr rfl) hchain
  obtain rfl := hq.ending_unique hminus
  refine ⟨items, rfl, hnormal, hnormal.form hitems, hitems, ?_, commas_eq_zero.mp hnormal.noComma,
    q, ?_, ?_⟩
  · rintro rfl
    exact hname (by simp)
  · exact ending_of_not_mem (hq.ending_eq hitems) (hq.ended hend hitems)
  · exact (hq.inf hminus).phrased hnormal.shape.2 (by simp) (by simp [isOperandCharacter])
      (isKeptText_of_canonical hv h)

/-- Tidying leaves a canonical text as it is. A text of signs without effect around an underscore,
such as `.+_`, is the exception: its canonical text is refused. -/
theorem tidy_of_canonical (hv : v.Identified) (h : canonical v t = .ok n) (hname : n ≠ ['_']) :
    tidy v n = .ok n := by
  obtain ⟨items, rfl, -, -, hphrase⟩ := exists_phrase_of_canonical hv h hname
  exact hphrase.tidy hv

end Phrases

section Levels

variable {f : List Item → List Item} {r : Rules} {v : Vocabulary} {p q : Char} {items : List Item}

theorem Laid.deep_eq_self (h : Laid r p items q) (hgroup : ∀ g, r.group g → f g = g)
    (hcall : ∀ n g, r.call n g → f g = g) : Abacus.deep f items = items := by
  induction h with
  | nil => exact deep_nil f
  | sign _ _ _ ih => rw [deep_sign, ih]
  | run _ _ _ ih => rw [deep_run, ih]
  | group _ hg _ _ _ ihinner ih => rw [deep_group, ihinner, hgroup _ hg, ih]
  | call _ hc _ _ _ ihinner ih => rw [deep_call, ihinner, hcall _ _ hc, ih]

namespace AfterNegatives

variable (h : AfterNegatives items)
include h

theorem enfoldFactorials : enfoldFactorials true [] items = items := by
  cases h with
  | factorial hheld => simp [enfoldFactorials_operands hheld, Abacus.enfoldFactorials]
  | power hb he => exact enfoldFactorials_of_not_mem (by simp [hb.sign_not_mem, he.sign_not_mem])
  | other hf _ _ => exact enfoldFactorials_of_not_mem hf

theorem enfoldPowers : enfoldPowers true [] items = items := by
  cases h with
  | factorial hheld => exact enfoldPowers_of_not_mem (by simp [hheld.sign_not_mem])
  | @power base exponent hb he =>
    have hexponent : exponentItems exponent = (exponent, []) := by
      rw [exponentItems_of_ne fun hhead => he.sign_not_mem '-' (List.mem_of_mem_head? hhead),
        itemsBefore_operands he]
    rw [enfoldPowers_operands hb, Abacus.enfoldPowers, if_neg (by simp [hexponent]),
      enfoldPowers_of_not_mem (he.sign_not_mem '^')]
    simp
  | other _ hp _ => exact enfoldPowers_of_not_mem hp

theorem enfoldNegatives : enfoldNegatives (some '(') items = items := by
  by_cases hminus : .sign '-' ∈ items
  · obtain ⟨x, rest, rfl⟩ := List.exists_cons_of_ne_nil (List.ne_nil_of_mem hminus)
    obtain rfl : .sign '-' = x := (List.mem_cons.mp hminus).resolve_right h.minus
    have hrest : .sign '-' ∉ rest := h.minus
    rw [Abacus.enfoldNegatives, if_neg (by simp), enfoldNegatives_of_not_mem hrest]
  · exact enfoldNegatives_of_not_mem hminus

end AfterNegatives

section Normal

variable (h : Normal v items)
include h

theorem Normal.deep_eq_self {f : List Item → List Item} (hf : ∀ g, AfterNegatives g → f g = g) :
    deep f items = items := by
  obtain ⟨q, hq, -⟩ := h.laid
  exact hq.deep_eq_self (fun g hg => hf g hg.1.1) fun _ g hc => hf g hc.2.1.1

theorem Normal.apartNegatives : apartNegatives items = enfoldNegatives none items := by
  rw [Abacus.apartNegatives, h.deep_eq_self fun _ => AfterNegatives.enfoldNegatives]

/-- Of a canonical layout only the term of a minus at its start is grouped, or all of it once
more. -/
theorem Normal.regrouped (hform : Form items) : regrouped items = enfoldNegatives none items ∨
    enfoldNegatives none items = items ∧ regrouped items = [.group items] := by
  have hfactorials : deep (enfoldFactorials true []) items = items := h.deep_eq_self fun _ =>
    AfterNegatives.enfoldFactorials
  have hpowers : deep (enfoldPowers true []) items = items := h.deep_eq_self fun _ =>
    AfterNegatives.enfoldPowers
  have hgroup : Abacus.apartNegatives [.group items] = [.group items] := by
    rw [Abacus.apartNegatives,
      deep_singleton_group (h.deep_eq_self fun _ => AfterNegatives.enfoldNegatives)
        h.shape.1.enfoldNegatives, enfoldNegatives_single rfl]
  have hunsigned (hf : .sign '!' ∉ items) (hp : .sign '^' ∉ items) : Abacus.regrouped items =
      enfoldNegatives none items := by
    rw [Abacus.regrouped, apartFactorials, hfactorials, enfoldFactorials_of_not_mem hf,
      List.nil_append, apartPowers, hpowers, enfoldPowers_of_not_mem hp, List.nil_append,
      h.apartNegatives]
  have hoperand {x : Item} (hx : x.isOperand = true) (c : Char) : .sign c ≠ x :=
    fun he => not_sign_of_isOperand hx he.symm
  cases hform with
  | plain hplain =>
    exact .inl (hunsigned (hplain.sign_not_mem (by decide)) (hplain.sign_not_mem (by decide)))
  | negative hplain =>
    exact .inl
      (hunsigned (by simpa using hplain.sign_not_mem (by decide))
        (by simpa using hplain.sign_not_mem (by decide)))
  | @factorial x hx =>
    refine .inr ⟨enfoldNegatives_of_not_mem (by simp [hoperand hx]), ?_⟩
    rw [Abacus.regrouped, apartFactorials, hfactorials, enfoldFactorials_operand hx,
      Abacus.enfoldFactorials, if_pos (by simp), enfoldFactorials_nil, List.nil_append,
      List.singleton_append, apartPowers, deep_singleton_group hpowers h.shape.1.enfoldPowers,
      enfoldPowers_single rfl, hgroup]
  | @power x y hx hy =>
    have hexponent : exponentItems [y] = ([y], []) := (exponentItems_operand hy (by simp)).1
    refine .inr ⟨enfoldNegatives_of_not_mem (by simp [hoperand hx, hoperand hy]), ?_⟩
    rw [Abacus.regrouped, apartFactorials, hfactorials,
      enfoldFactorials_of_not_mem (by simp [hoperand hx, hoperand hy]), List.nil_append,
      apartPowers, hpowers, enfoldPowers_operand hx, Abacus.enfoldPowers, if_pos (by simp),
      hexponent, enfoldPowers_nil, List.nil_append, List.singleton_append, hgroup]

end Normal

theorem Plain.first (h : Plain items) : ∃ x rest, items = x :: rest ∧ x.isOperand = true ∧
    ∀ y ∈ rest.head?, ∃ c ∈ ['+', '*', '/'], y = .sign c := by
  cases h with
  | @single x hx => exact ⟨x, [], rfl, hx, by simp⟩
  | @cons x s rest hx hs _ =>
    exact ⟨x, .sign s :: rest, rfl, hx, fun y hy => ⟨s, hs, (Option.some.inj hy).symm⟩⟩

/-- A minus at the start of a level in its final form is put into a group with the operand after it;
nothing else is. -/
theorem Form.enfoldNegatives (h : Form items) :
    enfoldNegatives none items = items ∨ ∃ x rest, x.isOperand = true ∧
    items = .sign '-' :: x :: rest ∧
    enfoldNegatives none items = .group [.sign '-', x] :: rest := by
  have hoperand {x : Item} (hx : x.isOperand = true) : .sign '-' ≠ x :=
    fun he => not_sign_of_isOperand hx he.symm
  cases h with
  | plain hplain => exact .inl (enfoldNegatives_of_not_mem (hplain.sign_not_mem (by decide)))
  | factorial hx => exact .inl (enfoldNegatives_of_not_mem (by simp [hoperand hx]))
  | power hx hy => exact .inl (enfoldNegatives_of_not_mem (by simp [hoperand hx, hoperand hy]))
  | @negative items hplain =>
    obtain ⟨x, rest, rfl, hx, hrest⟩ := hplain.first
    have hminus : .sign '-' ∉ rest :=
      fun hm => hplain.sign_not_mem (c := '-') (by decide) (List.mem_cons_of_mem _ hm)
    refine .inr ⟨x, rest, hx, rfl, ?_⟩
    rw [Abacus.enfoldNegatives, if_pos (by simp), termItems_first hx hrest,
      enfoldNegatives_of_not_mem hminus]
    rfl

theorem IsPhrase.group (h : IsPhrase v items) : IsPhrase v [.group items] := by
  obtain ⟨q, hq, hlaid⟩ := h.laid
  refine ⟨by simp, by simp, by simp, ')', by simp, ?_⟩
  exact .group (settled_operand (by decide)) ⟨h.ne_nil, h.noComma⟩ hlaid
    (settled_sign hq (by decide)) (.nil _)

theorem IsPhrase.enfoldNegatives (h : IsPhrase v items) (hform : Form items) :
    IsPhrase v (enfoldNegatives none items) := by
  obtain hself | ⟨x, rest, hx, rfl, hgrouped⟩ := hform.enfoldNegatives
  · rwa [hself]
  · rw [hgrouped]
    obtain ⟨q, hq, hlaid⟩ := h.laid
    obtain ⟨hsign, htail⟩ := hlaid.of_cons
    obtain ⟨hoperand, hrest⟩ := htail.of_cons
    rw [ending_of_isOperand hx] at hoperand hrest
    have hinner : Laid (.phrased v) '(' [.sign '-', x] ')' := hsign.append hoperand
    have hcomma := h.noComma
    simp only [List.mem_cons, not_or] at hcomma
    refine ⟨by simp, by simp, by simpa using hcomma.2.2, q, hq, ?_⟩
    exact .group (settled_operand (by decide)) ⟨by simp, by simp [hcomma.2.1]⟩ hinner
      (settled_sign (by simp) (by decide)) hrest

theorem IsPhrase.regrouped (h : IsPhrase v items) (hnormal : Normal v items) (hform : Form items) :
    IsPhrase v (regrouped items) := by
  obtain hgrouped | ⟨-, hgrouped⟩ := hnormal.regrouped hform
  · rw [hgrouped]
    exact h.enfoldNegatives hform
  · rw [hgrouped]
    exact h.group

theorem IsPhrase.scopeNegatives_eq (hv : v.Identified) (h : IsPhrase v items)
    (hnormal : Normal v items) (hform : Form items) :
    Abacus.scopeNegatives (textOf items) = textOf (Abacus.enfoldNegatives none items) := by
  rw [Abacus.scopeNegatives, groupNegatives_nil_textOf (h.loose hv), hnormal.apartNegatives]
  exact replacePair_of_tidied ((h.enfoldNegatives hform).tidied hv).tail.left_of_append (by decide)

theorem IsPhrase.of_group {inner : List Item} (h : IsPhrase v [.group inner]) :
    inner = [.run ['_']] ∨ IsPhrase v inner := by
  obtain ⟨q, hq, hlaid⟩ := h.laid
  cases hlaid with
  | @group _ m _ _ _ _ hgroup hinner hend _ =>
    have hended : m ∉ unaryPlaces := fun hm => by
      rcases hend.2 hm with hopen | hminus | ⟨-, rfl⟩
      · exact absurd hopen (by decide)
      · exact absurd hminus.1 (by decide)
      · exact absurd (hinner.ending_eq hgroup.1) (by decide)
    exact or_iff_not_imp_left.mpr fun hname =>
      ⟨hgroup.1, hname, hgroup.2, m, ending_of_not_mem (hinner.ending_eq hgroup.1) hended, hinner⟩

/-- The parentheses around all of a phrase are taken off, and what they hold is a phrase or an
underscore. -/
theorem IsPhrase.ungrouped (hv : v.Identified) (h : IsPhrase v items)
    (hname : withoutOuterGroups (textOf items) ≠ ['_']) :
    ∃ inner, withoutOuterGroups (textOf items) = textOf inner ∧ IsPhrase v inner := by
  -- by the length, since there may be parentheses inside of parentheses
  induction hn : (textOf items).length using Nat.strongRecOn generalizing items with
  | _ n ih =>
    subst hn
    by_cases hgroup : ∃ inner, items = [.group inner]
    · obtain ⟨inner, rfl⟩ := hgroup
      obtain rfl | hinner := h.of_group
      · exact absurd (by cbv) hname
      · rw [withoutOuterGroups_group (hinner.loose hv) hinner.ne_nil] at hname ⊢
        exact ih _ (by simp) hinner hname rfl
    · exact ⟨items, withoutOuterGroups_textOf (h.loose hv) fun inner he => hgroup ⟨inner, he⟩, h⟩

end Levels

section Canonical

variable {v : Vocabulary} {t n m n₁ n₂ n₃ : Text}

theorem tidy_underscore : tidy v ['_'] = .error (.onlyASign '_') := by
  rw [tidy, tidyFrom]
  rfl

/-- Reading a canonical text once more groups what a minus at its start applies to and takes off the
parentheses around all of it. That fails if an underscore is left, and in no other case. -/
theorem canonical_of_canonical (hv : v.Identified) (h : canonical v t = .ok n) : canonical v n =
    if withoutOuterGroups (scopeNegatives n) = ['_'] then .error (.onlyASign '_')
    else .ok (withoutOuterGroups (scopeNegatives n)) := by
  by_cases hname : n = ['_']
  · subst hname
    rw [if_pos (by cbv), canonical, tidy_underscore]
    rfl
  obtain ⟨items, rfl, hnormal, hform, hphrase⟩ := exists_phrase_of_canonical hv h hname
  have hgrouped := hphrase.regrouped hnormal hform
  have hungrouped : withoutOuterGroups (textOf (regrouped items)) =
      withoutOuterGroups (scopeNegatives (textOf items)) := by
    rw [hphrase.scopeNegatives_eq hv hnormal hform]
    obtain hsame | ⟨hsame, hgroup⟩ := hnormal.regrouped hform
    · rw [hsame]
    · rw [hgroup, withoutOuterGroups_group (hphrase.loose hv) hphrase.ne_nil, hsame]
  rw [← hungrouped, canonical, hphrase.tidy hv, ok_bind,
    hgrouped.scopeNegatives hv (hphrase.loose hv)]
  split
  · next hinner => rw [hinner, tidy_underscore]
  · next hinner =>
    obtain ⟨inner, htext, hphrase'⟩ := hgrouped.ungrouped hv hinner
    rw [htext, hphrase'.tidy hv]

/-- The parentheses that are taken off are those of the text or those of its one negative term, if
any are. -/
theorem withoutOuterGroups_scopeNegatives (hv : v.Identified) (h : canonical v t = .ok n)
    (hname : n ≠ ['_']) :
    withoutOuterGroups (scopeNegatives n) = withoutOuterGroups n ∨
      withoutOuterGroups (scopeNegatives n) = scopeNegatives n := by
  obtain ⟨items, rfl, hnormal, hform, hphrase⟩ := exists_phrase_of_canonical hv h hname
  have hloose := hphrase.loose hv
  rw [hphrase.scopeNegatives_eq hv hnormal hform]
  obtain hself | ⟨x, rest, -, rfl, hgrouped⟩ := hform.enfoldNegatives
  · exact .inl (by rw [hself])
  · by_cases hrest : rest = []
    · subst hrest
      exact .inl (by rw [hgrouped, withoutOuterGroups_group hloose hphrase.ne_nil])
    · refine .inr (withoutOuterGroups_textOf ((hphrase.enfoldNegatives hform).loose hv)
        fun inner he => hrest ?_)
      rw [hgrouped] at he
      exact (List.cons.inj he).2

theorem canonical_of_canonical_eq_ok_iff (hv : v.Identified) (h : canonical v t = .ok n) :
    canonical v n = .ok m ↔ m ≠ ['_'] ∧ withoutOuterGroups (scopeNegatives n) = m := by
  rw [canonical_of_canonical hv h]
  split
  · next hname =>
    rw [hname]
    simp [eq_comm]
  · next hname =>
    simp only [Except.ok.injEq, iff_and_self]
    rintro he rfl
    exact hname he

/-- The third canonical text in a row is the last one. -/
theorem canonical_thrice (hv : v.Identified) (h₁ : canonical v t = .ok n₁)
    (h₂ : canonical v n₁ = .ok n₂) (h₃ : canonical v n₂ = .ok n₃) : canonical v n₃ = .ok n₃ := by
  obtain ⟨hname₂, heq₂⟩ := (canonical_of_canonical_eq_ok_iff hv h₁).mp h₂
  obtain ⟨hname₃, heq₃⟩ := (canonical_of_canonical_eq_ok_iff hv h₂).mp h₃
  refine (canonical_of_canonical_eq_ok_iff hv h₃).mpr ⟨hname₃, ?_⟩
  obtain hsame | hgrouped := withoutOuterGroups_scopeNegatives hv h₂ hname₂
  · -- nothing was grouped, and there were no parentheses left to take off
    obtain rfl : n₂ = n₃ := by rw [← heq₃, hsame, ← heq₂, withoutOuterGroups_withoutOuterGroups]
    exact heq₃
  · obtain rfl : scopeNegatives n₂ = n₃ := hgrouped.symm.trans heq₃
    rw [scopeNegatives_scopeNegatives, heq₃]

/-- Only the third canonical text is the last one here. -/
example : let v := Vocabulary.standard
    canonical v ".+(-2*3)".toList = .ok "(-2*3)".toList ∧
    canonical v "(-2*3)".toList = .ok "-2*3".toList ∧
      canonical v "-2*3".toList = .ok "(-2)*3".toList ∧
      canonical v "(-2)*3".toList = .ok "(-2)*3".toList := by
  refine ⟨?_, ?_, ?_, ?_⟩ <;> with_unfolding_all rfl

end Canonical

end Abacus
