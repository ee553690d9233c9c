import Abacus.Proofs.Canonical.Scoped
import Abacus.Proofs.Text.TopLevel

/-! Texts that are in order: their runs are numbers and words, their calls have callable names, and
every level has its factorial, power or minus where it belongs. Grouping brings a tidy text into
order. -/

namespace Abacus

/-- A layout of numbers, words and calls that has every level in some form. -/
structure Sorted (v : Vocabulary) (level : List Item → Prop) (items : List Item) : Prop where
  shape : level items
  laid : ∃ q, Laid (.leveled IsAtom (IsCalled v) level) '(' items q

def InOrder (v : Vocabulary) (level : List Item → Prop) (t : Text) : Prop :=
  ∃ items, textOf items = t ∧ Sorted v level items

section Members

theorem mem_of_groupFactorials {before t : Text} {c : Char} (hc : c ∈ groupFactorials before t) :
    c ∈ before ∨ c ∈ t ∨ c = '(' ∨ c = ')' := by
  have hsplit (before : Text) : c ∈ before ↔
      c ∈ (operandBefore before).1 ∨ c ∈ (operandBefore before).2 := by
    rw [← List.mem_append, operandBefore, runWith_append]
  fun_induction groupFactorials before t with
  | case1 before => exact .inl (List.mem_reverse.mp hc)
  | case2 before c' rest hcond ih =>
    have := ih hc
    rw [hsplit before, hcond.1]
    simp only [List.mem_cons, List.mem_append] at this ⊢
    tauto
  | case3 before c' rest hcond ih =>
    have := ih hc
    simp only [List.mem_cons] at this ⊢
    tauto

theorem mem_of_groupPowers {before t : Text} {c : Char} (hc : c ∈ groupPowers before t) :
    c ∈ before ∨ c ∈ t ∨ c = '(' ∨ c = ')' := by
  have hsplit (before : Text) : c ∈ before ↔
      c ∈ (operandBefore before).1 ∨ c ∈ (operandBefore before).2 := by
    rw [← List.mem_append, operandBefore, runWith_append]
  have hexponent (t : Text) : c ∈ t ↔ c ∈ (exponentAfter t).1 ∨ c ∈ (exponentAfter t).2 := by
    rw [← List.mem_append, exponentAfter_append]
  fun_induction groupPowers before t with
  | case1 before => exact .inl (List.mem_reverse.mp hc)
  | case2 before c' rest hcond ih =>
    have := ih hc
    rw [hsplit before, List.mem_cons, hexponent rest]
    simp only [List.mem_cons, List.mem_append] at this ⊢
    tauto
  | case3 before c' rest hcond ih =>
    have := ih hc
    simp only [List.mem_cons] at this ⊢
    tauto

theorem mem_of_groupNegatives {before t : Text} {c : Char} (hc : c ∈ groupNegatives before t) :
    c ∈ before ∨ c ∈ t ∨ c = '(' ∨ c = ')' ∨ c = '+' := by
  have hterm (t : Text) : c ∈ t ↔ c ∈ (termAfter t).1 ∨ c ∈ (termAfter t).2 := by
    rw [← List.mem_append, termAfter_append]
  have hopening (p : Option Char) (h : c ∈ opening p) : c = '(' ∨ c = '+' := by
    have hall : ∀ c ∈ opening p, c = '(' ∨ c = '+' := by
      unfold opening
      split
      · simp
      · split <;> simp
    exact hall c h
  fun_induction groupNegatives before t with
  | case1 before => exact .inl (List.mem_reverse.mp hc)
  | case2 before c' rest hcond ih =>
    have := ih hc
    have hop := hopening before.head?
    rw [List.mem_cons, hterm rest]
    simp only [List.mem_cons, List.mem_append] at this ⊢
    tauto
  | case3 before c' rest hcond ih =>
    have := ih hc
    simp only [List.mem_cons] at this ⊢
    tauto

theorem mem_of_replacePair {a b : Char} {r t : Text} {c : Char} (hc : c ∈ replacePair a b r t) :
    c ∈ r ∨ c ∈ t := by
  refine replacePair_induction (P := fun u => ∀ c ∈ u, c ∈ r ∨ c ∈ t) (fun left right h c hc => ?_)
    (fun c hc => .inr hc) c hc
  simp only [List.mem_append, List.mem_cons] at h hc
  rcases hc with hc | hc | hc
  · exact h c (.inl hc)
  · exact .inl hc
  · exact h c (.inr (.inr (.inr hc)))

theorem mem_of_withoutOuterGroups {t : Text} {c : Char} (hc : c ∈ withoutOuterGroups t) :
    c ∈ t := by
  obtain ⟨n, hn⟩ := exists_outerGroups t
  rw [hn]
  exact List.mem_append_right _ (List.mem_append_left _ hc)

/-- The text with its groups written, as it is tidied again. -/
def withGroups (t : Text) : Text :=
  withoutOuterGroups (scopeNegatives (scopePowers (scopeFactorials t)))

theorem withGroups_forall {P : Char → Prop} (hP : P '(' ∧ P ')' ∧ P '+' ∧ P '*') {t : Text}
    (ht : ∀ c ∈ t, P c) : ∀ c ∈ withGroups t, P c := by
  intro c hc
  obtain ⟨hopen, hclose, hplus, hstar⟩ := hP
  rcases mem_of_replacePair (mem_of_withoutOuterGroups hc) with hc | hc
  · simp only [List.mem_cons, List.not_mem_nil, or_false] at hc
    rcases hc with rfl | rfl | rfl <;> assumption
  rcases mem_of_groupNegatives hc with hc | hc | rfl | rfl | rfl
  · cases hc
  · rcases mem_of_groupPowers hc with hc | hc | rfl | rfl
    · cases hc
    · rcases mem_of_groupFactorials hc with hc | hc | rfl | rfl
      · cases hc
      · exact ht c hc
      all_goals assumption
    all_goals assumption
  all_goals assumption

end Members

section Viability

variable {t u : Text}

theorem Viable.of_operator {x y : Char} (hx : x ∈ ['+', '-', '*', '/']) (h : Viable x y)
    (b : Char) : Viable b y := by
  simp only [List.mem_cons, List.not_mem_nil, or_false] at hx
  refine viable_of_ne ?_ ?_
  · rintro rfl
    have := h.factorial rfl
    rcases hx with rfl | rfl | rfl | rfl <;> exact absurd this (by decide)
  · rintro rfl
    have := h.close rfl
    rcases hx with rfl | rfl | rfl | rfl <;> exact absurd this (by decide)

theorem viable_operator (a : Char) {b : Char} (hb : b ∈ ['+', '-', '*', '/']) : Viable a b := by
  simp only [List.mem_cons, List.not_mem_nil, or_false] at hb
  rcases hb with rfl | rfl | rfl | rfl <;> exact viable_of_ne (by decide) (by decide)

/-- Collapsing signs hides no place where an operand is missing. -/
theorem viable_of_settled (h : List.IsChain Viable (settled t)) : List.IsChain Viable t := by
  by_contra hnot
  have hsign {a b x : Char} (ha : a ∈ ['+', '-', '*', '/']) (hb : b ∈ ['+', '-', '*', '/'])
      (hx : x ∈ ['+', '-', '*', '/']) {left right : Text}
      (hc : List.IsChain Viable (left ++ x :: right)) :
      List.IsChain Viable (left ++ a :: b :: right) := by
    obtain ⟨hl, hr, -⟩ := List.isChain_append.mp hc
    have hright : List.IsChain Viable (b :: right) := by
      cases right with
      | nil => exact .singleton b
      | cons y right =>
        obtain ⟨hxy, hright⟩ := List.isChain_cons_cons.mp hr
        exact .cons_cons (hxy.of_operator hx b) hright
    refine List.isChain_append.mpr ⟨hl, .cons_cons (viable_operator a hb) hright,
      fun y _ z hz => ?_⟩
    obtain rfl : a = z := by simpa using hz
    exact viable_operator y ha
  have hpoint {a : Char} (ha : a ∈ ['+', '-', '*', '/']) {left right : Text}
      (hc : List.IsChain Viable (left ++ a :: '0' :: '.' :: right)) :
      List.IsChain Viable (left ++ a :: '.' :: right) := by
    obtain ⟨hl, hr, -⟩ := List.isChain_append.mp hc
    refine List.isChain_append.mpr
      ⟨hl, .cons_cons (viable_of_ne (by decide) (by decide)) hr.tail.tail, fun y _ z hz => ?_⟩
    obtain rfl : a = z := by simpa using hz
    exact viable_operator y ha
  have hkept : KeptBy settlingPairs fun t => ¬ List.IsChain Viable t := by
    intro e he left right hnot hc
    refine hnot ?_
    simp only [settlingPairs, List.mem_cons, List.not_mem_nil, or_false] at he
    rcases he with rfl | rfl | rfl | rfl | rfl | rfl | rfl | rfl | rfl
    iterate 5 exact hsign (by decide) (by decide) (by decide) hc
    all_goals exact hpoint (by decide) hc
  refine completePoints_induction hkept (fun t ht hc => ht ?_)
    (collapseSigns_induction hkept hnot) h
  refine List.isChain_append.mpr ⟨hc, .singleton _, fun x _ y hy => ?_⟩
  obtain rfl : '.' = y := by simpa using hy
  exact viable_of_ne (by decide) (by decide)

theorem isChain_forall {α : Type} (pairs : List α) {R : α → Char → Char → Prop}
    (h : ∀ e ∈ pairs, List.IsChain (R e) t) : List.IsChain (fun a b => ∀ e ∈ pairs, R e a b) t := by
  induction t with
  | nil => exact .nil
  | cons a t ih =>
    cases t with
    | nil => exact .singleton a
    | cons b t =>
      exact .cons_cons (fun e he => (List.isChain_cons_cons.mp (h e he)).1)
        (ih fun e he => (List.isChain_cons_cons.mp (h e he)).2)

theorem isChain_of_checkPairs (h : checkPairs t = .ok ()) :
    List.IsChain (fun a b => (a, b) ∉ forbiddenPairs) t := by
  have hnone : forbiddenPairs.find? (fun p => hasPair p.1 p.2 t) = none := by
    simp only [checkPairs] at h
    split at h
    · cases h
    · assumption
  have hall := isChain_forall forbiddenPairs (R := fun p a b => ¬ (a = p.1 ∧ b = p.2)) (t := t)
    fun p hp => hasPair_eq_false_iff.mp (by simpa using List.find?_eq_none.mp hnone p hp)
  exact hall.imp fun a b h hab => h (a, b) hab ⟨rfl, rfl⟩

theorem viable_of_not_forbidden {a b : Char} (ha : IsAllowed a) (h : (a, b) ∉ forbiddenPairs) :
    Viable a b := by
  constructor
  · rintro rfl
    rcases ha.cases with hop | hs | rfl | rfl
    · exact .inr (.inr hop)
    · simp only [isSign, List.contains_iff_mem, List.mem_cons, List.not_mem_nil, or_false] at hs
      rcases hs with rfl | rfl | rfl | rfl | rfl | rfl | rfl
      · exact .inr (.inl rfl)
      all_goals exact absurd (by decide) h
    · exact absurd (by decide) h
    · exact .inl rfl
  · rintro rfl
    rcases ha.cases with hop | hs | rfl | rfl
    · exact .inr (.inr (.inr hop))
    · simp only [isSign, List.contains_iff_mem, List.mem_cons, List.not_mem_nil, or_false] at hs
      rcases hs with rfl | rfl | rfl | rfl | rfl | rfl | rfl
      · exact .inr (.inr (.inl rfl))
      all_goals exact absurd (by decide) h
    · exact .inl rfl
    · exact .inr (.inl rfl)

theorem not_last_of_checkEnds (h : checkEnds t = .ok ()) :
    ∀ c ∈ t.getLast?, c ∉ ['+', '-', '*', '/', ',', '^'] := by
  intro c hc hmem
  have hsome : t.getLast?.filter ['+', '-', '*', '/', ',', '^'].contains = some c := by
    rw [hc]
    exact Option.filter_some_pos (by simpa using hmem)
  simp [checkEnds, hsome] at h

theorem not_first_of_checkEnds (h : checkEnds t = .ok ()) :
    ∀ c ∈ t.head?, c ∉ ['*', '/', '^', '!', ','] := by
  intro c hc hmem
  have hsome : t.head?.filter ['*', '/', '^', '!', ','].contains = some c := by
    rw [hc]
    exact Option.filter_some_pos (by simpa using hmem)
  simp only [checkEnds, hsome] at h
  split at h <;> cases h

/-- A text that can be settled lacks no operand before a factorial or at the end of a group. -/
theorem Settles.viable (h : Settles t u) (ht : ∀ c ∈ t, IsAllowed c) :
    List.IsChain Viable ('(' :: (t ++ [')'])) := by
  have hmiddle : List.IsChain Viable t :=
    viable_of_settled ((isChain_of_checkPairs h.pairs).imp_of_mem_imp fun a b ha _ hab =>
      viable_of_not_forbidden (h.settled_allowed a ha) hab)
  have hfirst : ∀ c ∈ t.head?, Viable '(' c := fun c hc =>
    ⟨fun hf => absurd (by rw [hf]; decide) (not_first_of_checkEnds h.ends c hc), fun _ => .inl rfl⟩
  have hlast : ∀ c ∈ t.getLast?, Viable c ')' := fun c hc => by
    have hnot := not_last_of_checkEnds h.ends c hc
    refine viable_of_not_forbidden (ht c (List.mem_of_getLast? hc)) fun hmem => hnot ?_
    revert hmem
    simp [forbiddenPairs]
    tauto
  cases t with
  | nil => exact .cons_cons ⟨fun h => absurd h (by decide), fun _ => .inl rfl⟩ (.singleton _)
  | cons c t =>
    refine .cons_cons (hfirst c rfl)
      (List.isChain_append.mpr ⟨hmiddle, .singleton _, fun x hx y hy => ?_⟩)
    obtain rfl : ')' = y := by simpa using hy
    exact hlast x hx

theorem viable_of_withoutOuterGroups
    (h : List.IsChain Viable ('(' :: (withoutOuterGroups t ++ [')']))) :
    List.IsChain Viable ('(' :: (t ++ [')'])) := by
  fun_induction withoutOuterGroups t with
  | case1 => exact h
  | case2 rest d inside hgroup ih =>
    rw [splitGroup_eq_some hgroup]
    have hinside := ih h
    have hclose : List.IsChain Viable (('(' :: (d :: inside ++ [')'])) ++ [')']) := by
      refine List.isChain_append.mpr ⟨hinside, .singleton _, fun y hy z _ => ?_⟩
      have hlast : ('(' :: d :: inside ++ [')']).getLast? = some y := hy
      rw [List.getLast?_concat] at hlast
      obtain rfl := Option.some.inj hlast
      exact viable_close z
    exact .cons_cons (viable_of_ne (by decide) (by decide)) (by simpa using hclose)
  | case3 => exact h
  | case4 => exact h

end Viability

/-- A minus comes after an opening parenthesis, and no group after another. -/
def Neat (a b : Char) : Prop := (b = '-' → a = '(') ∧ (b = '(' → a ≠ ')')

theorem neat_of_operand {a b : Char} (h : isOperandCharacter b = true) : Neat a b :=
  ⟨fun he => absurd he (head_ne_of_operand h (by decide)),
    fun he => absurd he (head_ne_of_operand h (by decide))⟩

theorem isChain_run {t rest : Text} {a : Char} (ht : ∀ c ∈ t, isOperandCharacter c = true)
    (hne : t ≠ []) (hrest : ∀ b, isOperandCharacter b = true → List.IsChain Neat (b :: rest)) :
    List.IsChain Neat (a :: (t ++ rest)) := by
  induction t generalizing a with
  | nil => exact absurd rfl hne
  | cons c t ih =>
    have hc := ht c List.mem_cons_self
    refine .cons_cons (neat_of_operand hc) ?_
    by_cases hempty : t = []
    · subst hempty
      exact hrest c hc
    · exact ih (fun d hd => ht d (List.mem_cons_of_mem _ hd)) hempty

theorem AfterNegatives.minus {items : List Item} (h : AfterNegatives items) :
    .sign '-' ∉ items.tail := by
  cases h with
  | factorial hheld => exact fun hm => by simpa [hheld.sign_not_mem] using List.mem_of_mem_tail hm
  | power hb he =>
    exact fun hm => by
      simpa [hb.sign_not_mem, he.sign_not_mem] using List.mem_of_mem_tail hm
  | other _ _ hn => exact hn

section

variable {v : Vocabulary} {run name : Text → Prop} {p q : Char} {items : List Item}

theorem Laid.neat (hrun : ∀ t, run t → Rules.loose.run t) (hname : ∀ t, name t → Rules.loose.run t)
    (h : Laid (.leveled run name AfterNegatives) p items q) {a : Char} (ha : a = ')' → p = ')')
    (hminus : .sign '-' ∉ items ∨ a = '(' ∧ .sign '-' ∉ items.tail) {after : Text}
    (hafter : ∀ c ∈ after.head?, c = ')') (hchain : List.IsChain Neat after) :
    List.IsChain Neat (a :: (textOf items ++ after)) := by
  have hclose (a : Char) {t : Text} (ht : List.IsChain Neat (')' :: t)) :
      List.IsChain Neat (a :: ')' :: t) :=
    .cons_cons ⟨fun h => absurd h (by decide), fun h => absurd h (by decide)⟩ ht
  induction h generalizing a after with
  | nil =>
    cases after with
    | nil => exact .singleton a
    | cons c t =>
      obtain rfl : c = ')' := hafter c rfl
      exact hclose a hchain
  | @sign p c q rest hs _ _ ih =>
    rw [textOf_sign, List.cons_append]
    have hrest : Item.sign '-' ∉ rest := by
      rcases hminus with hminus | ⟨-, hminus⟩
      · exact fun hm => hminus (List.mem_cons_of_mem _ hm)
      · exact hminus
    refine .cons_cons ⟨?_, fun he => absurd he (ne_open_of_sign hs)⟩
      (ih (fun he => absurd he (ne_close_of_sign hs)) (.inl hrest) hafter hchain)
    rintro rfl
    rcases hminus with hminus | ⟨rfl, -⟩
    · exact absurd List.mem_cons_self hminus
    · rfl
  | @run p q t rest hf ht _ ih =>
    have hrest : Item.sign '-' ∉ rest := by
      rcases hminus with hminus | ⟨-, hminus⟩
      · exact fun hm => hminus (List.mem_cons_of_mem _ hm)
      · exact hminus
    rw [textOf_run, List.append_assoc]
    exact isChain_run (hrun t ht).2 (hrun t ht).1 fun b hb =>
      ih (fun _ => rfl) (.inl hrest) hafter hchain
  | @group p m q inner rest hf hg _ _ _ ihinner ih =>
    have hrest : Item.sign '-' ∉ rest := by
      rcases hminus with hminus | ⟨-, hminus⟩
      · exact fun hm => hminus (List.mem_cons_of_mem _ hm)
      · exact hminus
    simp only [textOf_group, List.cons_append, List.append_assoc]
    refine .cons_cons ⟨fun h => absurd h (by decide), fun _ he => (hf rfl).1 (ha he)⟩ ?_
    exact ihinner (fun h => absurd h (by decide)) (.inr ⟨rfl, hg.minus⟩) (by simp)
      (ih (fun _ => rfl) (.inl hrest) hafter hchain)
  | @call p m q name inner rest hf hc _ _ _ ihinner ih =>
    have hrest : Item.sign '-' ∉ rest := by
      rcases hminus with hminus | ⟨-, hminus⟩
      · exact fun hm => hminus (List.mem_cons_of_mem _ hm)
      · exact hminus
    simp only [textOf_call, List.cons_append, List.append_assoc]
    refine isChain_run (hname _ hc.1).2 (hname _ hc.1).1 fun b hb => ?_
    refine .cons_cons ⟨fun h => absurd h (by decide), fun _ => head_ne_of_operand hb (by decide)⟩ ?_
    exact ihinner (fun h => absurd h (by decide)) (.inr ⟨rfl, hc.2.minus⟩) (by simp)
      (ih (fun _ => rfl) (.inl hrest) hafter hchain)

theorem Sorted.neat (h : Sorted v AfterNegatives items) :
    List.IsChain Neat ('(' :: textOf items) := by
  obtain ⟨q, hq⟩ := h.laid
  have hchain := hq.neat (fun _ => IsAtom.loose) (fun _ => IsCalled.loose) (a := '(')
    (fun h => absurd h (by decide)) (.inr ⟨rfl, h.shape.minus⟩)
      (show ∀ c ∈ ([] : Text).head?, c = ')' by simp) .nil
  simpa using hchain

theorem Laid.textOf_eq_nil {p q : Char} (h : Laid .loose p items q) :
    textOf items = [] ↔ items = [] := by
  refine ⟨fun ht => ?_, fun h => by simp [h]⟩
  by_contra hne
  obtain ⟨c, t, hc, -⟩ := h.textOf_eq_cons hne
  rw [ht] at hc
  cases hc

theorem inOrder_withoutOuterGroups {level : List Item → Prop} {t : Text} (h : InOrder v level t) :
    InOrder v level (withoutOuterGroups t) := by
  fun_induction withoutOuterGroups t with
  | case1 => exact h
  | case2 rest d inside hgroup ih =>
    obtain ⟨items, htext, -, q, hq⟩ := h
    refine ih ?_
    cases hq with
    | nil => simp at htext
    | sign hs _ _ =>
      rw [textOf_sign] at htext
      exact absurd (List.cons.inj htext).1 (ne_open_of_sign hs)
    | @run _ _ t rest' _ ht _ =>
      obtain ⟨c, u, rfl⟩ := List.exists_cons_of_ne_nil ht.loose.1
      rw [textOf_run] at htext
      exact absurd (List.cons.inj htext).1 (ne_open_of_operand (ht.loose.2 c List.mem_cons_self))
    | @group _ m _ inner rest' _ hg hinner _ hrest =>
      have hloose : Loose inner := hinner.toLoose (fun _ => IsAtom.loose) fun _ => IsCalled.loose
      have hsplit : splitGroup 0 rest = some (textOf inner, textOf rest') := by
        rw [textOf_group] at htext
        rw [← (List.cons.inj htext).2]
        exact hloose.nested.splitGroup_close _
      obtain ⟨hin, -⟩ : textOf inner = d :: inside ∧ textOf rest' = [] := by
        rw [hgroup] at hsplit
        simpa [eq_comm] using hsplit
      exact ⟨inner, hin, hg, m, hinner⟩
    | @call _ _ _ name inner rest' _ hc _ _ _ =>
      obtain ⟨c, u, rfl⟩ := List.exists_cons_of_ne_nil hc.1.loose.1
      rw [textOf_call] at htext
      exact absurd (List.cons.inj htext).1 (ne_open_of_operand (hc.1.loose.2 c List.mem_cons_self))
  | case3 => exact h
  | case4 => exact h

theorem viable_of_product (left right : Text)
    (h : List.IsChain Viable ('(' :: (left ++ ([')', '*', '('] ++ right) ++ [')']))) :
    List.IsChain Viable ('(' :: (left ++ ')' :: '(' :: right ++ [')'])) := by
  have hleft : List.IsChain Viable ('(' :: left ++ [')']) :=
    List.IsChain.infix h ⟨[], '*' :: '(' :: (right ++ [')']), by simp⟩
  have hright : List.IsChain Viable ('(' :: (right ++ [')'])) :=
    h.suffix ⟨'(' :: (left ++ [')', '*']), by simp⟩
  have hboth := List.isChain_append.mpr ⟨hleft, hright, fun x hx y _ => ?_⟩
  · simpa using hboth
  · rw [List.getLast?_concat] at hx
    obtain rfl := Option.some.inj hx
    exact viable_close y

theorem canonical_withGroups {t u : Text} (h : tidyFrom v (lowercase (withoutBlanks t)) = .ok u) :
    ∀ c ∈ withGroups u, IsCanonical c :=
  withGroups_forall ⟨⟨.inr (by decide), by decide⟩, ⟨.inr (by decide), by decide⟩,
    ⟨.inr (by decide), by decide⟩,
    .inr (by decide), by decide⟩ (canonical_of_tidyFrom (lowercase_not_upper _) h)

/-- The text that is tidied a second time is in order if its signs can be settled. -/
theorem inOrder_withGroups {t u s : Text} (hu : tidyFrom v (lowercase (withoutBlanks t)) = .ok u)
    (hs : Settles (withGroups u) s) : InOrder v AfterNegatives (withGroups u) := by
  have hcanonical := canonical_withGroups hu
  obtain ⟨items, q, rfl, hlaid⟩ := exists_layout_of_tidyFrom hu
  have hloose : Loose items := hlaid.toLoose (fun _ => IsAtom.loose) fun _ => IsCalled.loose
  have htext := textOf_regrouped hloose
  -- what is missing an operand in the end is missing it in the layout that grouping leads to
  have hviable : Level .viable (regrouped items) := by
    have hchain := viable_of_withoutOuterGroups (hs.viable fun c hc => (hcanonical c hc).1)
    rw [scopeNegatives, htext] at hchain
    obtain ⟨q', hq'⟩ := hloose.regrouped
    exact hq'.of_isChain (R := Viable) (fun _ => viable_of_ne (by decide) (by decide)) viable_close
      (of_replacePair (P := fun t => List.IsChain Viable ('(' :: (t ++ [')'])))
        viable_of_product hchain)
  obtain ⟨hshape, hsorted⟩ :=
    laid_regrouped (fun _ => IsAtom.loose) (fun _ => IsCalled.loose) hlaid hviable
  refine inOrder_withoutOuterGroups ⟨regrouped items, ?_, hshape, hsorted⟩
  have hsort : Sorted v AfterNegatives (regrouped items) := ⟨hshape, hsorted⟩
  rw [scopeNegatives, htext, replacePair_of_not_hasPair]
  rw [hasPair_eq_false_iff]
  exact hsort.neat.tail.imp fun a b hab hpair => hab.2 hpair.2 hpair.1

theorem inOrder_of_canonical {t n : Text} (h : canonical v t = .ok n) :
    ∃ u, tidyFrom v (lowercase (withoutBlanks t)) = .ok u ∧
      InOrder v AfterNegatives (withGroups u) ∧
      (∀ c ∈ withGroups u, IsCanonical c) ∧ tidyFrom v (withGroups u) = .ok n := by
  simp only [canonical, tidy, bind_eq_ok] at h
  obtain ⟨u, hu, hn⟩ := h
  have hcanonical := canonical_withGroups hu
  have hsecond : tidyFrom v (withGroups u) = .ok n := by
    rw [← lowercase_withoutBlanks_eq_self hcanonical]
    exact hn
  obtain ⟨s, hs⟩ : ∃ s, settleSigns (withGroups u) = .ok s := by
    rw [tidyFrom] at hsecond
    split at hsecond
    · cases hsecond
    · next s hs => exact ⟨s, hs⟩
  exact ⟨u, hu, inOrder_withGroups hu (settleSigns_eq_ok hs), hcanonical, hsecond⟩

end

end Abacus
