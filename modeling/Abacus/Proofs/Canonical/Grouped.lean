import Abacus.Proofs.Canonical.Insertion
import Abacus.Proofs.Canonical.Shape

/-! Grouping factorials, powers or negative terms a second time changes nothing. For factorials and
powers this is seen in the layout, where a new group holds a sign and its operands and nothing else;
characters without a part in it may as well be plus signs. -/

namespace Abacus

section

variable {f : List Item → List Item} {opened : Bool} {held items : List Item}

/-- A change that leaves its own outcome as it is does so in every level. -/
theorem deep_deep (hkept : ∀ items, deep f items = items → deep f (f items) = f items)
    (hself : ∀ items, f (f items) = f items) (items : List Item) :
    deep f (deep f items) = deep f items := by
  fun_induction deep f items with
  | case1 => exact deep_nil f
  | case2 inner rest ihinner ih => rw [deep_group, hkept _ ihinner, hself, ih]
  | case3 name inner rest ihinner ih => rw [deep_call, hkept _ ihinner, hself, ih]
  | case4 x rest hgroup hcall ih =>
    cases x with
    | sign c => rw [deep_sign, ih]
    | run t => rw [deep_run, ih]
    | group inner => exact absurd rfl (hgroup inner)
    | call name inner => exact absurd rfl (hcall name inner)

@[simp]
theorem length_deep (items : List Item) : (deep f items).length = items.length := by
  induction items with
  | nil => simp
  | cons x rest ih => cases x <;> simp [ih]

theorem deep_append_eq_self_iff {others : List Item} :
    deep f (items ++ others) = items ++ others ↔ deep f items = items ∧ deep f others = others := by
  rw [deep_append]
  exact ⟨fun h => List.append_inj h (length_deep items), fun h => by rw [h.1, h.2]⟩

theorem deep_cons_eq_self_iff {x : Item} :
    deep f (x :: items) = x :: items ↔ deep f [x] = [x] ∧ deep f items = items := by
  rw [← List.singleton_append, deep_append_eq_self_iff]

theorem deep_singleton_group (hitems : deep f items = items) (hself : f items = items) :
    deep f [.group items] = [.group items] := by
  simp [hitems, hself]

section Factorials

theorem enfoldFactorials_eq_nil :
    enfoldFactorials opened held items = [] ↔ held = [] ∧ items = [] := by
  fun_induction enfoldFactorials opened held items with
  | case1 => simp
  | case2 => simp_all
  | case3 => simp
  | case4 => simp_all

theorem enfoldFactorials_operands (hheld : Operands held) (before items : List Item) :
    enfoldFactorials opened before (held ++ items) =
      enfoldFactorials opened (before ++ held) items := by
  induction held generalizing before with
  | nil => simp
  | cons x held ih =>
    obtain ⟨hx, hrest⟩ := List.forall_mem_cons.mp hheld
    cases x with
    | sign c => cases hx
    | run t | group inner | call name inner =>
      rw [List.cons_append, enfoldFactorials, ih hrest, List.append_assoc, List.singleton_append]
      simp

theorem enfoldFactorials_of_not_mem (h : .sign '!' ∉ items) :
    enfoldFactorials opened held items = held ++ items := by
  fun_induction enfoldFactorials opened held items with
  | case1 => simp
  | case2 opened held c rest hc ih => simp [hc.1] at h
  | case3 opened held c rest hc ih => simp [ih fun hm => h (List.mem_cons_of_mem _ hm)]
  | case4 opened held x rest hx ih => simp [ih fun hm => h (List.mem_cons_of_mem _ hm)]

theorem enfoldFactorials_enfoldFactorials (hheld : Operands held) :
    enfoldFactorials opened [] (enfoldFactorials opened held items) =
      enfoldFactorials opened held items := by
  fun_induction enfoldFactorials opened held items with
  | case1 opened held =>
    have hall : enfoldFactorials opened [] (held ++ []) = _ := enfoldFactorials_operands hheld [] []
    simpa [enfoldFactorials] using hall
  | case2 opened held c rest hc ih => exact ih (by simp [Operands, Item.isOperand])
  | case3 opened held c rest hc ih =>
    have hcond :
        ¬ (c = '!' ∧ held ≠ [] ∧ ¬ (opened = true ∧ enfoldFactorials false [] rest = [])) := by
      simpa [enfoldFactorials_eq_nil] using hc
    rw [enfoldFactorials_operands hheld, enfoldFactorials.eq_2, List.nil_append, if_neg hcond,
      ih operands_nil]
  | case4 opened held x rest hx ih => exact ih (operands_concat hheld (isOperand_of_ne hx))

/-- A new group holds no factorial but the one that it is for. -/
theorem deep_enfoldFactorials (hheld : Operands held)
    (hkept : deep (enfoldFactorials true []) held = held)
    (h : deep (enfoldFactorials true []) items = items) :
    deep (enfoldFactorials true []) (enfoldFactorials opened held items) =
      enfoldFactorials opened held items := by
  fun_induction enfoldFactorials opened held items with
  | case1 opened held => exact hkept
  | case2 opened held c rest hc ih =>
    obtain ⟨-, hrest⟩ := deep_cons_eq_self_iff.mp h
    have hinner : deep (enfoldFactorials true []) (held ++ [.sign c]) = held ++ [.sign c] :=
      deep_append_eq_self_iff.mpr ⟨hkept, by simp⟩
    refine ih (by simp [Operands, Item.isOperand]) (deep_singleton_group hinner ?_) hrest
    rw [enfoldFactorials_operands hheld]
    simp [enfoldFactorials]
  | case3 opened held c rest hc ih =>
    obtain ⟨hsign, hrest⟩ := deep_cons_eq_self_iff.mp h
    exact deep_append_eq_self_iff.mpr
      ⟨hkept, deep_cons_eq_self_iff.mpr ⟨hsign, ih operands_nil (deep_nil _) hrest⟩⟩
  | case4 opened held x rest hx ih =>
    obtain ⟨hfirst, hrest⟩ := deep_cons_eq_self_iff.mp h
    exact ih (operands_concat hheld (isOperand_of_ne hx))
      (deep_append_eq_self_iff.mpr ⟨hkept, hfirst⟩) hrest

theorem apartFactorials_apartFactorials (items : List Item) :
    apartFactorials (apartFactorials items) = apartFactorials items := by
  have hdeep := deep_deep (f := enfoldFactorials true [])
    (fun _ h => deep_enfoldFactorials operands_nil (deep_nil _) h)
    (fun _ => enfoldFactorials_enfoldFactorials operands_nil) items
  rw [apartFactorials, apartFactorials, deep_enfoldFactorials operands_nil (deep_nil _) hdeep,
    enfoldFactorials_enfoldFactorials operands_nil]

end Factorials

section Powers

theorem enfoldPowers_operands (hheld : Operands held) (before items : List Item) :
    enfoldPowers opened before (held ++ items) = enfoldPowers opened (before ++ held) items := by
  induction held generalizing before with
  | nil => simp
  | cons x held ih =>
    obtain ⟨hx, hrest⟩ := List.forall_mem_cons.mp hheld
    cases x with
    | sign c => cases hx
    | run t | group inner | call name inner =>
      rw [List.cons_append, enfoldPowers, ih hrest, List.append_assoc, List.singleton_append]
      simp

theorem itemsBefore_itemsBefore (stops : Char → Bool) (items : List Item) :
    itemsBefore stops (itemsBefore stops items).1 = ((itemsBefore stops items).1, []) := by
  induction items with
  | nil => simp
  | cons x rest ih =>
    cases x with
    | sign c => by_cases hc : stops c = true <;> simp [hc, ih]
    | run t | group inner | call name inner => simp [ih]

theorem exponentItems_exponentItems (items : List Item) :
    (exponentItems (exponentItems items).1).2 = [] := by
  by_cases h : items.head? = some (.sign '-')
  · obtain ⟨rest, rfl⟩ := List.head?_eq_some_iff.mp h
    simp [exponentItems, itemsBefore_itemsBefore]
  · rw [exponentItems_of_ne h]
    have hfirst : (itemsBefore (fun c => !isOperandCharacter c) items).1.head? ≠
        some (.sign '-') := fun hminus =>
      absurd (not_stops_of_mem_itemsBefore (List.mem_of_mem_head? hminus)) (by decide)
    rw [exponentItems_of_ne hfirst, itemsBefore_itemsBefore]

theorem enfoldPowers_enfoldPowers (hheld : Operands held) :
    enfoldPowers opened [] (enfoldPowers opened held items) = enfoldPowers opened held items := by
  fun_induction enfoldPowers opened held items with
  | case1 opened held =>
    have hall : enfoldPowers opened [] (held ++ []) = _ := enfoldPowers_operands hheld [] []
    simpa [enfoldPowers] using hall
  | case2 opened held c rest hc ih => exact ih (by simp [Operands, Item.isOperand])
  | case3 opened held c rest hc ih =>
    rw [enfoldPowers_operands hheld, enfoldPowers.eq_2, List.nil_append, ih operands_nil]
    refine if_neg fun hcond => hc ⟨hcond.1, fun hfull => hcond.2 ⟨hfull.1, ?_⟩⟩
    -- a power that fills its group has nothing after its exponent that could be changed
    have hnone : Item.sign '^' ∉ rest := by
      have hwhole : (exponentItems rest).1 = rest := by
        simpa [hfull.2] using exponentItems_append rest
      exact hwhole ▸ not_mem_exponentItems rest
    rw [enfoldPowers_of_not_mem hnone]
    exact hfull.2
  | case4 opened held x rest hx ih => exact ih (operands_concat hheld (isOperand_of_ne hx))

theorem deep_enfoldPowers (hheld : Operands held) (hkept : deep (enfoldPowers true []) held = held)
    (h : deep (enfoldPowers true []) items = items) :
    deep (enfoldPowers true []) (enfoldPowers opened held items) =
      enfoldPowers opened held items := by
  fun_induction enfoldPowers opened held items with
  | case1 opened held => exact hkept
  | case2 opened held c rest hc ih =>
    obtain ⟨hsign, hrest⟩ := deep_cons_eq_self_iff.mp h
    rw [← exponentItems_append rest, deep_append_eq_self_iff] at hrest
    have hinner : deep (enfoldPowers true []) (held ++ .sign c :: (exponentItems rest).1) =
        held ++ .sign c :: (exponentItems rest).1 :=
      deep_append_eq_self_iff.mpr ⟨hkept, deep_cons_eq_self_iff.mpr ⟨hsign, hrest.1⟩⟩
    refine ih (by simp [Operands, Item.isOperand]) (deep_singleton_group hinner ?_) hrest.2
    have hfull : ¬ (c = '^' ∧ ¬ (true = true ∧ (exponentItems (exponentItems rest).1).2 = [])) := by
      simp [exponentItems_exponentItems]
    rw [enfoldPowers_operands hheld, enfoldPowers.eq_2, if_neg hfull,
      enfoldPowers_of_not_mem (not_mem_exponentItems rest)]
    rfl
  | case3 opened held c rest hc ih =>
    obtain ⟨hsign, hrest⟩ := deep_cons_eq_self_iff.mp h
    exact deep_append_eq_self_iff.mpr
      ⟨hkept, deep_cons_eq_self_iff.mpr ⟨hsign, ih operands_nil (deep_nil _) hrest⟩⟩
  | case4 opened held x rest hx ih =>
    obtain ⟨hfirst, hrest⟩ := deep_cons_eq_self_iff.mp h
    exact ih (operands_concat hheld (isOperand_of_ne hx))
      (deep_append_eq_self_iff.mpr ⟨hkept, hfirst⟩) hrest

theorem apartPowers_apartPowers (items : List Item) :
    apartPowers (apartPowers items) = apartPowers items := by
  have hdeep := deep_deep (f := enfoldPowers true [])
    (fun _ h => deep_enfoldPowers operands_nil (deep_nil _) h)
    (fun _ => enfoldPowers_enfoldPowers operands_nil) items
  rw [apartPowers, apartPowers, deep_enfoldPowers operands_nil (deep_nil _) hdeep,
    enfoldPowers_enfoldPowers operands_nil]

end Powers

end

/-- A character that is no operand, no parenthesis and no sign of a layout counts as a plus. -/
def asPlus (c : Char) : Char :=
  if isOperandCharacter c || isSign c || c == '(' || c == ')' then c else '+'

section Characters

variable {c x : Char} {t u before rest : Text}

theorem asPlus_cases (c : Char) :
    asPlus c = c ∨ asPlus c = '+' ∧ isOperandCharacter c = false ∧ isSign c = false ∧ c ≠ '(' ∧
      c ≠ ')' := by
  unfold asPlus
  split
  · exact .inl rfl
  · next h =>
    simp only [Bool.or_eq_true, beq_iff_eq, not_or, Bool.not_eq_true] at h
    exact .inr ⟨rfl, h.1.1.1, h.1.1.2, h.1.2, h.2⟩

theorem isOperandCharacter_asPlus (c : Char) :
    isOperandCharacter (asPlus c) = isOperandCharacter c := by
  rcases asPlus_cases c with h | ⟨h, hop, -⟩
  · rw [h]
  · rw [h, hop]
    rfl

theorem asPlus_eq_iff (hx : x ∈ ['(', ')', '!', '^', '-']) : asPlus c = x ↔ c = x := by
  rcases asPlus_cases c with h | ⟨h, -, hsign, ho, hc⟩
  · rw [h]
  · simp only [List.mem_cons, List.not_mem_nil, or_false] at hx
    rw [h]
    constructor
    · rintro rfl
      rcases hx with h | h | h | h | h <;> cases h
    · rintro rfl
      rcases hx with rfl | rfl | rfl | rfl | rfl
      · exact absurd rfl ho
      · exact absurd rfl hc
      all_goals cases hsign

theorem runWith_map {f : Char → Char} {opening closing : Char} {stops : Char → Bool}
    (ho : ∀ c, f c = opening ↔ c = opening) (hc : ∀ c, f c = closing ↔ c = closing)
    (hs : ∀ c, stops (f c) = stops c) (depth : Nat) (t : Text) :
    runWith opening closing stops depth (t.map f) =
      (runWith opening closing stops depth t).map (List.map f) (List.map f) := by
  have hopen : f opening = opening := (ho opening).mpr rfl
  fun_induction runWith opening closing stops depth t with
  | case1 => rfl
  | case2 depth rest ih => simp [runWith, Prod.map, hopen, ih]
  | case3 depth c rest hne hstop => simp [runWith, ho, hc, hs, hne, hstop]
  | case4 depth c rest hne hstop ih => simp [runWith, Prod.map, ho, hc, hs, hne, hstop, ih]

theorem operandBefore_asPlus (before : Text) :
    operandBefore (before.map asPlus) =
      (operandBefore before).map (List.map asPlus) (List.map asPlus) :=
  runWith_map (fun c => asPlus_eq_iff (by decide)) (fun c => asPlus_eq_iff (by decide))
    (by simp [isOperandCharacter_asPlus]) 0 before

theorem exponentAfter_asPlus (t : Text) :
    exponentAfter (t.map asPlus) = (exponentAfter t).map (List.map asPlus) (List.map asPlus) := by
  have hrun (t : Text) : runWith '(' ')' (fun c => !isOperandCharacter c) 0 (t.map asPlus) = _ :=
    runWith_map (fun c => asPlus_eq_iff (by decide)) (fun c => asPlus_eq_iff (by decide))
      (by simp [isOperandCharacter_asPlus]) 0 t
  cases t with
  | nil => rfl
  | cons c t =>
    by_cases hc : c = '-'
    · subst hc
      rw [List.map_cons, (asPlus_eq_iff (by decide)).mpr rfl, exponentAfter, exponentAfter, hrun]
      rfl
    · have hminus : ((c :: t).map asPlus).head? ≠ some '-' := by
        simpa using (asPlus_eq_iff (by decide)).not.mpr hc
      rw [exponentAfter_of_ne hminus, exponentAfter_of_ne (by simpa using hc), hrun]

theorem isEnclosed_asPlus (before after : Text) :
    isEnclosed (before.map asPlus) (after.map asPlus) = isEnclosed before after := by
  have hhead {x : Char} (hx : x ∈ ['(', ')', '!', '^', '-']) (t : Text) :
      ((t.map asPlus).head? == some x) = (t.head? == some x) := by
    cases t with
    | nil => rfl
    | cons c t =>
      rw [Bool.eq_iff_iff]
      simp only [List.map_cons, List.head?_cons, beq_iff_eq, Option.some.injEq]
      exact asPlus_eq_iff hx
  rw [isEnclosed, isEnclosed, hhead (by decide), hhead (by decide)]

theorem groupFactorials_asPlus (before rest : Text) :
    groupFactorials (before.map asPlus) (rest.map asPlus) =
      (groupFactorials before rest).map asPlus := by
  have hmark {x : Char} (hx : x ∈ ['(', ')', '!', '^', '-']) : asPlus x = x :=
    (asPlus_eq_iff hx).mpr rfl
  fun_induction groupFactorials before rest with
  | case1 before => simp [groupFactorials]
  | case2 before c rest hc ih =>
    rw [List.map_cons, groupFactorials, operandBefore_asPlus]
    simp only [Prod.map_fst, Prod.map_snd, isEnclosed_asPlus, asPlus_eq_iff (x := '!') (by decide),
      ne_eq, List.map_eq_nil_iff] at hc ⊢
    rw [if_pos hc, ← ih]
    simp [hmark]
  | case3 before c rest hc ih =>
    rw [List.map_cons, groupFactorials, operandBefore_asPlus]
    simp only [Prod.map_fst, Prod.map_snd, isEnclosed_asPlus, asPlus_eq_iff (x := '!') (by decide),
      ne_eq, List.map_eq_nil_iff] at hc ⊢
    rw [if_neg hc, ← ih, List.map_cons]

theorem groupPowers_asPlus (before rest : Text) :
    groupPowers (before.map asPlus) (rest.map asPlus) = (groupPowers before rest).map asPlus := by
  have hmark {x : Char} (hx : x ∈ ['(', ')', '!', '^', '-']) : asPlus x = x :=
    (asPlus_eq_iff hx).mpr rfl
  fun_induction groupPowers before rest with
  | case1 before => simp [groupPowers]
  | case2 before c rest hc ih =>
    rw [List.map_cons, groupPowers, operandBefore_asPlus, exponentAfter_asPlus]
    simp only [Prod.map_fst, Prod.map_snd, isEnclosed_asPlus, asPlus_eq_iff (x := '^') (by decide)]
    rw [if_pos hc, ← ih]
    simp [hmark]
  | case3 before c rest hc ih =>
    rw [List.map_cons, groupPowers, operandBefore_asPlus, exponentAfter_asPlus]
    simp only [Prod.map_fst, Prod.map_snd, isEnclosed_asPlus, asPlus_eq_iff (x := '^') (by decide)]
    rw [if_neg hc, ← ih, List.map_cons]

/-- A balanced text has a layout once the characters without a part are plus signs. -/
theorem exists_loose_asPlus (h : isBalanced t = true) :
    ∃ items, textOf items = t.map asPlus ∧ Loose items := by
  have hparens : parentheses (t.map asPlus) = parentheses t := by
    have hsame : (fun c => c == '(' || c == ')') ∘ asPlus = fun c => c == '(' || c == ')' := by
      funext c
      rw [Bool.eq_iff_iff]
      simp [asPlus_eq_iff]
    rw [parentheses, parentheses, List.filter_map, hsame]
    have hself : ∀ c ∈ t.filter fun c => c == '(' || c == ')', asPlus c = id c := by
      intro c hc
      rcases Bool.or_eq_true_iff.mp (List.mem_filter.mp hc).2 with h | h
      · exact (asPlus_eq_iff (x := '(') (by decide)).mpr (beq_iff_eq.mp h) |>.trans
          (beq_iff_eq.mp h).symm
      · exact (asPlus_eq_iff (x := ')') (by decide)).mpr (beq_iff_eq.mp h) |>.trans
          (beq_iff_eq.mp h).symm
    rw [List.map_congr_left hself, List.map_id]
  refine exists_loose (Nested.of_isBalanced ((isBalancedFrom_congr hparens 0).trans h)) fun c hc =>
    ?_
  obtain ⟨d, -, rfl⟩ := List.mem_map.mp hc
  unfold asPlus
  split
  · next hd => simpa [or_assoc] using hd
  · exact .inr (.inl rfl)

theorem eq_of_asPlus (hmap : t.map asPlus = u.map asPlus)
    (hwithout : withoutParentheses t = withoutParentheses u) : t = u := by
  induction t generalizing u with
  | nil => exact (List.map_eq_nil_iff.mp hmap.symm).symm
  | cons c t ih =>
    cases u with
    | nil => cases hmap
    | cons d u =>
      obtain ⟨hfirst, hrest⟩ := List.cons.inj hmap
      have hsame {x : Char} (hx : x ∈ ['(', ')', '!', '^', '-']) : c = x ↔ d = x := by
        rw [← asPlus_eq_iff hx, hfirst, asPlus_eq_iff hx]
      by_cases hc : c = '(' ∨ c = ')'
      · have hd : d = c := by
          rcases hc with rfl | rfl
          · exact (hsame (by decide)).mp rfl
          · exact (hsame (by decide)).mp rfl
        subst hd
        rw [ih hrest]
        rcases hc with rfl | rfl <;> simpa [withoutParentheses] using hwithout
      · have hd : ¬ (d = '(' ∨ d = ')') := by rwa [← hsame (by decide), ← hsame (by decide)]
        simp only [not_or] at hc hd
        simp only [withoutParentheses, List.filter_cons, bne_iff_ne, ne_eq, hc, hd,
          not_false_eq_true, if_true, Bool.and_eq_true, and_self, List.cons.injEq] at hwithout
        rw [hwithout.1, ih hrest hwithout.2]

end Characters

section Passes

variable {t : Text}

theorem isBalanced_scopeFactorials (h : isBalanced t = true) :
    isBalanced (scopeFactorials t) = true :=
  (isBalanced_of_wraps (groupFactorials_wraps [] h)).trans h

theorem isBalanced_scopePowers (h : isBalanced t = true) : isBalanced (scopePowers t) = true :=
  (isBalanced_of_wraps (groupPowers_wraps [] h)).trans h

theorem withoutParentheses_scopeFactorials (h : isBalanced t = true) :
    withoutParentheses (scopeFactorials t) = withoutParentheses t :=
  withoutParentheses_of_wraps (groupFactorials_wraps [] h)

theorem withoutParentheses_scopePowers (h : isBalanced t = true) :
    withoutParentheses (scopePowers t) = withoutParentheses t :=
  withoutParentheses_of_wraps (groupPowers_wraps [] h)

theorem scopeFactorials_scopeFactorials (h : isBalanced t = true) :
    scopeFactorials (scopeFactorials t) = scopeFactorials t := by
  obtain ⟨items, htext, hloose⟩ := exists_loose_asPlus h
  have hmap (u : Text) : (scopeFactorials u).map asPlus = scopeFactorials (u.map asPlus) :=
    (groupFactorials_asPlus [] u).symm
  refine eq_of_asPlus ?_ (withoutParentheses_scopeFactorials (isBalanced_scopeFactorials h))
  rw [hmap, hmap, ← htext, scopeFactorials_textOf hloose,
    scopeFactorials_textOf hloose.apartFactorials, apartFactorials_apartFactorials]

theorem scopePowers_scopePowers (h : isBalanced t = true) :
    scopePowers (scopePowers t) = scopePowers t := by
  obtain ⟨items, htext, hloose⟩ := exists_loose_asPlus h
  have hmap (u : Text) : (scopePowers u).map asPlus = scopePowers (u.map asPlus) :=
    (groupPowers_asPlus [] u).symm
  refine eq_of_asPlus ?_ (withoutParentheses_scopePowers (isBalanced_scopePowers h))
  rw [hmap, hmap, ← htext, scopePowers_textOf hloose, scopePowers_textOf hloose.apartPowers,
    apartPowers_apartPowers]

end Passes

section Negatives

variable {t left right before rest : Text}

/-- Every minus begins a group; the text is given last character first. -/
def MinusesOpened : Text → Prop
  | [] => True
  | c :: before => (c = '-' → before.head? = some '(') ∧ MinusesOpened before

theorem MinusesOpened.of_append (h : MinusesOpened (left ++ before)) : MinusesOpened before := by
  induction left with
  | nil => exact h
  | cons c left ih => exact ih h.2

theorem MinusesOpened.append_open (h : MinusesOpened (left ++ '(' :: before))
    (hbefore : MinusesOpened rest) : MinusesOpened (left ++ '(' :: rest) := by
  induction left with
  | nil => exact ⟨by simp, hbefore⟩
  | cons c left ih =>
    refine ⟨fun hc => ?_, ih h.2⟩
    have hhead := h.1 hc
    cases left with
    | nil => rfl
    | cons d left => exact hhead

theorem minusesOpened_groupNegatives (before : Text) (h : MinusesOpened before) :
    MinusesOpened (groupNegatives before rest).reverse := by
  fun_induction groupNegatives before rest with
  | case1 before => rwa [List.reverse_reverse]
  | case2 before c rest hc ih =>
    refine ih ?_
    rcases opening_cases before.head? with ho | ho
    · rw [ho]
      exact ⟨fun _ => rfl, by simp, h⟩
    · rw [ho]
      exact ⟨fun _ => rfl, by simp, by simp, h⟩
  | case3 before c rest hc ih => exact ih ⟨fun he => by simpa [he] using hc, h⟩

theorem groupNegatives_eq_self (h : MinusesOpened (rest.reverse ++ before)) :
    groupNegatives before rest = before.reverse ++ rest := by
  fun_induction groupNegatives before rest with
  | case1 before => simp
  | case2 before c rest hc ih =>
    have hsplit : MinusesOpened (rest.reverse ++ c :: before) := by simpa using h
    exact absurd (hsplit.of_append.1 hc.1) hc.2
  | case3 before c rest hc ih => simpa using ih (by simpa using h)

theorem minusesOpened_scopeNegatives (t : Text) : MinusesOpened (scopeNegatives t).reverse := by
  refine replacePair_induction (P := fun u => MinusesOpened u.reverse) (fun left right h => ?_)
    (minusesOpened_groupNegatives [] trivial)
  have hsplit : MinusesOpened (right.reverse ++ '(' :: ')' :: left.reverse) := by simpa using h
  have hclose : MinusesOpened ('*' :: ')' :: left.reverse) :=
    ⟨by simp, (MinusesOpened.of_append hsplit).2⟩
  simpa using hsplit.append_open hclose

/-- Two groups that a star was written between are not neighbours any more. -/
theorem not_hasPair_replacePair (t : Text) :
    hasPair ')' '(' (replacePair ')' '(' [')', '*', '('] t) = false := by
  have hcons {x : Char} {u : Text} (hu : hasPair ')' '(' u = false)
      (hx : x = ')' → u.head? ≠ some '(') : hasPair ')' '(' (x :: u) = false := by
    cases u with
    | nil => rfl
    | cons y u =>
      simp only [hasPair, Bool.or_eq_false_iff, Bool.and_eq_false_iff, beq_eq_false_iff_ne]
      exact ⟨not_and_or.mp fun h => hx h.1 (by simp [h.2]), hu⟩
  have hfirst (y : Char) (u : Text) : (replacePair ')' '(' [')', '*', '('] (y :: u)).head? =
      some y := by
    cases u with
    | nil => rfl
    | cons z u =>
      rw [replacePair_cons_cons]
      split
      · next h => rw [h.1]; rfl
      · rfl
  fun_induction replacePair ')' '(' [')', '*', '('] t with
  | case1 x y rest hxy ih => exact hcons (hcons (hcons ih (by simp)) (by simp)) (by simp)
  | case2 x y rest hxy ih =>
    refine hcons ih fun hx hhead => hxy ⟨hx, ?_⟩
    rw [hfirst] at hhead
    exact Option.some.inj hhead
  | case3 u hu =>
    cases u with
    | nil => rfl
    | cons x u =>
      cases u with
      | nil => rfl
      | cons y rest => exact absurd rfl (hu x y rest)

theorem scopeNegatives_scopeNegatives (t : Text) :
    scopeNegatives (scopeNegatives t) = scopeNegatives t := by
  have hself : groupNegatives [] (scopeNegatives t) = scopeNegatives t :=
    groupNegatives_eq_self (by simpa using minusesOpened_scopeNegatives t)
  conv_lhs => rw [scopeNegatives, hself]
  exact replacePair_of_not_hasPair (not_hasPair_replacePair _)

end Negatives

/-- What a pass makes of a text: it is balanced, it has no more put in than the pass may put in, and
the pass changes nothing in it any more. -/
structure Grouping (pass : Text → Text) (MayGain : Text → Text → Prop) (t : Text) : Prop where
  balanced : isBalanced (pass t) = true
  gained : MayGain t (pass t)
  settled : pass (pass t) = pass t

def SameBesideParentheses (t u : Text) : Prop := withoutParentheses u = withoutParentheses t

/-- Each of the passes leaves a balanced text balanced, and the second time it changes nothing.
Where factorials or powers are grouped, nothing but parentheses is put in; where negative terms are,
also plus signs in front of some of them, and stars between groups. -/
theorem scoping_of_isBalanced {t : Text} (h : isBalanced t = true) :
    Grouping scopeFactorials SameBesideParentheses t ∧
      Grouping scopePowers SameBesideParentheses t ∧
      Grouping scopeNegatives Insertion t :=
  ⟨⟨isBalanced_scopeFactorials h, withoutParentheses_scopeFactorials h,
    scopeFactorials_scopeFactorials h⟩,
    ⟨isBalanced_scopePowers h, withoutParentheses_scopePowers h, scopePowers_scopePowers h⟩,
    ⟨isBalanced_scopeNegatives h, scopeNegatives_insertion t, scopeNegatives_scopeNegatives t⟩⟩

/-- Each pass has something to group, and the per cent sign belongs to none of them. -/
theorem scoping_of_isBalanced_percent :
    let t := "3!!^-(2%a!)(b-2)".toList
    isBalanced t = true ∧ scopeFactorials t = "((3!)!)^-(2%(a!))(b-2)".toList ∧
      scopePowers t = "3!!(^-(2%a!)(b-2))".toList ∧
      scopeNegatives t = "3!!^(-(2%a!)*(b+(-2)))".toList ∧
      Grouping scopeFactorials SameBesideParentheses t ∧
      Grouping scopePowers SameBesideParentheses t ∧
      Grouping scopeNegatives Insertion t := by
  intro t
  exact ⟨by decide, by with_unfolding_all rfl, by with_unfolding_all rfl, by with_unfolding_all rfl,
    scoping_of_isBalanced (t := t) (by decide)⟩

end Abacus
