import Abacus.Proofs.Canonical.Dividing
import Abacus.Proofs.Reading.Factorials

/-! A layout of the grammar whose factorials are in groups stands for the same tree after its powers
have been put into groups. -/

namespace Abacus

section

variable {v : Vocabulary} {k : Strength} {opened : Bool} {held items : List Item} {e : Expr}
  {es : List Expr}

theorem enfoldPowers_nil : enfoldPowers opened held [] = held := by rw [enfoldPowers]

theorem enfoldPowers_operand {x : Item} (hx : x.isOperand = true) (rest : List Item) :
    enfoldPowers opened held (x :: rest) = enfoldPowers opened (held ++ [x]) rest := by
  cases x with
  | sign c => cases hx
  | run t | group inner | call name inner => rw [enfoldPowers]; simp

theorem enfoldPowers_single {x : Item} (hx : x.isOperand = true) :
    enfoldPowers opened [] [x] = [x] := by
  rw [enfoldPowers_operand hx, enfoldPowers_nil, List.nil_append]

theorem enfoldPowers_sign {c : Char} (hc : c ≠ '^') (rest : List Item) :
    enfoldPowers opened held (.sign c :: rest) = held ++ .sign c :: enfoldPowers false [] rest := by
  rw [enfoldPowers, if_neg fun h => hc h.1]

theorem itemsBefore_sign_append {stops : Char → Bool} {c : Char} (hc : stops c = true)
    (left right : List Item) :
    itemsBefore stops (left ++ .sign c :: right) =
      ((itemsBefore stops left).1, (itemsBefore stops left).2 ++ .sign c :: right) := by
  induction left with
  | nil => simp [hc]
  | cons x left ih =>
    cases x with
    | sign d => by_cases hd : stops d = true <;> simp [hd, ih]
    | run t | group inner | call name inner => simp [ih]

theorem exponentItems_append_sign {c : Char} (hc : isSign c = true) {left : List Item}
    (hne : left ≠ []) (right : List Item) :
    exponentItems (left ++ .sign c :: right) =
      ((exponentItems left).1, (exponentItems left).2 ++ .sign c :: right) := by
  have hbefore (left : List Item) : itemsBefore (fun c => !isOperandCharacter c)
      (left ++ .sign c :: right) = ((itemsBefore (fun c => !isOperandCharacter c) left).1,
        (itemsBefore (fun c => !isOperandCharacter c) left).2 ++ .sign c :: right) :=
    itemsBefore_sign_append (by simp [not_operand_of_sign hc]) left right
  obtain ⟨x, left, rfl⟩ := List.exists_cons_of_ne_nil hne
  by_cases hx : x = .sign '-'
  · subst hx
    simp [exponentItems, hbefore]
  · have hexp (rest : List Item) : exponentItems (x :: rest) =
        itemsBefore (fun c => !isOperandCharacter c) (x :: rest) := by
      unfold exponentItems
      split
      · next he => exact absurd (List.cons.inj he).1 hx
      · rfl
    rw [List.cons_append, hexp, hexp, ← List.cons_append, hbefore]

theorem enfoldPowers_append {c : Char} (hs : isSign c = true) (hc : c ≠ '^') {left : List Item}
    (hlast : ∀ x ∈ left.getLast?, x ≠ .sign '^') (right : List Item) :
    enfoldPowers opened held (left ++ .sign c :: right) =
      enfoldPowers false held left ++ .sign c :: enfoldPowers false [] right := by
  -- by the length, since an exponent is passed over as a whole
  induction hn : left.length using Nat.strongRecOn generalizing left opened held with
  | _ n ih =>
    subst hn
    cases left with
    | nil => rw [List.nil_append, enfoldPowers_sign hc, enfoldPowers_nil]
    | cons x left =>
      have htail : ∀ y ∈ left.getLast?, y ≠ .sign '^' := fun y hy =>
        hlast y (List.mem_getLast?_cons hy)
      rcases isOperand_or_sign x with hx | ⟨d, rfl⟩
      · rw [List.cons_append, enfoldPowers_operand hx, enfoldPowers_operand hx,
          ih left.length (by simp) htail rfl]
      · by_cases hd : d = '^'
        · subst hd
          have hne : left ≠ [] := by
            rintro rfl
            exact hlast _ rfl rfl
          have hlen := length_exponentItems_le left
          have hsplit := exponentItems_append left
          have hafter : ∀ y ∈ (exponentItems left).2.getLast?, y ≠ .sign '^' := fun y hy =>
            htail y (hsplit ▸ List.mem_getLast?_append_of_mem_getLast? hy)
          rw [List.cons_append, enfoldPowers, enfoldPowers, exponentItems_append_sign hs hne,
            if_pos ⟨rfl, by simp⟩, if_pos ⟨rfl, by simp⟩]
          exact ih _ (by simp only [List.length_cons]; omega) hafter rfl
        · rw [List.cons_append, enfoldPowers_sign hd, enfoldPowers_sign hd,
            ih left.length (by simp) htail rfl]
          simp

theorem unsigned_enfoldPowers (hheld : Unsigned held) (hitems : held = [] → Unsigned items) :
    Unsigned (enfoldPowers opened held items) := by
  fun_induction enfoldPowers opened held items with
  | case1 => exact hheld
  | case2 opened held c rest hc ih => exact ih (by simp [Unsigned]) (by simp)
  | case3 opened held c rest hc ih =>
    cases held with
    | nil => exact hitems rfl
    | cons x held => exact hheld
  | case4 opened held x rest hx ih =>
    refine ih ?_ (by simp)
    cases held with
    | nil => exact unsigned_operand (isOperand_of_ne hx) []
    | cons y held => exact hheld

theorem exponentItems_operand {x : Item} (hx : x.isOperand = true) {rest : List Item}
    (hrest : ∀ y ∈ rest.head?, ∃ c, y = .sign c ∧ isSign c = true) :
    exponentItems (x :: rest) = ([x], rest) ∧
      exponentItems (.sign '-' :: x :: rest) = ([.sign '-', x], rest) := by
  have hstop : itemsBefore (fun c => !isOperandCharacter c) rest = ([], rest) := by
    cases rest with
    | nil => simp
    | cons y rest =>
      obtain ⟨c, rfl, hc⟩ := hrest y rfl
      simp [not_operand_of_sign hc]
  cases x with
  | sign c => cases hx
  | run t | group inner | call name inner => simp [exponentItems, hstop]

theorem Denotes.enfold_power (h : Denotes v AfterPowers .power items e)
    (hnone : .sign '!' ∉ items) :
    ∃ x, x.isOperand = true ∧ Denotes v AfterPowers .atom [x] e ∧ ∀ opened rest,
      (opened = true → rest ≠ []) → (∀ y ∈ rest.head?, ∃ c, y = .sign c ∧ isSign c = true) →
        enfoldPowers opened [] (items ++ rest) = enfoldPowers opened [x] rest := by
  generalize hk : Strength.power = k at h
  induction h with
  | tighter _ h _ =>
    subst hk
    have hatom := Denotes.atom_of_factorial h hnone
    obtain ⟨x, rfl, hx⟩ := hatom.eq_operand
    exact ⟨x, hx, hatom,
      fun opened rest _ _ => by
        rw [List.singleton_append, enfoldPowers_operand hx, List.nil_append]⟩
  | @operator op _ left right a b hop hne hsign hl hr ih _ =>
    subst hop
    obtain rfl : op = .power := by cases op <;> first | rfl | cases hk
    simp only [List.mem_append, List.mem_cons, not_or] at hnone
    obtain ⟨x, hx, hleft, heq⟩ := ih hnone.1 rfl
    have hright := hr.atom_of_factorial hnone.2.2
    obtain ⟨y, rfl, hy⟩ := hright.eq_operand
    have hpower : Denotes v AfterPowers .power ([x] ++ .sign Operator.power.symbol :: [y])
        (.binary .power a b) :=
      .operator rfl hne hsign (hleft.ofAtom _) (hright.ofAtom _)
    have hshape : AfterPowers ([x] ++ .sign '^' :: [y]) :=
      .power (by simpa [Operands] using hx) (by simpa [Operands] using hy)
    refine ⟨.group ([x] ++ .sign '^' :: [y]), rfl, .group hshape (toSum hpower),
      fun opened rest hrest hhead => ?_⟩
    obtain ⟨hexp, -⟩ := exponentItems_operand hy hhead
    rw [List.append_assoc, heq _ _ (by simp) fun z hz =>
      ⟨'^', by simpa [Operator.symbol] using hz.symm, rfl⟩]
    simp only [Operator.symbol, List.cons_append, List.nil_append]
    rw [enfoldPowers, hexp, if_pos ⟨rfl, by tauto⟩]
    rfl
  | @negativeExponent left right a b hl hr ih _ =>
    simp only [List.mem_append, List.mem_cons, not_or] at hnone
    obtain ⟨x, hx, hleft, heq⟩ := ih hnone.1 rfl
    have hright := hr.atom_of_factorial hnone.2.2.2
    obtain ⟨y, rfl, hy⟩ := hright.eq_operand
    have hpower : Denotes v AfterPowers .power ([x] ++ .sign '^' :: .sign '-' :: [y])
        (.binary .power a b.negate) :=
      .negativeExponent (hleft.ofAtom _) (hright.ofAtom _)
    have hshape : AfterPowers ([x] ++ .sign '^' :: .sign '-' :: [y]) :=
      .negativePower (by simpa [Operands] using hx) (by simpa [Operands] using hy)
    refine ⟨.group ([x] ++ .sign '^' :: .sign '-' :: [y]), rfl, .group hshape (toSum hpower),
      fun opened rest hrest hhead => ?_⟩
    obtain ⟨-, hexp⟩ := exponentItems_operand hy hhead
    rw [List.append_assoc, heq _ _ (by simp) fun z hz => ⟨'^', by simpa using hz.symm, rfl⟩]
    simp only [List.cons_append, List.nil_append]
    rw [enfoldPowers, hexp, if_pos ⟨rfl, by tauto⟩]
    rfl
  | difference | negative | factorial | terminal | group | call => cases hk

theorem Denotes.getLast_ne (h : Denotes v AfterPowers k items e) {c : Char} (hc : c ≠ '!') :
    ∀ x ∈ items.getLast?, x ≠ .sign c := by
  obtain ⟨first, y, rfl, hy⟩ := h.getLast_or
  intro x hx
  rw [List.getLast?_concat] at hx
  obtain rfl : y = x := by simpa using hx
  rcases hy with hy | rfl
  · exact not_sign_of_isOperand hy
  · simpa using hc.symm

/-- In a part of a level every power gets a group. -/
theorem Denotes.enfoldPowers (h : Denotes v AfterPowers k items e) (hnone : .sign '!' ∉ items) :
    Denotes v AfterPowers k (Abacus.enfoldPowers false [] items) e ∧
      .sign '!' ∉ Abacus.enfoldPowers false [] items ∧
      .sign '^' ∉ Abacus.enfoldPowers false [] items := by
  have hpower {items : List Item} {e : Expr} (h : Denotes v AfterPowers .power items e)
      (hnone : .sign '!' ∉ items) : Denotes v AfterPowers .power
        (Abacus.enfoldPowers false [] items) e ∧ .sign '!' ∉ Abacus.enfoldPowers false [] items ∧
        .sign '^' ∉ Abacus.enfoldPowers false [] items := by
    obtain ⟨x, hx, hatom, heq⟩ := h.enfold_power hnone
    have hall := heq false [] (by simp) (by simp)
    rw [List.append_nil, enfoldPowers_nil] at hall
    rw [hall]
    have hsign (c : Char) : .sign c ∉ [x] := by simpa using (not_sign_of_isOperand hx).symm
    exact ⟨hatom.ofAtom _, hsign _, hsign _⟩
  induction h with
  | tighter hk _ ih => exact ⟨.tighter hk (ih hnone).1, (ih hnone).2⟩
  | @operator op _ _ _ _ _ hk hop hsign hl hr ihl ihr =>
    by_cases hpow : op = .power
    · subst hpow
      obtain rfl := hk
      exact hpower (.operator rfl hop hsign hl hr) hnone
    · have hne : op.symbol ≠ '!' ∧ op.symbol ≠ '^' := by revert hpow; cases op <;> decide
      simp only [List.mem_append, List.mem_cons, not_or] at hnone
      obtain ⟨hleft, hlf, hlp⟩ := ihl hnone.1
      obtain ⟨hright, hrf, hrp⟩ := ihr hnone.2.2
      rw [enfoldPowers_append op.isSign_symbol hne.2 (hl.getLast_ne (by decide))]
      refine ⟨.operator hk hop (fun h => unsigned_enfoldPowers (by simp [Unsigned]) fun _ =>
        hsign h) hleft hright, ?_, ?_⟩
      · simp [hlf, hrf, hne.1.symm]
      · simp [hlp, hrp, hne.2.symm]
  | difference hsign hl _ ihl ihr =>
    simp only [List.mem_append, List.mem_cons, not_or] at hnone
    obtain ⟨hleft, hlf, hlp⟩ := ihl hnone.1
    obtain ⟨hright, hrf, hrp⟩ := ihr hnone.2.2
    rw [enfoldPowers_append (by decide) (by decide) (hl.getLast_ne (by decide))]
    refine ⟨.difference (unsigned_enfoldPowers (by simp [Unsigned]) fun _ => hsign) hleft hright,
      ?_, ?_⟩
    · simp [hlf, hrf]
    · simp [hlp, hrp]
  | negative _ ih =>
    simp only [List.mem_cons, not_or] at hnone
    obtain ⟨h, hf, hp⟩ := ih hnone.2
    rw [enfoldPowers_sign (by decide), List.nil_append]
    exact ⟨.negative h, by simp [hf], by simp [hp]⟩
  | negativeExponent hl hr _ _ => exact hpower (.negativeExponent hl hr) hnone
  | factorial => simp at hnone
  | terminal h =>
    rw [enfoldPowers_single rfl]
    exact ⟨.terminal h, by simp⟩
  | group hlevel h _ =>
    rw [enfoldPowers_single rfl]
    exact ⟨.group hlevel h, by simp⟩
  | call hlevel harity hcount hinner hargs hcall _ =>
    rw [enfoldPowers_single rfl]
    exact ⟨.call hlevel harity hcount hinner hargs hcall, by simp⟩

/-- In a level that is one power the last sign of a power stays where it is. -/
theorem Denotes.enfoldPowers_level (h : Denotes v AfterPowers k items e)
    (hnone : .sign '!' ∉ items) :
    Denotes v AfterPowers k (Abacus.enfoldPowers true [] items) e ∧
      AfterPowers (Abacus.enfoldPowers true [] items) := by
  have hpart {k : Strength} {items : List Item} {e : Expr} (h : Denotes v AfterPowers k items e)
      (hnone : .sign '!' ∉ items)
      (heq : Abacus.enfoldPowers true [] items = Abacus.enfoldPowers false [] items) :
      Denotes v AfterPowers k (Abacus.enfoldPowers true [] items) e ∧
        AfterPowers (Abacus.enfoldPowers true [] items) := by
    rw [heq]
    obtain ⟨h, hf, hp⟩ := h.enfoldPowers hnone
    exact ⟨h, .other hf hp⟩
  have hend : ∀ y ∈ ([] : List Item).head?, ∃ c, y = .sign c ∧ isSign c = true := by simp
  induction h with
  | tighter hk _ ih => exact ⟨.tighter hk (ih hnone).1, (ih hnone).2⟩
  | @operator op _ left right a b hk hop hsign hl hr _ _ =>
    by_cases hpow : op = .power
    · subst hpow
      obtain rfl := hk
      simp only [List.mem_append, List.mem_cons, not_or] at hnone
      obtain ⟨x, hx, hleft, heq⟩ := hl.enfold_power hnone.1
      have hright := hr.atom_of_factorial hnone.2.2
      obtain ⟨y, rfl, hy⟩ := hright.eq_operand
      obtain ⟨hexp, -⟩ := exponentItems_operand hy hend
      have hkept : Abacus.enfoldPowers true [x] (.sign Operator.power.symbol :: [y]) =
          [x] ++ .sign '^' :: [y] := by
        rw [Abacus.enfoldPowers, hexp, if_neg (by simp), enfoldPowers_single hy]
        rfl
      rw [heq true _ (by simp) fun z hz =>
        ⟨'^', by simpa [Operator.symbol] using hz.symm, rfl⟩, hkept]
      exact ⟨.operator rfl hop hsign (hleft.ofAtom _) hr,
        .power (by simpa [Operands] using hx) (by simpa [Operands] using hy)⟩
    · have hne : op.symbol ≠ '^' := by revert hpow; cases op <;> decide
      refine hpart (.operator hk hop hsign hl hr) hnone ?_
      rw [enfoldPowers_append op.isSign_symbol hne (hl.getLast_ne (by decide)),
        enfoldPowers_append op.isSign_symbol hne (hl.getLast_ne (by decide))]
  | difference hsign hl hr _ _ =>
    refine hpart (.difference hsign hl hr) hnone ?_
    rw [enfoldPowers_append (by decide) (by decide) (hl.getLast_ne (by decide)),
      enfoldPowers_append (by decide) (by decide) (hl.getLast_ne (by decide))]
  | negative h _ =>
    exact hpart (.negative h) hnone
      (by rw [enfoldPowers_sign (by decide), enfoldPowers_sign (by decide)])
  | @negativeExponent left right a b hl hr _ _ =>
    simp only [List.mem_append, List.mem_cons, not_or] at hnone
    obtain ⟨x, hx, hleft, heq⟩ := hl.enfold_power hnone.1
    have hright := hr.atom_of_factorial hnone.2.2.2
    obtain ⟨y, rfl, hy⟩ := hright.eq_operand
    obtain ⟨-, hexp⟩ := exponentItems_operand hy hend
    have hkept : Abacus.enfoldPowers true [x] (.sign '^' :: .sign '-' :: [y]) =
        [x] ++ .sign '^' :: .sign '-' :: [y] := by
      rw [Abacus.enfoldPowers, hexp, if_neg (by simp), enfoldPowers_sign (by decide),
        enfoldPowers_single hy]
      rfl
    rw [heq true _ (by simp) fun z hz => ⟨'^', by simpa using hz.symm, rfl⟩, hkept]
    exact ⟨.negativeExponent (hleft.ofAtom _) hr,
      .negativePower (by simpa [Operands] using hx) (by simpa [Operands] using hy)⟩
  | factorial => simp at hnone
  | terminal h =>
    exact hpart (.terminal h) hnone (by rw [enfoldPowers_single rfl, enfoldPowers_single rfl])
  | group hlevel h _ =>
    exact hpart (.group hlevel h) hnone (by rw [enfoldPowers_single rfl, enfoldPowers_single rfl])
  | call hlevel harity hcount hinner hargs hcall _ =>
    exact hpart (.call hlevel harity hcount hinner hargs hcall) hnone
      (by rw [enfoldPowers_single rfl, enfoldPowers_single rfl])

theorem Lists.enfoldPowers (h : Lists v AfterPowers items es) (hnone : .sign '!' ∉ items) :
    Lists v AfterPowers (Abacus.enfoldPowers false [] items) es ∧
      .sign '!' ∉ Abacus.enfoldPowers false [] items ∧
      .sign '^' ∉ Abacus.enfoldPowers false [] items := by
  induction h with
  | none =>
    rw [enfoldPowers_nil]
    exact ⟨.none, by simp⟩
  | last h => exact ⟨.last (h.enfoldPowers hnone).1, (h.enfoldPowers hnone).2⟩
  | cons h _ hne ih =>
    simp only [List.mem_append, List.mem_cons, not_or] at hnone
    obtain ⟨hfirst, hff, hfp⟩ := h.enfoldPowers hnone.1
    obtain ⟨hrest, hrf, hrp⟩ := ih hnone.2.2
    rw [enfoldPowers_append (by decide) (by decide) (h.getLast_ne (by decide))]
    exact ⟨.cons hfirst hrest hne, by simp [hff, hrf], by simp [hfp, hrp]⟩

theorem Lists.enfoldPowers_level (h : Lists v AfterPowers items es)
    (hshape : AfterFactorials items) :
    Lists v AfterPowers (Abacus.enfoldPowers true [] items) es ∧
      AfterPowers (Abacus.enfoldPowers true [] items) := by
  cases hshape with
  | @factorial held hheld =>
    rw [enfoldPowers_of_not_mem (by simp [hheld.sign_not_mem])]
    exact ⟨h, .factorial hheld⟩
  | other hnone =>
    cases h with
    | none =>
      rw [enfoldPowers_nil]
      exact ⟨.none, .other (by simp) (by simp)⟩
    | last h => exact ⟨.last (h.enfoldPowers_level hnone).1, (h.enfoldPowers_level hnone).2⟩
    | cons h hrest hne =>
      obtain ⟨hall, hf, hp⟩ := (Lists.cons h hrest hne).enfoldPowers hnone
      rw [enfoldPowers_append (by decide) (by decide) (h.getLast_ne (by decide))] at hall hf hp ⊢
      exact ⟨hall, .other hf hp⟩

theorem Denotes.apartPowers (h : Denotes v AfterFactorials .sum items e)
    (hnone : .sign '!' ∉ items) :
    ∃ e', Expr.Respelled e e' ∧ Denotes v AfterPowers .sum (apartPowers items) e' ∧
      .sign '!' ∉ Abacus.apartPowers items ∧ .sign '^' ∉ Abacus.apartPowers items := by
  obtain ⟨e', halike, h⟩ : ∃ e', Expr.Respelled e e' ∧
      Denotes v AfterPowers .sum (Abacus.deep (Abacus.enfoldPowers true []) items) e' :=
    h.deep (fun _ h => h.deep) fun g es hg hes =>
      ⟨es, forall₂_respelled_refl es, hes.enfoldPowers_level hg⟩
  exact ⟨e', halike, h.enfoldPowers (by simpa using hnone)⟩

end

end Abacus
