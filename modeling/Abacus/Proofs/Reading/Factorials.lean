import Abacus.Proofs.Reading.Levels

/-! A layout of the grammar stands for the same tree after its factorials have been put into
groups. -/

namespace Abacus

section

variable {v : Vocabulary} {k : Strength} {opened : Bool} {held items : List Item} {e : Expr}
  {es : List Expr}

theorem enfoldFactorials_nil : enfoldFactorials opened held [] = held := by rw [enfoldFactorials]

theorem enfoldFactorials_operand {x : Item} (hx : x.isOperand = true) (rest : List Item) :
    enfoldFactorials opened held (x :: rest) = enfoldFactorials opened (held ++ [x]) rest := by
  cases x with
  | sign c => cases hx
  | run t | group inner | call name inner => rw [enfoldFactorials]; simp

theorem enfoldFactorials_single {x : Item} (hx : x.isOperand = true) :
    enfoldFactorials opened [] [x] = [x] := by
  rw [enfoldFactorials_operand hx, enfoldFactorials_nil, List.nil_append]

theorem enfoldFactorials_sign {c : Char} (hc : c ≠ '!') (rest : List Item) :
    enfoldFactorials opened held (.sign c :: rest) =
      held ++ .sign c :: enfoldFactorials false [] rest := by
  rw [enfoldFactorials, if_neg fun h => hc h.1]

/-- What stands before another sign does not depend on what comes after it. -/
theorem enfoldFactorials_append {c : Char} (hc : c ≠ '!') (left right : List Item) :
    enfoldFactorials opened held (left ++ .sign c :: right) =
      enfoldFactorials false held left ++ .sign c :: enfoldFactorials false [] right := by
  induction left generalizing opened held with
  | nil => rw [List.nil_append, enfoldFactorials_sign hc, enfoldFactorials_nil]
  | cons x left ih =>
    rcases isOperand_or_sign x with hx | ⟨d, rfl⟩
    · rw [List.cons_append, enfoldFactorials_operand hx, enfoldFactorials_operand hx, ih]
    · rw [List.cons_append, enfoldFactorials, enfoldFactorials]
      by_cases hd : d = '!' ∧ held ≠ []
      · rw [if_pos ⟨hd.1, hd.2, by simp⟩, if_pos ⟨hd.1, hd.2, by simp⟩, ih]
      · rw [if_neg (by tauto), if_neg (by tauto), ih]
        simp

theorem unsigned_enfoldFactorials (hheld : Unsigned held) (hitems : held = [] → Unsigned items) :
    Unsigned (enfoldFactorials opened held items) := by
  fun_induction enfoldFactorials opened held items with
  | case1 => exact hheld
  | case2 opened held c rest hc ih => exact ih (by simp [Unsigned]) (by simp)
  | case3 opened held c rest hc ih =>
    cases held with
    | nil => exact hitems rfl
    | cons x held => exact hheld
  | case4 opened held x rest hx ih =>
    refine ih ?_ (by simp)
    cases held with
    | nil => exact unsigned_operand (isOperand_of_ne hx) []
    | cons y held => exact hheld

theorem Denotes.enfold_factorial (h : Denotes v AfterFactorials .factorial items e) :
    ∃ x, x.isOperand = true ∧
    Denotes v AfterFactorials .atom [x] e ∧ ∀ opened rest, (opened = true → rest ≠ []) →
      enfoldFactorials opened [] (items ++ rest) = enfoldFactorials opened [x] rest := by
  generalize hk : Strength.factorial = k at h
  induction h with
  | tighter _ h _ =>
    subst hk
    obtain ⟨x, rfl, hx⟩ := Denotes.eq_operand h
    exact ⟨x, hx, h,
      fun opened rest _ => by
        rw [List.singleton_append, enfoldFactorials_operand hx, List.nil_append]⟩
  | factorial h ih =>
    obtain ⟨x, hx, hatom, heq⟩ := ih rfl
    have hgroup : Denotes v AfterFactorials .atom [.group ([x] ++ [.sign '!'])] (.factorial _) :=
      .group (.factorial (by simpa [Operands] using hx))
        (toSum (.factorial (hatom.ofAtom .factorial)))
    refine ⟨_, rfl, hgroup, fun opened rest hrest => ?_⟩
    rw [List.append_assoc, List.singleton_append, heq _ _ (by simp), enfoldFactorials,
      if_pos ⟨rfl, by simp, by tauto⟩]
  | @operator op _ _ _ _ _ hop => cases op <;> cases hk <;> cases hop
  | difference | negative | negativeExponent | terminal | group | call => cases hk

/-- In a part of a level every factorial gets a group. -/
theorem Denotes.enfoldFactorials (h : Denotes v AfterFactorials k items e) :
    Denotes v AfterFactorials k (enfoldFactorials false [] items) e ∧
      .sign '!' ∉ Abacus.enfoldFactorials false [] items := by
  induction h with
  | tighter hk _ ih => exact ⟨.tighter hk ih.1, ih.2⟩
  | @operator op _ _ _ _ _ hk hop hsign _ _ ihl ihr =>
    have hne : op.symbol ≠ '!' := by cases op <;> decide
    rw [enfoldFactorials_append hne]
    refine ⟨.operator hk hop
      (fun h => unsigned_enfoldFactorials (by simp [Unsigned]) fun _ => hsign h) ihl.1 ihr.1, ?_⟩
    simp [ihl.2, ihr.2, hne.symm]
  | difference hsign _ _ ihl ihr =>
    rw [enfoldFactorials_append (by decide)]
    refine ⟨.difference (unsigned_enfoldFactorials (by simp [Unsigned]) fun _ => hsign) ihl.1 ihr.1,
      ?_⟩
    simp [ihl.2, ihr.2]
  | negative _ ih =>
    rw [enfoldFactorials_sign (by decide), List.nil_append]
    exact ⟨.negative ih.1, by simp [ih.2]⟩
  | negativeExponent _ _ ihl ihr =>
    rw [enfoldFactorials_append (by decide), enfoldFactorials_sign (by decide), List.nil_append]
    exact ⟨.negativeExponent ihl.1 ihr.1, by simp [ihl.2, ihr.2]⟩
  | factorial h ih =>
    obtain ⟨x, hx, hatom, heq⟩ := (Denotes.factorial h).enfold_factorial
    have hall := heq false [] (by simp)
    rw [List.append_nil, enfoldFactorials_nil] at hall
    rw [hall]
    exact ⟨hatom.ofAtom _, by simpa using (not_sign_of_isOperand hx).symm⟩
  | terminal h =>
    rw [enfoldFactorials_single rfl]
    exact ⟨.terminal h, by simp⟩
  | group hlevel h _ =>
    rw [enfoldFactorials_single rfl]
    exact ⟨.group hlevel h, by simp⟩
  | call hlevel harity hcount hinner hargs hcall _ =>
    rw [enfoldFactorials_single rfl]
    exact ⟨.call hlevel harity hcount hinner hargs hcall, by simp⟩

/-- In a level that is one operand with its factorials the last factorial stays where it is. -/
theorem Denotes.enfoldFactorials_level (h : Denotes v AfterFactorials k items e) :
    Denotes v AfterFactorials k (Abacus.enfoldFactorials true [] items) e ∧
      AfterFactorials (Abacus.enfoldFactorials true [] items) := by
  have hpart {k : Strength} {items : List Item} {e : Expr} (h : Denotes v AfterFactorials k items e)
      (heq : Abacus.enfoldFactorials true [] items = Abacus.enfoldFactorials false [] items) :
      Denotes v AfterFactorials k (Abacus.enfoldFactorials true [] items) e ∧
        AfterFactorials (Abacus.enfoldFactorials true [] items) := by
    rw [heq]
    exact ⟨h.enfoldFactorials.1, .other h.enfoldFactorials.2⟩
  induction h with
  | tighter hk _ ih => exact ⟨.tighter hk ih.1, ih.2⟩
  | @operator op _ _ _ _ _ hk hop hsign hl hr _ _ =>
    have hne : op.symbol ≠ '!' := by cases op <;> decide
    exact hpart (.operator hk hop hsign hl hr)
      (by rw [enfoldFactorials_append hne, enfoldFactorials_append hne])
  | difference hsign hl hr _ _ =>
    exact hpart (.difference hsign hl hr)
      (by rw [enfoldFactorials_append (by decide), enfoldFactorials_append (by decide)])
  | negative h _ =>
    exact hpart (.negative h)
      (by rw [enfoldFactorials_sign (by decide), enfoldFactorials_sign (by decide)])
  | negativeExponent hl hr _ _ =>
    exact hpart (.negativeExponent hl hr)
      (by rw [enfoldFactorials_append (by decide), enfoldFactorials_append (by decide)])
  | factorial h _ =>
    obtain ⟨x, hx, hatom, heq⟩ := h.enfold_factorial
    have hkept : Abacus.enfoldFactorials true [x] [.sign '!'] = [x] ++ [.sign '!'] := by
      rw [Abacus.enfoldFactorials, if_neg (by simp), enfoldFactorials_nil]
    rw [heq true _ (by simp), hkept]
    exact ⟨.factorial (hatom.ofAtom _), .factorial (by simpa [Operands] using hx)⟩
  | terminal h =>
    exact hpart (.terminal h) (by rw [enfoldFactorials_single rfl, enfoldFactorials_single rfl])
  | group hlevel h _ =>
    exact hpart (.group hlevel h)
      (by rw [enfoldFactorials_single rfl, enfoldFactorials_single rfl])
  | call hlevel harity hcount hinner hargs hcall _ =>
    exact hpart (.call hlevel harity hcount hinner hargs hcall)
      (by rw [enfoldFactorials_single rfl, enfoldFactorials_single rfl])

theorem Lists.enfoldFactorials (h : Lists v AfterFactorials items es) :
    Lists v AfterFactorials (Abacus.enfoldFactorials false [] items) es ∧
      .sign '!' ∉ Abacus.enfoldFactorials false [] items := by
  induction h with
  | none =>
    rw [enfoldFactorials_nil]
    exact ⟨.none, by simp⟩
  | last h => exact ⟨.last h.enfoldFactorials.1, h.enfoldFactorials.2⟩
  | cons h _ hne ih =>
    rw [enfoldFactorials_append (by decide)]
    exact ⟨.cons h.enfoldFactorials.1 ih.1 hne, by simp [h.enfoldFactorials.2, ih.2]⟩

theorem Lists.enfoldFactorials_level (h : Lists v AfterFactorials items es) :
    Lists v AfterFactorials (Abacus.enfoldFactorials true [] items) es ∧
      AfterFactorials (Abacus.enfoldFactorials true [] items) := by
  cases h with
  | none =>
    rw [enfoldFactorials_nil]
    exact ⟨.none, .other (by simp)⟩
  | last h => exact ⟨.last h.enfoldFactorials_level.1, h.enfoldFactorials_level.2⟩
  | cons h hrest hne =>
    have hall := (Lists.cons h hrest hne).enfoldFactorials
    rw [enfoldFactorials_append (by decide)] at hall ⊢
    exact ⟨hall.1, .other hall.2⟩

theorem Denotes.apartFactorials (h : Denotes v (fun _ => True) .sum items e) :
    ∃ e', Expr.Respelled e e' ∧ Denotes v AfterFactorials .sum (apartFactorials items) e' ∧
      .sign '!' ∉ Abacus.apartFactorials items := by
  obtain ⟨e', halike, h⟩ : ∃ e', Expr.Respelled e e' ∧
      Denotes v AfterFactorials .sum (Abacus.deep (Abacus.enfoldFactorials true []) items) e' :=
    h.deep (fun _ h => h) fun g es _ hes =>
      ⟨es, forall₂_respelled_refl es, hes.enfoldFactorials_level⟩
  exact ⟨e', halike, h.enfoldFactorials⟩

end

end Abacus
