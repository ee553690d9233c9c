import Abacus.Proofs.Reading.Negatives
import Abacus.Proofs.Reading.Tidy
import Abacus.Proofs.Reading.Trees
import Abacus.Proofs.Workspace.Run

/-! Every text of the grammar can be read, and it is read as what it stands for: tidying, grouping,
taking off the outer parentheses and dividing keep the meaning of the layout one after the other. -/

namespace Abacus

section

variable {v : Vocabulary} {k : Strength} {items : List Item} {t : Text} {e : Expr}

theorem Denotes.regrouped (h : Denotes v (fun _ => True) .sum items e) : ∃ e', Expr.Respelled e e' ∧
    Denotes v AfterNegatives .sum (regrouped items) e' ∧
    AfterNegatives (Abacus.regrouped items) := by
  obtain ⟨e₁, halike₁, h₁, hf⟩ := h.apartFactorials
  obtain ⟨e₂, halike₂, h₂, hf, hp⟩ := h₁.apartPowers hf
  obtain ⟨e₃, halike₃, h₃, hshape⟩ := h₂.apartNegatives hf hp
  exact ⟨e₃, halike₁.trans (halike₂.trans halike₃), h₃, hshape⟩

/-- There are no neighbouring groups to make a product of. -/
theorem IsPhrase.scopeNegatives (hv : v.Identified) (h : IsPhrase v (regrouped items))
    (hloose : Loose items) :
    Abacus.scopeNegatives (scopePowers (scopeFactorials (textOf items))) =
      textOf (regrouped items) := by
  rw [Abacus.scopeNegatives, textOf_regrouped hloose]
  exact replacePair_of_tidied (h.tidied hv).tail.left_of_append (by decide)

theorem Denotes.of_group {level : List Item → Prop} {inner : List Item}
    (h : Denotes v level .atom [.group inner] e) : level inner ∧ Denotes v level .sum inner e := by
  generalize hitems : [Item.group inner] = items at h
  cases h with
  | tighter hk _ => exact absurd rfl hk
  | @operator op _ _ _ _ _ hk => cases op <;> cases hk
  | terminal | call => cases hitems
  | group hlevel h =>
    cases hitems
    exact ⟨hlevel, h⟩

/-- A layout without the parentheses around all of it stands for the same tree. -/
theorem Denotes.ungrouped (hv : v.Identified) (h : Denotes v AfterNegatives .sum items e)
    (hshape : AfterNegatives items) :
    ∃ inner, withoutOuterGroups (textOf items) = textOf inner ∧
      Denotes v AfterNegatives .sum inner e ∧ AfterNegatives inner := by
  -- by the length, since there may be parentheses inside of parentheses
  induction hn : (textOf items).length using Nat.strongRecOn generalizing items with
  | _ n ih =>
    subst hn
    by_cases hgroup : ∃ inner, items = [.group inner]
    · obtain ⟨inner, rfl⟩ := hgroup
      obtain ⟨hlevel, hinner⟩ := (h.atom_of_operands (by simp [Operands, Item.isOperand])).of_group
      obtain ⟨g, htext, hg⟩ := ih _ (by simp) hinner hlevel rfl
      exact ⟨g, (withoutOuterGroups_group (hinner.loose hv) hinner.ne_nil).trans htext, hg⟩
    · exact ⟨items, withoutOuterGroups_textOf (h.loose hv) fun inner he => hgroup ⟨inner, he⟩,
        h, hshape⟩

/-- The canonical form of a text of the grammar is the text of a layout in its final form with the
same meaning. -/
theorem Spells.canonical (hv : v.Identified) (h : Spells v .sum t e) (hne : e ≠ .identifier ['_']) :
    ∃ items e', Abacus.canonical v t = .ok (textOf items) ∧ Denotes v AfterNegatives .sum items e' ∧
      AfterNegatives items ∧
      Expr.Respelled e e' := by
  obtain ⟨items, e₁, htidy, h₁, halike₁⟩ := h.tidy hv hne
  obtain ⟨e₂, halike₂, h₂, hshape⟩ := h₁.regrouped
  obtain ⟨inner, htext, hinner, hform⟩ := h₂.ungrouped hv hshape
  have halike := halike₁.trans halike₂
  have hname : e₂ ≠ .identifier ['_'] := (not_congr (halike.identifier _)).mp hne
  refine ⟨inner, e₂, ?_, hinner, hform, halike⟩
  simp only [Abacus.canonical, htidy, ok_bind, (h₂.isPhrase hv hname).scopeNegatives hv
    (h₁.loose hv), htext, (hinner.isPhrase hv hname).tidy hv]

theorem Spells.read (hv : v.Identified) (h : Spells v .sum t e) (hne : e ≠ .identifier ['_']) :
    ∃ e', Expr.read v t = .ok e' ∧ Expr.Respelled e e' := by
  obtain ⟨items, e₁, hcanonical, h₁, hshape, halike₁⟩ := h.canonical hv hne
  obtain ⟨e₂, hbuild, halike₂⟩ := (h₁.builds hv hshape).like
  refine ⟨e₂, ?_, halike₁.trans halike₂⟩
  simp only [Expr.read, hcanonical, ok_bind, hbuild]

theorem IsCallTo.ne_identifier {name : Text} {args : List Expr} (h : IsCallTo v name args e)
    (x : Text) : e ≠ .identifier x := by
  cases h <;> exact Expr.noConfusion

theorem Reads.ne_underscore (h : Reads v k t e) : e ≠ .identifier ['_'] := by
  induction h with
  | tighter _ _ ih | group _ ih => exact ih
  | operator | difference | negative | negativeExponent | factorial => exact Expr.noConfusion
  | leaf h => cases h <;> simp_all
  | call _ _ _ hcall => exact hcall.ne_identifier ['_']

theorem Reads.read (hv : v.Identified) (h : Reads v .sum t e) :
    ∃ e', Expr.read v t = .ok e' ∧ Expr.Respelled e e' :=
  (h.spells hv).read hv h.ne_underscore

/-- A text may be divided in several ways, but all of them have the same value. -/
theorem Reads.value_unique {e' : Expr} (hv : v.Identified) (h : Reads v .sum t e)
    (h' : Reads v .sum t e') (s : Settings) (callees : Callees) (scope : List Variable) :
    e.valueIn s callees scope = e'.valueIn s callees scope := by
  obtain ⟨a, ha, halike⟩ := h.read hv
  obtain ⟨b, hb, hblike⟩ := h'.read hv
  obtain rfl : a = b := Except.ok.inj (ha.symm.trans hb)
  exact (halike.value s callees scope).symm.trans (hblike.value s callees scope)

end

namespace Workspace

/-- In every workspace that can be reached, every text of the grammar is read, and the tree has the
value of the one that the text stands for, or fails in the same way, under all settings and
variables. -/
theorem read_of_reads (l : Library) (ops : List Operation) {t : Text} {e : Expr}
    (h : Reads (run l ops).vocabulary .sum t e) :
    ∃ e', Expr.read (run l ops).vocabulary t = .ok e' ∧ ∀ (s : Settings) (scope : List Variable),
      e'.evaluate s (run l ops).formulas scope = e.evaluate s (run l ops).formulas scope := by
  obtain ⟨e', hread, halike⟩ := h.read (wellFormed_run l ops).identified
  exact ⟨e', hread, fun s scope => halike.value s _ scope⟩

/-- A difference of two minus signs, before a factorial in a quotient whose divisor has a negative
exponent. -/
theorem read_of_reads_difference :
    let w := run .full [.createFormula "f".toList "x^2".toList]
    let e : Expr := .binary .add (.identifier "y".toList) (.negate (.binary .divide
      (.negate (.factorial (.call "f".toList [.number (Decimal.toFloat ⟨25, -1⟩)])))
      (.binary .power (.constant .pi) (.negate (.identifier "z".toList)))))
    Reads w.vocabulary .sum "y--f(2.5)!/pi^-z".toList e ∧
      ∃ e', Expr.read w.vocabulary "y--f(2.5)!/pi^-z".toList = .ok e' ∧
        ∀ (s : Settings) (scope : List Variable),
          e'.evaluate s w.formulas scope = e.evaluate s w.formulas scope := by
  intro w e
  have atom (k : Strength) {t : Text} {e : Expr} (h : Reads w.vocabulary .atom t e) :
      Reads w.vocabulary k t e := by
    cases k <;> repeat first | exact h | refine .tighter (by decide) ?_
  have name {t : Text} (hid : isIdentifier t = true) (hne : t ≠ ['_'])
      (hcall : w.vocabulary.isCallable t = false) (hconstant : Constant.ofName? t = none) :
        Reads w.vocabulary .atom t (.identifier t) := .leaf (.identifier hid hne hcall hconstant)
  have hy := name (t := "y".toList) (by decide) (by decide) (by with_unfolding_all rfl)
    (by with_unfolding_all rfl)
  have hz := name (t := "z".toList) (by decide) (by decide) (by with_unfolding_all rfl)
    (by with_unfolding_all rfl)
  have hpi : Reads w.vocabulary .atom "pi".toList (.constant .pi) :=
    .leaf (.constant .pi (by with_unfolding_all rfl))
  have hnumeral : IsNumeral "2.5".toList ⟨25, -1⟩ :=
    @IsNumeral.pointed ['2'] ['5'] (by simp) (by simp) (List.forall_mem_singleton.mpr rfl)
      (List.forall_mem_singleton.mpr rfl)
  have hargument : Reads w.vocabulary .sum "2.5".toList (.number (Decimal.toFloat ⟨25, -1⟩)) :=
    atom .sum (.leaf (.number hnumeral))
  have hcall : Reads w.vocabulary .atom "f(2.5)".toList
      (.call "f".toList [.number (Decimal.toFloat ⟨25, -1⟩)]) :=
    @Reads.call _ "f".toList [("2.5".toList, .number (Decimal.toFloat ⟨25, -1⟩))] (.exactly 1) _
      (by with_unfolding_all rfl) rfl (by simpa using hargument)
        (.formula (by with_unfolding_all rfl) (by with_unfolding_all rfl))
  have hfactor : Reads w.vocabulary .quotient "-f(2.5)!".toList _ :=
    .tighter (by decide) (.negative (.tighter (by decide) (.factorial (atom .factorial hcall))))
  have hpower : Reads w.vocabulary .factor "pi^-z".toList _ :=
    .tighter (by decide) (.negativeExponent (atom .power hpi) (atom .factorial hz))
  have hquotient : Reads w.vocabulary .quotient "-f(2.5)!/pi^-z".toList _ :=
    @Reads.operator _ .divide _ _ _ _ _ rfl (by decide) hfactor hpower
  have hreads : Reads w.vocabulary .sum "y--f(2.5)!/pi^-z".toList e :=
    .difference (atom .sum hy) (.tighter (by decide) hquotient)
  exact ⟨hreads, read_of_reads _ _ hreads⟩
end Workspace

end Abacus
