import Abacus.Proofs.Reading.Rendering
import Abacus.Proofs.Workspace.Redefinition

/-! What a tree that was read is written as can be read again, with the value of the tree in which
every product is divided in its last factor. A registered formula may be given its own text once
more, whatever happened to the registries since it was read, as long as none of its variables has
become the name of a formula: the names in its tree then mean what they meant. -/

namespace Abacus

open Relation (ReflTransGen TransGen)

theorem Callable.notConstant (c : Callable) : Constant.ofName? c.name = none := by
  cases c with
  | function f => cases f <;> decide
  | series s => cases s <;> decide

namespace Workspace

variable {w : Workspace} {l : Library} {ops : List Operation} {name : Text} {f : Formula}
  {root e : Expr}

theorem WellFormed.not_callable_constant (h : w.WellFormed) (c : Constant) :
    w.vocabulary.isCallable c.name = false := by
  have hconstant : Constant.ofName? c.name ≠ none := by cases c <;> decide
  rw [← Bool.not_eq_true]
  intro hcallable
  simp only [Vocabulary.isCallable, Registry.contains, Bool.or_eq_true,
    Option.isSome_iff_exists] at hcallable
  rcases hcallable with ⟨k, hk⟩ | ⟨f, hf⟩
  · exact hconstant (Library.name_of_find? hk ▸ k.notConstant)
  · exact hconstant (h.formula hf).1.notConstant

theorem WellFormed.writable_of_read {t : Text} (h : w.WellFormed)
    (hread : Expr.read w.vocabulary t = .ok e) (hfinite : ∀ x ∈ e.numbers, x.isInf = false) :
    e.Writable w.vocabulary :=
  ⟨Expr.legible_of_read hread, Expr.not_callable_of_read h.identified hread,
    Expr.siteFits_of_read hread, hfinite⟩

/-- After every run, what a tree that was read is written as can be read again, unless it is just an
underscore. The leaves are the same, in their order, and so are the names that stand free. The value
is that of the tree with every product divided in its last factor, so it is the same, or the fault
is, if no product is divided. -/
theorem read_render_of_read (l : Library) (ops : List Operation) {t : Text}
    (h : Expr.read (run l ops).vocabulary t = .ok e) (hfinite : ∀ x ∈ e.numbers, x.isInf = false)
    (hname : e ≠ .identifier ['_']) :
    ∃ e', Expr.read (run l ops).vocabulary e.render = .ok e' ∧ e'.leaves = e.leaves ∧
      Expr.SameNames e e' ∧
      (∀ (s : Settings) (scope : List Variable),
        e'.evaluate s (run l ops).formulas scope =
          e.reassociated.evaluate s (run l ops).formulas scope) ∧
      (e.dividesNoProduct = true → ∀ (s : Settings) (scope : List Variable),
        e'.evaluate s (run l ops).formulas scope = e.evaluate s (run l ops).formulas scope) := by
  have hw := wellFormed_run l ops
  obtain ⟨e', hread, halike⟩ :=
    Expr.read_render_reassociated hw.identified hw.not_callable_constant
      (hw.writable_of_read h hfinite) hname
  have hvalue (s : Settings) (scope : List Variable) : e'.evaluate s (run l ops).formulas scope =
      e.reassociated.evaluate s (run l ops).formulas scope := halike.value s _ scope
  refine ⟨e', hread, halike.leaves.trans (Expr.leaves_reassociated e),
    (Expr.sameNames_reassociated e).trans halike.toSameNames, hvalue, fun hdivides s scope => ?_⟩
  rw [hvalue, (Expr.reassociated_eq_self_iff e).mpr hdivides]

/-- No variable of a registered formula is a member of the library, and what it calls is
registered. -/
theorem writable_of_run (hf : (run l ops).formulas.find? name = some f)
    (hroot : f.root? = some root) (hfinite : ∀ x ∈ root.numbers, x.isInf = false)
    (hvariables : ∀ n ∈ root.variableNames, (run l ops).formulas.contains n = false) :
    root.Writable (run l ops).vocabulary := by
  have hw := wellFormed_run l ops
  refine ⟨?_, fun n hn => ?_, fun site hsite => ?_, hfinite⟩
  · rw [vocabulary, library_run]
    refine stored_of_run (P := fun e => e.Legible l) (fun w _ hlibrary text e hread => ?_)
      ops hf hroot
    exact hlibrary ▸ Expr.legible_of_read hread
  · have hlibrary : l.find? n = none := by
      refine stored_of_run (P := fun e => ∀ n ∈ e.variableNames, l.find? n = none)
        (fun w hw hlibrary text e hread n hn => ?_) ops hf hroot n hn
      have hnot := Expr.not_callable_of_read hw.identified hread n hn
      simp only [Vocabulary.isCallable, vocabulary, hlibrary, Bool.or_eq_false_iff,
        Option.isSome_eq_false_iff, Option.isNone_iff_eq_none] at hnot
      exact hnot.1
    simp [Vocabulary.isCallable, vocabulary, library_run, hlibrary, hvariables n hn]
  · obtain ⟨root', hroot', hanswers⟩ := hw.answered hf
    obtain rfl : root = root' := Option.some.inj (hroot.symm.trans hroot')
    obtain ⟨g, hg, hcount⟩ := hanswers site hsite
    exact ⟨(hw.formula hg).1.notInLibrary, g, hg, hcount⟩

/-- A tree with the same names may always be put in the place of the former one. -/
theorem WellFormed.updateFormula_of_sameNames {text : Text} (h : w.WellFormed)
    (hf : w.formulaNamed? name = some f) (hroot : f.root? = some root)
    (hread : Expr.read w.vocabulary text = .ok e) (hnames : Expr.SameNames root e) :
    (Workspace.updateFormula name text).on w =
      (.ok (), { w with formulas := w.formulas.insert (key name) ⟨key name, some e⟩ }) := by
  have hcircle : w.formulas.leadsTo (key name) e.calls = false := by
    rw [← Bool.not_eq_true, Registry.leadsTo_iff]
    rintro ⟨c, hc, hback⟩
    have hcall : w.formulas.Calls (key name) c :=
      ⟨f, hf, by simpa [Formula.calls, hroot, hnames.calls_eq] using hc⟩
    exact h.acyclic _ (TransGen.head' hcall hback)
  have harity : e.freeVariables.length = f.arity := by
    simp [Formula.arity, Formula.freeVariables, hroot, hnames.freeVariables_eq]
  rw [h.updateFormula_of_read hf hread, hcircle, if_pos harity]
  rfl

/-- After every run, a formula whose numbers are finite, none of whose variables is the name of a
formula by now and whose text is not just an underscore is given its own text again: its parameters
and its calls stay, in their order, and so does all else. -/
theorem updateFormula_render (l : Library) (ops : List Operation) {name : Text} {f : Formula}
    {root : Expr} (hf : (run l ops).formulaNamed? name = some f) (hroot : f.root? = some root)
    (hfinite : ∀ x ∈ root.numbers, x.isInf = false)
    (hvariables : ∀ n ∈ root.variableNames, (run l ops).formulas.contains n = false)
    (htext : f.render ≠ ['_']) :
    ∃ g, (updateFormula name f.render).on (run l ops) =
        (.ok (), { run l ops with formulas := (run l ops).formulas.insert (key name) g }) ∧
      g.name = f.name ∧ g.freeVariables = f.freeVariables ∧ g.calls = f.calls ∧
      ((run l ops).formulas.insert (key name) g).find? (key name) = some g ∧
      ∀ other, other ≠ key name →
        ((run l ops).formulas.insert (key name) g).find? other =
          (run l ops).formulas.find? other := by
  have hw := wellFormed_run l ops
  have hrender : f.render = root.render := by simp [Formula.render, hroot]
  have hname : root ≠ .identifier ['_'] := by
    rintro rfl
    exact htext (hrender.trans (by rw [Expr.render]))
  obtain ⟨e, hread, hnames⟩ :=
    Expr.read_render hw.identified hw.not_callable_constant
      (writable_of_run hf hroot hfinite hvariables) hname
  rw [← hrender] at hread
  refine ⟨⟨key name, some e⟩, hw.updateFormula_of_sameNames hf hroot hread hnames,
    (hw.formula hf).2.symm, ?_, ?_, ?_, ?_⟩
  · simp [Formula.freeVariables, hroot, hnames.freeVariables_eq]
  · simp [Formula.calls, hroot, hnames.calls_eq]
  · simp [Registry.find?_insert]
  · exact fun other hother => by simp [Registry.find?_insert, hother]

/-- `g` is written without the parentheses that it was typed with, so its text is read as another
tree, and for a while one of its variables was the name of a formula. -/
theorem updateFormula_render_quotient :
    let w := run .full
      [.createFormula "f".toList "x+1".toList,
        .createFormula "g".toList "(k*f(z))/3--2^sum(i,i,1,k)".toList,
        .createFormula "z".toList "4".toList, .deleteFormula "z".toList]
    ∃ f root, w.formulaNamed? " G ".toList = some f ∧ f.root? = some root ∧
      f.render = "k*f(z)/3+2^sum(i,i,1,k)".toList ∧
      (∀ x ∈ root.numbers, x.isInf = false) ∧
      (∀ n ∈ root.variableNames, w.formulas.contains n = false) ∧
      ∃ g, (updateFormula " G ".toList f.render).on w =
          (.ok (), { w with formulas := w.formulas.insert (key " G ".toList) g }) ∧
        g.freeVariables = ["k".toList, "z".toList] ∧ g.calls = ["f".toList] := by
  intro w
  let name (t : String) : Expr := .identifier t.toList
  let product : Expr := .binary .multiply (name "k") (.call "f".toList [name "z"])
  let root : Expr := .binary .add (.binary .divide product (.number 3))
    (.binary .power (.number 2) (.series .sum "i".toList [name "i", .number 1, name "k"]))
  have hf : w.formulaNamed? " G ".toList = some ⟨"g".toList, some root⟩ := by with_unfolding_all rfl
  have hrender : (⟨"g".toList, some root⟩ : Formula).render = "k*f(z)/3+2^sum(i,i,1,k)".toList := by
    with_unfolding_all rfl
  have hfinite : ∀ x ∈ root.numbers, x.isInf = false := by
    simp only [root, product, name, Expr.numbers, Expr.numbersAll]
    decide
  have hvariables : ∀ n ∈ root.variableNames, w.formulas.contains n = false := by
    intro n hn
    obtain rfl | rfl | rfl : n = "k".toList ∨ n = "z".toList ∨ n = "i".toList := by
      revert n
      decide
    all_goals with_unfolding_all rfl
  obtain ⟨g, hupdate, -, hfree, hcalls, -⟩ :=
    updateFormula_render .full _ hf rfl hfinite hvariables (by rw [hrender]; decide)
  exact ⟨_, root, hf, rfl, hrender, hfinite, hvariables, g, hupdate, hfree.trans (by rfl),
    hcalls.trans (by rfl)⟩

/-- A variable of a formula becomes the name of another formula, and the text of the first one is
not read any more. -/
theorem updateFormula_render_registered :
    let w := run .full
      [.createFormula "f".toList "x+1".toList, .createFormula "x".toList "2".toList]
    ∃ f root, w.formulaNamed? "f".toList = some f ∧ f.root? = some root ∧ f.render = "x+1".toList ∧
      (∀ x ∈ root.numbers, x.isInf = false) ∧
      ((updateFormula "f".toList f.render).on w).1 =
        .error (.unreadable (.notCalled "x".toList)) := by
  intro w
  refine ⟨⟨"f".toList, some (.binary .add (.identifier "x".toList) (.number 1))⟩, _,
    by with_unfolding_all rfl, rfl, by with_unfolding_all rfl, ?_, by with_unfolding_all rfl⟩
  simp only [Expr.numbers]
  decide

end Workspace

end Abacus
