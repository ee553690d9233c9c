import Abacus.Proofs.Canonical.NormalForm
import Abacus.Proofs.Canonical.Uncalled
import Abacus.Proofs.Workspace.WellFormed

/-! What becomes of a registered formula that is given a new text. A text that was read is refused
for two reasons only: the new calls would close a circle, or another formula calls this one and
relies on the number of its parameters. -/

namespace Abacus

open Relation (ReflTransGen TransGen)

namespace Registry

/-- Some formula other than this one calls it. -/
def CalledElsewhere (formulas : Registry Formula) (name : Text) : Prop :=
  ∃ caller, caller ≠ name ∧ formulas.Calls caller name

variable {formulas : Registry Formula} {name : Text} {f : Formula}

theorem exists_caller?_iff (h : formulas.Ordered) :
    (∃ caller, formulas.caller? name = some caller) ↔ formulas.CalledElsewhere name := by
  rw [← Option.isSome_iff_exists, Option.isSome_iff_ne_none, ne_eq, caller?_eq_none_iff h]
  simp [CalledElsewhere]

/-- The search for the name among the calls of a formula finds it just when the formula may not be
put in there. -/
theorem leadsTo_calls_iff (h : formulas.Acyclic) :
    formulas.leadsTo name f.calls = true ↔ ¬ (formulas.insert name f).Acyclic := by
  rw [acyclic_insert_iff h, leadsTo_iff]
  simp

end Registry

namespace Workspace

variable {w : Workspace} {name text : Text} {former : Formula} {root : Expr}

/-- A registered name is read as a call wherever it stands, so it is no parameter of a formula that
is read. -/
theorem WellFormed.define_of_registered (h : w.WellFormed)
    (hname : w.formulas.find? name = some former) (hread : Expr.read w.vocabulary text = .ok root) :
    w.define name text = .ok ⟨name, some root⟩ := by
  have hcallable : w.vocabulary.isCallable name = true := by
    simp [Vocabulary.isCallable, vocabulary, Registry.contains, hname]
  have hfree : name ∉ root.freeVariables := by
    intro hmem
    have hvariable := Expr.freeOccurrences_subset root [] (Expr.mem_freeVariables.mp hmem)
    simp [Expr.not_callable_of_read h.identified hread name hvariable] at hcallable
  simp [define, hread, hfree]

/-- The decision on a text that was read, in the order of its tests. -/
theorem WellFormed.updateFormula_of_read (h : w.WellFormed)
    (hformer : w.formulaNamed? name = some former)
    (hread : Expr.read w.vocabulary text = .ok root) :
    (Workspace.updateFormula name text).on w =
      if w.formulas.leadsTo (key name) root.calls then (.error (.recursive (key name)), w)
      else
        match if root.freeVariables.length = former.arity then none
          else w.formulas.caller? (key name) with
        | some caller => (.error (.inUse (key name) caller), w)
        | none =>
          (.ok (), { w with formulas := w.formulas.insert (key name) ⟨key name, some root⟩ }) := by
  simp only [Workspace.updateFormula, Action.on_check_bind, hformer, found,
    h.define_of_registered hformer hread]
  have hcalls : (⟨key name, some root⟩ : Formula).calls = root.calls := rfl
  have harity : (⟨key name, some root⟩ : Formula).arity = root.freeVariables.length := rfl
  rw [checkCircle, checkUse, hcalls, harity]
  by_cases hleads : w.formulas.leadsTo (key name) root.calls = true
  · rw [if_pos hleads, if_pos hleads]
  · rw [if_neg hleads, if_neg hleads]
    by_cases hsame : root.freeVariables.length = former.arity
    · rw [if_pos hsame, if_pos hsame]
      rfl
    · rw [if_neg hsame, if_neg hsame]
      cases w.formulas.caller? (key name) <;> rfl

/-- After every run a formula is given the tree of its new text unless the calls would go in a
circle or others call it with the former number of arguments; and then no other entry is changed. -/
theorem updateFormula_decides (l : Library) (ops : List Operation) {name text : Text}
    {former : Formula} {root : Expr} (hformer : (run l ops).formulaNamed? name = some former)
    (hread : Expr.read (run l ops).vocabulary text = .ok root) :
    let w := run l ops
    let formulas := w.formulas.insert (key name) ⟨key name, some root⟩
    let relied := root.freeVariables.length ≠ former.arity ∧ w.formulas.CalledElsewhere (key name)
    ((∃ n, ((updateFormula name text).on w).1 = .error (.recursive n)) ↔ ¬ formulas.Acyclic) ∧
      (formulas.Acyclic →
        ((∃ n caller, ((updateFormula name text).on w).1 = .error (.inUse n caller)) ↔ relied) ∧
          (¬ relied → (updateFormula name text).on w = (.ok (), { w with formulas := formulas }))) ∧
      formulas.find? (key name) = some ⟨key name, some root⟩ ∧
      ∀ other, other ≠ key name → formulas.find? other = w.formulas.find? other := by
  intro w formulas relied
  have hw : w.WellFormed := wellFormed_run l ops
  have hdecision := hw.updateFormula_of_read hformer hread
  have hcircle : w.formulas.leadsTo (key name) root.calls = true ↔ ¬ formulas.Acyclic :=
    Registry.leadsTo_calls_iff (f := ⟨key name, some root⟩) hw.acyclic
  refine ⟨?_, fun hacyclic => ?_, by simp [formulas, Registry.find?_insert],
    fun other hother => by simp [formulas, Registry.find?_insert, hother]⟩
  · rw [← hcircle, hdecision]
    split
    · next hleads => simp [hleads]
    · next hleads => split <;> simp [hleads]
  · have hleads : w.formulas.leadsTo (key name) root.calls ≠ true := fun hleads =>
      hcircle.mp hleads hacyclic
    rw [if_neg hleads] at hdecision
    rw [hdecision]
    by_cases harity : root.freeVariables.length = former.arity
    · simp [relied, harity, formulas]
    · rw [if_neg harity]
      cases hcaller : w.formulas.caller? (key name) with
      | some caller =>
        have helsewhere := (Registry.exists_caller?_iff hw.orderedFormulas).mp ⟨caller, hcaller⟩
        simp [relied, harity, helsewhere]
      | none =>
        have helsewhere : ¬ w.formulas.CalledElsewhere (key name) := by
          rw [← Registry.exists_caller?_iff hw.orderedFormulas, hcaller]
          simp
        simp [relied, helsewhere, formulas]

/-- `g` calls `f`: a text of `f` that calls `g` closes a circle, and one with another parameter
leaves the call unanswered. -/
theorem updateFormula_decides_caller :
    let w := run .full
      [.createFormula "f".toList "x+1".toList, .createFormula "g".toList "2*f(y)".toList]
    (∃ former, w.formulaNamed? " F ".toList = some former ∧ former.arity = 1) ∧
      Expr.read w.vocabulary "g(x)".toList = .ok (.call "g".toList [.identifier "x".toList]) ∧
      (∃ n, ((updateFormula " F ".toList "g(x)".toList).on w).1 = .error (.recursive n)) ∧
      Expr.read w.vocabulary "x*z".toList =
        .ok (.binary .multiply (.identifier "x".toList) (.identifier "z".toList)) ∧
      ∃ n caller, ((updateFormula " F ".toList "x*z".toList).on w).1 =
        .error (.inUse n caller) := by
  intro w
  have hw : w.WellFormed := wellFormed_run .full _
  have hformer : w.formulaNamed? " F ".toList =
      some ⟨"f".toList, some (.binary .add (.identifier "x".toList) (.number 1))⟩ := by
    with_unfolding_all rfl
  have hcircle : Expr.read w.vocabulary "g(x)".toList =
      .ok (.call "g".toList [.identifier "x".toList]) := by
    with_unfolding_all rfl
  have hproduct : Expr.read w.vocabulary "x*z".toList =
      .ok (.binary .multiply (.identifier "x".toList) (.identifier "z".toList)) := by
    with_unfolding_all rfl
  have hcalls : w.formulas.Calls "g".toList "f".toList :=
    ⟨⟨"g".toList, some (.binary .multiply (.number 2) (.call "f".toList [.identifier "y".toList]))⟩,
      by with_unfolding_all rfl, by decide⟩
  have hkey : key " F ".toList = "f".toList := by with_unfolding_all rfl
  refine ⟨⟨_, hformer, by decide⟩, hcircle, ?_, hproduct, ?_⟩
  · obtain ⟨hrecursive, -⟩ := updateFormula_decides .full _ hformer hcircle
    refine hrecursive.mpr fun hacyclic => hacyclic "f".toList ?_
    have hnew : "g".toList ∈ (Expr.call "g".toList [.identifier "x".toList]).calls := by decide
    refine .tail (.single (Registry.calls_insert.mpr (.inl ⟨hkey.symm, hnew⟩)))
      (Registry.calls_insert.mpr (.inr ⟨?_, hcalls⟩))
    rw [hkey]
    decide
  · obtain ⟨-, hdecided, -⟩ := updateFormula_decides .full _ hformer hproduct
    refine (hdecided ((Registry.acyclic_insert_iff hw.acyclic).mpr fun c hc => by cases hc)).1.mpr
      ⟨by decide, "g".toList, ?_, ?_⟩
    · rw [hkey]
      decide
    · rw [hkey]
      exact hcalls

end Workspace

end Abacus
