import Abacus.Proofs.Evaluation.Faults
import Abacus.Proofs.Evaluation.Safety

/-! The free names of a tree are what its evaluation may read. The collector keeps the names that
are bound on the way down, the evaluator puts each index before the names outside, and both agree on
which places of a name are free: in the body of a series its index hides the outer name, in the
limits it does not. A call starts anew, with a value for each parameter of the formula. -/

namespace Abacus

namespace Expr

variable {s : Settings} {callees : Callees}

mutual

/-- Scopes that agree on the free names and on the bound ones give the same outcome. -/
theorem valueIn_agree : ∀ (e : Expr) (bound : List Text) (scope other : List Variable),
    (∀ name ∈ e.freeOccurrences bound, Variable.valueOf? scope name =
      Variable.valueOf? other name) →
    (∀ name ∈ bound, Variable.valueOf? scope name = Variable.valueOf? other name) →
      e.valueIn s callees scope = e.valueIn s callees other
  | number _, _, _, _, _, _ | constant _, _, _, _, _, _ => by simp only [valueIn]
  | identifier name, bound, scope, other, hfree, hbound => by
    have hname : Variable.valueOf? scope name = Variable.valueOf? other name := by
      by_cases hmem : name ∈ bound
      · exact hbound name hmem
      · exact hfree name (by simp [freeOccurrences, hmem])
    simp only [valueIn, hname]
  | negate operand, bound, scope, other, hfree, hbound => by
    simp only [valueIn, valueIn_agree operand bound scope other hfree hbound]
  | factorial operand, bound, scope, other, hfree, hbound => by
    simp only [valueIn, valueIn_agree operand bound scope other hfree hbound]
  | binary op left right, bound, scope, other, hfree, hbound => by
    simp only [freeOccurrences, List.mem_append] at hfree
    have hleft := valueIn_agree left bound scope other (fun name h => hfree name (.inl h)) hbound
    have hright := valueIn_agree right bound scope other (fun name h => hfree name (.inr h)) hbound
    simp only [valueIn, hleft, hright]
  | function f args, bound, scope, other, hfree, hbound => by
    simp only [valueIn, valuesIn_agree args bound scope other hfree hbound]
  | series k index [], _, _, _, _, _ => by simp only [valueIn]
  | series k index (body :: limits), bound, scope, other, hfree, hbound => by
    simp only [freeOccurrences, List.mem_append] at hfree
    have hlimits :=
      valuesIn_agree limits bound scope other (fun name h => hfree name (.inr h)) hbound
    have hbody (position : Float) : body.valueIn s callees (⟨index, some position⟩ :: scope) =
        body.valueIn s callees (⟨index, some position⟩ :: other) := by
      refine valueIn_agree body (index :: bound) _ _ ?_ ?_
      · intro name hname
        rw [Variable.valueOf?_cons, Variable.valueOf?_cons, hfree name (.inl hname)]
      · intro name hname
        rw [Variable.valueOf?_cons, Variable.valueOf?_cons]
        by_cases hindex : index = name
        · rw [if_pos hindex, if_pos hindex]
        · rw [if_neg hindex, if_neg hindex]
          exact hbound name (List.mem_of_ne_of_mem (fun he => hindex he.symm) hname)
    simp only [valueIn, hbody, hlimits]
  | call name args, bound, scope, other, hfree, hbound => by
    simp only [valueIn, valuesIn_agree args bound scope other hfree hbound]

theorem valuesIn_agree : ∀ (es : List Expr) (bound : List Text) (scope other : List Variable),
    (∀ name ∈ freeOccurrencesAll bound es, Variable.valueOf? scope name =
      Variable.valueOf? other name) →
    (∀ name ∈ bound, Variable.valueOf? scope name = Variable.valueOf? other name) →
      valuesIn s callees scope es = valuesIn s callees other es
  | [], _, _, _, _, _ => by simp only [valuesIn]
  | e :: rest, bound, scope, other, hfree, hbound => by
    simp only [freeOccurrencesAll, List.mem_append] at hfree
    have hfirst := valueIn_agree e bound scope other (fun name h => hfree name (.inl h)) hbound
    have hrest := valuesIn_agree rest bound scope other (fun name h => hfree name (.inr h)) hbound
    simp only [valuesIn, hfirst, hrest]

end

variable {P : EvalError → Prop}

mutual

/-- A name is missed only where it is free and has no value. -/
theorem failsOnly_valueIn (hs : s.RaisesOnly P) (hstructural : ∀ err, err.IsStructural → P err)
    (hcallees : ∀ name value, callees name = some value → ∀ args, FailsOnly P (value args)) :
    ∀ (e : Expr) (bound : List Text) (scope : List Variable),
    (∀ name ∈ e.freeOccurrences bound, Variable.valueOf? scope name = none → P (.noValue name)) →
    (∀ name ∈ bound, Variable.valueOf? scope name ≠ none) → FailsOnly P (e.valueIn s callees scope)
  | number _, _, _, _, _ => by
    simp only [valueIn]
    exact .ok _
  | constant _, _, _, _, _ => by
    simp only [valueIn]
    exact .ok _
  | identifier name, bound, scope, hfree, hbound => by
    simp only [valueIn]
    split
    · exact .ok _
    · next hnone =>
      have hnot : name ∉ bound := fun hmem => hbound name hmem hnone
      exact .error (hfree name (by simp [freeOccurrences, hnot]) hnone)
  | negate operand, bound, scope, hfree, hbound => by
    simp only [valueIn]
    exact .map _ (failsOnly_valueIn hs hstructural hcallees operand bound scope hfree hbound)
  | factorial operand, bound, scope, hfree, hbound => by
    simp only [valueIn]
    exact .bind (failsOnly_valueIn hs hstructural hcallees operand bound scope hfree hbound)
      fun x _ => .factorial hs x
  | binary op left right, bound, scope, hfree, hbound => by
    simp only [freeOccurrences, List.mem_append] at hfree
    have hleft := failsOnly_valueIn hs hstructural hcallees left bound scope
      (fun name h => hfree name (.inl h)) hbound
    have hright := failsOnly_valueIn hs hstructural hcallees right bound scope
      (fun name h => hfree name (.inr h)) hbound
    simp only [valueIn]
    exact .bind hleft fun x _ => .bind hright fun y _ => .operator hs op x y
  | function f args, bound, scope, hfree, hbound => by
    simp only [valueIn]
    refine .bind (failsOnly_valuesIn hs hstructural hcallees args bound scope hfree hbound)
      fun values _ => ?_
    exact .function hs f values fun _ => hstructural _ trivial
  | series k index [], _, _, _, _ => by
    simp only [valueIn]
    exact .error (hstructural _ trivial)
  | series k index (body :: limits), bound, scope, hfree, hbound => by
    simp only [freeOccurrences, List.mem_append] at hfree
    have hlimits := failsOnly_valuesIn hs hstructural hcallees limits bound scope
      (fun name h => hfree name (.inr h)) hbound
    have hbody (position : Float) :
        FailsOnly P (body.valueIn s callees (⟨index, some position⟩ :: scope)) := by
      refine failsOnly_valueIn hs hstructural hcallees body (index :: bound) _ ?_ ?_
      · intro name hname hnone
        rw [Variable.valueOf?_cons] at hnone
        split at hnone
        · cases hnone
        · exact hfree name (.inl hname) hnone
      · intro name hname
        rw [Variable.valueOf?_cons]
        by_cases hindex : index = name
        · simp [hindex]
        · rw [if_neg hindex]
          exact hbound name (List.mem_of_ne_of_mem (fun he => hindex he.symm) hname)
    simp only [valueIn]
    refine .bind hlimits fun values _ => ?_
    split
    · exact .accumulate hs hbody ..
    · exact .accumulate hs hbody ..
    · exact .error (hstructural _ trivial)
  | call name args, bound, scope, hfree, hbound => by
    simp only [valueIn]
    split
    · next value hvalue =>
      exact .bind (failsOnly_valuesIn hs hstructural hcallees args bound scope hfree hbound)
        fun values _ => hcallees name value hvalue values
    · exact .error (hstructural _ trivial)

theorem failsOnly_valuesIn (hs : s.RaisesOnly P) (hstructural : ∀ err, err.IsStructural → P err)
    (hcallees : ∀ name value, callees name = some value → ∀ args, FailsOnly P (value args)) :
    ∀ (es : List Expr) (bound : List Text) (scope : List Variable),
    (∀ name ∈ freeOccurrencesAll bound es, Variable.valueOf? scope name = none →
      P (.noValue name)) →
    (∀ name ∈ bound, Variable.valueOf? scope name ≠ none) →
    FailsOnly P (valuesIn s callees scope es)
  | [], _, _, _, _ => by
    simp only [valuesIn]
    exact .ok _
  | e :: rest, bound, scope, hfree, hbound => by
    simp only [freeOccurrencesAll, List.mem_append] at hfree
    have hfirst := failsOnly_valueIn hs hstructural hcallees e bound scope
      (fun name h => hfree name (.inl h)) hbound
    have hrest := failsOnly_valuesIn hs hstructural hcallees rest bound scope
      (fun name h => hfree name (.inr h)) hbound
    simp only [valuesIn]
    exact .bind hfirst fun _ _ => .bind hrest fun _ _ => .ok _

end

end Expr

section

variable {s : Settings} {P : EvalError → Prop}

theorem Formula.failsOnly_valueFor {callees : Callees} (hs : s.RaisesOnly P)
    (hstructural : ∀ err, err.IsStructural → P err)
    (hcallees : ∀ name value, callees name = some value → ∀ args, FailsOnly P (value args))
    (f : Formula) (name : Text) (args : List Float) :
    FailsOnly P (f.valueFor s callees name args) := by
  cases hroot : f.root? with
  | none =>
    simp only [valueFor, root, hroot, error_bind]
    exact .error (hstructural _ trivial)
  | some root =>
    simp only [valueFor, Formula.root, hroot, ok_bind]
    by_cases hlen : root.freeVariables.length = args.length
    · rw [if_pos hlen]
      refine Expr.failsOnly_valueIn hs hstructural hcallees root [] _ ?_ (fun _ h => by cases h)
      intro free hfree hnone
      have hmem : free ∈ root.freeVariables := by simpa [Expr.freeVariables] using hfree
      exact absurd hnone (Variable.isSome_valueOf?_zipWith hlen hmem)
    · rw [if_neg hlen]
      exact .error (hstructural _ trivial)

theorem Registry.failsOnly_callees (hs : s.RaisesOnly P)
    (hstructural : ∀ err, err.IsStructural → P err) (formulas : Registry Formula) :
    ∀ name value, formulas.callees s name = some value → ∀ args, FailsOnly P (value args) := by
  -- A formula is evaluated with the others, which are fewer.
  induction hn : formulas.entries.length using Nat.strongRecOn generalizing formulas with
  | ind n ih =>
    intro name value hvalue args
    cases hf : formulas.find? name with
    | none =>
      rw [callees_of_not_found hf] at hvalue
      cases hvalue
    | some f =>
      rw [callees_of_find? hf] at hvalue
      cases hvalue
      have hfewer := ih _ (hn ▸ length_erase_lt hf) (formulas.erase name) rfl
      exact f.failsOnly_valueFor hs hstructural hfewer name args

/-- What a tree may end in: faults of its numbers and of its form, and free names without a
value. -/
theorem Expr.failsOnly_evaluate (hs : s.RaisesOnly P)
    (hstructural : ∀ err, err.IsStructural → P err) (formulas : Registry Formula)
    (scope : List Variable) (e : Expr)
    (hfree : ∀ name ∈ e.freeVariables, Variable.valueOf? scope name = none → P (.noValue name)) :
    FailsOnly P (e.evaluate s formulas scope) := by
  refine failsOnly_valueIn hs hstructural (formulas.failsOnly_callees hs hstructural) e [] scope ?_
    (fun _ h => by cases h)
  intro name hname
  exact hfree name (by simpa [freeVariables] using hname)

/-- A fault that the settings do not raise, that is none of the form of the tree and no missing free
name, does not come out of an evaluation. -/
theorem Expr.evaluate_ne_error {fault : EvalError} (hs : s.RaisesOnly (· ≠ fault))
    (hform : ¬ fault.IsStructural) (formulas : Registry Formula) (scope : List Variable) (e : Expr)
    (hfree : ∀ name ∈ e.freeVariables, Variable.valueOf? scope name = none →
      .noValue name ≠ fault) :
    e.evaluate s formulas scope ≠ .error fault := by
  intro herr
  have hstructural : ∀ err : EvalError, err.IsStructural → err ≠ fault := by
    rintro err hstruct rfl
    exact hform hstruct
  have hfails := e.failsOnly_evaluate hs hstructural formulas scope hfree
  rw [herr] at hfails
  exact hfails.of_error rfl

end

/-- Evaluation in any workspace looks at the first entries of the free names of a tree and at no
others: where these agree, so do the outcomes, and where they all hold values, no name is missed. -/
theorem Workspace.evaluate_of_freeVariables (l : Library) (ops : List Operation) (s : Settings)
    (e : Expr) (scope : List Variable) :
    (∀ other : List Variable,
      (∀ name ∈ e.freeVariables, Variable.valueOf? scope name = Variable.valueOf? other name) →
        e.evaluate s (run l ops).formulas scope = e.evaluate s (run l ops).formulas other) ∧
    ((∀ name ∈ e.freeVariables, (Variable.valueOf? scope name).isSome) →
      ∀ name, e.evaluate s (run l ops).formulas scope ≠ .error (.noValue name)) := by
  constructor
  · intro other hagree
    refine Expr.valueIn_agree e [] scope other ?_ (fun _ h => by cases h)
    intro name hname
    exact hagree name (by simpa [Expr.freeVariables] using hname)
  · intro hvalued name
    have hs : s.RaisesOnly (· ≠ .noValue name) := by constructor <;> intros <;> simp
    refine e.evaluate_ne_error hs id (run l ops).formulas scope fun free hfree hnone => ?_
    have hsome := hvalued free hfree
    rw [hnone] at hsome
    cases hsome

/-- In `sum(f(i)*x, i, i, 3)` the last place of `i` is a free one; a second `x` and a `y` are not
looked at. -/
theorem Workspace.evaluate_of_freeVariables_shadowed :
    let formulas := (run .full [.createFormula "f".toList "y+1".toList]).formulas
    let i : Expr := .identifier "i".toList
    let e : Expr := .series .sum "i".toList
      [.binary .multiply (.call "f".toList [i]) (.identifier "x".toList), i, .number 3]
    let scope : List Variable := [⟨"i".toList, some 1⟩, ⟨"x".toList, some 2⟩]
    let other : List Variable :=
      [⟨"x".toList, some 2⟩, ⟨"y".toList, none⟩, ⟨"x".toList, none⟩, ⟨"i".toList, some 1⟩]
    e.freeVariables = ["x".toList, "i".toList] ∧
    e.evaluate {} formulas scope = e.evaluate {} formulas other ∧
    ∀ name, e.evaluate {} formulas scope ≠ .error (.noValue name) := by
  intro formulas i e scope other
  have hfree : e.freeVariables = ["x".toList, "i".toList] := by rfl
  obtain ⟨hagree, hvalued⟩ :=
    evaluate_of_freeVariables .full [.createFormula "f".toList "y+1".toList] {} e scope
  refine ⟨hfree, hagree other ?_, hvalued ?_⟩
  all_goals
    intro name hname
    rw [hfree, List.mem_pair] at hname
    rcases hname with rfl | rfl <;> rfl

end Abacus
