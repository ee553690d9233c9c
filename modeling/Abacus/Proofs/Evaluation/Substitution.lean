import Mathlib.Logic.Function.Basic
import Abacus.Proofs.Evaluation.Safety

/-! Values in place of names. A formula that is called has the value of its tree with the values of
the arguments written at the free places of the parameters, so nothing that surrounds the call is
seen in it. -/

namespace Abacus

namespace Expr

mutual

/-- Puts values at the free places of their names. In the body of a series the index hides a value
of its name. -/
def substitute (values : Text → Option Float) : Expr → Expr
  | number value => number value
  | constant c => constant c
  | identifier name =>
    match values name with
    | some value => number value
    | none => identifier name
  | negate operand => negate (operand.substitute values)
  | factorial operand => factorial (operand.substitute values)
  | binary op left right => binary op (left.substitute values) (right.substitute values)
  | function f args => function f (substituteAll values args)
  | series k index [] => series k index []
  | series k index (body :: limits) =>
    series k index
      (body.substitute (Function.update values index none) :: substituteAll values limits)
  | call name args => call name (substituteAll values args)

def substituteAll (values : Text → Option Float) : List Expr → List Expr
  | [] => []
  | e :: rest => e.substitute values :: substituteAll values rest

end

variable {s : Settings} {callees : Callees}

mutual

/-- A name may have its value from the scope or have it written in its place. -/
theorem valueIn_substitute :
    ∀ (e : Expr) (values : Text → Option Float) (scope other : List Variable),
    (∀ name, Variable.valueOf? scope name = (values name).or (Variable.valueOf? other name)) →
      (e.substitute values).valueIn s callees other = e.valueIn s callees scope
  | number _, _, _, _, _ | constant _, _, _, _, _ => by simp only [substitute, valueIn]
  | identifier name, values, scope, other, h => by
    simp only [substitute, valueIn, h name]
    cases values name with
    | none => simp only [Option.none_or, valueIn]
    | some value => simp only [Option.some_or, valueIn]
  | negate operand, values, scope, other, h => by
    simp only [substitute, valueIn, valueIn_substitute operand values scope other h]
  | factorial operand, values, scope, other, h => by
    simp only [substitute, valueIn, valueIn_substitute operand values scope other h]
  | binary op left right, values, scope, other, h => by
    simp only [substitute, valueIn, valueIn_substitute left values scope other h,
      valueIn_substitute right values scope other h]
  | function f args, values, scope, other, h => by
    simp only [substitute, valueIn, valuesIn_substituteAll args values scope other h]
  | series k index [], _, _, _, _ => by simp only [substitute, valueIn]
  | series k index (body :: limits), values, scope, other, h => by
    have hbody (position : Float) : (body.substitute (Function.update values index none)).valueIn s
        callees (⟨index, some position⟩ :: other) =
          body.valueIn s callees (⟨index, some position⟩ :: scope) := by
      refine valueIn_substitute body _ _ _ fun name => ?_
      rw [Variable.valueOf?_cons, Variable.valueOf?_cons]
      by_cases hindex : name = index
      · simp [hindex]
      · rw [if_neg (Ne.symm hindex), if_neg (Ne.symm hindex), Function.update_of_ne hindex, h name]
    simp only [substitute, valueIn, hbody, valuesIn_substituteAll limits values scope other h]
  | call name args, values, scope, other, h => by
    simp only [substitute, valueIn, valuesIn_substituteAll args values scope other h]

theorem valuesIn_substituteAll :
    ∀ (es : List Expr) (values : Text → Option Float) (scope other : List Variable),
    (∀ name, Variable.valueOf? scope name = (values name).or (Variable.valueOf? other name)) →
      valuesIn s callees other (substituteAll values es) = valuesIn s callees scope es
  | [], _, _, _, _ => by simp only [substituteAll, valuesIn]
  | e :: rest, values, scope, other, h => by
    have hrest := valuesIn_substituteAll rest values scope other h
    simp only [substituteAll, valuesIn, valueIn_substitute e values scope other h, hrest]

end

theorem valuesIn_of_error {scope : List Variable} {before after : List Expr} {e : Expr}
    {err : EvalError} (hbefore : ∀ b ∈ before, ∃ x, b.valueIn s callees scope = .ok x)
    (he : e.valueIn s callees scope = .error err) :
    valuesIn s callees scope (before ++ e :: after) = .error err := by
  induction before with
  | nil => simp only [List.nil_append, valuesIn, he, error_bind]
  | cons b rest ih =>
    obtain ⟨⟨x, hx⟩, hrest⟩ := List.forall_mem_cons.mp hbefore
    simp only [List.cons_append, valuesIn, hx, ih hrest, ok_bind, error_bind]

end Expr

theorem Variable.valueOf?_zipWith (names : List Text) (values : List Float) (name : Text) :
    valueOf? (List.zipWith (fun p x => ⟨p, some x⟩) names values) name =
      (names.zip values).lookup name := by
  induction names generalizing values with
  | nil => rfl
  | cons p names ih =>
    cases values with
    | nil => rfl
    | cons x values =>
      rw [List.zipWith_cons_cons, List.zip_cons_cons, valueOf?_cons,
        Registry.lookup_cons, ih values]
      simp only [eq_comm]

/-- Where there are as many arguments as parameters, a call is the tree with the arguments in place
of the parameters. -/
theorem Formula.valueFor_eq_substitute {f : Formula} {root : Expr} (hroot : f.root? = some root)
    (s : Settings) (callees : Callees) (name : Text) {values : List Float}
    (hlen : values.length = root.freeVariables.length) :
    f.valueFor s callees name values =
      (root.substitute fun p => (root.freeVariables.zip values).lookup p).valueIn s callees [] := by
  simp only [valueFor, Formula.root, hroot, ok_bind, if_pos hlen.symm]
  refine (Expr.valueIn_substitute root _ _ [] fun p => ?_).symm
  rw [Variable.valueOf?_zipWith]
  exact (Option.or_none ..).symm

namespace Workspace

/-- A call of a registered formula has the value of its tree with the values of the arguments at the
free places of the parameters, for which no variable is needed; and where arguments fail, it fails
as the first of them does. -/
theorem call_eq_substitute (l : Library) (ops : List Operation) {name : Text} {f : Formula}
    (hf : (run l ops).formulas.find? name = some f) (s : Settings) (scope : List Variable) :
    let formulas := (run l ops).formulas
    ∃ root, f.root? = some root ∧
      (∀ (args : List Expr) (values : List Float), values.length = root.freeVariables.length →
        List.Forall₂ (fun a x => a.evaluate s formulas scope = .ok x) args values →
          (Expr.call name args).evaluate s formulas scope =
            (root.substitute fun p => (root.freeVariables.zip values).lookup p).evaluate s
              formulas []) ∧
      ∀ (before after : List Expr) (a : Expr) (err : EvalError),
        (∀ b ∈ before, ∃ x, b.evaluate s formulas scope = .ok x) →
        a.evaluate s formulas scope = .error err →
          (Expr.call name (before ++ a :: after)).evaluate s formulas scope = .error err := by
  intro formulas
  have hw : (run l ops).WellFormed := wellFormed_run l ops
  obtain ⟨root, hroot, -⟩ := hw.answered hf
  have hcallee : formulas.callees s name = some (f.valueFor s (formulas.callees s) name) :=
    Registry.callees_eq hw.acyclic hw.registered_of_calls s hf
  refine ⟨root, hroot, fun args values hlen hargs => ?_, fun before after a err hbefore ha => ?_⟩
  · have hvalues : Expr.valuesIn s (formulas.callees s) scope args = .ok values :=
      Expr.valuesIn_eq_ok.mpr hargs
    simp only [Expr.evaluate, Expr.valueIn, hcallee, hvalues, ok_bind]
    exact f.valueFor_eq_substitute hroot s _ name hlen
  · have hfault : Expr.valuesIn s (formulas.callees s) scope (before ++ a :: after) = .error err :=
      Expr.valuesIn_of_error hbefore ha
    simp only [Expr.evaluate, Expr.valueIn, hcallee, hfault, error_bind]

/-- In `sum(i*x,i,1,x)+y+i` the index is hidden from the argument `i`; what the caller calls `x`,
`y` and `i` is not seen. -/
theorem call_eq_substitute_shadowed :
    let formulas := (run .full [.createFormula "f".toList "sum(i*x,i,1,x)+y+i".toList]).formulas
    let i : Expr := .identifier "i".toList
    let x : Expr := .identifier "x".toList
    let y : Expr := .identifier "y".toList
    let tree (i' x' y' : Expr) : Expr :=
      .binary .add
        (.binary .add (.series .sum "i".toList [.binary .multiply i x', .number 1, x']) y') i'
    let scope : List Variable := [⟨"i".toList, some 5⟩, ⟨"x".toList, some 7⟩, ⟨"y".toList, some 9⟩]
    formulas.find? "f".toList = some ⟨"f".toList, some (tree i x y)⟩ ∧
      (Expr.call "f".toList [y, i, x]).evaluate {} formulas scope =
        (tree (.number 7) (.number 9) (.number 5)).evaluate {} formulas [] ∧
      (Expr.call "f".toList [y, .identifier "z".toList, .identifier "w".toList]).evaluate {}
        formulas scope = .error (.noValue "z".toList) := by
  intro formulas i x y tree scope
  have hf : formulas.find? "f".toList = some ⟨"f".toList, some (tree i x y)⟩ := by
    with_unfolding_all rfl
  obtain ⟨root, hroot, hvalue, hfault⟩ :=
    call_eq_substitute .full [.createFormula "f".toList "sum(i*x,i,1,x)+y+i".toList] hf {} scope
  cases hroot
  refine ⟨hf, hvalue [y, i, x] [9, 5, 7] rfl (.cons rfl (.cons rfl (.cons rfl .nil))), ?_⟩
  exact hfault [y] [.identifier "w".toList] (.identifier "z".toList)
    _ (List.forall_mem_singleton.mpr ⟨9, rfl⟩) rfl

end Workspace

end Abacus
