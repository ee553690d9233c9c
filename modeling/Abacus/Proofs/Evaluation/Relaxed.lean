import Abacus.Proofs.Evaluation.FreeNames

/-! Two evaluations side by side, the second under settings that take fewer faults for errors. They
agree step by step up to the first fault that only the first settings raise; nothing else looks at
the settings that differ. -/

namespace Abacus

/-- The faults that settings can suppress. -/
def EvalError.IsSuppressible : EvalError → Prop
  | .undefined _ | .divisionByZero => True
  | _ => False

/-- The other outcome is the same unless the first one is a fault that settings can suppress. -/
inductive Relaxes {α : Type} : Except EvalError α → Except EvalError α → Prop where
  | same (x : Except EvalError α) : Relaxes x x
  | suppressed {err : EvalError} (h : err.IsSuppressible) (y : Except EvalError α) :
    Relaxes (.error err) y

/-- Settings `s'` raise no fault that `s` does not raise, and are otherwise the same. -/
structure Settings.Relaxed (s s' : Settings) : Prop where
  angleUnit : s'.angleUnit = s.angleUnit
  gammaFactorials : s'.gammaFactorials = s.gammaFactorials
  raiseDivisionByZero : s'.raiseDivisionByZero = true → s.raiseDivisionByZero = true
  raiseUndefined : s'.raiseUndefined = true → s.raiseUndefined = true

namespace Relaxes

variable {α β : Type}

theorem eq_of_error {x y : Except EvalError α} (h : Relaxes x y)
    (hx : ∀ err, x = .error err → ¬ err.IsSuppressible) : x = y := by
  cases h with
  | same => rfl
  | suppressed herr => exact absurd herr (hx _ rfl)

theorem bind {x y : Except EvalError α} {f g : α → Except EvalError β} (hx : Relaxes x y)
    (hf : ∀ a, Relaxes (f a) (g a)) : Relaxes (x >>= f) (y >>= g) := by
  cases hx with
  | same =>
    cases x with
    | ok a => exact hf a
    | error err => exact same _
  | suppressed h => exact suppressed h _

theorem map {x y : Except EvalError α} (f : α → β) (hx : Relaxes x y) :
    Relaxes (f <$> x) (f <$> y) := by
  cases hx with
  | same => exact same _
  | suppressed h => exact suppressed h _

theorem ite {c : Prop} [Decidable c] {x y x' y' : Except EvalError α} (hx : Relaxes x x')
    (hy : Relaxes y y') : Relaxes (if c then x else y) (if c then x' else y') := by
  by_cases hc : c
  · rw [if_pos hc, if_pos hc]
    exact hx
  · rw [if_neg hc, if_neg hc]
    exact hy

section

variable {s s' : Settings} (hs : s.Relaxed s')
include hs

theorem undefined (operation : Undefined) :
    Relaxes (s.undefined operation) (s'.undefined operation) := by
  unfold Settings.undefined
  by_cases hraise : s.raiseUndefined = true
  · rw [if_pos hraise]
    exact suppressed (show (EvalError.undefined operation).IsSuppressible from trivial) _
  · have hquiet : ¬ s'.raiseUndefined = true := fun h => hraise (hs.raiseUndefined h)
    rw [if_neg hraise, if_neg hquiet]
    exact same _

theorem undefinedIf (f : Function) (args : List Float) (bad : Bool) (value : Float) :
    Relaxes (f.undefinedIf s args bad value) (f.undefinedIf s' args bad value) :=
  ite (undefined hs _) (same _)

theorem operator (op : Operator) (x y : Float) : Relaxes (op.apply s x y) (op.apply s' x y) := by
  cases op with
  | add | subtract | multiply => exact same _
  | divide =>
    have hquotient : Relaxes (if y == 0 && x == 0 then s.undefined .quotient else .ok (x / y))
        (if y == 0 && x == 0 then s'.undefined .quotient else .ok (x / y)) :=
      ite (undefined hs _) (same _)
    simp only [Operator.apply]
    by_cases hraise : (y == 0 && s.raiseDivisionByZero) = true
    · rw [if_pos hraise]
      exact suppressed (show EvalError.divisionByZero.IsSuppressible from trivial) _
    · have hquiet : ¬ (y == 0 && s'.raiseDivisionByZero) = true := by
        rw [Bool.and_eq_true] at hraise ⊢
        exact fun h => hraise ⟨h.1, hs.raiseDivisionByZero h.2⟩
      rw [if_neg hraise, if_neg hquiet]
      exact hquotient
  | power => exact ite (undefined hs _) (same _)

theorem factorial (x : Float) : Relaxes (factorialOf s x) (factorialOf s' x) := by
  unfold factorialOf
  rw [hs.gammaFactorials]
  exact ite (same _)
    (ite (ite (undefined hs _) (same _)) (ite (same _) (ite (same _) (undefined hs _))))

theorem valueAt (f : Function) (x : Float) : Relaxes (f.valueAt s x) (f.valueAt s' x) := by
  unfold Function.valueAt Function.logarithm Function.root Function.rounded
  rw [hs.angleUnit]
  cases f
  all_goals first | exact undefinedIf hs .. | exact same _

theorem valueAtPair (f : Function) (x y : Float) :
    Relaxes (f.valueAtPair s x y) (f.valueAtPair s' x y) := by
  unfold Function.valueAtPair Function.logarithm Function.root Function.rounded
  cases f
  all_goals first | exact undefinedIf hs .. | exact same _

theorem function (f : Function) (args : List Float) :
    Relaxes (f.apply s args) (f.apply s' args) := by
  match args with
  | [x] => exact valueAt hs f x
  | [x, y] => exact valueAtPair hs f x y
  | [] | _ :: _ :: _ :: _ => exact same _

end

section

variable {body other : Float → Except EvalError Float} (hbody : ∀ x, Relaxes (body x) (other x))
include hbody

theorem fold (join : Float → Float → Float) (step last total position : Float) :
    Relaxes (Series.fold join body step last total position)
      (Series.fold join other step last total position) := by
  fun_induction Series.fold join body step last total position with
  | case1 total position hle ih =>
    rw [Series.fold.eq_def join other, if_pos hle]
    refine bind (hbody position) fun value => ?_
    by_cases hadvance : position < Series.nextPosition step position
    · rw [dif_pos hadvance, dif_pos hadvance]
      exact ih value hadvance
    · rw [dif_neg hadvance, dif_neg hadvance]
      exact same _
  | case2 total position hle =>
    rw [Series.fold.eq_def join other, if_neg hle]
    exact same _

theorem trapezoids (step last area position height : Float) :
    Relaxes (Series.trapezoids body step last area position height)
      (Series.trapezoids other step last area position height) := by
  fun_induction Series.trapezoids body step last area position height with
  | case1 area position height hbelow hadvance next ih =>
    rw [Series.trapezoids.eq_def other, dif_pos hbelow, dif_pos hadvance]
    exact bind (hbody next) fun value => ih value
  | case2 area position height hbelow hadvance =>
    rw [Series.trapezoids.eq_def other, dif_pos hbelow, dif_neg hadvance]
    exact same _
  | case3 area position height hbelow =>
    rw [Series.trapezoids.eq_def other, dif_neg hbelow]
    exact same _

theorem integrate (step first last : Float) :
    Relaxes (Series.integrate body step first last) (Series.integrate other step first last) :=
  bind (hbody first) fun _ => trapezoids hbody ..

theorem accumulate (k : Series) (first last step : Float) :
    Relaxes (k.accumulate body first last step) (k.accumulate other first last step) := by
  refine ite (same _) (ite (same _) ?_)
  cases k with
  | sum => exact fold hbody ..
  | product => exact fold hbody ..
  | integral => exact ite (map _ (integrate hbody ..)) (integrate hbody ..)

end

end Relaxes

/-- Under relaxed settings the same formulas can be called, with relaxed outcomes. -/
def Callees.Relaxed (callees callees' : Callees) : Prop :=
  ∀ name, Option.Rel (fun value value' => ∀ args, Relaxes (value args) (value' args)) (callees name)
    (callees' name)

namespace Expr

mutual

theorem relaxes_valueIn {s s' : Settings} (hs : s.Relaxed s') {callees callees' : Callees}
    (hcallees : callees.Relaxed callees') :
    ∀ (e : Expr) (scope : List Variable),
      Relaxes (e.valueIn s callees scope) (e.valueIn s' callees' scope)
  | number _, _ | constant _, _ | identifier _, _ => by
    simp only [valueIn]
    exact .same _
  | negate operand, scope => by
    simp only [valueIn]
    exact .map _ (relaxes_valueIn hs hcallees operand scope)
  | factorial operand, scope => by
    simp only [valueIn]
    exact .bind (relaxes_valueIn hs hcallees operand scope) fun x => .factorial hs x
  | binary op left right, scope => by
    simp only [valueIn]
    exact .bind (relaxes_valueIn hs hcallees left scope) fun x =>
      .bind (relaxes_valueIn hs hcallees right scope) fun y => .operator hs op x y
  | function f args, scope => by
    simp only [valueIn]
    exact .bind (relaxes_valuesIn hs hcallees args scope) fun values => .function hs f values
  | series k index [], _ => by
    simp only [valueIn]
    exact .same _
  | series k index (body :: limits), scope => by
    have hbody (position : Float) :=
      relaxes_valueIn hs hcallees body (⟨index, some position⟩ :: scope)
    simp only [valueIn]
    refine .bind (relaxes_valuesIn hs hcallees limits scope) fun values => ?_
    split
    · exact .accumulate hbody ..
    · exact .accumulate hbody ..
    · exact .same _
  | call name args, scope => by
    have hargs := relaxes_valuesIn hs hcallees args scope
    have hname := hcallees name
    simp only [valueIn]
    generalize callees name = found at hname ⊢
    generalize callees' name = found' at hname ⊢
    cases hname with
    | none => exact .same _
    | some h => exact .bind hargs h

theorem relaxes_valuesIn {s s' : Settings} (hs : s.Relaxed s') {callees callees' : Callees}
    (hcallees : callees.Relaxed callees') :
    ∀ (es : List Expr) (scope : List Variable),
      Relaxes (valuesIn s callees scope es) (valuesIn s' callees' scope es)
  | [], _ => by
    simp only [valuesIn]
    exact .same _
  | e :: rest, scope => by
    simp only [valuesIn]
    exact .bind (relaxes_valueIn hs hcallees e scope) fun _ =>
      .bind (relaxes_valuesIn hs hcallees rest scope) fun _ => .same _

end

end Expr

section

variable {s s' : Settings} (hs : s.Relaxed s')
include hs

theorem Formula.relaxes_valueFor {callees callees' : Callees}
    (hcallees : callees.Relaxed callees') (f : Formula) (name : Text) (args : List Float) :
    Relaxes (f.valueFor s callees name args) (f.valueFor s' callees' name args) := by
  unfold valueFor
  exact .bind (.same _) fun root => .ite (Expr.relaxes_valueIn hs hcallees root _) (.same _)

theorem Registry.relaxed_callees (formulas : Registry Formula) :
    (formulas.callees s).Relaxed (formulas.callees s') := by
  -- A formula is evaluated with the others, which are fewer.
  induction hn : formulas.entries.length using Nat.strongRecOn generalizing formulas with
  | ind n ih =>
    intro name
    cases hf : formulas.find? name with
    | none =>
      rw [callees_of_not_found hf, callees_of_not_found hf]
      exact .none
    | some f =>
      have hfewer := ih _ (hn ▸ length_erase_lt hf) (formulas.erase name) rfl
      rw [callees_of_find? hf, callees_of_find? hf]
      exact .some fun args => f.relaxes_valueFor hs hfewer name args

end

/-- Taking fewer faults for errors replaces suppressed errors and nothing else, and what the
settings do not raise never comes out of an evaluation, however deep in calls and series it may
arise. -/
theorem Workspace.evaluate_relaxed (l : Library) (ops : List Operation) (e : Expr)
    (scope : List Variable) (s : Settings) :
    (∀ s' : Settings, s'.angleUnit = s.angleUnit → s'.gammaFactorials = s.gammaFactorials →
      (s'.raiseDivisionByZero = true → s.raiseDivisionByZero = true) →
      (s'.raiseUndefined = true → s.raiseUndefined = true) →
      (∀ operation, e.evaluate s (run l ops).formulas scope ≠ .error (.undefined operation)) →
      e.evaluate s (run l ops).formulas scope ≠ .error .divisionByZero →
        e.evaluate s' (run l ops).formulas scope = e.evaluate s (run l ops).formulas scope) ∧
    (s.raiseUndefined = false →
      ∀ operation, e.evaluate s (run l ops).formulas scope ≠ .error (.undefined operation)) ∧
    (s.raiseDivisionByZero = false →
      e.evaluate s (run l ops).formulas scope ≠ .error .divisionByZero) := by
  refine ⟨?_, ?_, ?_⟩
  · intro s' hangle hgamma hdivision hundefined hdefined hdivides
    have hrelaxes := Expr.relaxes_valueIn ⟨hangle, hgamma, hdivision, hundefined⟩
      (Registry.relaxed_callees ⟨hangle, hgamma, hdivision, hundefined⟩ (run l ops).formulas)
        e scope
    refine (hrelaxes.eq_of_error fun err herr hsuppressible => ?_).symm
    cases err with
    | undefined operation => exact hdefined operation herr
    | divisionByZero => exact hdivides herr
    | noValue | unset | misuse | unknownFormula => exact hsuppressible
  · intro hquiet operation
    have hs : s.RaisesOnly (· ≠ .undefined operation) := by constructor <;> intros <;> simp_all
    exact e.evaluate_ne_error hs id (run l ops).formulas scope fun _ _ _ => by simp
  · intro hquiet
    have hs : s.RaisesOnly (· ≠ .divisionByZero) := by constructor <;> intros <;> simp_all
    exact e.evaluate_ne_error hs id (run l ops).formulas scope fun _ _ _ => by simp

/-- With `f(y) = y+1`, `f(x)/x` at four is the same under both settings, and at zero it is an error
under neither of the suppressed names. -/
theorem Workspace.evaluate_relaxed_quotient :
    let formulas := (run .full [.createFormula "f".toList "y+1".toList]).formulas
    let x : Expr := .identifier "x".toList
    let e : Expr := .binary .divide (.call "f".toList [x]) x
    let quiet : Settings := { raiseDivisionByZero := false, raiseUndefined := false }
    e.evaluate quiet formulas [⟨"x".toList, some 4⟩] =
      e.evaluate {} formulas [⟨"x".toList, some 4⟩] ∧
    (∀ operation, e.evaluate quiet formulas [⟨"x".toList, some 0⟩] ≠
      .error (.undefined operation)) ∧
    e.evaluate quiet formulas [⟨"x".toList, some 0⟩] ≠ .error .divisionByZero := by
  intro formulas x e quiet
  have hvalue : e.evaluate {} formulas [⟨"x".toList, some 4⟩] = .ok ((4 + 1) / 4) := by
    with_unfolding_all rfl
  obtain ⟨hsame, -, -⟩ :=
    evaluate_relaxed .full [.createFormula "f".toList "y+1".toList] e [⟨"x".toList, some 4⟩] {}
  obtain ⟨-, hundefined, hdivision⟩ :=
    evaluate_relaxed .full [.createFormula "f".toList "y+1".toList] e [⟨"x".toList, some 0⟩] quiet
  refine ⟨hsame quiet rfl rfl (fun h => by cases h) (fun h => by cases h) ?_ ?_, hundefined rfl,
    hdivision rfl⟩
  · intro operation herr
    rw [hvalue] at herr
    cases herr
  · rw [hvalue]
    simp

end Abacus
