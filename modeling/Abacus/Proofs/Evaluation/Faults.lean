import Abacus.Evaluation.Basic
import Abacus.Proofs.Outcome

/-! Which faults the operations on numbers may end in. The settings decide whether an undefined
operation or a quotient by zero is a fault; a wrong number of arguments is one for functions that do
not take so many. -/

namespace Abacus

/-- The faults that lie in numbers under these settings are all among `P`. -/
structure Settings.RaisesOnly (s : Settings) (P : EvalError → Prop) : Prop where
  undefined : s.raiseUndefined = true → ∀ operation, P (.undefined operation)
  divisionByZero : s.raiseDivisionByZero = true → P .divisionByZero
  smallStep : ∀ k step, P (.misuse (.smallStep k step))
  endlessRange : ∀ k first last, P (.misuse (.endlessRange k first last))
  noAdvance : ∀ step position, P (.misuse (.noAdvance step position))

namespace FailsOnly

variable {P : EvalError → Prop}

variable {s : Settings} (hs : s.RaisesOnly P)
include hs

theorem undefined (operation : Undefined) : FailsOnly P (s.undefined operation) :=
  ite (fun hraise => error (hs.undefined hraise operation)) (ok _)

theorem undefinedIf (f : Function) (args : List Float) (bad : Bool) (value : Float) :
    FailsOnly P (f.undefinedIf s args bad value) :=
  ite (fun _ => undefined hs _) (ok _)

theorem operator (op : Operator) (x y : Float) : FailsOnly P (op.apply s x y) := by
  cases op with
  | add | subtract | multiply => exact ok _
  | divide =>
    refine ite (fun hzero => error (hs.divisionByZero ?_)) (ite (fun _ => undefined hs _) (ok _))
    exact (Bool.and_eq_true_iff.mp hzero).2
  | power => exact ite (fun _ => undefined hs _) (ok _)

theorem factorial (x : Float) : FailsOnly P (factorialOf s x) := by
  have hwhole : FailsOnly P (if x < 0 then s.undefined (.factorial x)
      else .ok (Abacus.factorial x.toUInt64.toNat)) :=
    ite (fun _ => undefined hs _) (ok _)
  exact ite (fun _ => ok _)
    (ite (fun _ => hwhole) (ite (fun _ => ok _) (ite (fun _ => ok _) (undefined hs _))))

theorem valueAt (f : Function) (x : Float)
    (hcount : f.arity.admits 1 = false → P (.misuse (.argumentCount f.name f.arity 1))) :
    FailsOnly P (f.valueAt s x) := by
  unfold Function.valueAt Function.logarithm Function.root Function.rounded
  split
  case h_28 => exact error (hcount rfl)
  all_goals first | exact undefinedIf hs .. | exact ok _

theorem valueAtPair (f : Function) (x y : Float)
    (hcount : f.arity.admits 2 = false → P (.misuse (.argumentCount f.name f.arity 2))) :
    FailsOnly P (f.valueAtPair s x y) := by
  unfold Function.valueAtPair Function.logarithm Function.root Function.rounded
  split
  case h_5 hlog hsqrt hround hbinomial =>
    have hfew : f.arity.admits 2 = false := by cases f <;> first | rfl | contradiction
    exact error (hcount hfew)
  all_goals exact undefinedIf hs ..

/-- Only where a function does not take so many arguments is their number a fault. -/
theorem function (f : Function) (args : List Float)
    (hcount : f.arity.admits args.length = false →
      P (.misuse (.argumentCount f.name f.arity args.length))) :
    FailsOnly P (f.apply s args) := by
  have hmost : f.arity.least = 1 ∧ f.arity.most ≤ 2 ∨ f.arity.least = 2 ∧ f.arity.most = 2 := by
    cases f <;> simp [Function.arity, Arity.exactly]
  match args with
  | [] => exact error (hcount (by cases f <;> rfl))
  | [x] => exact valueAt hs f x hcount
  | [x, y] => exact valueAtPair hs f x y hcount
  | _ :: _ :: _ :: rest =>
    refine error (hcount ?_)
    simp only [Arity.admits, List.length_cons, Bool.and_eq_false_iff, decide_eq_false_iff_not]
    omega

variable {body : Float → Except EvalError Float} (hbody : ∀ x, FailsOnly P (body x))
include hbody

theorem fold (join : Float → Float → Float) (step last total position : Float) :
    FailsOnly P (Series.fold join body step last total position) := by
  fun_induction Series.fold join body step last total position with
  | case1 total position hle ih =>
    refine bind (hbody position) fun value _ => ?_
    split
    · next hadvance => exact ih value hadvance
    · exact error (hs.noAdvance step position)
  | case2 => exact ok _

theorem trapezoids (step last area position height : Float) :
    FailsOnly P (Series.trapezoids body step last area position height) := by
  fun_induction Series.trapezoids body step last area position height with
  | case1 area position height hbelow hadvance next ih =>
    exact bind (hbody _) fun value _ => ih value
  | case2 => exact error (hs.noAdvance ..)
  | case3 => exact ok _

theorem integrate (step first last : Float) : FailsOnly P (Series.integrate body step first last) :=
  bind (hbody first) fun _ _ => trapezoids hs hbody ..

theorem accumulate (k : Series) (first last step : Float) :
    FailsOnly P (k.accumulate body first last step) := by
  refine ite (fun _ => error (hs.smallStep ..)) (ite (fun _ => error (hs.endlessRange ..)) ?_)
  cases k with
  | sum => exact fold hs hbody ..
  | product => exact fold hs hbody ..
  | integral => exact ite (fun _ => map _ (integrate hs hbody ..)) (integrate hs hbody ..)

end FailsOnly

/-! What the operations on numbers may answer: a value, or a fault that lies in the numbers. A fault
of the tree itself, such as a wrong number of arguments, does not come from them. -/

/-- The fault of a tree that does not fit together, or that the formulas do not fit: a formula
without a tree or without a place in the registry, a wrong number of arguments, a series without
body or limits. -/
def EvalError.IsStructural : EvalError → Prop
  | .unset | .unknownFormula _ => True
  | .misuse (.argumentCount ..) | .misuse (.formulaArgumentCount ..) | .misuse (.noBody _)
  | .misuse (.limitCount _) => True
  | _ => False

/-- Faults that lie in the numbers, or in a name without value among the `missing` ones. -/
def EvalError.Arises (missing : Text → Prop) (err : EvalError) : Prop :=
  ¬ err.IsStructural ∧ ∀ name, err = .noValue name → missing name

/-- A value, or a fault of the numbers or of a missing name. -/
inductive Sound (missing : Text → Prop) {α : Type} : Except EvalError α → Prop where
  | ok (a : α) : Sound missing (.ok a)
  | error {err : EvalError} (h : err.Arises missing) : Sound missing (.error err)

namespace Sound

variable {missing : Text → Prop} {α β : Type}

theorem bind {x : Except EvalError α} {f : α → Except EvalError β} (hx : Sound missing x)
    (hf : ∀ a, x = .ok a → Sound missing (f a)) : Sound missing (x >>= f) := by
  cases hx with
  | ok a => exact hf a rfl
  | error h => exact error h

theorem map {x : Except EvalError α} (f : α → β) (hx : Sound missing x) :
    Sound missing (f <$> x) := by
  cases hx with
  | ok a => exact ok _
  | error h => exact error h

theorem mono {other : Text → Prop} {x : Except EvalError α} (h : Sound missing x)
    (himp : ∀ name, missing name → other name) : Sound other x := by
  cases h with
  | ok a => exact ok a
  | error h => exact error ⟨h.1, fun name hn => himp name (h.2 name hn)⟩

theorem noValue {name : Text} (h : missing name) :
    Sound missing (.error (.noValue name) : Except EvalError α) :=
  error ⟨id, fun _ he => by cases he; exact h⟩

theorem iff_failsOnly {x : Except EvalError α} :
    Sound missing x ↔ FailsOnly (EvalError.Arises missing) x := by
  constructor
  · intro h
    cases h with
    | ok a => exact .ok a
    | error h => exact .error h
  · intro h
    cases h with
    | ok a => exact .ok a
    | error h => exact .error h

/-- The faults that lie in numbers are no faults of the tree. -/
theorem raisesOnly (s : Settings) (missing : Text → Prop) :
    s.RaisesOnly (EvalError.Arises missing) where
  undefined _ _ := ⟨id, fun _ he => by cases he⟩
  divisionByZero _ := ⟨id, fun _ he => by cases he⟩
  smallStep _ _ := ⟨id, fun _ he => by cases he⟩
  endlessRange _ _ _ := ⟨id, fun _ he => by cases he⟩
  noAdvance _ _ := ⟨id, fun _ he => by cases he⟩

theorem operator (s : Settings) (op : Operator) (x y : Float) : Sound missing (op.apply s x y) :=
  iff_failsOnly.mpr (.operator (raisesOnly s missing) op x y)

theorem factorial (s : Settings) (x : Float) : Sound missing (factorialOf s x) :=
  iff_failsOnly.mpr (.factorial (raisesOnly s missing) x)

theorem function (s : Settings) (f : Function) {args : List Float}
    (h : f.arity.admits args.length = true) : Sound missing (f.apply s args) := by
  refine iff_failsOnly.mpr (.function (raisesOnly s missing) f args fun hfew => ?_)
  rw [h] at hfew
  cases hfew

theorem accumulate {body : Float → Except EvalError Float} (hbody : ∀ x, Sound missing (body x))
    (k : Series) (first last step : Float) : Sound missing (k.accumulate body first last step) := by
  -- The loops of a series do not look at the settings.
  have hfails := FailsOnly.accumulate (raisesOnly {} missing) (fun x => iff_failsOnly.mp (hbody x))
    k first last step
  exact iff_failsOnly.mpr hfails

end Sound

end Abacus
