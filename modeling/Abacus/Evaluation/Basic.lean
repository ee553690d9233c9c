import Abacus.Evaluation.Function
import Abacus.Name.Registry

/-! The value of a tree, where series loop over their positions and formulas call each other. -/

namespace Abacus

/-! Named values that an evaluation may read; where a name occurs twice, its first place counts. -/

structure Variable where
  name : Text
  /-- A variable may be there without a value. -/
  value? : Option Float
  deriving DecidableEq

namespace Variable

def named (name : Text) (value? : Option Float) : Variable := ⟨lowercase name, value?⟩

def find? (scope : List Variable) (name : Text) : Option Variable :=
  scope.find? fun x => x.name == name

def valueOf? (scope : List Variable) (name : Text) : Option Float := (find? scope name).bind value?

end Variable

/-! Sums, products and integrals over the positions from a first to a last one. Each position is
higher on the ladder of numbers than the one before, so every series ends. -/

namespace Series

/-- The position one step on, to six places, so that no error builds up on the way. -/
def nextPosition (step position : Float) : Float := roundTo (position + step) 6

/-- Every position below the last one leaves fewer rungs above it. -/
theorem rungsAbove_lt {x y : Float} (h : x < y) :
    (topRung - rung y).toNat < (topRung - rung x).toNat := by
  have := rung_lt_rung h
  have := rung_le y
  omega

/-- Joins the values of the body to the total, one position after the other. -/
def fold (join : Float → Float → Float) (body : Float → Except EvalError Float)
    (step last total position : Float) : Except EvalError Float :=
  if position ≤ last then do
    let value ← body position
    if _advance : position < nextPosition step position then
      fold join body step last (join total value) (nextPosition step position)
    else .error (.misuse (.noAdvance step position))
  else .ok total
termination_by (topRung - rung position).toNat
decreasing_by exact rungsAbove_lt _advance

/-- Adds the trapezoids between neighbouring positions; the last one ends at the limit. -/
def trapezoids (body : Float → Except EvalError Float) (step last area position height : Float) :
    Except EvalError Float :=
  if _below : position < last then
    if _advance : position < nextPosition step position then do
      let next := if last < nextPosition step position then last else nextPosition step position
      let value ← body next
      trapezoids body step last (area + (height + value) / 2 * (next - position)) next value
    else .error (.misuse (.noAdvance step position))
  else .ok area
termination_by (topRung - rung position).toNat
decreasing_by
  apply rungsAbove_lt
  split
  · exact _below
  · exact _advance

def integrate (body : Float → Except EvalError Float) (step first last : Float) :
    Except EvalError Float := do
  let height ← body first
  trapezoids body step last 0 first height

/-- An integral against the direction of the line is the negative of the one along it. -/
def accumulate (s : Series) (body : Float → Except EvalError Float) (first last step : Float) :
    Except EvalError Float :=
  if !(smallestStep ≤ step) then .error (.misuse (.smallStep s step))
  else if !(first.isFinite && last.isFinite) then .error (.misuse (.endlessRange s first last))
  else
    match s with
    | sum => fold (· + ·) body step last 0 first
    | product => fold (· * ·) body step last 1 first
    | integral => if last < first then (- ·) <$> integrate body step last first
        else integrate body step first last

end Series

/-! The value of a tree. The body of a series sees its index before all else; a formula that is
called sees its parameters only. -/

/-- The formulas that can be called, each with its value for given arguments. -/
abbrev Callees := Text → Option (List Float → Except EvalError Float)

namespace Expr

mutual

/-- Operands and arguments from left to right, and the limits of a series before its body. -/
def valueIn (s : Settings) (callees : Callees) (scope : List Variable) :
    Expr → Except EvalError Float
  | number value => .ok value
  | constant c => .ok c.value
  | identifier name =>
    match Variable.valueOf? scope name with
    | some value => .ok value
    | none => .error (.noValue name)
  | negate operand => (- ·) <$> operand.valueIn s callees scope
  | factorial operand => operand.valueIn s callees scope >>= factorialOf s
  | binary op left right => do
    let x ← left.valueIn s callees scope
    let y ← right.valueIn s callees scope
    op.apply s x y
  | function f args => valuesIn s callees scope args >>= f.apply s
  | series k _ [] => .error (.misuse (.noBody k))
  | series k index (body :: limits) => do
    let valueAt (position : Float) := body.valueIn s callees (⟨index, some position⟩ :: scope)
    match ← valuesIn s callees scope limits with
    | [first, last] => k.accumulate valueAt first last k.defaultStep
    | [first, last, step] => k.accumulate valueAt first last step
    | _ => .error (.misuse (.limitCount k))
  | call name args =>
    match callees name with
    | some value => valuesIn s callees scope args >>= value
    | none => .error (.unknownFormula name)

def valuesIn (s : Settings) (callees : Callees) (scope : List Variable) :
    List Expr → Except EvalError (List Float)
  | [] => .ok []
  | e :: rest => do
    let value ← e.valueIn s callees scope
    let values ← valuesIn s callees scope rest
    return value :: values

end

end Expr

namespace Formula

def root (f : Formula) : Except EvalError Expr :=
  match f.root? with
  | some root => .ok root
  | none => .error .unset

/-- Whether variables are needed, and which. -/
def dependence (f : Formula) : Except EvalError (Bool × List Text) :=
  (fun root => (!root.freeVariables.isEmpty, root.freeVariables)) <$> f.root

/-- The value of a call by this name: each parameter stands for the argument at its place. -/
def valueFor (s : Settings) (callees : Callees) (name : Text) (f : Formula) (args : List Float) :
    Except EvalError Float := do
  let root ← f.root
  if root.freeVariables.length = args.length then
    root.valueIn s callees (List.zipWith (fun p x => ⟨p, some x⟩) root.freeVariables args)
  else .error (.misuse (.formulaArgumentCount name root.freeVariables.length args.length))

end Formula

namespace Registry

/-- The formulas of a registry. None of them can call itself, so while one is evaluated it is left
out. -/
def callees (s : Settings) (formulas : Registry Formula) : Callees := fun name =>
  match _found : formulas.find? name with
  | none => none
  | some f => some (f.valueFor s (callees s (formulas.erase name)) name)
termination_by formulas.entries.length
decreasing_by exact length_erase_lt _found

end Registry

def Expr.evaluate (s : Settings) (formulas : Registry Formula) (scope : List Variable) (e : Expr) :
    Except EvalError Float :=
  e.valueIn s (formulas.callees s) scope

def Formula.evaluate (s : Settings) (formulas : Registry Formula) (scope : List Variable)
    (f : Formula) : Except EvalError Float := do
  let root ← f.root
  root.evaluate s formulas scope

end Abacus
