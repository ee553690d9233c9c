import Abacus.Expr.Basic

/-! The values of operators and functions, under the settings of a caller, and why there may be
none. -/

namespace Abacus

/-! What a caller decides about evaluation: the unit of angles, and which faults are errors. -/

inductive AngleUnit where
  | degrees | radians
  deriving DecidableEq

namespace AngleUnit

def toRadians : AngleUnit → Float → Float
  | degrees, angle => degreesToRadians angle
  | radians, angle => angle

def ofRadians : AngleUnit → Float → Float
  | degrees, angle => radiansToDegrees angle
  | radians, angle => angle

end AngleUnit

structure Settings where
  angleUnit : AngleUnit := .degrees
  /-- Otherwise a quotient by zero is infinite. -/
  raiseDivisionByZero : Bool := true
  /-- Otherwise what is undefined has the value NaN. -/
  raiseUndefined : Bool := true
  /-- Fractions have factorials by the gamma function. -/
  gammaFactorials : Bool := true
  deriving DecidableEq

/-! Why a tree has no value. -/

/-- An operation and the numbers it is not defined for. -/
inductive Undefined where
  | quotient
  | power
  | factorial (x : Float)
  | function (f : Function) (args : List Float)

namespace Undefined

def render : Undefined → Text
  | quotient => "0/0".toList
  | power => "0^0".toList
  | factorial x => inParentheses (numeral x) ++ ['!']
  | function f args => f.name ++ inParentheses (joinWith [','] (args.map numeral))

end Undefined

/-- A call or a series that cannot be carried out, whatever its numbers. -/
inductive Misuse where
  | argumentCount (name : Text) (arity : Arity) (count : Nat)
  | formulaArgumentCount (name : Text) (arity count : Nat)
  | noBody (s : Series)
  | limitCount (s : Series)
  | smallStep (s : Series) (step : Float)
  | endlessRange (s : Series) (first last : Float)
  | noAdvance (step position : Float)

namespace Misuse

def render : Misuse → Text
  | argumentCount name arity count => arity.complaint name count
  | formulaArgumentCount name arity count => countComplaint name arity count
  | noBody s => s.name ++ " has no body".toList
  | limitCount s => s.name ++ " expects a lower bound, an upper bound and an optional step".toList
  | smallStep s step =>
    s.name ++ " step must be at least ".toList ++ numeral Series.smallestStep ++ ", got ".toList ++
      numeral step
  | endlessRange s first last =>
    s.name ++ " needs finite limits, got ".toList ++ numeral first ++ " and ".toList ++ numeral last
  | noAdvance step position =>
    "step ".toList ++ numeral step ++ " does not advance past ".toList ++ numeral position

end Misuse

inductive EvalError where
  | undefined (operation : Undefined)
  | divisionByZero
  | noValue (name : Text)
  | unset
  | misuse (m : Misuse)
  | unknownFormula (name : Text)

namespace EvalError

def message : EvalError → Text
  | undefined operation => "Domain error: ".toList ++ operation.render
  | divisionByZero => "Division by zero".toList
  | noValue name => "Variable ".toList ++ ReadError.quoted name ++ " is not defined".toList
  | unset => "Expression has no value set".toList
  | misuse m => "Invalid operation: ".toList ++ m.render
  | unknownFormula name =>
    "Expression ".toList ++ ReadError.quoted name ++ " is not registered".toList

end EvalError

/-- The outcome of an operation that is not defined. -/
def Settings.undefined (s : Settings) (operation : Undefined) : Except EvalError Float :=
  if s.raiseUndefined then .error (.undefined operation) else .ok (0 / 0)

/-! The values of operators and of the factorial sign. -/

/-- Of the quotients by zero, `0/0` is undefined even where the others are infinite. -/
def Operator.apply (s : Settings) : Operator → Float → Float → Except EvalError Float
  | add, x, y => .ok (x + y)
  | subtract, x, y => .ok (x - y)
  | multiply, x, y => .ok (x * y)
  | divide, x, y =>
    if y == 0 && s.raiseDivisionByZero then .error .divisionByZero
    else if y == 0 && x == 0 then s.undefined .quotient
    else .ok (x / y)
  | power, x, y => if x == 0 && y == 0 then s.undefined .power else .ok (x.pow y)

/-- Whole numbers have the factorial of the table, other numbers perhaps that of the gamma
function. -/
def factorialOf (s : Settings) (x : Float) : Except EvalError Float :=
  if x.isNaN then .ok (0 / 0)
  else if isWhole x then
    if x < 0 then s.undefined (.factorial x) else .ok (factorial x.toUInt64.toNat)
  else if x == 1 / 0 then .ok (1 / 0)
  else if s.gammaFactorials then .ok (gamma (x + 1))
  else s.undefined (.factorial x)

/-! The values of the functions of a library. Angles are in the unit of the settings. -/

/-- Near an odd multiple of a right angle, where the cosine is zero. -/
def nearCosineZero (angle : Float) : Bool := isMultipleOf (angle - pi / 2) pi

def nearSineZero (angle : Float) : Bool := isMultipleOf angle pi

namespace Function

def undefinedIf (s : Settings) (f : Function) (args : List Float) (bad : Bool) (value : Float) :
    Except EvalError Float :=
  if bad then s.undefined (.function f args) else .ok value

def logarithm (s : Settings) (x base : Float) : Except EvalError Float :=
  undefinedIf s log [x, base] (base < 0 || x < 0 || base == 0 && x == 0) <|
    if base == 0 then 1
    else if x == 0 then -(1 / 0)
    else if base == 10 then x.log10
    else x.log / base.log

def root (s : Settings) (x degree : Float) : Except EvalError Float :=
  undefinedIf s sqrt [x, degree] (degree == 0 || x < 0) <|
    if degree == 2 then x.sqrt else x.pow (1 / degree)

def rounded (s : Settings) (x places : Float) : Except EvalError Float :=
  undefinedIf s round [x, places] (places < 0 || !isWhole places) (roundTo x (placesOf places))

/-- The value of a function of one number; for an argument that is left out, ten, two or zero is
taken. -/
def valueAt (s : Settings) (f : Function) (x : Float) : Except EvalError Float :=
  let angle := s.angleUnit.toRadians x
  match f with
  | sin => .ok angle.sin
  | cos => .ok angle.cos
  | tan => undefinedIf s tan [x] (nearCosineZero angle) angle.tan
  | sec => undefinedIf s sec [x] (nearCosineZero angle) (1 / angle.cos)
  | csc => undefinedIf s csc [x] (nearSineZero angle) (1 / angle.sin)
  | cot => undefinedIf s cot [x] (nearSineZero angle) (angle.cos / angle.sin)
  | asin => undefinedIf s asin [x] (!(-1 ≤ x && x ≤ 1)) (s.angleUnit.ofRadians x.asin)
  | acos => undefinedIf s acos [x] (!(-1 ≤ x && x ≤ 1)) (s.angleUnit.ofRadians x.acos)
  | atan => .ok (s.angleUnit.ofRadians x.atan)
  | sinh => .ok x.sinh
  | cosh => .ok x.cosh
  | tanh => .ok x.tanh
  | sech => .ok (Abacus.sech x)
  | csch => undefinedIf s csch [0] (x == 0) (Abacus.csch x)
  | coth => undefinedIf s coth [0] (x == 0) (Abacus.coth x)
  | asinh => .ok x.asinh
  | acosh => undefinedIf s acosh [x] (x < 1) x.acosh
  | atanh => undefinedIf s atanh [x] (1 < x.abs) x.atanh
  | exp => .ok x.exp
  | ln => undefinedIf s ln [x] (x < 0) (if x == 0 then -(1 / 0) else x.log)
  | log => logarithm s x 10
  | sqrt => root s x 2
  | abs => .ok x.abs
  | floor => .ok (Abacus.floor x)
  | ceil => .ok (ceiling x)
  | round => rounded s x 0
  | gamma => undefinedIf s gamma [x] (x ≤ 0 && isWhole x) (Abacus.gamma x)
  | binomial => .error (.misuse (.argumentCount binomial.name binomial.arity 1))
  | rad => .ok (degreesToRadians x)
  | deg => .ok (radiansToDegrees x)

def valueAtPair (s : Settings) (f : Function) (x y : Float) : Except EvalError Float :=
  match f with
  | log => logarithm s x y
  | sqrt => root s x y
  | round => rounded s x y
  | binomial =>
    undefinedIf s binomial [x, y] (x < 0 || y < 0 || !isWhole x || !isWhole y) (Abacus.binomial x y)
  | f => .error (.misuse (.argumentCount f.name f.arity 2))

def apply (s : Settings) (f : Function) : List Float → Except EvalError Float
  | [x] => f.valueAt s x
  | [x, y] => f.valueAtPair s x y
  | args => .error (.misuse (.argumentCount f.name f.arity args.length))

end Function

end Abacus
