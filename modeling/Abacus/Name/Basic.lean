import Abacus.Number.Basic

/-! The names that mean something in every formula or by the choice of a library: constants,
functions and series. -/

namespace Abacus

/-! The constants, which have a name and a value in every formula. -/

inductive Constant where
  | pi | tau | pau | e | phi
  deriving DecidableEq

namespace Constant

def all : List Constant := [pi, tau, pau, e, phi]

def name : Constant → Text
  | pi => "pi".toList
  | tau => "tau".toList
  | pau => "pau".toList
  | e => "e".toList
  | phi => "phi".toList

def value : Constant → Float
  | pi => Abacus.pi
  | tau => 6.283185307179586
  | pau => 1.5 * Abacus.pi
  | e => 2.718281828459045
  | phi => 1.618033988749895

def ofName? (name : Text) : Option Constant := all.find? fun c => c.name == name

end Constant

/-! How many arguments a call may have, and what is said about a call with another number of
them. -/

structure Arity where
  least : Nat
  most : Nat
  deriving DecidableEq

namespace Arity

def exactly (n : Nat) : Arity := ⟨n, n⟩

def admits (a : Arity) (n : Nat) : Bool := a.least ≤ n && n ≤ a.most

def complaint (a : Arity) (name : Text) (count : Nat) : Text :=
  name ++ " expects ".toList ++ natText a.least ++ " to ".toList ++ natText a.most
    ++ " arguments, but got ".toList ++ natText count

end Arity

/-- For a formula, which has one number of parameters. -/
def countComplaint (name : Text) (expected count : Nat) : Text :=
  name ++ " expects ".toList ++ natText expected ++ " arguments, but got ".toList ++ natText count

/-! The functions of numbers that a library may hold, and the three series, which bind an index over
a range. -/

inductive Function where
  | sin | cos | tan | sec | csc | cot
  | asin | acos | atan
  | sinh | cosh | tanh | sech | csch | coth
  | asinh | acosh | atanh
  | exp | ln | log | sqrt
  | abs | floor | ceil | round
  | gamma | binomial
  | rad | deg
  deriving DecidableEq

namespace Function

def all : List Function :=
  [sin, cos, tan, sec, csc, cot, asin, acos, atan, sinh, cosh, tanh, sech, csch, coth, asinh,
    acosh, atanh,
   exp, ln, log, sqrt, abs, floor, ceil, round, gamma, binomial, rad, deg]

def name : Function → Text
  | sin => "sin".toList
  | cos => "cos".toList
  | tan => "tan".toList
  | sec => "sec".toList
  | csc => "csc".toList
  | cot => "cot".toList
  | asin => "asin".toList
  | acos => "acos".toList
  | atan => "atan".toList
  | sinh => "sinh".toList
  | cosh => "cosh".toList
  | tanh => "tanh".toList
  | sech => "sech".toList
  | csch => "csch".toList
  | coth => "coth".toList
  | asinh => "asinh".toList
  | acosh => "acosh".toList
  | atanh => "atanh".toList
  | exp => "exp".toList
  | ln => "ln".toList
  | log => "log".toList
  | sqrt => "sqrt".toList
  | abs => "abs".toList
  | floor => "floor".toList
  | ceil => "ceil".toList
  | round => "round".toList
  | gamma => "gamma".toList
  | binomial => "binomial".toList
  | rad => "rad".toList
  | deg => "deg".toList

/-- The base of a logarithm, the degree of a root and the places of a rounding may be left out. -/
def arity : Function → Arity
  | log | sqrt | round => ⟨1, 2⟩
  | binomial => .exactly 2
  | _ => .exactly 1

end Function

inductive Series where
  | sum | product | integral
  deriving DecidableEq

namespace Series

def all : List Series := [sum, product, integral]

def name : Series → Text
  | sum => "sum".toList
  | product => "product".toList
  | integral => "integral".toList

/-- Body, index, both limits, and perhaps a step. -/
def arity (_ : Series) : Arity := ⟨4, 5⟩

def defaultStep : Series → Float
  | sum | product => 1
  | integral => 0.1

def smallestStep : Float := 1e-6

end Series

/-! A library is the choice of functions and series that formulas may call. -/

inductive Callable where
  | function (f : Function)
  | series (s : Series)
  deriving DecidableEq

namespace Callable

def name : Callable → Text
  | function f => f.name
  | series s => s.name

def arity : Callable → Arity
  | function f => f.arity
  | series s => s.arity

def all : List Callable := Function.all.map function ++ Series.all.map series

def ofName? (name : Text) : Option Callable := all.find? fun c => c.name == name

end Callable

structure Library where
  members : List Callable

namespace Library

def full : Library := ⟨Callable.all⟩

def ofList (members : List Callable) : Library := ⟨members.eraseDups⟩

def find? (l : Library) (name : Text) : Option Callable := l.members.find? fun c => c.name == name

end Library

end Abacus
