import Abacus.Name.Basic

/-! Formulas as trees, how trees are written, and why a text is not the writing of one. -/

namespace Abacus

/-! Formulas as trees, the names that are free in them, and the formulas that they call. -/

inductive Operator where
  | add | subtract | multiply | divide | power
  deriving DecidableEq

namespace Operator

def all : List Operator := [add, subtract, multiply, divide, power]

def symbol : Operator → Char
  | add => '+'
  | subtract => '-'
  | multiply => '*'
  | divide => '/'
  | power => '^'

def ofSymbol? (c : Char) : Option Operator := all.find? fun o => o.symbol == c

end Operator

/-- The arguments of a series are its body, the limits and perhaps a step; the index is not among
them. A call goes to a formula that is registered under a name. -/
inductive Expr where
  | number (value : Float)
  | constant (c : Constant)
  | identifier (name : Text)
  | negate (operand : Expr)
  | factorial (operand : Expr)
  | binary (op : Operator) (left right : Expr)
  | function (f : Function) (args : List Expr)
  | series (s : Series) (index : Text) (args : List Expr)
  | call (name : Text) (args : List Expr)

namespace Expr

mutual

/-- The names that stand free, at each of their places from left to right. In the body of a series
its index is not free; in its limits it may be. -/
def freeOccurrences (bound : List Text) : Expr → List Text
  | number _ | constant _ => []
  | identifier name => if name ∈ bound then [] else [name]
  | negate operand | factorial operand => operand.freeOccurrences bound
  | binary _ left right => left.freeOccurrences bound ++ right.freeOccurrences bound
  | function _ args | call _ args => freeOccurrencesAll bound args
  | series _ _ [] => []
  | series _ index (body :: limits) =>
    body.freeOccurrences (index :: bound) ++ freeOccurrencesAll bound limits

def freeOccurrencesAll (bound : List Text) : List Expr → List Text
  | [] => []
  | e :: rest => e.freeOccurrences bound ++ freeOccurrencesAll bound rest

end

/-- The free names in the order of their first places. -/
def freeVariables (e : Expr) : List Text := (e.freeOccurrences []).eraseDups

mutual

def callOccurrences : Expr → List Text
  | number _ | constant _ | identifier _ => []
  | negate operand | factorial operand => operand.callOccurrences
  | binary _ left right => left.callOccurrences ++ right.callOccurrences
  | function _ args | series _ _ args => callOccurrencesAll args
  | call name args => name :: callOccurrencesAll args

def callOccurrencesAll : List Expr → List Text
  | [] => []
  | e :: rest => e.callOccurrences ++ callOccurrencesAll rest

end

/-- The formulas called, in the order of their first places. -/
def calls (e : Expr) : List Text := e.callOccurrences.eraseDups

end Expr

/-! Numbers in text: digits with at most one point, which may also be a comma, and perhaps a minus
in front. -/

/-- There is a digit on at least one side of the point. -/
def decimal? (t : Text) : Option Decimal :=
  let whole := t.takeWhile Char.isDigit
  match t.dropWhile Char.isDigit with
  | [] => if whole = [] then none else some ⟨Nat.ofDigitChars 10 whole 0, 0⟩
  | point :: fraction =>
    if (point = '.' ∨ point = ',') ∧ fraction.all Char.isDigit ∧ (whole ≠ [] ∨ fraction ≠ []) then
      some ⟨Nat.ofDigitChars 10 (whole ++ fraction) 0, -fraction.length⟩
    else none

/-- A zero keeps its minus as a negation. -/
def literal? : Text → Option Expr
  | '-' :: t => (decimal? t).map fun d => if d.toFloat == 0 then .negate (.number 0)
      else .number (-d.toFloat)
  | t => (decimal? t).map fun d => .number d.toFloat

/-! Writing a tree with as few parentheses as the reading of formulas allows. -/

def inParentheses (t : Text) : Text := '(' :: t ++ [')']

def parenthesized (needed : Bool) (t : Text) : Text := if needed then inParentheses t else t

namespace Expr

/-- How tightly the outermost sign of a tree binds; a minus in front binds like a negation. -/
def strength : Expr → Nat
  | number value => if isNegative value then 3 else 6
  | negate _ => 3
  | binary .add _ _ | binary .subtract _ _ => 1
  | binary .multiply _ _ | binary .divide _ _ => 2
  | binary .power _ _ => 4
  | factorial _ => 5
  | _ => 6

/-- Written with a minus in front. -/
def isSigned (e : Expr) : Bool := e.strength == 3

mutual

/-- The sum of a term and a signed one is written as a difference. -/
def render : Expr → Text
  | number value => numeral value
  | constant c => c.name
  | identifier name => name
  | negate operand => '-' :: parenthesized (operand.strength ≤ 3) operand.render
  | factorial operand => parenthesized (operand.strength ≤ 4) operand.render ++ ['!']
  | binary .add left right =>
    left.render ++ if right.isSigned then right.render
      else '+' :: parenthesized (right.strength ≤ 1) right.render
  | binary .subtract left right =>
    left.render ++ '-' :: parenthesized (right.strength ≤ 3) right.render
  | binary .multiply left right =>
    parenthesized (left.strength < 2) left.render ++ '*' :: parenthesized (right.strength ≤ 3)
      right.render
  | binary .divide left right =>
    parenthesized (left.strength < 2) left.render ++ '/' :: parenthesized (right.strength ≤ 3)
      right.render
  | binary .power left right =>
    parenthesized (left.strength ≤ 4) left.render ++ '^' :: parenthesized (right.strength ≤ 5)
      right.render
  | function f args => f.name ++ inParentheses (joinWith [','] (renderAll args))
  | series s _ [] => s.name ++ inParentheses []
  | series s index (body :: limits) =>
    s.name ++ inParentheses (joinWith [','] (body.render :: index :: renderAll limits))
  | call name args => name ++ inParentheses (joinWith [','] (renderAll args))

def renderAll : List Expr → List Text
  | [] => []
  | e :: rest => e.render :: renderAll rest

end

end Expr

/-! Why a text is no formula. -/

inductive ReadError where
  | nothing
  | onlyASign (c : Char)
  | unbalanced
  | endsWith (c : Char)
  | beginsWith (c : Char)
  | pair (a b : Char)
  | character (c : Char)
  | comma (position : Nat)
  | digits (position : Nat)
  | notCalled (name : Text)
  | noOperand
  | unbalancedIn (text : Text)
  | argumentCount (name : Text) (arity : Arity) (count : Nat)
  | formulaArgumentCount (name : Text) (arity count : Nat)
  | notAnIndex (name : Text) (found : Expr)
  | notUnderstood (text : Text)
  | afterFactorial (text : Text)
  | unknownFunction (name : Text)
  | unknownOperator (c : Char)

namespace ReadError

/-- The form of the text is wrong, or the arguments of a call, or there is no meaning to it. -/
inductive Kind where
  | form | arguments | meaning
  deriving DecidableEq

def kind : ReadError → Kind
  | argumentCount .. | formulaArgumentCount .. | notAnIndex .. => .arguments
  | notUnderstood _ | afterFactorial _ | unknownFunction _ | unknownOperator _ => .meaning
  | _ => .form

def Kind.heading : Kind → Text
  | form => "Format error: ".toList
  | arguments => "Argument error: ".toList
  | meaning => "Not supported: ".toList

def quoted (t : Text) : Text := '\'' :: t ++ ['\'']

def detail : ReadError → Text
  | nothing => "empty expression".toList
  | onlyASign c => quoted [c] ++ " is not an expression".toList
  | unbalanced => "unbalanced parentheses".toList
  | endsWith c => "invalid trailing operator ".toList ++ quoted [c]
  | beginsWith c => "invalid leading operator ".toList ++ quoted [c]
  | pair a b => "invalid sequence ".toList ++ quoted [a, b]
  | character c => "invalid character ".toList ++ quoted [c]
  | comma position => "misplaced comma at position ".toList ++ natText position
  | digits position => "invalid number near position ".toList ++ natText position
  | notCalled name => "function ".toList ++ quoted name ++ " called without parentheses".toList
  | noOperand => "empty operand".toList
  | unbalancedIn text => "unbalanced parentheses in ".toList ++ quoted text
  | argumentCount name arity count => arity.complaint name count
  | formulaArgumentCount name arity count => countComplaint name arity count
  | notAnIndex name found =>
    name ++ " expects a variable name as second argument, got ".toList ++ quoted found.render
  | notUnderstood text => quoted text ++ " is not supported".toList
  | afterFactorial text => "unexpected ".toList ++ quoted text ++ " after factorial".toList
  | unknownFunction name => "function ".toList ++ quoted name ++ " is not supported".toList
  | unknownOperator c => "Unknown operator: ".toList ++ [c]

def message (e : ReadError) : Text := e.kind.heading ++ e.detail

end ReadError

def Operator.ofSymbol (c : Char) : Except ReadError Operator :=
  match ofSymbol? c with
  | some op => .ok op
  | none => .error (.unknownOperator c)

end Abacus
