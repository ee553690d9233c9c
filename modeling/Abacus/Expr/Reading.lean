import Abacus.Canonical.Basic

/-! How a text divides at its loosest sign outside all groups. Every part is shorter than the text,
so trees can be built from the parts. -/

namespace Abacus

inductive Split where
  | leaf (e : Expr)
  | negate (operand : Text)
  | factorial (operand : Text)
  | binary (op : Operator) (left right : Text)
  | call (name : Text) (args : List Text)

namespace Split

/-- What the parts still have to be divided into; each argument of a call counts one more than its
length. -/
def size : Split → Nat
  | leaf _ => 0
  | negate operand | factorial operand => operand.length
  | binary _ left right => left.length + right.length
  | call _ args => totalLength args

/-- A minus after anything else is a sign of what follows it. -/
def endsOperand (c : Char) : Bool := c.isAlphanum || ['.', '_', ')', '!'].contains c

def atOperator? (op : Operator) (t : Text) : Option Split :=
  let counts (previous : Option Char) : Bool := if op = .subtract then previous.any endsOperand
    else true
  (splitAtLast? op.symbol counts 0 none t).map fun p => binary op p.1 p.2

def atSign? : Text → Option Split
  | '-' :: operand => some (negate operand)
  | _ => none

/-- The signs from the loosest on: a product binds looser than a quotient. -/
def signs : List (Text → Option Split) :=
  [atOperator? .add, atOperator? .subtract, atSign?, atOperator? .multiply, atOperator? .divide,
    atOperator? .power]

/-- A constant, a name, or a name before a list of arguments. -/
def ofAtom (t : Text) : Except ReadError Split :=
  match Constant.ofName? t with
  | some c => .ok (leaf (.constant c))
  | none =>
    match t.dropWhile (· != '(') with
    | [] => if isIdentifier t then .ok (leaf (.identifier t)) else .error (.notUnderstood t)
    | _ :: rest =>
      match splitGroup 0 rest with
      | none => .error (.unbalancedIn t)
      | some (inside, []) =>
        .ok (call (t.takeWhile (· != '(')) (if inside = [] then [] else splitAtTop ',' inside))
      | some _ => .error (.notUnderstood t)

/-- A factorial is the last sign of its text. -/
def ofFactorial (t : Text) : Except ReadError Split :=
  match splitAtLast? '!' (fun _ => true) 0 none t with
  | some (operand, []) => .ok (factorial operand)
  | some (_, after) => .error (.afterFactorial after)
  | none => ofAtom t

def ofText (t : Text) : Except ReadError Split :=
  if t = [] then .error .noOperand
  else
    match literal? t with
    | some e => .ok (leaf e)
    | none =>
      match signs.findSome? (· t) with
      | some s => .ok s
      | none => ofFactorial t

theorem size_atOperator? {op : Operator} {t : Text} {s : Split} (h : atOperator? op t = some s) :
    s.size < t.length := by
  obtain ⟨⟨left, right⟩, hp, rfl⟩ := Option.map_eq_some_iff.mp h
  rw [splitAtLast?_eq_some hp]
  simp +arith [size]

theorem size_atSign? {t : Text} {s : Split} (h : atSign? t = some s) : s.size < t.length := by
  unfold atSign? at h
  split at h <;> cases h
  simp [size]

theorem size_ofAtom {t : Text} {s : Split} (hne : t ≠ []) (h : ofAtom t = .ok s) :
    s.size < t.length := by
  have hpos : 0 < t.length := List.length_pos_iff.mpr hne
  unfold ofAtom at h
  split at h
  · cases h
    exact hpos
  · split at h
    · split at h <;> cases h
      exact hpos
    · next c rest hdrop =>
      split at h
      · cases h
      · next inside hgroup =>
        cases h
        have hlen :=
          congrArg List.length (List.takeWhile_append_dropWhile (p := (· != '(')) (l := t))
        rw [hdrop, splitGroup_eq_some hgroup] at hlen
        simp only [List.length_append, List.length_cons, List.length_nil] at hlen
        by_cases hi : inside = []
        · simp [size, hi, hpos, totalLength]
        · have := piecesAtTop_length ',' 0 inside
          simp only [size, hi, if_false, splitAtTop, totalLength]
          omega
      · cases h

theorem size_ofFactorial {t : Text} {s : Split} (hne : t ≠ []) (h : ofFactorial t = .ok s) :
    s.size < t.length := by
  unfold ofFactorial at h
  split at h
  · next operand hp =>
    cases h
    rw [splitAtLast?_eq_some hp]
    simp [size]
  · cases h
  · exact size_ofAtom hne h

theorem size_ofText {t : Text} {s : Split} (h : ofText t = .ok s) : s.size < t.length := by
  unfold ofText at h
  split at h
  · cases h
  · next hne =>
    split at h
    · cases h
      exact List.length_pos_iff.mpr hne
    · split at h
      · next hs =>
        cases h
        obtain ⟨f, hf, hs⟩ := List.exists_of_findSome?_eq_some hs
        simp only [signs, List.mem_cons, List.not_mem_nil, or_false] at hf
        rcases hf with rfl | rfl | rfl | rfl | rfl | rfl
        · exact size_atOperator? hs
        · exact size_atOperator? hs
        · exact size_atSign? hs
        · exact size_atOperator? hs
        · exact size_atOperator? hs
        · exact size_atOperator? hs
      · exact size_ofFactorial hne h

end Split

/-! Reading a formula: the text is brought into canonical form, and the tree is built from the parts
that it divides into. -/

namespace Expr

/-- The index of a series is its second argument. -/
def ofSeries (s : Series) : List Expr → Except ReadError Expr
  | body :: identifier index :: limits => .ok (series s index (body :: limits))
  | _ :: found :: _ => .error (.notAnIndex s.name found)
  | args => .error (.argumentCount s.name s.arity args.length)

def ofCallable (c : Callable) (args : List Expr) : Except ReadError Expr :=
  if c.arity.admits args.length then
    match c with
    | .function f => .ok (function f args)
    | .series s => ofSeries s args
  else .error (.argumentCount c.name c.arity args.length)

/-- The library comes before the formulas of one's own. -/
def ofCall (v : Vocabulary) (name : Text) (args : List Expr) : Except ReadError Expr :=
  match v.library.find? name with
  | some c => ofCallable c args
  | none =>
    match v.formulas.find? name with
    | some f =>
      if args.length = f.arity then .ok (call name args)
      else .error (.formulaArgumentCount name f.arity args.length)
    | none => .error (.unknownFunction name)

mutual

/-- The parts are built from left to right, and the first one that cannot be built is what is
wrong. -/
def build (v : Vocabulary) (t : Text) : Except ReadError Expr :=
  match _split : Split.ofText (withoutOuterGroups t) with
  | .error e => .error e
  | .ok (.leaf e) => .ok e
  | .ok (.negate operand) => negate <$> build v operand
  | .ok (.factorial operand) => factorial <$> build v operand
  | .ok (.binary op left right) => do
    let left ← build v left
    let right ← build v right
    return binary op left right
  | .ok (.call name args) => do
    let args ← buildAll v args
    ofCall v name args
termination_by t.length
decreasing_by
  all_goals
    have := Split.size_ofText _split
    have := length_withoutOuterGroups_le t
    simp only [Split.size] at *
    omega

def buildAll (v : Vocabulary) : List Text → Except ReadError (List Expr)
  | [] => .ok []
  | t :: rest => do
    let e ← build v t
    let others ← buildAll v rest
    return e :: others
termination_by ts => totalLength ts
decreasing_by all_goals simp only [totalLength]; omega

end

/-- The tree of a text as it is typed. -/
def read (v : Vocabulary) (t : Text) : Except ReadError Expr := do
  let t ← canonical v t
  build v t

end Expr

/-- The same formula with the tree of another text. -/
def Formula.set (f : Formula) (v : Vocabulary) (t : Text) : Except ReadError Formula :=
  (fun root => { f with root? := some root }) <$> Expr.read v t

end Abacus
