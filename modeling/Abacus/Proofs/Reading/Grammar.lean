import Abacus.Proofs.Canonical.Forms

/-! The grammar of formulas, and the tree that a text of it stands for: sums from left to right,
where a difference adds the negative, then products of quotients, a minus in front of a power,
powers from left to right, where an exponent may have a minus, factorials, and at last numbers,
names, groups and calls. The same grammar is given for layouts, where no minus comes after the sign
of a sum. -/

namespace Abacus

/-- How strongly the parts of a formula hold together. -/
inductive Strength where
  | sum | product | quotient | factor | power | factorial | atom
  deriving DecidableEq

namespace Strength

def next : Strength → Strength
  | sum => product
  | product => quotient
  | quotient => factor
  | factor => power
  | power => factorial
  | factorial | atom => atom

/-- The signs that a part may have outside its groups. -/
def signs : Strength → List Char
  | sum => ['+', '-', '*', '/', '^', '!']
  | product => ['-', '*', '/', '^', '!']
  | quotient => ['-', '/', '^', '!']
  | factor | power => ['-', '^', '!']
  | factorial => ['!']
  | atom => []

theorem signs_next (k : Strength) {c : Char} (h : c ∈ k.next.signs) : c ∈ k.signs := by
  cases k <;> simp only [next, signs, List.mem_cons, List.not_mem_nil, or_false] at h ⊢ <;> tauto

section

variable {P : Strength → Prop} (htighter : ∀ k, k ≠ .atom → P k.next → P k)
include htighter

theorem ofAtom (h : P .atom) (k : Strength) : P k := by
  have hfactorial : P .factorial := htighter _ (by decide) h
  have hpower : P .power := htighter _ (by decide) hfactorial
  have hfactor : P .factor := htighter _ (by decide) hpower
  have hquotient : P .quotient := htighter _ (by decide) hfactor
  have hproduct : P .product := htighter _ (by decide) hquotient
  cases k with
  | sum => exact htighter _ (by decide) hproduct
  | product => exact hproduct
  | quotient => exact hquotient
  | factor => exact hfactor
  | power => exact hpower
  | factorial => exact hfactorial
  | atom => exact h

theorem toSum {k : Strength} (h : P k) : P .sum := by
  have hproduct (h : P .product) : P .sum := htighter _ (by decide) h
  have hquotient (h : P .quotient) : P .sum := hproduct (htighter _ (by decide) h)
  have hfactor (h : P .factor) : P .sum := hquotient (htighter _ (by decide) h)
  have hpower (h : P .power) : P .sum := hfactor (htighter _ (by decide) h)
  cases k with
  | sum => exact h
  | product => exact hproduct h
  | quotient => exact hquotient h
  | factor => exact hfactor h
  | power => exact hpower h
  | factorial => exact hpower (htighter _ (by decide) h)
  | atom => exact ofAtom htighter h .sum

end

end Strength

namespace Operator

def strength : Operator → Strength
  | add | subtract => .sum
  | multiply => .product
  | divide => .quotient
  | power => .power

theorem symbol_mem_signs (op : Operator) : op.symbol ∈ op.strength.signs := by cases op <;> decide

end Operator

/-- Digits, or digits before and after a point. -/
inductive IsNumeral : Text → Decimal → Prop
  | whole {digits : Text} (hne : digits ≠ []) (h : ∀ c ∈ digits, c.isDigit = true) :
    IsNumeral digits ⟨Nat.ofDigitChars 10 digits 0, 0⟩
  | pointed {whole fraction : Text} (hw : whole ≠ []) (hf : fraction ≠ [])
    (hwhole : ∀ c ∈ whole, c.isDigit = true) (hfraction : ∀ c ∈ fraction, c.isDigit = true) :
    IsNumeral (whole ++ '.' :: fraction)
      ⟨Nat.ofDigitChars 10 (whole ++ fraction) 0, -fraction.length⟩

/-- A number, or a name that is not callable. -/
inductive IsLeaf (v : Vocabulary) : Text → Expr → Prop
  | number {t : Text} {d : Decimal} (h : IsNumeral t d) : IsLeaf v t (.number d.toFloat)
  | constant (c : Constant) (hcall : v.isCallable c.name = false) : IsLeaf v c.name (.constant c)
  | identifier {t : Text} (hid : isIdentifier t = true) (hne : t ≠ ['_'])
    (hcall : v.isCallable t = false) (hconstant : Constant.ofName? t = none) :
    IsLeaf v t (.identifier t)

/-- A name that may be a variable. -/
structure IsVariable (v : Vocabulary) (p : Text) : Prop where
  identifier : isIdentifier p = true
  notCallable : v.isCallable p = false
  notConstant : Constant.ofName? p = none

/-- What is written as one run. Besides the leaves of the grammar this is the name that is no
formula by itself. -/
inductive IsTerminal (v : Vocabulary) : Text → Expr → Prop
  | number {t : Text} {d : Decimal} (h : IsNumeral t d) : IsTerminal v t (.number d.toFloat)
  | constant (c : Constant) (hcall : v.isCallable c.name = false) :
    IsTerminal v c.name (.constant c)
  | name {t : Text} (h : IsVariable v t) : IsTerminal v t (.identifier t)

theorem IsLeaf.isTerminal {v : Vocabulary} {t : Text} {e : Expr} (h : IsLeaf v t e) :
    IsTerminal v t e := by
  cases h with
  | number h => exact .number h
  | constant c hcall => exact .constant c hcall
  | identifier hid _ hcall hconstant => exact .name ⟨hid, hcall, hconstant⟩

/-- The tree of a call by this name; the second argument of a series is its index. -/
inductive IsCallTo (v : Vocabulary) (name : Text) : List Expr → Expr → Prop
  | function {f : Function} {args : List Expr} (h : v.library.find? name = some (.function f)) :
    IsCallTo v name args (.function f args)
  | series {s : Series} {body : Expr} {index : Text} {limits : List Expr}
    (h : v.library.find? name = some (.series s)) :
    IsCallTo v name (body :: .identifier index :: limits) (.series s index (body :: limits))
  | formula {f : Formula} {args : List Expr} (hl : v.library.find? name = none)
    (hf : v.formulas.find? name = some f) : IsCallTo v name args (.call name args)

/-- The texts of the grammar, each with the tree that it stands for. -/
inductive Reads (v : Vocabulary) : Strength → Text → Expr → Prop
  | tighter {k : Strength} {t : Text} {e : Expr} (hk : k ≠ .atom) (h : Reads v k.next t e) :
    Reads v k t e
  | operator {op : Operator} {k : Strength} {left right : Text} {a b : Expr} (hk : op.strength = k)
    (hop : op ≠ .subtract) (hleft : Reads v k left a) (hright : Reads v k.next right b) :
    Reads v k (left ++ op.symbol :: right) (.binary op a b)
  | difference {left right : Text} {a b : Expr} (hleft : Reads v .sum left a)
    (hright : Reads v .product right b) :
    Reads v .sum (left ++ '-' :: right) (.binary .add a (.negate b))
  | negative {t : Text} {e : Expr} (h : Reads v .power t e) : Reads v .factor ('-' :: t) (.negate e)
  | negativeExponent {left right : Text} {a b : Expr} (hleft : Reads v .power left a)
    (hright : Reads v .factorial right b) :
    Reads v .power (left ++ '^' :: '-' :: right) (.binary .power a (.negate b))
  | factorial {t : Text} {e : Expr} (h : Reads v .factorial t e) :
    Reads v .factorial (t ++ ['!']) (.factorial e)
  | leaf {t : Text} {e : Expr} (h : IsLeaf v t e) : Reads v .atom t e
  | group {t : Text} {e : Expr} (h : Reads v .sum t e) : Reads v .atom ('(' :: (t ++ [')'])) e
  | call {name : Text} {args : List (Text × Expr)} {arity : Arity} {e : Expr}
    (harity : v.arity? name = some arity) (hcount : arity.admits args.length = true)
    (hargs : ∀ a ∈ args, Reads v .sum a.1 a.2) (hcall : IsCallTo v name (args.map Prod.snd) e) :
    Reads v .atom (name ++ '(' :: (joinWith [','] (args.map Prod.fst) ++ [')'])) e

theorem Reads.ofAtom {v : Vocabulary} {t : Text} {e : Expr} (h : Reads v .atom t e) (k : Strength) :
    Reads v k t e :=
  Strength.ofAtom (P := fun k => Reads v k t e) (fun _ hk h => .tighter hk h) h k

def Unsigned (items : List Item) : Prop := items.head? ≠ some (.sign '-')

theorem unsigned_append {left : List Item} (hne : left ≠ []) (h : Unsigned left)
    (right : List Item) : Unsigned (left ++ right) := by
  cases left with
  | nil => exact absurd rfl hne
  | cons x left => exact h

theorem Unsigned.of_append {left right : List Item} (h : Unsigned (left ++ right)) :
    Unsigned left := by
  cases left with
  | nil => simp [Unsigned]
  | cons x left => exact h

theorem unsigned_operand {x : Item} (hx : x.isOperand = true) (rest : List Item) :
    Unsigned (x :: rest) := by
  cases x with
  | sign c => cases hx
  | run t | group inner | call name inner => simp [Unsigned]

/-- The layouts of the grammar, with a condition on every level inside. -/
inductive Denotes (v : Vocabulary) (level : List Item → Prop) : Strength → List Item → Expr → Prop
  | tighter {k : Strength} {items : List Item} {e : Expr} (hk : k ≠ .atom)
    (h : Denotes v level k.next items e) : Denotes v level k items e
  | operator {op : Operator} {k : Strength} {left right : List Item} {a b : Expr}
    (hk : op.strength = k) (hop : op ≠ .subtract) (hsign : k = .sum → Unsigned right)
    (hleft : Denotes v level k left a) (hright : Denotes v level k.next right b) :
    Denotes v level k (left ++ .sign op.symbol :: right) (.binary op a b)
  | difference {left right : List Item} {a b : Expr} (hsign : Unsigned right)
    (hleft : Denotes v level .sum left a) (hright : Denotes v level .product right b) :
    Denotes v level .sum (left ++ .sign '-' :: right) (.binary .add a (.negate b))
  | negative {items : List Item} {e : Expr} (h : Denotes v level .power items e) :
    Denotes v level .factor (.sign '-' :: items) (.negate e)
  | negativeExponent {left right : List Item} {a b : Expr} (hleft : Denotes v level .power left a)
    (hright : Denotes v level .factorial right b) :
    Denotes v level .power (left ++ .sign '^' :: .sign '-' :: right) (.binary .power a (.negate b))
  | factorial {items : List Item} {e : Expr} (h : Denotes v level .factorial items e) :
    Denotes v level .factorial (items ++ [.sign '!']) (.factorial e)
  | terminal {t : Text} {e : Expr} (h : IsTerminal v t e) : Denotes v level .atom [.run t] e
  | group {inner : List Item} {e : Expr} (hlevel : level inner) (h : Denotes v level .sum inner e) :
    Denotes v level .atom [.group inner] e
  | call {name : Text} {inner : List Item} {args : List (List Item × Expr)} {arity : Arity}
    {e : Expr} (hlevel : level inner) (harity : v.arity? name = some arity)
    (hcount : arity.admits args.length = true) (hinner : Arguments (args.map Prod.fst) inner)
    (hargs : ∀ a ∈ args, Denotes v level .sum a.1 a.2)
    (hcall : IsCallTo v name (args.map Prod.snd) e) : Denotes v level .atom [.call name inner] e

namespace Denotes

variable {v : Vocabulary} {level : List Item → Prop} {k : Strength} {items : List Item} {e : Expr}

theorem ne_nil (h : Denotes v level k items e) : items ≠ [] := by
  induction h with
  | tighter _ _ ih => exact ih
  | operator | difference | negative | negativeExponent | factorial | terminal | group | call =>
    simp

theorem toSum (h : Denotes v level k items e) : Denotes v level .sum items e :=
  Strength.toSum (P := fun k => Denotes v level k items e) (fun _ hk h => .tighter hk h) h

theorem ofAtom (k : Strength) (h : Denotes v level .atom items e) : Denotes v level k items e :=
  Strength.ofAtom (P := fun k => Denotes v level k items e) (fun _ hk h => .tighter hk h) h k

theorem eq_operand (h : Denotes v level .atom items e) : ∃ x, items = [x] ∧ x.isOperand = true := by
  cases h with
  | tighter hk _ => exact absurd rfl hk
  | @operator op _ _ _ _ _ hk => cases op <;> cases hk
  | terminal | group | call => exact ⟨_, rfl, rfl⟩

theorem sign_mem (h : Denotes v level k items e) {c : Char} (hc : .sign c ∈ items) :
    c ∈ k.signs := by
  induction h with
  | tighter _ _ ih => exact Strength.signs_next _ (ih hc)
  | @operator op k _ _ _ _ hk _ _ _ _ ihl ihr =>
    simp only [List.mem_append, List.mem_cons, Item.sign.injEq] at hc
    rcases hc with hc | rfl | hc
    · exact ihl hc
    · exact hk ▸ op.symbol_mem_signs
    · exact Strength.signs_next _ (ihr hc)
  | difference _ _ _ ihl ihr =>
    simp only [List.mem_append, List.mem_cons, Item.sign.injEq] at hc
    rcases hc with hc | rfl | hc
    · exact ihl hc
    · decide
    · exact Strength.signs_next .sum (ihr hc)
  | negative _ ih =>
    simp only [List.mem_cons, Item.sign.injEq] at hc
    rcases hc with rfl | hc
    · decide
    · exact ih hc
  | negativeExponent _ _ ihl ihr =>
    simp only [List.mem_append, List.mem_cons, Item.sign.injEq] at hc
    rcases hc with hc | rfl | rfl | hc
    · exact ihl hc
    · decide
    · decide
    · exact Strength.signs_next .power (ihr hc)
  | factorial _ ih =>
    simp only [List.mem_append, List.mem_singleton, Item.sign.injEq] at hc
    rcases hc with hc | rfl
    · exact ih hc
    · decide
  | terminal | group | call => simp at hc

theorem comma_not_mem (h : Denotes v level k items e) : .sign ',' ∉ items := fun hc => by
  have hmem := h.sign_mem hc
  cases k <;> exact absurd hmem (by decide)

theorem unsigned (h : Denotes v level k items e) (hk : k ∈ [.power, .factorial, .atom]) :
    Unsigned items := by
  induction h with
  | @tighter k _ _ _ _ ih => exact ih (by revert hk; cases k <;> decide)
  | operator _ _ _ hleft _ ih _ => exact unsigned_append hleft.ne_nil (ih hk) _
  | difference | negative => exact absurd hk (by decide)
  | negativeExponent hleft _ ih _ => exact unsigned_append hleft.ne_nil (ih (by decide)) _
  | factorial h ih => exact unsigned_append h.ne_nil (ih (by decide)) _
  | terminal | group | call => exact unsigned_operand rfl _

theorem getLast_or (h : Denotes v level k items e) :
    ∃ first x, items = first ++ [x] ∧ (x.isOperand = true ∨ x = .sign '!') := by
  induction h with
  | tighter _ _ ih => exact ih
  | @operator op _ left _ _ _ _ _ _ _ _ _ ih =>
    obtain ⟨first, x, rfl, hx⟩ := ih
    exact ⟨left ++ .sign op.symbol :: first, x, by simp, hx⟩
  | @difference left _ _ _ _ _ _ _ ih =>
    obtain ⟨first, x, rfl, hx⟩ := ih
    exact ⟨left ++ .sign '-' :: first, x, by simp, hx⟩
  | negative _ ih =>
    obtain ⟨first, x, rfl, hx⟩ := ih
    exact ⟨.sign '-' :: first, x, by simp, hx⟩
  | @negativeExponent left _ _ _ _ _ _ ih =>
    obtain ⟨first, x, rfl, hx⟩ := ih
    exact ⟨left ++ .sign '^' :: .sign '-' :: first, x, by simp, hx⟩
  | factorial => exact ⟨_, _, rfl, .inr rfl⟩
  | terminal | group | call => exact ⟨[], _, rfl, .inl rfl⟩

theorem atom_of_factorial (h : Denotes v level .factorial items e) (hnone : .sign '!' ∉ items) :
    Denotes v level .atom items e := by
  cases h with
  | tighter _ h => exact h
  | @operator op _ _ _ _ _ hk => cases op <;> cases hk
  | factorial => simp at hnone

end Denotes

end Abacus
