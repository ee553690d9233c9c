import Abacus.Proofs.Evaluation.Alike

/-! A quotient of a product is written without parentheses, so its text is read as the product whose
last factor is the quotient. That may have another value, but it has the same leaves in the same
order, and the same names stand free. -/

namespace Abacus

namespace Expr

/-- The operation on two trees, where a product is divided in its last factor. -/
def associate : Operator → Expr → Expr → Expr
  | .divide, binary .multiply a b, divisor => binary .multiply a (binary .divide b divisor)
  | op, left, right => binary op left right

mutual

/-- The tree with every product divided in its last factor. -/
def reassociated : Expr → Expr
  | number value => number value
  | constant c => constant c
  | identifier name => identifier name
  | negate operand => negate operand.reassociated
  | factorial operand => factorial operand.reassociated
  | binary op left right => associate op left.reassociated right.reassociated
  | function f args => function f (reassociatedAll args)
  | series k index args => series k index (reassociatedAll args)
  | call name args => call name (reassociatedAll args)

def reassociatedAll : List Expr → List Expr
  | [] => []
  | e :: rest => e.reassociated :: reassociatedAll rest

end

def isProduct : Expr → Bool
  | binary .multiply _ _ => true
  | _ => false

mutual

def dividesNoProduct : Expr → Bool
  | number _ | constant _ | identifier _ => true
  | negate operand | factorial operand => operand.dividesNoProduct
  | binary op left right =>
    left.dividesNoProduct && right.dividesNoProduct && !(op == .divide && left.isProduct)
  | function _ args | series _ _ args | call _ args => allDivideNoProduct args

def allDivideNoProduct : List Expr → Bool
  | [] => true
  | e :: rest => e.dividesNoProduct && allDivideNoProduct rest

end

section

variable {op : Operator} {a b c d e : Expr} {es : List Expr}

theorem associate_of_not_isProduct (h : ¬ (op = .divide ∧ a.isProduct = true)) :
    associate op a b = binary op a b := by
  unfold associate
  split
  · exact absurd ⟨rfl, rfl⟩ h
  · rfl

theorem associate_divide_multiply :
    associate .divide (binary .multiply a b) c = binary .multiply a (binary .divide b c) := rfl

theorem exists_of_isProduct (h : a.isProduct = true) : ∃ b c, a = binary .multiply b c := by
  unfold isProduct at h
  split at h
  · exact ⟨_, _, rfl⟩
  · cases h

theorem associate_eq_binary_iff :
    associate op a b = binary op c d ↔ a = c ∧ b = d ∧ ¬ (op = .divide ∧ c.isProduct = true) := by
  by_cases h : op = .divide ∧ a.isProduct = true
  · obtain ⟨rfl, hproduct⟩ := h
    obtain ⟨x, y, rfl⟩ := exists_of_isProduct hproduct
    refine iff_of_false (by simp [associate]) ?_
    rintro ⟨rfl, -, hnot⟩
    exact hnot ⟨rfl, rfl⟩
  · rw [associate_of_not_isProduct h, binary.injEq]
    constructor
    · rintro ⟨-, rfl, rfl⟩
      exact ⟨rfl, rfl, h⟩
    · rintro ⟨rfl, rfl, -⟩
      exact ⟨rfl, rfl, rfl⟩

mutual

theorem reassociated_eq_self_iff : ∀ e : Expr, e.reassociated = e ↔ e.dividesNoProduct = true
  | number _ | constant _ | identifier _ => by simp [reassociated, dividesNoProduct]
  | negate operand | factorial operand => by
    simp [reassociated, dividesNoProduct, reassociated_eq_self_iff operand]
  | binary op left right => by
    rw [reassociated, associate_eq_binary_iff, reassociated_eq_self_iff left,
      reassociated_eq_self_iff right]
    simp [dividesNoProduct, and_assoc, imp_iff_not_or]
  | function _ args | series _ _ args | call _ args => by
    simp [reassociated, dividesNoProduct, reassociatedAll_eq_self_iff args]

theorem reassociatedAll_eq_self_iff :
    ∀ es : List Expr, reassociatedAll es = es ↔ allDivideNoProduct es = true
  | [] => by simp [reassociatedAll, allDivideNoProduct]
  | e :: rest => by
    simp [reassociatedAll, allDivideNoProduct, reassociated_eq_self_iff e,
      reassociatedAll_eq_self_iff rest]

end

example :
    (binary .divide (binary .divide (binary .multiply (identifier ['a']) (constant .e))
      (constant .pi)) (number 3)).reassociated =
    binary .multiply (identifier ['a'])
      (binary .divide (binary .divide (constant .e) (constant .pi)) (number 3)) := rfl

theorem length_reassociatedAll (es : List Expr) : (reassociatedAll es).length = es.length := by
  induction es with
  | nil => rfl
  | cons e rest ih => simp [reassociatedAll, ih]

theorem sameNames_associate (op : Operator) (a b : Expr) :
    SameNames (binary op a b) (associate op a b) := by
  by_cases h : op = .divide ∧ a.isProduct = true
  · obtain ⟨rfl, hproduct⟩ := h
    obtain ⟨x, y, rfl⟩ := exists_of_isProduct hproduct
    rw [associate_divide_multiply]
    exact ⟨fun bound => by simp only [freeOccurrences, List.append_assoc],
      by simp only [callOccurrences, List.append_assoc], fun _ => by simp⟩
  · rw [associate_of_not_isProduct h]
    exact .refl _

theorem leaves_associate (op : Operator) (a b : Expr) :
    (associate op a b).leaves = a.leaves ++ b.leaves := by
  unfold associate
  split
  · simp only [leaves, List.append_assoc]
  · rfl

mutual

theorem leaves_reassociated : ∀ e : Expr, e.reassociated.leaves = e.leaves
  | number _ | constant _ | identifier _ | series _ _ [] => rfl
  | negate operand | factorial operand => leaves_reassociated operand
  | binary op left right => by
    rw [reassociated, leaves_associate, leaves_reassociated left, leaves_reassociated right, leaves]
  | function _ args | call _ args => by
    simp only [reassociated, leaves, leavesAll_reassociatedAll args]
  | series _ _ (body :: limits) => by
    simp only [reassociated, reassociatedAll, leaves, leaves_reassociated body,
      leavesAll_reassociatedAll limits]

theorem leavesAll_reassociatedAll : ∀ es : List Expr, leavesAll (reassociatedAll es) = leavesAll es
  | [] => rfl
  | e :: rest => by
    simp only [reassociatedAll, leavesAll, leaves_reassociated e, leavesAll_reassociatedAll rest]

end

mutual

theorem sameNames_reassociated : ∀ e : Expr, SameNames e e.reassociated
  | number _ | constant _ | identifier _ => by simpa [reassociated] using SameNames.refl _
  | negate operand => (sameNames_reassociated operand).negate
  | factorial operand => (sameNames_reassociated operand).factorial
  | binary op left right =>
    .trans (.binary op (sameNames_reassociated left) (sameNames_reassociated right))
      (sameNames_associate op _ _)
  | function f args => .function f (sameNames_reassociatedAll args)
  | series k index [] => .refl _
  | series k index (body :: limits) =>
    .series k index (sameNames_reassociated body) (sameNames_reassociatedAll limits)
  | call name args => .call name (sameNames_reassociatedAll args)

theorem sameNames_reassociatedAll : ∀ es : List Expr, List.Forall₂ SameNames es (reassociatedAll es)
  | [] => .nil
  | e :: rest => .cons (sameNames_reassociated e) (sameNames_reassociatedAll rest)

end

end

end Expr

end Abacus
