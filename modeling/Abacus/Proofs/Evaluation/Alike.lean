import Abacus.Evaluation.Basic
import Abacus.Proofs.Expr.SameNames
import Abacus.Proofs.Number.Sign
import Abacus.Proofs.Outcome

/-! Trees that have the same value, or fail in the same way, under all settings, formulas and
variables, and the same names. A minus may be moved over products and quotients, and two of them
cancel. -/

namespace Abacus

namespace Expr

structure Alike (e e' : Expr) : Prop extends SameNames e e' where
  value (s : Settings) (callees : Callees) (scope : List Variable) :
    e'.valueIn s callees scope = e.valueIn s callees scope

theorem Alike.refl (e : Expr) : Alike e e := ⟨.refl e, fun _ _ _ => rfl⟩

variable {e e' a a' b b' c : Expr} {es es' : List Expr}

theorem Alike.trans (h : Alike e e') (h' : Alike e' b) : Alike e b :=
  ⟨h.toSameNames.trans h'.toSameNames, fun s callees scope =>
    (h'.value s callees scope).trans (h.value s callees scope)⟩

theorem Alike.symm (h : Alike e e') : Alike e' e :=
  ⟨h.toSameNames.symm, fun s callees scope => (h.value s callees scope).symm⟩

theorem sameNames_alike (h : List.Forall₂ Alike es es') : List.Forall₂ SameNames es es' :=
  h.imp fun _ _ h => h.toSameNames

theorem valuesIn_alike (h : List.Forall₂ Alike es es') (s : Settings) (callees : Callees)
    (scope : List Variable) : valuesIn s callees scope es' = valuesIn s callees scope es := by
  induction h with
  | nil => rfl
  | cons h _ ih => simp only [valuesIn, h.value, ih]

section Congruence

attribute [local simp] valueIn valuesIn

theorem Alike.negate (h : Alike e e') : Alike e.negate e'.negate :=
  ⟨h.toSameNames.negate, fun s callees scope => by simp [h.value]⟩

theorem Alike.factorial (h : Alike e e') : Alike e.factorial e'.factorial :=
  ⟨h.toSameNames.factorial, fun s callees scope => by simp [h.value]⟩

theorem Alike.binary (op : Operator) (ha : Alike a a') (hb : Alike b b') :
    Alike (binary op a b) (binary op a' b') :=
  ⟨.binary op ha.toSameNames hb.toSameNames, fun s callees scope => by simp [ha.value, hb.value]⟩

theorem Alike.function (f : Function) (h : List.Forall₂ Alike es es') :
    Alike (function f es) (function f es') :=
  ⟨.function f (sameNames_alike h), fun s callees scope => by simp [valuesIn_alike h]⟩

theorem Alike.call (name : Text) (h : List.Forall₂ Alike es es') :
    Alike (call name es) (call name es') :=
  ⟨.call name (sameNames_alike h), fun s callees scope => by simp [valuesIn_alike h]⟩

theorem Alike.series (k : Series) (index : Text) (h : Alike e e') (hs : List.Forall₂ Alike es es') :
    Alike (series k index (e :: es)) (series k index (e' :: es')) :=
  ⟨.series k index h.toSameNames (sameNames_alike hs),
    fun s callees scope => by simp [h.value, valuesIn_alike hs]⟩

end Congruence

section Signs

theorem Alike.difference (op : Operator) (ha : Alike a a') (hb : Alike b c.negate) :
    Alike (.binary op a b.negate) (.binary op a' c) := by
  refine ⟨.difference op ha.toSameNames hb.toSameNames, fun s callees scope => ?_⟩
  simp only [valueIn, ha.value, ← hb.value]
  cases c.valueIn s callees scope with
  | error err => rfl
  | ok x => simp only [map_ok, float_neg_neg]

theorem Alike.subtract (ha : Alike a a') (hb : Alike b b') :
    Alike (.binary .subtract a b) (.binary .add a' b'.negate) := by
  refine ⟨.subtract ha.toSameNames hb.toSameNames, fun s callees scope => ?_⟩
  simp only [valueIn, ha.value, hb.value]
  cases a.valueIn s callees scope with
  | error err => rfl
  | ok x =>
    cases b.valueIn s callees scope with
    | error err => rfl
    | ok y => simp only [map_ok, ok_bind, Operator.apply, float_add_neg]

theorem alike_negate_multiply (a b : Expr) :
    Alike (binary .multiply a b).negate (binary .multiply a.negate b) := by
  refine ⟨⟨fun _ => rfl, rfl, fun _ => by simp⟩, fun s callees scope => ?_⟩
  simp only [valueIn]
  cases a.valueIn s callees scope with
  | error err => rfl
  | ok x =>
    cases b.valueIn s callees scope with
    | error err => rfl
    | ok y => simp only [map_ok, ok_bind, Operator.apply, float_neg_mul]

theorem alike_negate_divide (a b : Expr) :
    Alike (binary .divide a b).negate (binary .divide a.negate b) := by
  refine ⟨⟨fun _ => rfl, rfl, fun _ => by simp⟩, fun s callees scope => ?_⟩
  have hundefined : s.undefined .quotient = (- ·) <$> s.undefined .quotient := by
    unfold Settings.undefined
    split
    · rfl
    · rw [map_ok, float_neg_undefined]
  simp only [valueIn]
  cases a.valueIn s callees scope with
  | error err => rfl
  | ok x =>
    cases b.valueIn s callees scope with
    | error err => rfl
    | ok y =>
      simp only [map_ok, ok_bind, Operator.apply, float_neg_beq_zero, float_neg_div]
      split
      · rfl
      · split
        · exact hundefined
        · rfl

end Signs

end Expr

/-! Trees with the same value and the same names that also have the same leaves in the same order,
whatever happens to the signs between them. -/

namespace Expr

/-- What stands in a tree besides its signs. Of a number the magnitude counts, since a minus may
belong to it or stand before it. -/
inductive Leaf where
  | number (magnitude : Float)
  | constant (c : Constant)
  | name (name : Text)
  | function (f : Function)
  | series (k : Series)
  | formula (name : Text)

mutual

/-- The leaves from left to right. The index of a series comes after the body. -/
def leaves : Expr → List Leaf
  | number value => [.number value.abs]
  | constant c => [.constant c]
  | identifier name => [.name name]
  | negate operand | factorial operand => operand.leaves
  | binary _ left right => left.leaves ++ right.leaves
  | function f args => .function f :: leavesAll args
  | series k index [] => [.series k, .name index]
  | series k index (body :: limits) => .series k :: (body.leaves ++ .name index :: leavesAll limits)
  | call name args => .formula name :: leavesAll args

def leavesAll : List Expr → List Leaf
  | [] => []
  | e :: rest => e.leaves ++ leavesAll rest

end

structure Respelled (e e' : Expr) : Prop extends Alike e e' where
  leaves : e'.leaves = e.leaves

namespace Respelled

variable {e e' a a' b b' c : Expr} {es es' : List Expr}

theorem refl (e : Expr) : Respelled e e := ⟨.refl e, rfl⟩

theorem trans (h : Respelled e e') (h' : Respelled e' b) : Respelled e b :=
  ⟨h.toAlike.trans h'.toAlike, h'.leaves.trans h.leaves⟩

theorem symm (h : Respelled e e') : Respelled e' e := ⟨h.toAlike.symm, h.leaves.symm⟩

theorem alike_all (h : List.Forall₂ Respelled es es') : List.Forall₂ Alike es es' :=
  h.imp fun _ _ h => h.toAlike

theorem leavesAll_eq (h : List.Forall₂ Respelled es es') : leavesAll es' = leavesAll es := by
  induction h with
  | nil => rfl
  | cons h _ ih => rw [leavesAll, leavesAll, h.leaves, ih]

section Congruence

theorem negate (h : Respelled e e') : Respelled e.negate e'.negate := ⟨h.toAlike.negate, h.leaves⟩

theorem factorial (h : Respelled e e') : Respelled e.factorial e'.factorial :=
  ⟨h.toAlike.factorial, h.leaves⟩

theorem binary (op : Operator) (ha : Respelled a a') (hb : Respelled b b') :
    Respelled (binary op a b) (binary op a' b') :=
  ⟨.binary op ha.toAlike hb.toAlike, congrArg₂ (· ++ ·) ha.leaves hb.leaves⟩

theorem subtract (ha : Respelled a a') (hb : Respelled b b') :
    Respelled (.binary .subtract a b) (.binary .add a' b'.negate) :=
  ⟨.subtract ha.toAlike hb.toAlike, congrArg₂ (· ++ ·) ha.leaves hb.leaves⟩

theorem difference (op : Operator) (ha : Respelled a a') (hb : Respelled b c.negate) :
    Respelled (.binary op a b.negate) (.binary op a' c) :=
  ⟨.difference op ha.toAlike hb.toAlike, congrArg₂ (· ++ ·) ha.leaves hb.leaves⟩

theorem function (f : Function) (h : List.Forall₂ Respelled es es') :
    Respelled (function f es) (function f es') :=
  ⟨.function f (alike_all h), congrArg (Leaf.function f :: ·) (leavesAll_eq h)⟩

theorem call (name : Text) (h : List.Forall₂ Respelled es es') :
    Respelled (call name es) (call name es') :=
  ⟨.call name (alike_all h), congrArg (Leaf.formula name :: ·) (leavesAll_eq h)⟩

theorem series (k : Series) (index : Text) (h : Respelled e e')
    (hs : List.Forall₂ Respelled es es') :
    Respelled (series k index (e :: es)) (series k index (e' :: es')) :=
  ⟨.series k index h.toAlike (alike_all hs), by simp only [Expr.leaves, h.leaves, leavesAll_eq hs]⟩

end Congruence

theorem negate_multiply (a b : Expr) :
    Respelled (Expr.binary .multiply a b).negate (.binary .multiply a.negate b) :=
  ⟨alike_negate_multiply a b, rfl⟩

theorem negate_divide (a b : Expr) :
    Respelled (Expr.binary .divide a b).negate (.binary .divide a.negate b) :=
  ⟨alike_negate_divide a b, rfl⟩

/-- The minus of a number is a part of it or stands before it. -/
theorem negate_number (x : Float) : Respelled (.number (-x)) (.negate (.number x)) :=
  ⟨⟨⟨fun _ => rfl, rfl, fun _ => by simp⟩, fun _ _ _ => rfl⟩,
    by simp only [Expr.leaves, float_abs_neg]⟩

end Respelled

end Expr

end Abacus
