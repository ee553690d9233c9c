import Mathlib
import Abacus.Number.Basic

/-! The order of numbers is the order of their rungs, NaN apart. So it is total on numbers, and what
holds of the order of whole numbers holds of it. -/

namespace Abacus

open Float.Model

section Rungs

variable {x y : UnpackedFloat}

theorem compare_neg (a b : Int) : compare (-a) (-b) = (compare a b).swap := by
  rcases lt_trichotomy a b with h | rfl | h
  · rw [compare_lt_iff_lt.mpr h]
    exact compare_gt_iff_gt.mpr (by omega)
  · simp
  · rw [compare_gt_iff_gt.mpr h]
    exact compare_lt_iff_lt.mpr (by omega)

/-- Of two magnitudes the exponents decide, and the mantissas where these are the same. -/
theorem compare_place {m n : Nat} {e f : Int} (hm : m < rungsPerExponent)
    (hn : n < rungsPerExponent) :
    (compare e f).then (compare m n) =
      compare ((e + 1075) * rungsPerExponent + m) ((f + 1075) * rungsPerExponent + n) := by
  dsimp only [rungsPerExponent] at *
  rcases lt_trichotomy e f with h | rfl | h
  · rw [compare_lt_iff_lt.mpr h]
    exact (compare_lt_iff_lt.mpr (by omega)).symm
  · rw [compare_eq_iff_eq.mpr rfl, Ordering.eq_then]
    rcases lt_trichotomy m n with h | rfl | h
    · rw [compare_lt_iff_lt.mpr h]
      exact (compare_lt_iff_lt.mpr (by omega)).symm
    · simp
    · rw [compare_gt_iff_gt.mpr h]
      exact (compare_gt_iff_gt.mpr (by omega)).symm
  · rw [compare_gt_iff_gt.mpr h]
    exact (compare_gt_iff_gt.mpr (by omega)).symm

theorem compare_eq_rungOf (hx : InRange x) (hy : InRange y) (hx' : x.isNaN = false)
    (hy' : y.isNaN = false) : x.compare y = some (compare (rungOf x) (rungOf y)) := by
  -- two magnitudes with the same sign are compared by their places, all others lie on both sides of
  -- a bound
  rcases x with (_ | _) | _ | s | ⟨_ | _, m, e, hm⟩ <;>
    rcases y with (_ | _) | _ | t | ⟨_ | _, n, f, hn⟩
  all_goals first
    | cases hx'; done
    | cases hy'; done
    | rfl
    | (dsimp only [UnpackedFloat.compare, rungOf]; rw [compare_neg, compare_place hx.1 hy.1])
    | (dsimp only [UnpackedFloat.compare, rungOf]; rw [compare_place hx.1 hy.1])
    | (dsimp only [UnpackedFloat.compare, InRange, rungOf, rungsPerExponent, topRung] at *
       first
         | exact congrArg some (compare_lt_iff_lt.mpr (by omega)).symm
         | exact congrArg some (compare_gt_iff_gt.mpr (by omega)).symm)

theorem isNaN_of_compare {o : Ordering} (h : x.compare y = some o) :
    x.isNaN = false ∧ y.isNaN = false := by
  rcases x with (_ | _) | _ | _ | ⟨_ | _, _, _, _⟩ <;>
    rcases y with (_ | _) | _ | _ | ⟨_ | _, _, _, _⟩ <;>
    first | exact ⟨rfl, rfl⟩ | cases h

end Rungs

section Floats

variable {x y z : Float}

theorem compare_eq_rung (hx : x.isNaN = false) (hy : y.isNaN = false) :
    x.toModel.unpack.compare y.toModel.unpack = some (compare (rung x) (rung y)) :=
  compare_eq_rungOf (inRange_unpack _) (inRange_unpack _) hx hy

theorem lt_iff_rung (hx : x.isNaN = false) (hy : y.isNaN = false) : x < y ↔ rung x < rung y := by
  have hlt : x < y ↔ x.toModel.unpack.lt y.toModel.unpack = true := decide_eq_true_iff
  rw [hlt, UnpackedFloat.lt, compare_eq_rung hx hy]
  simpa using compare_lt_iff_lt

theorem le_iff_rung (hx : x.isNaN = false) (hy : y.isNaN = false) : x ≤ y ↔ rung x ≤ rung y := by
  have hle : x ≤ y ↔ x.toModel.unpack.le y.toModel.unpack = true := decide_eq_true_iff
  rw [hle, UnpackedFloat.le, compare_eq_rung hx hy]
  simpa using Int.isLE_compare

theorem beq_iff_rung (hx : x.isNaN = false) (hy : y.isNaN = false) :
    (x == y) = true ↔ rung x = rung y := by
  change UnpackedFloat.beq _ _ = true ↔ _
  rw [UnpackedFloat.beq, compare_eq_rung hx hy]
  simp

theorem isNaN_of_le (h : x ≤ y) : x.isNaN = false ∧ y.isNaN = false := by
  have hle : x.toModel.unpack.le y.toModel.unpack = true := of_decide_eq_true h
  obtain ⟨o, hcompare, -⟩ := (Option.any_eq_true _ _).mp hle
  exact isNaN_of_compare hcompare

theorem isNaN_of_lt (h : x < y) : x.isNaN = false ∧ y.isNaN = false := by
  have hlt : x.toModel.unpack.lt y.toModel.unpack = true := of_decide_eq_true h
  exact isNaN_of_compare (eq_of_beq hlt)

theorem isFinite_iff : x.isFinite = true ↔ x.isNaN = false ∧ x.isInf = false := by
  change x.toModel.unpack.isFinite = true ↔
    x.toModel.unpack.isNaN = false ∧ x.toModel.unpack.isInf = false
  cases x.toModel.unpack <;> simp [UnpackedFloat.isFinite, UnpackedFloat.isNaN, UnpackedFloat.isInf]

theorem isNaN_of_isFinite (h : x.isFinite = true) : x.isNaN = false := (isFinite_iff.mp h).1

theorem float_lt_trans (hxy : x < y) (hyz : y < z) : x < z := by
  have hx := (isNaN_of_lt hxy).1
  have hz := (isNaN_of_lt hyz).2
  exact (lt_iff_rung hx hz).mpr ((rung_lt_rung hxy).trans (rung_lt_rung hyz))

theorem float_le_of_lt (h : x < y) : x ≤ y :=
  (le_iff_rung (isNaN_of_lt h).1 (isNaN_of_lt h).2).mpr (rung_lt_rung h).le

theorem float_not_lt (hx : x.isNaN = false) (hy : y.isNaN = false) : ¬ y < x ↔ x ≤ y := by
  rw [lt_iff_rung hy hx, le_iff_rung hx hy, not_lt]

theorem float_not_le (hx : x.isNaN = false) (hy : y.isNaN = false) : ¬ x ≤ y ↔ y < x := by
  rw [le_iff_rung hx hy, lt_iff_rung hy hx, not_le]

theorem beq_of_le_of_not_lt (h : x ≤ y) (hnot : ¬ x < y) : (x == y) = true := by
  obtain ⟨hx, hy⟩ := isNaN_of_le h
  rw [le_iff_rung hx hy] at h
  rw [lt_iff_rung hx hy] at hnot
  rw [beq_iff_rung hx hy]
  omega

end Floats

end Abacus
