import Mathlib
import Abacus.Decimal.Basic

/-! The sign of a number is kept apart from its magnitude: a negation commutes with products and
quotients, down to the last bit, and the number that a decimal reads as has no minus. -/

namespace Abacus

open Float.Model

section Negation

theorem unpack_packComponents_neg (s : UnpackedFloat.Sign) (e : BitVec 11) (m : BitVec 52) :
    UnpackedFloat.unpack .binary64 (UnpackedFloat.packComponents .binary64 (-s) e m) =
      (UnpackedFloat.unpack .binary64 (UnpackedFloat.packComponents .binary64 s e m)).neg := by
  unfold UnpackedFloat.unpack
  simp only [UnpackedFloat.unpackExponent_packComponents,
    UnpackedFloat.unpackMantissa_packComponents, UnpackedFloat.unpackSign_packComponents,
    UnpackedFloat.Sign.ofBitVec_toBitVec]
  split
  · split <;> rfl
  · split
    · split <;> rfl
    · rfl

theorem unpack_pack_neg (u : UnpackedFloat) : (pack u.neg).unpack = (pack u).unpack.neg := by
  cases u with
  | notANumber =>
    have hnan : (pack .notANumber).unpack = .notANumber := UnpackedFloat.unpack_packedNaN
    simp only [UnpackedFloat.neg, hnan]
  | infinity s | zero s => exact unpack_packComponents_neg s _ _
  | finite s m e h =>
    simp only [UnpackedFloat.neg, pack, unpack, UnpackedFloat.pack]
    split
    · exact unpack_packComponents_neg s _ _
    · split <;> exact unpack_packComponents_neg s _ _

theorem pack_unpack (m : Float.Model) : pack m.unpack = m := by
  obtain ⟨⟨b⟩, hb⟩ := m
  simp only [pack, unpack, UnpackedFloat.pack_unpack_of_valid hb]

theorem unpack_neg (x : Float) : (-x).toModel.unpack = x.toModel.unpack.neg := by
  have hneg : (-x).toModel = pack x.toModel.unpack.neg := rfl
  rw [hneg, unpack_pack_neg, pack_unpack]

theorem neg_pack (u : UnpackedFloat) : -(Float.ofModel (pack u)) = Float.ofModel (pack u.neg) := by
  have hneg : -(Float.ofModel (pack u)) = Float.ofModel (pack (pack u).unpack.neg) := rfl
  rw [hneg, ← unpack_pack_neg, pack_unpack]

theorem float_neg_neg (x : Float) : - -x = x := by
  have hneg : - -x = Float.ofModel (pack (-x).toModel.unpack.neg) := rfl
  have hself (u : UnpackedFloat) : u.neg.neg = u := by
    rcases u with s | _ | s | ⟨s, m, e, h⟩
    · cases s <;> rfl
    · rfl
    · cases s <;> rfl
    · cases s <;> rfl
  rw [hneg, unpack_neg, hself, pack_unpack]

theorem float_abs_neg (x : Float) : (-x).abs = x.abs := by
  have habs (x : Float) : x.abs = Float.ofModel (pack x.toModel.unpack.abs) := rfl
  have hneg (u : UnpackedFloat) : u.neg.abs = u.abs := by cases u <;> rfl
  rw [habs, habs, unpack_neg, hneg]

theorem roundWithAccuracy_neg (s : UnpackedFloat.Sign) (m : Nat) (e : Int)
    (a : UnpackedFloat.Accuracy) :
    UnpackedFloat.roundWithAccuracy .binary64 (-s) m e a =
      (UnpackedFloat.roundWithAccuracy .binary64 s m e a).neg := by
  simp only [UnpackedFloat.roundWithAccuracy]
  split <;> rfl

theorem float_neg_mul (x y : Float) : -x * y = -(x * y) := by
  have hleft : -x * y =
      Float.ofModel (pack (UnpackedFloat.mul .binary64 (-x).toModel.unpack y.toModel.unpack)) := rfl
  have hright : x * y =
      Float.ofModel (pack (UnpackedFloat.mul .binary64 x.toModel.unpack y.toModel.unpack)) := rfl
  have hmul (u w : UnpackedFloat) : UnpackedFloat.mul .binary64 u.neg w =
      (UnpackedFloat.mul .binary64 u w).neg := by
    have hsign (s t : UnpackedFloat.Sign) : -s * t = -(s * t) := by cases s <;> cases t <;> rfl
    cases u <;> cases w <;>
      simp only [UnpackedFloat.neg, UnpackedFloat.mul, hsign, roundWithAccuracy_neg]
  rw [hleft, hright, neg_pack, unpack_neg, hmul]

theorem float_add_neg (x y : Float) : x + -y = x - y := by
  have hleft : x + -y =
      Float.ofModel (pack (UnpackedFloat.add .binary64 x.toModel.unpack (-y).toModel.unpack)) := rfl
  have hright : x - y =
      Float.ofModel (pack (UnpackedFloat.sub .binary64 x.toModel.unpack y.toModel.unpack)) := rfl
  have hsub (u w : UnpackedFloat) : UnpackedFloat.add .binary64 u w.neg =
      UnpackedFloat.sub .binary64 u w := by
    have hsign (s : UnpackedFloat.Sign) (m : ℤ) : (-s).apply m = -s.apply m := by
      cases s <;> simp [UnpackedFloat.Sign.apply]
    cases u <;> cases w <;>
      simp only [UnpackedFloat.neg, UnpackedFloat.add, UnpackedFloat.sub, hsign, ← sub_eq_add_neg]
  rw [hleft, hright, unpack_neg, hsub]

theorem float_neg_div (x y : Float) : -x / y = -(x / y) := by
  have hleft : -x / y =
      Float.ofModel (pack (UnpackedFloat.div .binary64 (-x).toModel.unpack y.toModel.unpack)) := rfl
  have hright : x / y =
      Float.ofModel (pack (UnpackedFloat.div .binary64 x.toModel.unpack y.toModel.unpack)) := rfl
  have hdiv (u w : UnpackedFloat) : UnpackedFloat.div .binary64 u.neg w =
      (UnpackedFloat.div .binary64 u w).neg := by
    have hsign (s t : UnpackedFloat.Sign) : -s / t = -(s / t) := by cases s <;> cases t <;> rfl
    cases u <;> cases w <;>
      simp only [UnpackedFloat.neg, UnpackedFloat.div, hsign, roundWithAccuracy_neg]
  rw [hleft, hright, neg_pack, unpack_neg, hdiv]

theorem float_neg_beq_zero (x : Float) : (-x == 0) = (x == 0) := by
  have hleft : (-x == 0) = (-x).toModel.unpack.beq (.zero .positive) := rfl
  have hright : (x == 0) = x.toModel.unpack.beq (.zero .positive) := rfl
  rw [hleft, hright, unpack_neg]
  rcases x.toModel.unpack with s | _ | s | ⟨s, m, e, h⟩
  · cases s <;> rfl
  · rfl
  · cases s <;> rfl
  · cases s <;> rfl

theorem float_neg_undefined : -(0 / 0 : Float) = 0 / 0 := rfl

end Negation

section Magnitudes

/-- A number without a minus, also an infinite one. -/
def isMagnitude : UnpackedFloat → Bool
  | .infinity .positive | .zero .positive | .finite .positive _ _ _ => true
  | _ => false

/-- A number above zero that is not infinite. -/
def isPositive : UnpackedFloat → Bool
  | .finite .positive _ _ _ => true
  | _ => false

variable {x y : UnpackedFloat}

/-- What is packed is no number only if all bits of the exponent are set. -/
theorem isMagnitude_unpack_packComponents {e : BitVec 11} {m : BitVec 52} (h : e = -1#11 → m = 0) :
    isMagnitude
      (UnpackedFloat.unpack .binary64 (UnpackedFloat.packComponents .binary64 .positive e m)) =
        true := by
  unfold UnpackedFloat.unpack
  simp only [UnpackedFloat.unpackExponent_packComponents,
    UnpackedFloat.unpackMantissa_packComponents, UnpackedFloat.unpackSign_packComponents,
    UnpackedFloat.Sign.ofBitVec_toBitVec]
  split
  · next hexponent =>
    obtain rfl : m = 0#52 := h hexponent
    rfl
  · split
    · split <;> rfl
    · rfl

theorem isMagnitude_unpack_pack (h : isMagnitude x = true) :
    isMagnitude (pack x).unpack = true := by
  rcases x with (_ | _) | _ | (_ | _) | ⟨_ | _, m, e, hm⟩ <;> cases h
  case infinity.positive => exact isMagnitude_unpack_packComponents fun _ => rfl
  case zero.positive => exact isMagnitude_unpack_packComponents fun _ => rfl
  case finite.positive =>
    simp only [pack, unpack, UnpackedFloat.pack]
    split
    · exact isMagnitude_unpack_packComponents fun _ => rfl
    · next hexponent =>
      split
      · refine isMagnitude_unpack_packComponents fun hall => absurd (congrArg BitVec.toNat hall) ?_
        simp only [Format.binary64] at hexponent ⊢
        simp only [BitVec.toNat_ofNat, BitVec.reduceNeg]
        omega
      · exact isMagnitude_unpack_packComponents fun hall => absurd hall (by decide)

theorem isMagnitude_roundWithAccuracy (m : Nat) (e : Int) (a : UnpackedFloat.Accuracy) :
    isMagnitude (UnpackedFloat.roundWithAccuracy .binary64 .positive m e a) = true := by
  simp only [UnpackedFloat.roundWithAccuracy]
  split <;> rfl

theorem isMagnitude_mul (hx : isMagnitude x = true) (hy : isPositive y = true) :
    isMagnitude (UnpackedFloat.mul .binary64 x y) = true := by
  rcases y with _ | _ | _ | ⟨_ | _, n, f, hn⟩ <;> cases hy
  rcases x with (_ | _) | _ | (_ | _) | ⟨_ | _, m, e, hm⟩ <;> cases hx <;>
    first | rfl | exact isMagnitude_roundWithAccuracy _ _ _

theorem isMagnitude_div (hx : isMagnitude x = true) (hy : isPositive y = true) :
    isMagnitude (UnpackedFloat.div .binary64 x y) = true := by
  rcases y with _ | _ | _ | ⟨_ | _, n, f, hn⟩ <;> cases hy
  rcases x with (_ | _) | _ | (_ | _) | ⟨_ | _, m, e, hm⟩ <;> cases hx <;>
    first | rfl | exact isMagnitude_roundWithAccuracy _ _ _

theorem isMagnitude_ofNat (n : Nat) : isMagnitude (UnpackedFloat.ofNat .binary64 n) = true := by
  unfold UnpackedFloat.ofNat UnpackedFloat.ofInt UnpackedFloat.normalize
  split
  · next h => exact absurd (Int.compare_eq_lt.mp h) (by omega)
  · rfl
  · exact isMagnitude_roundWithAccuracy _ _ _

theorem isMagnitude_ofScientific (m : Nat) (e : Int) :
    isMagnitude (UnpackedFloat.ofScientific .binary64 m e) = true := by
  unfold UnpackedFloat.ofScientific
  split
  · rfl
  · split
    · rfl
    · split
      · rfl
      · split
        · exact isMagnitude_mul rfl rfl
        · exact isMagnitude_div rfl rfl

theorem isPositive_powerOfTen : ∀ i : Fin 23,
    isPositive (Float.exactlyRepresentablePowersOfTen[i.val]).toModel.unpack = true := by
  decide +kernel

theorem isMagnitude_toFloat (d : Decimal) : isMagnitude d.toFloat.toModel.unpack = true := by
  have hscientific (m : Nat) (s : Bool) (e : Nat) :
      isMagnitude (Float.ofScientific m s e).toModel.unpack = true := by
    have hwhole : isMagnitude m.toUInt64.toFloat.toModel.unpack = true :=
      isMagnitude_unpack_pack (isMagnitude_ofNat _)
    unfold Float.ofScientific
    split
    · next h =>
      have hpower := isPositive_powerOfTen ⟨e, by omega⟩
      dsimp only
      split
      · exact isMagnitude_unpack_pack (isMagnitude_div hwhole hpower)
      · exact isMagnitude_unpack_pack (isMagnitude_mul hwhole hpower)
    · exact isMagnitude_unpack_pack (isMagnitude_ofScientific _ _)
  unfold Decimal.toFloat
  split
  · rfl
  · split
    · rfl
    · split
      · rfl
      · exact hscientific _ _ _

theorem toFloat_eq_zero {d : Decimal} (h : (d.toFloat == 0) = true) : d.toFloat = 0 := by
  have hmagnitude := isMagnitude_toFloat d
  have hbeq : d.toFloat.toModel.unpack.beq (.zero .positive) = true := h
  have hpacked : d.toFloat = Float.ofModel (pack d.toFloat.toModel.unpack) := by rw [pack_unpack]
  rw [hpacked]
  revert hmagnitude hbeq
  rcases d.toFloat.toModel.unpack with (_ | _) | _ | (_ | _) | ⟨_ | _, m, e, hm⟩ <;>
    intro hmagnitude hbeq <;>
    first | cases hbeq; done | cases hmagnitude; done | rfl

theorem isNaN_toFloat (d : Decimal) : d.toFloat.isNaN = false := by
  have hmagnitude := isMagnitude_toFloat d
  change d.toFloat.toModel.unpack.isNaN = false
  revert hmagnitude
  rcases d.toFloat.toModel.unpack with _ | _ | _ | _ <;> intro hmagnitude <;>
    first | rfl | cases hmagnitude

theorem isNaN_neg (x : Float) : (-x).isNaN = x.isNaN := by
  change (-x).toModel.unpack.isNaN = x.toModel.unpack.isNaN
  rw [unpack_neg]
  rcases x.toModel.unpack with _ | _ | _ | _ <;> rfl

end Magnitudes

end Abacus
