import Abacus.Decimal.Basic

/-! The arithmetic of numbers beyond that of the floating-point operations themselves. -/

namespace Abacus

/-! Every number stands on a rung of one finite ladder, a larger number on a higher rung. So a chain
of numbers that grow cannot go on for ever: the ladder is what a loop over growing numbers counts
down. -/

section

open Float.Model

/-- The rung of infinity, two to the power of 66. -/
def topRung : Int := 0x40000000000000000

/-- The rungs for each exponent, as many as there are mantissas: two to the power of 53. -/
def rungsPerExponent : Int := 0x20000000000000

/-- Magnitudes are ordered by exponent and then by mantissa; NaN is not compared with anything and
may stand anywhere. -/
def rungOf : UnpackedFloat → Int
  | .notANumber | .zero _ => 0
  | .infinity .positive => topRung
  | .infinity .negative => -topRung
  | .finite .positive m e _ => (e + 1075) * rungsPerExponent + m
  | .finite .negative m e _ => -((e + 1075) * rungsPerExponent + m)

def rung (x : Float) : Int := rungOf x.toModel.unpack

/-- The mantissa and exponent of a finite number are in their ranges. -/
def InRange : UnpackedFloat → Prop
  | .finite _ m e _ => m < rungsPerExponent ∧ -1075 ≤ e ∧ e < 1000
  | _ => True

theorem inRange_dite {c : Prop} [Decidable c] {x : c → UnpackedFloat} {y : ¬c → UnpackedFloat}
    (hx : ∀ h, InRange (x h)) (hy : ∀ h, InRange (y h)) : InRange (dite c x y) := by
  by_cases h : c
  · rw [dif_pos h]
    exact hx h
  · rw [dif_neg h]
    exact hy h

theorem inRange_unpack (v : Float.Model) : InRange v.unpack := by
  have hexp : (@UnpackedFloat.unpackExponent .binary64 v.toBits.toBitVec).toNat < 2 ^ 11 :=
    BitVec.isLt _
  have hman : (@UnpackedFloat.unpackMantissa .binary64 v.toBits.toBitVec).toNat < 2 ^ 52 :=
    BitVec.isLt _
  have hfull : (1#1 ++ @UnpackedFloat.unpackMantissa .binary64 v.toBits.toBitVec).toNat < 2 ^ 53 :=
    BitVec.isLt _
  unfold Float.Model.unpack UnpackedFloat.unpack
  refine inRange_dite (fun _ => inRange_dite (fun _ => trivial) fun _ => trivial) fun _ => ?_
  refine inRange_dite (fun _ => inRange_dite (fun _ => trivial) fun _ => ?_) fun _ => ?_
  all_goals
    dsimp only [InRange, rungsPerExponent, Format.exponentBias]
    omega

theorem InRange.rungOf_bounds {x : UnpackedFloat} (h : InRange x) :
    -topRung ≤ rungOf x ∧ rungOf x ≤ topRung := by
  rcases x with (_ | _) | _ | s | ⟨_ | _, m, e, hm⟩ <;>
    dsimp only [InRange, rungOf, rungsPerExponent, topRung] at h ⊢ <;> omega

theorem rungOf_lt_rungOf {x y : UnpackedFloat} (hx : InRange x) (hy : InRange y)
    (h : x.lt y = true) : rungOf x < rungOf y := by
  have hc : x.compare y = some .lt := by simpa [UnpackedFloat.lt] using h
  rcases x with (_ | _) | _ | s | ⟨_ | _, m, e, hm⟩ <;>
    rcases y with (_ | _) | _ | t | ⟨_ | _, n, f, hn⟩ <;>
    dsimp only [UnpackedFloat.compare] at hc <;>
    simp only [Option.some.injEq, reduceCtorEq] at hc <;>
    (try simp only [Ordering.swap_eq_lt, Ordering.then_eq_gt, Ordering.then_eq_lt,
      Int.compare_eq_gt,
      Int.compare_eq_lt, Int.compare_eq_eq, Nat.compare_eq_gt, Nat.compare_eq_lt] at hc) <;>
    dsimp only [InRange, rungOf, rungsPerExponent, topRung] at * <;> omega

theorem rung_lt_rung {x y : Float} (h : x < y) : rung x < rung y :=
  rungOf_lt_rungOf (inRange_unpack _) (inRange_unpack _) (of_decide_eq_true h)

theorem rung_le (x : Float) : rung x ≤ topRung := (inRange_unpack _).rungOf_bounds.2

end

/-! Whole numbers among the numbers: the nearest one, the one below and the one above, found on
mantissa and exponent, and rounding to a given number of decimal places. -/

/-- Puts a whole magnitude in place of a magnitude `m / u`, keeping the sign, also that of a zero.
What has no fraction stays as it is: NaN, the infinities and numbers from `2 ^ 52` on. -/
def toWhole (choose : Bool → Nat → Nat → Nat) (x : Float) : Float :=
  if !x.isFinite then x
  else
    let b := Binary.ofFloat x
    if 0 ≤ b.q then x
    else
      let n := (choose (isNegative x) b.m (twoTo (-b.q).toNat)).toUInt64.toFloat
      if isNegative x then -n else n

/-- The nearest whole number; a half goes away from zero. -/
def nearestWhole (x : Float) : Float := toWhole (fun _ m u => (2 * m + u) / (2 * u)) x

def floor (x : Float) : Float :=
  toWhole (fun negative m u => if negative then (m + u - 1) / u else m / u) x

def ceiling (x : Float) : Float :=
  toWhole (fun negative m u => if negative then m / u else (m + u - 1) / u) x

def isWhole (x : Float) : Bool := x.isFinite && floor x == x

/-- Some error in the ninth place is allowed for. -/
def isMultipleOf (x period : Float) : Bool :=
  let quotient := x / period
  (quotient - nearestWhole quotient).abs < 1e-9

/-- `result * base ^ n` by squaring. -/
def powerBySquaring (result base : Float) (n : Nat) : Float :=
  let result := if n % 2 = 1 then result * base else result
  if n / 2 = 0 then result else powerBySquaring result (base * base) (n / 2)
termination_by n

def powerOfTen (places : Int) : Float :=
  let r := powerBySquaring 1 10 places.natAbs
  if places < 0 then 1 / r else r

/-- Rounded to so many places after the point, a half away from zero; unchanged where the scaled
number would overflow. -/
def roundTo (x : Float) (places : Int) : Float :=
  let factor := powerOfTen places
  let scaled := x * factor
  if !factor.isFinite || !scaled.isFinite then x else nearestWhole scaled / factor

/-- A number of places given as a number: without its fraction, and within 32 bits. -/
def placesOf (x : Float) : Int := x.toInt32.toInt

/-! The gamma function, the hyperbolic functions that are quotients of others, and the two units of
angles. -/

def pi : Float := 3.141592653589793

/-- Beyond this argument the gamma function exceeds all numbers. -/
def gammaLimit : Float := 170.6243769563027

def lanczosCoefficients : List Float :=
  [76.18009172947146, -86.50532032941677, 24.01409824083091, -1.231739572450155,
   0.1208650973866179e-2, -0.5395239384953e-5]

/-- The logarithm of the gamma function of a positive number, by a Lanczos sum: the `i`-th
coefficient is divided by `x + i`. -/
def logGamma (x : Float) : Float :=
  let shifted := x + 5 + 0.5
  let sum := lanczosCoefficients.foldl
    (fun (s : Float × Float) coefficient => (s.1 + 1, s.2 + coefficient / (s.1 + 1)))
      (x, 1.000000000190015)
  (x + 0.5) * shifted.log - shifted + (2.5066282746310005 * sum.2 / x).log

/-- Below one half the value is reflected to one above it. Poles are not told apart: the value there
is huge or no number. -/
def gamma (x : Float) : Float :=
  let direct (y : Float) : Float := if gammaLimit < y then 1 / 0 else (logGamma y).exp
  if x < 0.5 then pi / ((pi * x).sin * direct (1 - x)) else direct x

def sech (x : Float) : Float := 1 / x.cosh

def csch (x : Float) : Float := 1 / x.sinh

def coth (x : Float) : Float := x.cosh / x.sinh

def degreesToRadians (angle : Float) : Float := angle * pi / 180

def radiansToDegrees (angle : Float) : Float := angle * 180 / pi

/-! Factorials, kept in a table that grows on demand: the exact product is carried on as a natural
number and each entry is rounded from it once. -/

/-- The numbers nearest to `0!`, `1!`, and so on, with the exact last one. -/
structure FactorialTable where
  last : Nat
  values : Array Float

namespace FactorialTable

def start : FactorialTable := ⟨1, #[1]⟩

def grow (t : FactorialTable) : FactorialTable :=
  ⟨t.last * t.values.size, t.values.push (.ofNat (t.last * t.values.size))⟩

/-- Grown until there is an entry for `n`. -/
def upTo (t : FactorialTable) (n : Nat) : FactorialTable :=
  if t.values.size ≤ n then t.grow.upTo n else t
termination_by n + 1 - t.values.size
decreasing_by simp only [grow, Array.size_push]; omega

/-- The largest number whose factorial is not beyond all numbers. -/
def limit : Nat := 170

/-- The entry for `n` and the table afterwards. -/
def lookup (t : FactorialTable) (n : Nat) : Float × FactorialTable :=
  if limit < n then (1 / 0, t)
  else
    let t := t.upTo n
    (t.values[n]?.getD (1 / 0), t)

/-- Grown once and for all. -/
def full : FactorialTable := start.upTo limit

end FactorialTable

def factorial (n : Nat) : Float := (FactorialTable.full.lookup n).1

/-! Binomial coefficients, multiplied up from the smaller side. -/

/-- Multiplies by `(rest + i) / i` for one `i` after the other, and stops once the product exceeds
all numbers. -/
def binomialProduct (rest i result : Float) : Nat → Float
  | 0 => result
  | count + 1 =>
    let result := result * ((rest + i) / i)
    if !result.isFinite then 1 / 0 else binomialProduct rest (i + 1) result count

/-- The number of ways to choose `k` of `n`, for whole numbers that are not negative. Every factor
is at least two, so a `k` beyond 64 bits is never counted down to its end. -/
def binomial (k n : Float) : Float :=
  if n < k then 0
  else
    let k := if n - k < k then n - k else k
    nearestWhole (binomialProduct (n - k) 1 1 k.toUInt64.toNat)

end Abacus
