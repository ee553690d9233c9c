import Abacus.Text.Basic

/-! Finite numbers as fractions of powers of two and as decimals, and how they are written. -/

namespace Abacus

/-! A finite number as `m * 2 ^ q`, read off its bits, and the interval of reals that round to
it. -/

def twoTo (n : Nat) : Nat := Nat.pow 2 n

def tenTo (n : Nat) : Nat := Nat.pow 10 n

/-- The magnitude `m * 2 ^ q` of a finite number. -/
structure Binary where
  m : Nat
  q : Int
  /-- The gap to the next smaller magnitude is half the gap to the next larger one. -/
  narrowBelow : Bool

/-- The sign bit: `-0` has it, and so has every number below zero; NaN has not. -/
def isNegative (x : Float) : Bool := x.toBits >>> 63 == 1

/-- The magnitude of a finite number; NaN and the infinities have none, and are to be set aside
first. -/
def Binary.ofFloat (x : Float) : Binary :=
  let bits := x.toBits
  let e := ((bits >>> 52) &&& 0x7FF).toNat
  let f := (bits &&& 0xFFFFFFFFFFFFF).toNat
  if e = 0 then ⟨f, -1074, false⟩ else ⟨0x10000000000000 + f, e - 1075, f == 0 && 1 < e⟩

/-- The magnitude in units of `10 ^ g`, as a quotient of natural numbers. -/
def Binary.inUnitsOf (x : Binary) (g : Int) : Nat × Nat :=
  (x.m * twoTo x.q.toNat * tenTo (-g).toNat, twoTo (-x.q).toNat * tenTo g.toNat)

/-- Whether `n * 10 ^ g` is among the reals that round to this magnitude, that is, at most half a
gap away; the ends belong to it when `m` is even. -/
def Binary.readsBack (x : Binary) (n : Nat) (g : Int) : Bool :=
  let unit := twoTo (x.q - 2).toNat * tenTo (-g).toNat
  let there := n * tenTo g.toNat * twoTo (2 - x.q).toNat
  let low := (4 * x.m - if x.narrowBelow then 1 else 2) * unit
  let high := (4 * x.m + 2) * unit
  if x.m % 2 = 0 then low ≤ there && there ≤ high else low < there && there < high

/-- How many digits stand before the point, counted down below zero for leading zeros after the
point: the least `k` with `m * 2 ^ q < 10 ^ k`, for a magnitude that is not zero. The first guess is
`log 2` times the binary exponent, at most two too low. -/
def Binary.scale (x : Binary) : Int :=
  let guess := (x.q + x.m.log2) * 1233 / 4096
  let below (k : Int) : Bool := let v := x.inUnitsOf k; v.1 < v.2
  if below guess then guess else if below (guess + 1) then guess + 1 else guess + 2

/-! Decimals `digits * 10 ^ exponent`: the shortest one that identifies a number, the one with a
given number of digits, and the number nearest to a decimal. -/

/-- The value `digits * 10 ^ exponent`. -/
structure Decimal where
  digits : Nat
  exponent : Int
  deriving DecidableEq

namespace Decimal

/-- Moves the zeros at the end of the digits into the exponent. -/
def withoutTrailingZeros (d : Decimal) : Decimal :=
  if d.digits ≠ 0 ∧ d.digits % 10 = 0 then
    withoutTrailingZeros ⟨d.digits / 10, d.exponent + 1⟩ else d
termination_by d.digits
decreasing_by omega

/-- Of the two multiples of `10 ^ g` next to a magnitude, the one that reads back to it, the nearer
one if both do and the larger one if both are as near. -/
def onGrid? (x : Binary) (g : Int) : Option Decimal :=
  let v := x.inUnitsOf g
  let n := v.1 / v.2
  match x.readsBack n g, x.readsBack (n + 1) g with
  | true, true => some ⟨if 2 * v.1 < (2 * n + 1) * v.2 then n else n + 1, g⟩
  | true, false => some ⟨n, g⟩
  | false, true => some ⟨n + 1, g⟩
  | false, false => none

/-- All the digits of a magnitude. -/
def exact (x : Binary) : Decimal :=
  ⟨x.m * twoTo x.q.toNat * Nat.pow 5 (-x.q).toNat, min x.q 0⟩

/-- The decimal with the fewest digits that reads back to a magnitude, and of those the nearest.
Seventeen digits are always enough. -/
def shortest (x : Binary) : Decimal :=
  if x.m = 0 then ⟨0, 0⟩
  else
    let k := x.scale
    (((List.range 17).findSome? fun (n : Nat) => onGrid? x (k - n - 1)).getD
      (exact x)).withoutTrailingZeros

/-- A quotient to the nearest natural number, halves to the even one. -/
def roundQuotient (v : Nat × Nat) : Nat :=
  let n := v.1 / v.2
  match compare (2 * (v.1 % v.2)) v.2 with
  | .lt => n
  | .gt => n + 1
  | .eq => n + n % 2

/-- The decimal with `count` digits nearest to a magnitude that is not zero. -/
def significant (count : Nat) (x : Binary) : Decimal :=
  let k := x.scale
  let n := roundQuotient (x.inUnitsOf (k - count))
  if n < tenTo count then ⟨n, k - count⟩ else ⟨n / 10, k - count + 1⟩

/-- The number nearest to a decimal. Far outside the range of numbers the answer does not need the
power of ten. -/
def toFloat (d : Decimal) : Float :=
  if d.digits = 0 then 0
  else if 400 < d.exponent then 1 / 0
  else if d.exponent + (d.digits.log2 + 1 : Nat) < -400 then 0
  else Float.ofScientific d.digits (d.exponent < 0) d.exponent.natAbs

end Decimal

/-! How numbers are written. In formulas and messages: the fewest digits that identify the number,
never an exponent, no point after a whole number. In tables: a fixed number of digits and an
exponent. -/

namespace Numeral

/-- A decimal without exponent: zeros after the digits, or a point among them, or zeros before
them. -/
def positional (d : Decimal) : Text :=
  let digits := natText d.digits
  if 0 ≤ d.exponent then digits ++ List.replicate d.exponent.toNat '0'
  else
    let places := (-d.exponent).toNat
    if places < digits.length then
      digits.take (digits.length - places) ++ '.' :: digits.drop (digits.length - places)
    else '0' :: '.' :: (List.replicate (places - digits.length) '0' ++ digits)

/-- The first digit, a point, the other digits and the exponent of the first digit. -/
def scientific (digits : Text) (exponent : Int) : Text :=
  digits.take 1 ++ (if digits.length ≤ 1 then [] else '.' :: digits.drop 1) ++ 'e' ::
    (if exponent < 0 then ['-'] else []) ++ natText exponent.natAbs

/-- What is not a finite number, and the sign of what is. -/
def signed (magnitude : Binary → Text) (x : Float) : Text :=
  if x.isNaN then ['N', 'a', 'N']
  else (if isNegative x then ['-'] else []) ++
    if x.isInf then ['i', 'n', 'f'] else magnitude (.ofFloat x)

end Numeral

/-- A number as formulas and messages show it. -/
def numeral (x : Float) : Text := Numeral.signed (fun b => Numeral.positional (.shortest b)) x

def numeralOf (count : Nat) (x : Float) : Text :=
  Numeral.signed
    (fun b =>
      if b.m = 0 then Numeral.scientific (List.replicate count '0') 0
      else
        let d := Decimal.significant count b
        Numeral.scientific (natText d.digits) (d.exponent + count - 1))
    x

end Abacus
