/-!
# Decimal text of floating-point numbers

A float is written with the fewest decimal digits that read back as the same float: positionally
while the leading digit has an exponent from -4 to 15, otherwise with a signed exponent of at least
two digits. Digits are chosen by exact integer arithmetic on the bits of the float.
-/

namespace JsonShape

/-- The positive number `mantissa * 2 ^ exponent`. It is `tight` when the next smaller float is
half as far away as the next larger one. -/
structure Binary where
  mantissa : Nat
  exponent : Int
  tight : Bool
  deriving Repr, DecidableEq

/-- The number `digits * 10 ^ exponent`. -/
structure Decimal where
  digits : Nat
  exponent : Int
  deriving Repr, DecidableEq

namespace Binary

/-- The magnitude that the bits of a finite float stand for. -/
def ofBits (bits : UInt64) : Binary :=
  let exponent := ((bits >>> 52) &&& 0x7FF).toNat
  let fraction := (bits &&& 0xFFFFFFFFFFFFF).toNat
  if exponent = 0 then ⟨fraction, -1074, false⟩
  else ⟨Nat.pow 2 52 + fraction, (exponent : Int) - 1075, fraction == 0 && decide (1 < exponent)⟩

/-- Numerators over one denominator: the number itself and the two ends of the interval of reals
that round to it. -/
structure Interval where
  low : Nat
  value : Nat
  high : Nat
  unit : Nat
  closed : Bool

/-- An end of the interval lies halfway to the neighbouring float, and belongs to the interval when
the mantissa is even. -/
def interval (b : Binary) : Interval :=
  let scale := Nat.pow 2 (b.exponent - 2).toNat
  { low := (4 * b.mantissa - if b.tight then 1 else 2) * scale
    value := 4 * b.mantissa * scale
    high := (4 * b.mantissa + 2) * scale
    unit := Nat.pow 2 (2 - b.exponent).toNat
    closed := b.mantissa % 2 == 0 }

/-- Whether the numerator `x` over a denominator `scale` times as large lies in the interval. -/
def Interval.holds (i : Interval) (x scale : Nat) : Bool :=
  if i.closed then i.low * scale ≤ x && x ≤ i.high * scale
  else i.low * scale < x && x < i.high * scale

/-- The multiple of `10 ^ k` in the interval that is nearest to the number, if there is one. Of two
equally near ones the even one is taken. -/
def Interval.onGrid? (i : Interval) (k : Int) : Option Decimal :=
  let scale := Nat.pow 10 (-k).toNat
  let step := i.unit * Nat.pow 10 k.toNat
  let below := i.value * scale / step
  let twice := 2 * i.value * scale
  let middle := (2 * below + 1) * step
  match i.holds (below * step) scale, i.holds ((below + 1) * step) scale with
  | true, true =>
    if twice < middle ∨ twice = middle ∧ below % 2 = 0 then some ⟨below, k⟩
    else some ⟨below + 1, k⟩
  | true, false => some ⟨below, k⟩
  | false, true => some ⟨below + 1, k⟩
  | false, false => none

/-- All the digits of the number. -/
def exact (b : Binary) : Decimal :=
  if 0 ≤ b.exponent then ⟨b.mantissa * Nat.pow 2 b.exponent.toNat, 0⟩
  else ⟨b.mantissa * Nat.pow 5 (-b.exponent).toNat, b.exponent⟩

/-- The decimal on the coarsest grid of a power of ten that meets the interval. No coarser grid
meets it, so the digits do not end in zero and no decimal with fewer digits reads back. -/
def shortest (b : Binary) : Decimal :=
  let i := b.interval
  ((List.range 634).findSome? fun n : Nat => i.onGrid? (309 - (n : Int))).getD b.exact

end Binary

namespace Decimal

def zeros (n : Nat) : String := String.ofList (List.replicate n '0')

/-- The exponent of the leading digit: a sign and at least two digits. -/
def exponentText (e : Int) : String :=
  let digits := Nat.repr e.natAbs
  (if e < 0 then "e-" else "e+") ++ zeros (2 - digits.length) ++ digits

def text (d : Decimal) : String :=
  let digits := Nat.repr d.digits
  let point := (digits.length : Int) + d.exponent
  let cut (n : Nat) := (String.ofList (digits.toList.take n), String.ofList (digits.toList.drop n))
  if -4 < point ∧ point ≤ 0 then "0." ++ zeros (-point).toNat ++ digits
  else if 0 < point ∧ point ≤ 16 then
    if digits.length ≤ point.toNat then digits ++ zeros (point.toNat - digits.length) ++ ".0"
    else (cut point.toNat).1 ++ "." ++ (cut point.toNat).2
  else
    let tail := (cut 1).2
    (cut 1).1 ++ (if tail.isEmpty then "" else "." ++ tail) ++ exponentText (point - 1)

end Decimal

/-- The text of any float. -/
def floatText (x : Float) : String :=
  let bits := x.toBits
  let sign := if bits >>> 63 = 1 then "-" else ""
  if x.isNaN then "nan"
  else if x.isInf then sign ++ "inf"
  else if (Binary.ofBits bits).mantissa = 0 then sign ++ "0.0"
  else sign ++ (Binary.ofBits bits).shortest.text

example : floatText 0.1 = "0.1" := by decide +kernel
example : floatText 1e16 = "1e+16" := by decide +kernel

end JsonShape
