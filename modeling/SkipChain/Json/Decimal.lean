import SkipChain.Word
/-!
Decimal numerals and the floating-point numbers they denote.
-/
namespace SkipChain

/-- The number `significand * 10 ^ exponent`, or its negative. -/
structure Decimal where
  negative : Bool
  significand : Nat
  exponent : Int
  deriving DecidableEq

namespace Decimal

def digitValue (c : Char) : Nat := c.toNat - '0'.toNat

/-- Take the digits before the point into a significand of at most 64 bits. The digits that no
longer fit are only counted. -/
def takeWhole : (significand : Nat) → List Char → Nat × Int
  | n, [] => (n, 0)
  | n, d :: ds =>
    if 10 * n + digitValue d < Word.count64 then takeWhole (10 * n + digitValue d) ds
    else (n, ds.length + 1)

/-- Take the digits after the point into a significand of at most 64 bits, as far as they fit. -/
def takeFraction : (significand : Nat) → (exponent : Int) → List Char → Nat × Int
  | n, e, [] => (n, e)
  | n, e, d :: ds =>
    if 10 * n + digitValue d < Word.count64 then takeFraction (10 * n + digitValue d) (e - 1) ds
    else (n, e)

def ofDigits (negative : Bool) (whole fraction : List Char) (power : Int) : Decimal :=
  let (n, e) := takeWhole 0 whole
  let (n, e) := takeFraction n e fraction
  ⟨negative, n, e + power⟩

def maxPower : Nat := 308

/-- `f * 10 ^ e` with one rounding for each factor of at most `10 ^ 308`, or nothing when that is
not finite. A quotient by three such factors is zero. -/
def scale : (fuel : Nat) → (f : Float) → (e : Int) → Option Float
  | 0, f, _ => some f
  | fuel + 1, f, e =>
    if e.natAbs ≤ maxPower then
      let power := Float.ofScientific 1 false e.natAbs
      let g := if 0 ≤ e then f * power else f / power
      if g.isInf then none else some g
    else if f == 0 then some f
    else if 0 ≤ e then none
    else scale fuel (f / Float.ofScientific 1 false maxPower) (e + maxPower)

/-- The bits of the floating-point number that a numeral denotes: the significand is rounded, then
scaled. A numeral beyond all finite numbers denotes none. -/
def toDouble? (d : Decimal) : Option UInt64 :=
  (scale 4 (UInt64.ofNat d.significand).toFloat d.exponent).map fun f =>
    (if d.negative then -f else f).toBits

end Decimal

end SkipChain
