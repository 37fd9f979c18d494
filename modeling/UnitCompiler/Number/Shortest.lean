import UnitCompiler.Number.Double

/-!
# Shortest decimals

The reals that round to a given double form an interval.  Its shortest decimal is the one with the
fewest digits that lies in the interval; of two such the nearer, and of two equally near the larger.
-/

namespace UnitCompiler

attribute [local instance (high)] instPowNat

/-- `digits · 10 ^ exponent`. -/
structure Decimal where
  digits : Nat
  exponent : Int
deriving DecidableEq, Repr

namespace Decimal

/-- Number of decimal digits; zero has none. -/
def digitCount (n : Nat) : Nat := if n = 0 then 0 else (Nat.toDigits 10 n).length

/-- The decimal without trailing zeros in its digits, looked for in at most `fuel` places. -/
def trim : Nat → Decimal → Decimal
  | 0, d => d
  | fuel + 1, d =>
    if d.digits ≠ 0 ∧ d.digits % 10 = 0 then trim fuel ⟨d.digits / 10, d.exponent + 1⟩ else d

/-- The rounding interval of `m · 2 ^ q` in units of `2 ^ (q - 2)`: its middle, its ends, and whether
the ends belong to it. -/
structure Interval where
  middle : Nat
  low : Nat
  high : Nat
  closed : Bool

/-- The interval of the double `m · 2 ^ q`; below a power of two the gap is half as wide. -/
def interval (m : Nat) (q : Int) : Interval where
  middle := 4 * m
  low := if m = Binary.double.hiddenBit ∧ q ≠ Binary.double.minExponent then 4 * m - 1 else 4 * m - 2
  high := 4 * m + 2
  closed := m % 2 == 0

/-- The ratio `2 ^ (q - 2) : 10 ^ p` as a pair of natural numbers. -/
def gridRatio (q p : Int) : Nat × Nat :=
  (2 ^ (q - 2).toNat * 10 ^ (-p).toNat, 2 ^ (2 - q).toNat * 10 ^ p.toNat)

/-- The point of the grid `10 ^ p` that lies in the interval and is nearest to its middle. -/
def pointOnGrid? (i : Interval) (q p : Int) : Option Nat :=
  let (num, den) := gridRatio q p
  let inside (c : Nat) : Bool :=
    if i.closed then decide (i.low * num ≤ c * den) && decide (c * den ≤ i.high * num)
    else decide (i.low * num < c * den) && decide (c * den < i.high * num)
  let below := i.middle * num / den
  let above := below + 1
  let belowIsNearer := decide (i.middle * num - below * den < above * den - i.middle * num)
  match inside below && decide (0 < below), inside above with
  | true, true => some (if belowIsNearer then below else above)
  | true, false => some below
  | false, true => some above
  | false, false => none

/-- The exponent of the leading decimal digit of `m · 2 ^ q`, for positive `m`. -/
def leadingExponent (m : Nat) (q : Int) : Int :=
  let num := m * 2 ^ q.toNat
  let den := 2 ^ (-q).toNat
  if den ≤ num then (digitCount (num / den) : Int) - 1
  else -(digitCount ((den + num - 1) / num - 1) : Int)

/-- The shortest decimal of the positive double `m · 2 ^ q`; seventeen digits always suffice. -/
def shortest (m : Nat) (q : Int) : Decimal :=
  let lead := leadingExponent m q
  let i := interval m q
  let found := (List.range 17).findSome? fun (k : Nat) =>
    let p := lead - k
    (pointOnGrid? i q p).map fun c => (⟨c, p⟩ : Decimal)
  trim 20 (found.getD ⟨m, 0⟩)

end Decimal
end UnitCompiler
