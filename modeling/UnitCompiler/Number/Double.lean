import UnitCompiler.Number.Binary
import UnitCompiler.Number.Word

/-!
# Double-precision numbers

A `Double` is its 64 bits, so equality of doubles is equality of bits.  Arithmetic decodes both
operands, computes exactly and rounds once.  An operation without a defined result yields the quiet
pattern `invalid`; an operand that is not a number is passed on, the left one first.
-/

namespace UnitCompiler

attribute [local instance (high)] instPowNat

structure Double where
  bits : UInt64
deriving DecidableEq, Repr, Inhabited

namespace Double

open Binary

def ofNat (bits : Nat) : Double := ⟨bits.toUInt64⟩

def datum (x : Double) : Datum := decode double x.bits.toNat

def ofDatum (d : Datum) : Double := ofNat (encode double d)

def zero : Double := ⟨0⟩

/-- The result of an operation that has none: quiet, sign set. -/
def invalid : Double := ⟨0xfff8000000000000⟩

/-- What is not a number, quiet and with its sign clear. -/
def quiet : Double := ⟨0x7ff8000000000000⟩

def isNaN (x : Double) : Bool := x.datum matches .nan ..

def isInfinite (x : Double) : Bool := x.datum matches .infinity ..

def isNegative (x : Double) : Bool := 2 ^ (63 : Nat) ≤ x.bits.toNat

/-- The place of a number on the line, both zeros at `0`; meaningless for what is not a number. -/
def rank (x : Double) : Int :=
  if x.isNegative then -((x.bits.toNat : Int) - 2 ^ (63 : Nat)) else x.bits.toNat

/-- The order of two numbers, or `none` when one of them is not a number. -/
def compare? (x y : Double) : Option Ordering :=
  if x.isNaN || y.isNaN then none else some (compare x.rank y.rank)

/-- Whether the number differs from zero; what is not a number does. -/
def isNonzero (x : Double) : Bool := compare? x zero != some .eq

def neg (x : Double) : Double := ⟨x.bits ^^^ 0x8000000000000000⟩

def signedValue (negative : Bool) (m : Nat) : Int := if negative then -(m : Int) else m

/-- An operation on numbers, extended to operands that are none. -/
def lift (op : Datum → Datum → Double) (x y : Double) : Double :=
  match x.datum, y.datum with
  | .nan s p, _ => ofDatum (.nan s p)
  | _, .nan s p => ofDatum (.nan s p)
  | a, b => op a b

def addDatum : Datum → Datum → Double
  | .infinity s, .infinity t => if s = t then ofDatum (.infinity s) else invalid
  | .infinity s, _ => ofDatum (.infinity s)
  | _, .infinity t => ofDatum (.infinity t)
  | .finite s m p, .finite t n q =>
    let e := min p q
    let sum := signedValue s (m * 2 ^ (p - e).toNat) + signedValue t (n * 2 ^ (q - e).toNat)
    if sum = 0 then ofDatum (.finite (s && t) 0 0)
    else ofDatum (.finite (sum < 0) sum.natAbs e)
  | _, _ => invalid

def add : Double → Double → Double := lift addDatum

def sub (x y : Double) : Double := if y.isNaN then add x y else add x y.neg

def mulDatum : Datum → Datum → Double
  | .infinity s, .infinity t => ofDatum (.infinity (s != t))
  | .infinity s, .finite t n _ => if n = 0 then invalid else ofDatum (.infinity (s != t))
  | .finite s m _, .infinity t => if m = 0 then invalid else ofDatum (.infinity (s != t))
  | .finite s m p, .finite t n q => ofDatum (.finite (s != t) (m * n) (p + q))
  | _, _ => invalid

def mul : Double → Double → Double := lift mulDatum

/-- Extra quotient bits kept by a division; the last one records a remainder. -/
def guardBits : Nat := 120

def divDatum : Datum → Datum → Double
  | .infinity _, .infinity _ => invalid
  | .infinity s, .finite t _ _ => ofDatum (.infinity (s != t))
  | .finite s _ _, .infinity t => ofDatum (.finite (s != t) 0 0)
  | .finite s m p, .finite t n q =>
    if n = 0 then if m = 0 then invalid else ofDatum (.infinity (s != t))
    else
      let scaled := m * 2 ^ guardBits
      let sticky := if scaled % n = 0 then 0 else 1
      ofDatum (.finite (s != t) (2 * (scaled / n) + sticky) (p - q - guardBits - 1))
  | _, _ => invalid

def div : Double → Double → Double := lift divDatum

/-- The remainder of the truncated quotient, with the sign of the left operand. -/
def remDatum : Datum → Datum → Double
  | .infinity _, _ => invalid
  | .finite s m p, .infinity _ => ofDatum (.finite s m p)
  | .finite s m p, .finite _ n q =>
    if n = 0 then invalid
    else
      let e := min p q
      ofDatum (.finite s (m * 2 ^ (p - e).toNat % (n * 2 ^ (q - e).toNat)) e)
  | _, _ => invalid

def rem : Double → Double → Double := lift remDatum

/-- The double nearest to an integer. -/
def ofInt (value : Int) : Double := ofDatum (.finite (value < 0) value.natAbs 0)

/-- The integer part, held within the signed 128-bit range; what is not a number counts as zero. -/
def toInt (x : Double) : Int :=
  match x.datum with
  | .nan .. => 0
  | .infinity negative => if negative then -(2 ^ (127 : Nat)) else 2 ^ (127 : Nat) - 1
  | .finite negative m q =>
    let whole := if 0 ≤ q then m * 2 ^ q.toNat else m / 2 ^ (-q).toNat
    max (-(2 ^ (127 : Nat))) (min (2 ^ (127 : Nat) - 1) (signedValue negative whole))

/-- The bits of the nearest single-precision number. -/
def toSingleBits (x : Double) : Nat :=
  match x.datum with
  | .nan negative payload => encode single (.nan negative (payload / 2 ^ (29 : Nat)))
  | d => encode single d

def ofSingleBits (bits : Nat) : Double :=
  match decode single bits with
  | .nan negative payload => ofDatum (.nan negative (payload * 2 ^ (29 : Nat)))
  | d => ofDatum d

/-- The nearest single-precision number, as a double. -/
def toSingle (x : Double) : Double := ofSingleBits x.toSingleBits

/-- The power of ten nearest to `10 ^ k`. -/
def powerOfTen (k : Nat) : Double := ofDatum (.finite false (10 ^ k) 0)

end Double
end UnitCompiler
