/-!
# Binary floating-point formats

A format is given by the width of its significand and of its exponent field.  A bit pattern decodes
to a datum: not a number, an infinity, or `± m · 2 ^ q`; encoding rounds `m · 2 ^ q` to the nearest
value of the format, a half going to the even neighbour.
-/

namespace UnitCompiler
namespace Binary

attribute [local instance (high)] instPowNat

/-- A format with `fractionBits` explicit significand bits and `exponentBits` exponent bits. -/
structure Format where
  fractionBits : Nat
  exponentBits : Nat

def single : Format := ⟨23, 8⟩

def double : Format := ⟨52, 11⟩

namespace Format

/-- Exponent of the unit in the last place of the smallest values. -/
def minExponent (f : Format) : Int := 3 - 2 ^ (f.exponentBits - 1) - f.fractionBits - 1

/-- The exponent field that marks infinities and what is not a number. -/
def topField (f : Format) : Nat := 2 ^ f.exponentBits - 1

def hiddenBit (f : Format) : Nat := 2 ^ f.fractionBits

def signBit (f : Format) : Nat := 2 ^ (f.fractionBits + f.exponentBits)

def infinityBits (f : Format) : Nat := f.topField * f.hiddenBit

def quietBit (f : Format) : Nat := 2 ^ (f.fractionBits - 1)

end Format

/-- What a bit pattern stands for. -/
inductive Datum where
  | nan (negative : Bool) (payload : Nat)
  | infinity (negative : Bool)
  | finite (negative : Bool) (significand : Nat) (exponent : Int)
deriving DecidableEq, Repr

def decode (f : Format) (bits : Nat) : Datum :=
  let negative := bits / f.signBit % 2 == 1
  let field := bits / f.hiddenBit % 2 ^ f.exponentBits
  let fraction := bits % f.hiddenBit
  if field = f.topField then
    if fraction = 0 then .infinity negative else .nan negative fraction
  else if field = 0 then .finite negative fraction f.minExponent
  else .finite negative (fraction + f.hiddenBit) (f.minExponent + field - 1)

/-- `m / 2 ^ shift` rounded to the nearest integer, a half going to the even one. -/
def roundShift (m shift : Nat) : Nat :=
  let unit := 2 ^ shift
  let quotient := m / unit
  let rest := 2 * (m % unit)
  if rest < unit then quotient
  else if rest = unit then quotient + quotient % 2
  else quotient + 1

/-- The bits of the magnitude nearest to `m · 2 ^ q`. -/
def encodeMagnitude (f : Format) (m : Nat) (q : Int) : Nat :=
  if m = 0 then 0
  else
    let place := max (q + m.log2 - f.fractionBits) f.minExponent
    let scaled := if place ≤ q then m * 2 ^ (q - place).toNat else roundShift m (place - q).toNat
    let bits := (place - f.minExponent).toNat * f.hiddenBit + scaled
    min bits f.infinityBits

/-- The bits of the value of the format nearest to a datum. -/
def encode (f : Format) : Datum → Nat
  | .nan negative payload =>
    let quiet := if payload / f.quietBit % 2 = 1 then payload else payload + f.quietBit
    signed f negative (f.infinityBits + quiet % f.hiddenBit)
  | .infinity negative => signed f negative f.infinityBits
  | .finite negative m q => signed f negative (encodeMagnitude f m q)
where
  signed (f : Format) (negative : Bool) (magnitude : Nat) : Nat :=
    if negative then f.signBit + magnitude else magnitude

end Binary
end UnitCompiler
