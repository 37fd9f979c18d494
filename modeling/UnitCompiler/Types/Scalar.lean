/-!
# Scalar kinds

The built-in number types of the language.  Signedness is part of the kind.
-/

namespace UnitCompiler

attribute [local instance (high)] instPowNat

inductive Scalar where
  | bool
  | char
  | uchar
  | short
  | ushort
  | int
  | uint
  | long
  | ulong
  | cent
  | ucent
  | half
  | bhalf
  | float
  | double
  | real
deriving DecidableEq, Repr, Inhabited

namespace Scalar

def all : List Scalar :=
  [.bool, .char, .uchar, .short, .ushort, .int, .uint, .long, .ulong, .cent, .ucent, .half, .bhalf,
    .float, .double, .real]

/-- The keyword of the kind. -/
def name : Scalar → String
  | .bool => "bool"
  | .char => "char"
  | .uchar => "uchar"
  | .short => "short"
  | .ushort => "ushort"
  | .int => "int"
  | .uint => "uint"
  | .long => "long"
  | .ulong => "ulong"
  | .cent => "cent"
  | .ucent => "ucent"
  | .half => "half"
  | .bhalf => "bhalf"
  | .float => "float"
  | .double => "double"
  | .real => "real"

def ofName? (s : String) : Option Scalar := all.find? (·.name == s)

def bits : Scalar → Nat
  | .bool => 1
  | .char | .uchar => 8
  | .short | .ushort | .half | .bhalf => 16
  | .int | .uint | .float => 32
  | .long | .ulong | .double => 64
  | .cent | .ucent | .real => 128

/-- Storage in bytes; a `bool` fills a byte. -/
def bytes (k : Scalar) : Nat := (k.bits + 7) / 8

def align (k : Scalar) : Nat := k.bytes

def isFloat : Scalar → Bool
  | .half | .bhalf | .float | .double | .real => true
  | _ => false

def isInteger (k : Scalar) : Bool := !k.isFloat

def isUnsigned : Scalar → Bool
  | .bool | .uchar | .ushort | .uint | .ulong | .ucent => true
  | _ => false

def isSigned (k : Scalar) : Bool := k.isInteger && !k.isUnsigned

/-- The short name of the kind in signatures. -/
def code : Scalar → String
  | .bool => "b"
  | .char => "c"
  | .uchar => "uc"
  | .short => "h"
  | .ushort => "uh"
  | .int => "i"
  | .uint => "ui"
  | .long => "l"
  | .ulong => "ul"
  | .cent => "t"
  | .ucent => "ut"
  | .half => "hf"
  | .bhalf => "bf"
  | .float => "f"
  | .double => "d"
  | .real => "r"

/-- The narrowest signed integer kind with at least `n` bits. -/
def forBits? (n : Nat) : Option Scalar :=
  if n ≤ 8 then some .char
  else if n ≤ 16 then some .short
  else if n ≤ 32 then some .int
  else if n ≤ 64 then some .long
  else if n ≤ 128 then some .cent
  else none

/-- The kind of an integer literal: the first of `int`, `long` and `cent` that holds it. -/
def forLiteral (value : Int) : Scalar :=
  if -(2 ^ (31 : Nat)) ≤ value ∧ value < 2 ^ (31 : Nat) then .int
  else if -(2 ^ (63 : Nat)) ≤ value ∧ value < 2 ^ (63 : Nat) then .long
  else .cent

/-- The integer of the kind's range that is congruent to `value` modulo two to the kind's width.
Kinds of 128 bits are all read as signed. -/
def wrap (k : Scalar) (value : Int) : Int :=
  if 128 ≤ k.bits then value
  else
    let low := value % 2 ^ k.bits
    if k.isSigned && decide (2 ^ (k.bits - 1) ≤ low) then low - 2 ^ k.bits else low

/-- The kind two integer operands of a constant expression are computed in: the wider one, and of two
equally wide ones the unsigned one. -/
def wider (a b : Scalar) : Scalar :=
  if a.bits < b.bits || (b.bits == a.bits && b.isUnsigned) then b else a

/-- The kind both operands of a mixed operation convert to: floats win over integers, then the wider
operand, then the unsigned one. -/
def common (a b : Scalar) : Scalar :=
  if a = b then a
  else
    match a.isFloat, b.isFloat with
    | true, false => a
    | false, true => b
    | _, _ =>
      if a.bits ≠ b.bits then if b.bits < a.bits then a else b
      else if b.isUnsigned then b
      else a

/-- Keywords tell the kinds apart. -/
theorem ofName?_name (k : Scalar) : ofName? k.name = some k := by cases k <;> rfl

end Scalar
end UnitCompiler
