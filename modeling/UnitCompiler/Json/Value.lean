import UnitCompiler.Number.Numeral

/-!
# JSON documents

A document keeps its numbers as they were written, so that an integer of any size and the sign of a
zero survive.  Objects keep their members in order.
-/

namespace UnitCompiler

attribute [local instance (high)] instPowNat

/-- A number as written: sign, digits before the point, digits after it, exponent. -/
structure JsonNumber where
  negative : Bool
  whole : List Nat
  fraction : Option (List Nat)
  exponent : Option Int
deriving DecidableEq, Repr, Inhabited

inductive Json where
  | null
  | bool (value : Bool)
  | number (value : JsonNumber)
  | string (value : String)
  | array (items : List Json)
  | object (members : List (String × Json))
deriving Inhabited

namespace JsonNumber

def ofDigits (digits : List Nat) : Nat := digits.foldl (fun n d => 10 * n + d) 0

/-- The number is written without a point and without an exponent. -/
def isInteger (n : JsonNumber) : Bool := n.fraction.isNone && n.exponent.isNone

/-- The value of an integer literal. -/
def toInt? (n : JsonNumber) : Option Int :=
  if n.isInteger then
    let value : Int := ofDigits n.whole
    some (if n.negative then -value else value)
  else none

/-- The value of an integer literal without a sign. -/
def toNat? (n : JsonNumber) : Option Nat :=
  if n.isInteger && !n.negative then some (ofDigits n.whole) else none

/-- The leading digits that still fit in 64 bits, as one integer, and how many digits are left. -/
def significand (digits : List Nat) (value : Nat) : Nat × List Nat :=
  match digits with
  | [] => (value, [])
  | d :: rest =>
    if 10 * value + d ≤ maxU64 then significand rest (10 * value + d) else (value, d :: rest)

/-- The largest exponent scaled in one multiplication. -/
def maxPower : Nat := 308

/-- A significand divided by a power of ten; beyond the largest power in several steps. -/
def divideByPower (x : Double) : Nat → Nat → Double
  | 0, k => x.div (Double.powerOfTen (min k maxPower))
  | fuel + 1, k =>
    if k ≤ maxPower || !x.isNonzero then x.div (Double.powerOfTen (min k maxPower))
    else divideByPower (x.div (Double.powerOfTen maxPower)) fuel (k - maxPower)

/-- The significand scaled by a power of ten, or `none` when the result is beyond every double. -/
def scale (value : Nat) (exponent : Int) : Option Double :=
  let x := Double.ofInt value
  if 0 ≤ exponent then
    if maxPower < exponent.toNat then if value = 0 then some x else none
    else
      let y := x.mul (Double.powerOfTen exponent.toNat)
      if y.isInfinite then none else some y
  else some (divideByPower x 16 (min (-exponent).toNat 4000))

/-- The value of a number as a double: its leading digits as one integer, rounded, then scaled by one
power of ten, rounded again. -/
def toDouble? (n : JsonNumber) : Option Double :=
  let (value, wholeRest) := significand n.whole 0
  let (value, places) :=
    match n.fraction with
    | none => (value, (0 : Int))
    | some digits =>
      let (value, fractionRest) := significand digits value
      (value, (digits.length : Int) - fractionRest.length)
  let exponent := (wholeRest.length : Int) - places + n.exponent.getD 0
  (scale value exponent).map fun x => if n.negative then x.neg else x

def ofInt (value : Int) : JsonNumber :=
  ⟨value < 0, (Nat.toDigits 10 value.natAbs).map fun c => c.toNat - '0'.toNat, none, none⟩

end JsonNumber

namespace Json

def ofInt (value : Int) : Json := .number (JsonNumber.ofInt value)

def ofNat (value : Nat) : Json := ofInt value

def ofOption {α : Type} (f : α → Json) : Option α → Json
  | none => .null
  | some a => f a

/-- A constructor with its payload: an object with one member. -/
def tagged (tag : String) (payload : Json) : Json := .object [(tag, payload)]

/-- The first member of an object with a given name. -/
def member? (name : String) : Json → Option Json
  | .object members => (members.find? (·.1 == name)).map (·.2)
  | _ => none

mutual

/-- Whether every integer literal of the document fits in a signed or unsigned 64-bit word. -/
def fitsWords : Json → Bool
  | .number n =>
    match n.toInt? with
    | some value => decide (-(2 ^ (63 : Nat)) ≤ value) && decide (value ≤ maxU64)
    | none => true
  | .array items => allFitWords items
  | .object members => membersFitWords members
  | _ => true

def allFitWords : List Json → Bool
  | [] => true
  | item :: rest => fitsWords item && allFitWords rest

def membersFitWords : List (String × Json) → Bool
  | [] => true
  | (_, item) :: rest => fitsWords item && membersFitWords rest

end

end Json
end UnitCompiler
