import UnitCompiler.Text.Digit
import UnitCompiler.Toml.Value

/-!
# Literals of settings documents

Numbers, truth values and moments, each given by all characters of its literal.
-/

namespace UnitCompiler
namespace Toml

attribute [local instance (high)] instPowNat

/-- The number spelled by digits, between which single underscores may stand. -/
def grouped? (base : Nat) (cs : List Char) : Option Nat :=
  if cs.head? == some '_' || cs.getLast? == some '_' || (cs.zip cs.tail).any (· == ('_', '_')) then
    none
  else Text.numeral? base (cs.filter (· != '_'))

/-- A decimal number, in which only a lone zero starts with the digit zero. -/
def decimal? : List Char → Option Nat
  | ['0'] => some 0
  | '0' :: _ => none
  | cs => grouped? 10 cs

def unsignedInteger? : List Char → Option Nat
  | '0' :: 'x' :: cs => grouped? 16 cs
  | '0' :: 'o' :: cs => grouped? 8 cs
  | '0' :: 'b' :: cs => grouped? 2 cs
  | cs => decimal? cs

/-- An integer of the signed 64-bit range. -/
def integer? (cs : List Char) : Option Int := do
  let value : Int ←
    match cs with
    | '-' :: cs => (decimal? cs).map fun n => -(n : Int)
    | '+' :: cs => (decimal? cs).map Int.ofNat
    | cs => (unsignedInteger? cs).map Int.ofNat
  if -(2 ^ (63 : Nat)) ≤ value ∧ value < 2 ^ (63 : Nat) then some value else none

def unsigned : List Char → List Char
  | '+' :: cs => cs
  | '-' :: cs => cs
  | cs => cs

/-- A signed number whose digits may start with zeros. -/
def exponent? : List Char → Option Int
  | '-' :: cs => (grouped? 10 cs).map fun n => -(n : Int)
  | '+' :: cs => (grouped? 10 cs).map Int.ofNat
  | cs => (grouped? 10 cs).map Int.ofNat

/-- The least number that is no finite double. -/
def firstInfinite : Nat := 2 ^ (1024 : Nat) - 2 ^ (970 : Nat)

/-- Whether `digits · 10 ^ power` stays finite as a double; far from the border the number of digits
decides. -/
def isFinite (digits : Nat) (power : Int) : Bool :=
  let size : Int := (Nat.toDigits 10 digits).length + power
  if digits == 0 || size < 300 then true
  else if 310 < size then false
  else if 0 ≤ power then decide (digits * 10 ^ power.toNat < firstInfinite)
  else decide (digits < firstInfinite * 10 ^ (-power).toNat)

/-- A number with a fraction or an exponent, in its unsigned form: its digits and the power of ten they
are scaled by. -/
def scaled? (cs : List Char) : Option (Nat × Int) := do
  let isMark (c : Char) : Bool := c == 'e' || c == 'E'
  let mantissa := cs.takeWhile (!isMark ·)
  let tail := cs.drop mantissa.length
  let whole := mantissa.takeWhile (· != '.')
  let fraction := mantissa.drop whole.length
  if tail.isEmpty && fraction.isEmpty then none
  else
    let power ← if tail.isEmpty then some 0 else exponent? tail.tail
    let n ← decimal? whole
    if fraction.isEmpty then some (n, power)
    else
      let below ← grouped? 10 fraction.tail
      let places := (fraction.tail.filter (· != '_')).length
      some (n * 10 ^ places + below, power - places)

/-- A float; one above every double is refused. -/
def isFloat (cs : List Char) : Bool :=
  let body := unsigned cs
  body == ['i', 'n', 'f'] || body == ['n', 'a', 'n'] ||
    match scaled? body with
    | some (digits, power) => cs.head? == some '-' || isFinite digits power
    | none => false

/-- Reads a number of exactly `count` digits between two bounds. -/
def readField (count low high : Nat) (cs : List Char) : Option (Nat × List Char) := do
  let n ← Text.numeral? 10 (cs.take count)
  if (cs.take count).length = count ∧ low ≤ n ∧ n ≤ high then some (n, cs.drop count) else none

def readMark (mark : Char) : List Char → Option (List Char)
  | c :: cs => if c == mark then some cs else none
  | [] => none

def daysIn (year month : Nat) : Nat :=
  if month = 2 then
    if year % 4 = 0 ∧ (year % 100 ≠ 0 ∨ year % 400 = 0) then 29 else 28
  else if month = 4 ∨ month = 6 ∨ month = 9 ∨ month = 11 then 30
  else 31

def readDate (cs : List Char) : Option (List Char) := do
  let (year, cs) ← readField 4 0 9999 cs
  let (month, cs) ← readField 2 1 12 (← readMark '-' cs)
  let (_, cs) ← readField 2 1 (daysIn year month) (← readMark '-' cs)
  some cs

def readMinutes (cs : List Char) : Option (List Char) := do
  let (_, cs) ← readField 2 0 23 cs
  let (_, cs) ← readField 2 0 59 (← readMark ':' cs)
  some cs

def readTime (cs : List Char) : Option (List Char) := do
  let cs ← readMinutes cs
  let (_, cs) ← readField 2 0 60 (← readMark ':' cs)
  match cs with
  | '.' :: cs => if (cs.takeWhile Char.isDigit).isEmpty then none else some (cs.dropWhile Char.isDigit)
  | cs => some cs

def isOffset : List Char → Bool
  | [] | ['Z'] | ['z'] => true
  | '+' :: cs | '-' :: cs => (readMinutes cs).any (·.isEmpty)
  | _ => false

/-- A date, a time, or both with an offset. -/
def isMoment (cs : List Char) : Bool :=
  match readDate cs with
  | some [] => true
  | some (c :: cs) => (c == 'T' || c == 't' || c == ' ') && (readTime cs).any isOffset
  | none => (readTime cs).any (·.isEmpty)

/-- The value of a literal. -/
def literal? (cs : List Char) : Option TomlValue :=
  if cs == ['t', 'r', 'u', 'e'] then some (.boolean true)
  else if cs == ['f', 'a', 'l', 's', 'e'] then some (.boolean false)
  else
    match integer? cs with
    | some value => some (.integer value)
    | none =>
      if isFloat cs then some (.float (String.ofList cs))
      else if isMoment cs then some (.moment (String.ofList cs))
      else none

end Toml
end UnitCompiler
