import UnitCompiler.Json.Value
import UnitCompiler.Text.Digit

/-!
# Reading values out of JSON

A record is an object, in which unknown members are ignored and a missing optional member counts as
null, or an array with exactly its fields in order.  A constructor without payload is a string, or an
object whose one member is null; any other constructor is an object with one member.
-/

namespace UnitCompiler
namespace Json

attribute [local instance (high)] instPowNat

/-- What stands beside the name of a constructor. -/
inductive Payload where
  | absent
  | payload (value : Json)

/-- Nothing stands there, or null. -/
def Payload.isUnit : Payload → Bool
  | .absent => true
  | .payload .null => true
  | .payload _ => false

/-- The name of a constructor and its payload. -/
def variant? : Json → Option (String × Payload)
  | .string tag => some (tag, .absent)
  | .object [(tag, value)] => some (tag, .payload value)
  | _ => none

def bool? : Json → Option Bool
  | .bool value => some value
  | _ => none

def string? : Json → Option String
  | .string value => some value
  | _ => none

def list? : Json → Option (List Json)
  | .array items => some items
  | _ => none

def pair? : Json → Option (Json × Json)
  | .array [a, b] => some (a, b)
  | _ => none

/-- An unsigned integer literal below a bound. -/
def natBelow? (bound : Nat) : Json → Option Nat
  | .number n => n.toNat?.filter (· < bound)
  | _ => none

def nat8? : Json → Option Nat := natBelow? (2 ^ (8 : Nat))

def nat32? : Json → Option Nat := natBelow? (2 ^ (32 : Nat))

def nat64? : Json → Option Nat := natBelow? (2 ^ (64 : Nat))

/-- An integer literal in the signed 128-bit range. -/
def int128? : Json → Option Int
  | .number n => n.toInt?.filter fun v => decide (-(2 ^ (127 : Nat)) ≤ v) && decide (v < 2 ^ (127 : Nat))
  | _ => none

/-- An integer of the signed 128-bit range written as a string of decimal digits. -/
def decimal? (j : Json) : Option Int := do
  let value : Int ←
    match (← j.string?).toList with
    | '-' :: digits => (Text.numeral? 10 digits).map fun n => -(n : Int)
    | '+' :: digits => (Text.numeral? 10 digits).map Int.ofNat
    | digits => (Text.numeral? 10 digits).map Int.ofNat
  if -(2 ^ (127 : Nat)) ≤ value ∧ value < 2 ^ (127 : Nat) then some value else none

/-- A double written as the hexadecimal digits of its bits, or `nan`. -/
def doubleBits? (j : Json) : Option Double := do
  let text ← j.string?
  if text == "nan" then some Double.quiet
  else
    let bits ← Text.numeral? 16 text.toList
    if bits < 2 ^ (64 : Nat) then some (Double.ofNat bits) else none

def double? : Json → Option Double
  | .number n => n.toDouble?
  | _ => none

/-- Null, or a value that `f` reads. -/
def option? {α : Type} (f : Json → Option α) : Json → Option (Option α)
  | .null => some none
  | j => (f j).map some

/-- The members of a record by name; an absent member of an object reads as null. -/
def fields? (names : List String) : Json → Option (String → Json)
  | .object members =>
    some fun name => ((members.find? (·.1 == name)).map (·.2)).getD .null
  | .array items =>
    if items.length = names.length then
      some fun name => (((names.zip items).find? (·.1 == name)).map (·.2)).getD .null
    else none
  | _ => none

mutual

/-- How many containers are nested in the document. -/
def depth : Json → Nat
  | .array items => itemsDepth items + 1
  | .object members => membersDepth members + 1
  | _ => 0

def itemsDepth : List Json → Nat
  | [] => 0
  | item :: rest => max (depth item) (itemsDepth rest)

def membersDepth : List (String × Json) → Nat
  | [] => 0
  | (_, item) :: rest => max (depth item) (membersDepth rest)

end

end Json
end UnitCompiler
