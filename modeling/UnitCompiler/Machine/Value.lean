import UnitCompiler.Ir.Printer
import UnitCompiler.Number.Word

/-!
# Values of the machine
-/

namespace UnitCompiler
namespace Machine

/-- A value in a register.  An integer is a word below two to its width. -/
inductive Value where
  | void
  | int (word bits : Nat)
  | float (value : Double)
  | ptr (address : Nat)
  /-- The items of a struct, an array or a vector. -/
  | aggregate (items : List Value)

instance : Inhabited Value := ⟨.void⟩

namespace Value

def ofInt (value : Int) (bits : Nat) : Value := .int (Word.ofInt bits value) bits

def ofBool (value : Bool) : Value := .int (if value then 1 else 0) 1

/-- The signed reading of an integer. -/
def signed? : Value → Option Int
  | .int word bits => some (Word.toInt bits word)
  | _ => none

/-- The unsigned reading of an integer or an address. -/
def unsigned? : Value → Option Nat
  | .int word _ => some word
  | .ptr address => some address
  | _ => none

def double? : Value → Option Double
  | .float value => some value
  | _ => none

mutual

/-- The value constructor by constructor. -/
def outline : Value → String
  | .void => "Void"
  | .int word bits => "Int \x7b value: " ++ toString word ++ ", bits: " ++ toString bits ++ " \x7d"
  | .float value => "Float(" ++ value.text ++ ")"
  | .ptr address => "Ptr(" ++ toString address ++ ")"
  | .aggregate items => "Aggregate([" ++ commaList (outlines items) ++ "])"

def outlines : List Value → List String
  | [] => []
  | item :: rest => outline item :: outlines rest

end

mutual

/-- The value of a type that has all its bits clear. -/
def zero : IrType → Value
  | .i1 => .int 0 1
  | .i8 => .int 0 8
  | .i16 => .int 0 16
  | .i32 => .int 0 32
  | .i64 => .int 0 64
  | .i128 => .int 0 128
  | .f16 | .bf16 | .f32 | .f64 | .f128 => .float Double.zero
  | .ptr _ | .function .. => .ptr 0
  | .array element length => .aggregate (List.replicate length (zero element))
  | .vector element lanes => .aggregate (List.replicate lanes (zero element))
  | .struct fields _ _ => .aggregate (zeros fields)
  | .void => .void

def zeros : List IrType → List Value
  | [] => []
  | type :: rest => zero type :: zeros rest

end

end Value
end Machine
end UnitCompiler
