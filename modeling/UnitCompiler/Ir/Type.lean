import UnitCompiler.Text.Quoted

/-!
# Machine types

The types of the intermediate language, with the text of listings and the longer outline used in
messages of the machine.
-/

namespace UnitCompiler

inductive IrType where
  | i1
  | i8
  | i16
  | i32
  | i64
  | i128
  | f16
  | bf16
  | f32
  | f64
  | f128
  | ptr (target : IrType)
  | array (element : IrType) (length : Nat)
  | struct (fields : List IrType) (isPacked : Bool) (name : Option String)
  | function (ret : IrType) (params : List IrType) (isVariadic : Bool)
  | vector (element : IrType) (lanes : Nat)
  | void

instance : Inhabited IrType := ⟨.void⟩

namespace IrType

/-- The width of an integer type. -/
def intBits? : IrType → Option Nat
  | .i1 => some 1
  | .i8 => some 8
  | .i16 => some 16
  | .i32 => some 32
  | .i64 => some 64
  | .i128 => some 128
  | _ => none

/-- The integer type of a given width. -/
def ofBits? (bits : Nat) : Option IrType :=
  match bits with
  | 1 => some .i1
  | 8 => some .i8
  | 16 => some .i16
  | 32 => some .i32
  | 64 => some .i64
  | 128 => some .i128
  | _ => none

def pointee? : IrType → Option IrType
  | .ptr target => some target
  | _ => none

/-- The type at a constant index of an aggregate. -/
def element? (type : IrType) (index : Nat) : Option IrType :=
  match type with
  | .array element _ | .vector element _ => some element
  | .struct fields _ _ => fields[index]?
  | _ => none

def isInteger (type : IrType) : Bool := type.intBits?.isSome

def isFloat : IrType → Bool
  | .f16 | .bf16 | .f32 | .f64 | .f128 => true
  | _ => false

def isPointer (type : IrType) : Bool := type matches .ptr _

def isVoid (type : IrType) : Bool := type matches .void

/-- The fields of a struct between its brackets. -/
def bracketed (isPacked : Bool) (body : String) : String :=
  if isPacked then "<\x7b " ++ body ++ " \x7d>" else "\x7b " ++ body ++ " \x7d"

mutual

/-- The type in listings; a named struct is shown by its name. -/
def text : IrType → String
  | .i1 => "i1"
  | .i8 => "i8"
  | .i16 => "i16"
  | .i32 => "i32"
  | .i64 => "i64"
  | .i128 => "i128"
  | .f16 => "f16"
  | .bf16 => "bf16"
  | .f32 => "f32"
  | .f64 => "f64"
  | .f128 => "f128"
  | .void => "void"
  | .ptr target => "ptr " ++ text target
  | .array element length => "[" ++ toString length ++ " x " ++ text element ++ "]"
  | .struct _ _ (some name) => "%" ++ name
  | .struct fields isPacked none => bracketed isPacked (String.intercalate ", " (texts fields))
  | .function ret params isVariadic =>
    let shown := texts params ++ if isVariadic then ["..."] else []
    "fn(" ++ String.intercalate ", " shown ++ ") -> " ++ text ret
  | .vector element lanes => "<" ++ toString lanes ++ " x " ++ text element ++ ">"

def texts : List IrType → List String
  | [] => []
  | type :: rest => text type :: texts rest

end

/-- The type in a definition: a struct is spelled out even when it has a name. -/
def definitionText : IrType → String
  | .struct fields isPacked _ => bracketed isPacked (String.intercalate ", " (texts fields))
  | type => type.text

mutual

/-- The type constructor by constructor. -/
def outline : IrType → String
  | .i1 => "I1"
  | .i8 => "I8"
  | .i16 => "I16"
  | .i32 => "I32"
  | .i64 => "I64"
  | .i128 => "I128"
  | .f16 => "F16"
  | .bf16 => "BF16"
  | .f32 => "F32"
  | .f64 => "F64"
  | .f128 => "F128"
  | .void => "Void"
  | .ptr target => "Ptr(" ++ outline target ++ ")"
  | .array element length => "Array(" ++ outline element ++ ", " ++ toString length ++ ")"
  | .struct fields isPacked name =>
    let shownName :=
      match name with
      | some n => "Some(" ++ Text.quoted n ++ ")"
      | none => "None"
    "Struct \x7b fields: [" ++ String.intercalate ", " (outlines fields) ++ "], packed: "
      ++ toString isPacked ++ ", name: " ++ shownName ++ " \x7d"
  | .function ret params isVariadic =>
    "Function \x7b return_type: " ++ outline ret ++ ", param_types: ["
      ++ String.intercalate ", " (outlines params) ++ "], is_variadic: " ++ toString isVariadic
      ++ " \x7d"
  | .vector element lanes => "Vector(" ++ outline element ++ ", " ++ toString lanes ++ ")"

def outlines : List IrType → List String
  | [] => []
  | type :: rest => outline type :: outlines rest

end

end IrType
end UnitCompiler
