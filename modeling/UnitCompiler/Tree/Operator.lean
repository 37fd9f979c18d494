/-!
# Operators

The operators of expressions, and the tags under which an aggregate overloads them.
-/

namespace UnitCompiler

/-- A tag of an aggregate's operator table; the constructors stand in the order of the table. -/
inductive OperatorTag where
  | add
  | sub
  | mul
  | div
  | rem
  | bitAnd
  | bitOr
  | bitXor
  | shl
  | shr
  | eq
  | ne
  | lt
  | gt
  | le
  | ge
  | index
  | indexAssign
deriving DecidableEq, Repr

namespace OperatorTag

def all : List OperatorTag :=
  [.add, .sub, .mul, .div, .rem, .bitAnd, .bitOr, .bitXor, .shl, .shr, .eq, .ne, .lt, .gt, .le, .ge,
    .index, .indexAssign]

def name : OperatorTag → String
  | .add => "Add"
  | .sub => "Sub"
  | .mul => "Mul"
  | .div => "Div"
  | .rem => "Rem"
  | .bitAnd => "BitAnd"
  | .bitOr => "BitOr"
  | .bitXor => "BitXor"
  | .shl => "Shl"
  | .shr => "Shr"
  | .eq => "Eq"
  | .ne => "Ne"
  | .lt => "Lt"
  | .gt => "Gt"
  | .le => "Le"
  | .ge => "Ge"
  | .index => "Index"
  | .indexAssign => "IndexAssign"

/-- The name of an operator function with this tag. -/
def spelling : OperatorTag → String
  | .add => "(+)"
  | .sub => "(-)"
  | .mul => "(*)"
  | .div => "(/)"
  | .rem => "(%)"
  | .bitAnd => "(&)"
  | .bitOr => "(|)"
  | .bitXor => "(^)"
  | .shl => "(<<)"
  | .shr => "(>>)"
  | .eq => "(==)"
  | .ne => "(!=)"
  | .lt => "(<)"
  | .gt => "(>)"
  | .le => "(<=)"
  | .ge => "(>=)"
  | .index => "([])"
  | .indexAssign => "([]=)"

def ofName? (s : String) : Option OperatorTag := all.find? (·.name == s)

def ofSpelling? (s : String) : Option OperatorTag := all.find? (·.spelling == s)

/-- The operator whose negation stands in for this one when it is not defined. -/
def negated? : OperatorTag → Option OperatorTag
  | .ne => some .eq
  | .ge => some .lt
  | .le => some .gt
  | _ => none

def returnsBool : OperatorTag → Bool
  | .eq | .ne | .lt | .gt | .le | .ge => true
  | _ => false

end OperatorTag

inductive BinaryOp where
  | add
  | sub
  | mul
  | div
  | rem
  | bitAnd
  | bitOr
  | bitXor
  | shl
  | shr
  | and
  | or
  | eq
  | ne
  | lt
  | gt
  | le
  | ge
  | assign
  | addAssign
  | subAssign
  | mulAssign
  | divAssign
deriving DecidableEq, Repr

namespace BinaryOp

def all : List BinaryOp :=
  [.add, .sub, .mul, .div, .rem, .bitAnd, .bitOr, .bitXor, .shl, .shr, .and, .or, .eq, .ne, .lt, .gt,
    .le, .ge, .assign, .addAssign, .subAssign, .mulAssign, .divAssign]

def name : BinaryOp → String
  | .add => "Add"
  | .sub => "Sub"
  | .mul => "Mul"
  | .div => "Div"
  | .rem => "Rem"
  | .bitAnd => "BitAnd"
  | .bitOr => "BitOr"
  | .bitXor => "BitXor"
  | .shl => "Shl"
  | .shr => "Shr"
  | .and => "And"
  | .or => "Or"
  | .eq => "Eq"
  | .ne => "Ne"
  | .lt => "Lt"
  | .gt => "Gt"
  | .le => "Le"
  | .ge => "Ge"
  | .assign => "Assign"
  | .addAssign => "AddAssign"
  | .subAssign => "SubAssign"
  | .mulAssign => "MulAssign"
  | .divAssign => "DivAssign"

def spelling : BinaryOp → String
  | .add => "+"
  | .sub => "-"
  | .mul => "*"
  | .div => "/"
  | .rem => "%"
  | .bitAnd => "&"
  | .bitOr => "|"
  | .bitXor => "^"
  | .shl => "<<"
  | .shr => ">>"
  | .and => "&&"
  | .or => "||"
  | .eq => "=="
  | .ne => "!="
  | .lt => "<"
  | .gt => ">"
  | .le => "<="
  | .ge => ">="
  | .assign => "="
  | .addAssign => "+="
  | .subAssign => "-="
  | .mulAssign => "*="
  | .divAssign => "/="

def ofName? (s : String) : Option BinaryOp := all.find? (·.name == s)

def ofSpelling? (s : String) : Option BinaryOp := all.find? (·.spelling == s)

def isComparison : BinaryOp → Bool
  | .eq | .ne | .lt | .gt | .le | .ge => true
  | _ => false

def isLogical : BinaryOp → Bool
  | .and | .or => true
  | _ => false

def isAssignment : BinaryOp → Bool
  | .assign | .addAssign | .subAssign | .mulAssign | .divAssign => true
  | _ => false

/-- The arithmetic of a compound assignment. -/
def compoundBase? : BinaryOp → Option BinaryOp
  | .addAssign => some .add
  | .subAssign => some .sub
  | .mulAssign => some .mul
  | .divAssign => some .div
  | _ => none

/-- The tag under which an aggregate overloads the operator. -/
def tag? : BinaryOp → Option OperatorTag
  | .add => some .add
  | .sub => some .sub
  | .mul => some .mul
  | .div => some .div
  | .rem => some .rem
  | .bitAnd => some .bitAnd
  | .bitOr => some .bitOr
  | .bitXor => some .bitXor
  | .shl => some .shl
  | .shr => some .shr
  | .eq => some .eq
  | .ne => some .ne
  | .lt => some .lt
  | .gt => some .gt
  | .le => some .le
  | .ge => some .ge
  | _ => none

end BinaryOp

inductive UnaryOp where
  | neg
  | not
  | bitNot
  | deref
  | addrOf
deriving DecidableEq, Repr

namespace UnaryOp

def all : List UnaryOp := [.neg, .not, .bitNot, .deref, .addrOf]

def name : UnaryOp → String
  | .neg => "Neg"
  | .not => "Not"
  | .bitNot => "BitNot"
  | .deref => "Deref"
  | .addrOf => "AddrOf"

def spelling : UnaryOp → String
  | .neg => "-"
  | .not => "!"
  | .bitNot => "~"
  | .deref => "*"
  | .addrOf => "&"

def ofName? (s : String) : Option UnaryOp := all.find? (·.name == s)

def ofSpelling? (s : String) : Option UnaryOp := all.find? (·.spelling == s)

end UnaryOp
end UnitCompiler
