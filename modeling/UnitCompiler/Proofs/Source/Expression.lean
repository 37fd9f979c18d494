import UnitCompiler.Proofs.Compile.Actions
import UnitCompiler.Proofs.Integer.Value

/-!
# Integer expressions

The expressions on numbers of integer kinds: what they mean for given values of their variables, and
which nodes of a tree they are.
-/

namespace UnitCompiler

inductive IntExpr where
  | int (value : Int)
  | bool (value : Bool)
  | char (code : Nat)
  | var (name : String)
  | neg (operand : IntExpr)
  | bitNot (operand : IntExpr)
  | not (operand : IntExpr)
  | binary (op : BinaryOp) (lhs rhs : IntExpr)
  | cast (kind : Scalar) (operand : IntExpr)
deriving DecidableEq, Repr

namespace IntExpr

/-- The variables that are mentioned. -/
def vars : IntExpr → List String
  | .int _ | .bool _ | .char _ => []
  | .var name => [name]
  | .neg e | .bitNot e | .not e | .cast _ e => e.vars
  | .binary _ l r => l.vars ++ r.vars

/-- The number that an expression stands for; none when a division by zero is evaluated.  A literal is
of the first of `int`, `long` and `cent` that holds it, and a character of a signed byte.  The right
operand of a logical operator counts only when the left one does not decide. -/
def eval (ρ : String → IntValue) : IntExpr → Option IntValue
  | .int value => some (.ofInt (Scalar.forLiteral value) value)
  | .bool value => some (.ofBool value)
  | .char code => some (.ofInt .char code)
  | .var name => some (ρ name)
  | .neg e => (e.eval ρ).map .neg
  | .bitNot e => (e.eval ρ).map .bitNot
  | .not e => (e.eval ρ).map fun x => .ofBool !x.truth
  | .binary op l r => do
    let x ← l.eval ρ
    if op.isLogical then
      if x.truth = (op == .or) then some (.ofBool x.truth)
      else (r.eval ρ).map fun y => .ofBool y.truth
    else IntValue.binary? op x (← r.eval ρ)
  | .cast k e => (e.eval ρ).map (·.convert k)

/-- The node is the root of the expression in a tree. -/
def At (t : Tree) : IntExpr → NodeId → Prop
  | .int value, id => t.HasKind id (.int value)
  | .bool value, id => t.HasKind id (.bool value)
  | .char code, id => t.HasKind id (.char code)
  | .var name, id => t.HasKind id (.ident name [])
  | .neg e, id => ∃ operand, t.HasKind id (.unary .neg operand) ∧ e.At t operand
  | .bitNot e, id => ∃ operand, t.HasKind id (.unary .bitNot operand) ∧ e.At t operand
  | .not e, id => ∃ operand, t.HasKind id (.unary .not operand) ∧ e.At t operand
  | .binary op l r, id =>
    op.isAssignment = false ∧
      ∃ lhs rhs, t.HasKind id (.binary op lhs rhs) ∧ l.At t lhs ∧ r.At t rhs
  | .cast k e, id =>
    k.isInteger = true ∧ ∃ operand, t.HasKind id (.cast (.scalar k) operand) ∧ e.At t operand

end IntExpr
end UnitCompiler
