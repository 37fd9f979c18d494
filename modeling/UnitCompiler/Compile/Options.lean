/-!
# Options of a compilation
-/

namespace UnitCompiler

structure CompileOptions where
  /-- The width of a pointer on the target. -/
  pointerBits : Nat := 64
  /-- How deep instantiations may nest. -/
  maxInstantiationDepth : Nat := 64
  /-- How deep namespaces and blocks may nest. -/
  maxNestingDepth : Nat := 256
  /-- Whether unused locals are reported. -/
  warnUnused : Bool := true
  disableWarnings : Bool := false
deriving DecidableEq, Repr, Inhabited

/-- Why options are refused. -/
inductive OptionsProblem where
  | pointerWidth (bits : Nat)
  | zeroDepth
deriving DecidableEq, Repr

def OptionsProblem.message : OptionsProblem → String
  | .pointerWidth bits => s!"unsupported pointer width {bits}"
  | .zeroDepth => "depth limits must be positive"

namespace CompileOptions

def warningsEnabled (o : CompileOptions) : Bool := !o.disableWarnings

def validate (o : CompileOptions) : Except OptionsProblem CompileOptions :=
  if o.pointerBits ≠ 16 ∧ o.pointerBits ≠ 32 ∧ o.pointerBits ≠ 64 then
    throw (.pointerWidth o.pointerBits)
  else if o.maxInstantiationDepth = 0 ∨ o.maxNestingDepth = 0 then throw .zeroDepth
  else pure o

end CompileOptions
end UnitCompiler
