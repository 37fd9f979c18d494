import UnitCompiler.Compile.Options
import UnitCompiler.Toml.Reader

/-!
# Options from a settings document

Options are given by keys of the document; a missing one keeps its default, and unknown keys are
ignored.
-/

namespace UnitCompiler

inductive OptionsError where
  /-- The text is no settings document, or a value has the wrong type. -/
  | malformed
  | problem (problem : OptionsProblem)
deriving DecidableEq, Repr

namespace CompileOptions

/-- A natural number under a key, or the default. -/
def natAt (t : TomlTable) (key : String) (default : Nat) : Option Nat :=
  match t.get? key with
  | none => some default
  | some (.integer value) => if 0 ≤ value then some value.toNat else none
  | some _ => none

/-- A truth value under a key, or the default. -/
def boolAt (t : TomlTable) (key : String) (default : Bool) : Option Bool :=
  match t.get? key with
  | none => some default
  | some (.boolean value) => some value
  | some _ => none

def ofTable? (t : TomlTable) : Option CompileOptions := do
  let default : CompileOptions := {}
  return {
    pointerBits := ← natAt t "pointer_bits" default.pointerBits
    maxInstantiationDepth := ← natAt t "max_instantiation_depth" default.maxInstantiationDepth
    maxNestingDepth := ← natAt t "max_nesting_depth" default.maxNestingDepth
    warnUnused := ← boolAt t "warn_unused" default.warnUnused
    disableWarnings := ← boolAt t "disable_warnings" default.disableWarnings }

/-- The options that a settings document gives. -/
def read (text : String) : Except OptionsError CompileOptions :=
  match (Toml.parse text).bind ofTable? with
  | none => .error .malformed
  | some options => options.validate.mapError .problem

end CompileOptions
end UnitCompiler
