import UnitCompiler.Types.Basic

/-!
# Conversions between types

Which machine conversion turns a value of one type into a value of another, and why there may be none.
-/

namespace UnitCompiler

inductive Conversion where
  | noop
  | trunc
  | zeroExtend
  | signExtend
  | floatTrunc
  | floatExtend
  | intToFloat
  | floatToInt
  | pointerToInt
  | intToPointer
  | bitcast
  | reinterpret
deriving DecidableEq, Repr

/-- Why a conversion does not exist; types are given by their canonical texts. -/
inductive ConversionError where
  | toVoid (source : String)
  | fromVoid (target : String)
  | aggregate (source target : String)
  | pointerFloat (source target : String)
  | unsupported (source target : String)
deriving DecidableEq, Repr

def ConversionError.message : ConversionError → String
  | .toVoid source => s!"cannot cast '{source}' to void"
  | .fromVoid target => s!"cannot cast a void value to '{target}'"
  | .aggregate source target =>
    s!"cannot cast between aggregate '{source}' and non-aggregate '{target}'"
  | .pointerFloat source target =>
    s!"cannot cast between pointer and floating type ('{source}' to '{target}')"
  | .unsupported source target => s!"cannot cast '{source}' to '{target}'"

namespace Conversion

/-- Between scalars the widths and the signedness of the source decide. -/
def ofScalars (source target : Scalar) : Conversion :=
  match source.isFloat, target.isFloat with
  | true, true =>
    if source.bits < target.bits then .floatExtend
    else if source = target then .noop
    else .floatTrunc
  | false, true => .intToFloat
  | true, false => .floatToInt
  | false, false =>
    if target.bits < source.bits then .trunc
    else if source.bits = target.bits then .noop
    else if source.isUnsigned then .zeroExtend
    else .signExtend

/-- The conversion between two stripped types that are not the same and not void. -/
def ofStripped (source target : SourceType) : Except ConversionError Conversion :=
  let names (e : String → String → ConversionError) : Except ConversionError Conversion :=
    .error (e source.canonical target.canonical)
  match source, target with
  | .scalar a, .scalar b => .ok (ofScalars a b)
  | .aggregate .., .aggregate .. => .ok .reinterpret
  | .aggregate .., _ | _, .aggregate .. => names .aggregate
  | .pointer _, .pointer _ | .pointer _, .function .. => .ok .bitcast
  | .function .., .pointer _ | .function .., .function .. => .ok .bitcast
  | .array .., .pointer _ => .ok .bitcast
  | .pointer _, .scalar kind => if kind.isInteger then .ok .pointerToInt else names .pointerFloat
  | .scalar kind, .pointer _ => if kind.isInteger then .ok .intToPointer else names .pointerFloat
  | _, _ => names .unsupported

/-- The conversion from one type to another. -/
def between (source target : SourceType) : Except ConversionError Conversion :=
  if target.isVoid then .error (.toVoid source.canonical)
  else if source.isVoid then .error (.fromVoid target.canonical)
  else if source.sameAs target then .ok .noop
  else ofStripped source.strip target.strip

end Conversion
end UnitCompiler
