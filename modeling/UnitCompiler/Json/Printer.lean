import UnitCompiler.Json.Value
import UnitCompiler.Text.Quoted

/-!
# Text of a JSON document

Documents are written on one line without blanks.
-/

namespace UnitCompiler

namespace JsonNumber

def digitsText (digits : List Nat) : String :=
  String.ofList (digits.map fun d => Nat.digitChar d)

def text (n : JsonNumber) : String :=
  (if n.negative then "-" else "") ++ digitsText n.whole
    ++ (match n.fraction with
        | none => ""
        | some digits => "." ++ digitsText digits)
    ++ (match n.exponent with
        | none => ""
        | some e => "e" ++ toString e)

end JsonNumber

namespace Json

def escapeChar (c : Char) : String :=
  match c with
  | '"' => "\\\""
  | '\\' => "\\\\"
  | '\n' => "\\n"
  | '\t' => "\\t"
  | '\r' => "\\r"
  | c =>
    if c.toNat < 0x20 then "\\u00" ++ (if c.toNat < 0x10 then "0" else "") ++ Text.hex c.toNat
    else String.singleton c

def stringText (s : String) : String :=
  "\"" ++ String.join (s.toList.map escapeChar) ++ "\""

mutual

def text : Json → String
  | .null => "null"
  | .bool true => "true"
  | .bool false => "false"
  | .number n => n.text
  | .string s => stringText s
  | .array items => "[" ++ String.intercalate "," (itemTexts items) ++ "]"
  | .object members => "\x7b" ++ String.intercalate "," (memberTexts members) ++ "\x7d"

def itemTexts : List Json → List String
  | [] => []
  | item :: rest => text item :: itemTexts rest

def memberTexts : List (String × Json) → List String
  | [] => []
  | (name, item) :: rest => (stringText name ++ ":" ++ text item) :: memberTexts rest

end

end Json
end UnitCompiler
