import UnitCompiler.Text.Shown

/-!
# Quoted text

Text in double quotes.  A quote, a backslash, a newline, a tab, a return and a null have a
two-character escape; any other character that is not shown is written by its code point.
-/

namespace UnitCompiler
namespace Text

/-- A natural number in lower-case hexadecimal. -/
def hex (n : Nat) : String := String.ofList (Nat.toDigits 16 n)

/-- A natural number in hexadecimal with its base mark. -/
def markedHex (n : Nat) : String := "0x" ++ hex n

def escape (c : Char) : String :=
  match c with
  | '"' => "\\\""
  | '\\' => "\\\\"
  | '\n' => "\\n"
  | '\t' => "\\t"
  | '\r' => "\\r"
  | '\x00' => "\\0"
  | c => if isShown c then String.singleton c else "\\u\x7b" ++ hex c.toNat ++ "\x7d"

/-- The text between double quotes. -/
def quoted (s : String) : String :=
  "\"" ++ String.join (s.toList.map escape) ++ "\""

end Text
end UnitCompiler
