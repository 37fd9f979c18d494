import UnitCompiler.Toml.Literal

/-!
# Reading settings documents
-/

namespace UnitCompiler
namespace Toml

/-- How deep arrays and inline tables nest, and how many parts a dotted key has, at most. -/
def maxDepth : Nat := 79

/-- Characters of comments and of strings on one line. -/
def isPlain (c : Char) : Bool :=
  c == '\t' || (' ' ≤ c && c ≤ '~') || 0x80 ≤ c.toNat

def isSpace (c : Char) : Bool := c == ' ' || c == '\t'

def skipSpaces (cs : List Char) : List Char := cs.dropWhile isSpace

def readNewline : List Char → Option (List Char)
  | '\n' :: cs => some cs
  | '\r' :: '\n' :: cs => some cs
  | _ => none

/-- Skips the rest of a line, on which only a comment may stand. -/
def readLineEnd (cs : List Char) : Option (List Char) :=
  let rest :=
    match skipSpaces cs with
    | '#' :: cs => cs.dropWhile isPlain
    | cs => cs
  if rest.isEmpty then some [] else readNewline rest

/-- Skips spaces, line ends and comments. -/
def skipLines : (inComment : Bool) → List Char → Option (List Char)
  | _, [] => some []
  | _, '\n' :: cs => skipLines false cs
  | _, '\r' :: '\n' :: cs => skipLines false cs
  | true, c :: cs => if isPlain c then skipLines true cs else none
  | false, '#' :: cs => skipLines true cs
  | false, c :: cs => if isSpace c then skipLines false cs else some (c :: cs)

/-- A code point of a number of hexadecimal digits. -/
def readCodePoint (count : Nat) (cs : List Char) : Option (Char × List Char) := do
  let n ← Text.numeral? 16 (cs.take count)
  let isScalar := n < 0xd800 || (0xe000 ≤ n && n < 0x110000)
  if (cs.take count).length = count && isScalar then some (Char.ofNat n, cs.drop count) else none

/-- The character of an escape, after the backslash. -/
def readEscape : List Char → Option (Char × List Char)
  | 'b' :: cs => some ('\x08', cs)
  | 't' :: cs => some ('\t', cs)
  | 'n' :: cs => some ('\n', cs)
  | 'f' :: cs => some ('\x0c', cs)
  | 'r' :: cs => some ('\r', cs)
  | '"' :: cs => some ('"', cs)
  | '\\' :: cs => some ('\\', cs)
  | 'u' :: cs => readCodePoint 4 cs
  | 'U' :: cs => readCodePoint 8 cs
  | _ => none

/-- A string on one line after its opening quote, collected in reverse. -/
def readBasic : Nat → List Char → List Char → Option (String × List Char)
  | 0, _, _ => none
  | _, acc, '"' :: cs => some (String.ofList acc.reverse, cs)
  | fuel + 1, acc, '\\' :: cs => do
    let (c, cs) ← readEscape cs
    readBasic fuel (c :: acc) cs
  | fuel + 1, acc, c :: cs => if isPlain c then readBasic fuel (c :: acc) cs else none
  | _, _, [] => none

/-- A string on one line without escapes, after its opening quote. -/
def readRaw (cs : List Char) : Option (String × List Char) :=
  let body := cs.takeWhile fun c => isPlain c && c != '\''
  (readMark '\'' (cs.drop body.length)).map (String.ofList body, ·)

/-- What follows three closing quotes: up to two more quotes belong to the string. -/
def closeQuotes (quote : Char) (acc cs : List Char) : String × List Char :=
  let extra := (cs.take 2).takeWhile (· == quote)
  (String.ofList (acc.reverse ++ extra), cs.drop extra.length)

/-- The text behind a backslash at the end of a line: blanks and line ends are skipped. -/
def continueLine (cs : List Char) : Option (List Char) := do
  let cs ← readNewline (skipSpaces cs)
  some (cs.dropWhile fun c => isSpace c || c == '\n' || c == '\r')

/-- A string on several lines after its opening quotes, collected in reverse. -/
def readLong (quote : Char) : Nat → List Char → List Char → Option (String × List Char)
  | 0, _, _ => none
  | _, _, [] => none
  | fuel + 1, acc, c :: cs =>
    if c == quote then
      match cs with
      | a :: b :: cs =>
        if a == quote && b == quote then some (closeQuotes quote acc cs)
        else readLong quote fuel (c :: acc) (a :: b :: cs)
      | cs => readLong quote fuel (c :: acc) cs
    else if c == '\\' && quote == '"' then
      match continueLine cs with
      | some cs => readLong quote fuel acc cs
      | none =>
        match readEscape cs with
        | some (e, cs) => readLong quote fuel (e :: acc) cs
        | none => none
    else
      match readNewline (c :: cs) with
      | some cs => readLong quote fuel ('\n' :: acc) cs
      | none => if isPlain c then readLong quote fuel (c :: acc) cs else none

/-- A string on several lines; a line end right behind the opening quotes is no part of it. -/
def readLongString (quote : Char) (cs : List Char) : Option (String × List Char) :=
  let cs := (readNewline cs).getD cs
  readLong quote (cs.length + 1) [] cs

def isBare (c : Char) : Bool := c.isAlphanum || c == '_' || c == '-'

def readSimpleKey (cs : List Char) : Option (String × List Char) :=
  match cs with
  | '"' :: cs => readBasic (cs.length + 1) [] cs
  | '\'' :: cs => readRaw cs
  | cs =>
    let body := cs.takeWhile isBare
    if body.isEmpty then none else some (String.ofList body, cs.drop body.length)

/-- The parts of a dotted key, with spaces around them. -/
def readKey : Nat → List Char → Option (List String × List Char)
  | 0, _ => none
  | fuel + 1, cs => do
    let (part, cs) ← readSimpleKey (skipSpaces cs)
    match skipSpaces cs with
    | '.' :: cs =>
      let (parts, cs) ← readKey fuel cs
      some (part :: parts, cs)
    | cs => some ([part], cs)

def isLiteral (c : Char) : Bool := c.isAlphanum || "_+-.:".toList.contains c

/-- A literal; a time may follow a date behind a space. -/
def readLiteral (cs : List Char) : Option (TomlValue × List Char) :=
  let first := cs.takeWhile isLiteral
  let rest := cs.drop first.length
  let second :=
    match readDate first, rest with
    | some [], ' ' :: c :: more => if c.isDigit then ' ' :: (c :: more).takeWhile isLiteral else []
    | _, _ => []
  (literal? (first ++ second)).map (·, rest.drop second.length)

def readSimple (cs : List Char) : Option (TomlValue × List Char) :=
  match cs with
  | '"' :: '"' :: '"' :: cs => (readLongString '"' cs).map fun (s, cs) => (.string s, cs)
  | '\'' :: '\'' :: '\'' :: cs => (readLongString '\'' cs).map fun (s, cs) => (.string s, cs)
  | '"' :: cs => (readBasic (cs.length + 1) [] cs).map fun (s, cs) => (.string s, cs)
  | '\'' :: cs => (readRaw cs).map fun (s, cs) => (.string s, cs)
  | cs => readLiteral cs

/-- The items of an array after its opening bracket; a comma may stand behind the last. -/
def readItems (read : List Char → Option (TomlValue × List Char)) :
    Nat → List Char → Option (List TomlValue × List Char)
  | 0, _ => none
  | fuel + 1, cs => do
    match ← skipLines false cs with
    | ']' :: cs => some ([], cs)
    | cs =>
      let (item, cs) ← read cs
      match ← skipLines false cs with
      | ',' :: cs =>
        let (rest, cs) ← readItems read fuel cs
        some (item :: rest, cs)
      | ']' :: cs => some ([item], cs)
      | _ => none

/-- A key and its value, added to a table. -/
def readEntry (read : List Char → Option (TomlValue × List Char)) (t : TomlTable)
    (cs : List Char) : Option (TomlTable × List Char) := do
  let (parts, cs) ← readKey maxDepth cs
  let cs ← readMark '=' cs
  let (value, cs) ← read (skipSpaces cs)
  let t ← t.defineAt (parts.getLastD "") value parts.dropLast
  some (t, cs)

/-- The entries of an inline table after its opening brace. -/
def readEntries (read : List Char → Option (TomlValue × List Char)) :
    Nat → TomlTable → List Char → Option (TomlTable × List Char)
  | 0, _, _ => none
  | fuel + 1, t, cs => do
    let (t, cs) ← readEntry read t cs
    match skipSpaces cs with
    | ',' :: cs => readEntries read fuel t cs
    | '\x7d' :: cs => some (t, cs)
    | _ => none

/-- A value when `depth` more levels of arrays and inline tables may be entered. -/
def readValue : Nat → List Char → Option (TomlValue × List Char)
  | 0, cs => readSimple cs
  | depth + 1, cs =>
    match cs with
    | '[' :: cs =>
      (readItems (readValue depth) (cs.length + 1) cs).map fun (items, cs) => (.array items, cs)
    | '\x7b' :: cs =>
      match skipSpaces cs with
      | '\x7d' :: cs => some (.inline [], cs)
      | cs => (readEntries (readValue depth) (cs.length + 1) [] cs).map fun (t, cs) => (.inline t, cs)
    | cs => readSimple cs

/-- A document under reading: its table and the path of the open header. -/
structure Progress where
  root : TomlTable := []
  header : List String := []

/-- A header line after its opening bracket. -/
def readHeader (p : Progress) (cs : List Char) : Option (Progress × List Char) := do
  let (isElement, cs) :=
    match cs with
    | '[' :: cs => (true, cs)
    | cs => (false, cs)
  let (parts, cs) ← readKey maxDepth cs
  let cs ← readMark ']' cs
  let cs ← if isElement then readMark ']' cs else some cs
  let last := parts.getLastD ""
  let act := if isElement then TomlTable.openElement last else TomlTable.openTable last
  some (⟨← p.root.within act parts.dropLast, parts⟩, cs)

/-- A line with a key and a value, for the table of the open header. -/
def readSetting (p : Progress) (cs : List Char) : Option (Progress × List Char) := do
  let (parts, cs) ← readKey maxDepth cs
  let cs ← readMark '=' cs
  let (value, cs) ← readValue maxDepth (skipSpaces cs)
  let act := TomlTable.defineAt (parts.getLastD "") value parts.dropLast
  some ({ p with root := ← p.root.within act p.header }, cs)

def readLines : Nat → Progress → List Char → Option TomlTable
  | 0, _, _ => none
  | fuel + 1, p, cs => do
    match ← skipLines false cs with
    | [] => some p.root
    | '[' :: cs =>
      let (p, cs) ← readHeader p cs
      readLines fuel p (← readLineEnd cs)
    | cs =>
      let (p, cs) ← readSetting p cs
      readLines fuel p (← readLineEnd cs)

/-- The table of a document; nothing when the document breaks a rule. -/
def parse (text : String) : Option TomlTable :=
  let cs :=
    match text.toList with
    | '\ufeff' :: cs => cs
    | cs => cs
  readLines (cs.length + 1) {} cs

end Toml
end UnitCompiler
