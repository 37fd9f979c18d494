/-!
# Settings documents

The values of a TOML document and the rules by which its lines add up to one table: a key is given
once, a table is opened by one header, and a table that dotted keys made is not opened by a header.
-/

namespace UnitCompiler

/-- How a table came about. -/
inductive TableOrigin where
  /-- By a header of its own. -/
  | header
  /-- As a part of the path in a longer header. -/
  | path
  /-- By a dotted key. -/
  | dotted
deriving DecidableEq, Repr

inductive TomlValue where
  | string (value : String)
  | integer (value : Int)
  | float (literal : String)
  | boolean (value : Bool)
  /-- A date, a time, or both. -/
  | moment (literal : String)
  | array (items : List TomlValue)
  /-- A table written as a value, which nothing can be added to. -/
  | inline (entries : List (String × TomlValue))
  | table (origin : TableOrigin) (entries : List (String × TomlValue))
  /-- Tables opened by repeated headers; the last one is open. -/
  | tables (front : List (List (String × TomlValue))) (last : List (String × TomlValue))

/-- The keys of a table in the order of their first use. -/
abbrev TomlTable := List (String × TomlValue)

namespace TomlTable

def get? (t : TomlTable) (key : String) : Option TomlValue := t.lookup key

/-- The table with the value of a key made from the present one. -/
def alter (key : String) (f : Option TomlValue → Option TomlValue) : TomlTable → Option TomlTable
  | [] => (f none).map fun value => [(key, value)]
  | (k, value) :: rest =>
    if k = key then (f (some value)).map fun value => (k, value) :: rest
    else (alter key f rest).map ((k, value) :: ·)

/-- Gives a value to a new key. -/
def define (key : String) (value : TomlValue) (t : TomlTable) : Option TomlTable :=
  alter key (fun old => if old.isSome then none else some value) t

/-- Gives a value to a dotted key.  The tables on the way must not have headers of their own, and the
innermost one must have been made by dotted keys. -/
def defineAt (key : String) (value : TomlValue) : List String → TomlTable → Option TomlTable
  | [], t => define key value t
  | step :: path, t =>
    alter step (fun
      | none => (defineAt key value path []).map (.table .dotted)
      | some (.table origin entries) =>
        if origin = .header || (path.isEmpty && origin ≠ .dotted) then none
        else (defineAt key value path entries).map (.table origin)
      | some (.tables front last) =>
        if path.isEmpty then none else (defineAt key value path last).map (.tables front)
      | some _ => none) t

/-- Acts on the table at the path of a header; tables on the way are made where they are missing. -/
def within (act : TomlTable → Option TomlTable) : List String → TomlTable → Option TomlTable
  | [], t => act t
  | step :: path, t =>
    alter step (fun
      | none => (within act path []).map (.table .path)
      | some (.table origin entries) => (within act path entries).map (.table origin)
      | some (.tables front last) => (within act path last).map (.tables front)
      | some _ => none) t

/-- Opens a table by its header. -/
def openTable (key : String) (t : TomlTable) : Option TomlTable :=
  alter key (fun
    | none => some (.table .header [])
    | some (.table .path entries) => some (.table .header entries)
    | some _ => none) t

/-- Opens one more table of an array of tables. -/
def openElement (key : String) (t : TomlTable) : Option TomlTable :=
  alter key (fun
    | none => some (.tables [] [])
    | some (.tables front last) => some (.tables (front ++ [last]) [])
    | some _ => none) t

end TomlTable
end UnitCompiler
