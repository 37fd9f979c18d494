/-!
# Places in the source

Every node of a unit carries the file and the line it came from.  The file table turns the number of a
file into its name.
-/

namespace UnitCompiler

/-- A file by its number in the table, and a line. -/
structure Span where
  file : Nat
  line : Nat
deriving DecidableEq, Repr, Inhabited

def Span.text (s : Span) : String := s!"Span({s.file}:{s.line})"

/-- A file by its name, and a line. -/
structure Location where
  file : String
  line : Nat
deriving DecidableEq, Repr, Inhabited

def Location.text (l : Location) : String := s!"'{l.file}' file at {l.line} line"

/-- The files of a unit, each once. -/
structure FileTable where
  files : List String := []
deriving DecidableEq, Repr, Inhabited

namespace FileTable

/-- The number of a file, added at the end when it is new. -/
def add (t : FileTable) (file : String) : Nat × FileTable :=
  match t.files.idxOf? file with
  | some index => (index, t)
  | none => (t.files.length, ⟨t.files ++ [file]⟩)

def name (t : FileTable) (file : Nat) : String := t.files[file]?.getD "<unknown>"

def locate (t : FileTable) (s : Span) : Location := ⟨t.name s.file, s.line⟩

end FileTable
end UnitCompiler
