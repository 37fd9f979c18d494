import UnitCompiler.Compile.Symbols

/-!
# Scopes

The variables and aliases visible at a point of a function body: a stack of frames, the innermost
first.
-/

namespace UnitCompiler

structure LocalVar where
  name : String
  type : SourceType
  /-- The address of the variable. -/
  slot : Operand
  span : Span
  isParam : Bool := false
  isUsed : Bool := false

/-- The variables of a block in the order of their declarations, and its aliases. -/
structure Frame where
  vars : List LocalVar := []
  aliases : Table String AliasEntry := {}

namespace Frame

def var? (f : Frame) (name : String) : Option LocalVar := f.vars.find? (·.name == name)

def markUsed (f : Frame) (name : String) : Frame :=
  { f with vars := f.vars.map fun v => if v.name == name then { v with isUsed := true } else v }

/-- The variables that were never referenced; parameters are not among them. -/
def unused (f : Frame) : List LocalVar := f.vars.filter fun v => !v.isUsed && !v.isParam

end Frame

structure Scope where
  frames : List Frame := []

namespace Scope

def push (s : Scope) : Scope := ⟨{} :: s.frames⟩

/-- The scope without its innermost frame, and the unused variables of that frame. -/
def pop (s : Scope) : List LocalVar × Scope :=
  match s.frames with
  | [] => ([], s)
  | frame :: rest => (frame.unused, ⟨rest⟩)

/-- The scope with a variable in its innermost frame, unless that frame has one of the name. -/
def declare (s : Scope) (v : LocalVar) : Option Scope :=
  match s.frames with
  | [] => none
  | frame :: rest =>
    if (frame.var? v.name).isSome then none
    else some ⟨{ frame with vars := frame.vars ++ [v] } :: rest⟩

def lookup (s : Scope) (name : String) : Option LocalVar := s.frames.findSome? (·.var? name)

/-- The frames with the innermost variable of the name marked. -/
def markFrames (name : String) : List Frame → List Frame
  | [] => []
  | frame :: rest =>
    if (frame.var? name).isSome then frame.markUsed name :: rest
    else frame :: markFrames name rest

def markUsed (s : Scope) (name : String) : Scope := ⟨markFrames name s.frames⟩

/-- The scope with an alias in its innermost frame, and whether the frame had none of the name. -/
def declareAlias (s : Scope) (name : String) (entry : AliasEntry) : Bool × Scope :=
  match s.frames with
  | [] => (false, s)
  | frame :: rest =>
    (!frame.aliases.contains name,
      ⟨{ frame with aliases := frame.aliases.insert name entry } :: rest⟩)

def alias? (s : Scope) (name : String) : Option AliasEntry :=
  s.frames.findSome? (·.aliases.get? name)

@[simp] theorem lookup_push (s : Scope) (name : String) : s.push.lookup name = s.lookup name := rfl

@[simp] theorem alias?_push (s : Scope) (name : String) : s.push.alias? name = s.alias? name := rfl

@[simp] theorem pop_push (s : Scope) : s.push.pop = ([], s) := rfl

end Scope

/-- Where `break` and `continue` lead. -/
structure LoopTargets where
  breakTo : Nat
  continueTo : Nat
deriving DecidableEq, Repr

end UnitCompiler
