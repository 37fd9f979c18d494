import UnitCompiler.Tree.Node

/-!
# Trees

The nodes of a unit in one growing arena.  Copying a subtree appends new nodes, children before their
parent, and leaves the old ones alone.
-/

namespace UnitCompiler

structure Tree where
  nodes : Array Node := #[]
  files : FileTable := {}
deriving Inhabited

namespace Tree

def size (t : Tree) : Nat := t.nodes.size

def contains (t : Tree) (id : NodeId) : Bool := id.index < t.nodes.size

def node? (t : Tree) (id : NodeId) : Option Node := t.nodes[id.index]?

def locate (t : Tree) (span : Span) : Location := t.files.locate span

/-- The tree with one more node, and the number of that node. -/
def push (t : Tree) (kind : NodeKind) (span : Span) : NodeId × Tree :=
  (⟨t.nodes.size⟩, { t with nodes := t.nodes.push ⟨kind, span⟩ })

/-- The tree with the kind of a node replaced. -/
def modifyKind (t : Tree) (id : NodeId) (f : NodeKind → NodeKind) : Tree :=
  { t with nodes := t.nodes.modify id.index fun node => { node with kind := f node.kind } }

/-- The tree with one more file unless it is there, and the number of that file. -/
def addFile (t : Tree) (file : String) : Nat × Tree :=
  let (id, files) := t.files.add file
  (id, { t with files })

/-- Why a subtree cannot be copied. -/
inductive CopyError where
  /-- A child lies outside the arena. -/
  | missing (id : NodeId)
  /-- A node is its own descendant. -/
  | cyclic
deriving DecidableEq, Repr

/-- Copies the subtree at `id` when it is at most `fuel` levels deep. -/
def copyWithin : Nat → NodeId → StateT Tree (Except CopyError) NodeId
  | 0, _ => throw .cyclic
  | fuel + 1, id => do
    match (← get).node? id with
    | none => throw (.missing id)
    | some node =>
      let kind ← node.kind.mapChildren (copyWithin fuel)
      modifyGet fun t => t.push kind node.span

/-- Copies the subtree at `id`; a path without repetition is no longer than the arena. -/
def copySubtree (t : Tree) (id : NodeId) : Except CopyError (NodeId × Tree) :=
  (copyWithin (t.size + 1) id).run t

end Tree

/-- A tree under construction: new nodes get the current file and line. -/
structure TreeBuilder where
  tree : Tree := {}
  file : Nat := 0
  line : Nat := 1

namespace TreeBuilder

def new (file : String) : TreeBuilder :=
  let (id, tree) := ({} : Tree).addFile file
  { tree, file := id }

def push (kind : NodeKind) : StateM TreeBuilder NodeId :=
  modifyGet fun b =>
    let (id, tree) := b.tree.push kind ⟨b.file, b.line⟩
    (id, { b with tree })

def ident (name : String) (args : List TemplateArg) : StateM TreeBuilder NodeId :=
  push (.ident name args)

/-- A call of a name, with the name's own node before it. -/
def callNamed (name : String) (templateArgs : List TemplateArg) (args : List NodeId) :
    StateM TreeBuilder NodeId := do
  let callee ← ident name templateArgs
  push (.call callee args)

/-- A call of a member, with the member's own node before it. -/
def methodCall (base : NodeId) (name : String) (args : List NodeId) : StateM TreeBuilder NodeId := do
  let callee ← push (.get base name)
  push (.call callee args)

end TreeBuilder
end UnitCompiler
