import Mathlib
import UnitCompiler.Proofs.Relocation.Tables
import UnitCompiler.Tree.Arena
import UnitCompiler.Types.Substitution

/-!
# Relocated trees

Two trees that started from the same nodes and then grew alike, except that one of them had further
nodes in between: what was added stands at other numbers there.  A relocation moves node numbers, nodes
and trees from the one to the other, and copying a subtree commutes with it.
-/

namespace UnitCompiler

/-! ### Types whose array lengths are known nodes -/

/-- A length that is still an expression is one of the first `base` nodes. -/
def ArrayLength.Bounded (base : Nat) : ArrayLength → Prop
  | .expr node => node.index < base
  | _ => True

mutual

/-- The array lengths in the type that are still expressions are among the first `base` nodes. -/
def SourceType.Bounded (base : Nat) : SourceType → Prop
  | .array element length => element.Bounded base ∧ length.Bounded base
  | .pointer inner | .const inner | .alias _ inner => inner.Bounded base
  | .aggregate _ args => TemplateArg.AllBounded base args
  | .function ret params _ => ret.Bounded base ∧ SourceType.AllBounded base params
  | .void | .scalar _ | .templateParam _ => True

def TemplateArg.Bounded (base : Nat) : TemplateArg → Prop
  | .type type => type.Bounded base
  | .value _ => True

def TemplateArg.AllBounded (base : Nat) : List TemplateArg → Prop
  | [] => True
  | arg :: rest => arg.Bounded base ∧ TemplateArg.AllBounded base rest

def SourceType.AllBounded (base : Nat) : List SourceType → Prop
  | [] => True
  | type :: rest => type.Bounded base ∧ SourceType.AllBounded base rest

end

def Substitution.Bounded (base : Nat) (s : Substitution) : Prop :=
  s.types.All (SourceType.Bounded base)

theorem SourceType.bounded_named (base : Nat) (name : String) :
    (SourceType.named name).Bounded base := by
  rw [SourceType.named]
  split_ifs
  · trivial
  · cases Scalar.ofName? name with
    | some kind => trivial
    | none => simp [SourceType.Bounded, TemplateArg.AllBounded]

section Substitution

variable {base : Nat} {s : Substitution}

theorem Substitution.bounded_empty : Substitution.Bounded base {} := Table.all_empty

theorem ArrayLength.Bounded.substitute {length : ArrayLength} (h : length.Bounded base)
    (s : Substitution) : (length.substitute s).Bounded base := by
  cases length with
  | fixed _ => trivial
  | expr _ => exact h
  | param name =>
    simp only [ArrayLength.substitute]
    split <;> trivial

mutual

theorem SourceType.Bounded.substitute (hs : s.Bounded base) (type : SourceType) (h : type.Bounded base) :
    (type.substitute s).Bounded base := by
  match type with
  | .void | .scalar _ => trivial
  | .templateParam name =>
    rw [SourceType.substitute]
    cases hget : s.types.get? name with
    | none => exact h
    | some type => exact hs name type hget
  | .aggregate name args =>
    rw [SourceType.substitute]
    split_ifs
    · cases hget : s.types.get? name with
      | none => exact h
      | some type => exact hs name type hget
    · exact TemplateArg.AllBounded.substitute hs args h
  | .pointer inner | .const inner | .alias _ inner => exact SourceType.Bounded.substitute hs inner h
  | .array inner length =>
    exact ⟨SourceType.Bounded.substitute hs inner h.1, h.2.substitute s⟩
  | .function ret params isVariadic =>
    exact ⟨SourceType.Bounded.substitute hs ret h.1, SourceType.AllBounded.substitute hs params h.2⟩

theorem TemplateArg.Bounded.substitute (hs : s.Bounded base) (arg : TemplateArg) (h : arg.Bounded base) :
    (SourceType.substituteArg s arg).Bounded base := by
  match arg with
  | .value _ => trivial
  | .type type =>
    rw [SourceType.substituteArg]
    split
    · trivial
    · exact SourceType.Bounded.substitute hs type h

theorem TemplateArg.AllBounded.substitute (hs : s.Bounded base) (args : List TemplateArg)
    (h : TemplateArg.AllBounded base args) :
    TemplateArg.AllBounded base (SourceType.substituteArgs s args) := by
  match args with
  | [] => trivial
  | arg :: rest =>
    exact ⟨TemplateArg.Bounded.substitute hs arg h.1, TemplateArg.AllBounded.substitute hs rest h.2⟩

theorem SourceType.AllBounded.substitute (hs : s.Bounded base) (types : List SourceType)
    (h : SourceType.AllBounded base types) :
    SourceType.AllBounded base (SourceType.substituteTypes s types) := by
  match types with
  | [] => trivial
  | type :: rest =>
    exact ⟨SourceType.Bounded.substitute hs type h.1, SourceType.AllBounded.substitute hs rest h.2⟩

end

end Substitution

/-! ### What a node refers to -/

namespace NodeKind

/-- The nodes that a node refers to, apart from the lengths in its types. -/
def children : NodeKind → List NodeId
  | .unary _ operand => [operand]
  | .binary _ lhs rhs => [lhs, rhs]
  | .get base _ => [base]
  | .index base place => [base, place]
  | .call callee args => callee :: args
  | .cast _ value => [value]
  | .arrayLit values | .aggregateLit _ values => values
  | .builtin _ args => args.filterMap fun
    | .expr node => some node
    | .type _ => none
  | .block items | .space _ items => items
  | .ifElse cond yes no | .staticIf cond yes no => cond :: yes :: no.toList
  | .whileLoop cond body => [cond, body]
  | .forLoop init cond step body => init.toList ++ cond.toList ++ step.toList ++ [body]
  | .foreach _ data length body => data :: length.toList ++ [body]
  | .switch value cases default =>
    value :: cases.flatMap (fun case => [case.value, case.body]) ++ default.toList
  | .ret value => value.toList
  | .defer stmt => [stmt]
  | .destroy value => [value]
  | .variable decl => decl.init.toList
  | .function decl => decl.body.toList
  | .aggregate decl => decl.fields.filterMap (·.default) ++ decl.methods
  | .alias decl =>
    match decl.target with
    | .value node => [node]
    | .type _ => []
  | _ => []

/-- The types that are written in a node. -/
def types : NodeKind → List SourceType
  | .ident name args => [.aggregate name args]
  | .cast type _ | .sizeOf type | .aggregateLit type _ => [type]
  | .builtin _ args => args.filterMap fun
    | .type type => some type
    | .expr _ => none
  | .variable decl => decl.type.toList
  | .function decl => decl.ret :: decl.params.map (·.type)
  | .aggregate decl => decl.base.toList ++ decl.fields.map (·.type)
  | .alias decl =>
    match decl.target with
    | .type type => [type]
    | .value _ => []
  | _ => []

def Bounded (base : Nat) (kind : NodeKind) : Prop := ∀ type ∈ kind.types, type.Bounded base

end NodeKind

namespace Tree

/-- The one node is a child of the other. -/
def IsChild (t : Tree) (child parent : NodeId) : Prop :=
  ∃ node, t.node? parent = some node ∧ child ∈ node.kind.children

/-- A tree as it is handed over: every node that is referred to is there, and none is below itself. -/
structure WellFormed (t : Tree) : Prop where
  child_mem : ∀ {child parent}, t.IsChild child parent → child.index < t.size
  bounded : ∀ {id node}, t.node? id = some node → node.kind.Bounded t.size
  acyclic : ∀ id, ¬ Relation.TransGen t.IsChild id id

/-- Ranks below the size of the tree that fall from a node to its children. -/
structure Ranked (t : Tree) (rank : NodeId → Nat) : Prop where
  lt_size : ∀ {id node}, t.node? id = some node → rank id < t.size
  child : ∀ {child parent}, t.IsChild child parent → child.index < t.size ∧ rank child < rank parent

theorem index_lt_of_node? {t : Tree} {id : NodeId} {node : Node} (h : t.node? id = some node) :
    id.index < t.size :=
  (Array.getElem?_eq_some_iff.mp h).1

theorem exists_node? {t : Tree} {id : NodeId} (h : id.index < t.size) : ∃ node, t.node? id = some node :=
  ⟨_, Array.getElem?_eq_some_iff.mpr ⟨h, rfl⟩⟩

theorem node?_eq_none {t : Tree} {id : NodeId} (h : t.size ≤ id.index) : t.node? id = none :=
  Array.getElem?_eq_none_iff.mpr h

open Classical in
/-- How many nodes stand below a node. -/
noncomputable def depth (t : Tree) (id : NodeId) : Nat :=
  ((Finset.range t.size).filter fun index => Relation.TransGen t.IsChild ⟨index⟩ id).card

open Classical in
theorem depth_lt_size {t : Tree} {id : NodeId} (h : id.index < t.size)
    (hacyclic : ¬ Relation.TransGen t.IsChild id id) : t.depth id < t.size := by
  refine (Finset.card_lt_card (t := Finset.range t.size) ?_).trans_eq (Finset.card_range _)
  exact Finset.filter_ssubset.mpr ⟨id.index, Finset.mem_range.mpr h, hacyclic⟩

open Classical in
theorem IsChild.depth_lt {t : Tree} {child parent : NodeId} (h : t.IsChild child parent)
    (hchild : child.index < t.size) (hacyclic : ¬ Relation.TransGen t.IsChild child child) :
    t.depth child < t.depth parent := by
  refine Finset.card_lt_card (Finset.ssubset_iff_of_subset ?_ |>.mpr ⟨child.index, ?_, ?_⟩)
  · intro index hindex
    obtain ⟨hrange, hbelow⟩ := Finset.mem_filter.mp hindex
    exact Finset.mem_filter.mpr ⟨hrange, hbelow.tail h⟩
  · exact Finset.mem_filter.mpr ⟨Finset.mem_range.mpr hchild, .single h⟩
  · intro hindex
    exact hacyclic (Finset.mem_filter.mp hindex).2

/-- In a well-formed tree the number of nodes below a node is a rank. -/
theorem WellFormed.exists_ranked {t : Tree} (h : t.WellFormed) : ∃ rank, t.Ranked rank :=
  ⟨t.depth, fun hnode => depth_lt_size (index_lt_of_node? hnode) (h.acyclic _), fun hchild =>
    ⟨h.child_mem hchild, hchild.depth_lt (h.child_mem hchild) (h.acyclic _)⟩⟩

/-- A tree in which every node stands behind the nodes that it refers to is well-formed. -/
theorem WellFormed.of_descending {t : Tree} (h : ∀ {id node}, t.node? id = some node →
    (∀ child ∈ node.kind.children, child.index < id.index) ∧ node.kind.Bounded t.size) :
    t.WellFormed := by
  have hless : ∀ {child parent}, t.IsChild child parent → child.index < parent.index :=
    fun ⟨_, hnode, hmem⟩ => (h hnode).1 _ hmem
  refine ⟨fun hchild => ?_, fun hnode => (h hnode).2, fun id hid => ?_⟩
  · obtain ⟨node, hnode, -⟩ := id hchild
    exact (hless hchild).trans (index_lt_of_node? hnode)
  · have hbelow : ∀ {a b}, Relation.TransGen t.IsChild a b → a.index < b.index := by
      intro a b hab
      induction hab with
      | single hchild => exact hless hchild
      | tail _ hchild ih => exact ih.trans (hless hchild)
    exact (hbelow hid).false

theorem size_push (t : Tree) (kind : NodeKind) (span : Span) : (t.push kind span).2.size = t.size + 1 :=
  Array.size_push _

theorem node?_push (t : Tree) (kind : NodeKind) (span : Span) (id : NodeId) :
    (t.push kind span).2.node? id = if id.index = t.size then some ⟨kind, span⟩ else t.node? id :=
  Array.getElem?_push

/-- A node with known children gets a rank above all others. -/
theorem Ranked.push {t : Tree} {rank : NodeId → Nat} (h : t.Ranked rank) {kind : NodeKind}
    (hchildren : ∀ child ∈ kind.children, child.index < t.size) (span : Span) :
    (t.push kind span).2.Ranked fun id => if id.index = t.size then t.size else rank id := by
  have hold : ∀ id, id.index < t.size → rank id < t.size := fun id hid =>
    h.lt_size (exists_node? hid).choose_spec
  refine ⟨fun {id node} hnode => ?_, fun {child parent} hchild => ?_⟩
  · have hlt := index_lt_of_node? hnode
    rw [size_push] at hlt ⊢
    split_ifs with hid
    · omega
    · have := hold id (by omega)
      omega
  · obtain ⟨node, hnode, hmem⟩ := hchild
    rw [node?_push] at hnode
    rw [size_push]
    split_ifs at hnode with hparent
    · cases hnode
      have hlt := hchildren child hmem
      have := hold child hlt
      rw [if_neg (by omega), if_pos hparent]
      exact ⟨by omega, this⟩
    · obtain ⟨hlt, hrank⟩ := h.child ⟨node, hnode, hmem⟩
      rw [if_neg (by omega), if_neg hparent]
      exact ⟨by omega, hrank⟩

end Tree

/-! ### Relocation -/

/-- Nodes from number `base` on stand `gap` numbers further up. -/
structure Relocation where
  base : Nat
  gap : Nat

namespace Relocation

variable (σ : Relocation)

def node (id : NodeId) : NodeId := if id.index < σ.base then id else ⟨id.index + σ.gap⟩

def case (c : SwitchCase) : SwitchCase := ⟨σ.node c.value, σ.node c.body⟩

def builtinArg : BuiltinArg → BuiltinArg
  | .type type => .type type
  | .expr node => .expr (σ.node node)

def functionDecl (d : FunctionDecl) : FunctionDecl := { d with body := d.body.map σ.node }

def variableDecl (d : VariableDecl) : VariableDecl := { d with init := d.init.map σ.node }

def fieldDecl (d : FieldDecl) : FieldDecl := { d with default := d.default.map σ.node }

def aggregateDecl (d : AggregateDecl) : AggregateDecl :=
  { d with fields := d.fields.map σ.fieldDecl, methods := d.methods.map σ.node }

def aliasTarget : AliasTarget → AliasTarget
  | .type type => .type type
  | .value node => .value (σ.node node)

def aliasDecl (d : AliasDecl) : AliasDecl := { d with target := σ.aliasTarget d.target }

/-- The node with its children moved. -/
def kind : NodeKind → NodeKind
  | .unary op operand => .unary op (σ.node operand)
  | .binary op lhs rhs => .binary op (σ.node lhs) (σ.node rhs)
  | .get base name => .get (σ.node base) name
  | .index base place => .index (σ.node base) (σ.node place)
  | .call callee args => .call (σ.node callee) (args.map σ.node)
  | .cast type value => .cast type (σ.node value)
  | .arrayLit values => .arrayLit (values.map σ.node)
  | .aggregateLit type values => .aggregateLit type (values.map σ.node)
  | .builtin name args => .builtin name (args.map σ.builtinArg)
  | .block items => .block (items.map σ.node)
  | .ifElse cond yes no => .ifElse (σ.node cond) (σ.node yes) (no.map σ.node)
  | .whileLoop cond body => .whileLoop (σ.node cond) (σ.node body)
  | .forLoop init cond step body =>
    .forLoop (init.map σ.node) (cond.map σ.node) (step.map σ.node) (σ.node body)
  | .foreach name data length body =>
    .foreach name (σ.node data) (length.map σ.node) (σ.node body)
  | .switch value cases default =>
    .switch (σ.node value) (cases.map σ.case) (default.map σ.node)
  | .ret value => .ret (value.map σ.node)
  | .defer stmt => .defer (σ.node stmt)
  | .destroy value => .destroy (σ.node value)
  | .staticIf cond yes no => .staticIf (σ.node cond) (σ.node yes) (no.map σ.node)
  | .variable decl => .variable (σ.variableDecl decl)
  | .function decl => .function (σ.functionDecl decl)
  | .aggregate decl => .aggregate (σ.aggregateDecl decl)
  | .alias decl => .alias (σ.aliasDecl decl)
  | .space name items => .space name (items.map σ.node)
  | .int value => .int value
  | .float value => .float value
  | .bool value => .bool value
  | .char code => .char code
  | .str value => .str value
  | .null => .null
  | .ident name args => .ident name args
  | .sizeOf type => .sizeOf type
  | .breakLoop => .breakLoop
  | .continueLoop => .continueLoop

variable {σ}

theorem node_of_lt {id : NodeId} (h : id.index < σ.base) : σ.node id = id := if_pos h

theorem node_of_le {id : NodeId} (h : σ.base ≤ id.index) : σ.node id = ⟨id.index + σ.gap⟩ :=
  if_neg (Nat.not_lt.mpr h)

theorem node_injective : Function.Injective σ.node := by
  rintro ⟨i⟩ ⟨j⟩ h
  simp only [node] at h
  split_ifs at h with hi hj hj
  · exact h
  · have := congrArg NodeId.index h
    simp only at this hi
    omega
  · have := congrArg NodeId.index h
    simp only at this hj
    omega
  · have := congrArg NodeId.index h
    simp only at this
    rw [show i = j by omega]

theorem map_node_of_lt {ids : List NodeId} (h : ∀ id ∈ ids, id.index < σ.base) :
    ids.map σ.node = ids := by
  rw [List.map_congr_left fun id hid => node_of_lt (h id hid), List.map_id']

theorem option_node_of_lt {id : Option NodeId} (h : ∀ i ∈ id.toList, i.index < σ.base) :
    id.map σ.node = id := by
  cases id with
  | none => rfl
  | some i => rw [Option.map_some, node_of_lt (h i (by simp))]

end Relocation
end UnitCompiler
