import UnitCompiler.Proofs.Phases.Later

/-!
# Copies of subtrees

Nodes refer to each other by number, and two of them may refer to the same one.  A copy has no such sharing:
it is what stands below a node, written out as a tree, with children before their parents.
-/

namespace UnitCompiler

/-! ### Unfolded subtrees -/

/-- What stands below a node, where a node that is reached twice is written out twice.  Each node is kept
without the numbers of its children. -/
inductive Unfolding where
  | node (kind : NodeKind) (span : Span) (parts : List Unfolding)

namespace Unfolding

mutual

def size : Unfolding → Nat
  | .node _ _ parts => sizeAll parts + 1

def sizeAll : List Unfolding → Nat
  | [] => 0
  | part :: rest => part.size + sizeAll rest

end

mutual

def height : Unfolding → Nat
  | .node _ _ parts => heightAll parts + 1

def heightAll : List Unfolding → Nat
  | [] => 0
  | part :: rest => max part.height (heightAll rest)

end

mutual

/-- The unfolding is what stands at a node. -/
def IsAt (t : Tree) : Unfolding → NodeId → Prop
  | .node kind span parts, id => ∃ node, t.node? id = some node ∧ node.kind.blank = kind ∧ node.span = span ∧
      AllAt t parts node.kind.children

def AllAt (t : Tree) : List Unfolding → List NodeId → Prop
  | [], ids => ids = []
  | part :: rest, ids => ∃ id others, ids = id :: others ∧ part.IsAt t id ∧ AllAt t rest others

end

section IsAt

variable {t t' : Tree}

mutual

/-- At a node stands one thing only. -/
theorem IsAt.unique {u v : Unfolding} {id : NodeId} (hu : u.IsAt t id) (hv : v.IsAt t id) : u = v := by
  match u, v with
  | .node kind span parts, .node kind' span' parts' =>
    obtain ⟨node, hnode, rfl, rfl, hparts⟩ := hu
    obtain ⟨node', hnode', rfl, rfl, hparts'⟩ := hv
    cases hnode.symm.trans hnode'
    rw [AllAt.unique hparts hparts']
termination_by structural u

theorem AllAt.unique {us vs : List Unfolding} {ids : List NodeId} (hu : AllAt t us ids)
    (hv : AllAt t vs ids) : us = vs := by
  match us, vs with
  | [], [] => rfl
  | [], _ :: _ =>
    obtain rfl : ids = [] := hu
    obtain ⟨_, _, heq, -⟩ := hv
    cases heq
  | _ :: _, [] =>
    obtain rfl : ids = [] := hv
    obtain ⟨_, _, heq, -⟩ := hu
    cases heq
  | u :: us, v :: vs =>
    obtain ⟨id, others, rfl, hu, hus⟩ := hu
    obtain ⟨_, _, heq, hv, hvs⟩ := hv
    cases heq
    rw [IsAt.unique hu hv, AllAt.unique hus hvs]
termination_by structural us

end

mutual

/-- More nodes behind the ones of a tree change nothing that stands in it. -/
theorem IsAt.begins (hbegins : t.Begins t') {u : Unfolding} {id : NodeId} (h : u.IsAt t id) :
    u.IsAt t' id := by
  match u with
  | .node kind span parts =>
    obtain ⟨node, hnode, hkind, hspan, hparts⟩ := h
    exact ⟨node, hbegins.node?_eq_some hnode, hkind, hspan, AllAt.begins hbegins hparts⟩
termination_by structural u

theorem AllAt.begins (hbegins : t.Begins t') {us : List Unfolding} {ids : List NodeId}
    (h : AllAt t us ids) : AllAt t' us ids := by
  match us with
  | [] => exact h
  | u :: us =>
    obtain ⟨id, others, hids, hu, hus⟩ := h
    exact ⟨id, others, hids, IsAt.begins hbegins hu, AllAt.begins hbegins hus⟩
termination_by structural us

end

end IsAt
end Unfolding

/-! ### Copies -/

/-- The one tree has `n` nodes more than the other, and these refer to each other only, from later ones to
earlier ones. -/
structure Tree.Appends (t t' : Tree) (n : Nat) : Prop extends t.Begins t' where
  size_eq : t'.size = t.size + n
  closed : ∀ {parent : NodeId} {node : Node}, t.size ≤ parent.index → t'.node? parent = some node →
    ∀ child ∈ node.kind.children, t.size ≤ child.index ∧ child.index < parent.index

namespace Tree

variable {t t' t'' : Tree} {n m : Nat}

theorem Appends.refl (t : Tree) : t.Appends t 0 where
  toBegins := .refl t
  size_eq := rfl
  closed hle hnode := absurd (index_lt_of_node? hnode) (Nat.not_lt.mpr hle)

theorem Appends.trans (h : t.Appends t' n) (h' : t'.Appends t'' m) : t.Appends t'' (n + m) where
  toBegins := h.toBegins.trans h'.toBegins
  size_eq := by rw [h'.size_eq, h.size_eq, Nat.add_assoc]
  closed {parent node} hle hnode child hchild := by
    by_cases hparent : parent.index < t'.size
    · exact h.closed hle ((h'.node? hparent).symm.trans hnode) child hchild
    · obtain ⟨hchild, hlt⟩ := h'.closed (Nat.le_of_not_lt hparent) hnode child hchild
      exact ⟨h.size_le.trans hchild, hlt⟩

theorem Appends.push (h : t.Appends t' n) {kind : NodeKind}
    (hchildren : ∀ child ∈ kind.children, t.size ≤ child.index ∧ child.index < t'.size) (span : Span) :
    t.Appends (t'.push kind span).2 (n + 1) where
  toBegins := h.toBegins.trans (.push t' kind span)
  size_eq := by rw [size_push, h.size_eq, Nat.add_assoc]
  closed {parent node} hle hnode := by
    rw [node?_push] at hnode
    split_ifs at hnode with hparent
    · cases hnode
      rw [hparent]
      exact hchildren
    · exact h.closed hle hnode

end Tree

namespace Unfolding

mutual

/-- A copy is what was copied, written out behind the nodes of the tree. -/
theorem IsAt.copyWithin {u : Unfolding} {t : Tree} {id : NodeId} (h : u.IsAt t id) {fuel : Nat}
    (hfuel : u.height ≤ fuel) :
    ∃ copy t', (Tree.copyWithin fuel id).run t = .ok (copy, t') ∧ t.Appends t' u.size ∧
      copy.index + 1 = t'.size ∧ u.IsAt t' copy := by
  match u, fuel with
  | .node kind span parts, 0 => exact absurd hfuel (Nat.not_succ_le_zero _)
  | .node kind span parts, fuel + 1 =>
    obtain ⟨node, hnode, rfl, rfl, hparts⟩ := h
    obtain ⟨ids, t₁, hrun, happends, hcopies, hids⟩ := AllAt.copyWithin hparts (Nat.le_of_succ_le_succ hfuel)
    obtain ⟨kind', hkind, hchildren, hblank⟩ := Tree.run_mapChildren hrun
    rw [← hchildren] at hids hcopies
    refine ⟨⟨t₁.size⟩, (t₁.push kind' node.span).2, ?_, happends.push hids node.span, ?_, ?_⟩
    · rw [Tree.copyWithin_of_some hnode, StateT.run_bind, hkind]
      rfl
    · rw [Tree.size_push]
    · exact ⟨⟨kind', node.span⟩, by rw [Tree.node?_push, if_pos rfl], hblank, rfl,
        AllAt.begins (.push t₁ kind' node.span) hcopies⟩
termination_by structural u

theorem AllAt.copyWithin {us : List Unfolding} {t : Tree} {ids : List NodeId} (h : AllAt t us ids)
    {fuel : Nat} (hfuel : heightAll us ≤ fuel) :
    ∃ copies t', (ids.mapM (Tree.copyWithin fuel)).run t = .ok (copies, t') ∧ t.Appends t' (sizeAll us) ∧
      AllAt t' us copies ∧ ∀ copy ∈ copies, t.size ≤ copy.index ∧ copy.index < t'.size := by
  match us with
  | [] =>
    obtain rfl : ids = [] := h
    exact ⟨[], t, rfl, .refl t, rfl, by simp⟩
  | u :: us =>
    obtain ⟨id, others, rfl, hu, hus⟩ := h
    obtain ⟨hheight, hheights⟩ := max_le_iff.mp hfuel
    obtain ⟨copy, t₁, hcopy, happends, hlast, hat⟩ := IsAt.copyWithin hu hheight
    obtain ⟨copies, t₂, hcopies, happends', hats, hmem⟩ :=
      AllAt.copyWithin (AllAt.begins happends.toBegins hus) hheights
    have hpos : 0 < u.size := by
      cases u
      exact Nat.succ_pos _
    have hsize := happends.size_eq
    have hsize' := happends'.size_le
    refine ⟨copy :: copies, t₂, ?_, happends.trans happends', ?_, ?_⟩
    · rw [List.mapM_cons, StateT.run_bind, hcopy]
      change ((others.mapM (Tree.copyWithin fuel) >>= fun rest => pure (copy :: rest)).run t₁) = _
      rw [StateT.run_bind, hcopies]
      rfl
    · exact ⟨copy, copies, rfl, IsAt.begins happends'.toBegins hat, hats⟩
    · refine List.forall_mem_cons.mpr ⟨by omega, fun other hother => ?_⟩
      obtain ⟨hle, hlt⟩ := hmem other hother
      omega
termination_by structural us

end

end Unfolding

/-- A block of a sum and its summand: one literal, which is reached three times. -/
def Tree.shared : Tree where
  nodes := #[⟨.int 1, ⟨0, 1⟩⟩, ⟨.binary .add ⟨0⟩ ⟨0⟩, ⟨0, 2⟩⟩, ⟨.block [⟨1⟩, ⟨0⟩], ⟨0, 3⟩⟩]
  files := ⟨["unit"]⟩

end UnitCompiler
