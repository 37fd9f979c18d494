import Mathlib
import UnitCompiler.Proofs.Relocation.Mirror

/-!
# Basic actions of two runs

Reading nodes, recording symbols, building code, changing the environment and copying subtrees.
-/

namespace UnitCompiler
namespace Rerun

variable {ρ : Rerun} {α : Type}

/-! ### Nodes -/

theorem nodeAt (id : NodeId) :
    ρ.Mirrors (fun n n' => n' = { n with kind := ρ.kind n.kind } ∧ n.kind.Bounded ρ.base)
      (CompileM.nodeAt id) (CompileM.nodeAt (ρ.node id)) := by
  refine .get_bind fun c u h => ?_
  have hnode : (ρ.context c u).tree.node? (ρ.node id) =
      (c.tree.node? id).map fun n => { n with kind := ρ.kind n.kind } := h.growth.relocated.node id
  rw [hnode]
  cases hid : c.tree.node? id with
  | none => exact .throw _
  | some n => exact .pure ⟨rfl, h.growth.bounded hid⟩

theorem kindOf (id : NodeId) :
    ρ.Mirrors (fun kind kind' => kind' = ρ.kind kind ∧ kind.Bounded ρ.base) (CompileM.kindOf id)
      (CompileM.kindOf (ρ.node id)) :=
  (nodeAt id).bindRel fun _ _ h => .pure ⟨congrArg Node.kind h.1, h.2⟩

theorem spanOf (id : NodeId) : ρ.Mirrors Eq (CompileM.spanOf id) (CompileM.spanOf (ρ.node id)) :=
  (nodeAt id).bindRel fun _ _ h => .pure (congrArg Node.span h.1).symm

theorem locate_eq {c : Context} {u : Tree} (h : ρ.Moves c u) (span : Span) :
    (ρ.context c u).tree.locate span = c.tree.locate span := by
  change u.files.locate span = c.tree.files.locate span
  rw [h.growth.relocated.files]

theorem locate (id : NodeId) : ρ.Mirrors Eq (CompileM.locate id) (CompileM.locate (ρ.node id)) :=
  (spanOf id).bind fun span => .get_bind fun _ _ h => .pure (locate_eq h span).symm

/-! ### Records -/

theorem modifySymbols {f g : SymbolTables → SymbolTables}
    (h : ∀ s, s.Bounded ρ.base → g (ρ.symbols s) = ρ.symbols (f s) ∧ (f s).Bounded ρ.base) :
    ρ.Mirrors Eq (CompileM.modifySymbols f) (CompileM.modifySymbols g) := by
  refine .update fun c u hm => ?_
  obtain ⟨hg, hb⟩ := h c.symbols hm.bounded.symbols
  refine ⟨?_, hm.update ⟨hm.bounded.subst, hb, hm.bounded.scope⟩ rfl rfl rfl⟩
  simp only [Relocation.context, ← hg]

theorem setState (id : NodeId) (state : NodeState) :
    ρ.Mirrors Eq (CompileM.setState id state) (CompileM.setState (ρ.node id) state) := by
  refine .update fun c u hm => ⟨?_, hm.update ⟨hm.bounded.subst, hm.bounded.symbols, hm.bounded.scope⟩
    rfl rfl rfl⟩
  simp only [Relocation.context, Table.mapKeys_insert Relocation.node_injective]

theorem beginCheck (id : NodeId) :
    ρ.Mirrors Eq (CompileM.beginCheck id) (CompileM.beginCheck (ρ.node id)) := by
  refine .get_bind fun c u _ => ?_
  rw [Context.stateOf_relocate]
  exact .ite (fun _ => .pure rfl) fun _ => (setState id _).bind fun _ => .pure rfl

theorem beginEmit (id : NodeId) :
    ρ.Mirrors Eq (CompileM.beginEmit id) (CompileM.beginEmit (ρ.node id)) := by
  refine .get_bind fun c u _ => ?_
  rw [Context.stateOf_relocate]
  exact .ite (fun _ => .pure rfl) fun _ => (setState id _).bind fun _ => .pure rfl

end Rerun

namespace Context

variable {ρ : Rerun} {c : Context}

theorem keeps_warn (c : Context) (location : Location) (message code : String) :
    c.Keeps (c.warn location message code) := by
  rw [warn]
  split <;> exact ⟨rfl, rfl, rfl, rfl, rfl, rfl⟩

theorem warn_relocate (c : Context) (u : Tree) (location : Location) (message code : String) :
    (ρ.context c u).warn location message code = ρ.context (c.warn location message code) u := by
  rw [warn, warn, options_relocate]
  by_cases h : c.options.warningsEnabled
  · rw [if_pos h, if_pos h]
    rfl
  · rw [if_neg h, if_neg h]

theorem keeps_reportUnused (c : Context) (vars : List LocalVar) : c.Keeps (c.reportUnused vars) := by
  rw [reportUnused]
  split_ifs with h
  · clear h
    induction vars generalizing c with
    | nil => exact .refl c
    | cons v rest ih => exact (keeps_warn c _ _ _).trans (ih _)
  · exact .refl c

theorem reportUnused_relocate {u : Tree} (h : ρ.Moves c u) (vars : List LocalVar) :
    (ρ.context c u).reportUnused vars = ρ.context (c.reportUnused vars) u := by
  rw [reportUnused, reportUnused, options_relocate]
  by_cases hunused : c.options.warnUnused
  · rw [if_pos hunused, if_pos hunused]
    clear hunused
    induction vars generalizing c with
    | nil => rfl
    | cons v rest ih =>
      rw [List.foldl_cons, List.foldl_cons, Rerun.locate_eq h, warn_relocate]
      exact ih (h.keeps (keeps_warn c _ _ _))
  · rw [if_neg hunused, if_neg hunused]

end Context

namespace Rerun

variable {ρ : Rerun} {α : Type}

theorem warn (location : Location) (message code : String) :
    ρ.Stable (CompileM.warn location message code) :=
  .modifyRest (fun c u => c.warn_relocate u location message code)
    fun c => c.keeps_warn location message code

/-! ### The function under emission -/

theorem functionState : ρ.Mirrors (Same (·.scope.Bounded ρ.base)) CompileM.functionState
    CompileM.functionState := by
  refine .get_bind fun c u h => ?_
  rw [Context.function_relocate]
  cases hf : c.function with
  | none => exact .fail _
  | some f => exact .pure ⟨rfl, h.bounded.scope f hf⟩

theorem setFunctionState {f : FunctionState} (h : f.scope.Bounded ρ.base) :
    ρ.Stable (CompileM.setFunctionState f) :=
  .update fun c u hm => ⟨rfl, hm.update ⟨hm.bounded.subst, hm.bounded.symbols, by
    rintro _ ⟨⟩
    exact h⟩ rfl rfl rfl⟩

theorem modifyFunction {g : FunctionState → FunctionState}
    (h : ∀ f, f.scope.Bounded ρ.base → (g f).scope.Bounded ρ.base) :
    ρ.Stable (CompileM.modifyFunction g) :=
  functionState.bindSame fun f hf => setFunctionState (h f hf)

theorem build (action : BuildM α) : ρ.Stable (CompileM.build action) := by
  refine functionState.bindSame fun f hb => ?_
  rcases action.run f.builder with ⟨a, builder⟩
  have hset : ρ.Stable (CompileM.setFunctionState { f with builder }) := setFunctionState hb
  exact hset.bind fun _ => .pure rfl

theorem openScope : ρ.Stable CompileM.openScope := modifyFunction fun _ h => h.push

theorem closeScope : ρ.Stable CompileM.closeScope := by
  refine functionState.bindSame fun f hb => ?_
  refine (setFunctionState hb.pop).bind fun _ => .update fun c u hm => ?_
  exact ⟨Context.reportUnused_relocate hm _, hm.keeps (c.keeps_reportUnused _)⟩

theorem declare (v : LocalVar) : ρ.Stable (CompileM.declare v) := by
  refine functionState.bindSame fun f hb => ?_
  cases hs : f.scope.declare v with
  | none => exact .pure rfl
  | some scope => exact (setFunctionState (hb.declare hs)).bind fun _ => .pure rfl

/-! ### Environments -/

/-- What is restored behind an action is restored in both runs. -/
theorem restoring {R : α → α → Prop} {x y : CompileM α} (h : ρ.Mirrors R x y)
    {f g : Context → Context}
    (hfg : ∀ c u, ρ.Moves c u → g (ρ.context c u) = ρ.context (f c) u ∧ ρ.Moves (f c) u) :
    ρ.Mirrors R (CompileM.restoring x f) (CompileM.restoring y g) := by
  intro p q hpq c u hm
  rcases h p q hpq c u hm with ⟨a, b, c', u', hx, hy, hab, hm'⟩ | ⟨stop, c', u', hx, hy, hm'⟩
  · obtain ⟨hg, hm''⟩ := hfg c' u' hm'
    exact .inl ⟨a, b, f c', u', by rw [CompileM.restoring, hx], by rw [CompileM.restoring, hy, ← hg],
      hab, hm''⟩
  · obtain ⟨hg, hm''⟩ := hfg c' u' hm'
    exact .inr ⟨stop, f c', u', by rw [CompileM.restoring, hx], by rw [CompileM.restoring, hy, ← hg],
      hm''⟩

theorem within {R : α → α → Prop} {x y : CompileM α} {subst : Substitution}
    (hs : subst.Bounded ρ.base) (space : List String) (h : ρ.Mirrors R x y) :
    ρ.Mirrors R (CompileM.within subst space x) (CompileM.within subst space y) := by
  refine .get_bind fun outer u houter => ?_
  have hset : ρ.Moves { outer with subst, space, function := none } u :=
    houter.update ⟨hs, houter.bounded.symbols, fun _ hf => nomatch hf⟩ rfl rfl rfl
  refine (Mirrors.set rfl hset).bind fun _ => restoring h fun c u hm => ⟨rfl, ?_⟩
  exact hm.update ⟨houter.bounded.subst, hm.bounded.symbols, houter.bounded.scope⟩ rfl rfl rfl

theorem instantiating {R : α → α → Prop} {x y : CompileM α} {subst : Substitution}
    (hs : subst.Bounded ρ.base) (space : List String) (location : Location) (h : ρ.Mirrors R x y) :
    ρ.Mirrors R (CompileM.instantiating subst space location x)
      (CompileM.instantiating subst space location y) := by
  refine .get_bind fun c u hm => ?_
  refine .ite (fun _ => .bail _ _) fun _ => ?_
  have hset : ρ.Moves { c with instantiationDepth := c.instantiationDepth + 1 } u :=
    hm.keeps ⟨rfl, rfl, rfl, rfl, rfl, rfl⟩
  refine (Mirrors.set rfl hset).bind fun _ => restoring (within hs space h) fun c u hm => ⟨rfl, ?_⟩
  exact hm.keeps ⟨rfl, rfl, rfl, rfl, rfl, rfl⟩

theorem inSpace {R : α → α → Prop} {x y : CompileM α} (name : String) (h : ρ.Mirrors R x y) :
    ρ.Mirrors R (CompileM.inSpace name x) (CompileM.inSpace name y) := by
  have hmodify : ρ.Stable (modify fun c : Context => { c with space := c.space ++ [name] }) :=
    .modifyRest (fun _ _ => rfl) fun _ => ⟨rfl, rfl, rfl, rfl, rfl, rfl⟩
  refine hmodify.bind fun _ => ?_
  refine restoring h fun c u hm => ⟨rfl, ?_⟩
  exact hm.keeps ⟨rfl, rfl, rfl, rfl, rfl, rfl⟩

/-! ### Copies -/

/-- A subtree is copied in both runs, to a node behind the original ones. -/
theorem copySubtree (id : NodeId) :
    ρ.Mirrors (fun copy copy' => copy' = ρ.node copy ∧ ρ.base ≤ copy.index) (CompileM.copySubtree id)
      (CompileM.copySubtree (ρ.node id)) := by
  refine .get_bind fun c u hm => ?_
  have htree : (ρ.context c u).tree = u := rfl
  rw [htree]
  rcases hm.growth.copySubtree id with ⟨copy, t', u', ht, hu, hgrowth, hcopy⟩ | ⟨ht, hu⟩
  · rw [ht, hu]
    have hm' : ρ.Moves { c with tree := t' } u' := ⟨hgrowth, hm.options, hm.jobDepth,
      hm.bounded.subst, hm.bounded.symbols, hm.bounded.scope⟩
    exact (Mirrors.set rfl hm').bind fun _ => .pure ⟨rfl, hcopy⟩
  · rw [ht, hu]
    exact .throw _

/-- A node behind the original ones is changed in both runs. -/
theorem modifyKind {id : NodeId} (hid : ρ.base ≤ id.index) {f : NodeKind → NodeKind}
    (hmove : ∀ kind, f (ρ.kind kind) = ρ.kind (f kind))
    (hchildren : ∀ kind, (f kind).children = kind.children)
    (htypes : ∀ kind, (f kind).types = kind.types) :
    ρ.Mirrors Eq (CompileM.modifyKind id f) (CompileM.modifyKind (ρ.node id) f) := by
  intro p q _ c u hm
  have hgrowth := hm.growth.modifyKind (ρ.base_eq ▸ hid) hmove hchildren htypes
  refine .inl ⟨_, _, { c with tree := c.tree.modifyKind id f }, u.modifyKind (ρ.node id) f, rfl, rfl,
    rfl, hgrowth, hm.options, hm.jobDepth, hm.bounded.subst, hm.bounded.symbols, hm.bounded.scope⟩

end Rerun
end UnitCompiler
