import Mathlib
import UnitCompiler.Proofs.Relocation.Emission

/-!
# A context after a reset

A reset keeps the grown tree and forgets everything else.  What was compiled before does not show: the
original nodes are as they were, and every later call gives what it gives on a new context.
-/

namespace UnitCompiler

/-- A call on a context, with its roots. -/
inductive Call where
  | check (roots : List NodeId)
  | emit (roots : List NodeId)

namespace Call

def roots : Call → List NodeId
  | .check roots | .emit roots => roots

def move (f : NodeId → NodeId) : Call → Call
  | .check roots => .check (roots.map f)
  | .emit roots => .emit (roots.map f)

def run (c : Context) : Call → EStateM.Result Stop Context Unit
  | .check roots => c.check roots
  | .emit roots => c.emit roots

end Call

/-- What a call gives: how it ends, and the program and the diagnostics that it leaves. -/
structure Observation where
  result : Except Stop Unit
  program : Program
  log : DiagnosticLog

def Observation.of : EStateM.Result Stop Context Unit → Observation
  | .ok () c => ⟨.ok (), c.program, c.log⟩
  | .error stop c => ⟨.error stop, c.program, c.log⟩

namespace Context

/-- The context in which a call leaves another one, whether it succeeds or not. -/
def left : EStateM.Result Stop Context Unit → Context
  | .ok () c => c
  | .error _ c => c

/-- The context after calls. -/
def after (c : Context) (calls : List Call) : Context :=
  calls.foldl (fun c call => left (call.run c)) c

/-- What calls give one after the other. -/
def observe (c : Context) : List Call → List Observation
  | [] => []
  | call :: rest => .of (call.run c) :: (left (call.run c)).observe rest

end Context

namespace Rerun

variable {ρ : Rerun} {c : Context} {u : Tree}

/-- The repetition of a compilation of `t` over `u`. -/
def of (t : Tree) (options : CompileOptions) (u : Tree) : Rerun where
  base := t.size
  gap := u.size - t.size
  origin := t
  options := options
  base_eq := rfl

/-- A new context and one over a tree with the same original nodes are those of two runs. -/
theorem moves_new {t u : Tree} (ht : t.WellFormed) (options : CompileOptions) (hle : t.size ≤ u.size)
    (hfiles : u.files = t.files) (hkept : ∀ id, id.index < t.size → u.node? id = t.node? id) :
    (of t options u).Moves (Context.new t options) u := by
  have hnode : ∀ id, u.node? ((of t options u).node id) =
      (t.node? id).map fun n => { n with kind := (of t options u).kind n.kind } := by
    intro id
    by_cases hid : id.index < t.size
    · have hsame : (of t options u).node id = id := Relocation.node_of_lt hid
      rw [hsame, hkept id hid]
      obtain ⟨n, hn⟩ := Tree.exists_node? hid
      have hkind : (of t options u).kind n.kind = n.kind :=
        Relocation.kind_of_lt fun child hchild => ht.child_mem ⟨n, hn, hchild⟩
      rw [hn, Option.map_some, hkind]
    · have hmoved : (of t options u).node id = ⟨id.index + (u.size - t.size)⟩ :=
        Relocation.node_of_le (Nat.le_of_not_lt hid)
      rw [hmoved, Tree.node?_eq_none (Nat.le_of_not_lt hid), Tree.node?_eq_none (by simp only; omega)]
      rfl
  have hrelocated : t.Relocated (of t options u).toRelocation u :=
    ⟨hfiles, le_refl _, (Nat.add_sub_cancel' hle).symm, hnode⟩
  have hbounded : (Context.new t options).Bounded t.size :=
    ⟨Substitution.bounded_empty, ⟨Table.all_empty, Table.all_empty, Table.all_empty⟩,
      fun _ hf => nomatch hf⟩
  exact ⟨⟨hrelocated, ht.exists_ranked, ht.bounded, fun _ => rfl, le_refl _, rfl⟩, rfl, rfl, hbounded⟩

theorem Mirrors.run {α : Type} {R : α → α → Prop} {x y : CompileM α} (h : ρ.Mirrors R x y)
    (hm : ρ.Moves c u) : ρ.Parallel R (c.run x) ((ρ.context c u).run y) :=
  h _ _ (performers_performWithin _) c u hm

theorem parallel_check (roots : List NodeId) (h : ρ.Moves c u) :
    ρ.Parallel Eq (c.check roots) ((ρ.context c u).check (roots.map ρ.node)) := by
  have hphase : ρ.Moves { c with phase := .check } u := h.keeps ⟨rfl, rfl, rfl, rfl, rfl, rfl⟩
  have hcheck : ρ.Mirrors Eq (do
      roots.forM fun root => CompileM.perform (.collect root [])
      roots.forM fun root => CompileM.perform (.checkNode root)) (do
      (roots.map ρ.node).forM fun root => CompileM.perform (.collect root [])
      (roots.map ρ.node).forM fun root => CompileM.perform (.checkNode root)) :=
    .bind (.forM roots fun root _ => Mirrors.collect root []) fun _ =>
      .forM roots fun root _ => Mirrors.checkNode root
  exact hcheck.run hphase

theorem parallel_emit (roots : List NodeId) (h : ρ.Moves c u) :
    ρ.Parallel Eq (c.emit roots) ((ρ.context c u).emit (roots.map ρ.node)) := by
  have hphase : ρ.Moves { c with phase := .emit } u := h.keeps ⟨rfl, rfl, rfl, rfl, rfl, rfl⟩
  have hemit : ρ.Mirrors Eq (do
      CompileM.perform .emitPending
      roots.forM fun root => CompileM.perform (.emitDeclaration root)
      CompileM.perform .emitPending) (do
      CompileM.perform .emitPending
      (roots.map ρ.node).forM fun root => CompileM.perform (.emitDeclaration root)
      CompileM.perform .emitPending) :=
    Mirrors.emitPending.bind fun _ => .bind
      (.forM roots fun root _ => Mirrors.emitDeclaration root) fun _ => Mirrors.emitPending
  exact hemit.run hphase

/-- A call and the one with its roots moved go on alike. -/
theorem parallel_run (call : Call) (h : ρ.Moves c u) :
    ρ.Parallel Eq (call.run c) ((call.move ρ.node).run (ρ.context c u)) := by
  cases call with
  | check roots => exact parallel_check roots h
  | emit roots => exact parallel_emit roots h

/-- One call leaves contexts that are relocated again, and the same to see. -/
theorem observe_run (call : Call) (h : ρ.Moves c u) :
    ∃ u', Context.left ((call.move ρ.node).run (ρ.context c u)) =
        ρ.context (Context.left (call.run c)) u' ∧
      ρ.Moves (Context.left (call.run c)) u' ∧
      Observation.of ((call.move ρ.node).run (ρ.context c u)) = .of (call.run c) := by
  rcases parallel_run call h with ⟨_, _, c', u', hx, hy, _, hm⟩ | ⟨stop, c', u', hx, hy, hm⟩
  · rw [hx, hy]
    exact ⟨u', rfl, hm, rfl⟩
  · rw [hx, hy]
    exact ⟨u', rfl, hm, rfl⟩

theorem moves_after (calls : List Call) (h : ρ.Moves c u) : ∃ u', ρ.Moves (c.after calls) u' := by
  induction calls generalizing c u with
  | nil => exact ⟨u, h⟩
  | cons call rest ih =>
    obtain ⟨u', -, hm, -⟩ := observe_run call h
    exact ih hm

theorem observe_calls (calls : List Call) (hroots : ∀ call ∈ calls, ∀ root ∈ call.roots,
    root.index < ρ.base) (h : ρ.Moves c u) : (ρ.context c u).observe calls = c.observe calls := by
  induction calls generalizing c u with
  | nil => rfl
  | cons call rest ih =>
    have hmove : call.move ρ.node = call := by
      have hmap := Relocation.map_node_of_lt (hroots call List.mem_cons_self)
      cases call with
      | check roots => exact congrArg Call.check hmap
      | emit roots => exact congrArg Call.emit hmap
    obtain ⟨u', hleft, hm, hof⟩ := observe_run call h
    rw [hmove] at hleft hof
    rw [Context.observe, Context.observe, hof, hleft,
      ih (fun call' hcall => hroots call' (List.mem_cons_of_mem _ hcall)) hm]

end Rerun

/-- After any calls on a context, the nodes of its first tree are as they were, and a reset brings back
a new context over that tree as far as later calls on nodes of it can tell. -/
theorem Context.observe_reset {t : Tree} (ht : t.WellFormed) (options : CompileOptions)
    (calls later : List Call)
    (hroots : ∀ call ∈ later, ∀ root ∈ call.roots, t.contains root = true) :
    (∀ id, t.contains id = true → ((new t options).after calls).tree.node? id = t.node? id) ∧
      ((new t options).after calls).reset.observe later = (new t options).observe later := by
  obtain ⟨u, hm⟩ := Rerun.moves_after calls
    (Rerun.moves_new ht options (le_refl _) rfl fun _ _ => rfl)
  have hkept : ∀ id, id.index < t.size →
      ((new t options).after calls).tree.node? id = t.node? id := fun id hid => hm.growth.kept hid
  refine ⟨fun id hid => hkept id (of_decide_eq_true hid), ?_⟩
  have hreset : (Rerun.of t options ((new t options).after calls).tree).context (new t options)
      ((new t options).after calls).tree = ((new t options).after calls).reset := by
    simp only [reset, hm.options, hm.jobDepth]
    rfl
  rw [← hreset]
  exact Rerun.observe_calls later (fun call hcall root hroot => of_decide_eq_true
    (hroots call hcall root hroot)) (Rerun.moves_new ht options hm.growth.le hm.growth.files hkept)

/-- A function template and a function that calls its instance for `int`. -/
def Tree.oneInstance : Tree where
  nodes := #[⟨.int 1, ⟨0, 1⟩⟩, ⟨.ret (some ⟨0⟩), ⟨0, 1⟩⟩, ⟨.block [⟨1⟩], ⟨0, 1⟩⟩,
    ⟨.function ⟨"one", [], .scalar .int, some ⟨2⟩, [], [⟨"T", .type⟩], none⟩, ⟨0, 1⟩⟩,
    ⟨.ident "one" [.type (.scalar .int)], ⟨0, 2⟩⟩, ⟨.call ⟨4⟩ [], ⟨0, 2⟩⟩, ⟨.ret (some ⟨5⟩), ⟨0, 2⟩⟩,
    ⟨.block [⟨6⟩], ⟨0, 2⟩⟩, ⟨.function ⟨"main", [], .scalar .int, some ⟨7⟩, [], [], none⟩, ⟨0, 2⟩⟩]
  files := ⟨["unit"]⟩

theorem Tree.wellFormed_oneInstance : oneInstance.WellFormed := by
  refine .of_descending fun {id node} h => ?_
  obtain ⟨index⟩ := id
  have hindex : index < 9 := index_lt_of_node? h
  interval_cases index <;> cases h <;>
    exact ⟨by decide, by simp [oneInstance, NodeKind.Bounded, NodeKind.types, SourceType.Bounded,
      TemplateArg.AllBounded, TemplateArg.Bounded]⟩

/-- The first run copies the template, and the run behind the reset copies it once more. -/
theorem Context.observe_reset_oneInstance :
    ((new .oneInstance {}).after [.check [⟨3⟩, ⟨8⟩], .emit [⟨3⟩, ⟨8⟩]]).tree.size = 13 ∧
      (∀ id, Tree.oneInstance.contains id = true →
        ((new .oneInstance {}).after [.check [⟨3⟩, ⟨8⟩], .emit [⟨3⟩, ⟨8⟩]]).tree.node? id =
          Tree.oneInstance.node? id) ∧
      ((new .oneInstance {}).after [.check [⟨3⟩, ⟨8⟩], .emit [⟨3⟩, ⟨8⟩]]).reset.observe
          [.check [⟨3⟩, ⟨8⟩], .emit [⟨3⟩, ⟨8⟩]] =
        (new .oneInstance {}).observe [.check [⟨3⟩, ⟨8⟩], .emit [⟨3⟩, ⟨8⟩]] :=
  ⟨by decide +kernel, observe_reset Tree.wellFormed_oneInstance {} _ _ (by decide)⟩

end UnitCompiler
