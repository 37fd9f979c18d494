import Mathlib
import UnitCompiler.Proofs.Relocation.Tree

/-!
# Nodes rebuilt from their children

To rebuild a node from its children is one law for all kinds of nodes, `Rebuilds`: the children are visited
from left to right, and what a node says besides them stays.
-/

namespace UnitCompiler

/-! ### Nodes without their children -/

def SwitchCase.blank (_ : SwitchCase) : SwitchCase := ⟨⟨0⟩, ⟨0⟩⟩

def BuiltinArg.blank : BuiltinArg → BuiltinArg
  | .type written => .type written
  | .expr _ => .expr ⟨0⟩

def FieldDecl.blank (d : FieldDecl) : FieldDecl := { d with default := d.default.map fun _ => ⟨0⟩ }

def AliasTarget.blank : AliasTarget → AliasTarget
  | .type written => .type written
  | .value _ => .value ⟨0⟩

/-- The node with the same number for each of its children. -/
def NodeKind.blank : NodeKind → NodeKind
  | .unary op _ => .unary op ⟨0⟩
  | .binary op _ _ => .binary op ⟨0⟩ ⟨0⟩
  | .get _ name => .get ⟨0⟩ name
  | .index _ _ => .index ⟨0⟩ ⟨0⟩
  | .call _ args => .call ⟨0⟩ (args.map fun _ => ⟨0⟩)
  | .cast type _ => .cast type ⟨0⟩
  | .arrayLit values => .arrayLit (values.map fun _ => ⟨0⟩)
  | .aggregateLit type values => .aggregateLit type (values.map fun _ => ⟨0⟩)
  | .builtin name args => .builtin name (args.map BuiltinArg.blank)
  | .block items => .block (items.map fun _ => ⟨0⟩)
  | .ifElse _ _ no => .ifElse ⟨0⟩ ⟨0⟩ (no.map fun _ => ⟨0⟩)
  | .whileLoop _ _ => .whileLoop ⟨0⟩ ⟨0⟩
  | .forLoop init cond step _ =>
    .forLoop (init.map fun _ => ⟨0⟩) (cond.map fun _ => ⟨0⟩) (step.map fun _ => ⟨0⟩) ⟨0⟩
  | .foreach name _ length _ => .foreach name ⟨0⟩ (length.map fun _ => ⟨0⟩) ⟨0⟩
  | .switch _ cases default => .switch ⟨0⟩ (cases.map SwitchCase.blank) (default.map fun _ => ⟨0⟩)
  | .ret value => .ret (value.map fun _ => ⟨0⟩)
  | .defer _ => .defer ⟨0⟩
  | .destroy _ => .destroy ⟨0⟩
  | .staticIf _ _ no => .staticIf ⟨0⟩ ⟨0⟩ (no.map fun _ => ⟨0⟩)
  | .variable d => .variable { d with init := d.init.map fun _ => ⟨0⟩ }
  | .function d => .function { d with body := d.body.map fun _ => ⟨0⟩ }
  | .aggregate d =>
    .aggregate { d with fields := d.fields.map FieldDecl.blank, methods := d.methods.map fun _ => ⟨0⟩ }
  | .alias d => .alias { d with target := d.target.blank }
  | .space name items => .space name (items.map fun _ => ⟨0⟩)
  | .int value => .int value
  | .float value => .float value
  | .bool value => .bool value
  | .char code => .char code
  | .str value => .str value
  | .null => .null
  | .ident name args => .ident name args
  | .sizeOf type => .sizeOf type
  | .breakLoop => .breakLoop
  | .continueLoop => .continueLoop

theorem NodeKind.of_blank_block {kind : NodeKind} {items : List NodeId} (h : kind.blank = .block items) :
    ∃ items', kind = .block items' := by
  cases kind <;> simp [NodeKind.blank] at h ⊢

theorem NodeKind.of_blank_function {kind : NodeKind} {decl : FunctionDecl}
    (h : kind.blank = .function decl) : ∃ decl', kind = .function decl' := by
  cases kind <;> simp [NodeKind.blank] at h ⊢

/-! ### Rebuilding -/

/-- The action gives back `a` with its nodes replaced by what `f` makes of them, from left to right, and
the rest, which is all but the numbers of nodes, as it is. -/
def Rebuilds {m : Type → Type} [Monad m] {α : Type} (f : NodeId → m NodeId) (nodes : α → List NodeId)
    (rest : α → α) (x : m α) (a : α) : Prop :=
  (fun a' => (nodes a', rest a')) <$> x = (fun ids => (ids, rest a)) <$> (nodes a).mapM f

namespace Rebuilds

variable {m : Type → Type} [Monad m] [LawfulMonad m] {f : NodeId → m NodeId} {α β : Type}
  {nodes : α → List NodeId} {rest : α → α} {x : m α} {a : α}

theorem node (id : NodeId) : Rebuilds f (fun id => [id]) (fun _ => ⟨0⟩) (f id) id := by
  simp [Rebuilds]

theorem pure (h : nodes a = []) : Rebuilds f nodes rest (pure a) a := by
  simp [Rebuilds, h]

theorem map {nodes' : β → List NodeId} {rest' : β → β} (h : Rebuilds f nodes rest x a) (c : α → β)
    (hnodes : ∀ a, nodes' (c a) = nodes a) (hrest : ∀ a, rest' (c a) = c (rest a)) :
    Rebuilds f nodes' rest' (c <$> x) (c a) := by
  have hmap := congrArg (Functor.map fun p : List NodeId × α => (p.1, c p.2)) h
  simpa only [Rebuilds, Functor.map_map, Function.comp_def, hnodes, hrest] using hmap

/-- What is put together from a part with all of its nodes. -/
theorem of_map {nodes' : β → List NodeId} {rest' : β → β} {y : m β} {b : β} (h : Rebuilds f nodes rest x a)
    (c : α → β) (hnodes : ∀ a, nodes' (c a) = nodes a) (hrest : ∀ a, rest' (c a) = c (rest a))
    (hy : y = c <$> x) (hb : b = c a) : Rebuilds f nodes' rest' y b := by
  subst hy hb
  exact h.map c hnodes hrest

theorem pair {nodes' : β → List NodeId} {rest' : β → β} {y : m β} {b : β}
    (hx : Rebuilds f nodes rest x a) (hy : Rebuilds f nodes' rest' y b) :
    Rebuilds f (fun p : α × β => nodes p.1 ++ nodes' p.2) (fun p => (rest p.1, rest' p.2))
      (do let a ← x; let b ← y; Pure.pure (a, b)) (a, b) := by
  have hseq := congrArg₂ (fun (p : m (List NodeId × α)) (q : m (List NodeId × β)) =>
    p >>= fun a => q >>= fun b => Pure.pure (a.1 ++ b.1, a.2, b.2)) hx hy
  simpa [Rebuilds, List.mapM_append] using hseq

theorem list {g : α → m α} (h : ∀ a, Rebuilds f nodes rest (g a) a) (as : List α) :
    Rebuilds f (List.flatMap nodes) (List.map rest) (as.mapM g) as := by
  induction as with
  | nil => exact .pure rfl
  | cons a as ih =>
    refine ((h a).pair ih).of_map (fun p => p.1 :: p.2) (fun _ => rfl) (fun _ => rfl) ?_ rfl
    simp only [List.mapM_cons, map_bind, map_pure]

theorem option (o : Option NodeId) :
    Rebuilds f Option.toList (Option.map fun _ => ⟨0⟩) (NodeKind.mapOption f o) o := by
  cases o with
  | none => exact .pure rfl
  | some id => exact (node id).map some (fun _ => rfl) fun _ => rfl

theorem ids (ids : List NodeId) :
    Rebuilds f (fun ids => ids) (List.map fun _ => ⟨0⟩) (ids.mapM f) ids := by
  exact (list node ids).of_map id (fun ids => by simp) (fun ids => by simp) (id_map _).symm rfl

theorem case (c : SwitchCase) :
    Rebuilds f (fun c => [c.value, c.body]) SwitchCase.blank (NodeKind.mapCase f c) c := by
  refine ((node c.value).pair (node c.body)).of_map (fun p => ⟨p.1, p.2⟩) (fun _ => rfl) (fun _ => rfl) ?_ rfl
  simp only [NodeKind.mapCase, map_bind, map_pure]

theorem builtinArg (arg : BuiltinArg) :
    Rebuilds f (fun arg : BuiltinArg => (match arg with | .expr node => some node | .type _ => none).toList)
      BuiltinArg.blank (NodeKind.mapBuiltinArg f arg) arg := by
  cases arg with
  | type type => exact .pure rfl
  | expr id => exact (node id).map BuiltinArg.expr (fun _ => rfl) fun _ => rfl

theorem field (d : FieldDecl) : Rebuilds f (·.default.toList) FieldDecl.blank (NodeKind.mapField f d) d := by
  refine (option d.default).of_map (fun default => { d with default }) (fun _ => rfl) (fun _ => rfl) ?_ rfl
  simp only [NodeKind.mapField, map_eq_pure_bind]

theorem aliasTarget (target : AliasTarget) :
    Rebuilds f (fun | .value node => [node] | .type _ => []) AliasTarget.blank
      (NodeKind.mapAliasTarget f target) target := by
  cases target with
  | type written => exact .pure rfl
  | value id => exact (node id).map AliasTarget.value (fun _ => rfl) fun _ => rfl

/-- Every child of a node is visited, from left to right, and nothing else of it changes. -/
theorem mapChildren (kind : NodeKind) :
    Rebuilds f NodeKind.children NodeKind.blank (kind.mapChildren f) kind := by
  cases kind with
  | unary op operand => exact (node operand).of_map (.unary op) (fun _ => rfl) (fun _ => rfl) rfl rfl
  | cast type value => exact (node value).of_map (.cast type) (fun _ => rfl) (fun _ => rfl) rfl rfl
  | defer stmt => exact (node stmt).of_map .defer (fun _ => rfl) (fun _ => rfl) rfl rfl
  | destroy value => exact (node value).of_map .destroy (fun _ => rfl) (fun _ => rfl) rfl rfl
  | arrayLit values => exact (ids values).of_map .arrayLit (fun _ => rfl) (fun _ => rfl) rfl rfl
  | aggregateLit type values =>
    exact (ids values).of_map (.aggregateLit type) (fun _ => rfl) (fun _ => rfl) rfl rfl
  | block items => exact (ids items).of_map .block (fun _ => rfl) (fun _ => rfl) rfl rfl
  | space name items => exact (ids items).of_map (.space name) (fun _ => rfl) (fun _ => rfl) rfl rfl
  | ret value => exact (option value).of_map .ret (fun _ => rfl) (fun _ => rfl) rfl rfl
  | builtin name args =>
    exact (list builtinArg args).of_map (.builtin name)
      (fun args => List.filterMap_eq_flatMap_toList ..) (fun _ => rfl) rfl rfl
  | get base name =>
    refine (node base).of_map (.get · name) (fun _ => rfl) (fun _ => rfl) ?_ rfl
    simp only [NodeKind.mapChildren, map_eq_pure_bind]
  | binary op lhs rhs =>
    refine ((node lhs).pair (node rhs)).of_map (fun p => .binary op p.1 p.2)
      (fun _ => rfl) (fun _ => rfl) ?_ rfl
    simp only [NodeKind.mapChildren, map_bind, map_pure]
  | index base place =>
    refine ((node base).pair (node place)).of_map (fun p => .index p.1 p.2)
      (fun _ => rfl) (fun _ => rfl) ?_ rfl
    simp only [NodeKind.mapChildren, map_bind, map_pure]
  | whileLoop cond body =>
    refine ((node cond).pair (node body)).of_map (fun p => .whileLoop p.1 p.2)
      (fun _ => rfl) (fun _ => rfl) ?_ rfl
    simp only [NodeKind.mapChildren, map_bind, map_pure]
  | call callee args =>
    refine ((node callee).pair (ids args)).of_map (fun p => .call p.1 p.2)
      (fun _ => rfl) (fun _ => rfl) ?_ rfl
    simp only [NodeKind.mapChildren, map_bind, map_pure]
  | ifElse cond yes no =>
    refine ((node cond).pair ((node yes).pair (option no))).of_map (fun p => .ifElse p.1 p.2.1 p.2.2)
      (fun _ => rfl) (fun _ => rfl) ?_ rfl
    simp only [NodeKind.mapChildren, map_bind, map_pure, bind_assoc, pure_bind]
  | staticIf cond yes no =>
    refine ((node cond).pair ((node yes).pair (option no))).of_map (fun p => .staticIf p.1 p.2.1 p.2.2)
      (fun _ => rfl) (fun _ => rfl) ?_ rfl
    simp only [NodeKind.mapChildren, map_bind, map_pure, bind_assoc, pure_bind]
  | forLoop init cond step body =>
    refine ((option init).pair ((option cond).pair ((option step).pair (node body)))).of_map
      (fun p => .forLoop p.1 p.2.1 p.2.2.1 p.2.2.2) (fun _ => by simp [NodeKind.children])
      (fun _ => rfl) ?_ rfl
    simp only [NodeKind.mapChildren, map_bind, map_pure, bind_assoc, pure_bind]
  | foreach name data length body =>
    refine ((node data).pair ((option length).pair (node body))).of_map
      (fun p => .foreach name p.1 p.2.1 p.2.2) (fun _ => rfl) (fun _ => rfl) ?_ rfl
    simp only [NodeKind.mapChildren, map_bind, map_pure, bind_assoc, pure_bind]
  | switch value cases default =>
    refine ((node value).pair ((list case cases).pair (option default))).of_map
      (fun p => .switch p.1 p.2.1 p.2.2) (fun _ => rfl) (fun _ => rfl) ?_ rfl
    simp only [NodeKind.mapChildren, map_bind, map_pure, bind_assoc, pure_bind]
  | «variable» d =>
    refine (option d.init).of_map (fun init => .variable { d with init }) (fun _ => rfl) (fun _ => rfl) ?_ rfl
    simp only [NodeKind.mapChildren, map_eq_pure_bind]
  | function d =>
    refine (option d.body).of_map (fun body => .function { d with body }) (fun _ => rfl) (fun _ => rfl) ?_ rfl
    simp only [NodeKind.mapChildren, map_eq_pure_bind]
  | aggregate d =>
    refine ((list field d.fields).pair (ids d.methods)).of_map
      (fun p => .aggregate { d with fields := p.1, methods := p.2 })
      (fun p => congrArg (· ++ p.2) (List.filterMap_eq_flatMap_toList ..)) (fun _ => rfl) ?_ rfl
    simp only [NodeKind.mapChildren, map_bind, map_pure]
  | «alias» d =>
    refine (aliasTarget d.target).of_map (fun target => .alias { d with target })
      (fun _ => rfl) (fun _ => rfl) ?_ rfl
    simp only [NodeKind.mapChildren, map_eq_pure_bind]
  | int _ | float _ | bool _ | char _ | str _ | null | ident _ _ | sizeOf _ | breakLoop
  | continueLoop => exact .pure rfl

end Rebuilds

/-! ### Copied children -/

namespace Tree

variable {t t' : Tree}

theorem run_bind_eq_ok {α β : Type} {x : StateT Tree (Except CopyError) α}
    {f : α → StateT Tree (Except CopyError) β} {b : β} :
    (x >>= f).run t = .ok (b, t') ↔
      ∃ a t₁, x.run t = .ok (a, t₁) ∧ (f a).run t₁ = .ok (b, t') := by
  rw [StateT.run_bind]
  cases x.run t with
  | error e => exact ⟨nofun, nofun⟩
  | ok result =>
    constructor
    · exact fun h => ⟨result.1, result.2, rfl, h⟩
    · rintro ⟨a, t₁, heq, h⟩
      cases heq
      exact h

/-- Of two actions with the same results, seen through `F` and `G`, both or none come to an end. -/
theorem exists_run_of_map_eq {α β γ : Type} {x : StateT Tree (Except CopyError) α}
    {y : StateT Tree (Except CopyError) β} {F : α → γ} {G : β → γ} (h : F <$> x = G <$> y) {b : β}
    (hy : y.run t = .ok (b, t')) : ∃ a, x.run t = .ok (a, t') ∧ F a = G b := by
  have hrun := congrArg (StateT.run · t) h
  simp only [StateT.run_map, hy] at hrun
  cases hx : x.run t with
  | error e =>
    rw [hx] at hrun
    cases hrun
  | ok result =>
    rw [hx] at hrun
    obtain ⟨a, t₁⟩ := result
    simp only [Functor.map, Except.map, Except.ok.injEq, Prod.mk.injEq] at hrun
    obtain ⟨heq, rfl⟩ := hrun
    exact ⟨a, rfl, heq⟩

variable {f : NodeId → StateT Tree (Except CopyError) NodeId} {kind kind' : NodeKind}

/-- When its children can be copied, so can a node. -/
theorem run_mapChildren {ids : List NodeId} (h : (kind.children.mapM f).run t = .ok (ids, t')) :
    ∃ kind', (kind.mapChildren f).run t = .ok (kind', t') ∧ kind'.children = ids ∧
      kind'.blank = kind.blank := by
  obtain ⟨kind', hrun, heq⟩ := exists_run_of_map_eq (Rebuilds.mapChildren kind) h
  obtain ⟨hids, hblank⟩ := Prod.mk.inj heq
  exact ⟨kind', hrun, hids, hblank⟩

/-- A node is copied with its children. -/
theorem run_children (h : (kind.mapChildren f).run t = .ok (kind', t')) :
    (kind.children.mapM f).run t = .ok (kind'.children, t') ∧ kind'.blank = kind.blank := by
  obtain ⟨ids, hrun, heq⟩ := exists_run_of_map_eq (Rebuilds.mapChildren kind).symm h
  obtain ⟨rfl, hblank⟩ := Prod.mk.inj heq
  exact ⟨hrun, hblank.symm⟩

end Tree

end UnitCompiler
