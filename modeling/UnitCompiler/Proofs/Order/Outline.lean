import UnitCompiler.Proofs.Order.Registration
import UnitCompiler.Proofs.Phases.Emitting

/-!
# Outlines

The outline of a unit is known before its declarations are checked: its tree, and the names of its
aggregates and type aliases.  Types that name no alias and ask for no generic aggregate are resolved in the
same way wherever the outline is known, whichever declarations have been checked by then.
-/

namespace UnitCompiler

structure Outline where
  tree : Tree
  /-- The names of the aggregates. -/
  aggregates : List String
  /-- The names of the aliases of types. -/
  aliases : List String

namespace NodeKind

/-- The name of an aggregate that is no template. -/
def aggregateName? : NodeKind → Option String
  | .aggregate decl => if decl.isTemplate then none else some decl.name
  | _ => none

def methods : NodeKind → List NodeId
  | .aggregate decl => decl.methods
  | _ => []

end NodeKind

namespace Tree

def aggregateName? (t : Tree) (id : NodeId) : Option String :=
  (t.node? id).bind (·.kind.aggregateName?)

/-- A declaration and the methods below it. -/
def declaredNodes (t : Tree) (id : NodeId) : List NodeId :=
  id :: ((t.node? id).map (·.kind.methods)).getD []

theorem HasKind.aggregateName? {t : Tree} {id : NodeId} {kind : NodeKind} (h : t.HasKind id kind) :
    t.aggregateName? id = kind.aggregateName? := by
  obtain ⟨span, hnode⟩ := h
  rw [Tree.aggregateName?, hnode]
  rfl

theorem HasKind.declaredNodes {t : Tree} {id : NodeId} {kind : NodeKind} (h : t.HasKind id kind) :
    t.declaredNodes id = id :: kind.methods := by
  obtain ⟨span, hnode⟩ := h
  rw [Tree.declaredNodes, hnode]
  rfl

end Tree

/-- An expression of literals and operators. -/
structure Tree.IsClosed (t : Tree) (id : NodeId) : Prop where
  typeFree : t.TypeFree id
  nameless : ∀ name, ¬ t.Mentions id name

namespace Outline

variable {o : Outline}

/-- A written type without generic aggregates and names of aliases, whose lengths name nothing. -/
inductive Plain (o : Outline) : SourceType → Prop where
  | void : o.Plain .void
  | scalar (kind : Scalar) : o.Plain (.scalar kind)
  | templateParam (name : String) : o.Plain (.templateParam name)
  | pointer {inner} (h : o.Plain inner) : o.Plain (.pointer inner)
  | const {inner} (h : o.Plain inner) : o.Plain (.const inner)
  | alias (name : String) {target} (h : o.Plain target) : o.Plain (.alias name target)
  | array {inner length} (h : o.Plain inner)
    (hlength : ∀ node, length = .expr node → o.tree.IsClosed node) : o.Plain (.array inner length)
  | function {ret params} (variadic : Bool) (hret : o.Plain ret) (hparams : ∀ p ∈ params, o.Plain p) :
    o.Plain (.function ret params variadic)
  | named {name} (h : name ∉ o.aliases) : o.Plain (.aggregate name [])

theorem Plain.substitute {type : SourceType} (h : o.Plain type) : o.Plain (type.substitute {}) := by
  induction h with
  | void => exact .void
  | scalar kind => exact .scalar kind
  | templateParam name => exact .templateParam name
  | pointer _ ih => exact .pointer ih
  | const _ ih => exact .const ih
  | «alias» name _ ih => exact .alias name ih
  | @array inner length _ hlength ih =>
    refine .array ih ?_
    cases length with
    | expr node => exact hlength
    | fixed _ | param _ => rintro node ⟨⟩
  | @function ret params variadic _ _ ihret ihparams =>
    refine .function variadic ihret ?_
    clear * - ihparams
    induction params with
    | nil => rintro p ⟨⟩
    | cons param rest ih =>
      obtain ⟨hparam, hrest⟩ := List.forall_mem_cons.mp ihparams
      exact List.forall_mem_cons.mpr ⟨hparam, ih hrest⟩
  | named h => exact .named h

/-- A context between the declarations of a unit: outside of namespaces, functions and instances. -/
structure Matches (o : Outline) (c : Context) : Prop where
  tree : c.tree = o.tree
  subst : c.subst = {}
  space : c.space = []
  function : c.function = none
  declared : ∀ name, (c.symbols.declaredAggregates.get? name).isSome = true ↔ name ∈ o.aggregates
  aggregates : ∀ name, (c.symbols.aggregates.get? name).isSome = true → name ∈ o.aggregates
  aliases : ∀ name target, c.symbols.aliases.get? name = some (.type target) → name ∈ o.aliases

/-- Two contexts of a unit. -/
structure Alike (o : Outline) (c e : Context) : Prop where
  first : o.Matches c
  second : o.Matches e

instance : Context.Carries o.Alike where
  tree h := by
    rw [h.first.tree, h.second.tree]
    exact .refl _

variable {c : Context}

theorem Matches.qualify (h : o.Matches c) (name : String) : c.qualify name = name := by
  rw [Context.qualify, h.space]
  rfl

theorem Matches.candidates (h : o.Matches c) (name : String) : c.candidates name = [name] := by
  unfold Context.candidates
  rw [h.space]
  rfl

theorem Matches.knowsAggregate (h : o.Matches c) (name : String) :
    c.symbols.knowsAggregate name = true ↔ name ∈ o.aggregates := by
  unfold SymbolTables.knowsAggregate Table.contains
  rw [Bool.or_eq_true, h.declared]
  exact ⟨fun hname => hname.elim (h.aggregates name) id, .inr⟩

/-- A name that is no alias stands for the aggregate of the name. -/
theorem Matches.resolveNamed_eq_ok (h : o.Matches c) {name : String} {type : SourceType}
    (hname : name ∉ o.aliases) :
    c.resolveNamed name = .ok type ↔ name ∈ o.aggregates ∧ type = .aggregate name [] := by
  have hlocal : c.localAlias? name = none := by
    rw [Context.localAlias?, h.function]
    rfl
  have hread : c.resolveNamed name = (c.namedAt name name).getD (.error (.unknownType name)) := by
    have hfind : [name].findSome? (c.namedAt name) = c.namedAt name name := by
      rw [List.findSome?_cons]
      cases c.namedAt name name <;> rfl
    unfold Context.resolveNamed
    rw [h.subst, hlocal, h.candidates, hfind]
    rfl
  have hnamed : c.namedAt name name =
      if c.symbols.knowsAggregate name then some (.ok (.aggregate name []))
      else if c.symbols.aggregateTemplates.contains name then
        some (.error (.requiresTemplateArguments name))
      else none := by
    unfold Context.namedAt
    cases hentry : c.symbols.aliases.get? name with
    | none => rfl
    | some entry =>
      cases entry with
      | type target => exact absurd (h.aliases name target hentry) hname
      | value value => rfl
  rw [hread, hnamed, ← h.knowsAggregate name]
  split_ifs with hknown htemplate
  · simp only [Option.getD_some, Except.ok.injEq, hknown, true_and, eq_comm]
  · simp [hknown]
  · simp [hknown]

end Outline

/-! ### What is read between declarations -/

namespace Reads

variable {o : Outline} {R : Context → Context → Prop} {p : Performer} {α β : Type}

/-- A context is read for what it has in common with its relatives. -/
theorem get_bind {f : Context → CompileM β} (h : ∀ c e, R c e → f c = f e)
    (hf : ∀ c, Reads R p (f c)) : Reads R p (get >>= f) := by
  intro c e b c' hR hrun
  obtain ⟨rfl, hagain⟩ := hf c c e b c' hR hrun
  refine ⟨rfl, ?_⟩
  change f e p e = .ok b e
  rw [← h _ e hR]
  exact hagain

theorem map {x : CompileM α} (hx : Reads R p x) (g : α → β) : Reads R p (g <$> x) := by
  rw [map_eq_pure_bind]
  exact hx.bind fun _ => pure _

theorem mapM {g : α → CompileM β} {items : List α} (h : ∀ item ∈ items, Reads R p (g item)) :
    Reads R p (items.mapM g) := by
  induction items with
  | nil => exact pure _
  | cons item rest ih =>
    obtain ⟨hitem, hrest⟩ := List.forall_mem_cons.mp h
    rw [List.mapM_cons]
    exact hitem.bind fun _ => (ih hrest).bind fun _ => pure _

theorem optionMapM {g : α → CompileM β} {item : Option α} (h : ∀ a ∈ item, Reads R p (g a)) :
    Reads R p (item.mapM g) := by
  cases item with
  | none => exact pure _
  | some a => exact (h a rfl).map _

/-- Where a unit is known, an expression that names nothing has its value. -/
theorem foldRequired {id : NodeId} (h : o.tree.IsClosed id) (depth : Nat) (what : String) :
    Reads o.Alike (performWithin depth) (CompileM.foldRequired id what) := by
  have hfold : Reads o.Alike (performWithin depth) (CompileM.perform (.fold id)) :=
    (Reads.fold h.typeFree depth).weaken fun c e hR => {
      tree := by
        rw [hR.first.tree]
        exact .refl _
      later := Context.Carries.tree hR
      constants := fun name hname => absurd hname (h.nameless name) }
  refine hfold.bind fun value => ?_
  cases value with
  | none => exact (locate id).bind fun _ => bail
  | some value => exact pure value

theorem resolveNamed {name : String} (h : name ∉ o.aliases) (location : Location) :
    Reads o.Alike p (CompileM.resolveNamed name location) := by
  intro c e type c' hR hrun
  change CompileM.orBail location (c.resolveNamed name) p c = .ok type c' at hrun
  cases hc : c.resolveNamed name with
  | error problem =>
    rw [hc] at hrun
    exact absurd hrun (CompileM.bail_ne_ok _ _)
  | ok found =>
    rw [hc] at hrun
    cases hrun
    refine ⟨rfl, ?_⟩
    have he : e.resolveNamed name = .ok type :=
      (hR.second.resolveNamed_eq_ok h).mpr ((hR.first.resolveNamed_eq_ok h).mp hc)
    change CompileM.orBail location (e.resolveNamed name) p e = .ok type e
    rw [he]
    rfl

theorem checkDepth (location : Location) (depth : Nat) : Reads R p (CompileM.checkDepth location depth) :=
  ite bail (pure _)

theorem lengthOfValue (location : Location) (value : ConstValue) :
    Reads R p (CompileM.resolveLength.ofValue location value) := by
  rw [CompileM.resolveLength.ofValue]
  cases value.toInt? with
  | none => exact bail
  | some length => exact ite (pure _) bail

theorem resolveLength {length : ArrayLength} (h : ∀ node, length = .expr node → o.tree.IsClosed node)
    (depth : Nat) (location : Location) :
    Reads o.Alike (performWithin depth) (CompileM.resolveLength location length) := by
  cases length with
  | fixed length => exact pure length
  | param name =>
    refine get_bind (fun c e hR => by rw [hR.first.subst, hR.second.subst]) fun c => ?_
    cases c.subst.values.get? name with
    | none => exact bail
    | some value => exact lengthOfValue location value
  | expr node => exact (foldRequired (h node rfl) depth _).bind fun _ => lengthOfValue location _

theorem resolveAt {type : SourceType} (h : o.Plain type) (depth : Nat) (location : Location)
    (level : Nat) : Reads o.Alike (performWithin depth) (CompileM.resolveAt location type level) := by
  induction h generalizing level with
  | void | scalar kind =>
    rw [CompileM.resolveAt]
    exact (checkDepth _ _).bind fun _ => pure _
  | templateParam name =>
    rw [CompileM.resolveAt]
    exact (checkDepth _ _).bind fun _ => bail
  | pointer _ ih | const _ ih | «alias» _ _ ih =>
    rw [CompileM.resolveAt]
    exact (checkDepth _ _).bind fun _ => (ih _).bind fun _ => pure _
  | array _ hlength ih =>
    rw [CompileM.resolveAt]
    exact (checkDepth _ _).bind fun _ => (ih _).bind fun _ =>
      (resolveLength hlength depth location).bind fun _ => pure _
  | @function ret params variadic _ _ ihret ihparams =>
    have hparams (level : Nat) :
        Reads o.Alike (performWithin depth) (CompileM.resolveAll location params level) := by
      clear * - ihparams
      induction params with
      | nil =>
        rw [CompileM.resolveAll]
        exact pure _
      | cons param rest ih =>
        obtain ⟨hparam, hrest⟩ := List.forall_mem_cons.mp ihparams
        rw [CompileM.resolveAll]
        exact (hparam _).bind fun _ => (ih hrest).bind fun _ => pure _
    rw [CompileM.resolveAt]
    exact (checkDepth _ _).bind fun _ => (ihret _).bind fun _ => (hparams _).bind fun _ => pure _
  | named h =>
    rw [CompileM.resolveAt]
    exact (checkDepth _ _).bind fun _ => resolveNamed h location

theorem resolveType {type : SourceType} (h : o.Plain type) (depth : Nat) (location : Location) :
    Reads o.Alike (performWithin depth) (CompileM.resolveType type location) := by
  intro c e resolved c' hR hrun
  change CompileM.resolveAt location (type.substitute c.subst) 0 _ c = .ok resolved c' at hrun
  change c' = c ∧ CompileM.resolveAt location (type.substitute e.subst) 0 _ e = .ok resolved e
  rw [hR.first.subst] at hrun
  rw [hR.second.subst]
  exact resolveAt h.substitute depth location 0 c e resolved c' hR hrun

end Reads
end UnitCompiler
