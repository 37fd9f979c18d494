import UnitCompiler.Compile.Unit
import UnitCompiler.Proofs.Phases.Later

/-!
# Disciplines

Properties of runs that all work keeps, taken step by step.  A discipline says what holds of the run of an
action in a context; it holds of the elementary steps, and of a sequence when it holds of the steps.
-/

namespace UnitCompiler

/-- Work on the function under emission. -/
def Job.isInFunction : Job → Bool
  | .applyDefaults .. | .emitExpr _ | .emitPlace _ | .emitStmt _ => true
  | _ => false

/-- Work on the values in the function under emission. -/
def Job.isEvaluating : Job → Bool
  | .applyDefaults .. | .emitExpr _ | .emitPlace _ => true
  | _ => false

/-- Work on types, constants and the symbols of declarations. -/
def Job.isResolving : Job → Bool
  | .collect .. | .fold _ | .checkFunction .. | .checkAggregate _ none | .complete .. | .needsDefaults .. => true
  | _ => false

/-- Work that any other work may call for: not that on the function under emission, and not registering
the parts of a unit.  The copy of an aggregate template is checked only where an instance is made. -/
def Job.isCommon : Job → Bool
  | .applyDefaults .. | .emitExpr _ | .emitPlace _ | .emitStmt _ | .checkNode _ | .checkAggregate _ (some _) => false
  | _ => true

theorem Job.isCommon_of_isResolving {job : Job} (h : job.isResolving = true) : job.isCommon = true := by
  cases job with
  | checkAggregate id instanceName =>
    cases instanceName with
    | none => rfl
    | some name => cases h
  | collect | fold | checkFunction | complete | needsDefaults => rfl
  | _ => cases h

/-- A change of what a node says that leaves its children alone, and whether it is a block or a
function. -/
structure NodeKind.Relabels (g : NodeKind → NodeKind) : Prop where
  children : ∀ kind, (g kind).children = kind.children
  block : ∀ {kind items}, g kind = .block items ↔ kind = .block items
  function : ∀ {kind decl}, g kind = .function decl → ∃ decl', kind = .function decl'

/-- The aggregate at a site is declared there by the name. -/
def DeclarationSite.Names (site : DeclarationSite) (t : Tree) (name : String) : Prop :=
  ∃ decl : AggregateDecl, t.HasKind site.decl (.aggregate decl) ∧ decl.isTemplate = false ∧
    qualifyIn site.space decl.name = name

/-- A property of runs that the steps outside of functions have and that sequences keep. -/
structure Discipline where
  /-- The run of an action in a context has the property. -/
  At : {α : Type} → CompileM α → Context → Prop
  pure : ∀ {α : Type} (a : α) (c : Context), At (pure a) c
  throw : ∀ {α : Type} (stop : Stop) (c : Context), At (throw stop : CompileM α) c
  bind : ∀ {α β : Type} {x : CompileM α} {f : α → CompileM β} {c : Context},
    At x c → (∀ a c', At (f a) c') → At (x >>= f) c
  get_bind : ∀ {α : Type} {f : Context → CompileM α} {c : Context}, At (f c) c → At (get >>= f) c
  write : ∀ {c c' : Context}, c.Edited c' → c'.function = c.function → At (set c') c
  postpone : ∀ (item : Pending) {c : Context}, c.phase = .check →
    At (modify fun c => { c with pending := c.pending ++ [item] } : CompileM PUnit) c
  declareAggregate : ∀ {name : String} {site : DeclarationSite} {c : Context}, site.Names c.tree name →
    At (CompileM.modifySymbols fun s =>
      { s with declaredAggregates := s.declaredAggregates.insert name site }) c
  copySubtree_modifyKind : ∀ {α : Type} {f : NodeId → CompileM α} (id : NodeId)
    (g : NodeKind → NodeKind), NodeKind.Relabels g → (∀ copy c, At (f copy) c) → ∀ c, At (do
      let copy ← CompileM.copySubtree id
      CompileM.modifyKind copy g
      f copy) c
  within : ∀ {α : Type} {x : CompileM α} (subst : Substitution) (space : List String),
    (∀ c, At x c) → ∀ c, At (CompileM.within subst space x) c
  instantiating : ∀ {α : Type} {x : CompileM α} (subst : Substitution) (space : List String)
    (location : Location), (∀ c, At x c) → ∀ c, At (CompileM.instantiating subst space location x) c
  inSpace : ∀ {α : Type} {x : CompileM α} (name : String), (∀ c, At x c) →
    ∀ c, At (CompileM.inSpace name x) c

namespace Discipline

/-- Every run of the action has the property. -/
def Holds (D : Discipline) {α : Type} (x : CompileM α) : Prop := ∀ c, D.At x c

/-- A property that work on types and constants has as well, and making the aggregates it needs. -/
class Resolves (D : Discipline) : Prop where
  resolve : ∀ job : Job, job.isResolving = true → ∀ c, D.At (CompileM.perform job) c
  ensureInstance : ∀ (name : String) (args : List TemplateArg) (location : Location) (c : Context),
    D.At (CompileM.ensureInstance name args location) c

/-- A property that the common jobs have as well. -/
class Calls (D : Discipline) : Prop where
  job : ∀ job : Job, job.isCommon = true → ∀ c, D.At (CompileM.perform job) c

/-- A property that has nothing to do with the sites of declared aggregates either, nor with the names of
instances. -/
class Makes (D : Discipline) : Prop extends D.Calls where
  checkInstance : ∀ (id : NodeId) (name : String) (c : Context),
    D.At (CompileM.perform (.checkAggregate id (some name))) c
  declareInstance : ∀ (name : String) (site : DeclarationSite) (c : Context),
    D.At (CompileM.modifySymbols fun s =>
      { s with declaredAggregates := s.declaredAggregates.insert name site }) c

/-- A property that changes of the function under emission have as well. -/
class Edits (D : Discipline) : Prop where
  edit : ∀ {c c' : Context}, c.Edited c' → D.At (set c') c

/-- A property that all changes of the code have, beginning and ending functions too. -/
class Writes (D : Discipline) : Prop where
  write : ∀ {c c' : Context}, c.Wrote c' → D.At (set c') c

/-- A property that beginning the emission of a declaration has as well, and defining a type. -/
class Defines (D : Discipline) : Prop where
  markEmitted : ∀ (id : NodeId) (c : Context), D.At (CompileM.setState id .emitted) c
  addType : ∀ (type : TypeDefinition) (c : Context),
    D.At (modify fun c : Context => { c with program := c.program.addType type } : CompileM PUnit) c

/-- A property that emitting expressions has as well. -/
class Evaluates (D : Discipline) : Prop extends D.Resolves, D.Edits where
  evaluate : ∀ job : Job, job.isEvaluating = true → ∀ c, D.At (CompileM.perform job) c
  instantiateFunction : ∀ (name : String) (args : List TemplateArg) (location : Location) (c : Context),
    D.At (CompileM.instantiateFunction name args location) c

/-- A property that all work on functions has. -/
class Emits (D : Discipline) : Prop extends D.Calls, D.Resolves, D.Edits where
  inFunction : ∀ job : Job, job.isInFunction = true → ∀ c, D.At (CompileM.perform job) c
  instantiateFunction : ∀ (name : String) (args : List TemplateArg) (location : Location) (c : Context),
    D.At (CompileM.instantiateFunction name args location) c
  setNesting : ∀ (depth : Nat) (c : Context), D.At (set { c with nestingDepth := depth }) c

variable {D : Discipline} {α β γ : Type} {x y : CompileM α} {f : α → CompileM β} {c : Context}

namespace Holds

theorem pure (a : α) : D.Holds (Pure.pure a) := D.pure a

theorem throw (stop : Stop) : D.Holds (MonadExcept.throw stop : CompileM α) := D.throw stop

theorem fail (problem : Problem) : D.Holds (CompileM.fail problem : CompileM α) := D.throw _

theorem bail (location : Location) (problem : Problem) :
    D.Holds (CompileM.bail location problem : CompileM α) := D.throw _

theorem bind (hx : D.Holds x) (hf : ∀ a, D.Holds (f a)) : D.Holds (x >>= f) :=
  fun c => D.bind (hx c) hf

theorem map (hx : D.Holds x) (g : α → β) : D.Holds (g <$> x) := by
  rw [map_eq_pure_bind]
  exact hx.bind fun a => pure (g a)

theorem get_bind {f : Context → CompileM β} (h : ∀ c, D.Holds (f c)) : D.Holds (get >>= f) :=
  fun c => D.get_bind (h c c)

theorem read : D.Holds (MonadState.get : CompileM Context) := by
  rw [← bind_pure MonadState.get]
  exact get_bind fun c => pure c

theorem ite {q : Prop} [Decidable q] (hx : D.Holds x) (hy : D.Holds y) :
    D.Holds (if q then x else y) := by
  split
  · exact hx
  · exact hy

theorem orBail (location : Location) (result : Except Problem α) :
    D.Holds (CompileM.orBail location result) := by
  cases result with
  | ok a => exact pure a
  | error problem => exact bail location problem

theorem within {subst : Substitution} {space : List String} (hx : D.Holds x) :
    D.Holds (CompileM.within subst space x) := D.within _ _ hx

theorem instantiating {subst : Substitution} {space : List String} {location : Location}
    (hx : D.Holds x) : D.Holds (CompileM.instantiating subst space location x) :=
  D.instantiating _ _ _ hx

theorem inSpace {name : String} (hx : D.Holds x) : D.Holds (CompileM.inSpace name x) :=
  D.inSpace _ hx

theorem job [D.Calls] (job : Job) (h : job.isCommon = true) : D.Holds (CompileM.perform job) :=
  Calls.job job h

theorem resolve [D.Resolves] (job : Job) (h : job.isResolving = true) : D.Holds (CompileM.perform job) :=
  Resolves.resolve job h

theorem evaluate [D.Evaluates] (job : Job) (h : job.isEvaluating = true) : D.Holds (CompileM.perform job) :=
  Evaluates.evaluate job h

theorem statement [D.Emits] (id : NodeId) : D.Holds (CompileM.perform (.emitStmt id)) :=
  Emits.inFunction _ rfl

theorem forM_mem {g : γ → CompileM PUnit} {items : List γ} (h : ∀ item ∈ items, D.Holds (g item)) :
    D.Holds (items.forM g) := by
  induction items with
  | nil => exact pure _
  | cons item rest ih =>
    obtain ⟨hitem, hrest⟩ := List.forall_mem_cons.mp h
    exact hitem.bind fun _ => ih hrest

theorem forM {g : γ → CompileM PUnit} {items : List γ} (h : ∀ item, D.Holds (g item)) :
    D.Holds (items.forM g) :=
  forM_mem fun item _ => h item

theorem mapM {g : γ → CompileM β} {items : List γ} (h : ∀ item, D.Holds (g item)) :
    D.Holds (items.mapM g) := by
  induction items with
  | nil => exact pure _
  | cons item rest ih =>
    rw [List.mapM_cons]
    exact (h item).bind fun _ => ih.bind fun _ => pure _

theorem filterMapM {g : γ → CompileM (Option β)} {items : List γ} (h : ∀ item, D.Holds (g item)) :
    D.Holds (items.filterMapM g) := by
  induction items with
  | nil => exact pure _
  | cons item rest ih =>
    rw [List.filterMapM_cons]
    refine (h item).bind fun o => ?_
    cases o with
    | none => exact ih
    | some b => exact ih.bind fun _ => pure _

theorem optionMapM {g : γ → CompileM β} {item : Option γ} (h : ∀ item, D.Holds (g item)) :
    D.Holds (item.mapM g) := by
  cases item with
  | none => exact pure _
  | some item => exact (h item).map _

theorem at_modify {g : Context → Context} (h : D.At (set (g c)) c) : D.At (modify g : CompileM PUnit) c :=
  D.get_bind (f := fun c => set (g c)) h

/-- A change of the code or the diagnostics outside of functions. -/
theorem write {g : Context → Context} (h : ∀ c : Context, c.Edited (g c))
    (hfunction : ∀ c, (g c).function = c.function) : D.Holds (modify g : CompileM PUnit) :=
  fun c => at_modify (D.write (h c) (hfunction c))

theorem warn (location : Location) (message code : String) :
    D.Holds (CompileM.warn location message code) :=
  write (fun c => .warn c _ _ _) fun c => by
    unfold Context.warn
    split <;> rfl

/-! ### Nodes -/

theorem nodeAt (id : NodeId) : D.Holds (CompileM.nodeAt id) := by
  refine get_bind fun c => ?_
  cases c.tree.node? id with
  | none => exact throw _
  | some node => exact pure node

theorem kindOf (id : NodeId) : D.Holds (CompileM.kindOf id) := (nodeAt id).bind fun _ => pure _

theorem spanOf (id : NodeId) : D.Holds (CompileM.spanOf id) := (nodeAt id).bind fun _ => pure _

theorem locate (id : NodeId) : D.Holds (CompileM.locate id) :=
  (spanOf id).bind fun _ => get_bind fun _ => pure _

theorem beginEmit [D.Defines] (id : NodeId) : D.Holds (CompileM.beginEmit id) :=
  get_bind fun _ => ite (pure _) (bind (Defines.markEmitted id) fun _ => pure _)

/-- A node is read and the context left as it was. -/
theorem at_kindOf {id : NodeId} {f : NodeKind → CompileM β}
    (h : ∀ kind, c.tree.HasKind id kind → D.At (f kind) c) : D.At (CompileM.kindOf id >>= f) c := by
  simp only [CompileM.kindOf, CompileM.nodeAt, bind_assoc, pure_bind]
  refine D.get_bind ?_
  cases hid : c.tree.node? id with
  | none => exact D.throw .missingNode c
  | some node =>
    rw [pure_bind]
    exact h node.kind ⟨node.span, hid⟩

/-- A node is read before anything else is done. -/
theorem at_locate_kindOf {id : NodeId} {f : Location → NodeKind → CompileM β}
    (h : ∀ location kind, c.tree.HasKind id kind → D.At (f location kind) c) :
    D.At (do
      let location ← CompileM.locate id
      f location (← CompileM.kindOf id)) c := by
  simp only [CompileM.locate, CompileM.spanOf, CompileM.kindOf, CompileM.nodeAt, bind_assoc, pure_bind]
  refine D.get_bind ?_
  cases hid : c.tree.node? id with
  | none => exact D.throw .missingNode c
  | some node =>
    simp only [pure_bind]
    refine D.get_bind (D.get_bind ?_)
    rw [hid, pure_bind]
    exact h _ node.kind ⟨node.span, hid⟩

/-! ### The function under emission -/

theorem functionState : D.Holds CompileM.functionState := by
  refine get_bind fun c => ?_
  cases c.function with
  | none => exact fail _
  | some f => exact pure f

/-- The function under emission is changed only where there is one. -/
theorem functionState_bind {g : FunctionState → CompileM β}
    (h : ∀ f c, c.function = some f → D.At (g f) c) : D.Holds (CompileM.functionState >>= g) := by
  have heq : CompileM.functionState >>= g = get >>= fun c : Context =>
      (c.function.map g).getD (CompileM.fail .noFunction) := by
    unfold CompileM.functionState
    rw [bind_assoc]
    refine congrArg (get >>= ·) (funext fun c => ?_)
    cases c.function <;> rfl
  rw [heq]
  refine fun c => D.get_bind ?_
  cases hfunction : c.function with
  | none => exact fail _ c
  | some f => exact h f c hfunction

instance [D.Writes] : D.Edits where
  edit h := Writes.write h.toWrote

theorem finishFunction [D.Writes] : D.Holds CompileM.finishFunction := by
  refine functionState.bind fun f => bind (fun c => at_modify (Writes.write ⟨rfl, fun _ => rfl⟩)) fun _ =>
    get_bind fun c => ?_
  cases f.builder.finish.verify c.program with
  | ok _ => exact fun c => at_modify (Writes.write ⟨rfl, id⟩)
  | error _ => exact throw _

section Editing

variable [D.Edits]

/-- A change of the code, the diagnostics or the function under emission. -/
theorem change {g : Context → Context} (h : ∀ c : Context, c.Edited (g c)) :
    D.Holds (modify g : CompileM PUnit) :=
  fun c => at_modify (Edits.edit (h c))

theorem at_setFunctionState {f f' : FunctionState} (h : c.function = some f)
    (hkeeps : f.builder.Keeps f'.builder) : D.At (CompileM.setFunctionState f') c := by
  have hedited : c.Edited { c with function := some f' } := .setFunction h hkeeps
  exact at_modify (Edits.edit hedited)

theorem setFunctionState_bind {f f' : FunctionState} {x : CompileM β} (h : c.function = some f)
    (hkeeps : f.builder.Keeps f'.builder) (hx : D.Holds x) : D.At (do
      CompileM.setFunctionState f'
      x) c :=
  D.bind (at_setFunctionState h hkeeps) fun _ => hx

theorem modifyFunction {g : FunctionState → FunctionState} (hg : ∀ f, (g f).builder = f.builder) :
    D.Holds (CompileM.modifyFunction g) :=
  functionState_bind fun f _ h => at_setFunctionState h (.of_eq (by rw [hg f]))

theorem build_of {action : BuildM α} (haction : FunctionBuilder.InBody action) :
    D.Holds (CompileM.build action) :=
  functionState_bind fun f _ h => setFunctionState_bind h (haction.keeps f.builder) (pure _)

theorem build (action : BuildM α) [haction : FunctionBuilder.InBody action] : D.Holds (CompileM.build action) :=
  build_of haction

theorem openScope : D.Holds CompileM.openScope := modifyFunction fun _ => by rfl

theorem closeScope : D.Holds CompileM.closeScope :=
  functionState_bind fun _ _ h => setFunctionState_bind h (.refl _) (change fun c => .reportUnused c _)

theorem declare (v : LocalVar) : D.Holds (CompileM.declare v) := by
  refine functionState_bind fun f c h => ?_
  cases f.scope.declare v with
  | none => exact pure _ c
  | some scope => exact setFunctionState_bind h (.refl _) (pure _)

end Editing

theorem setNesting [D.Emits] (g : Nat → Nat) :
    D.Holds (modify fun c => { c with nestingDepth := g c.nestingDepth } : CompileM PUnit) :=
  fun c => at_modify (Emits.setNesting (g c.nestingDepth) c)

end Holds
end Discipline
end UnitCompiler
