import Mathlib
import UnitCompiler.Compile.Context
import UnitCompiler.Proofs.Compile.Actions
import UnitCompiler.Proofs.Relocation.Context

/-!
# Actions that mirror each other

A compilation and its repetition over a grown tree go on alike when every action, run in a context and
with moved nodes in the relocated context, gives the same result or stops in the same way, in contexts
that are relocated again.
-/

namespace UnitCompiler

/-! ### Contexts whose types are known -/

def AliasEntry.Bounded (base : Nat) : AliasEntry → Prop
  | .type target => target.Bounded base
  | .value _ => True

structure SymbolTables.Bounded (base : Nat) (s : SymbolTables) : Prop where
  functions : s.functions.All fun f => f.subst.Bounded base
  aggregates : s.aggregates.All fun a => a.subst.Bounded base
  aliases : s.aliases.All (AliasEntry.Bounded base)

def Scope.Bounded (base : Nat) (s : Scope) : Prop :=
  ∀ frame ∈ s.frames, frame.aliases.All (AliasEntry.Bounded base)

/-- All types that written types may be replaced by are known. -/
structure Context.Bounded (base : Nat) (c : Context) : Prop where
  subst : c.subst.Bounded base
  symbols : c.symbols.Bounded base
  scope : ∀ f, c.function = some f → f.scope.Bounded base

/-- A context after changes that neither the nodes nor the types depend on. -/
structure Context.Keeps (c c' : Context) : Prop where
  tree : c'.tree = c.tree
  options : c'.options = c.options
  jobDepth : c'.jobDepth = c.jobDepth
  subst : c'.subst = c.subst
  symbols : c'.symbols = c.symbols
  function : c'.function = c.function

theorem Context.Keeps.refl (c : Context) : c.Keeps c := ⟨rfl, rfl, rfl, rfl, rfl, rfl⟩

theorem Context.Keeps.trans {c c' c'' : Context} (h : c.Keeps c') (h' : c'.Keeps c'') : c.Keeps c'' :=
  ⟨h'.tree.trans h.tree, h'.options.trans h.options, h'.jobDepth.trans h.jobDepth,
    h'.subst.trans h.subst, h'.symbols.trans h.symbols, h'.function.trans h.function⟩

namespace Scope

variable {base : Nat} {s : Scope}

theorem Bounded.push (h : s.Bounded base) : s.push.Bounded base := by
  intro frame hframe
  rcases List.mem_cons.mp hframe with rfl | hframe
  · exact Table.all_empty
  · exact h frame hframe

theorem Bounded.pop (h : s.Bounded base) : s.pop.2.Bounded base := by
  obtain ⟨_ | ⟨frame, rest⟩⟩ := s
  · exact h
  · exact fun frame' hframe => h frame' (List.mem_cons_of_mem _ hframe)

theorem Bounded.declare {s' : Scope} (h : s.Bounded base) {v : LocalVar} (hs : s.declare v = some s') :
    s'.Bounded base := by
  obtain ⟨_ | ⟨frame, rest⟩⟩ := s
  · cases hs
  · simp only [Scope.declare] at hs
    split_ifs at hs
    cases hs
    intro frame' hframe
    rcases List.mem_cons.mp hframe with rfl | hframe
    · exact h frame List.mem_cons_self
    · exact h frame' (List.mem_cons_of_mem _ hframe)

theorem Bounded.markUsed (h : s.Bounded base) (name : String) : (s.markUsed name).Bounded base := by
  obtain ⟨frames⟩ := s
  induction frames with
  | nil => exact h
  | cons frame rest ih =>
    intro frame' hframe
    simp only [Scope.markUsed, markFrames] at hframe
    split_ifs at hframe
    · rcases List.mem_cons.mp hframe with rfl | hframe
      · exact h frame List.mem_cons_self
      · exact h frame' (List.mem_cons_of_mem _ hframe)
    · rcases List.mem_cons.mp hframe with rfl | hframe
      · exact h frame' List.mem_cons_self
      · exact ih (fun f hf => h f (List.mem_cons_of_mem _ hf)) frame' hframe

theorem Bounded.declareAlias (h : s.Bounded base) (name : String) {entry : AliasEntry}
    (hentry : entry.Bounded base) : (s.declareAlias name entry).2.Bounded base := by
  obtain ⟨_ | ⟨frame, rest⟩⟩ := s
  · exact h
  · intro frame' hframe
    rcases List.mem_cons.mp hframe with rfl | hframe
    · exact (h frame List.mem_cons_self).insert name hentry
    · exact h frame' (List.mem_cons_of_mem _ hframe)

theorem Bounded.alias? (h : s.Bounded base) {name : String} {entry : AliasEntry}
    (hentry : s.alias? name = some entry) : entry.Bounded base := by
  obtain ⟨frame, hframe, hget⟩ := List.exists_of_findSome?_eq_some hentry
  exact h frame hframe name entry hget

end Scope

/-! ### The two runs -/

/-- A compilation of a tree under options, and its repetition over a grown tree. -/
structure Rerun extends Relocation where
  origin : Tree
  options : CompileOptions
  base_eq : base = origin.size

namespace Rerun

variable (ρ : Rerun)

/-- The contexts of the two runs: the second has the tree `u`. -/
structure Moves (c : Context) (u : Tree) : Prop where
  growth : Growth ρ.toRelocation ρ.origin c.tree u
  options : c.options = ρ.options
  jobDepth : c.jobDepth = Context.jobDepthOf ρ.origin ρ.options
  bounded : c.Bounded ρ.base

/-- Both runs succeed with related results or stop in the same way. -/
def Parallel {α : Type} (R : α → α → Prop) (r r' : EStateM.Result Stop Context α) : Prop :=
  (∃ a b c u, r = .ok a c ∧ r' = .ok b (ρ.context c u) ∧ R a b ∧ ρ.Moves c u) ∨
    ∃ stop c u, r = .error stop c ∧ r' = .error stop (ρ.context c u) ∧ ρ.Moves c u

def Agrees {α : Type} (R : α → α → Prop) (x y : EStateM Stop Context α) : Prop :=
  ∀ c u, ρ.Moves c u → ρ.Parallel R (x c) (y (ρ.context c u))

/-- Performers that do each job, and the job with its node moved, alike. -/
structure Performers (p q : Performer) : Prop where
  collect : ∀ id space, ρ.Agrees Eq (p (.collect id space)) (q (.collect (ρ.node id) space))
  fold : ∀ id, ρ.Agrees Eq (p (.fold id)) (q (.fold (ρ.node id)))
  checkNode : ∀ id, ρ.Agrees Eq (p (.checkNode id)) (q (.checkNode (ρ.node id)))
  checkFunction : ∀ id owner isInstance, ρ.Agrees Eq (p (.checkFunction id owner isInstance))
    (q (.checkFunction (ρ.node id) owner isInstance))
  checkAggregate : ∀ id instanceName, ρ.Agrees Eq (p (.checkAggregate id instanceName))
    (q (.checkAggregate (ρ.node id) instanceName))
  complete : ∀ type location, ρ.Agrees Eq (p (.complete type location)) (q (.complete type location))
  needsDefaults : ∀ type location,
    ρ.Agrees Eq (p (.needsDefaults type location)) (q (.needsDefaults type location))
  applyDefaults : ∀ type slot skipped location,
    ρ.Agrees Eq (p (.applyDefaults type slot skipped location))
      (q (.applyDefaults type slot skipped location))
  emitDeclaration : ∀ id, ρ.Agrees Eq (p (.emitDeclaration id)) (q (.emitDeclaration (ρ.node id)))
  emitFunction : ∀ key, ρ.Agrees Eq (p (.emitFunction key)) (q (.emitFunction key))
  emitAggregate : ∀ name, ρ.Agrees Eq (p (.emitAggregate name)) (q (.emitAggregate name))
  emitPending : ρ.Agrees Eq (p .emitPending) (q .emitPending)
  emitExpr : ∀ id, ρ.Agrees Eq (p (.emitExpr id)) (q (.emitExpr (ρ.node id)))
  emitPlace : ∀ id, ρ.Agrees Eq (p (.emitPlace id)) (q (.emitPlace (ρ.node id)))
  emitStmt : ∀ id, ρ.Agrees Eq (p (.emitStmt id)) (q (.emitStmt (ρ.node id)))

def Mirrors {α : Type} (R : α → α → Prop) (x y : CompileM α) : Prop :=
  ∀ p q, ρ.Performers p q → ρ.Agrees R (x p) (y q)

/-- An action without nodes goes on alike in both runs. -/
abbrev Stable {α : Type} (x : CompileM α) : Prop := ρ.Mirrors Eq x x

/-- The same result, which has a property. -/
def Same {α : Type} (P : α → Prop) (a b : α) : Prop := a = b ∧ P a

/-- A stable action whose results have a property. -/
abbrev Yields {α : Type} (P : α → Prop) (x : CompileM α) : Prop := ρ.Mirrors (Same P) x x

end Rerun

namespace Rerun

variable {ρ : Rerun}

/-- A context with the same tree and settings as another one. -/
theorem Moves.update {c c' : Context} {u : Tree} (h : ρ.Moves c u) (hb : c'.Bounded ρ.base)
    (htree : c'.tree = c.tree) (hoptions : c'.options = c.options)
    (hdepth : c'.jobDepth = c.jobDepth) : ρ.Moves c' u :=
  ⟨htree ▸ h.growth, hoptions ▸ h.options, hdepth ▸ h.jobDepth, hb⟩

theorem Moves.keeps {c c' : Context} {u : Tree} (h : ρ.Moves c u) (hc : c.Keeps c') :
    ρ.Moves c' u := by
  refine h.update ⟨?_, ?_, ?_⟩ hc.tree hc.options hc.jobDepth
  · rw [hc.subst]
    exact h.bounded.subst
  · rw [hc.symbols]
    exact h.bounded.symbols
  · rw [hc.function]
    exact h.bounded.scope

namespace Mirrors

variable {α β : Type} {R : α → α → Prop} {S : β → β → Prop} {x y : CompileM α} {f g : α → CompileM β}

theorem pure {a b : α} (h : R a b) : ρ.Mirrors R (pure a) (pure b) :=
  fun _ _ _ c u hm => .inl ⟨a, b, c, u, rfl, rfl, h, hm⟩

theorem throw (stop : Stop) : ρ.Mirrors R (throw stop : CompileM α) (throw stop) :=
  fun _ _ _ c u hm => .inr ⟨stop, c, u, rfl, rfl, hm⟩

theorem bail (location : Location) (problem : Problem) :
    ρ.Mirrors R (CompileM.bail location problem : CompileM α) (CompileM.bail location problem) :=
  throw _

theorem fail (problem : Problem) :
    ρ.Mirrors R (CompileM.fail problem : CompileM α) (CompileM.fail problem) :=
  throw _

theorem imp {S : α → α → Prop} (h : ρ.Mirrors R x y) (hRS : ∀ a b, R a b → S a b) :
    ρ.Mirrors S x y := by
  intro p q hpq c u hm
  rcases h p q hpq c u hm with ⟨a, b, c', u', hx, hy, hab, hm'⟩ | hstop
  · exact .inl ⟨a, b, c', u', hx, hy, hRS a b hab, hm'⟩
  · exact .inr hstop

/-- In a sequence related results go on alike. -/
theorem bindRel (hx : ρ.Mirrors R x y) (hf : ∀ a b, R a b → ρ.Mirrors S (f a) (g b)) :
    ρ.Mirrors S (x >>= f) (y >>= g) := by
  intro p q hpq c u hm
  rcases hx p q hpq c u hm with ⟨a, b, c', u', hxc, hyc, hab, hm'⟩ | ⟨stop, c', u', hxc, hyc, hm'⟩
  · rw [CompileM.bind_of_eq_ok hxc, CompileM.bind_of_eq_ok hyc]
    exact hf a b hab p q hpq c' u' hm'
  · refine .inr ⟨stop, c', u', ?_, ?_, hm'⟩
    · change EStateM.bind (x p) (fun a => f a p) c = _
      rw [EStateM.bind, hxc]
    · change EStateM.bind (y q) (fun a => g a q) (ρ.context c u) = _
      rw [EStateM.bind, hyc]

theorem bind (hx : ρ.Mirrors Eq x y) (hf : ∀ a, ρ.Mirrors S (f a) (g a)) :
    ρ.Mirrors S (x >>= f) (y >>= g) :=
  hx.bindRel fun a _ hab => hab ▸ hf a

/-- Behind the same result with a property. -/
theorem bindSame {P : α → Prop} (hx : ρ.Mirrors (Same P) x y)
    (hf : ∀ a, P a → ρ.Mirrors S (f a) (g a)) : ρ.Mirrors S (x >>= f) (y >>= g) :=
  hx.bindRel fun a _ hab => hab.1 ▸ hf a hab.2

/-- Behind a result that is moved and has a property. -/
theorem bindMoved {P : α → Prop} {move : α → α} (hx : ρ.Mirrors (fun a b => b = move a ∧ P a) x y)
    (hf : ∀ a, P a → ρ.Mirrors S (f a) (g (move a))) : ρ.Mirrors S (x >>= f) (y >>= g) :=
  hx.bindRel fun a _ hab => hab.1 ▸ hf a hab.2

theorem map {h : α → β} (hx : ρ.Mirrors Eq x y) : ρ.Mirrors Eq (h <$> x) (h <$> y) := by
  rw [map_eq_pure_bind, map_eq_pure_bind]
  exact hx.bind fun a => pure rfl

theorem orBail (location : Location) (result : Except Problem α) :
    ρ.Mirrors Eq (CompileM.orBail location result) (CompileM.orBail location result) := by
  cases result with
  | ok a => exact pure rfl
  | error problem => exact bail location problem

/-- Behind a result that is taken or refused. -/
theorem orBail_bind {location : Location} {result : Except Problem α}
    (h : ∀ a, result = .ok a → ρ.Mirrors S (f a) (g a)) :
    ρ.Mirrors S (CompileM.orBail location result >>= f) (CompileM.orBail location result >>= g) := by
  cases result with
  | ok a => exact h a rfl
  | error problem => exact bail location problem

theorem ite {q : Prop} [Decidable q] {x' y' : CompileM α} (hx : q → ρ.Mirrors R x y)
    (hy : ¬ q → ρ.Mirrors R x' y') : ρ.Mirrors R (if q then x else x') (if q then y else y') := by
  by_cases hq : q
  · rw [if_pos hq, if_pos hq]
    exact hx hq
  · rw [if_neg hq, if_neg hq]
    exact hy hq

theorem get_bind {f g : Context → CompileM β}
    (h : ∀ c u, ρ.Moves c u → ρ.Mirrors S (f c) (g (ρ.context c u))) :
    ρ.Mirrors S (get >>= f) (get >>= g) :=
  fun p q hpq c u hm => h c u hm p q hpq c u hm

theorem set {c c' : Context} {u : Tree} (hc : c' = ρ.context c u) (h : ρ.Moves c u) :
    ρ.Mirrors Eq (set c : CompileM PUnit) (set c') :=
  fun _ _ _ _ _ _ => .inl ⟨_, _, c, u, rfl, by rw [hc]; rfl, rfl, h⟩

theorem update {f g : Context → Context}
    (h : ∀ c u, ρ.Moves c u → g (ρ.context c u) = ρ.context (f c) u ∧ ρ.Moves (f c) u) :
    ρ.Mirrors Eq (modify f : CompileM PUnit) (modify g) := by
  intro p q _ c u hm
  obtain ⟨hg, hm'⟩ := h c u hm
  exact .inl ⟨_, _, f c, u, rfl, by rw [← hg]; rfl, rfl, hm'⟩

/-- A change that neither the nodes nor the types depend on. -/
theorem modifyRest {f : Context → Context} (hf : ∀ c u, f (ρ.context c u) = ρ.context (f c) u)
    (hkeeps : ∀ c : Context, c.Keeps (f c)) : ρ.Stable (modify f) :=
  update fun c u h => ⟨hf c u, h.keeps (hkeeps c)⟩

section Lists

variable {γ δ : Type} {f : γ → CompileM β} {g : δ → CompileM β} {move : γ → δ}

theorem forM {f : γ → CompileM PUnit} {g : δ → CompileM PUnit} (items : List γ)
    (h : ∀ item ∈ items, ρ.Mirrors Eq (f item) (g (move item))) :
    ρ.Mirrors Eq (items.forM f) ((items.map move).forM g) := by
  induction items with
  | nil => exact pure rfl
  | cons item rest ih =>
    exact (h item List.mem_cons_self).bind fun _ => ih fun i hi => h i (List.mem_cons_of_mem _ hi)

theorem mapM (items : List γ) (h : ∀ item ∈ items, ρ.Mirrors S (f item) (g (move item))) :
    ρ.Mirrors (List.Forall₂ S) (items.mapM f) ((items.map move).mapM g) := by
  induction items with
  | nil => exact pure .nil
  | cons item rest ih =>
    rw [List.mapM_cons, List.map_cons, List.mapM_cons]
    refine (h item List.mem_cons_self).bindRel fun a b hab => ?_
    refine (ih fun i hi => h i (List.mem_cons_of_mem _ hi)).bindRel fun as bs habs => ?_
    exact pure (.cons hab habs)

theorem mapM_eq (items : List γ) (h : ∀ item ∈ items, ρ.Mirrors Eq (f item) (g (move item))) :
    ρ.Mirrors Eq (items.mapM f) ((items.map move).mapM g) :=
  (mapM items h).imp fun _ _ hl => List.forall₂_eq_eq_eq ▸ hl

theorem forM_self {f g : γ → CompileM PUnit} (items : List γ)
    (h : ∀ item ∈ items, ρ.Mirrors Eq (f item) (g item)) :
    ρ.Mirrors Eq (items.forM f) (items.forM g) := by
  have hforM : ρ.Mirrors Eq (items.forM f) ((items.map id).forM g) := forM items h
  rwa [List.map_id] at hforM

theorem mapM_self {f g : γ → CompileM β} (items : List γ)
    (h : ∀ item ∈ items, ρ.Mirrors Eq (f item) (g item)) :
    ρ.Mirrors Eq (items.mapM f) (items.mapM g) := by
  have hmapM : ρ.Mirrors Eq (items.mapM f) ((items.map id).mapM g) := mapM_eq items h
  rwa [List.map_id] at hmapM

/-- Items that are kept and moved alike. -/
theorem filterMapM {β : Type} {f : γ → CompileM (Option β)} {g : δ → CompileM (Option β)}
    {moveTo : β → β} (items : List γ)
    (h : ∀ item ∈ items, ρ.Mirrors (fun o o' => o' = o.map moveTo) (f item) (g (move item))) :
    ρ.Mirrors (fun l l' => l' = l.map moveTo) (items.filterMapM f)
      ((items.map move).filterMapM g) := by
  induction items with
  | nil => exact pure rfl
  | cons item rest ih =>
    rw [List.filterMapM_cons, List.map_cons, List.filterMapM_cons]
    refine (h item List.mem_cons_self).bindRel fun o _ ho => ?_
    subst ho
    have hrest := ih fun i hi => h i (List.mem_cons_of_mem _ hi)
    cases o with
    | none => exact hrest
    | some b => exact hrest.bindRel fun l _ hl => pure (congrArg (moveTo b :: ·) hl)

theorem filterMapM_eq {β : Type} {f : γ → CompileM (Option β)} {g : δ → CompileM (Option β)}
    (items : List γ) (h : ∀ item ∈ items, ρ.Mirrors Eq (f item) (g (move item))) :
    ρ.Mirrors Eq (items.filterMapM f) ((items.map move).filterMapM g) := by
  have hkeep : ∀ item ∈ items,
      ρ.Mirrors (fun o o' => o' = o.map (id : β → β)) (f item) (g (move item)) :=
    fun item hitem => (h item hitem).imp fun o o' ho => by rw [← ho, Option.map_id, id_eq]
  exact (filterMapM items hkeep).imp fun l l' hl => by rw [hl, List.map_id]

theorem optionMapM {f g : NodeId → CompileM β} (item : Option NodeId)
    (h : ∀ id, ρ.Mirrors Eq (f id) (g (ρ.node id))) :
    ρ.Mirrors Eq (item.mapM f) ((item.map ρ.node).mapM g) := by
  cases item with
  | none => exact pure rfl
  | some id => exact (h id).map

end Lists

section Jobs

variable (id : NodeId)

theorem collect (space : List String) : ρ.Mirrors Eq (CompileM.perform (.collect id space))
    (CompileM.perform (.collect (ρ.node id) space)) := fun _ _ h => h.collect id space

theorem fold : ρ.Mirrors Eq (CompileM.perform (.fold id)) (CompileM.perform (.fold (ρ.node id))) :=
  fun _ _ h => h.fold id

theorem checkNode : ρ.Mirrors Eq (CompileM.perform (.checkNode id))
    (CompileM.perform (.checkNode (ρ.node id))) := fun _ _ h => h.checkNode id

theorem checkFunction (owner : Option String) (isInstance : Bool) :
    ρ.Mirrors Eq (CompileM.perform (.checkFunction id owner isInstance))
      (CompileM.perform (.checkFunction (ρ.node id) owner isInstance)) :=
  fun _ _ h => h.checkFunction id owner isInstance

theorem checkAggregate (instanceName : Option String) :
    ρ.Mirrors Eq (CompileM.perform (.checkAggregate id instanceName))
      (CompileM.perform (.checkAggregate (ρ.node id) instanceName)) :=
  fun _ _ h => h.checkAggregate id instanceName

theorem complete (type : SourceType) (location : Location) :
    ρ.Stable (CompileM.perform (.complete type location)) := fun _ _ h => h.complete type location

theorem needsDefaults (type : SourceType) (location : Location) :
    ρ.Stable (CompileM.perform (.needsDefaults type location)) :=
  fun _ _ h => h.needsDefaults type location

theorem applyDefaults (type : SourceType) (slot : Operand) (skipped : Nat) (location : Location) :
    ρ.Stable (CompileM.perform (.applyDefaults type slot skipped location)) :=
  fun _ _ h => h.applyDefaults type slot skipped location

theorem emitDeclaration : ρ.Mirrors Eq (CompileM.perform (.emitDeclaration id))
    (CompileM.perform (.emitDeclaration (ρ.node id))) := fun _ _ h => h.emitDeclaration id

theorem emitFunction (key : String) : ρ.Stable (CompileM.perform (.emitFunction key)) :=
  fun _ _ h => h.emitFunction key

theorem emitAggregate (name : String) : ρ.Stable (CompileM.perform (.emitAggregate name)) :=
  fun _ _ h => h.emitAggregate name

theorem emitPending : ρ.Stable (CompileM.perform .emitPending) := fun _ _ h => h.emitPending

theorem emitExpr : ρ.Mirrors Eq (CompileM.perform (.emitExpr id))
    (CompileM.perform (.emitExpr (ρ.node id))) := fun _ _ h => h.emitExpr id

theorem emitPlace : ρ.Mirrors Eq (CompileM.perform (.emitPlace id))
    (CompileM.perform (.emitPlace (ρ.node id))) := fun _ _ h => h.emitPlace id

theorem emitStmt : ρ.Mirrors Eq (CompileM.perform (.emitStmt id))
    (CompileM.perform (.emitStmt (ρ.node id))) := fun _ _ h => h.emitStmt id

end Jobs

end Mirrors
end Rerun
end UnitCompiler
