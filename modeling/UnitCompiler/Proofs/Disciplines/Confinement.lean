import UnitCompiler.Proofs.Disciplines.Declarations

/-!
# Nested work

Instances are made, aggregates checked on demand and functions emitted in the middle of other work, in
environments of their own.  However such work ends, it leaves the bindings, the namespace, the depth of
instantiation and the function under emission as they were, and no work is ever done deeper in instances
than the options allow.
-/

namespace UnitCompiler

/-- The context in which a run ends, however it ends. -/
def finalContext {α : Type} : EStateM.Result Stop Context α → Context
  | .ok _ c | .error _ c => c

namespace Context

/-- The context is not deeper in instances than the options allow. -/
def IsBounded (c : Context) : Prop := c.instantiationDepth ≤ c.options.maxInstantiationDepth

/-- The second context has the environment of the first one, and if asked the same function under
emission. -/
structure RestoredIn (keepsFunction : Bool) (c c' : Context) : Prop where
  options : c'.options = c.options
  subst : c'.subst = c.subst
  space : c'.space = c.space
  depth : c'.instantiationDepth = c.instantiationDepth
  function : keepsFunction = true → c'.function = c.function

namespace RestoredIn

variable {keeps : Bool} {c c' c'' : Context}

theorem refl (keeps : Bool) (c : Context) : RestoredIn keeps c c := ⟨rfl, rfl, rfl, rfl, fun _ => rfl⟩

theorem trans (h : RestoredIn keeps c c') (h' : RestoredIn keeps c' c'') : RestoredIn keeps c c'' where
  options := h'.options.trans h.options
  subst := h'.subst.trans h.subst
  space := h'.space.trans h.space
  depth := h'.depth.trans h.depth
  function hkeeps := (h'.function hkeeps).trans (h.function hkeeps)

theorem weaken (h : RestoredIn true c c') : RestoredIn keeps c c' :=
  { h with function := fun _ => h.function rfl }

theorem isBounded (h : RestoredIn keeps c c') (hc : c.IsBounded) : c'.IsBounded := by
  rw [IsBounded, h.depth, h.options]
  exact hc

theorem of_wrote (h : c.Wrote c') (hfunction : keeps = true → c'.function = c.function) :
    RestoredIn keeps c c' := by
  rw [h.same] at *
  exact ⟨rfl, rfl, rfl, rfl, hfunction⟩

end RestoredIn
end Context

namespace CompileM

variable {c : Context}

/-- Instances are refused at the limit. -/
theorem instantiating_of_le {α : Type} {x : CompileM α} {subst : Substitution} {space : List String}
    {location : Location} (h : c.options.maxInstantiationDepth ≤ c.instantiationDepth) (p : Performer) :
    instantiating subst space location x p c =
      .error (.failed (.semantic location (.instantiationDepth c.options.maxInstantiationDepth))) c := by
  unfold instantiating
  rw [bind_of_eq_ok (get_apply p c)]
  dsimp only
  rw [if_pos h]
  rfl

theorem instantiating_of_lt {α : Type} (subst : Substitution) (space : List String) (location : Location)
    (x : CompileM α) (h : c.instantiationDepth < c.options.maxInstantiationDepth) (p : Performer) :
    instantiating subst space location x p c =
      restoring (within subst space x) (fun c => { c with instantiationDepth := c.instantiationDepth - 1 }) p
        { c with instantiationDepth := c.instantiationDepth + 1 } := by
  unfold instantiating
  rw [bind_of_eq_ok (get_apply p c)]
  dsimp only
  rw [if_neg (Nat.not_le.mpr h)]
  rfl

/-- A copy changes the tree, unless there is none. -/
theorem copySubtree_cases (id : NodeId) (c : Context) :
    (∃ copy tree, c.tree.copySubtree id = .ok (copy, tree) ∧
      ∀ p, copySubtree id p c = .ok copy { c with tree }) ∨
    ∃ stop, ∀ p, copySubtree id p c = .error stop c := by
  have hread (p : Performer) : copySubtree id p c = _ := bind_of_eq_ok (get_apply p c)
  rcases hcopy : c.tree.copySubtree id with (missing | _) | ⟨copy, tree⟩
  · refine .inr ⟨.missingNode, fun p => ?_⟩
    rw [hread, hcopy]
    rfl
  · refine .inr ⟨.exhausted, fun p => ?_⟩
    rw [hread, hcopy]
    rfl
  · refine .inl ⟨copy, tree, rfl, fun p => ?_⟩
    rw [hread, hcopy]
    rfl

end CompileM

/-- A run restores the environment, and in a bounded context it does not depend on how jobs are done in
unbounded ones: the second performer may do them in any way. -/
def ConfinedAt (keeps : Bool) (p q : Performer) {α : Type} (x : CompileM α) (c : Context) : Prop :=
  c.RestoredIn keeps (finalContext (x p c)) ∧ (c.IsBounded → x p c = x q c)

namespace ConfinedAt

variable {keeps : Bool} {p q : Performer} {α β : Type} {x : CompileM α} {f : α → CompileM β}
  {c : Context}

/-- Steps that do not call for jobs. -/
theorem of_eq {r : EStateM.Result Stop Context α} (h : ∀ p, x p c = r)
    (hr : c.RestoredIn keeps (finalContext r)) : ConfinedAt keeps p q x c := by
  refine ⟨?_, fun _ => (h p).trans (h q).symm⟩
  rw [h]
  exact hr

theorem bind (hx : ConfinedAt keeps p q x c) (hf : ∀ a c', ConfinedAt keeps p q (f a) c') :
    ConfinedAt keeps p q (x >>= f) c := by
  obtain ⟨hrestores, heq⟩ := hx
  cases hrun : x p c with
  | ok a c' =>
    rw [hrun] at hrestores heq
    rw [ConfinedAt, CompileM.bind_of_eq_ok hrun]
    refine ⟨hrestores.trans (hf a c').1, fun hc => ?_⟩
    rw [CompileM.bind_of_eq_ok (heq hc).symm]
    exact (hf a c').2 (hrestores.isBounded hc)
  | error e c' =>
    rw [hrun] at hrestores heq
    rw [ConfinedAt, CompileM.bind_of_eq_error hrun]
    refine ⟨hrestores, fun hc => ?_⟩
    rw [CompileM.bind_of_eq_error (heq hc).symm]

/-- Work in another environment, which is taken back. -/
theorem restoring {inner : Bool} {c₁ : Context} {restore : Context → Context}
    (hx : ConfinedAt inner p q x c₁) (hc : c.IsBounded → c₁.IsBounded)
    (h : ∀ c', c₁.RestoredIn inner c' → c.RestoredIn keeps (restore c')) :
    c.RestoredIn keeps (finalContext (CompileM.restoring x restore p c₁)) ∧
      (c.IsBounded → CompileM.restoring x restore p c₁ = CompileM.restoring x restore q c₁) := by
  obtain ⟨hrestores, heq⟩ := hx
  constructor
  · unfold CompileM.restoring
    cases hrun : x p c₁ <;>
    · rw [hrun] at hrestores
      exact h _ hrestores
  · intro hbounded
    unfold CompileM.restoring
    rw [heq (hc hbounded)]

theorem within {inner : Bool} (hx : ∀ c, ConfinedAt inner p q x c) (subst : Substitution)
    (space : List String) (c : Context) : ConfinedAt keeps p q (CompileM.within subst space x) c :=
  restoring (hx { c with subst, space, function := none }) id fun _ h =>
    ⟨h.options, rfl, rfl, h.depth, fun _ => rfl⟩

theorem instantiating {inner : Bool} (hx : ∀ c, ConfinedAt inner p q x c) (subst : Substitution)
    (space : List String) (location : Location) (c : Context) :
    ConfinedAt keeps p q (CompileM.instantiating subst space location x) c := by
  by_cases hlimit : c.options.maxInstantiationDepth ≤ c.instantiationDepth
  · exact of_eq (CompileM.instantiating_of_le hlimit) (.refl _ _)
  · have hrun := CompileM.instantiating_of_lt subst space location x (Nat.lt_of_not_le hlimit)
    rw [ConfinedAt, hrun, hrun]
    have hwithin : ConfinedAt true p q (CompileM.within subst space x)
        { c with instantiationDepth := c.instantiationDepth + 1 } := within hx subst space _
    refine restoring hwithin (fun _ => Nat.lt_of_not_le hlimit)
      fun c' h => ⟨h.options, h.subst, h.space, ?_, fun _ => h.function rfl⟩
    simp only [h.depth, Nat.add_sub_cancel]

theorem inSpace (hx : ∀ c, ConfinedAt keeps p q x c) (name : String) (c : Context) :
    ConfinedAt keeps p q (CompileM.inSpace name x) c :=
  restoring (hx { c with space := c.space ++ [name] }) id fun _ h =>
    ⟨h.options, h.subst, by simp only [h.space, List.dropLast_concat], h.depth, h.function⟩

theorem copySubtree (id : NodeId) (c : Context) :
    ConfinedAt keeps p q (CompileM.copySubtree id) c := by
  obtain ⟨copy, tree, -, hrun⟩ | ⟨stop, hrun⟩ := CompileM.copySubtree_cases id c
  · exact of_eq hrun ⟨rfl, rfl, rfl, rfl, fun _ => rfl⟩
  · exact of_eq hrun (.refl _ _)

end ConfinedAt

/-- The runs under a performer that are confined, as far as the second performer does not matter. -/
def confinement (keeps : Bool) (p q : Performer) : Discipline where
  At x c := ConfinedAt keeps p q x c
  pure _ _ := .of_eq (fun _ => rfl) (.refl _ _)
  throw _ _ := .of_eq (fun _ => rfl) (.refl _ _)
  bind := .bind
  get_bind h := h
  write h hfunction := .of_eq (fun _ => rfl) (.of_wrote h.toWrote fun _ => hfunction)
  postpone _ _ _ := .of_eq (fun _ => rfl) ⟨rfl, rfl, rfl, rfl, fun _ => rfl⟩
  declareAggregate _ := .of_eq (fun _ => rfl) ⟨rfl, rfl, rfl, rfl, fun _ => rfl⟩
  copySubtree_modifyKind id _ _ hf c := .bind (.copySubtree id c) fun copy _ =>
    .bind (.of_eq (fun _ => rfl) ⟨rfl, rfl, rfl, rfl, fun _ => rfl⟩) fun _ c'' => hf copy c''
  within subst space hx := .within hx subst space
  instantiating subst space location hx := .instantiating hx subst space location
  inSpace name hx := .inSpace hx name

/-- A way to do jobs that is confined; only work on the function under emission changes it. -/
class Performer.Confines (p q : Performer) : Prop where
  job : ∀ job c, ConfinedAt (!job.isInFunction) p q (CompileM.perform job) c

variable {keeps : Bool} {p q : Performer}

theorem ConfinedAt.weaken {α : Type} {x : CompileM α} {c : Context} (h : ConfinedAt true p q x c) :
    ConfinedAt keeps p q x c := ⟨h.1.weaken, h.2⟩

/-- A function begins in an environment of its own. -/
theorem confinedAt_of_opens {α : Type} {x : CompileM α} (h : (confinement false p q).Opens x)
    (c : Context) : ConfinedAt false p q x c := by
  induction h generalizing c with
  | before hx => exact hx c
  | bind hx _ ih => exact .bind (hx c) ih
  | start f hx => exact .bind (.of_eq (fun _ => rfl) ⟨rfl, rfl, rfl, rfl, nofun⟩) fun _ => hx

theorem confinement_modifySymbols (g : SymbolTables → SymbolTables) :
    (confinement keeps p q).Holds (CompileM.modifySymbols g) :=
  fun _ => .of_eq (fun _ => rfl) ⟨rfl, rfl, rfl, rfl, fun _ => rfl⟩

instance : (confinement keeps p q).Defines where
  markEmitted _ _ := .of_eq (fun _ => rfl) ⟨rfl, rfl, rfl, rfl, fun _ => rfl⟩
  addType _ _ := .of_eq (fun _ => rfl) ⟨rfl, rfl, rfl, rfl, fun _ => rfl⟩

section Jobs

variable [p.Confines q]

instance : (confinement keeps p q).Makes where
  job job hjob c := by
    have h := Performer.Confines.job (p := p) (q := q) job c
    have hkeeps : job.isInFunction = false := by cases job <;> first | rfl | cases hjob
    rw [hkeeps] at h
    exact ConfinedAt.weaken h
  checkInstance id name c := ConfinedAt.weaken (Performer.Confines.job (.checkAggregate id (some name)) c)
  declareInstance _ _ := confinement_modifySymbols _

instance : (confinement keeps p q).Registers where
  markChecked _ := .of_eq (fun _ => rfl) ⟨rfl, rfl, rfl, rfl, fun _ => rfl⟩
  copySubtree id c := .copySubtree id c
  declareKey _ _ := confinement_modifySymbols _
  enterTemplate _ _ := confinement_modifySymbols _
  enterAggregateTemplate _ _ := confinement_modifySymbols _
  register _ _ _ _ c _ := Discipline.Holds.register_of_addFunction
    (fun _ _ => .enterOperator_of_modifySymbols fun _ => confinement_modifySymbols _)
    (fun _ _ => confinement_modifySymbols _) (confinement_modifySymbols _) c
  modifySymbols _ := confinement_modifySymbols _
  checkNode id c := ConfinedAt.weaken (Performer.Confines.job (.checkNode id) c)

/-- Instances are made without any effect on what is under way. -/
theorem confinement_instantiateFunction (name : String) (args : List TemplateArg) (location : Location) :
    (confinement keeps p q).Holds (CompileM.instantiateFunction name args location) :=
  .instantiateFunction_of_enterInstance (fun _ _ => confinement_modifySymbols _) name args location

instance : (confinement false p q).Writes where
  write h := .of_eq (fun _ => rfl) (.of_wrote h nofun)

instance : (confinement false p q).Emits where
  inFunction job hjob c := by
    have h := Performer.Confines.job (p := p) (q := q) job c
    rwa [hjob] at h
  instantiateFunction := confinement_instantiateFunction
  setNesting _ _ := .of_eq (fun _ => rfl) ⟨rfl, rfl, rfl, rfl, nofun⟩

theorem confinement_emitFunction (key : String) :
    (confinement keeps p q).Holds (CompileM.emitFunction key) :=
  Discipline.Holds.emitFunction (D := confinement keeps p q)
    (fun f => ConfinedAt.within (confinedAt_of_opens (Discipline.opens_emitSymbol f)) _ _) key

/-- Every job is confined when the jobs that it calls for are. -/
theorem confinedAt_work (job : Job) (c : Context) :
    ConfinedAt (!job.isInFunction) p q job.work c := by
  open Discipline.Holds in
  cases job with
  | collect id space => exact collect (D := confinement true p q) id space c
  | fold id => exact foldNode (D := confinement true p q) id c
  | checkNode id => exact checkNode (D := confinement true p q) id c
  | checkFunction id owner isInstance =>
    exact checkFunction (D := confinement true p q) id owner isInstance c
  | checkAggregate id instanceName =>
    exact checkAggregate (D := confinement true p q) id instanceName c
  | complete type location => exact complete (D := confinement true p q) type location c
  | needsDefaults type location => exact needsDefaults (D := confinement true p q) type location c
  | applyDefaults type slot skipped location =>
    exact applyDefaults (D := confinement false p q) type slot skipped location c
  | emitDeclaration id => exact emitDeclaration (D := confinement true p q) id c
  | emitFunction key => exact confinement_emitFunction key c
  | emitAggregate name => exact emitAggregate (D := confinement true p q) name c
  | emitPending =>
    exact emitPending_of_drain (D := confinement true p q)
      (fun _ => .of_eq (fun _ => rfl) ⟨rfl, rfl, rfl, rfl, fun _ => rfl⟩) c
  | emitExpr id => exact emitExpr (D := confinement false p q) id c
  | emitPlace id => exact emitPlace (D := confinement false p q) id c
  | emitStmt id => exact emitStmt (D := confinement false p q) id c

end Jobs

/-! ### Watched work -/

/-- Jobs done as usual, except that `alarm` takes over in a context that is deeper in instances than the
options allow. -/
def watched (alarm : Performer) : Nat → Performer
  | 0, _ => throw .exhausted
  | depth + 1, job => fun c =>
    if c.options.maxInstantiationDepth < c.instantiationDepth then alarm job c
    else job.work (watched alarm depth) c

theorem watched_succ (alarm : Performer) (depth : Nat) (job : Job) (c : Context) :
    watched alarm (depth + 1) job c =
      if c.options.maxInstantiationDepth < c.instantiationDepth then alarm job c
      else job.work (watched alarm depth) c := rfl

instance (alarm : Performer) (depth : Nat) : (performWithin depth).Confines (watched alarm depth) := by
  induction depth with
  | zero => exact ⟨fun _ c => ⟨.refl _ c, fun _ => rfl⟩⟩
  | succ depth ih =>
    refine ⟨fun job c => ?_⟩
    obtain ⟨hrestored, heq⟩ := confinedAt_work (p := performWithin depth) (q := watched alarm depth) job c
    refine ⟨hrestored, fun hc => (heq hc).trans ?_⟩
    exact ((watched_succ alarm depth job c).trans (if_neg (Nat.not_lt.mpr hc))).symm

/-! ### Calls of the compiler -/

namespace Context

/-- Nothing is under way. -/
structure IsIdle (c : Context) : Prop where
  subst : c.subst = {}
  space : c.space = []
  function : c.function = none
  depth : c.instantiationDepth = 0

/-- The contexts of a session between its calls, whatever they were given and however they ended. -/
inductive IsSession : Context → Prop
  | new (tree : Tree) (options : CompileOptions) : IsSession (new tree options)
  | reset {c : Context} : IsSession c → IsSession c.reset
  | edit {c : Context} (tree : Tree) : IsSession c → IsSession { c with tree }
  | check {c : Context} (roots : List NodeId) : IsSession c → IsSession (finalContext (c.check roots))
  | emit {c : Context} (roots : List NodeId) : IsSession c → IsSession (finalContext (c.emit roots))
  | classify {c : Context} (type : SourceType) (location : Location) : IsSession c →
    IsSession (finalContext (c.classify type location))

variable {c c' : Context}

theorem IsIdle.restored (h : c.IsIdle) (hrestored : RestoredIn true c c') : c'.IsIdle where
  subst := hrestored.subst.trans h.subst
  space := hrestored.space.trans h.space
  function := (hrestored.function rfl).trans h.function
  depth := hrestored.depth.trans h.depth

theorem IsIdle.isBounded (h : c.IsIdle) : c.IsBounded := by
  rw [IsBounded, h.depth]
  exact Nat.zero_le _

theorem IsIdle.inPhase (h : c.IsIdle) (phase : Phase) : { c with phase }.IsIdle :=
  ⟨h.subst, h.space, h.function, h.depth⟩

end Context

/-- The work of checking a unit. -/
def checking (roots : List NodeId) : CompileM Unit := do
  roots.forM fun root => CompileM.perform (.collect root [])
  roots.forM fun root => CompileM.perform (.checkNode root)

/-- The work of emitting a unit. -/
def emitting (roots : List NodeId) : CompileM Unit := do
  CompileM.perform .emitPending
  roots.forM fun root => CompileM.perform (.emitDeclaration root)
  CompileM.perform .emitPending

namespace Discipline.Holds

variable {D : Discipline}

theorem checking [D.Binds] (roots : List NodeId) : D.Holds (checking roots) :=
  bind (forM fun root => resolve (.collect root []) rfl) fun _ => forM checkNodeJob

theorem emitting [D.Calls] (roots : List NodeId) : D.Holds (emitting roots) :=
  bind (job .emitPending rfl) fun _ =>
    bind (forM fun root => job (.emitDeclaration root) rfl) fun _ => job .emitPending rfl

end Discipline.Holds

namespace Context

variable {c : Context}

theorem confinedAt_check (c : Context) (roots : List NodeId) (alarm : Performer) :
    ConfinedAt true (performWithin c.jobDepth) (watched alarm c.jobDepth) (checking roots)
      { c with phase := .check } :=
  Discipline.Holds.checking (D := confinement true _ _) roots _

theorem confinedAt_emit (c : Context) (roots : List NodeId) (alarm : Performer) :
    ConfinedAt true (performWithin c.jobDepth) (watched alarm c.jobDepth) (emitting roots)
      { c with phase := .emit } :=
  Discipline.Holds.emitting (D := confinement true _ _) roots _

theorem IsSession.isIdle (h : c.IsSession) : c.IsIdle := by
  induction h with
  | new tree options => exact ⟨rfl, rfl, rfl, rfl⟩
  | reset _ _ => exact ⟨rfl, rfl, rfl, rfl⟩
  | edit tree _ ih => exact ⟨ih.subst, ih.space, ih.function, ih.depth⟩
  | @check c roots _ ih =>
    exact (ih.inPhase .check).restored (confinedAt_check c roots (performWithin 0)).1
  | @emit c roots _ ih =>
    exact (ih.inPhase .emit).restored (confinedAt_emit c roots (performWithin 0)).1
  | @classify c type location _ ih =>
    have h := Discipline.Holds.classify (D := confinement true (performWithin c.jobDepth)
      (watched (performWithin 0) c.jobDepth)) type location c
    exact ih.restored h.1

end Context

/-- Making an instance, checking an aggregate and emitting a function leave the environment and the function
under emission as they were, however they end.  Whatever is done in a context within the limit on instances,
no job is ever called for in a context beyond it: an alarm that would be raised there makes no difference.
Between the calls of a session nothing is under way. -/
theorem nested_work_restores :
    (∀ (c : Context) (depth : Nat),
      (∀ name args location,
        c.RestoredIn true (finalContext (CompileM.instantiateFunction name args location
          (performWithin depth) c))) ∧
      (∀ name args location,
        c.RestoredIn true (finalContext (CompileM.ensureInstance name args location
          (performWithin depth) c))) ∧
      (∀ name location,
        c.RestoredIn true (finalContext (CompileM.ensureChecked name location (performWithin depth) c))) ∧
      (∀ key, c.RestoredIn true (finalContext (CompileM.emitFunction key (performWithin depth) c))) ∧
      (∀ id instanceName,
        c.RestoredIn true (finalContext (CompileM.checkAggregate id instanceName
          (performWithin depth) c)))) ∧
    (∀ c : Context, c.IsBounded → ∀ alarm depth job,
      watched alarm depth job c = performWithin depth job c ∧
        (finalContext (performWithin depth job c)).IsBounded) ∧
    ∀ c : Context, c.IsSession → c.IsIdle ∧ ∀ roots,
      (finalContext (c.check roots)).IsIdle ∧ (finalContext (c.emit roots)).IsIdle ∧ ∀ alarm,
        checking roots (watched alarm c.jobDepth) { c with phase := .check } = c.check roots ∧
        emitting roots (watched alarm c.jobDepth) { c with phase := .emit } = c.emit roots := by
  refine ⟨fun c depth => ?_, fun c hc alarm depth job => ?_, fun c hc => ⟨hc.isIdle, fun roots => ?_⟩⟩
  · let D := confinement true (performWithin depth) (watched (performWithin 0) depth)
    exact ⟨fun name args location =>
        (confinement_instantiateFunction (q := watched (performWithin 0) depth) name args location c).1,
      fun name args location => (Discipline.Holds.ensureInstance (D := D) name args location c).1,
      fun name location => (Discipline.Holds.ensureChecked (D := D) name location c).1,
      fun key => (confinement_emitFunction (q := watched (performWithin 0) depth) key c).1,
      fun id instanceName => (Discipline.Holds.checkAggregate (D := D) id instanceName c).1⟩
  · obtain ⟨hrestored, heq⟩ := Performer.Confines.job (p := performWithin depth)
      (q := watched alarm depth) job c
    exact ⟨(heq hc).symm, hrestored.isBounded hc⟩
  · refine ⟨(hc.check roots).isIdle, (hc.emit roots).isIdle, fun alarm => ⟨?_, ?_⟩⟩
    · exact ((c.confinedAt_check roots alarm).2 (hc.isIdle.inPhase .check).isBounded).symm
    · exact ((c.confinedAt_emit roots alarm).2 (hc.isIdle.inPhase .emit).isBounded).symm

/-- An aggregate template with a field of an unknown type, and a global of its instance for `int`. -/
def Tree.brokenInstance : Tree where
  nodes := #[
    ⟨.aggregate ⟨"Box", [⟨"T", .type⟩], none, [⟨"value", .aggregate "Missing" [], none⟩], []⟩, ⟨0, 1⟩⟩,
    ⟨.variable ⟨"box", some (.aggregate "Box" [.type (.scalar .int)]), none, false⟩, ⟨0, 2⟩⟩]
  files := ⟨["unit"]⟩

/-- Checking fails inside of the instance, which stays declared, and nothing is left under way; the same
holds when it is checked again. -/
theorem nested_work_of_brokenInstance :
    (match (Context.new .brokenInstance {}).check [⟨0⟩, ⟨1⟩] with
      | .error (.failed _) c => c.symbols.declaredAggregates.contains "Box<int>"
      | _ => false) = true ∧
    (finalContext ((Context.new .brokenInstance {}).check [⟨0⟩, ⟨1⟩])).IsIdle ∧
    (finalContext ((finalContext ((Context.new .brokenInstance {}).check [⟨0⟩, ⟨1⟩])).check
      [⟨0⟩, ⟨1⟩])).IsIdle ∧
    ∀ alarm depth job, watched alarm depth job (Context.new .brokenInstance {}) =
      performWithin depth job (Context.new .brokenInstance {}) := by
  have hfirst : (Context.new .brokenInstance {}).IsSession := .new _ _
  have hagain := hfirst.check [⟨0⟩, ⟨1⟩]
  refine ⟨by decide +kernel, (nested_work_restores.2.2 _ hfirst).2 _ |>.1,
    (nested_work_restores.2.2 _ hagain).2 _ |>.1, fun alarm depth job => ?_⟩
  exact (nested_work_restores.2.1 _ hfirst.isIdle.isBounded alarm depth job).1

end UnitCompiler
