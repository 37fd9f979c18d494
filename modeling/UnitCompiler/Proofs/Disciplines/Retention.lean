import UnitCompiler.Proofs.Phases.Runs

/-!
# Registered aggregates stay

Work registers aggregates, their methods and their operators.  An aggregate that is registered keeps its
symbol, but for the operators that may be entered for it, and its fields; the lists of methods and of
overloads only get longer.
-/

namespace UnitCompiler

namespace Table

variable {κ α : Type} [DecidableEq κ]

theorem get?_update_self (t : Table κ α) (k : κ) (start : α) (f : α → α) :
    (t.update k start f).get? k = some (f ((t.get? k).getD start)) :=
  get?_insert_self _ _ _

theorem get?_update_of_ne (t : Table κ α) {k k' : κ} (start : α) (f : α → α) (h : k ≠ k') :
    (t.update k start f).get? k' = t.get? k' :=
  get?_insert_of_ne _ _ h

end Table

/-- Tables in which every aggregate is what it was before, apart from its operators. -/
structure SymbolTables.Retains (s s' : SymbolTables) : Prop where
  aggregates : ∀ {name a}, s.aggregates.get? name = some a →
    ∃ operators, s'.aggregates.get? name = some { a with operators }
  fields : ∀ {name a}, s.aggregates.get? name = some a → ∀ field, s'.field? name field = s.field? name field
  methods : ∀ owner name, s.methodsOf owner name <+: s'.methodsOf owner name
  overloads : ∀ name, s.overloadsOf name <+: s'.overloadsOf name

namespace SymbolTables.Retains

variable {s s' s'' : SymbolTables}

theorem of_eq (haggregates : s'.aggregates = s.aggregates) (hfields : s'.fields = s.fields)
    (hmethods : s'.methods = s.methods) (hoverloads : s'.overloads = s.overloads) : s.Retains s' where
  aggregates ha := ⟨_, haggregates ▸ ha⟩
  fields _ field := by rw [field?, hfields, field?]
  methods owner name := by rw [methodsOf, methodsOf, hmethods]
  overloads name := by rw [overloadsOf, overloadsOf, hoverloads]

theorem refl (s : SymbolTables) : s.Retains s := of_eq rfl rfl rfl rfl

theorem trans (h : s.Retains s') (h' : s'.Retains s'') : s.Retains s'' where
  aggregates ha := by
    obtain ⟨_, ha'⟩ := h.aggregates ha
    obtain ⟨operators, ha''⟩ := h'.aggregates ha'
    exact ⟨operators, ha''⟩
  fields ha field := by
    obtain ⟨_, ha'⟩ := h.aggregates ha
    rw [h'.fields ha', h.fields ha]
  methods owner name := (h.methods owner name).trans (h'.methods owner name)
  overloads name := (h.overloads name).trans (h'.overloads name)

/-- An aggregate of a new name is entered or gets another symbol. -/
theorem insertAggregate (h : s.Retains s') {name : String} (hnew : s.aggregates.get? name = none)
    (a : AggregateSymbol) : s.Retains { s' with aggregates := s'.aggregates.insert name a } where
  aggregates {name' a₀} ha₀ := by
    obtain ⟨operators, ha⟩ := h.aggregates ha₀
    refine ⟨operators, ?_⟩
    rw [Table.get?_insert_of_ne]
    · exact ha
    · rintro rfl
      rw [hnew] at ha₀
      cases ha₀
  fields := h.fields
  methods := h.methods
  overloads := h.overloads

/-- A field of an aggregate of a new name is entered. -/
theorem addField (h : s.Retains s') {name : String} (hnew : s.aggregates.get? name = none)
    (first : FieldSymbol) : s.Retains (s'.addField name first) :=
  { h with
    fields := fun {name' a} ha field => by
      refine Eq.trans (Table.get?_insert_of_ne _ _ ?_) (h.fields ha field)
      intro heq
      rw [← (Prod.mk.inj heq).1, hnew] at ha
      cases ha }

theorem addFields (h : s.Retains s') {name : String} (hnew : s.aggregates.get? name = none)
    (fields : List FieldSymbol) : s.Retains (fields.foldl (·.addField name) s') := by
  induction fields generalizing s' with
  | nil => exact h
  | cons first rest ih => exact ih (h.addField hnew first)

theorem addAggregate (h : s.Retains s') {a : AggregateSymbol} (hnew : s.aggregates.get? a.name = none) :
    s.Retains (s'.addAggregate a) :=
  ((h.addFields hnew a.fields).insertAggregate hnew a).trans (.of_eq rfl rfl rfl rfl)

theorem prefix_getD_update {κ : Type} [DecidableEq κ] (t : Table κ (List String)) (k k' : κ) (key : String) :
    (t.get? k').getD [] <+: ((t.update k [] (· ++ [key])).get? k').getD [] := by
  by_cases heq : k = k'
  · subst heq
    rw [Table.get?_update_self]
    exact List.prefix_append _ _
  · rw [Table.get?_update_of_ne _ _ _ heq]

theorem addMethod (s : SymbolTables) (owner name key : String) : s.Retains (s.addMethod owner name key) :=
  { refl s with methods := fun owner' name' => prefix_getD_update s.methods _ (owner', name') key }

theorem addFunction (s : SymbolTables) (f : FunctionSymbol) : s.Retains (s.addFunction f) :=
  { refl s with overloads := fun name => prefix_getD_update s.overloads f.name name f.key }

/-- Operators are entered for an aggregate. -/
theorem setOperators {name : String} {a : AggregateSymbol} (ha : s.aggregates.get? name = some a)
    (operators : Table OperatorTag (Table String String)) :
    s.Retains { s with aggregates := s.aggregates.insert name { a with operators } } :=
  { refl s with
    aggregates := fun {name' a'} ha' => by
      rw [Table.get?_insert]
      split_ifs with heq
      · subst heq
        cases ha.symm.trans ha'
        exact ⟨operators, rfl⟩
      · exact ⟨_, ha'⟩ }

end SymbolTables.Retains

/-! ### The discipline -/

/-- The runs under a performer that keep what is registered. -/
def retainingRuns (p : Performer) : Discipline where
  At x c := EndsIn (fun c' => c.symbols.Retains c'.symbols) (x p c)
  pure _ _ := .refl _
  throw stop c := by
    cases stop with
    | failed error => exact .refl _
    | missingNode | exhausted => trivial
  bind hx hf := EndsIn.bind hx fun a c' _ h => (hf a c').imp fun _ => h.trans
  get_bind h := h
  write {c c'} h _ := by
    have hsymbols : c'.symbols = c.symbols := by rw [h.same]
    change c.symbols.Retains c'.symbols
    rw [hsymbols]
    exact .refl _
  postpone _ _ _ := .refl _
  declareAggregate _ := .of_eq rfl rfl rfl rfl
  copySubtree_modifyKind _ _ _ hf _ := EndsIn.copySubtree_bind fun copy _ _ _ => hf copy _
  within _ _ hx _ := EndsIn.restoring (hx _) fun _ h => h
  instantiating subst space location hx c := by
    unfold CompileM.instantiating
    rw [CompileM.bind_of_eq_ok (CompileM.get_apply p c)]
    dsimp only
    split_ifs
    · exact SymbolTables.Retains.refl _
    · exact EndsIn.restoring (EndsIn.restoring (hx _) fun _ h => h) fun _ h => h
  inSpace _ hx _ := EndsIn.restoring (hx _) fun _ h => h

/-- Every run of an action keeps what is registered. -/
def Retaining (p : Performer) {α : Type} (x : CompileM α) : Prop := (retainingRuns p).Holds x

/-- A way to do every other job than registering the parts of a unit that keeps what is registered. -/
class Performer.Retains (p : Performer) : Prop where
  job : ∀ job : Job, job.isCheckNode = false → Retaining p (CompileM.perform job)

variable {p : Performer}

instance : (retainingRuns p).Defines where
  markEmitted _ _ := .refl _
  addType _ _ := .refl _

instance [p.Retains] : (retainingRuns p).Makes where
  job job hjob := Performer.Retains.job job (by cases job <;> first | rfl | cases hjob)
  checkInstance _ _ := Performer.Retains.job _ rfl
  declareInstance _ _ c := show c.symbols.Retains _ from .of_eq rfl rfl rfl rfl

instance : (retainingRuns p).Writes where
  write {c c'} h := by
    have hsymbols : c'.symbols = c.symbols := by rw [h.same]
    change c.symbols.Retains c'.symbols
    rw [hsymbols]
    exact .refl _

instance [p.Retains] : (retainingRuns p).Emits where
  inFunction job hjob := Performer.Retains.job job (by cases job <;> first | rfl | cases hjob)
  instantiateFunction :=
    Discipline.Holds.instantiateFunction_of_enterInstance fun name key c =>
      show c.symbols.Retains { c.symbols with instances := c.symbols.instances.insert name key } from
      .of_eq rfl rfl rfl rfl
  setNesting _ _ := .refl _

namespace Retaining

open Discipline.Holds

variable {α : Type} {x : CompileM α} {c c' : Context}

/-- A run in a context that keeps what was registered in another one. -/
theorem endsIn {s : SymbolTables} (hx : Retaining p x) (h : s.Retains c.symbols) :
    EndsIn (fun c' => s.Retains c'.symbols) (x p c) :=
  (hx c).imp fun _ => h.trans

theorem of_ok (hx : Retaining p x) {a : α} (hrun : x p c = .ok a c') : c.symbols.Retains c'.symbols :=
  EndsIn.of_ok (hx c) hrun

theorem enterOperator (tag : OperatorTag) (owner : String) (f : FunctionSymbol) (location : Location) :
    Retaining p (CompileM.enterOperator tag owner f location) := by
  refine fun c => Discipline.get_bind _ ?_
  cases ha : c.symbols.aggregates.get? owner with
  | none => exact SymbolTables.Retains.refl _
  | some a =>
    dsimp only
    split_ifs
    · exact SymbolTables.Retains.refl _
    · exact SymbolTables.Retains.setOperators ha _

/-- An action that may begin a function. -/
theorem of_opens (hx : (retainingRuns p).Opens x) : Retaining p x := by
  intro c
  induction hx generalizing c with
  | before hx => exact hx c
  | bind hx _ ih => exact EndsIn.bind (hx c) fun a c' _ h => (ih a c').imp fun _ => h.trans
  | start f hx => exact EndsIn.bind (SymbolTables.Retains.refl _) fun _ _ _ h => Retaining.endsIn hx h

theorem emitFunction [p.Retains] (key : String) : Retaining p (CompileM.emitFunction key) :=
  Discipline.Holds.emitFunction (fun f => within (of_opens (Discipline.opens_emitSymbol f))) key

section Jobs

variable [p.Retains]

instance : (retainingRuns p).Enters where
  markChecked _ := .refl _
  copySubtree id _ := by
    rw [← bind_pure (CompileM.copySubtree id)]
    exact EndsIn.copySubtree_bind fun _ _ _ _ => SymbolTables.Retains.refl _
  declareKey _ _ _ := .of_eq rfl rfl rfl rfl
  enterTemplate _ _ _ := .of_eq rfl rfl rfl rfl
  enterAggregateTemplate _ _ _ := .of_eq rfl rfl rfl rfl
  register _ _ f location c _ := register_of_addFunction (fun tag owner => enterOperator tag owner f location)
    (fun _ _ _ => .addMethod _ _ _ _) (fun _ => .addFunction _ _) c

/-- An aggregate is registered under a name that no other has. -/
theorem registerAggregate (id : NodeId) (name : String) (decl : AggregateDecl) (isInstance : Bool)
    (location : Location) : Retaining p (CompileM.registerAggregate id name decl isInstance location) := by
  refine fun c => Discipline.get_bind _ ?_
  cases hnew : c.symbols.aggregates.get? name with
  | some existing => exact (locate existing.decl).bind (fun _ => bail _ _) c
  | none =>
    refine EndsIn.bind (Retaining.endsIn (resolveBase name decl location) (.refl _)) fun base c₁ _ h₁ => ?_
    refine EndsIn.bind (Retaining.endsIn (collectFields name decl base location) h₁) fun fields c₂ _ h₂ => ?_
    rw [CompileM.bind_of_eq_ok (CompileM.get_apply p c₂)]
    refine EndsIn.bind (h₂.addAggregate hnew) fun _ c₃ _ h₃ => ?_
    refine EndsIn.bind (Retaining.endsIn (filterMapM fun method => checkFunction method _ _) h₃)
      fun own c₄ _ h₄ => ?_
    rcases base with _ | base
    on_goal 1 => refine EndsIn.bind (Retaining.endsIn (pure _) h₄) fun inherited c₅ _ h₅ => ?_
    on_goal 2 =>
      refine EndsIn.bind (Retaining.endsIn (inheritMethods name base decl) h₄) fun inherited c₅ _ h₅ => ?_
    all_goals
      dsimp only
      rw [CompileM.bind_of_eq_ok (CompileM.get_apply p c₅)]
      cases c₅.symbols.aggregates.get? name with
      | none => exact h₅
      | some symbol => exact h₅.insertAggregate hnew _

theorem work (job : Job) (hjob : job.isCheckNode = false) : Retaining p job.work := by
  cases job with
  | collect id space => exact collect id space
  | fold id => exact foldNode id
  | checkNode id => cases hjob
  | checkFunction id owner isInstance => exact checkFunction id owner isInstance
  | checkAggregate id instanceName => exact checkAggregate_of_registers registerAggregate id instanceName
  | complete type location => exact complete type location
  | needsDefaults type location => exact needsDefaults type location
  | applyDefaults type slot skipped location => exact applyDefaults type slot skipped location
  | emitDeclaration id => exact emitDeclaration id
  | emitFunction key => exact emitFunction key
  | emitAggregate name => exact emitAggregate name
  | emitPending => exact emitPending_of_drain fun _ => .refl _
  | emitExpr id => exact emitExpr id
  | emitPlace id => exact emitPlace id
  | emitStmt id => exact emitStmt id

end Jobs
end Retaining

/-- Whatever work is done, it keeps what is registered. -/
instance (depth : Nat) : (performWithin depth).Retains := by
  induction depth with
  | zero => exact ⟨fun _ _ _ => trivial⟩
  | succ depth ih => exact ⟨Retaining.work⟩

end UnitCompiler
