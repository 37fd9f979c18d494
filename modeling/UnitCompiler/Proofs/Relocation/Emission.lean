import Mathlib
import UnitCompiler.Compile.Unit
import UnitCompiler.Proofs.Relocation.Statements

/-!
# Emission in two runs

Functions, aggregates and globals are emitted alike, and so is every job done.
-/

namespace UnitCompiler
namespace Rerun

variable {ρ : Rerun}

/-! ### Functions -/

theorem machineSignature (f : FunctionSymbol) (classes : List PassingClass) (location : Location) :
    ρ.Stable (CompileM.machineSignature f classes location) :=
  .bind (.mapM_self _ fun (type, cls) _ => passingType type cls location) fun _ =>
    .ite (fun _ => .bind (Mirrors.pure (a := IrType.i32) rfl) fun _ => .pure rfl)
      fun _ => (lower _ _).bind fun _ => .pure rfl

theorem declareParams (f : FunctionSymbol) (span : Span) (location : Location) (index : Nat)
    (params : List (String × SourceType × PassingClass × IrType)) :
    ρ.Mirrors Eq (CompileM.declareParams f span location index params)
      (CompileM.declareParams (ρ.functionSymbol f) span location index params) := by
  induction params generalizing index with
  | nil => exact .pure rfl
  | cons param rest ih =>
    obtain ⟨name, type, cls, machine⟩ := param
    exact (bindParam _ _ _ _).bind fun _ => (build _).bind fun _ => (declare _).bind fun _ =>
      .ite (fun _ => .bail _ _) fun _ => ih _

theorem openResult (f : FunctionSymbol) (span : Span) (location : Location) :
    ρ.Stable (CompileM.openResult f span location) := by
  rw [CompileM.openResult]
  cases f.constructorOf with
  | some owner =>
    exact (defaultSlot _ _).bind fun _ => (declare _).map.bind fun _ => modifyFunction fun _ h => h
  | none =>
    exact .ite (fun _ => .pure rfl) fun _ => (lower _ _).bind fun _ => (build _).bind fun _ =>
      modifyFunction fun _ h => h

theorem closeResult (f : FunctionSymbol) (location : Location) :
    ρ.Stable (CompileM.closeResult f location) :=
  (lower _ _).bind fun _ => functionState.bindSame fun _ _ => build _

theorem finishFunction : ρ.Stable CompileM.finishFunction := by
  refine functionState.bindSame fun f _ => ?_
  have hclose : ρ.Stable (modify fun c : Context => { c with function := none }) :=
    .update fun c u h => ⟨rfl, h.update ⟨h.bounded.subst, h.bounded.symbols,
      fun _ hf => nomatch hf⟩ rfl rfl rfl⟩
  refine hclose.bind fun _ => .get_bind fun c u _ => ?_
  rw [Context.program_relocate]
  cases f.builder.finish.verify c.program with
  | ok _ => exact .modifyRest (fun _ _ => rfl) fun _ => ⟨rfl, rfl, rfl, rfl, rfl, rfl⟩
  | error defect => exact .throw _

theorem emitBody (f : FunctionSymbol) (function : IrFunction) (classes : List PassingClass)
    (body : NodeId) (location : Location) :
    ρ.Mirrors Eq (CompileM.emitBody f function classes body location)
      (CompileM.emitBody (ρ.functionSymbol f) function classes (ρ.node body) location) := by
  refine .get_bind fun c u _ => ?_
  have hscope : Scope.Bounded ρ.base {} := nofun
  refine .bind (setFunctionState hscope) fun _ => openScope.bind fun _ => (spanOf f.decl).bind
    fun span => (declareParams f span location 0 _).bind fun _ => ?_
  exact (openResult f span location).bind fun _ => (Mirrors.emitStmt body).bind fun _ =>
    (closeResult f location).bind fun _ => closeScope.bind fun _ => finishFunction

theorem emitSymbol (f : FunctionSymbol) :
    ρ.Mirrors Eq (CompileM.emitSymbol f) (CompileM.emitSymbol (ρ.functionSymbol f)) := by
  refine (locate f.decl).bind fun location => (kindOf f.decl).bindMoved fun kind _ => ?_
  cases kind with
  | function decl =>
    refine (classifyParams f location).bind fun classes =>
      (machineSignature f classes location).bind fun signature => ?_
    obtain ⟨name, params, ret, body, modifiers, templateParams, operator⟩ := decl
    cases body with
    | some body => exact emitBody f _ classes body location
    | none =>
      exact .get_bind fun c u _ => .ite
        (fun _ => .modifyRest (fun _ _ => rfl) fun _ => ⟨rfl, rfl, rfl, rfl, rfl, rfl⟩)
        fun _ => .pure rfl
  | _ => exact .bail _ _

theorem emitFunction (key : String) : ρ.Stable (CompileM.emitFunction key) := by
  refine .get_bind fun c u hm => ?_
  rw [Context.symbols_relocate, SymbolTables.get?_functions_relocate]
  cases hf : c.symbols.functions.get? key with
  | none => exact .fail _
  | some f =>
    refine (beginEmit f.decl).bind fun _ => .ite (fun _ => ?_) fun _ => .pure rfl
    exact within (hm.bounded.symbols.functions key f hf) _ (emitSymbol f)

/-! ### Aggregates and globals -/

theorem emitAggregate (name : String) : ρ.Stable (CompileM.emitAggregate name) := by
  refine .get_bind fun c u _ => ?_
  rw [Context.symbols_relocate, SymbolTables.get?_aggregates_relocate]
  cases c.symbols.aggregates.get? name with
  | none => exact .fail _
  | some symbol =>
    refine (beginEmit symbol.decl).bind fun _ => .ite (fun _ => ?_) fun _ => .pure rfl
    refine (locate symbol.decl).bind fun location => (lower _ _).bind fun type => ?_
    refine .bind (.modifyRest (fun _ _ => rfl) fun _ => ⟨rfl, rfl, rfl, rfl, rfl, rfl⟩) fun _ => ?_
    exact .forM_self _ fun key _ => Mirrors.emitFunction key

theorem find?_globals_relocate (s : SymbolTables) (id : NodeId) :
    (ρ.symbols s).globals.values.find? (·.decl == ρ.node id) =
      (s.globals.values.find? (·.decl == id)).map ρ.globalSymbol := by
  have hdecl : ((fun g : GlobalSymbol => g.decl == ρ.node id) ∘ ρ.globalSymbol) =
      fun g => g.decl == id := by
    funext g
    rw [Bool.eq_iff_iff]
    simp [Relocation.globalSymbol, Relocation.node_injective.eq_iff]
  change ((s.globals.mapValues ρ.globalSymbol).values).find? _ = _
  rw [Table.values_mapValues, List.find?_map, hdecl]

theorem emitGlobal (id : NodeId) (location : Location) :
    ρ.Mirrors Eq (CompileM.emitGlobal id location) (CompileM.emitGlobal (ρ.node id) location) := by
  refine .get_bind fun c u _ => ?_
  rw [Context.symbols_relocate, find?_globals_relocate]
  cases c.symbols.globals.values.find? (·.decl == id) with
  | none => exact .bail _ _
  | some symbol =>
    have hadd : ∀ global : GlobalVariable, ρ.Stable
        (modify fun c : Context => { c with program := c.program.addGlobal global }) :=
      fun _ => .modifyRest (fun _ _ => rfl) fun _ => ⟨rfl, rfl, rfl, rfl, rfl, rfl⟩
    refine (lower _ _).bind fun type => ?_
    obtain ⟨decl, name, linkName, declared, isConst, value⟩ := symbol
    cases value with
    | some value => exact (Mirrors.orBail _ _).bind fun _ => hadd _
    | none => exact .bind (Mirrors.pure (a := IrConstant.zero type) rfl) fun _ => hadd _

theorem emitPending : ρ.Stable CompileM.emitPending := by
  refine .get_bind fun c u _ => ?_
  refine .bind (.modifyRest (fun _ _ => rfl) fun _ => ⟨rfl, rfl, rfl, rfl, rfl, rfl⟩) fun _ => ?_
  refine .bind (.forM_self _ fun item _ => ?_) fun _ => .get_bind fun c u _ =>
    .ite (fun _ => Mirrors.emitPending) fun _ => .pure rfl
  cases item with
  | function key => exact Mirrors.emitFunction key
  | aggregate name => exact Mirrors.emitAggregate name

theorem emitDeclaration (id : NodeId) :
    ρ.Mirrors Eq (CompileM.emitDeclaration id) (CompileM.emitDeclaration (ρ.node id)) := by
  refine (locate id).bind fun location => (kindOf id).bindMoved fun kind _ => ?_
  cases kind with
  | function decl =>
    refine .ite (fun _ => .pure rfl) fun _ => .get_bind fun c u _ => ?_
    rw [Context.symbols_relocate, SymbolTables.get?_declaredKeys_relocate]
    cases c.symbols.declaredKeys.get? id with
    | none => exact .bail _ _
    | some key => exact Mirrors.emitFunction key
  | aggregate decl =>
    refine .ite (fun _ => .pure rfl) fun _ => .get_bind fun c u _ => ?_
    rw [Context.symbols_relocate, SymbolTables.get?_declaredNames_relocate]
    cases c.symbols.declaredNames.get? id with
    | none => exact .bail _ _
    | some name => exact Mirrors.emitAggregate name
  | «variable» decl =>
    exact (beginEmit id).bind fun _ => .ite (fun _ => emitGlobal id location) fun _ => .pure rfl
  | space name items => exact inSpace name (.forM items fun item _ => Mirrors.emitDeclaration item)
  | staticIf cond yes no =>
    refine (staticBranch cond yes no).bindRel fun branch _ hbranch => ?_
    subst hbranch
    cases branch with
    | none => exact .pure rfl
    | some branch => exact Mirrors.emitDeclaration branch
  | block items => exact .forM items fun item _ => Mirrors.emitDeclaration item
  | «alias» _ | builtin _ _ => exact .pure rfl
  | _ => exact .bail _ _

/-! ### Jobs -/

/-- Jobs that nest equally deep are done alike. -/
theorem performers_performWithin (depth : Nat) :
    ρ.Performers (performWithin depth) (performWithin depth) := by
  induction depth with
  | zero =>
    constructor <;> intros <;> exact fun c u h => .inr ⟨.exhausted, c, u, rfl, rfl, h⟩
  | succ depth ih =>
    exact
      { collect := fun id space => collect id space _ _ ih
        fold := fun id => foldNode id _ _ ih
        checkNode := fun id => checkNode id _ _ ih
        checkFunction := fun id owner isInstance => checkFunction id owner isInstance _ _ ih
        checkAggregate := fun id instanceName => checkAggregate id instanceName _ _ ih
        complete := fun type location => complete type location _ _ ih
        needsDefaults := fun type location => needsDefaults type location _ _ ih
        applyDefaults := fun type slot skipped location =>
          applyDefaults type slot skipped location _ _ ih
        emitDeclaration := fun id => emitDeclaration id _ _ ih
        emitFunction := fun key => emitFunction key _ _ ih
        emitAggregate := fun name => emitAggregate name _ _ ih
        emitPending := emitPending _ _ ih
        emitExpr := fun id => emitExpr id _ _ ih
        emitPlace := fun id => emitPlace id _ _ ih
        emitStmt := fun id => emitStmt id _ _ ih }

end Rerun
end UnitCompiler
