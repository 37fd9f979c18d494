import Mathlib
import UnitCompiler.Compile.Emit.Statement
import UnitCompiler.Proofs.Relocation.Expressions

/-!
# Statements in two runs

Every statement is emitted alike.
-/

namespace UnitCompiler
namespace Rerun

variable {ρ : Rerun}

theorem emitItems (items : List NodeId) :
    ρ.Mirrors Eq (CompileM.emitItems items) (CompileM.emitItems (items.map ρ.node)) := by
  induction items with
  | nil => exact .pure rfl
  | cons item rest ih =>
    refine functionState.bindSame fun f _ => ?_
    exact .ite (fun _ => .pure rfl) fun _ => (Mirrors.emitStmt item).bind fun _ => ih

theorem emitBlock (items : List NodeId) (location : Location) :
    ρ.Mirrors Eq (CompileM.emitBlock items location)
      (CompileM.emitBlock (items.map ρ.node) location) := by
  refine .get_bind fun c u h => .ite (fun _ => .bail _ _) fun _ => ?_
  have hset : ρ.Moves { c with nestingDepth := c.nestingDepth + 1 } u :=
    h.keeps ⟨rfl, rfl, rfl, rfl, rfl, rfl⟩
  refine (Mirrors.set rfl hset).bind fun _ => openScope.bind fun _ => (emitItems items).bind
    fun _ => closeScope.bind fun _ => ?_
  exact .modifyRest (fun _ _ => rfl) fun _ => ⟨rfl, rfl, rfl, rfl, rfl, rfl⟩

theorem localSlot (type : SourceType) (hasInit : Bool) (location : Location) :
    ρ.Stable (CompileM.localSlot type hasInit location) := by
  have hslot : ∀ usesDefaults : Bool, ρ.Stable
      (if usesDefaults then CompileM.defaultSlot type location
        else do
          let machine ← CompileM.lower type location
          CompileM.build (FunctionBuilder.alloca machine)) :=
    fun _ => .ite (fun _ => defaultSlot _ _) fun _ => (lower _ _).bind fun _ => build _
  exact .ite (fun _ => hslot false) fun _ => (needsDefaults _ _).bind hslot

/-- A local enters its scope. -/
theorem enterLocal (id : NodeId) (name : String) (type : SourceType) (slot : Operand)
    (location : Location) :
    ρ.Mirrors Eq
      (do
        let declared ← CompileM.declare { name, type, slot, span := ← CompileM.spanOf id }
        if !declared then CompileM.bail location (.variableInScope name))
      (do
        let declared ← CompileM.declare { name, type, slot, span := ← CompileM.spanOf (ρ.node id) }
        if !declared then CompileM.bail location (.variableInScope name)) :=
  (spanOf id).bind fun _ => (declare _).bind fun _ => .ite (fun _ => .bail _ _) fun _ => .pure rfl

/-- A local gets its first value, if there is one, before it enters its scope. -/
theorem initializeLocal (id : NodeId) (name : String) (value : Option Rvalue) (type : SourceType)
    (slot : Operand) (location : Location) :
    ρ.Mirrors Eq
      (do
        if let some value := value then
          let value ← CompileM.coerce value type location
          CompileM.build (FunctionBuilder.store value.operand slot)
        let declared ← CompileM.declare { name, type, slot, span := ← CompileM.spanOf id }
        if !declared then CompileM.bail location (.variableInScope name))
      (do
        if let some value := value then
          let value ← CompileM.coerce value type location
          CompileM.build (FunctionBuilder.store value.operand slot)
        let declared ← CompileM.declare { name, type, slot, span := ← CompileM.spanOf (ρ.node id) }
        if !declared then CompileM.bail location (.variableInScope name)) := by
  cases value with
  | none => exact enterLocal id name type slot location
  | some value =>
    exact (coerce _ _ _).bind fun _ => (build _).bind fun _ => enterLocal id name type slot location

theorem emitLocal (id : NodeId) {decl : VariableDecl}
    (h : ∀ type, decl.type = some type → type.Bounded ρ.base) (location : Location) :
    ρ.Mirrors Eq (CompileM.emitLocal id decl location)
      (CompileM.emitLocal (ρ.node id) (ρ.variableDecl decl) location) := by
  obtain ⟨name, declared, init, isConst⟩ := decl
  refine (Mirrors.optionMapM init fun node => Mirrors.emitExpr node).bind fun value => ?_
  cases declared with
  | some declared =>
    refine (resolveType (h declared rfl) location).bindSame fun type _ => ?_
    exact .ite (fun _ => .bail _ _) fun _ => .ite (fun _ => .bail _ _) fun _ =>
      (localSlot _ _ _).bind fun slot => initializeLocal id name value _ slot location
  | none =>
    cases value with
    | none => exact .bail _ _
    | some value =>
      refine .bind (Mirrors.pure (a := value.type.strip) rfl) fun type => ?_
      exact .ite (fun _ => .bail _ _) fun _ => .ite (fun _ => .bail _ _) fun _ =>
        (localSlot _ _ _).bind fun slot => initializeLocal id name (some value) _ slot location

/-- A branch of a conditional. -/
theorem emitBranch (start : Nat) (body : NodeId) (next : Nat) :
    ρ.Mirrors Eq (CompileM.emitBranch start body next)
      (CompileM.emitBranch start (ρ.node body) next) :=
  (build _).bind fun _ => (Mirrors.emitStmt body).bind fun _ => build _

theorem emitIf (cond yes : NodeId) (no : Option NodeId) :
    ρ.Mirrors Eq (CompileM.emitIf cond yes no)
      (CompileM.emitIf (ρ.node cond) (ρ.node yes) (no.map ρ.node)) := by
  refine (emitCondition cond).bind fun condition => ?_
  cases no with
  | none =>
    refine (build _).bind fun (yesBlock, noBlock, endBlock) => (emitBranch _ _ _).bind fun _ => ?_
    cases noBlock <;> exact build _
  | some no =>
    refine (build _).bind fun (yesBlock, noBlock, endBlock) => (emitBranch _ _ _).bind fun _ => ?_
    cases noBlock with
    | none => exact build _
    | some start => exact (emitBranch _ _ _).bind fun _ => build _

theorem emitLoopBody (body : NodeId) (breakTo continueTo : Nat) :
    ρ.Mirrors Eq (CompileM.emitLoopBody body breakTo continueTo)
      (CompileM.emitLoopBody (ρ.node body) breakTo continueTo) :=
  .bind (modifyFunction fun _ h => h) fun _ => (Mirrors.emitStmt body).bind fun _ =>
    modifyFunction fun _ h => h

theorem emitWhile (cond body : NodeId) :
    ρ.Mirrors Eq (CompileM.emitWhile cond body)
      (CompileM.emitWhile (ρ.node cond) (ρ.node body)) :=
  (build _).bind fun _ => (emitCondition cond).bind fun _ => (build _).bind fun _ =>
    (emitLoopBody body _ _).bind fun _ => build _

theorem emitFor (init cond step : Option NodeId) (body : NodeId) :
    ρ.Mirrors Eq (CompileM.emitFor init cond step body)
      (CompileM.emitFor (init.map ρ.node) (cond.map ρ.node) (step.map ρ.node) (ρ.node body)) := by
  refine openScope.bind fun _ => ?_
  rcases init with _ | init
  on_goal 2 => refine (Mirrors.emitStmt init).bind fun _ => ?_
  all_goals
    refine (build _).bind fun (condBlock, bodyBlock, stepBlock, endBlock) => ?_
    rcases cond with _ | cond
    on_goal 1 => refine (build _).bind fun _ => ?_
    on_goal 2 => refine (emitCondition cond).bind fun _ => (build _).bind fun _ => ?_
    all_goals
      refine (build _).bind fun _ => (emitLoopBody body _ _).bind fun _ => (build _).bind fun _ => ?_
      rcases step with _ | step
      on_goal 2 => refine (Mirrors.emitExpr step).map.bind fun _ => ?_
      all_goals exact (build _).bind fun _ => closeScope

theorem emitReturn (value : Option NodeId) (location : Location) :
    ρ.Mirrors Eq (CompileM.emitReturn value location)
      (CompileM.emitReturn (value.map ρ.node) location) := by
  refine functionState.bindSame fun f _ => ?_
  refine .ite (fun _ => .bail _ _) fun _ => .ite (fun _ => ?_) fun _ => ?_
  · rw [Option.isSome_map]
    exact .ite (fun _ => .bail _ _) fun _ => build _
  · cases value with
    | none =>
      cases f.resultSlot with
      | none => exact build _
      | some slot => exact .bail _ _
    | some value =>
      cases f.resultSlot with
      | none => exact .bail _ _
      | some slot =>
        exact (Mirrors.emitExpr value).bind fun _ => (coerce _ _ _).bind fun _ =>
          (build _).bind fun _ => build _

theorem emitCase (scrutinee : Rvalue) (endBlock : Nat) (case : SwitchCase) :
    ρ.Mirrors Eq (CompileM.emitCase scrutinee endBlock case)
      (CompileM.emitCase scrutinee endBlock (ρ.case case)) :=
  (locate case.value).bind fun _ => (Mirrors.emitExpr case.value).bind fun _ =>
    (emitOperation _ _ _ _).bind fun _ => (truthValue _ _).bind fun _ => (build _).bind fun _ =>
      (Mirrors.emitStmt case.body).bind fun _ => build _

theorem emitSwitch (value : NodeId) (cases : List SwitchCase) (default : Option NodeId)
    (location : Location) :
    ρ.Mirrors Eq (CompileM.emitSwitch value cases default location)
      (CompileM.emitSwitch (ρ.node value) (cases.map ρ.case) (default.map ρ.node) location) := by
  rcases cases with _ | ⟨case, rest⟩
  · exact .bail _ _
  refine (Mirrors.emitExpr value).bind fun scrutinee => (build _).bind fun endBlock => ?_
  refine .bind (.forM (case :: rest) fun case _ => emitCase scrutinee endBlock case) fun _ => ?_
  cases default with
  | none => exact build _
  | some body => exact (Mirrors.emitStmt body).bind fun _ => build _

theorem foreachCount (place : Place) (length : Option NodeId) (location : Location) :
    ρ.Mirrors Eq (CompileM.foreachCount place length location)
      (CompileM.foreachCount place (length.map ρ.node) location) := by
  unfold CompileM.foreachCount
  generalize place.type.strip = type
  cases length with
  | none =>
    cases type with
    | array element count =>
      cases count with
      | fixed count => exact emitConst _
      | _ => exact .bail _ _
    | _ => exact .bail _ _
  | some length =>
    cases type with
    | array _ _ | pointer _ =>
      exact (Mirrors.emitExpr length).bind fun _ => .ite (fun _ => .bail _ _) fun _ => castTo _ _ _
    | _ => exact .bail _ _

theorem emitForeachBody (id : NodeId) (name : String) (place counter : Place) (body : NodeId)
    (endBlock stepBlock : Nat) (location : Location) :
    ρ.Mirrors Eq (CompileM.emitForeachBody id name place counter body endBlock stepBlock location)
      (CompileM.emitForeachBody (ρ.node id) name place counter (ρ.node body) endBlock stepBlock
        location) :=
  openScope.bind fun _ => (loadPlace _ _).bind fun _ => (elementPlace _ _ _).bind fun _ =>
    (loadPlace _ _).bind fun _ => (materialize _ _).bind fun _ => (spanOf id).bind fun _ =>
      (declare _).map.bind fun _ => (emitLoopBody body _ _).bind fun _ => closeScope

theorem emitForeach (id : NodeId) (name : String) (data : NodeId) (length : Option NodeId)
    (body : NodeId) (location : Location) :
    ρ.Mirrors Eq (CompileM.emitForeach id name data length body location)
      (CompileM.emitForeach (ρ.node id) name (ρ.node data) (length.map ρ.node) (ρ.node body)
        location) :=
  (placeOrSlot data).bind fun place => (foreachCount place length location).bind fun _ =>
    (emitConst _).bind fun _ => (materialize _ _).bind fun _ => (build _).bind fun _ =>
      (loadPlace _ _).bind fun _ => (emitOperation _ _ _ _).bind fun _ => (truthValue _ _).bind
        fun _ => (build _).bind fun _ => (emitForeachBody id name place _ body _ _ location).bind
          fun _ => (build _).bind fun _ => (loadPlace _ _).bind fun _ => (emitConst _).bind
            fun _ => (emitOperation _ _ _ _).bind fun _ => build _

theorem emitDefer (stmt : NodeId) (location : Location) :
    ρ.Mirrors Eq (CompileM.emitDefer stmt location)
      (CompileM.emitDefer (ρ.node stmt) location) := by
  refine functionState.bindSame fun f _ => ?_
  refine .ite (fun _ => .bail _ _) fun _ => (build _).bind fun _ => ?_
  refine .bind (modifyFunction fun _ h => h) fun _ => (Mirrors.emitStmt stmt).bind fun _ => ?_
  exact .bind (modifyFunction fun _ h => h) fun _ => build _

theorem emitDestroy (value : NodeId) (location : Location) :
    ρ.Mirrors Eq (CompileM.emitDestroy value location)
      (CompileM.emitDestroy (ρ.node value) location) := by
  refine (memberBase value location).bind fun (owner, this) => .get_bind fun c u _ => ?_
  rw [Context.symbols_relocate, SymbolTables.methodsOf_relocate]
  cases c.symbols.methodsOf owner FunctionDecl.destructorName with
  | nil => exact .pure rfl
  | cons key rest => exact (callFunction _ _ _).map

theorem emitJump (word : String) (target : LoopTargets → Nat) (location : Location) :
    ρ.Stable (CompileM.emitJump word target location) := by
  refine functionState.bindSame fun f _ => ?_
  cases f.loops with
  | nil => exact .bail _ _
  | cons targets rest => exact build _

theorem emitLocalAlias {decl : AliasDecl} (h : decl.target.Bounded ρ.base) (location : Location) :
    ρ.Mirrors Eq (CompileM.emitLocalAlias decl location)
      (CompileM.emitLocalAlias (ρ.aliasDecl decl) location) := by
  refine (aliasEntry location h).bindSame fun entry hentry => ?_
  refine functionState.bindSame fun f hf => ?_
  have hscope := hf.declareAlias decl.name hentry
  change ρ.Mirrors Eq (do
      CompileM.setFunctionState { f with scope := (f.scope.declareAlias decl.name entry).2 }
      if !(f.scope.declareAlias decl.name entry).1 then
        CompileM.bail location (.aliasInScope decl.name)) (do
      CompileM.setFunctionState { f with scope := (f.scope.declareAlias decl.name entry).2 }
      if !(f.scope.declareAlias decl.name entry).1 then
        CompileM.bail location (.aliasInScope decl.name))
  exact .bind (setFunctionState hscope) fun _ => .ite (fun _ => .bail _ _) fun _ => .pure rfl

theorem emitStmt (id : NodeId) :
    ρ.Mirrors Eq (CompileM.emitStmt id) (CompileM.emitStmt (ρ.node id)) := by
  refine (locate id).bind fun location => (kindOf id).bindMoved fun kind hbounded => ?_
  cases kind with
  | block items => exact emitBlock items location
  | «variable» decl => exact emitLocal id (fun _ => hbounded.variable) location
  | ifElse cond yes no => exact emitIf cond yes no
  | whileLoop cond body => exact emitWhile cond body
  | forLoop init cond step body => exact emitFor init cond step body
  | foreach name data length body => exact emitForeach id name data length body location
  | switch value cases default => exact emitSwitch value cases default location
  | defer stmt => exact emitDefer stmt location
  | destroy value => exact emitDestroy value location
  | breakLoop | continueLoop => exact emitJump _ _ location
  | ret value => exact emitReturn value location
  | staticIf cond yes no =>
    refine (staticBranch cond yes no).bindRel fun branch _ hbranch => ?_
    subst hbranch
    cases branch with
    | none => exact .pure rfl
    | some branch => exact Mirrors.emitStmt branch
  | builtin name args => exact (evalBuiltin id name hbounded.builtinArgs).map
  | «alias» decl => exact emitLocalAlias hbounded.aliasTarget location
  | function _ | aggregate _ | space _ _ => exact .bail _ _
  | _ => exact (Mirrors.emitExpr id).map

end Rerun
end UnitCompiler
