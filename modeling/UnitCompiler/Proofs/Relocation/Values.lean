import Mathlib
import UnitCompiler.Compile.Emit.Initialization
import UnitCompiler.Proofs.Relocation.Declarations

/-!
# Values in two runs

Conversions, places, arithmetic, calls and default values are emitted alike.
-/

namespace UnitCompiler
namespace Rerun

variable {ρ : Rerun}

/-! ### Conversions -/

theorem truthValue (value : Rvalue) (location : Location) :
    ρ.Stable (CompileM.truthValue value location) := by
  rw [CompileM.truthValue]
  split
  · exact .pure rfl
  · exact (lower _ _).bind fun _ => build _
  · exact .ite (fun _ => .bail _ _) fun _ => .get_bind fun _ _ _ => build _

theorem reinterpret (value : Rvalue) (target : SourceType) (location : Location) :
    ρ.Stable (CompileM.reinterpret value target location) :=
  (lower _ _).bind fun _ => (lower _ _).bind fun _ => .get_bind fun _ _ _ =>
    (build _).bind fun _ => .pure rfl

theorem convertValue (value : Rvalue) (target : SourceType) (location : Location) :
    ρ.Stable (CompileM.convertValue value target location) := by
  refine (Mirrors.orBail _ _).bind fun conversion => (lower _ _).bind fun machine => ?_
  split
  · exact .pure rfl
  · exact reinterpret _ _ _
  · exact (build _).bind fun _ => .pure rfl
  · exact (build _).bind fun _ => .pure rfl
  · cases conversion.op? with
    | some op => exact (build _).bind fun _ => .pure rfl
    | none => exact .pure rfl

theorem castTo (value : Rvalue) (type : SourceType) (location : Location) :
    ρ.Stable (CompileM.castTo value type location) :=
  .ite (fun _ => (truthValue _ _).bind fun _ => .pure rfl) fun _ =>
    .ite (fun _ => (build _).bind fun _ => convertValue _ _ _) fun _ => convertValue _ _ _

theorem coerce (value : Rvalue) (type : SourceType) (location : Location) :
    ρ.Stable (CompileM.coerce value type location) :=
  .ite (fun _ => .pure rfl) fun _ => .ite (fun _ => castTo _ _ _) fun _ =>
    .ite (fun _ => (lower _ _).bind fun _ => (build _).bind fun _ => .pure rfl) fun _ => .bail _ _

/-! ### Places -/

theorem loadPlace (place : Place) (location : Location) :
    ρ.Stable (CompileM.loadPlace place location) := by
  rw [CompileM.loadPlace]
  split
  · exact (lower _ _).bind fun _ => (build _).bind fun _ => .pure rfl
  · exact (lower _ _).bind fun _ => (build _).bind fun _ => .pure rfl

theorem materialize (value : Rvalue) (location : Location) :
    ρ.Stable (CompileM.materialize value location) :=
  (lower _ _).bind fun _ => (build _).bind fun _ => .pure rfl

theorem variablePlace (name : String) (location : Location) :
    ρ.Stable (CompileM.variablePlace name location) := by
  refine functionState.bindSame fun f hf => ?_
  cases f.scope.lookup name with
  | some v =>
    have hset : ρ.Stable
        (CompileM.setFunctionState { f with scope := f.scope.markUsed name }) :=
      setFunctionState (hf.markUsed name)
    exact hset.bind fun _ => .pure rfl
  | none =>
    refine .get_bind fun c u _ => ?_
    rw [Context.global?_relocate]
    cases c.global? name with
    | none => exact .bail _ _
    | some global => exact (lower _ _).bind fun _ => .pure rfl

theorem isPlaceExpr (id : NodeId) :
    ρ.Mirrors Eq (CompileM.isPlaceExpr id) (CompileM.isPlaceExpr (ρ.node id)) := by
  refine (kindOf id).bindMoved fun kind _ => ?_
  cases kind with
  | ident name args =>
    cases args with
    | nil =>
      refine .get_bind fun c u _ => ?_
      rw [Context.isVariable_relocate]
      exact .pure rfl
    | cons arg rest => exact .pure rfl
  | _ => exact .pure rfl

theorem placeOrSlot (id : NodeId) :
    ρ.Mirrors Eq (CompileM.placeOrSlot id) (CompileM.placeOrSlot (ρ.node id)) :=
  (isPlaceExpr id).bind fun _ => .ite (fun _ => Mirrors.emitPlace id) fun _ =>
    (locate id).bind fun _ => (Mirrors.emitExpr id).bind fun _ => materialize _ _

theorem memberBase (base : NodeId) (location : Location) :
    ρ.Mirrors Eq (CompileM.memberBase base location)
      (CompileM.memberBase (ρ.node base) location) := by
  refine (placeOrSlot base).bind fun place => ?_
  split
  · exact .pure rfl
  · exact .ite (fun _ => .bail _ _) fun _ => (lower _ _).bind fun _ => (build _).bind fun _ => .pure rfl
  · exact .bail _ _

theorem fieldPlace (address : Operand) (field : FieldSymbol) (location : Location) :
    ρ.Mirrors Eq (CompileM.fieldPlace address field location)
      (CompileM.fieldPlace address (ρ.fieldSymbol field) location) :=
  (lower _ _).bind fun _ => (build _).bind fun _ => .pure rfl

theorem memberPlace (base : NodeId) (name : String) (location : Location) :
    ρ.Mirrors Eq (CompileM.memberPlace base name location)
      (CompileM.memberPlace (ρ.node base) name location) := by
  refine (memberBase base location).bind fun found => .get_bind fun c u _ => ?_
  dsimp only
  rw [Context.symbols_relocate, SymbolTables.field?_relocate, SymbolTables.methodsOf_relocate]
  cases c.symbols.field? found.1 name with
  | some field => exact fieldPlace _ _ _
  | none => exact .ite (fun _ => .bail _ _) fun _ => .bail _ _

theorem elementPlace (base : Place) (index : Rvalue) (location : Location) :
    ρ.Stable (CompileM.elementPlace base index location) := by
  refine .ite (fun _ => .bail _ _) fun _ => (castTo _ _ _).bind fun index => ?_
  split
  · exact (lower _ _).bind fun _ => (build _).bind fun _ => .pure rfl
  · exact .ite (fun _ => .bail _ _) fun _ => (lower _ _).bind fun _ => (lower _ _).bind fun _ =>
      (build _).bind fun _ => .pure rfl
  · exact .bail _ _

theorem indexPlace (base : Place) (index : NodeId) (location : Location) :
    ρ.Mirrors Eq (CompileM.indexPlace base index location)
      (CompileM.indexPlace base (ρ.node index) location) :=
  (Mirrors.emitExpr index).bind fun _ => elementPlace _ _ _

theorem derefPlace (pointer : Rvalue) (location : Location) :
    ρ.Stable (CompileM.derefPlace pointer location) := by
  rw [CompileM.derefPlace]
  split
  · exact .ite (fun _ => .bail _ _) fun _ => .pure rfl
  · exact .bail _ _

/-! ### Arithmetic -/

theorem emitCompare (op : BinaryOp) (a b : Operand) (isUnsigned : Bool) :
    ρ.Stable (CompileM.emitCompare op a b isUnsigned) := by
  rw [CompileM.emitCompare]
  cases op.compareOp? isUnsigned with
  | some op => exact (build _).bind fun _ => .pure rfl
  | none => exact .fail _

theorem offsetPointer (op : BinaryOp) (pointer : Rvalue) (element : SourceType) (offset : Rvalue)
    (location : Location) : ρ.Stable (CompileM.offsetPointer op pointer element offset location) :=
  (castTo _ _ _).bind fun _ => (lower _ _).bind fun _ => (build _).bind fun _ => .pure rfl

theorem comparePointers (op : BinaryOp) (left right : Rvalue) :
    ρ.Stable (CompileM.comparePointers op left right) :=
  .get_bind fun _ _ _ => (build _).bind fun _ => emitCompare _ _ _ _

theorem emitNumeric (op : BinaryOp) (left right : Rvalue) (kind : Scalar) (location : Location) :
    ρ.Stable (CompileM.emitNumeric op left right kind location) := by
  refine (castTo _ _ _).bind fun a => (castTo _ _ _).bind fun b =>
    .ite (fun _ => emitCompare _ _ _ _) fun _ => ?_
  cases op.arithOp? kind with
  | some op => exact (build _).bind fun _ => .pure rfl
  | none => exact .bail _ _

theorem emitArith (op : BinaryOp) (left right : Rvalue) (location : Location) :
    ρ.Stable (CompileM.emitArith op left right location) := by
  unfold CompileM.emitArith
  dsimp only
  split
  · exact offsetPointer _ _ _ _ _
  · exact emitNumeric _ _ _ _ _
  · exact .ite (fun _ => comparePointers _ _ _) fun _ => .bail _ _

/-! ### Calls -/

theorem emitArgument (id : NodeId) :
    ρ.Mirrors Eq (CompileM.emitArgument id) (CompileM.emitArgument (ρ.node id)) := by
  refine (locate id).bind fun location => (isPlaceExpr id).bind fun isPlace => ?_
  refine .ite (fun _ => ?_) fun _ => ?_
  · refine (Mirrors.emitPlace id).bind fun place => (loadPlace _ _).bind fun value => ?_
    exact .ite (fun _ => .bail _ _) fun _ => .pure rfl
  · exact (Mirrors.emitExpr id).bind fun value => .ite (fun _ => .bail _ _) fun _ => .pure rfl

theorem emitArguments (ids : List NodeId) :
    ρ.Mirrors Eq (CompileM.emitArguments ids) (CompileM.emitArguments (ids.map ρ.node)) :=
  .mapM_eq ids fun id _ => emitArgument id

theorem adaptArgument (arg : Argument) (param : SourceType) (location : Location) :
    ρ.Stable (CompileM.adaptArgument arg param location) := by
  refine .ite (fun _ => ?_) fun _ => .ite (fun _ => ?_) fun _ => coerce _ _ _
  · cases arg.place with
    | some place => exact .pure rfl
    | none => exact (materialize _ _).bind fun _ => .pure rfl
  · exact (lower _ _).bind fun _ => (build _).bind fun _ => .pure rfl

theorem checkArity (name : String) (expected got : Nat) (isVariadic : Bool) (location : Location) :
    ρ.Stable (CompileM.checkArity name expected got isVariadic location) :=
  .ite (fun _ => .bail _ _) fun _ => .pure rfl

theorem passArguments (location : Location) (args : List Argument)
    (params : List (SourceType × PassingClass)) :
    ρ.Stable (CompileM.passArguments location args params) := by
  induction args generalizing params with
  | nil => exact .pure rfl
  | cons arg rest ih =>
    cases params with
    | nil => exact (ih []).bind fun _ => .pure rfl
    | cons param params =>
      obtain ⟨param, cls⟩ := param
      refine (adaptArgument arg param location).bind fun value => ?_
      cases cls with
      | direct => exact .bind (Mirrors.pure (a := value.operand) rfl) fun _ =>
          (ih params).bind fun _ => .pure rfl
      | _ => exact (passArgument _ _ _ _).bind fun _ => (ih params).bind fun _ => .pure rfl

theorem callFunction (key : String) (args : List Argument) (location : Location) :
    ρ.Stable (CompileM.callFunction key args location) := by
  refine .get_bind fun c u _ => ?_
  rw [Context.symbols_relocate, SymbolTables.get?_functions_relocate]
  cases c.symbols.functions.get? key with
  | none => exact .bail _ _
  | some f =>
    refine (checkArity _ _ _ _ _).bind fun _ => (classifyParams f location).bind fun classes => ?_
    refine (passArguments _ _ _).bind fun operands => .ite (fun _ => ?_) fun _ => ?_
    · exact .bind (Mirrors.pure (a := IrType.i32) rfl) fun _ => (build _).bind fun _ => .pure rfl
    · exact (lower _ _).bind fun _ => (build _).bind fun _ => .pure rfl

theorem callableType (location : Location) (type : SourceType) :
    ρ.Stable (CompileM.callableType location type) := by
  rw [CompileM.callableType]
  split
  · exact .pure rfl
  · split
    · exact .pure rfl
    · exact .bail _ _
  · exact .bail _ _

theorem callIndirect (target : Rvalue) (args : List Argument) (location : Location) :
    ρ.Stable (CompileM.callIndirect target args location) :=
  (callableType _ _).bind fun _ => (checkArity _ _ _ _ _).bind fun _ =>
    (passArguments _ _ _).bind fun _ => (lower _ _).bind fun _ => (build _).bind fun _ => .pure rfl

theorem callOperator (owner : String) (tag : OperatorTag) (operands : List Rvalue)
    (location : Location) : ρ.Stable (CompileM.callOperator owner tag operands location) := by
  refine .get_bind fun c u _ => ?_
  rw [Context.symbols_relocate, SymbolTables.operator_relocate]
  refine (Mirrors.orBail _ _).bind fun target => (callFunction _ _ _).bind fun result => ?_
  exact .ite (fun _ => .pure rfl) fun _ => .ite (fun _ => .bail _ _) fun _ =>
    (build _).bind fun _ => .pure rfl

theorem callIndex (base : Place) (index : NodeId) (stored : Option Rvalue) (location : Location) :
    ρ.Mirrors Eq (CompileM.callIndex base index stored location)
      (CompileM.callIndex base (ρ.node index) stored location) := by
  refine (loadPlace _ _).bind fun object => (Mirrors.emitExpr index).bind fun position => ?_
  cases stored with
  | some value => exact callOperator _ _ _ _
  | none => exact callOperator _ _ _ _

/-! ### Default values -/

theorem fieldsOf (type : SourceType) (location : Location) :
    ρ.Mirrors (fun l l' => l' = l.map ρ.fieldSymbol) (CompileM.fieldsOf type location)
      (CompileM.fieldsOf type location) := by
  rw [CompileM.fieldsOf]
  cases type.aggregateName? with
  | none => exact .pure rfl
  | some name =>
    refine (ensureChecked name location).bind fun _ => .get_bind fun c u _ => ?_
    rw [Context.symbols_relocate, SymbolTables.get?_aggregates_relocate]
    cases c.symbols.aggregates.get? name <;> exact .pure rfl

theorem anyDefault (location : Location) (fields : List FieldSymbol) :
    ρ.Mirrors Eq (CompileM.anyDefault location fields)
      (CompileM.anyDefault location (fields.map ρ.fieldSymbol)) := by
  induction fields with
  | nil => exact .pure rfl
  | cons field rest ih =>
    obtain ⟨name, type, index, default⟩ := field
    cases default with
    | some node => exact .pure rfl
    | none =>
      exact (Mirrors.needsDefaults type location).bind fun _ => .ite (fun _ => .pure rfl) fun _ => ih

theorem needsDefaults (type : SourceType) (location : Location) :
    ρ.Stable (CompileM.needsDefaults type location) :=
  (fieldsOf type location).bindRel fun fields _ hfields => hfields ▸ anyDefault location fields

theorem applyDefault (slot : Operand) (location : Location) (field : FieldSymbol) :
    ρ.Mirrors Eq (CompileM.applyDefault slot location field)
      (CompileM.applyDefault slot location (ρ.fieldSymbol field)) := by
  obtain ⟨name, type, index, default⟩ := field
  cases default with
  | some node =>
    exact (fieldPlace slot _ location).bind fun _ => (Mirrors.emitExpr node).bind fun _ =>
      (coerce _ _ _).bind fun _ => build _
  | none =>
    refine (Mirrors.needsDefaults type location).bind fun _ => .ite (fun _ => ?_) fun _ => .pure rfl
    exact (fieldPlace slot _ location).bind fun _ => Mirrors.applyDefaults _ _ _ _

theorem applyDefaults (type : SourceType) (slot : Operand) (skipped : Nat) (location : Location) :
    ρ.Stable (CompileM.applyDefaults type slot skipped location) := by
  refine (fieldsOf type location).bindRel fun fields _ hfields => ?_
  rw [hfields, ← List.map_drop]
  exact .forM _ fun field _ => applyDefault slot location field

theorem defaultSlot (type : SourceType) (location : Location) :
    ρ.Stable (CompileM.defaultSlot type location) :=
  (lower _ _).bind fun _ => (build _).bind fun _ => (Mirrors.applyDefaults _ _ _ _).bind
    fun _ => .pure rfl

theorem constructDefault (name : String) (argCount : Nat) (location : Location) :
    ρ.Stable (CompileM.constructDefault name argCount location) :=
  .ite (fun _ => .bail _ _) fun _ => (lower _ _).bind fun _ => (defaultSlot _ _).bind fun _ =>
    (build _).bind fun _ => .pure rfl

theorem construct (name : String) (args : List NodeId) (location : Location) :
    ρ.Mirrors Eq (CompileM.construct name args location)
      (CompileM.construct name (args.map ρ.node) location) := by
  refine .get_bind fun c u _ => ?_
  rw [Context.symbols_relocate, SymbolTables.overloads_relocate, List.length_map]
  cases c.symbols.overloads.get? name with
  | none => exact constructDefault _ _ _
  | some keys =>
    refine (emitArguments args).bind fun args => .get_bind fun c u _ => ?_
    rw [Context.symbols_relocate, SymbolTables.pickOverload_relocate]
    exact (Mirrors.orBail _ _).bind fun _ => callFunction _ _ _

theorem constructedAggregate (name : String) (location : Location) :
    ρ.Stable (CompileM.constructedAggregate name location) := by
  refine .get_bind fun c u _ => ?_
  have hknows : (ρ.context c u).symbols.knowsAggregate = c.symbols.knowsAggregate :=
    funext fun _ => SymbolTables.knowsAggregate_relocate _
  rw [Context.overloads?_relocate, Context.candidates_relocate, hknows]
  refine .ite (fun _ => .pure rfl) fun _ => ?_
  cases (c.candidates name).find? c.symbols.knowsAggregate with
  | none => exact .pure rfl
  | some found => exact (ensureChecked found location).bind fun _ => .pure rfl

end Rerun
end UnitCompiler
