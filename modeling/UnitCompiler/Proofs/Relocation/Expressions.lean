import Mathlib
import UnitCompiler.Compile.Emit.Expression
import UnitCompiler.Proofs.Relocation.Values

/-!
# Expressions in two runs

Every node is evaluated alike.
-/

namespace UnitCompiler
namespace Rerun

variable {ρ : Rerun}

theorem emitString (text : String) : ρ.Stable (CompileM.emitString text) := by
  refine .get_bind fun c u h => ?_
  refine .bind (Mirrors.set rfl (h.keeps ⟨rfl, rfl, rfl, rfl, rfl, rfl⟩)) fun _ => ?_
  exact (build _).bind fun _ => .pure rfl

theorem emitConst (value : ConstValue) : ρ.Stable (CompileM.emitConst value) := by
  cases value with
  | str text => exact emitString text
  | _ => exact .pure rfl

theorem functionValue (key : String) : ρ.Stable (CompileM.functionValue key) := by
  refine .get_bind fun c u _ => ?_
  rw [Context.symbols_relocate, SymbolTables.get?_functions_relocate]
  cases c.symbols.functions.get? key with
  | none => exact .fail _
  | some f => exact .pure rfl

theorem emitName (name : String) (location : Location) :
    ρ.Stable (CompileM.emitName name location) := by
  refine .get_bind fun c u _ => ?_
  rw [Context.isVariable_relocate, Context.constant?_relocate, Context.overloads?_relocate]
  refine .ite (fun _ => (variablePlace _ _).bind fun _ => loadPlace _ _) fun _ => ?_
  split
  · exact emitConst _
  · exact functionValue _
  · exact .bail _ _
  · exact .bail _ _

theorem emitCondition (id : NodeId) :
    ρ.Mirrors Eq (CompileM.emitCondition id) (CompileM.emitCondition (ρ.node id)) :=
  (locate id).bind fun _ => (Mirrors.emitExpr id).bind fun _ => truthValue _ _

theorem emitOperation (op : BinaryOp) (left right : Rvalue) (location : Location) :
    ρ.Stable (CompileM.emitOperation op left right location) := by
  refine .ite (fun _ => ?_) fun _ => .ite (fun _ => .bail _ _) fun _ => emitArith _ _ _ _
  cases op.tag? with
  | none => exact .bail _ _
  | some tag => exact callOperator _ _ _ _

theorem storeAssignment (op : BinaryOp) (place : Place) (rhs : NodeId) (location : Location) :
    ρ.Mirrors Eq (CompileM.storeAssignment op place rhs location)
      (CompileM.storeAssignment op place (ρ.node rhs) location) := by
  have hstore : ∀ value : Rvalue, ρ.Stable (do
      let value ← CompileM.coerce value place.type.strip location
      CompileM.build (FunctionBuilder.store value.operand place.address)
      return value) :=
    fun value => (coerce _ _ _).bind fun _ => (build _).bind fun _ => .pure rfl
  refine .ite (fun _ => .bail _ _) fun _ => ?_
  cases op.compoundBase? with
  | some base =>
    refine (loadPlace _ _).bind fun current => (Mirrors.emitExpr rhs).bind fun right => ?_
    exact (emitOperation _ _ _ _).bind hstore
  | none => exact (Mirrors.emitExpr rhs).bind hstore

theorem emitAssign (op : BinaryOp) (lhs rhs : NodeId) (location : Location) :
    ρ.Mirrors Eq (CompileM.emitAssign op lhs rhs location)
      (CompileM.emitAssign op (ρ.node lhs) (ρ.node rhs) location) := by
  have hplace : ρ.Mirrors Eq
      (do
        let place ← CompileM.perform (.emitPlace lhs)
        CompileM.storeAssignment op place rhs location)
      (do
        let place ← CompileM.perform (.emitPlace (ρ.node lhs))
        CompileM.storeAssignment op place (ρ.node rhs) location) :=
    (Mirrors.emitPlace lhs).bind fun place => storeAssignment op place rhs location
  refine (kindOf lhs).bindMoved fun kind _ => ?_
  cases kind with
  | index base index =>
    refine (placeOrSlot base).bind fun place => .ite (fun _ => ?_) fun _ => ?_
    · exact (Mirrors.emitExpr rhs).bind fun value => callIndex place index _ location
    · exact (indexPlace place index location).bind fun place => storeAssignment op place rhs location
  | _ => exact hplace

theorem emitLogical (op : BinaryOp) (lhs rhs : NodeId) :
    ρ.Mirrors Eq (CompileM.emitLogical op lhs rhs)
      (CompileM.emitLogical op (ρ.node lhs) (ρ.node rhs)) :=
  (emitCondition lhs).bind fun _ => (build _).bind fun _ => (emitCondition rhs).bind fun _ =>
    (build _).bind fun _ => .pure rfl

theorem emitBinary (op : BinaryOp) (lhs rhs : NodeId) (location : Location) :
    ρ.Mirrors Eq (CompileM.emitBinary op lhs rhs location)
      (CompileM.emitBinary op (ρ.node lhs) (ρ.node rhs) location) :=
  .ite (fun _ => emitAssign op lhs rhs location) fun _ => .ite (fun _ => emitLogical op lhs rhs)
    fun _ => (Mirrors.emitExpr lhs).bind fun _ => (Mirrors.emitExpr rhs).bind fun _ =>
      emitOperation _ _ _ _

theorem emitAddress (operand : NodeId) :
    ρ.Mirrors Eq (CompileM.emitAddress operand) (CompileM.emitAddress (ρ.node operand)) := by
  have hrest : ∀ isFunction : Bool, ρ.Mirrors Eq
      (if isFunction then CompileM.perform (.emitExpr operand)
        else do
          let place ← CompileM.perform (.emitPlace operand)
          return (⟨.pointer place.type.strip, place.address⟩ : Rvalue))
      (if isFunction then CompileM.perform (.emitExpr (ρ.node operand))
        else do
          let place ← CompileM.perform (.emitPlace (ρ.node operand))
          return (⟨.pointer place.type.strip, place.address⟩ : Rvalue)) :=
    fun _ => .ite (fun _ => Mirrors.emitExpr operand)
      fun _ => (Mirrors.emitPlace operand).bind fun _ => .pure rfl
  refine (kindOf operand).bindMoved fun kind _ => ?_
  cases kind with
  | ident name args =>
    refine .get_bind fun c u _ => ?_
    rw [Context.isVariable_relocate]
    exact hrest _
  | _ => exact hrest false

theorem emitInversion (op : UnaryOp) (operand : NodeId) (location : Location) :
    ρ.Mirrors Eq (CompileM.emitInversion op operand location)
      (CompileM.emitInversion op (ρ.node operand) location) :=
  (Mirrors.emitExpr operand).bind fun _ => .ite (fun _ => .bail _ _) fun _ =>
    (lower _ _).bind fun _ => (build _).bind fun _ => .pure rfl

theorem emitUnary (id : NodeId) (op : UnaryOp) (operand : NodeId) (location : Location) :
    ρ.Mirrors Eq (CompileM.emitUnary id op operand location)
      (CompileM.emitUnary (ρ.node id) op (ρ.node operand) location) := by
  cases op with
  | deref => exact (Mirrors.emitPlace id).bind fun _ => loadPlace _ _
  | addrOf => exact emitAddress operand
  | not => exact (emitCondition operand).bind fun _ => (build _).bind fun _ => .pure rfl
  | neg | bitNot => exact emitInversion _ operand location

/-! ### Literals -/

theorem storeFields (slot : Operand) (location : Location) (pairs : List (FieldSymbol × NodeId)) :
    ρ.Mirrors Eq (CompileM.storeFields slot location pairs)
      (CompileM.storeFields slot location (pairs.map (Prod.map ρ.fieldSymbol ρ.node))) :=
  .forM pairs fun (field, node) _ => (Mirrors.emitExpr node).bind fun _ => (coerce _ _ _).bind
    fun _ => (fieldPlace slot field location).bind fun _ => build _

theorem emitAggregateLit {type : SourceType} (h : type.Bounded ρ.base) (values : List NodeId)
    (location : Location) :
    ρ.Mirrors Eq (CompileM.emitAggregateLit type values location)
      (CompileM.emitAggregateLit type (values.map ρ.node) location) := by
  refine (resolveType h location).bindSame fun type _ => ?_
  cases type.aggregateName? with
  | none => exact .bail _ _
  | some name =>
    refine (ensureChecked name location).bind fun _ => .get_bind fun c u _ => ?_
    rw [Context.symbols_relocate, SymbolTables.get?_aggregates_relocate]
    cases c.symbols.aggregates.get? name with
    | none => exact .bail _ _
    | some aggregate =>
      have hlength : (ρ.aggregateSymbol aggregate).fields.length = aggregate.fields.length :=
        List.length_map _
      have hzip : (ρ.aggregateSymbol aggregate).fields.zip (values.map ρ.node) =
          (aggregate.fields.zip values).map (Prod.map ρ.fieldSymbol ρ.node) :=
        List.zip_map
      simp only [Option.map_some, hlength, hzip, List.length_map]
      refine .ite (fun _ => .bail _ _) fun _ => (lower _ _).bind fun _ => (build _).bind fun slot => ?_
      have hfields : ρ.Mirrors Eq
          (CompileM.storeFields slot location (aggregate.fields.zip values))
          (CompileM.storeFields slot location
            ((aggregate.fields.zip values).map (Prod.map ρ.fieldSymbol ρ.node))) :=
        storeFields slot location _
      have happly : ∀ n, n = values.length → ρ.Mirrors Eq
          (CompileM.perform (.applyDefaults type slot values.length location))
          (CompileM.perform (.applyDefaults type slot n location)) := by
        rintro _ rfl
        exact Mirrors.applyDefaults _ _ _ _
      refine .ite (fun _ => (build _).bind fun _ => hfields.bind fun _ => .ite (fun _ => ?_) fun _ => ?_)
        fun _ => hfields.bind fun _ => .ite (fun _ => ?_) fun _ => ?_
      · exact (happly _ (List.length_map _)).bind fun _ => (build _).bind fun _ => .pure rfl
      · exact (build _).bind fun _ => .pure rfl
      · exact (happly _ (List.length_map _)).bind fun _ => (build _).bind fun _ => .pure rfl
      · exact (build _).bind fun _ => .pure rfl

theorem storeElement (slot : Operand) (element : SourceType) (machine : IrType) (location : Location)
    (index : Nat) (value : Rvalue) :
    ρ.Stable (CompileM.storeElement slot element machine location index value) :=
  (coerce _ _ _).bind fun _ => build _

theorem emitArrayLit (values : List NodeId) (location : Location) :
    ρ.Mirrors Eq (CompileM.emitArrayLit values location)
      (CompileM.emitArrayLit (values.map ρ.node) location) := by
  cases values with
  | nil => exact .bail _ _
  | cons first rest =>
    refine (Mirrors.emitExpr first).bind fun head => .ite (fun _ => .bail _ _) fun _ => ?_
    have hzip : (rest.map ρ.node).zipIdx 1 = (rest.zipIdx 1).map (Prod.map ρ.node id) :=
      List.zipIdx_map
    simp only [List.length_cons, List.length_map, hzip]
    refine (lower _ _).bind fun _ => (lower _ _).bind fun _ => (build _).bind fun slot => ?_
    refine (storeElement _ _ _ _ _ _).bind fun _ => .bind (.forM _ ?_) fun _ =>
      (build _).bind fun _ => .pure rfl
    exact fun (node, index) _ => (Mirrors.emitExpr node).bind fun _ => storeElement _ _ _ _ _ _

/-! ### Calls -/

theorem emitMemberCall (base : NodeId) (name : String) (args : List NodeId) (location : Location) :
    ρ.Mirrors Eq (CompileM.emitMemberCall base name args location)
      (CompileM.emitMemberCall (ρ.node base) name (args.map ρ.node) location) := by
  refine (memberBase base location).bind fun (owner, this) => .get_bind fun c u _ => ?_
  rw [Context.symbols_relocate, SymbolTables.member_relocate]
  cases c.symbols.member owner name with
  | error problem => exact .bail _ _
  | ok member =>
    cases member with
    | methods keys =>
      refine (emitArguments args).bind fun args => .get_bind fun c u _ => ?_
      rw [Context.symbols_relocate, SymbolTables.pickOverload_relocate]
      exact (Mirrors.orBail _ _).bind fun _ => callFunction _ _ _
    | field field =>
      exact (lower _ _).bind fun _ => (build _).bind fun _ => (emitArguments args).bind fun _ =>
        callIndirect _ _ _

theorem emitNamedCall (name : String) (args : List NodeId) (location : Location) :
    ρ.Mirrors Eq (CompileM.emitNamedCall name args location)
      (CompileM.emitNamedCall name (args.map ρ.node) location) := by
  refine (constructedAggregate name location).bind fun aggregate => ?_
  cases aggregate with
  | some aggregate =>
    dsimp only
    rw [List.length_map]
    exact constructDefault _ _ _
  | none =>
    refine (emitArguments args).bind fun args => .get_bind fun c u _ => ?_
    rw [Context.resolveFunction_relocate]
    exact (Mirrors.orBail _ _).bind fun _ => callFunction _ _ _

theorem emitGenericCall (name : String) {templateArgs : List TemplateArg}
    (h : TemplateArg.AllBounded ρ.base templateArgs) (args : List NodeId) (location : Location) :
    ρ.Mirrors Eq (CompileM.emitGenericCall name templateArgs args location)
      (CompileM.emitGenericCall name templateArgs (args.map ρ.node) location) := by
  refine (constructedInstance name h location).bind fun aggregate => ?_
  cases aggregate with
  | some aggregate => exact construct aggregate args location
  | none =>
    exact (instantiateFunction name h location).bind fun _ => (emitArguments args).bind
      fun _ => callFunction _ _ _

theorem emitValueCall (callee : NodeId) (args : List NodeId) (location : Location) :
    ρ.Mirrors Eq (CompileM.emitValueCall callee args location)
      (CompileM.emitValueCall (ρ.node callee) (args.map ρ.node) location) :=
  (Mirrors.emitExpr callee).bind fun _ => (emitArguments args).bind fun _ => callIndirect _ _ _

theorem emitCall (callee : NodeId) (args : List NodeId) (location : Location) :
    ρ.Mirrors Eq (CompileM.emitCall callee args location)
      (CompileM.emitCall (ρ.node callee) (args.map ρ.node) location) := by
  refine (kindOf callee).bindMoved fun kind hbounded => ?_
  cases kind with
  | ident name templateArgs =>
    cases templateArgs with
    | nil =>
      refine .get_bind fun c u _ => ?_
      rw [Context.isVariable_relocate]
      exact .ite (fun _ => emitValueCall callee args location)
        fun _ => emitNamedCall name args location
    | cons arg rest =>
      have hargs : TemplateArg.AllBounded ρ.base (arg :: rest) := hbounded _ List.mem_cons_self
      exact emitGenericCall name hargs args location
  | get base name => exact emitMemberCall base name args location
  | _ => exact emitValueCall callee args location

/-! ### Nodes -/

theorem emitExpr (id : NodeId) :
    ρ.Mirrors Eq (CompileM.emitExpr id) (CompileM.emitExpr (ρ.node id)) := by
  refine (locate id).bind fun location => (kindOf id).bindMoved fun kind hbounded => ?_
  cases kind with
  | int _ | float _ | bool _ | char _ | null | sizeOf _ =>
    exact (foldRequired id "a literal").bind fun _ => emitConst _
  | str text => exact emitString text
  | ident name args =>
    cases args with
    | nil => exact emitName name location
    | cons arg rest =>
      have hargs : TemplateArg.AllBounded ρ.base (arg :: rest) := hbounded _ List.mem_cons_self
      exact (instantiateFunction name hargs location).bind fun _ => functionValue _
  | unary op operand => exact emitUnary id op operand location
  | binary op lhs rhs => exact emitBinary op lhs rhs location
  | get base name => exact (Mirrors.emitPlace id).bind fun _ => loadPlace _ _
  | index base index =>
    refine (placeOrSlot base).bind fun place => .ite (fun _ => callIndex place index none location) ?_
    exact fun _ => (indexPlace place index location).bind fun _ => loadPlace _ _
  | call callee args => exact emitCall callee args location
  | cast type value =>
    refine (resolveType (hbounded type List.mem_cons_self) location).bindSame
      fun type _ => ?_
    exact (Mirrors.emitExpr value).bind fun _ => castTo _ _ _
  | builtin name args =>
    refine (evalBuiltin id name hbounded.builtinArgs).bind fun value => ?_
    cases value with
    | some value => exact emitConst value
    | none => exact .pure rfl
  | aggregateLit type values =>
    exact emitAggregateLit (hbounded type List.mem_cons_self) values location
  | arrayLit values => exact emitArrayLit values location
  | _ => exact .bail _ _

theorem emitPlace (id : NodeId) :
    ρ.Mirrors Eq (CompileM.emitPlace id) (CompileM.emitPlace (ρ.node id)) := by
  refine (locate id).bind fun location => (kindOf id).bindMoved fun kind _ => ?_
  cases kind with
  | ident name args =>
    cases args with
    | nil =>
      refine .get_bind fun c u _ => ?_
      rw [Context.isVariable_relocate]
      exact .ite (fun _ => variablePlace name location) fun _ => .bail _ _
    | cons arg rest => exact .bail _ _
  | get base name => exact memberPlace base name location
  | index base index =>
    refine (placeOrSlot base).bind fun place => .ite (fun _ => ?_) fun _ => ?_
    · exact (callIndex place index none location).bind fun _ => materialize _ _
    · exact indexPlace place index location
  | unary op operand =>
    cases op with
    | deref => exact (Mirrors.emitExpr operand).bind fun _ => derefPlace _ _
    | _ => exact .bail _ _
  | _ => exact .bail _ _

end Rerun
end UnitCompiler
