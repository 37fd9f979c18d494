import UnitCompiler.Compile.Emit.Declaration
import UnitCompiler.Proofs.Disciplines.Types

/-!
# Emission

Emitting expressions, statements, functions and declarations keeps every discipline that allows changes of
the function under emission.
-/

namespace UnitCompiler

namespace CompileM

/-- Emits an instance that waited. -/
def emitItem : Pending → CompileM Unit
  | .function key => perform (.emitFunction key)
  | .aggregate name => perform (.emitAggregate name)

/-- Emits the instances that wait. -/
def drainPending (items : List Pending) : CompileM Unit := do
  modify fun c => { c with pending := [] }
  items.forM emitItem

theorem emitPending_eq : emitPending = (do
    drainPending (← get).pending
    if !(← get).pending.isEmpty then perform .emitPending) := by
  have hitem : emitItem = fun
      | .function key => perform (.emitFunction key)
      | .aggregate name => perform (.emitAggregate name) := by
    funext item
    cases item <;> rfl
  simp only [drainPending, bind_assoc, hitem]
  rfl

end CompileM

namespace Discipline.Holds

variable {D : Discipline}

/-! ### Work outside of functions -/

theorem isPlaceExpr (id : NodeId) : D.Holds (CompileM.isPlaceExpr id) := by
  refine (kindOf id).bind fun kind => ?_
  split
  · exact get_bind fun _ => pure _
  all_goals exact pure _

theorem derefPlace (pointer : Rvalue) (location : Location) :
    D.Holds (CompileM.derefPlace pointer location) := by
  rw [CompileM.derefPlace]
  split
  · exact ite (bail _ _) (pure _)
  · exact bail _ _

theorem checkArity (name : String) (expected got : Nat) (isVariadic : Bool) (location : Location) :
    D.Holds (CompileM.checkArity name expected got isVariadic location) :=
  ite (bail _ _) (pure _)

theorem callableType (location : Location) (type : SourceType) :
    D.Holds (CompileM.callableType location type) := by
  rw [CompileM.callableType]
  split
  · exact pure _
  · split
    · exact pure _
    · exact bail _ _
  · exact bail _ _

theorem functionValue (key : String) : D.Holds (CompileM.functionValue key) := by
  refine get_bind fun c => ?_
  cases c.symbols.functions.get? key with
  | none => exact fail _
  | some f => exact pure _

theorem machineSignature (f : FunctionSymbol) (classes : List PassingClass) (location : Location) :
    D.Holds (CompileM.machineSignature f classes location) :=
  bind (mapM fun (_, _) => passingType _ _ _) fun _ => ite ((pure _).bind fun _ => pure _)
    ((lower _ _).bind fun _ => pure _)

theorem emitGlobal (id : NodeId) (location : Location) :
    D.Holds (CompileM.emitGlobal id location) := by
  refine get_bind fun c => ?_
  cases c.symbols.globals.values.find? (·.decl == id) with
  | none => exact bail _ _
  | some symbol =>
    have hadd (global : GlobalVariable) : D.Holds
        (modify fun c : Context => { c with program := c.program.addGlobal global }) :=
      write (fun _ => .of_eq rfl rfl rfl) fun _ => rfl
    refine (lower _ _).bind fun type => ?_
    cases symbol.value with
    | some value => exact (orBail _ _).bind fun _ => hadd _
    | none => exact (pure _).bind fun _ => hadd _

section Resolving

variable [D.Resolves]

theorem fieldsOf (type : SourceType) (location : Location) :
    D.Holds (CompileM.fieldsOf type location) := by
  rw [CompileM.fieldsOf]
  cases type.aggregateName? with
  | none => exact pure _
  | some name => exact (ensureChecked name location).bind fun _ => get_bind fun _ => pure _

theorem anyDefault (location : Location) (fields : List FieldSymbol) :
    D.Holds (CompileM.anyDefault location fields) := by
  induction fields with
  | nil => exact pure _
  | cons field rest ih =>
    exact ite (pure _) ((resolve (.needsDefaults _ _) rfl).bind fun _ => ite (pure _) ih)

theorem needsDefaults (type : SourceType) (location : Location) :
    D.Holds (CompileM.needsDefaults type location) :=
  (fieldsOf type location).bind fun _ => anyDefault location _

theorem constructedAggregate (name : String) (location : Location) :
    D.Holds (CompileM.constructedAggregate name location) := by
  refine get_bind fun c => ite (pure _) ?_
  cases (c.candidates name).find? c.symbols.knowsAggregate with
  | none => exact pure _
  | some found => exact (ensureChecked found location).bind fun _ => pure _

theorem aliasEntry (location : Location) (target : AliasTarget) :
    D.Holds (CompileM.aliasEntry location target) := by
  cases target with
  | type type => exact (resolveType type location).bind fun _ => pure _
  | value node => exact (foldRequired node _).bind fun _ => pure _

end Resolving

section Outside

variable [D.Calls]

theorem emitAggregate [D.Defines] (name : String) : D.Holds (CompileM.emitAggregate name) := by
  refine get_bind fun c => ?_
  cases c.symbols.aggregates.get? name with
  | none => exact fail _
  | some symbol =>
    refine (beginEmit symbol.decl).bind fun _ => ite ((locate _).bind fun _ => (lower _ _).bind
      fun type => bind (Defines.addType _) fun _ =>
        forM fun key => job (.emitFunction key) rfl) (pure _)

theorem emitItem (item : Pending) : D.Holds (CompileM.emitItem item) := by
  cases item with
  | function key => exact job (.emitFunction key) rfl
  | aggregate name => exact job (.emitAggregate name) rfl

theorem emitPending_of_drains (hdrain : ∀ c, D.At (CompileM.drainPending c.pending) c) :
    D.Holds CompileM.emitPending := by
  rw [CompileM.emitPending_eq]
  exact fun c => D.get_bind (D.bind (hdrain c) fun _ =>
    get_bind fun _ => ite (job .emitPending rfl) (pure _))

theorem emitPending_of_drain (hdrain : D.Holds (modify fun c => { c with pending := [] })) :
    D.Holds CompileM.emitPending :=
  emitPending_of_drains fun c => hdrain.bind (fun _ => forM emitItem) c

/-- A declaration is emitted by what it is; a variable is defined right there. -/
theorem emitDeclaration_of_variable [D.Resolves] {id : NodeId}
    (hvariable : ∀ decl location c, c.tree.HasKind id (.variable decl) → D.At (do
      if ← CompileM.beginEmit id then CompileM.emitGlobal id location) c) :
    D.Holds (CompileM.emitDeclaration id) := by
  refine fun c => at_locate_kindOf fun location kind hkind => ?_
  cases kind with
  | function decl =>
    refine ite (pure _) (get_bind fun c => ?_) c
    cases c.symbols.declaredKeys.get? id with
    | none => exact bail _ _
    | some key => exact job (.emitFunction key) rfl
  | aggregate decl =>
    refine ite (pure _) (get_bind fun c => ?_) c
    cases c.symbols.declaredNames.get? id with
    | none => exact bail _ _
    | some name => exact job (.emitAggregate name) rfl
  | «variable» decl => exact hvariable decl location c hkind
  | space name items => exact inSpace (forM fun item => job (.emitDeclaration item) rfl) c
  | staticIf cond yes no =>
    refine (staticBranch cond yes no).bind (fun branch => ?_) c
    cases branch with
    | none => exact pure _
    | some branch => exact job (.emitDeclaration branch) rfl
  | block items => exact forM (fun item => job (.emitDeclaration item) rfl) c
  | «alias» _ | builtin _ _ => exact pure _ c
  | _ => exact bail _ _ c

theorem emitDeclaration [D.Resolves] [D.Defines] (id : NodeId) : D.Holds (CompileM.emitDeclaration id) :=
  emitDeclaration_of_variable fun _ location c _ =>
    (beginEmit id).bind (fun _ => ite (emitGlobal id location) (pure _)) c

end Outside

/-! ### Work on the function under emission, without jobs -/

section WithoutJobs

variable [D.Edits]

theorem bindParam (index : Nat) (type : SourceType) (cls : PassingClass) (location : Location) :
    D.Holds (CompileM.bindParam index type cls location) :=
  (lower _ _).bind fun _ => (passingType _ _ _).bind fun _ => get_bind fun _ =>
    (orBail _ _).bind fun _ => build _

theorem passArgument (value : Operand) (type : SourceType) (cls : PassingClass)
    (location : Location) : D.Holds (CompileM.passArgument value type cls location) :=
  (lower _ _).bind fun _ => (passingType _ _ _).bind fun _ => get_bind fun _ =>
    (orBail _ _).bind fun _ => build _

theorem truthValue (value : Rvalue) (location : Location) :
    D.Holds (CompileM.truthValue value location) := by
  rw [CompileM.truthValue]
  split
  · exact pure _
  · exact (lower _ _).bind fun _ => build _
  · exact ite (bail _ _) (get_bind fun _ => build _)

theorem reinterpret (value : Rvalue) (target : SourceType) (location : Location) :
    D.Holds (CompileM.reinterpret value target location) :=
  (lower _ _).bind fun _ => (lower _ _).bind fun _ => get_bind fun _ => (build _).bind fun _ => pure _

theorem convertValue (value : Rvalue) (target : SourceType) (location : Location) :
    D.Holds (CompileM.convertValue value target location) := by
  refine (orBail _ _).bind fun conversion => (lower _ _).bind fun machine => ?_
  split
  · exact pure _
  · exact reinterpret _ _ _
  · exact (build _).bind fun _ => pure _
  · exact (build _).bind fun _ => pure _
  · cases conversion.op? with
    | some op => exact (build _).bind fun _ => pure _
    | none => exact pure _

theorem castTo (value : Rvalue) (type : SourceType) (location : Location) :
    D.Holds (CompileM.castTo value type location) :=
  ite ((truthValue _ _).bind fun _ => pure _)
    (ite ((build _).bind fun _ => convertValue _ _ _) (convertValue _ _ _))

theorem coerce (value : Rvalue) (type : SourceType) (location : Location) :
    D.Holds (CompileM.coerce value type location) :=
  ite (pure _) (ite (castTo _ _ _)
    (ite ((lower _ _).bind fun _ => (build _).bind fun _ => pure _) (bail _ _)))

theorem loadPlace (place : Place) (location : Location) :
    D.Holds (CompileM.loadPlace place location) := by
  rw [CompileM.loadPlace]
  split <;> exact (lower _ _).bind fun _ => (build _).bind fun _ => pure _

theorem materialize (value : Rvalue) (location : Location) :
    D.Holds (CompileM.materialize value location) :=
  (lower _ _).bind fun _ => (build _).bind fun _ => pure _

theorem variablePlace (name : String) (location : Location) :
    D.Holds (CompileM.variablePlace name location) := by
  refine functionState_bind fun f c h => ?_
  cases f.scope.lookup name with
  | some v => exact setFunctionState_bind h (.refl _) (pure _)
  | none =>
    refine get_bind (D := D) (fun c => ?_) c
    cases c.global? name with
    | none => exact bail _ _
    | some global => exact (lower _ _).bind fun _ => pure _

theorem fieldPlace (address : Operand) (field : FieldSymbol) (location : Location) :
    D.Holds (CompileM.fieldPlace address field location) :=
  (lower _ _).bind fun _ => (build _).bind fun _ => pure _

theorem elementPlace (base : Place) (index : Rvalue) (location : Location) :
    D.Holds (CompileM.elementPlace base index location) := by
  refine ite (bail _ _) ((castTo _ _ _).bind fun index => ?_)
  split
  · exact (lower _ _).bind fun _ => (build _).bind fun _ => pure _
  · exact ite (bail _ _) ((lower _ _).bind fun _ => (lower _ _).bind fun _ => (build _).bind fun _ =>
      pure _)
  · exact bail _ _

theorem emitCompare (op : BinaryOp) (a b : Operand) (isUnsigned : Bool) :
    D.Holds (CompileM.emitCompare op a b isUnsigned) := by
  rw [CompileM.emitCompare]
  cases op.compareOp? isUnsigned with
  | some op => exact (build _).bind fun _ => pure _
  | none => exact fail _

theorem offsetPointer (op : BinaryOp) (pointer : Rvalue) (element : SourceType) (offset : Rvalue)
    (location : Location) : D.Holds (CompileM.offsetPointer op pointer element offset location) :=
  (castTo _ _ _).bind fun _ => (lower _ _).bind fun _ => (build _).bind fun _ => pure _

theorem comparePointers (op : BinaryOp) (left right : Rvalue) :
    D.Holds (CompileM.comparePointers op left right) :=
  get_bind fun _ => (build _).bind fun _ => emitCompare _ _ _ _

theorem emitNumeric (op : BinaryOp) (left right : Rvalue) (kind : Scalar) (location : Location) :
    D.Holds (CompileM.emitNumeric op left right kind location) := by
  refine (castTo _ _ _).bind fun a => (castTo _ _ _).bind fun b => ite (emitCompare _ _ _ _) ?_
  cases op.arithOp? kind with
  | some op => exact (build _).bind fun _ => pure _
  | none => exact bail _ _

theorem emitArith (op : BinaryOp) (left right : Rvalue) (location : Location) :
    D.Holds (CompileM.emitArith op left right location) := by
  unfold CompileM.emitArith
  dsimp only
  split
  · exact offsetPointer _ _ _ _ _
  · exact emitNumeric _ _ _ _ _
  · exact ite (comparePointers _ _ _) (bail _ _)

theorem adaptArgument (arg : Argument) (param : SourceType) (location : Location) :
    D.Holds (CompileM.adaptArgument arg param location) := by
  refine ite ?_ (ite ((lower _ _).bind fun _ => (build _).bind fun _ => pure _) (coerce _ _ _))
  cases arg.place with
  | some place => exact pure _
  | none => exact (materialize _ _).bind fun _ => pure _

theorem passArguments (location : Location) (args : List Argument)
    (params : List (SourceType × PassingClass)) :
    D.Holds (CompileM.passArguments location args params) := by
  induction args generalizing params with
  | nil => exact pure _
  | cons arg rest ih =>
    cases params with
    | nil => exact (ih []).bind fun _ => pure _
    | cons param params =>
      obtain ⟨param, cls⟩ := param
      refine (adaptArgument arg param location).bind fun value => ?_
      cases cls with
      | direct => exact (pure _).bind fun _ => (ih params).bind fun _ => pure _
      | _ => exact (passArgument _ _ _ _).bind fun _ => (ih params).bind fun _ => pure _

theorem callIndirect (target : Rvalue) (args : List Argument) (location : Location) :
    D.Holds (CompileM.callIndirect target args location) :=
  (callableType _ _).bind fun _ => (checkArity _ _ _ _ _).bind fun _ =>
    (passArguments _ _ _).bind fun _ => (lower _ _).bind fun _ => (build _).bind fun _ => pure _

theorem emitString (text : String) : D.Holds (CompileM.emitString text) :=
  fun _ => D.get_bind (D.bind (Edits.edit (.of_eq rfl rfl rfl)) fun _ => (build _).bind fun _ => pure _)

theorem emitConst (value : ConstValue) : D.Holds (CompileM.emitConst value) := by
  cases value with
  | str text => exact emitString text
  | _ => exact pure _

theorem emitName (name : String) (location : Location) :
    D.Holds (CompileM.emitName name location) := by
  refine get_bind fun c => ite ((variablePlace _ _).bind fun _ => loadPlace _ _) ?_
  split
  · exact emitConst _
  · exact functionValue _
  · exact bail _ _
  · exact bail _ _

theorem storeElement (slot : Operand) (element : SourceType) (machine : IrType) (location : Location)
    (index : Nat) (value : Rvalue) :
    D.Holds (CompileM.storeElement slot element machine location index value) :=
  (coerce _ _ _).bind fun _ => build _

/-- A local gets its first value, if there is one, and enters its scope. -/
theorem enterLocal (id : NodeId) (name : String) (value : Option Rvalue) (type : SourceType)
    (slot : Operand) (location : Location) : D.Holds (do
      if let some value := value then
        let value ← CompileM.coerce value type location
        CompileM.build (FunctionBuilder.store value.operand slot)
      let declared ← CompileM.declare { name, type, slot, span := ← CompileM.spanOf id }
      if !declared then CompileM.bail location (.variableInScope name)) := by
  have henter : D.Holds (do
      let declared ← CompileM.declare { name, type, slot, span := ← CompileM.spanOf id }
      if !declared then CompileM.bail location (.variableInScope name)) :=
    (spanOf id).bind fun _ => (declare _).bind fun _ => ite (bail _ _) (pure _)
  cases value with
  | none => exact henter
  | some value => exact (coerce _ _ _).bind fun _ => (build _).bind fun _ => henter

theorem emitJump (word : String) (target : LoopTargets → Nat) (location : Location) :
    D.Holds (CompileM.emitJump word target location) := by
  refine functionState.bind fun f => ?_
  cases f.loops with
  | nil => exact bail _ _
  | cons targets rest => exact build _

theorem declareParams (f : FunctionSymbol) (span : Span) (location : Location) (index : Nat)
    (params : List (String × SourceType × PassingClass × IrType)) :
    D.Holds (CompileM.declareParams f span location index params) := by
  induction params generalizing index with
  | nil => exact pure _
  | cons param rest ih =>
    exact (bindParam _ _ _ _).bind fun _ => (build _).bind fun _ => (declare _).bind fun _ =>
      ite (bail _ _) (ih _)

theorem closeResult (f : FunctionSymbol) (location : Location) :
    D.Holds (CompileM.closeResult f location) :=
  (lower _ _).bind fun _ => functionState.bind fun state => build_of <| by
    cases state.resultSlot <;> infer_instance

end WithoutJobs

/-! ### Places -/

section Evaluating

variable [D.Evaluates]

theorem placeOrSlot (id : NodeId) : D.Holds (CompileM.placeOrSlot id) :=
  (isPlaceExpr id).bind fun _ => ite (evaluate (.emitPlace id) rfl)
    ((locate id).bind fun _ => (evaluate (.emitExpr id) rfl).bind fun _ => materialize _ _)

theorem memberBase (base : NodeId) (location : Location) :
    D.Holds (CompileM.memberBase base location) := by
  refine (placeOrSlot base).bind fun place => ?_
  split
  · exact pure _
  · exact ite (bail _ _) ((lower _ _).bind fun _ => (build _).bind fun _ => pure _)
  · exact bail _ _

theorem memberPlace (base : NodeId) (name : String) (location : Location) :
    D.Holds (CompileM.memberPlace base name location) := by
  refine (memberBase base location).bind fun found => get_bind fun c => ?_
  dsimp only
  split
  · exact fieldPlace _ _ _
  · exact ite (bail _ _) (bail _ _)

theorem indexPlace (base : Place) (index : NodeId) (location : Location) :
    D.Holds (CompileM.indexPlace base index location) :=
  (evaluate (.emitExpr index) rfl).bind fun _ => elementPlace _ _ _

/-! ### Calls -/

theorem emitArgument (id : NodeId) : D.Holds (CompileM.emitArgument id) := by
  refine (locate id).bind fun location => (isPlaceExpr id).bind fun isPlace => ite ?_ ?_
  · exact (evaluate (.emitPlace id) rfl).bind fun _ => (loadPlace _ _).bind fun _ =>
      ite (bail _ _) (pure _)
  · exact (evaluate (.emitExpr id) rfl).bind fun _ => ite (bail _ _) (pure _)

theorem emitArguments (ids : List NodeId) : D.Holds (CompileM.emitArguments ids) := mapM emitArgument

theorem callFunction (key : String) (args : List Argument) (location : Location) :
    D.Holds (CompileM.callFunction key args location) := by
  refine get_bind fun c => ?_
  cases c.symbols.functions.get? key with
  | none => exact bail _ _
  | some f =>
    refine (checkArity _ _ _ _ _).bind fun _ => (classifyParams f location).bind fun classes => ?_
    refine (passArguments _ _ _).bind fun operands => ite ?_ ?_
    · exact (pure _).bind fun _ => (build _).bind fun _ => pure _
    · exact (lower _ _).bind fun _ => (build _).bind fun _ => pure _

theorem callOperator (owner : String) (tag : OperatorTag) (operands : List Rvalue)
    (location : Location) : D.Holds (CompileM.callOperator owner tag operands location) :=
  get_bind fun _ => (orBail _ _).bind fun _ => (callFunction _ _ _).bind fun _ =>
    ite (pure _) (ite (bail _ _) ((build _).bind fun _ => pure _))

theorem callIndex (base : Place) (index : NodeId) (stored : Option Rvalue) (location : Location) :
    D.Holds (CompileM.callIndex base index stored location) := by
  refine (loadPlace _ _).bind fun object => (evaluate (.emitExpr index) rfl).bind fun position => ?_
  cases stored <;> exact callOperator _ _ _ _

/-! ### Default values -/

theorem applyDefault (slot : Operand) (location : Location) (field : FieldSymbol) :
    D.Holds (CompileM.applyDefault slot location field) := by
  rw [CompileM.applyDefault]
  cases field.default with
  | some node =>
    exact (fieldPlace _ _ _).bind fun _ => (evaluate (.emitExpr node) rfl).bind fun _ =>
      (coerce _ _ _).bind fun _ => build _
  | none =>
    exact (resolve (.needsDefaults _ _) rfl).bind fun _ =>
      ite ((fieldPlace _ _ _).bind fun _ => evaluate (.applyDefaults _ _ _ _) rfl) (pure _)

theorem applyDefaults (type : SourceType) (slot : Operand) (skipped : Nat) (location : Location) :
    D.Holds (CompileM.applyDefaults type slot skipped location) :=
  (fieldsOf type location).bind fun _ => forM (applyDefault slot location)

theorem defaultSlot (type : SourceType) (location : Location) :
    D.Holds (CompileM.defaultSlot type location) :=
  (lower _ _).bind fun _ => (build _).bind fun _ =>
    (evaluate (.applyDefaults _ _ _ _) rfl).bind fun _ => pure _

theorem constructDefault (name : String) (argCount : Nat) (location : Location) :
    D.Holds (CompileM.constructDefault name argCount location) :=
  ite (bail _ _) ((lower _ _).bind fun _ => (defaultSlot _ _).bind fun _ => (build _).bind fun _ =>
    pure _)

theorem construct (name : String) (args : List NodeId) (location : Location) :
    D.Holds (CompileM.construct name args location) := by
  refine get_bind fun c => ?_
  cases c.symbols.overloads.get? name with
  | none => exact constructDefault _ _ _
  | some keys =>
    exact (emitArguments args).bind fun _ => get_bind fun _ => (orBail _ _).bind fun _ =>
      callFunction _ _ _

/-! ### Expressions -/

theorem emitCondition (id : NodeId) : D.Holds (CompileM.emitCondition id) :=
  (locate id).bind fun _ => (evaluate (.emitExpr id) rfl).bind fun _ => truthValue _ _

theorem emitOperation (op : BinaryOp) (left right : Rvalue) (location : Location) :
    D.Holds (CompileM.emitOperation op left right location) := by
  refine ite ?_ (ite (bail _ _) (emitArith _ _ _ _))
  cases op.tag? with
  | none => exact bail _ _
  | some tag => exact callOperator _ _ _ _

theorem storeAssignment (op : BinaryOp) (place : Place) (rhs : NodeId) (location : Location) :
    D.Holds (CompileM.storeAssignment op place rhs location) := by
  have hstore (value : Rvalue) : D.Holds (do
      let value ← CompileM.coerce value place.type.strip location
      CompileM.build (FunctionBuilder.store value.operand place.address)
      return value) :=
    (coerce _ _ _).bind fun _ => (build _).bind fun _ => pure _
  refine ite (bail _ _) ?_
  cases op.compoundBase? with
  | some base =>
    exact (loadPlace _ _).bind fun _ => (evaluate (.emitExpr rhs) rfl).bind fun _ =>
      (emitOperation _ _ _ _).bind hstore
  | none => exact (evaluate (.emitExpr rhs) rfl).bind hstore

theorem emitAssign (op : BinaryOp) (lhs rhs : NodeId) (location : Location) :
    D.Holds (CompileM.emitAssign op lhs rhs location) := by
  refine (kindOf lhs).bind fun kind => ?_
  cases kind with
  | index base index =>
    refine (placeOrSlot base).bind fun place => ite ?_ ?_
    · exact (evaluate (.emitExpr rhs) rfl).bind fun _ => callIndex _ _ _ _
    · exact (indexPlace _ _ _).bind fun _ => storeAssignment _ _ _ _
  | _ => exact (evaluate (.emitPlace lhs) rfl).bind fun _ => storeAssignment _ _ _ _

theorem emitLogical (op : BinaryOp) (lhs rhs : NodeId) : D.Holds (CompileM.emitLogical op lhs rhs) :=
  (emitCondition lhs).bind fun _ => (build _).bind fun _ => (emitCondition rhs).bind fun _ =>
    (build _).bind fun _ => pure _

theorem emitBinary (op : BinaryOp) (lhs rhs : NodeId) (location : Location) :
    D.Holds (CompileM.emitBinary op lhs rhs location) :=
  ite (emitAssign _ _ _ _) (ite (emitLogical _ _ _) ((evaluate (.emitExpr lhs) rfl).bind fun _ =>
    (evaluate (.emitExpr rhs) rfl).bind fun _ => emitOperation _ _ _ _))

theorem emitAddress (operand : NodeId) : D.Holds (CompileM.emitAddress operand) := by
  have hrest (isFunction : Bool) : D.Holds
      (if isFunction then CompileM.perform (.emitExpr operand)
        else do
          let place ← CompileM.perform (.emitPlace operand)
          return (⟨.pointer place.type.strip, place.address⟩ : Rvalue)) :=
    ite (evaluate (.emitExpr operand) rfl)
      ((evaluate (.emitPlace operand) rfl).bind fun _ => pure _)
  refine (kindOf operand).bind fun kind => ?_
  cases kind with
  | ident name args => exact get_bind fun _ => hrest _
  | _ => exact hrest false

theorem emitInversion (op : UnaryOp) (operand : NodeId) (location : Location) :
    D.Holds (CompileM.emitInversion op operand location) :=
  (evaluate (.emitExpr operand) rfl).bind fun _ => ite (bail _ _)
    ((lower _ _).bind fun _ => (build _).bind fun _ => pure _)

theorem emitUnary (id : NodeId) (op : UnaryOp) (operand : NodeId) (location : Location) :
    D.Holds (CompileM.emitUnary id op operand location) := by
  cases op with
  | deref => exact (evaluate (.emitPlace id) rfl).bind fun _ => loadPlace _ _
  | addrOf => exact emitAddress operand
  | not => exact (emitCondition operand).bind fun _ => (build _).bind fun _ => pure _
  | neg | bitNot => exact emitInversion _ operand location

theorem storeFields (slot : Operand) (location : Location) (pairs : List (FieldSymbol × NodeId)) :
    D.Holds (CompileM.storeFields slot location pairs) :=
  forM fun (_, node) => (evaluate (.emitExpr node) rfl).bind fun _ => (coerce _ _ _).bind fun _ =>
    (fieldPlace _ _ _).bind fun _ => build _

theorem emitAggregateLit (type : SourceType) (values : List NodeId) (location : Location) :
    D.Holds (CompileM.emitAggregateLit type values location) := by
  refine (resolveType type location).bind fun type => ?_
  cases type.aggregateName? with
  | none => exact bail _ _
  | some name =>
    refine (ensureChecked name location).bind fun _ => get_bind fun c => ?_
    cases c.symbols.aggregates.get? name with
    | none => exact bail _ _
    | some aggregate =>
      refine ite (bail _ _) ((lower _ _).bind fun machine => (build _).bind fun slot => ?_)
      have hload : D.Holds (do
          return (⟨type.strip, ← CompileM.build (FunctionBuilder.load slot machine)⟩ : Rvalue)) :=
        (build _).bind fun _ => pure _
      exact ite
        ((build _).bind fun _ => (storeFields _ _ _).bind fun _ =>
          ite ((evaluate (.applyDefaults _ _ _ _) rfl).bind fun _ => hload) hload)
        ((storeFields _ _ _).bind fun _ =>
          ite ((evaluate (.applyDefaults _ _ _ _) rfl).bind fun _ => hload) hload)

theorem emitArrayLit (values : List NodeId) (location : Location) :
    D.Holds (CompileM.emitArrayLit values location) := by
  cases values with
  | nil => exact bail _ _
  | cons first rest =>
    refine (evaluate (.emitExpr first) rfl).bind fun head => ite (bail _ _) ?_
    refine (lower _ _).bind fun _ => (lower _ _).bind fun _ => (build _).bind fun slot => ?_
    refine (storeElement _ _ _ _ _ _).bind fun _ => bind (forM ?_) fun _ => (build _).bind fun _ => pure _
    exact fun (node, index) => (evaluate (.emitExpr node) rfl).bind fun _ => storeElement _ _ _ _ _ _

theorem emitMemberCall (base : NodeId) (name : String) (args : List NodeId) (location : Location) :
    D.Holds (CompileM.emitMemberCall base name args location) := by
  refine (memberBase base location).bind fun (owner, this) => get_bind fun c => ?_
  refine (orBail _ _).bind fun member => ?_
  cases member with
  | methods keys =>
    exact (emitArguments args).bind fun _ => get_bind fun _ => (orBail _ _).bind fun _ =>
      callFunction _ _ _
  | field field =>
    exact (lower _ _).bind fun _ => (build _).bind fun _ => (emitArguments args).bind fun _ =>
      callIndirect _ _ _

theorem emitNamedCall (name : String) (args : List NodeId) (location : Location) :
    D.Holds (CompileM.emitNamedCall name args location) := by
  refine (constructedAggregate name location).bind fun aggregate => ?_
  cases aggregate with
  | some aggregate => exact constructDefault _ _ _
  | none =>
    exact (emitArguments args).bind fun _ => get_bind fun _ => (orBail _ _).bind fun _ =>
      callFunction _ _ _

theorem emitGenericCall (name : String) (templateArgs : List TemplateArg) (args : List NodeId)
    (location : Location) : D.Holds (CompileM.emitGenericCall name templateArgs args location) := by
  refine (constructedInstance name templateArgs location).bind fun aggregate => ?_
  cases aggregate with
  | some aggregate => exact construct aggregate args location
  | none =>
    exact (instantiateFunction _ _ _).bind fun _ => (emitArguments args).bind fun _ =>
      callFunction _ _ _

theorem emitValueCall (callee : NodeId) (args : List NodeId) (location : Location) :
    D.Holds (CompileM.emitValueCall callee args location) :=
  (evaluate (.emitExpr callee) rfl).bind fun _ => (emitArguments args).bind fun _ =>
    callIndirect _ _ _

theorem emitCall (callee : NodeId) (args : List NodeId) (location : Location) :
    D.Holds (CompileM.emitCall callee args location) := by
  refine (kindOf callee).bind fun kind => ?_
  split
  · exact get_bind fun _ => ite (emitValueCall _ _ _) (emitNamedCall _ _ _)
  · exact emitGenericCall _ _ _ _
  · exact emitMemberCall _ _ _ _
  · exact emitValueCall _ _ _

theorem emitExpr (id : NodeId) : D.Holds (CompileM.emitExpr id) := by
  refine (locate id).bind fun location => (kindOf id).bind fun kind => ?_
  cases kind with
  | int _ | float _ | bool _ | char _ | null | sizeOf _ =>
    exact (foldRequired id _).bind fun _ => emitConst _
  | str text => exact emitString text
  | ident name args =>
    cases args with
    | nil => exact emitName name location
    | cons arg rest => exact (instantiateFunction _ _ _).bind fun _ => functionValue _
  | unary op operand => exact emitUnary id op operand location
  | binary op lhs rhs => exact emitBinary op lhs rhs location
  | get base name => exact (evaluate (.emitPlace id) rfl).bind fun _ => loadPlace _ _
  | index base index =>
    exact (placeOrSlot base).bind fun _ => ite (callIndex _ _ _ _)
      ((indexPlace _ _ _).bind fun _ => loadPlace _ _)
  | call callee args => exact emitCall callee args location
  | cast type value =>
    exact (resolveType type location).bind fun _ => (evaluate (.emitExpr value) rfl).bind fun _ =>
      castTo _ _ _
  | builtin name args =>
    refine (evalBuiltin id name args).bind fun value => ?_
    cases value with
    | some value => exact emitConst value
    | none => exact pure _
  | aggregateLit type values => exact emitAggregateLit type values location
  | arrayLit values => exact emitArrayLit values location
  | _ => exact bail _ _

theorem emitPlace (id : NodeId) : D.Holds (CompileM.emitPlace id) := by
  refine (locate id).bind fun location => (kindOf id).bind fun kind => ?_
  split
  · exact get_bind fun _ => ite (variablePlace _ _) (bail _ _)
  · exact memberPlace _ _ _
  · exact (placeOrSlot _).bind fun _ => ite ((callIndex _ _ _ _).bind fun _ => materialize _ _)
      (indexPlace _ _ _)
  · exact (evaluate (.emitExpr _) rfl).bind fun _ => derefPlace _ _
  · exact bail _ _

/-! ### Statements -/

omit [D.Evaluates] in
theorem emitItems {items : List NodeId} (h : ∀ item ∈ items, D.Holds (CompileM.perform (.emitStmt item))) :
    D.Holds (CompileM.emitItems items) := by
  induction items with
  | nil => exact pure _
  | cons item rest ih =>
    obtain ⟨hitem, hrest⟩ := List.forall_mem_cons.mp h
    exact functionState.bind fun _ => ite (pure _) (hitem.bind fun _ => ih hrest)

theorem localSlot (type : SourceType) (hasInit : Bool) (location : Location) :
    D.Holds (CompileM.localSlot type hasInit location) := by
  have hslot (usesDefaults : Bool) : D.Holds
      (if usesDefaults then CompileM.defaultSlot type location
        else do
          let machine ← CompileM.lower type location
          CompileM.build (FunctionBuilder.alloca machine)) :=
    ite (defaultSlot _ _) ((lower _ _).bind fun _ => build _)
  exact ite (hslot false) ((needsDefaults _ _).bind hslot)

theorem emitLocal (id : NodeId) (decl : VariableDecl) (location : Location) :
    D.Holds (CompileM.emitLocal id decl location) := by
  obtain ⟨name, declared, init, isConst⟩ := decl
  refine (optionMapM fun node => evaluate (.emitExpr node) rfl).bind fun value => ?_
  have hrest (type : SourceType) (slot : Operand) := enterLocal (D := D) id name value type
    slot location
  cases declared with
  | some declared =>
    exact (resolveType declared location).bind fun _ => ite (bail _ _) (ite (bail _ _)
      ((localSlot _ _ _).bind fun _ => hrest _ _))
  | none =>
    cases value with
    | none => exact bail _ _
    | some value =>
      exact (pure _).bind fun _ => ite (bail _ _) (ite (bail _ _)
        ((localSlot _ _ _).bind fun _ => hrest _ _))

theorem emitBranch {body : NodeId} (h : D.Holds (CompileM.perform (.emitStmt body))) (start next : Nat) :
    D.Holds (CompileM.emitBranch start body next) :=
  (build _).bind fun _ => h.bind fun _ => build _

theorem emitIf (cond : NodeId) {yes : NodeId} {no : Option NodeId}
    (hyes : D.Holds (CompileM.perform (.emitStmt yes)))
    (hno : ∀ body ∈ no, D.Holds (CompileM.perform (.emitStmt body))) :
    D.Holds (CompileM.emitIf cond yes no) := by
  refine (emitCondition cond).bind fun condition => (build _).bind fun (yesBlock, noBlock, endBlock) =>
    (emitBranch hyes _ _).bind fun _ => ?_
  rcases noBlock with _ | start
  · exact build _
  rcases no with _ | body
  · exact build _
  · exact (emitBranch (hno body rfl) _ _).bind fun _ => build _

theorem emitLoopBody {body : NodeId} (h : D.Holds (CompileM.perform (.emitStmt body)))
    (breakTo continueTo : Nat) : D.Holds (CompileM.emitLoopBody body breakTo continueTo) :=
  (modifyFunction fun _ => by rfl).bind fun _ => h.bind fun _ => modifyFunction fun _ => by rfl

theorem emitWhile (cond : NodeId) {body : NodeId} (h : D.Holds (CompileM.perform (.emitStmt body))) :
    D.Holds (CompileM.emitWhile cond body) :=
  (build _).bind fun _ => (emitCondition cond).bind fun _ => (build _).bind fun _ =>
    (emitLoopBody h _ _).bind fun _ => build _

theorem emitFor {init : Option NodeId} (cond step : Option NodeId) {body : NodeId}
    (hinit : ∀ first ∈ init, D.Holds (CompileM.perform (.emitStmt first)))
    (h : D.Holds (CompileM.perform (.emitStmt body))) : D.Holds (CompileM.emitFor init cond step body) := by
  refine openScope.bind fun _ => ?_
  rcases init with _ | init
  on_goal 2 => refine (hinit init rfl).bind fun _ => ?_
  all_goals
    refine (build _).bind fun (condBlock, bodyBlock, stepBlock, endBlock) => ?_
    rcases cond with _ | cond
    on_goal 1 => refine (build _).bind fun _ => ?_
    on_goal 2 => refine (emitCondition cond).bind fun _ => (build _).bind fun _ => ?_
    all_goals
      refine (build _).bind fun _ => (emitLoopBody h _ _).bind fun _ => (build _).bind fun _ => ?_
      rcases step with _ | step
      on_goal 2 => refine ((evaluate (.emitExpr step) rfl).map _).bind fun _ => ?_
      all_goals exact (build _).bind fun _ => closeScope

theorem emitReturn (value : Option NodeId) (location : Location) :
    D.Holds (CompileM.emitReturn value location) := by
  refine functionState.bind fun f => ite (bail _ _) (ite (ite (bail _ _) (build _)) ?_)
  split
  · exact (evaluate (.emitExpr _) rfl).bind fun _ => (coerce _ _ _).bind fun _ =>
      (build _).bind fun _ => build _
  · exact bail _ _
  · exact bail _ _
  · exact build _

theorem emitCase (scrutinee : Rvalue) (endBlock : Nat) {case : SwitchCase}
    (h : D.Holds (CompileM.perform (.emitStmt case.body))) :
    D.Holds (CompileM.emitCase scrutinee endBlock case) :=
  (locate case.value).bind fun _ => (evaluate (.emitExpr case.value) rfl).bind fun _ =>
    (emitOperation _ _ _ _).bind fun _ => (truthValue _ _).bind fun _ => (build _).bind fun _ =>
      h.bind fun _ => build _

theorem emitSwitch (value : NodeId) {cases : List SwitchCase} {default : Option NodeId}
    (location : Location) (hcases : ∀ case ∈ cases, D.Holds (CompileM.perform (.emitStmt case.body)))
    (hdefault : ∀ body ∈ default, D.Holds (CompileM.perform (.emitStmt body))) :
    D.Holds (CompileM.emitSwitch value cases default location) := by
  refine ite (bail _ _) ((evaluate (.emitExpr value) rfl).bind fun scrutinee =>
    (build _).bind fun endBlock => (forM_mem fun case hcase =>
      emitCase scrutinee endBlock (hcases case hcase)).bind fun _ => ?_)
  cases default with
  | none => exact build _
  | some body => exact (hdefault body rfl).bind fun _ => build _

theorem foreachCount (place : Place) (length : Option NodeId) (location : Location) :
    D.Holds (CompileM.foreachCount place length location) := by
  unfold CompileM.foreachCount
  split
  · exact (evaluate (.emitExpr _) rfl).bind fun _ => ite (bail _ _) (castTo _ _ _)
  · exact (evaluate (.emitExpr _) rfl).bind fun _ => ite (bail _ _) (castTo _ _ _)
  · exact emitConst _
  · exact bail _ _
  · exact bail _ _

theorem emitForeachBody (id : NodeId) (name : String) (place counter : Place) {body : NodeId}
    (h : D.Holds (CompileM.perform (.emitStmt body))) (endBlock stepBlock : Nat) (location : Location) :
    D.Holds (CompileM.emitForeachBody id name place counter body endBlock stepBlock location) :=
  openScope.bind fun _ => (loadPlace _ _).bind fun _ => (elementPlace _ _ _).bind fun _ =>
    (loadPlace _ _).bind fun _ => (materialize _ _).bind fun _ => (spanOf id).bind fun _ =>
      ((declare _).map _).bind fun _ => (emitLoopBody h _ _).bind fun _ => closeScope

theorem emitForeach (id : NodeId) (name : String) (data : NodeId) (length : Option NodeId)
    {body : NodeId} (h : D.Holds (CompileM.perform (.emitStmt body))) (location : Location) :
    D.Holds (CompileM.emitForeach id name data length body location) :=
  (placeOrSlot data).bind fun _ => (foreachCount _ _ _).bind fun _ => (emitConst _).bind fun _ =>
    (materialize _ _).bind fun _ => (build _).bind fun _ => (loadPlace _ _).bind fun _ =>
      (emitOperation _ _ _ _).bind fun _ => (truthValue _ _).bind fun _ => (build _).bind fun _ =>
        (emitForeachBody _ _ _ _ h _ _ _).bind fun _ => (build _).bind fun _ =>
          (loadPlace _ _).bind fun _ => (emitConst _).bind fun _ => (emitOperation _ _ _ _).bind
            fun _ => build _

set_option synthInstance.maxSize 300 in
theorem emitDefer {stmt : NodeId} (h : D.Holds (CompileM.perform (.emitStmt stmt))) (location : Location) :
    D.Holds (CompileM.emitDefer stmt location) := by
  refine functionState.bind fun f => ite (bail _ _) ((build_of ?_).bind fun _ =>
    (modifyFunction fun _ => by rfl).bind fun _ => h.bind fun _ => (modifyFunction fun _ => by rfl).bind fun _ =>
      build _)
  dsimp only
  infer_instance

theorem emitDestroy (value : NodeId) (location : Location) :
    D.Holds (CompileM.emitDestroy value location) := by
  refine (memberBase value location).bind fun (owner, this) => get_bind fun c => ?_
  split
  · exact pure _
  · exact (callFunction _ _ _).map _

theorem emitLocalAlias (decl : AliasDecl) (location : Location) :
    D.Holds (CompileM.emitLocalAlias decl location) :=
  (aliasEntry _ _).bind fun _ => functionState_bind fun _ _ h =>
    setFunctionState_bind h (.refl _) (ite (bail _ _) (pure _))

/-- The branch that is taken is one of the two. -/
theorem staticBranch_bind {cond yes : NodeId} {no : Option NodeId} {f : Option NodeId → CompileM β}
    (hyes : D.Holds (f (some yes))) (hno : ∀ body ∈ no, D.Holds (f (some body)))
    (hnone : D.Holds (f none)) : D.Holds (CompileM.staticBranch cond yes no >>= f) := by
  unfold CompileM.staticBranch
  rw [bind_assoc]
  refine (foldRequired cond _).bind fun value => ?_
  cases value.truth? with
  | none =>
    rw [bind_assoc]
    exact (locate cond).bind fun location =>
      throw (.failed (.semantic location (.conditionNotBoolean value.text)))
  | some taken =>
    rw [pure_bind]
    cases taken with
    | true => exact hyes
    | false =>
      cases no with
      | none => exact hnone
      | some body => exact hno body rfl

/-- A statement is emitted by way of the statements inside. -/
theorem at_emitStmt {id : NodeId} {c : Context}
    (hblock : ∀ items, c.tree.HasKind id (.block items) →
      ∀ location, D.At (CompileM.emitBlock items location) c)
    (hinside : ∀ kind, c.tree.HasKind id kind → (∀ items, kind ≠ .block items) →
      ∀ child ∈ kind.children, D.Holds (CompileM.perform (.emitStmt child))) :
    D.At (CompileM.emitStmt id) c := by
  refine at_locate_kindOf fun location kind hkind => ?_
  have hchild := hinside kind hkind
  cases kind with
  | block items => exact hblock items hkind location
  | «variable» decl => exact emitLocal id decl location c
  | ifElse cond yes no =>
    exact emitIf cond (hchild (by simp) yes (by simp [NodeKind.children]))
      (fun body hbody => hchild (by simp) body (by simp [NodeKind.children, Option.mem_def.mp hbody])) c
  | whileLoop cond body => exact emitWhile cond (hchild (by simp) body (by simp [NodeKind.children])) c
  | forLoop init cond step body =>
    exact emitFor cond step
      (fun first hfirst => hchild (by simp) first (by simp [NodeKind.children, Option.mem_def.mp hfirst]))
      (hchild (by simp) body (by simp [NodeKind.children])) c
  | foreach name data length body =>
    exact emitForeach id name data length (hchild (by simp) body (by simp [NodeKind.children])) location c
  | switch value cases default =>
    refine emitSwitch value location (fun case hcase => hchild (by simp) case.body ?_)
      (fun body hbody => hchild (by simp) body (by simp [NodeKind.children, Option.mem_def.mp hbody])) c
    have hmem : case.body ∈ cases.flatMap fun case => [case.value, case.body] :=
      List.mem_flatMap.mpr ⟨case, hcase, by simp⟩
    simp [NodeKind.children, hmem]
  | defer stmt => exact emitDefer (hchild (by simp) stmt (by simp [NodeKind.children])) location c
  | destroy value => exact emitDestroy value location c
  | breakLoop | continueLoop => exact emitJump _ _ location c
  | ret value => exact emitReturn value location c
  | staticIf cond yes no =>
    refine staticBranch_bind (hchild (by simp) yes (by simp [NodeKind.children])) (fun body hbody => ?_)
      (pure PUnit.unit) c
    exact hchild (by simp) body (by simp [NodeKind.children, Option.mem_def.mp hbody])
  | builtin name args => exact (evalBuiltin id name args).map _ c
  | «alias» decl => exact emitLocalAlias decl location c
  | function _ | aggregate _ | space _ _ => exact bail _ _ c
  | _ => exact (evaluate (.emitExpr id) rfl).map _ c

/-! ### Declarations -/

theorem openResult (f : FunctionSymbol) (span : Span) (location : Location) :
    D.Holds (CompileM.openResult f span location) := by
  rw [CompileM.openResult]
  cases f.constructorOf with
  | some owner =>
    exact (defaultSlot _ _).bind fun _ => ((declare _).map _).bind fun _ => modifyFunction fun _ => by rfl
  | none =>
    exact ite (pure _) ((lower _ _).bind fun _ => (build _).bind fun _ => modifyFunction fun _ => by rfl)

end Evaluating

section Emitting

variable [D.Emits]

theorem emitBlock (items : List NodeId) (location : Location) :
    D.Holds (CompileM.emitBlock items location) := by
  refine fun c => D.get_bind ?_
  split_ifs
  · exact bail _ _ c
  · exact D.bind (Emits.setNesting _ c) fun _ => openScope.bind fun _ =>
      (emitItems fun item _ => statement item).bind fun _ => closeScope.bind fun _ =>
        setNesting (· - 1)

/-- Emits a statement with whatever is inside. -/
theorem emitStmt (id : NodeId) : D.Holds (CompileM.emitStmt id) :=
  fun c => at_emitStmt (fun items _ location => emitBlock items location c)
    fun _ _ _ child _ => statement child

end Emitting

end Discipline.Holds

/-! ### Functions -/

/-- Writes the body of the function under emission. -/
def CompileM.fillFunction (f : FunctionSymbol) (signature : FunctionSignature) (classes : List PassingClass)
    (body : NodeId) (location : Location) : CompileM Unit := do
  openScope
  let span ← spanOf f.decl
  declareParams f span location 0 (f.paramNames.zip (f.params.zip (classes.zip signature.params)))
  openResult f span location
  perform (.emitStmt body)
  closeResult f location
  closeScope

/-- A function that begins, with its two first blocks. -/
def FunctionState.begin (f : FunctionSymbol) (function : IrFunction) (layout : DataLayout) : FunctionState :=
  let start := (FunctionBuilder.createBlock "exit").run (FunctionBuilder.new function layout)
  { builder := start.2
    ret := f.ret
    exit := start.1
    exitTail := start.1
    returnsZero := f.returnsZero
    isConstructor := f.constructorOf.isSome }

/-- A function is begun, written and ended. -/
theorem CompileM.emitBody_eq (f : FunctionSymbol) (function : IrFunction) (classes : List PassingClass)
    (body : NodeId) (location : Location) : emitBody f function classes body location = (do
      setFunctionState (.begin f function (← get).layout)
      fillFunction f function.signature classes body location
      finishFunction) := by
  simp only [emitBody, fillFunction, bind_assoc]
  rfl

/-- What is left to emit of a symbol once its declaration is read. -/
def CompileM.emitDefinition (f : FunctionSymbol) (decl : FunctionDecl) (location : Location) :
    CompileM Unit := do
  let classes ← classifyParams f location
  let signature ← machineSignature f classes location
  let isShared := f.isInstance || decl.hasModifier .inline
  let function : IrFunction :=
    { name := f.linkName
      signature
      convention := f.convention
      linkage := if isShared then .linkOnceOdr else .external }
  match decl.body with
  | some body => emitBody f function classes body location
  | none =>
    if ((← get).program.function? f.linkName).isNone then
      modify fun c => { c with program := c.program.addFunction function }

theorem CompileM.emitSymbol_eq (f : FunctionSymbol) : emitSymbol f = (do
    let location ← locate f.decl
    match ← kindOf f.decl with
    | .function decl => emitDefinition f decl location
    | _ => bail location (.notFunction f.name)) := rfl

namespace Discipline

/-- Work that begins a function, keeps the discipline before and goes on in it. -/
inductive Opens (D : Discipline) : {α : Type} → CompileM α → Prop
  | before {α : Type} {x : CompileM α} : D.Holds x → D.Opens x
  | bind {α β : Type} {x : CompileM α} {f : α → CompileM β} :
    D.Holds x → (∀ a, D.Opens (f a)) → D.Opens (x >>= f)
  | start {α : Type} {x : CompileM α} (f : FunctionState) : D.Holds x → D.Opens (do
      CompileM.setFunctionState f
      x)

variable {D : Discipline}

theorem Holds.fillFunction [D.Evaluates] (f : FunctionSymbol) (signature : FunctionSignature)
    (classes : List PassingClass) {body : NodeId} (h : D.Holds (CompileM.perform (.emitStmt body)))
    (location : Location) : D.Holds (CompileM.fillFunction f signature classes body location) :=
  openScope.bind fun _ => (spanOf _).bind fun _ => (declareParams _ _ _ _ _).bind fun _ =>
    (openResult _ _ _).bind fun _ => h.bind fun _ => (closeResult _ _).bind fun _ => closeScope

section Opening

variable [D.Evaluates] [D.Writes]

theorem opens_emitBody (f : FunctionSymbol) (function : IrFunction) (classes : List PassingClass)
    {body : NodeId} (h : D.Holds (CompileM.perform (.emitStmt body))) (location : Location) :
    D.Opens (CompileM.emitBody f function classes body location) := by
  rw [CompileM.emitBody_eq]
  exact .bind .read fun _ => .start _ ((Holds.fillFunction f _ classes h location).bind fun _ => .finishFunction)

theorem opens_emitDefinition {f : FunctionSymbol} {decl : FunctionDecl}
    (h : ∀ body ∈ decl.body, D.Holds (CompileM.perform (.emitStmt body))) (location : Location) :
    D.Opens (CompileM.emitDefinition f decl location) := by
  refine .bind (.classifyParams f location) fun classes =>
    .bind (.machineSignature _ _ _) fun signature => ?_
  cases hbody : decl.body with
  | some body => exact opens_emitBody _ _ _ (h body hbody) _
  | none => exact .before (.get_bind fun c => .ite (.write (fun c => .declare c rfl) fun _ => rfl) (.pure _))

end Opening

theorem opens_emitSymbol [D.Emits] [D.Writes] (f : FunctionSymbol) : D.Opens (CompileM.emitSymbol f) := by
  refine .bind (.locate f.decl) fun location => .bind (.kindOf f.decl) fun kind => ?_
  cases kind with
  | function decl => exact opens_emitDefinition (fun body _ => .statement body) location
  | _ => exact .before (.bail _ _)

/-- A function is emitted in an environment of its own. -/
theorem Holds.emitFunction [D.Defines] (h : ∀ f : FunctionSymbol,
    D.Holds (CompileM.within f.subst f.space (CompileM.emitSymbol f))) (key : String) :
    D.Holds (CompileM.emitFunction key) := by
  refine get_bind fun c => ?_
  cases c.symbols.functions.get? key with
  | none => exact fail _
  | some f => exact (beginEmit f.decl).bind fun _ => ite (h f) (pure _)

end Discipline
end UnitCompiler
