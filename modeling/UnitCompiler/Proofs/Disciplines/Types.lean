import UnitCompiler.Compile.Evaluation
import UnitCompiler.Compile.Instances
import UnitCompiler.Compile.Passing
import UnitCompiler.Proofs.Disciplines.Basic

/-!
# Types, constants and instances

Resolving types, folding constants and making instances keep every discipline.
-/

namespace UnitCompiler
namespace Discipline.Holds

variable {D : Discipline}

theorem lower (type : SourceType) (location : Location) : D.Holds (CompileM.lower type location) :=
  get_bind fun _ => orBail _ _

/-- What is scheduled is done at once only while emitting. -/
theorem schedule {job : CompileM Unit} (h : ∀ c : Context, c.phase = .emit → D.At job c) (item : Pending) :
    D.Holds (do
      match (← get).phase with
      | .emit => job
      | .check => modify fun c => { c with pending := c.pending ++ [item] }) := by
  refine fun c => D.get_bind ?_
  cases hphase : c.phase with
  | emit => exact h c hphase
  | check => exact D.postpone item hphase

theorem lengthOfValue (location : Location) (value : ConstValue) :
    D.Holds (CompileM.resolveLength.ofValue location value) := by
  rw [CompileM.resolveLength.ofValue]
  cases value.toInt? with
  | none => exact bail _ _
  | some length => exact ite (pure _) (bail _ _)

theorem resolveNamed (name : String) (location : Location) :
    D.Holds (CompileM.resolveNamed name location) :=
  get_bind fun _ => orBail _ _

theorem checkDepth (location : Location) (depth : Nat) : D.Holds (CompileM.checkDepth location depth) :=
  ite (bail _ _) (pure _)

theorem aliasQuery (location : Location) (args : List BuiltinArg) :
    D.Holds (CompileM.aliasQuery location args) := by
  unfold CompileM.aliasQuery
  split
  · cases SourceType.bareName? _ with
    | none => exact bail _ _
    | some name => exact pure _
  · refine (kindOf _).bind fun kind => ?_
    cases kind with
    | ident name args => exact pure _
    | _ => exact bail _ _
  · exact bail _ _

theorem passingType (type : SourceType) (cls : PassingClass) (location : Location) :
    D.Holds (CompileM.passingType type cls location) :=
  get_bind fun _ => orBail _ _

/-! ### Instances of aggregates -/

/-- An aggregate is made by entering a copy by its name, which is checked and scheduled then. -/
theorem makeAggregate_of_enters {name : String} {site : DeclarationSite} (h : ∀ copy, D.Holds (do
      CompileM.modifySymbols fun s =>
        { s with declaredAggregates := s.declaredAggregates.insert name ⟨copy, site.space⟩ }
      discard (CompileM.perform (.checkAggregate copy (some name)))
      CompileM.scheduleAggregate name)) : D.Holds (CompileM.makeAggregate name site) := by
  refine D.copySubtree_modifyKind _ _ ⟨?_, ?_, ?_⟩ h
  · intro kind
    cases kind <;> rfl
  · intro kind items
    cases kind <;> simp
  · intro kind decl
    cases kind <;> simp

/-- An aggregate is checked when it is made, and emitted at once while emitting. -/
theorem makeAggregate_of_jobs {name : String}
    (hdeclare : ∀ site, D.Holds (CompileM.modifySymbols fun s =>
      { s with declaredAggregates := s.declaredAggregates.insert name site }))
    (hcheck : ∀ copy, D.Holds (CompileM.perform (.checkAggregate copy (some name))))
    (hemit : ∀ c : Context, c.phase = .emit → D.At (CompileM.perform (.emitAggregate name)) c)
    (site : DeclarationSite) : D.Holds (CompileM.makeAggregate name site) :=
  makeAggregate_of_enters fun copy =>
    (hdeclare _).bind fun _ => ((hcheck copy).map _).bind fun _ => schedule hemit _

theorem ensureInstance_of_makeAggregate {name : String} {args : List TemplateArg} {location : Location}
    (hmake : ∀ subst space name site, D.Holds (CompileM.instantiating subst space location
      (CompileM.makeAggregate name site))) : D.Holds (CompileM.ensureInstance name args location) := by
  refine get_bind fun c => ?_
  cases c.aggregateTemplate? name with
  | none => exact bail _ _
  | some found =>
    refine ite (pure _) (ite (bail _ _) ((kindOf _).bind fun kind => ?_))
    cases kind with
    | aggregate decl => exact (orBail _ _).bind fun subst => (hmake _ _ _ _).bind fun _ => pure _
    | _ => exact bail _ _

instance [D.Makes] : D.Resolves where
  resolve job h := Calls.job job (Job.isCommon_of_isResolving h)
  ensureInstance _ _ _ := ensureInstance_of_makeAggregate fun _ _ _ _ =>
    instantiating (makeAggregate_of_jobs (Makes.declareInstance _) (Makes.checkInstance · _)
      (fun c _ => job (.emitAggregate _) rfl c) _)

/-! ### Types -/

section Lengths

variable [D.Resolves]

theorem foldRequired (id : NodeId) (what : String) : D.Holds (CompileM.foldRequired id what) := by
  refine (resolve (.fold id) rfl).bind fun value => ?_
  cases value with
  | none => exact (locate id).bind fun _ => bail _ _
  | some value => exact pure value

theorem ensureChecked (name : String) (location : Location) :
    D.Holds (CompileM.ensureChecked name location) := by
  refine get_bind fun c => ite (pure _) ?_
  cases c.symbols.declaredAggregates.get? name with
  | none => exact bail _ _
  | some site => exact ite (bail _ _) (within ((resolve (.checkAggregate site.decl none) rfl).map _))

theorem ensureInstance (name : String) (args : List TemplateArg) (location : Location) :
    D.Holds (CompileM.ensureInstance name args location) :=
  Resolves.ensureInstance name args location

theorem resolveLength (location : Location) (length : ArrayLength) :
    D.Holds (CompileM.resolveLength location length) := by
  cases length with
  | fixed length => exact pure length
  | param name =>
    refine get_bind fun c => ?_
    cases c.subst.values.get? name with
    | none => exact bail _ _
    | some value => exact lengthOfValue location value
  | expr node => exact (foldRequired node _).bind fun _ => lengthOfValue location _

end Lengths

mutual

theorem resolveAt [D.Resolves] (location : Location) (type : SourceType) (depth : Nat) :
    D.Holds (CompileM.resolveAt location type depth) := by
  match type with
  | .void | .scalar _ =>
    rw [CompileM.resolveAt]
    exact (checkDepth _ _).bind fun _ => pure _
  | .pointer inner | .const inner | .alias _ inner =>
    rw [CompileM.resolveAt]
    exact (checkDepth _ _).bind fun _ => (resolveAt location inner _).bind fun _ => pure _
  | .array inner length =>
    rw [CompileM.resolveAt]
    exact (checkDepth _ _).bind fun _ => (resolveAt location inner _).bind fun _ =>
      (resolveLength location length).bind fun _ => pure _
  | .function ret params isVariadic =>
    rw [CompileM.resolveAt]
    exact (checkDepth _ _).bind fun _ => (resolveAt location ret _).bind fun _ =>
      (resolveAll location params _).bind fun _ => pure _
  | .templateParam name =>
    rw [CompileM.resolveAt]
    exact (checkDepth _ _).bind fun _ => bail _ _
  | .aggregate name [] =>
    rw [CompileM.resolveAt]
    exact (checkDepth _ _).bind fun _ => resolveNamed name location
  | .aggregate name (arg :: rest) =>
    rw [CompileM.resolveAt]
    exact (checkDepth _ _).bind fun _ => (resolveArgs location (arg :: rest) _).bind fun _ =>
      (ensureInstance _ _ location).bind fun _ => pure _

theorem resolveArg [D.Resolves] (location : Location) (arg : TemplateArg) (depth : Nat) :
    D.Holds (CompileM.resolveArg location arg depth) := by
  match arg with
  | .value value =>
    rw [CompileM.resolveArg]
    exact pure _
  | .type type =>
    rw [CompileM.resolveArg]
    cases type.bareName? with
    | none => exact (resolveAt location type _).bind fun _ => pure _
    | some name =>
      refine get_bind fun c => ?_
      cases c.valueAlias? name with
      | some value => exact pure _
      | none => exact (resolveNamed name location).bind fun _ => pure _

theorem resolveArgs [D.Resolves] (location : Location) (args : List TemplateArg) (depth : Nat) :
    D.Holds (CompileM.resolveArgs location args depth) := by
  match args with
  | [] =>
    rw [CompileM.resolveArgs]
    exact pure _
  | arg :: rest =>
    rw [CompileM.resolveArgs]
    exact (resolveArg location arg _).bind fun _ => (resolveArgs location rest _).bind fun _ => pure _

theorem resolveAll [D.Resolves] (location : Location) (types : List SourceType) (depth : Nat) :
    D.Holds (CompileM.resolveAll location types depth) := by
  match types with
  | [] =>
    rw [CompileM.resolveAll]
    exact pure _
  | type :: rest =>
    rw [CompileM.resolveAll]
    exact (resolveAt location type _).bind fun _ => (resolveAll location rest _).bind fun _ => pure _

end

section Resolving

variable [D.Resolves]

theorem resolveType (type : SourceType) (location : Location) :
    D.Holds (CompileM.resolveType type location) :=
  get_bind fun _ => resolveAt location _ 0

theorem complete (type : SourceType) (location : Location) :
    D.Holds (CompileM.complete type location) := by
  rw [CompileM.complete]
  cases type.strip with
  | array inner length => exact resolve (.complete inner location) rfl
  | aggregate name args =>
    exact (ensureChecked _ _).bind fun _ => get_bind fun _ => forM fun field =>
      resolve (.complete field location) rfl
  | _ => exact pure _

/-! ### Constants -/

theorem constSizeOf (type : SourceType) (location : Location) :
    D.Holds (CompileM.constSizeOf type location) := by
  refine (resolveType _ _).bind fun type => (resolve (.complete _ _) rfl).bind fun _ => get_bind fun c => ?_
  cases c.sizeOf? type with
  | none => exact bail _ _
  | some bytes => exact ite (pure _) (bail _ _)

theorem builtinType (location : Location) (arg : BuiltinArg) :
    D.Holds (CompileM.builtinType location arg) := by
  cases arg with
  | type written => exact resolveType written location
  | expr id =>
    refine (kindOf id).bind fun kind => ?_
    cases kind with
    | ident name args => exact resolveType _ location
    | _ => exact bail _ _

theorem builtinTypes (name : String) (args : List BuiltinArg) (count : Nat) (location : Location) :
    D.Holds (CompileM.builtinTypes name args count location) :=
  ite (bail _ _) (mapM (builtinType location))

theorem onlyType (name : String) (args : List BuiltinArg) (location : Location) :
    D.Holds (CompileM.onlyType name args location) :=
  (builtinTypes name args 1 location).bind fun _ => pure _

theorem sameTypes (name : String) (args : List BuiltinArg) (location : Location) :
    D.Holds (CompileM.sameTypes name args location) := by
  refine (builtinTypes name args 2 location).bind fun types => ?_
  split <;> exact pure _

theorem builtinMessage (name : String) (args : List BuiltinArg) (location : Location) :
    D.Holds (CompileM.builtinMessage name args location) := by
  refine bind (mapM fun arg => ?_) fun _ => pure _
  cases arg with
  | type written => exact bail _ _
  | expr id =>
    refine (foldRequired id _).bind fun value => ?_
    cases value <;> exact pure _

theorem evalBuiltin (id : NodeId) (name : String) (args : List BuiltinArg) :
    D.Holds (CompileM.evalBuiltin id name args) := by
  refine (locate id).bind fun location => ?_
  cases CompileM.typePredicate? name with
  | some holds => exact (onlyType name args location).bind fun _ => pure _
  | none =>
    dsimp only
    split
    · exact (onlyType _ args location).bind fun type => (constSizeOf type location).map _
    · exact (sameTypes _ args location).bind fun _ => pure _
    · exact (sameTypes _ args location).bind fun _ => pure _
    · exact (onlyType _ args location).bind fun _ => pure _
    · exact (aliasQuery location args).bind fun _ => get_bind fun _ => pure _
    · exact (builtinMessage _ args location).bind fun _ => (warn _ _ _).bind fun _ => pure _
    · exact (builtinMessage _ args location).bind fun _ => bail _ _
    · exact bail _ _

theorem foldLogical (op : BinaryOp) (left : ConstValue) (rhs : NodeId) :
    D.Holds (CompileM.foldLogical op left rhs) := by
  rw [CompileM.foldLogical]
  cases left.truth? with
  | none => exact pure _
  | some truth => exact ite (pure _) ((resolve (.fold rhs) rfl).bind fun _ => pure _)

theorem foldBinaryNode (op : BinaryOp) (lhs rhs : NodeId) (location : Location) :
    D.Holds (CompileM.foldBinaryNode op lhs rhs location) := by
  refine (resolve (.fold lhs) rfl).bind fun left => ?_
  cases left with
  | none => exact pure _
  | some left =>
    refine ite (foldLogical op left rhs) ((resolve (.fold rhs) rfl).bind fun right => ?_)
    cases right with
    | none => exact pure _
    | some right => exact orBail _ _

theorem foldNode (id : NodeId) : D.Holds (CompileM.foldNode id) := by
  refine (locate id).bind fun location => (kindOf id).bind fun kind => ?_
  cases kind with
  | int _ | float _ | bool _ | char _ | str _ | null => exact pure _
  | ident name args =>
    cases args with
    | nil => exact get_bind fun _ => pure _
    | cons arg rest => exact pure _
  | unary op operand => exact (resolve (.fold operand) rfl).bind fun _ => pure _
  | binary op lhs rhs => exact ite (pure _) (foldBinaryNode op lhs rhs location)
  | cast type value =>
    refine (resolve (.fold value) rfl).bind fun value => ?_
    cases value with
    | none => exact pure _
    | some value => exact (resolveType type location).bind fun _ => pure _
  | sizeOf type => exact (constSizeOf type location).map _
  | builtin name args => exact evalBuiltin id name args
  | _ => exact pure _

theorem staticBranch (cond yes : NodeId) (no : Option NodeId) :
    D.Holds (CompileM.staticBranch cond yes no) := by
  refine (foldRequired cond _).bind fun value => ?_
  cases value.truth? with
  | none => exact (locate cond).bind fun _ => bail _ _
  | some taken => exact pure _

end Resolving

/-! ### Functions -/

theorem scheduleFunction [D.Calls] (key : String) : D.Holds (CompileM.scheduleFunction key) :=
  schedule (fun c _ => job (.emitFunction key) rfl c) _

/-- A function instance is made by checking a copy and entering its key. -/
theorem makeFunction_of_enters {name : String} {location : Location}
    (h : ∀ copy, D.Holds (do
      match ← CompileM.perform (.checkFunction copy none true) with
      | none => CompileM.bail location (.notRegistered name)
      | some key =>
        CompileM.modifySymbols fun s => { s with instances := s.instances.insert name key }
        CompileM.scheduleFunction key
        return key))
    (site : DeclarationSite) : D.Holds (CompileM.makeFunction name site location) := by
  refine D.copySubtree_modifyKind _ _ ⟨?_, ?_, ?_⟩ h
  · intro kind
    cases kind <;> rfl
  · intro kind items
    cases kind <;> simp
  · intro kind decl
    cases kind <;> simp

/-- A function instance is made wherever its key may be entered. -/
theorem makeFunction_of_enterInstance [D.Calls] [D.Resolves] (henter : ∀ name key : String,
      D.Holds (CompileM.modifySymbols fun s => { s with instances := s.instances.insert name key }))
    (name : String) (site : DeclarationSite) (location : Location) :
    D.Holds (CompileM.makeFunction name site location) := by
  refine makeFunction_of_enters (fun copy => ?_) site
  refine (resolve (.checkFunction copy none true) rfl).bind fun key => ?_
  cases key with
  | none => exact bail _ _
  | some key => exact (henter _ _).bind fun _ => (scheduleFunction key).bind fun _ => pure _

theorem instantiateFunction_of_makeFunction [D.Resolves] {name : String} {args : List TemplateArg}
    {location : Location} (hmake : ∀ subst space name site,
      D.Holds (CompileM.instantiating subst space location (CompileM.makeFunction name site location))) :
    D.Holds (CompileM.instantiateFunction name args location) := by
  refine get_bind fun c => ?_
  cases c.functionTemplate? name with
  | none => exact ite (bail _ _) (bail _ _)
  | some found =>
    refine (resolveArgs location args 0).bind fun args => get_bind fun c => ?_
    split
    · exact pure _
    refine (kindOf _).bind fun kind => ?_
    cases kind with
    | function decl => exact (orBail _ _).bind fun subst => hmake _ _ _ _
    | _ => exact bail _ _

theorem instantiateFunction_of_enterInstance [D.Calls] [D.Resolves] (henter : ∀ name key : String,
      D.Holds (CompileM.modifySymbols fun s => { s with instances := s.instances.insert name key }))
    (name : String) (args : List TemplateArg) (location : Location) :
    D.Holds (CompileM.instantiateFunction name args location) :=
  instantiateFunction_of_makeFunction fun _ _ _ _ =>
    instantiating (makeFunction_of_enterInstance henter _ _ _)

instance [D.Emits] : D.Evaluates where
  evaluate job h := Emits.inFunction job (by cases job <;> first | rfl | cases h)
  instantiateFunction := Emits.instantiateFunction

theorem instantiateFunction [D.Evaluates] (name : String) (args : List TemplateArg) (location : Location) :
    D.Holds (CompileM.instantiateFunction name args location) :=
  Evaluates.instantiateFunction name args location

variable [D.Resolves]

theorem constructedInstance (name : String) (args : List TemplateArg) (location : Location) :
    D.Holds (CompileM.constructedInstance name args location) :=
  get_bind fun _ => ite (pure _) ((resolveType _ _).bind fun _ => pure _)

theorem classify (type : SourceType) (location : Location) :
    D.Holds (CompileM.classify type location) := by
  rw [CompileM.classify]
  cases type.aggregateName? with
  | none => exact pure _
  | some name =>
    refine (resolve (.complete _ _) rfl).bind fun _ => get_bind fun c => ?_
    cases c.symbols.fieldTypes? name with
    | none => exact bail _ _
    | some fields =>
      cases c.sizeOf? type with
      | none => exact bail _ _
      | some bytes => exact ite (pure _) (orBail _ _)

theorem classifyParams (f : FunctionSymbol) (location : Location) :
    D.Holds (CompileM.classifyParams f location) :=
  mapM fun type => ite (classify type location) (pure _)

end Discipline.Holds
end UnitCompiler
