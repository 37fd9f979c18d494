import UnitCompiler.Proofs.Compile.Variables
import UnitCompiler.Proofs.Phases.Declarations

/-!
# Assignments to constants

An assignment is refused when the place that it stores into has a constant type.  That type is the one
declared for the last step of the target: the constness of a variable protects the variable as a whole,
while its fields and elements are protected by their own types alone.
-/

namespace UnitCompiler

/-- Nodes that name a variable, or a field or an element of what such a node names. -/
inductive AccessPath (c : Context) : NodeId → Prop where
  | «variable» {id : NodeId} {name : String} (hkind : c.tree.HasKind id (.ident name []))
      (hname : c.isVariable name = true) : AccessPath c id
  | field {id base : NodeId} {name : String} (hkind : c.tree.HasKind id (.get base name))
      (hbase : AccessPath c base) : AccessPath c id
  | element {id base index : NodeId} (hkind : c.tree.HasKind id (.index base index))
      (hbase : AccessPath c base) : AccessPath c id

/-- The type declared for what an access path names.  Of the whole that a field or an element is part of,
only the type below its qualifiers counts; the value of an overloaded `[]` has whatever type the operator
gives it. -/
inductive DeclaredAs (c : Context) : NodeId → SourceType → Prop where
  | «variable» {id : NodeId} {name : String} {place : Place}
      (hkind : c.tree.HasKind id (.ident name [])) (hplace : c.place? name = some place) :
      DeclaredAs c id place.type
  | field {id base : NodeId} {name owner : String} {whole : SourceType} {c' : Context}
      {field : FieldSymbol} (hkind : c.tree.HasKind id (.get base name))
      (hbase : DeclaredAs c base whole) (howner : whole.strip.canonical = owner ∨
        ∃ inner, whole.strip = .pointer inner ∧ inner.canonical = owner) (hlater : c.Later c')
      (hfield : c'.symbols.field? owner name = some field) : DeclaredAs c id field.type
  | element {id base index : NodeId} {whole type : SourceType}
      (hkind : c.tree.HasKind id (.index base index)) (hbase : DeclaredAs c base whole)
      (hwhole : whole.strip = .pointer type ∨ ∃ length, whole.strip = .array type length) :
      DeclaredAs c id type
  | overload {id base index : NodeId} {whole : SourceType} (type : SourceType)
      (hkind : c.tree.HasKind id (.index base index)) (hbase : DeclaredAs c base whole)
      (hwhole : whole.isAggregate = true) : DeclaredAs c id type

namespace CompileM

variable {p : Performer} {c c' : Context} {location : Location} {d : Nat} {id : NodeId}
  {place : Place}

/-- The place of a variable is the one that its name stands for. -/
theorem variablePlace_eq_ok {name : String} (h : variablePlace name location p c = .ok place c') :
    c.place? name = some place := by
  unfold variablePlace at h
  obtain ⟨F, c₁, hstate, hplace⟩ := bind_eq_ok.mp h
  obtain ⟨rfl, hF⟩ := functionState_eq_ok hstate
  unfold Context.place?
  rw [hF, Option.bind_some, ← Scope.map_lookup]
  cases hlocal : F.scope.lookup name with
  | some v =>
    rw [hlocal] at hplace
    cases hplace
    rfl
  | none =>
    rw [hlocal] at hplace
    simp only at hplace
    rw [bind_of_eq_ok (get_apply p _)] at hplace
    unfold Context.globalPlace?
    cases hglobal : c₁.global? name with
    | none =>
      rw [hglobal] at hplace
      cases hplace
    | some g =>
      rw [hglobal] at hplace
      obtain ⟨machine, c₂, hrun, hpure⟩ := bind_eq_ok.mp hplace
      obtain ⟨rfl, hlower⟩ := lower_eq_ok hrun
      cases hpure
      simp [hlower]

theorem fieldPlace_eq_ok {address : Operand} {field : FieldSymbol}
    (h : fieldPlace address field location p c = .ok place c') : place.type = field.type := by
  unfold fieldPlace at h
  obtain ⟨machine, c₁, -, h⟩ := bind_eq_ok.mp h
  obtain ⟨o, c₂, -, h⟩ := bind_eq_ok.mp h
  cases h
  rfl

/-- A member is asked for in an aggregate or behind a pointer to one. -/
theorem memberBase_eq_ok {base : NodeId} {owner : String} {address : Operand}
    (h : memberBase base location p c = .ok (owner, address) c') :
    ∃ whole c₁, placeOrSlot base p c = .ok whole c₁ ∧ (whole.type.strip.canonical = owner ∨
      ∃ inner, whole.type.strip = .pointer inner ∧ inner.canonical = owner) := by
  unfold memberBase at h
  obtain ⟨whole, c₁, hwhole, h⟩ := bind_eq_ok.mp h
  refine ⟨whole, c₁, hwhole, ?_⟩
  cases hstrip : whole.type.strip with
  | aggregate name args =>
    rw [hstrip] at h
    cases h
    exact .inl rfl
  | pointer inner =>
    rw [hstrip] at h
    obtain ⟨machine, c₂, -, h⟩ := bind_eq_ok.mp (guard_passes h).2
    obtain ⟨o, c₃, -, h⟩ := bind_eq_ok.mp h
    cases h
    exact .inr ⟨inner, rfl, rfl⟩
  | _ =>
    rw [hstrip] at h
    cases h

/-- The place of a member is that of the field of its name. -/
theorem memberPlace_eq_ok {base : NodeId} {name : String}
    (h : memberPlace base name location p c = .ok place c') :
    ∃ owner address c₁ field, memberBase base location p c = .ok (owner, address) c₁ ∧
      c₁.symbols.field? owner name = some field ∧ place.type = field.type := by
  unfold memberPlace at h
  obtain ⟨⟨owner, address⟩, c₁, hbase, h⟩ := bind_eq_ok.mp h
  simp only at h
  rw [bind_of_eq_ok (get_apply p c₁)] at h
  cases hfield : c₁.symbols.field? owner name with
  | some field =>
    rw [hfield] at h
    exact ⟨owner, address, c₁, field, hbase, hfield, fieldPlace_eq_ok h⟩
  | none =>
    rw [hfield] at h
    simp only at h
    split at h <;> cases h

/-- An element has the type that the array or the pointer gives its elements. -/
theorem elementPlace_eq_ok {base : Place} {index : Rvalue}
    (h : elementPlace base index location p c = .ok place c') :
    base.type.strip = .pointer place.type ∨ ∃ length, base.type.strip = .array place.type length := by
  obtain ⟨value, c₁, -, hplace⟩ := bind_eq_ok.mp (guard_passes h).2
  cases hstrip : base.type.strip with
  | array element length =>
    rw [hstrip] at hplace
    obtain ⟨machine, c₂, -, hplace⟩ := bind_eq_ok.mp hplace
    obtain ⟨o, c₃, -, hplace⟩ := bind_eq_ok.mp hplace
    cases hplace
    exact .inr ⟨length, rfl⟩
  | pointer element =>
    rw [hstrip] at hplace
    obtain ⟨pointer, c₂, -, hplace⟩ := bind_eq_ok.mp (guard_passes hplace).2
    obtain ⟨machine, c₃, -, hplace⟩ := bind_eq_ok.mp hplace
    obtain ⟨o, c₄, -, hplace⟩ := bind_eq_ok.mp hplace
    cases hplace
    exact .inl rfl
  | _ =>
    rw [hstrip] at hplace
    cases hplace

theorem indexPlace_eq_ok {base : Place} {index : NodeId}
    (h : indexPlace base index location p c = .ok place c') :
    base.type.strip = .pointer place.type ∨ ∃ length, base.type.strip = .array place.type length := by
  obtain ⟨value, c₁, -, h⟩ := bind_eq_ok.mp h
  exact elementPlace_eq_ok h

/-- A node on an access path is a place. -/
theorem placeOrSlot_of_accessPath (h : AccessPath c id) :
    placeOrSlot id p c = perform (.emitPlace id) p c := by
  have hplace : isPlaceExpr id p c = .ok true c := by
    unfold isPlaceExpr
    cases h with
    | «variable» hkind hname =>
      rw [bind_of_eq_ok (kindOf_apply hkind)]
      simp only
      rw [bind_of_eq_ok (get_apply p c), hname]
      rfl
    | field hkind _ | element hkind _ =>
      rw [bind_of_eq_ok (kindOf_apply hkind)]
      rfl
  unfold placeOrSlot
  rw [bind_of_eq_ok hplace]
  rfl

/-- The place of an access path has the type declared for its last step. -/
theorem declaredAs_of_emitPlace (h : AccessPath c id) {d : Nat} {place : Place} {c' : Context}
    (hrun : performWithin d (.emitPlace id) c = .ok place c') : DeclaredAs c id place.type := by
  induction h generalizing d place c' with
  | «variable» hkind hname =>
    obtain ⟨d, hrun⟩ := work_of_performWithin hrun
    obtain ⟨location, hnode⟩ := locate_kindOf hkind
    change emitPlace _ _ c = _ at hrun
    unfold emitPlace at hrun
    rw [hnode] at hrun
    simp only at hrun
    rw [bind_of_eq_ok (get_apply _ c), if_pos hname] at hrun
    exact .variable hkind (variablePlace_eq_ok hrun)
  | @field id base name hkind hbase ih =>
    obtain ⟨d, hrun⟩ := work_of_performWithin hrun
    obtain ⟨location, hnode⟩ := locate_kindOf hkind
    change emitPlace _ _ c = _ at hrun
    unfold emitPlace at hrun
    rw [hnode] at hrun
    obtain ⟨owner, address, c₁, field, hmember, hfield, htype⟩ := memberPlace_eq_ok hrun
    obtain ⟨whole, c₂, hwhole, howner⟩ := memberBase_eq_ok hmember
    rw [placeOrSlot_of_accessPath hbase] at hwhole
    have := Leads.performWithin d
    have hleads : Leads (performWithin d) (memberBase base location) :=
      .memberBase base location
    have hlater := (hleads c).of_ok hmember
    rw [htype]
    exact .field hkind (ih hwhole) howner hlater hfield
  | element hkind hbase ih =>
    obtain ⟨d, hrun⟩ := work_of_performWithin hrun
    obtain ⟨location, hnode⟩ := locate_kindOf hkind
    change emitPlace _ _ c = _ at hrun
    unfold emitPlace at hrun
    rw [hnode] at hrun
    obtain ⟨whole, c₁, hwhole, hrun⟩ := bind_eq_ok.mp hrun
    rw [placeOrSlot_of_accessPath hbase] at hwhole
    split at hrun
    · exact .overload _ hkind (ih hwhole) ‹_›
    · exact .element hkind (ih hwhole) (indexPlace_eq_ok hrun)

/-- The place that an assignment stores into. -/
def targetPlace (lhs : NodeId) (location : Location) : CompileM Place := do
  match ← kindOf lhs with
  | .index base index => indexPlace (← placeOrSlot base) index location
  | _ => perform (.emitPlace lhs)

theorem declaredAs_of_targetPlace {lhs : NodeId} (h : AccessPath c lhs)
    (hrun : targetPlace lhs location (performWithin d) c = .ok place c') :
    DeclaredAs c lhs place.type := by
  unfold targetPlace at hrun
  cases h with
  | «variable» hkind hname =>
    rw [bind_of_eq_ok (kindOf_apply hkind)] at hrun
    exact declaredAs_of_emitPlace (.variable hkind hname) hrun
  | field hkind hbase =>
    rw [bind_of_eq_ok (kindOf_apply hkind)] at hrun
    exact declaredAs_of_emitPlace (.field hkind hbase) hrun
  | element hkind hbase =>
    rw [bind_of_eq_ok (kindOf_apply hkind)] at hrun
    obtain ⟨whole, c₁, hwhole, hrun⟩ := bind_eq_ok.mp hrun
    rw [placeOrSlot_of_accessPath hbase] at hwhole
    exact .element hkind (declaredAs_of_emitPlace hbase hwhole) (indexPlace_eq_ok hrun)

/-- Behind its target an assignment stores. -/
theorem emitAssign_of_targetPlace {op : BinaryOp} {lhs rhs : NodeId}
    (h : targetPlace lhs location p c = .ok place c') :
    emitAssign op lhs rhs location p c = storeAssignment op place rhs location p c' := by
  unfold targetPlace at h
  unfold emitAssign
  obtain ⟨kind, c₁, hkind, h⟩ := bind_eq_ok.mp h
  rw [bind_of_eq_ok hkind]
  cases kind with
  | index base index =>
    obtain ⟨whole, c₂, hwhole, h⟩ := bind_eq_ok.mp h
    have hplain : whole.type.isAggregate = false := by
      unfold SourceType.isAggregate
      obtain hstrip | ⟨length, hstrip⟩ := indexPlace_eq_ok h <;> rw [hstrip]
    simp only
    rw [bind_of_eq_ok hwhole, hplain, Bool.false_and, if_neg Bool.false_ne_true, bind_of_eq_ok h]
  | _ =>
    simp only
    rw [bind_of_eq_ok h]

/-- An assignment to a place that may be stored into. -/
def storeResult (op : BinaryOp) (place : Place) (rhs : NodeId) (location : Location) :
    CompileM Rvalue := do
  let value ←
    match op.compoundBase? with
    | some base => do
      let current ← loadPlace place location
      let right ← perform (.emitExpr rhs)
      emitOperation base current right location
    | none => perform (.emitExpr rhs)
  let value ← coerce value place.type.strip location
  build (FunctionBuilder.store value.operand place.address)
  return value

theorem storeAssignment_eq (op : BinaryOp) (place : Place) (rhs : NodeId) (location : Location) :
    storeAssignment op place rhs location =
      if place.type.isConst then bail location (.assignToConstant place.type.canonical)
      else storeResult op place rhs location := by
  unfold storeAssignment storeResult
  split_ifs <;> rfl

/-- A variable that is declared stands for a place of its type. -/
theorem place?_of_declare {v : LocalVar} (h : declare v p c = .ok true c') :
    c'.place? v.name = some ⟨v.type, v.slot⟩ := by
  unfold declare at h
  obtain ⟨F, c₁, hstate, hset⟩ := bind_eq_ok.mp h
  cases hscope : F.scope.declare v with
  | none =>
    rw [hscope] at hset
    cases hset
  | some scope =>
    rw [hscope] at hset
    cases hset
    obtain ⟨frame, rest, -, hplaces, hnone⟩ := Scope.places_declare hscope
    change (findPlace scope.places v.name).or _ = _
    rw [hplaces, findPlace_declare hnone]
    simp [LocalVar.named]

end CompileM

open CompileM

variable {c : Context} {id lhs rhs : NodeId} {op : BinaryOp} {span : Span}

theorem emitExpr_assignment (hnode : c.tree.node? id = some ⟨.binary op lhs rhs, span⟩)
    (hop : op.isAssignment = true) (d : Nat) :
    performWithin (d + 1) (.emitExpr id) c =
      emitAssign op lhs rhs (c.tree.locate span) (performWithin d) c := by
  have hlocate : locate id (performWithin d) c = .ok (c.tree.locate span) c := by
    unfold locate spanOf
    rw [bind_assoc, bind_of_eq_ok (nodeAt_apply hnode)]
    rfl
  change emitExpr id _ c = _
  unfold emitExpr
  rw [bind_of_eq_ok hlocate, bind_of_eq_ok (kindOf_apply ⟨span, hnode⟩)]
  simp only [emitBinary, hop, if_true]

/-- Behind its target an assignment is refused when the place has a constant type, and stores when not. -/
theorem emitExpr_of_targetPlace {d : Nat} {place : Place} {c₁ : Context}
    (hnode : c.tree.node? id = some ⟨.binary op lhs rhs, span⟩) (hop : op.isAssignment = true)
    (htarget : targetPlace lhs (c.tree.locate span) (performWithin d) c = .ok place c₁) :
    performWithin (d + 1) (.emitExpr id) c =
      if place.type.isConst then
        .error (.failed (.semantic (c.tree.locate span) (.assignToConstant place.type.canonical))) c₁
      else storeResult op place rhs (c.tree.locate span) (performWithin d) c₁ := by
  rw [emitExpr_assignment hnode hop, emitAssign_of_targetPlace htarget, storeAssignment_eq,
    CompileM.ite_apply]
  rfl

/-- No operator assigns to a constant variable as a whole, and the code stays as it was. -/
theorem assignment_to_constant {F : FunctionState} {name : String} {place : Place}
    (hnode : c.tree.node? id = some ⟨.binary op lhs rhs, span⟩) (hop : op.isAssignment = true)
    (hlhs : c.tree.HasKind lhs (.ident name [])) (hF : c.function = some F)
    (hplace : c.place? name = some place) (hconst : place.type.isConst = true) (d : Nat) :
    ∃ scope, performWithin (d + 2) (.emitExpr id) c =
      .error (.failed (.semantic (c.tree.locate span) (.assignToConstant place.type.canonical)))
        (c.advance F.builder scope) := by
  obtain ⟨location, hlocate⟩ := locate_kindOf hlhs
  obtain ⟨scope, -, hrun⟩ := variablePlace_apply location (performWithin d) hF hplace
  have htarget : targetPlace lhs (c.tree.locate span) (performWithin (d + 1)) c =
      .ok place (c.advance F.builder scope) := by
    unfold targetPlace
    rw [bind_of_eq_ok (kindOf_apply hlhs)]
    change emitPlace lhs _ c = _
    unfold emitPlace
    rw [hlocate]
    simp only
    rw [bind_of_eq_ok (get_apply _ c), if_pos (Context.isVariable_of_place? hplace), hrun]
  exact ⟨scope, by rw [emitExpr_of_targetPlace hnode hop htarget, if_pos hconst]⟩

/-- An assignment to a variable, a field or an element looks at the type declared for that variable, field
or element, and at nothing else: where it is constant the assignment is refused with nothing emitted
behind the place, and where it is not the value is stored, whether or not what the field or the element
is part of is constant. -/
theorem assignment_checks_last_step {d : Nat} {place : Place} {c₁ : Context}
    (hnode : c.tree.node? id = some ⟨.binary op lhs rhs, span⟩) (hop : op.isAssignment = true)
    (hpath : AccessPath c lhs)
    (htarget : targetPlace lhs (c.tree.locate span) (performWithin d) c = .ok place c₁) :
    DeclaredAs c lhs place.type ∧ performWithin (d + 1) (.emitExpr id) c =
      if place.type.isConst then
        .error (.failed (.semantic (c.tree.locate span) (.assignToConstant place.type.canonical))) c₁
      else storeResult op place rhs (c.tree.locate span) (performWithin d) c₁ :=
  ⟨declaredAs_of_targetPlace hpath htarget, emitExpr_of_targetPlace hnode hop htarget⟩

/-- A function with a constant point. -/
def pointContext : Context where
  tree := {
    nodes := #[⟨.ident "p" [], default⟩, ⟨.get ⟨0⟩ "x", default⟩, ⟨.int 2, default⟩,
      ⟨.binary .assign ⟨1⟩ ⟨2⟩, default⟩] }
  symbols := SymbolTables.addAggregate {} {
    decl := ⟨0⟩, name := "Point", fields := [⟨"x", .scalar .int, 0, none⟩], base := none
    isInstance := false, space := [], subst := {} }
  function := some {
    builder := .new default {}, ret := .void, exit := 0, exitTail := 0
    scope := ⟨[{ vars :=
      [{ name := "p", type := .const (.named "Point"), slot := .argument 0, span := default }] }]⟩ }

/-- Its field is declared as a number that is not constant, and a number is stored into it. -/
theorem assignment_to_field_of_constant : ∃ place c₁,
    targetPlace ⟨1⟩ (pointContext.tree.locate default) (performWithin 2) pointContext = .ok place c₁ ∧
      place.type = .scalar .int ∧ DeclaredAs pointContext ⟨1⟩ place.type ∧
      performWithin 3 (.emitExpr ⟨3⟩) pointContext =
        storeResult .assign place ⟨2⟩ (pointContext.tree.locate default) (performWithin 2) c₁ := by
  have hkind : pointContext.tree.HasKind ⟨0⟩ (.ident "p" []) := ⟨default, rfl⟩
  have hfield : pointContext.tree.HasKind ⟨1⟩ (.get ⟨0⟩ "x") := ⟨default, rfl⟩
  have hpath : AccessPath pointContext ⟨1⟩ := .field hfield (.variable hkind (by decide))
  have hnode : pointContext.tree.node? ⟨3⟩ = some ⟨.binary .assign ⟨1⟩ ⟨2⟩, default⟩ := rfl
  obtain ⟨place, c₁, htarget, htype⟩ : ∃ place c₁, targetPlace ⟨1⟩ (pointContext.tree.locate default)
      (performWithin 2) pointContext = .ok place c₁ ∧ place.type = .scalar .int :=
    ⟨_, _, rfl, rfl⟩
  obtain ⟨hdeclared, hrun⟩ := assignment_checks_last_step hnode rfl hpath htarget
  rw [if_neg (by rw [htype]; decide)] at hrun
  exact ⟨place, c₁, htarget, htype, hdeclared, hrun⟩

end UnitCompiler
