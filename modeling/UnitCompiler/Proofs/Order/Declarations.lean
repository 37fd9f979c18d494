import UnitCompiler.Proofs.Order.Runs

/-!
# What declarations enter

Checking a function, an aggregate without a base, a global or an alias comes down to registrations when the
types and values that it mentions are known from the outline of the unit.
-/

namespace UnitCompiler
namespace Outline

/-- A template, or a function with plain types. -/
structure PlainFunction (o : Outline) (decl : FunctionDecl) : Prop where
  params : decl.isTemplate = false → ∀ param ∈ decl.params, o.Plain param.type
  ret : decl.isTemplate = false → o.Plain decl.ret

/-- A declaration that can be checked without the others. -/
inductive Declares (o : Outline) (id : NodeId) : Prop where
  | function {decl} (hkind : o.tree.HasKind id (.function decl)) (h : o.PlainFunction decl)
  | aggregateTemplate {decl} (hkind : o.tree.HasKind id (.aggregate decl)) (h : decl.isTemplate = true)
  | aggregate {decl} (hkind : o.tree.HasKind id (.aggregate decl)) (h : decl.isTemplate = false)
    (hbase : decl.base = none) (hfields : ∀ field ∈ decl.fields, o.Plain field.type)
    (hmethods : ∀ method ∈ decl.methods, ∃ d, o.tree.HasKind method (.function d) ∧ o.PlainFunction d)
  | global {decl} (hkind : o.tree.HasKind id (.variable decl)) (htype : ∀ type ∈ decl.type, o.Plain type)
    (hinit : ∀ node ∈ decl.init, o.tree.IsClosed node)
  | typeAlias {name target} (hkind : o.tree.HasKind id (.alias ⟨name, .type target⟩))
    (h : o.Plain target) (hname : name ∈ o.aliases)
  | valueAlias {name node} (hkind : o.tree.HasKind id (.alias ⟨name, .value node⟩))
    (h : o.tree.IsClosed node)

end Outline

variable {o : Outline} {depth : Nat}

namespace Reads

theorem resolveParams {decl : FunctionDecl} (h : ∀ param ∈ decl.params, o.Plain param.type)
    (location : Location) :
    Reads o.Alike (performWithin depth) (CompileM.resolveParams decl location) :=
  mapM fun param hparam => (resolveType (h param hparam) depth location).bind fun _ => ite bail (pure _)

theorem functionSymbol {decl : FunctionDecl} (hparams : ∀ param ∈ decl.params, o.Plain param.type)
    (hret : o.Plain decl.ret) (id : NodeId) (owner : Option String) (isInstance : Bool)
    (location : Location) : Reads o.Alike (performWithin depth)
      (CompileM.functionSymbol id decl owner isInstance location) := by
  unfold CompileM.functionSymbol
  generalize (if decl.isConstructor = true then owner else none) = constructorOf
  refine (resolveParams hparams location).bind fun params => ?_
  cases constructorOf with
  | some constructed =>
    refine (pure _).bind fun ret => get_bind (fun c e hR => ?_) fun c => ite ?_ (pure _)
    · simp only [hR.first.space, hR.second.space, hR.first.subst, hR.second.subst]
    cases owner with
    | none => exact bail.bind fun _ => pure _
    | some owner => exact ite (bail.bind fun _ => pure _) (pure _)
  | none =>
    refine (resolveType hret depth location).bind fun ret => get_bind (fun c e hR => ?_) fun c =>
      ite ?_ (pure _)
    · simp only [Context.qualify, hR.first.space, hR.second.space, hR.first.subst, hR.second.subst]
    cases owner with
    | none => exact bail.bind fun _ => pure _
    | some owner => exact ite (bail.bind fun _ => pure _) (pure _)

theorem resolveFields {fields : List FieldDecl} (h : ∀ field ∈ fields, o.Plain field.type) (owner : String)
    (location : Location) (seen : List String) :
    Reads o.Alike (performWithin depth) (CompileM.resolveFields owner location fields seen) := by
  induction fields generalizing seen with
  | nil => exact pure _
  | cons field rest ih =>
    obtain ⟨hfield, hrest⟩ := List.forall_mem_cons.mp h
    exact ite bail ((resolveType hfield depth location).bind fun _ => ite bail (ite bail
      ((ih hrest _).bind fun _ => pure _)))

theorem collectFields {decl : AggregateDecl} (h : ∀ field ∈ decl.fields, o.Plain field.type) (name : String)
    (location : Location) :
    Reads o.Alike (performWithin depth) (CompileM.collectFields name decl none location) :=
  get_bind (fun _ _ _ => rfl) fun _ => (resolveFields h name location []).bind fun _ => pure _

theorem aliasEntry_type {target : SourceType} (h : o.Plain target) (location : Location) :
    Reads o.Alike (performWithin depth) (CompileM.aliasEntry location (.type target)) :=
  (resolveType h depth location).bind fun _ => pure _

theorem aliasEntry_value {node : NodeId} (h : o.tree.IsClosed node) (location : Location) :
    Reads o.Alike (performWithin depth) (CompileM.aliasEntry location (.value node)) :=
  (foldRequired h depth _).bind fun _ => pure _

end Reads

namespace Records

variable {p : Performer} {nodes : List NodeId} {owners : List String} {ids : List NodeId} {α : Type}

theorem bail_at_ne_ok (id : NodeId) (location : Location) (problem : Location → Problem) (c : Context)
    (a : α) (c' : Context) : (do
      let found ← CompileM.locate id
      CompileM.bail location (problem found) : CompileM α) p c ≠ .ok a c' := by
  intro hrun
  obtain ⟨found, c₁, -, hrun⟩ := CompileM.bind_eq_ok.mp hrun
  exact CompileM.bail_ne_ok _ _ hrun

/-! ### Functions -/

theorem registerTemplate (id : NodeId) (decl : FunctionDecl) (owner : Option String)
    (location : Location) :
    Records o p nodes owners ids (CompileM.registerTemplate id decl owner location) := by
  cases owner with
  | some owner => exact bail _ _
  | none =>
    let site : DeclarationSite := ⟨id, []⟩
    have hclaims : Records o p nodes owners ids (CompileM.unlessFound (·.symbols.templates.get? decl.name)
        (CompileM.modifySymbols fun s => { s with templates := s.templates.insert decl.name site })) :=
      claims (r := .template decl.name site) (.template decl.name)
        (.shared rfl rfl fun _ _ => Registration.noConfusion)
        (fun _ hfree => SymbolTables.write_template hfree site)
        fun _ htaken => Registration.claim_of_some htaken site
    refine lookup _ hclaims (fun c hc hnone => ?_) fun c existing hc hsome => ?_
    · dsimp only
      rw [hc.qualify, hnone, hc.space]
    · rw [hc.qualify, hsome]
      exact bail_at_ne_ok _ _ _ c

/-- A function is entered behind another registration, unless its key is taken. -/
theorem addFunction_behind {x : CompileM PUnit} {r : Registration} {f : FunctionSymbol}
    (hdecl : f.decl ∈ nodes) (hfits : r.Fits o nodes owners)
    (hr : ∀ v, r.write (.function f.key) v = some v)
    (hx : ∀ c, (∃ s, x p c = .ok ⟨⟩ { c with symbols := s } ∧ s.functions = c.symbols.functions ∧
        ∀ slot, r.write slot (c.symbols.entry slot) = some (s.entry slot)) ∨
      ((∀ a c', x p c ≠ .ok a c') ∧ ∃ slot, r.write slot (c.symbols.entry slot) = none)) :
    Records o p nodes owners ids (CompileM.unlessFound (·.symbols.functions.get? f.key) do
      x
      CompileM.modifySymbols (·.addFunction f)) := by
  refine of_runs (a := ⟨⟩) (l := [r, .function f]) (fun r' hr' => ?_) fun c _ => ?_
  · rcases List.mem_pair.mp hr' with rfl | rfl
    · exact hfits
    · exact .function hdecl
  cases hfound : c.symbols.functions.get? f.key with
  | some existing =>
    refine .inr ⟨fun a c' hrun => ?_, .function f.key, ?_⟩
    · rw [(CompileM.unlessFound_eq_ok.mp hrun).1] at hfound
      cases hfound
    · have hclaim : (Registration.function f).write (.function f.key)
          (c.symbols.entry (.function f.key)) = none :=
        Registration.claim_of_some (Option.isSome_of_eq_some hfound) f
      rw [writeAll_cons, hr, Option.bind_some, writeAll_cons, hclaim]
      rfl
  | none =>
    obtain ⟨s, hrun, hfunctions, hwrites⟩ | ⟨hfails, slot, hnone⟩ := hx c
    · refine .inl ⟨s.addFunction f, CompileM.unlessFound_eq_ok.mpr ⟨hfound, ?_⟩, fun slot => ?_⟩
      · rw [CompileM.bind_of_eq_ok hrun]
        rfl
      · rw [← hfunctions] at hfound
        rw [writeAll_cons, hwrites, Option.bind_some, writeAll_cons, SymbolTables.write_function hfound]
        rfl
    · refine .inr ⟨fun a c' hrun => ?_, slot, ?_⟩
      · obtain ⟨b, c₁, hrun₁, -⟩ := CompileM.bind_eq_ok.mp (CompileM.unlessFound_eq_ok.mp hrun).2
        exact hfails b c₁ hrun₁
      · rw [writeAll_cons, hnone]
        rfl

theorem enterOperator {tag : OperatorTag} {owner : String} {f : FunctionSymbol} (howner : owner ∈ owners)
    (hdecl : f.decl ∈ nodes) (location : Location) :
    Records o p nodes owners ids (CompileM.unlessFound (·.symbols.functions.get? f.key) do
      CompileM.enterOperator tag owner f location
      CompileM.modifySymbols (·.addFunction f)) := by
  let operands := signature (f.params.map (operandType owner))
  let change (a : Option AggregateSymbol) : Option (Option AggregateSymbol) := a.bind fun a =>
    if (a.operator? tag operands).isSome then none
    else some (some { a with operators := a.operators.update tag {} (·.insert operands f.key) })
  refine addFunction_behind (r := .amend owner change) hdecl (.of_owner rfl howner fun _ h => ?_)
    (fun _ => rfl) fun c => ?_
  · cases h
  have hrefused (h : change (c.symbols.aggregates.get? owner) = none) :
      (Registration.amend owner change).write (.aggregate owner)
        (c.symbols.entry (.aggregate owner)) = none := by
    change (if owner = owner then change (c.symbols.aggregates.get? owner) else _) = none
    rw [if_pos rfl, h]
  unfold CompileM.enterOperator
  dsimp only
  rw [CompileM.bind_of_eq_ok (CompileM.get_apply p c)]
  cases haggregate : c.symbols.aggregates.get? owner with
  | none =>
    refine .inr ⟨fun _ _ => CompileM.bail_ne_ok _ _, _, hrefused ?_⟩
    rw [haggregate]
    rfl
  | some a =>
    by_cases hoperator : (a.operator? tag operands).isSome = true
    · refine .inr ⟨fun b c' hrun => ?_, _, hrefused ?_⟩
      · exact (CompileM.guard_passes hrun).1 hoperator
      · rw [haggregate]
        exact if_pos hoperator
    · let a' := { a with operators := a.operators.update tag {} (·.insert operands f.key) }
      refine .inl ⟨{ c.symbols with aggregates := c.symbols.aggregates.insert owner a' }, ?_, rfl,
        SymbolTables.write_amend ?_⟩
      · dsimp only
        rw [if_neg hoperator]
        rfl
      · rw [haggregate]
        exact if_neg hoperator

/-- A function enters its key and, as a method or an operator, its place in the aggregate. -/
theorem register (decl : FunctionDecl) {owner : Option String} {f : FunctionSymbol}
    (howner : ∀ name ∈ owner, name ∈ owners) (hdecl : f.decl ∈ nodes)
    (hfowner : ∀ name ∈ f.owner, name ∈ owner) (location : Location) :
    Records o p nodes owners ids (CompileM.unlessFound (·.symbols.functions.get? f.key)
      (CompileM.register decl owner f location)) := by
  have hadd : Records o p nodes owners ids (CompileM.unlessFound (·.symbols.functions.get? f.key)
      (CompileM.modifySymbols (·.addFunction f))) :=
    claims (r := .function f) (.function f.key) (.function hdecl)
      (fun _ hfree => SymbolTables.write_function hfree) fun _ htaken => Registration.claim_of_some htaken f
  unfold CompileM.register
  cases owner with
  | none =>
    cases hf : f.owner with
    | none => exact hadd
    | some name => cases hfowner name hf
  | some name =>
    cases decl.operator with
    | some tag => exact enterOperator (howner name rfl) hdecl location
    | none =>
      cases hf : f.owner with
      | none => exact hadd
      | some name =>
        refine addFunction_behind (r := .method name decl.name f.key) hdecl
          (.of_owner rfl (howner name (hfowner name hf)) fun _ h => ?_) (fun _ => rfl)
          fun c => .inl ⟨_, rfl, rfl, SymbolTables.write_method _ _ _⟩
        cases h

theorem checkFunction {id : NodeId} {decl : FunctionDecl} (hkind : o.tree.HasKind id (.function decl))
    (hplain : o.PlainFunction decl) {owner : Option String} (howner : ∀ name ∈ owner, name ∈ owners)
    (hid : id ∈ nodes) : Records o (performWithin depth) nodes owners [id]
      (CompileM.checkFunction id owner false) := by
  refine locate_kindOf hkind fun location => beginCheck_bind ?_ List.not_mem_nil
  rw [if_neg (by decide)]
  cases htemplate : decl.isTemplate with
  | true =>
    rw [if_pos rfl]
    exact (registerTemplate id decl owner location).bind_pure _
  | false =>
    rw [if_neg (by decide)]
    -- The owner's name is tested first for a method; what follows is the same for every function.
    rcases owner with _ | owner
    on_goal 2 => refine guard (guard ?_)
    all_goals
      refine read (.functionSymbol (hplain.params htemplate) (hplain.ret htemplate) id _ false location)
        fun f hf => ?_
      obtain ⟨c₀, hrun⟩ := hf
      obtain ⟨rfl, hfowner⟩ := Yields.functionSymbol _ decl _ false location _ _ _ hrun
      refine lookup _
        (unlessFound_bind ((register decl howner hid hfowner location).bind_pure fun _ => some f.key))
        (fun c hc hnone => ?_) fun c existing hc hsome => ?_
      · rw [hnone]
      · rw [hsome]
        exact bail_at_ne_ok _ _ _ c

/-! ### Aggregates -/

theorem registerAggregateTemplate (id : NodeId) (decl : AggregateDecl) (location : Location) :
    Records o p nodes owners ids (CompileM.registerAggregateTemplate id decl location) := by
  let site : DeclarationSite := ⟨id, []⟩
  have hclaims : Records o p nodes owners ids
      (CompileM.unlessFound (·.symbols.aggregateTemplates.get? decl.name) (CompileM.modifySymbols fun s =>
        { s with aggregateTemplates := s.aggregateTemplates.insert decl.name site })) :=
    claims (r := .aggregateTemplate decl.name site) (.aggregateTemplate decl.name)
      (.shared rfl rfl fun _ _ => Registration.noConfusion)
      (fun _ hfree => SymbolTables.write_aggregateTemplate hfree site)
      fun _ htaken => Registration.claim_of_some htaken site
  refine lookup _ hclaims (fun c hc hnone => ?_) fun c existing hc hsome => ?_
  · dsimp only
    rw [hc.qualify, hnone, hc.space]
  · rw [hc.qualify, hsome]
    exact bail_at_ne_ok _ _ _ c

/-- The methods of an aggregate are set last. -/
theorem setMethods {name : String} (hname : name ∈ owners) (methods : List String) :
    Records o p nodes owners ids (do
      if let some symbol := (← get).symbols.aggregates.get? name then
        CompileM.modifySymbols fun s =>
          { s with aggregates := s.aggregates.insert name { symbol with methods } }) := by
  let change (a : Option AggregateSymbol) : Option (Option AggregateSymbol) :=
    some (a.map fun a => { a with methods })
  refine of_runs (a := ⟨⟩) (l := [.amend name change]) (fun r hr => ?_) fun c _ => .inl ?_
  · rw [List.mem_singleton.mp hr]
    exact .of_owner rfl hname fun _ h => by cases h
  rw [CompileM.bind_of_eq_ok (CompileM.get_apply p c)]
  cases hsymbol : c.symbols.aggregates.get? name with
  | none =>
    refine ⟨c.symbols, rfl, fun slot => ?_⟩
    rw [writeAll_cons, SymbolTables.write_amend_of_unchanged]
    · rfl
    · rw [hsymbol]
      rfl
  | some symbol =>
    refine ⟨_, rfl, fun slot => ?_⟩
    rw [writeAll_cons, SymbolTables.write_amend (a := { symbol with methods })]
    · rfl
    · rw [hsymbol]
      rfl

theorem registerAggregate {id : NodeId} {decl : AggregateDecl}
    (howners : ∀ owner ∈ owners, owner ∈ o.aggregates) (hbase : decl.base = none)
    (hfields : ∀ field ∈ decl.fields, o.Plain field.type)
    (hmethods : ∀ method ∈ decl.methods, ∃ d, o.tree.HasKind method (.function d) ∧ o.PlainFunction d)
    (hnodup : decl.methods.Nodup) (hname : decl.name ∈ owners) (hid : id ∈ nodes)
    (hnodes : ∀ method ∈ decl.methods, method ∈ nodes) (location : Location) :
    Records o (performWithin depth) nodes owners decl.methods
      (CompileM.registerAggregate id decl.name decl false location) := by
  let symbol (fields : List FieldSymbol) : AggregateSymbol :=
    { decl := id, name := decl.name, fields, base := none, isInstance := false, space := [], subst := {} }
  have hresolved : CompileM.resolveBase decl.name decl location = Pure.pure none := by
    unfold CompileM.resolveBase
    rw [hbase]
  have hclaims (fields : List FieldSymbol) : Records o (performWithin depth) nodes owners []
      (CompileM.unlessFound (·.symbols.aggregates.get? decl.name)
        (CompileM.modifySymbols (·.addAggregate (symbol fields)))) :=
    claims (r := .aggregate (symbol fields)) (.aggregate decl.name) (.aggregate hname hid)
      (fun _ hfree => SymbolTables.write_aggregate hfree)
      fun _ htaken => Registration.claim_of_some htaken (symbol fields)
  have howner : ∀ name ∈ some decl.name, name ∈ owners := by
    rintro name ⟨⟩
    exact hname
  have hown : Records o (performWithin depth) nodes owners decl.methods
      (decl.methods.filterMapM fun method => CompileM.checkFunction method (some decl.name) false) := by
    refine filterMapM howners hnodup fun method hmethod => ?_
    obtain ⟨d, hkind, hplain⟩ := hmethods method hmethod
    exact checkFunction hkind hplain howner (hnodes method hmethod)
  unfold CompileM.registerAggregate
  rw [hresolved, pure_bind]
  refine lookup (x := ?register) (·.symbols.aggregates.get? decl.name) ?_
    (fun c hc hnone => ?hnone) fun c existing hc hsome a c' hrun => ?hsome
  case hnone => rw [hnone]
  case hsome =>
    rw [hsome] at hrun
    obtain ⟨found, c₁, -, hrun⟩ := CompileM.bind_eq_ok.mp hrun
    cases hrun
  dsimp only
  refine unlessFound_read (.collectFields hfields _ _) fun fields _ =>
    unlessFound_get (x := ?rest) ?_ fun c hc => ?hc
  case hc => rw [hc.space, hc.subst]
  refine unlessFound_bind (bind howners (hclaims fields) (fun _ => ?_) fun _ h => absurd h List.not_mem_nil)
  refine (bind howners hown (fun own => ?_) fun _ _ => List.not_mem_nil).weaken fun method hmethod => ?_
  · rw [pure_bind]
    exact setMethods hname _
  · rwa [List.append_nil] at hmethod

theorem checkAggregateTemplate {id : NodeId} {decl : AggregateDecl}
    (hkind : o.tree.HasKind id (.aggregate decl)) (h : decl.isTemplate = true) :
    Records o p nodes owners [id] (CompileM.checkAggregate id none) := by
  refine locate_kindOf hkind fun location => beginCheck_bind ?_ List.not_mem_nil
  rw [if_neg (by decide), h]
  exact (registerAggregateTemplate id decl location).bind_pure _

theorem checkAggregate {id : NodeId} {decl : AggregateDecl}
    (hkind : o.tree.HasKind id (.aggregate decl)) (h : decl.isTemplate = false) (hbase : decl.base = none)
    (hfields : ∀ field ∈ decl.fields, o.Plain field.type)
    (hmethods : ∀ method ∈ decl.methods, ∃ d, o.tree.HasKind method (.function d) ∧ o.PlainFunction d)
    (hnodup : (id :: decl.methods).Nodup) (hname : decl.name ∈ o.aggregates) :
    Records o (performWithin depth) (id :: decl.methods) [decl.name] (id :: decl.methods)
      (CompileM.checkAggregate id none) := by
  obtain ⟨hid, hnodup⟩ := List.nodup_cons.mp hnodup
  refine locate_kindOf hkind fun location => beginCheck_bind ?_ hid
  rw [if_neg (by decide), h, if_neg (by decide)]
  refine get_bind (x := ?x) ?_ fun c hc => ?hc
  case hc => rw [hc.qualify]
  refine (registerAggregate (List.forall_mem_singleton.mpr hname) hbase hfields hmethods hnodup
    (List.mem_singleton_self _) List.mem_cons_self (fun _ => List.mem_cons_of_mem _) location).bind_pure _

/-! ### Globals and aliases -/

theorem checkGlobal {decl : VariableDecl} (htype : ∀ type ∈ decl.type, o.Plain type)
    (hinit : ∀ node ∈ decl.init, o.tree.IsClosed node) (id : NodeId) (location : Location) :
    Records o (performWithin depth) nodes owners ids (CompileM.checkGlobal id decl location) := by
  -- What follows once the type is known is the same for a written type and for an inferred one.
  let symbol (type : SourceType) (value : Option ConstValue) : GlobalSymbol :=
    { decl := id, name := decl.name, linkName := LinkName.global decl.name, type
      isConst := decl.isConst, value }
  have hclaims (symbol : GlobalSymbol) : Records o (performWithin depth) nodes owners ids
      (CompileM.unlessFound (·.symbols.globals.get? symbol.name) (CompileM.modifySymbols fun s =>
        { s with globals := s.globals.insert symbol.name symbol })) :=
    claims (r := .global symbol) (.global symbol.name)
      (.shared rfl rfl fun _ _ => Registration.noConfusion)
      (fun _ hfree => SymbolTables.write_global hfree)
      fun _ htaken => Registration.claim_of_some htaken symbol
  have hlater (type : SourceType) (value : Option ConstValue) : Records o (performWithin depth) nodes owners
      ids (CompileM.unlessFound (·.symbols.globals.get? decl.name) do
        if type.isVoid then CompileM.bail location (.voidVariable decl.name)
        if decl.isConst && value.isNone then CompileM.bail location (.constantWithoutValue decl.name)
        CompileM.modifySymbols fun s =>
          { s with globals := s.globals.insert decl.name (symbol type value) }) :=
    unlessFound_guard (unlessFound_guard (hclaims (symbol type value)))
  unfold CompileM.checkGlobal
  refine get_bind (x := ?x) ?_ fun c hc => ?hc
  case hc => rw [hc.qualify]
  refine lookup (x := ?register) (·.symbols.globals.get? decl.name) ?_
    (fun c hc hnone => ?hnone) fun c existing hc hsome a c' hrun => ?hsome
  case hnone => rw [hnone]
  case hsome =>
    rw [hsome] at hrun
    obtain ⟨found, c₁, -, hrun⟩ := CompileM.bind_eq_ok.mp hrun
    cases hrun
  dsimp only
  refine unlessFound_read (.optionMapM fun node hnode => .foldRequired (hinit node hnode) depth _)
    fun value _ => ?_
  cases hdecl : decl.type with
  | some type =>
    exact unlessFound_read (.resolveType (htype type hdecl) depth location) fun type _ => hlater type value
  | none =>
    cases value with
    | some value => exact hlater value.type (some value)
    | none => exact of_ne_ok fun _ _ _ _ _ hrun => by cases (CompileM.unlessFound_eq_ok.mp hrun).2

theorem checkAlias {decl : AliasDecl} {location : Location}
    (hread : Reads o.Alike p (CompileM.aliasEntry location decl.target))
    (hfits : ∀ entry c, CompileM.aliasEntry location decl.target p c = .ok entry c →
      (Registration.alias decl.name entry).Fits o nodes owners) :
    Records o p nodes owners ids (CompileM.checkAlias decl location) := by
  unfold CompileM.checkAlias
  refine get_bind (x := ?x) ?_ fun c hc => ?hc
  case hc => rw [hc.qualify]
  refine lookup (x := ?register) (·.symbols.aliases.get? decl.name) ?_
    (fun c hc hnone => ?hnone) fun c existing hc hsome a c' hrun => ?hsome
  case hnone => rw [Table.contains, hnone, if_neg (by decide)]
  case hsome =>
    rw [Table.contains, hsome] at hrun
    cases hrun
  refine unlessFound_read hread fun entry h => ?_
  obtain ⟨c₀, hrun⟩ := h
  exact claims (.alias decl.name) (hfits entry c₀ hrun) (fun _ hfree => SymbolTables.write_alias hfree entry)
    fun _ htaken => Registration.claim_of_some htaken entry

/-! ### Declarations -/

/-- A declaration enters registrations of its own, whichever have been entered before. -/
theorem checkNode {id : NodeId} (h : o.Declares id) (hnodup : (o.tree.declaredNodes id).Nodup)
    (hname : ∀ name ∈ o.tree.aggregateName? id, name ∈ o.aggregates) :
    Records o (performWithin depth) (o.tree.declaredNodes id) (o.tree.aggregateName? id).toList
      (o.tree.declaredNodes id) (CompileM.checkNode id) := by
  have hid : ∀ node ∈ [id], node ∈ o.tree.declaredNodes id :=
    List.forall_mem_singleton.mpr List.mem_cons_self
  cases h with
  | @function decl hkind h =>
    have hnone : ∀ name ∈ (none : Option String), name ∈ (o.tree.aggregateName? id).toList := by
      rintro name ⟨⟩
    exact locate_kindOf hkind fun location =>
      ((checkFunction hkind h hnone List.mem_cons_self).map _).weaken hid
  | @aggregateTemplate decl hkind h =>
    exact locate_kindOf hkind fun location => ((checkAggregateTemplate hkind h).map _).weaken hid
  | @aggregate decl hkind h hbase hfields hmethods =>
    have hdeclared : o.tree.aggregateName? id = some decl.name := by
      rw [hkind.aggregateName?, NodeKind.aggregateName?, h, if_neg Bool.false_ne_true]
    rw [hkind.declaredNodes] at hnodup ⊢
    rw [hdeclared] at hname ⊢
    exact locate_kindOf hkind fun location =>
      (checkAggregate hkind h hbase hfields hmethods hnodup (hname _ rfl)).map _
  | @global decl hkind htype hinit =>
    exact locate_kindOf hkind fun location =>
      (beginCheck_bind (checkGlobal htype hinit id location) List.not_mem_nil).weaken hid
  | @typeAlias name target hkind h hname =>
    exact locate_kindOf hkind fun location => (beginCheck_bind (checkAlias (.aliasEntry_type h location)
      fun entry _ _ => .alias hname entry) List.not_mem_nil).weaken hid
  | @valueAlias name node hkind h =>
    refine locate_kindOf hkind fun location => (beginCheck_bind (checkAlias (.aliasEntry_value h location)
      fun entry c hrun => .shared rfl rfl fun name target heq => ?_) List.not_mem_nil).weaken hid
    cases heq
    obtain ⟨value, c₁, -, hrun⟩ := CompileM.bind_eq_ok.mp hrun
    cases hrun

end Records
end UnitCompiler
