import Mathlib
import UnitCompiler.Compile.Declarations
import UnitCompiler.Proofs.Relocation.Types

/-!
# Checking in two runs

Every declaration is registered alike.
-/

namespace UnitCompiler

/-! ### Declarations with known types -/

section Bounded

variable {base : Nat}

structure FunctionDecl.Bounded (base : Nat) (d : FunctionDecl) : Prop where
  ret : d.ret.Bounded base
  params : ∀ param ∈ d.params, param.type.Bounded base

structure AggregateDecl.Bounded (base : Nat) (d : AggregateDecl) : Prop where
  parent : ∀ type, d.base = some type → type.Bounded base
  fields : ∀ field ∈ d.fields, field.type.Bounded base

def AliasTarget.Bounded (base : Nat) : AliasTarget → Prop
  | .type written => written.Bounded base
  | .value _ => True

theorem NodeKind.Bounded.function {decl : FunctionDecl} (h : (NodeKind.function decl).Bounded base) :
    decl.Bounded base :=
  ⟨h _ List.mem_cons_self, fun param hparam =>
    h _ (List.mem_cons_of_mem _ (List.mem_map.mpr ⟨param, hparam, rfl⟩))⟩

theorem NodeKind.Bounded.aggregate {decl : AggregateDecl}
    (h : (NodeKind.aggregate decl).Bounded base) : decl.Bounded base :=
  ⟨fun type htype => h type (List.mem_append_left _ (by simp [htype])), fun field hfield =>
    h _ (List.mem_append_right _ (List.mem_map.mpr ⟨field, hfield, rfl⟩))⟩

theorem NodeKind.Bounded.variable {decl : VariableDecl} (h : (NodeKind.variable decl).Bounded base)
    {type : SourceType} (htype : decl.type = some type) : type.Bounded base :=
  h type (by simp [NodeKind.types, htype])

theorem NodeKind.Bounded.aliasTarget {decl : AliasDecl} (h : (NodeKind.alias decl).Bounded base) :
    decl.target.Bounded base := by
  obtain ⟨name, target⟩ := decl
  cases target with
  | type written => exact h written List.mem_cons_self
  | value id => trivial

theorem SymbolTables.Bounded.addFields {s : SymbolTables} (h : s.Bounded base) (owner : String)
    (fields : List FieldSymbol) : (fields.foldl (·.addField owner) s).Bounded base := by
  induction fields generalizing s with
  | nil => exact h
  | cons field rest ih =>
    have hfield : (s.addField owner field).Bounded base := ⟨h.functions, h.aggregates, h.aliases⟩
    exact ih hfield

theorem SymbolTables.Bounded.addAggregate {s : SymbolTables} (h : s.Bounded base)
    {a : AggregateSymbol} (ha : a.subst.Bounded base) : (s.addAggregate a).Bounded base := by
  have hfields := h.addFields a.name a.fields
  exact ⟨hfields.functions, hfields.aggregates.insert _ ha, hfields.aliases⟩

theorem numberFields_relocate (σ : Relocation) (fields : List FieldSymbol) :
    numberFields (fields.map σ.fieldSymbol) = (numberFields fields).map σ.fieldSymbol := by
  refine List.ext_getElem? fun index => ?_
  simp only [numberFields, List.getElem?_mapIdx, List.getElem?_map, Option.map_map]
  rfl

end Bounded

namespace Rerun

variable {ρ : Rerun}

theorem collect (id : NodeId) (space : List String) :
    ρ.Mirrors Eq (CompileM.collect id space) (CompileM.collect (ρ.node id) space) := by
  refine (kindOf id).bindMoved fun kind _ => ?_
  cases kind with
  | aggregate decl =>
    refine .get_bind fun c u _ => ?_
    rw [Context.symbols_relocate, SymbolTables.contains_declaredAggregates_relocate]
    refine .ite (fun _ => .pure rfl) fun _ => ?_
    refine modifySymbols fun s hs => ⟨?_, hs.functions, hs.aggregates, hs.aliases⟩
    simp only [Relocation.symbols, Table.mapValues_insert]
    rfl
  | space name items => exact .forM items fun item _ => Mirrors.collect item _
  | _ => exact .pure rfl

/-! ### Functions -/

theorem registerTemplate (id : NodeId) (decl : FunctionDecl) (owner : Option String)
    (location : Location) :
    ρ.Mirrors Eq (CompileM.registerTemplate id decl owner location)
      (CompileM.registerTemplate (ρ.node id) (ρ.functionDecl decl) owner location) := by
  cases owner with
  | some owner => exact .bail _ _
  | none =>
    refine .get_bind fun c u _ => ?_
    simp only [Context.symbols_relocate, Context.qualify_relocate, Relocation.functionDecl,
      SymbolTables.get?_templates_relocate]
    cases c.symbols.templates.get? _ with
    | some existing => exact (locate existing.decl).bind fun _ => .bail _ _
    | none =>
      refine modifySymbols fun s hs => ⟨?_, hs.functions, hs.aggregates, hs.aliases⟩
      simp only [Relocation.symbols, Table.mapValues_insert]
      rfl

theorem resolveParams {decl : FunctionDecl} (h : decl.Bounded ρ.base) (location : Location) :
    ρ.Mirrors Eq (CompileM.resolveParams decl location)
      (CompileM.resolveParams (ρ.functionDecl decl) location) := by
  refine .mapM_self decl.params fun param hparam => ?_
  refine (resolveType (h.params param hparam) location).bindSame fun type _ => ?_
  exact .ite (fun _ => .bail _ _) fun _ => .pure rfl

theorem enterOperator (tag : OperatorTag) (owner : String) (f : FunctionSymbol)
    (location : Location) :
    ρ.Mirrors Eq (CompileM.enterOperator tag owner f location)
      (CompileM.enterOperator tag owner (ρ.functionSymbol f) location) := by
  refine .get_bind fun c u hm => ?_
  rw [Context.symbols_relocate, SymbolTables.get?_aggregates_relocate]
  cases haggregate : c.symbols.aggregates.get? owner with
  | none => exact .bail _ _
  | some aggregate =>
    refine .ite (fun _ => .bail _ _) fun _ => ?_
    refine modifySymbols fun s hs => ⟨?_, hs.functions, hs.aggregates.insert _ ?_, hs.aliases⟩
    · simp only [Relocation.symbols, Table.mapValues_insert]
      rfl
    · exact hm.bounded.symbols.aggregates owner aggregate haggregate

theorem declaredSymbol_functionDecl (id : NodeId) (decl : FunctionDecl) (owner : Option String)
    (isInstance : Bool) (location : Location) :
    CompileM.functionSymbol id (ρ.functionDecl decl) owner isInstance location =
      CompileM.functionSymbol id decl owner isInstance location := by
  obtain ⟨name, declared, ret, body, modifiers, templateParams, operator⟩ := decl
  cases body <;> rfl

theorem declaredSymbol (id : NodeId) {decl : FunctionDecl} (h : decl.Bounded ρ.base)
    (owner : Option String) (isInstance : Bool) (location : Location) :
    ρ.Mirrors (fun f f' => f' = ρ.functionSymbol f ∧ f.subst.Bounded ρ.base)
      (CompileM.functionSymbol id decl owner isInstance location)
      (CompileM.functionSymbol (ρ.node id) (ρ.functionDecl decl) owner isInstance location) := by
  rw [declaredSymbol_functionDecl]
  unfold CompileM.functionSymbol
  generalize (if decl.isConstructor = true then owner else none) = constructorOf
  refine Mirrors.bind (resolveParams h location) fun params => ?_
  cases constructorOf with
  | some constructed =>
    refine (Mirrors.pure rfl).bind fun ret => .get_bind fun c u hm => ?_
    refine .ite (fun _ => ?_) fun _ => .pure ⟨rfl, hm.bounded.subst⟩
    cases owner with
    | none => exact .bail _ _
    | some owner => exact .ite (fun _ => .bail _ _) fun _ => .pure ⟨rfl, hm.bounded.subst⟩
  | none =>
    refine (resolveType h.ret location).bindSame fun ret _ => .get_bind fun c u hm => ?_
    refine .ite (fun _ => ?_) fun _ => .pure ⟨rfl, hm.bounded.subst⟩
    cases owner with
    | none => exact .bail _ _
    | some owner => exact .ite (fun _ => .bail _ _) fun _ => .pure ⟨rfl, hm.bounded.subst⟩

theorem register (decl : FunctionDecl) (owner : Option String) {f : FunctionSymbol}
    (hf : f.subst.Bounded ρ.base) (location : Location) :
    ρ.Mirrors Eq (CompileM.register decl owner f location)
      (CompileM.register (ρ.functionDecl decl) owner (ρ.functionSymbol f) location) := by
  have hadd : ρ.Mirrors Eq (CompileM.modifySymbols (·.addFunction f))
      (CompileM.modifySymbols (·.addFunction (ρ.functionSymbol f))) :=
    modifySymbols fun s hs => ⟨(SymbolTables.addFunction_relocate f).symm,
      hs.functions.insert _ hf, hs.aggregates, hs.aliases⟩
  have hmethod : ∀ owner, ρ.Stable (CompileM.modifySymbols (·.addMethod owner decl.name f.key)) :=
    fun owner => modifySymbols fun s hs => ⟨rfl, hs.functions, hs.aggregates, hs.aliases⟩
  obtain ⟨name, declared, ret, body, modifiers, templateParams, operator⟩ := decl
  obtain ⟨id, fname, key, linkName, params, paramNames, fret, isVariadic, convention, fowner, rest⟩ := f
  cases owner with
  | none =>
    cases fowner with
    | none => exact hadd
    | some fowner => exact (hmethod fowner).bind fun _ => hadd
  | some owner =>
    cases operator with
    | some tag => exact (enterOperator tag owner _ location).bind fun _ => hadd
    | none =>
      cases fowner with
      | none => exact hadd
      | some fowner => exact (hmethod fowner).bind fun _ => hadd

theorem checkFunction (id : NodeId) (owner : Option String) (isInstance : Bool) :
    ρ.Mirrors Eq (CompileM.checkFunction id owner isInstance)
      (CompileM.checkFunction (ρ.node id) owner isInstance) := by
  refine (locate id).bind fun location => (kindOf id).bindMoved fun kind hbounded => ?_
  cases kind with
  | function decl =>
    refine (beginCheck id).bind fun isNew => .ite (fun _ => ?_) fun _ => .ite (fun _ => ?_) fun _ => ?_
    · refine .get_bind fun c u _ => ?_
      rw [Context.symbols_relocate, SymbolTables.get?_declaredKeys_relocate]
      exact .pure rfl
    · exact (registerTemplate id decl owner location).bind fun _ => .pure rfl
    rcases owner with _ | owner
    on_goal 2 => refine .ite (fun _ => .bail _ _) fun _ => .ite (fun _ => .bail _ _) fun _ => ?_
    all_goals
      refine (declaredSymbol id hbounded.function _ isInstance location).bindMoved
        fun f hf => .get_bind fun c u _ => ?_
      have hkey : (ρ.functionSymbol f).key = f.key := rfl
      rw [Context.symbols_relocate, SymbolTables.get?_functions_relocate, hkey]
      cases c.symbols.functions.get? f.key with
      | none => exact (register decl _ hf location).bind fun _ => .pure rfl
      | some existing =>
        refine .ite (fun _ => (locate existing.decl).bind fun _ => .bail _ _) fun _ => ?_
        refine .bind (modifySymbols fun s hs => ⟨?_, hs.functions, hs.aggregates, hs.aliases⟩)
          fun _ => .pure rfl
        simp only [Relocation.symbols, Table.mapKeys_insert Relocation.node_injective]
  | _ => exact .bail _ _

/-! ### Aggregates -/

theorem resolveBase (name : String) {decl : AggregateDecl} (h : decl.Bounded ρ.base)
    (location : Location) :
    ρ.Mirrors Eq (CompileM.resolveBase name decl location)
      (CompileM.resolveBase name (ρ.aggregateDecl decl) location) := by
  obtain ⟨aname, templateParams, parent, fields, methods⟩ := decl
  cases parent with
  | none => exact .pure rfl
  | some parent =>
    refine (resolveType (h.parent parent rfl) location).bindSame fun type _ => ?_
    cases type.aggregateName? with
    | none => exact .bail _ _
    | some base =>
      exact .ite (fun _ => .bail _ _) fun _ => (ensureChecked base location).bind fun _ => .pure rfl

theorem resolveFields (owner : String) (location : Location) (fields : List FieldDecl)
    (seen : List String) (h : ∀ field ∈ fields, field.type.Bounded ρ.base) :
    ρ.Mirrors (fun l l' => l' = l.map ρ.fieldSymbol)
      (CompileM.resolveFields owner location fields seen)
      (CompileM.resolveFields owner location (fields.map ρ.fieldDecl) seen) := by
  induction fields generalizing seen with
  | nil => exact .pure rfl
  | cons field rest ih =>
    refine .ite (fun _ => .bail _ _) fun _ => ?_
    refine (resolveType (h field List.mem_cons_self) location).bindSame fun type _ => ?_
    refine .ite (fun _ => .bail _ _) fun _ => .ite (fun _ => .bail _ _) fun _ => ?_
    refine (ih _ fun f hf => h f (List.mem_cons_of_mem _ hf)).bindRel fun rest' _ hrest => ?_
    exact .pure (congrArg _ hrest)

theorem collectFields (name : String) {decl : AggregateDecl} (h : decl.Bounded ρ.base)
    (base : Option String) (location : Location) :
    ρ.Mirrors (fun l l' => l' = l.map ρ.fieldSymbol)
      (CompileM.collectFields name decl base location)
      (CompileM.collectFields name (ρ.aggregateDecl decl) base location) := by
  refine .get_bind fun c u _ => (resolveFields name location _ [] h.fields).bindRel fun own _ hown => ?_
  subst hown
  refine .pure ?_
  have hinherited : ((base.bind (ρ.context c u).symbols.aggregates.get?).map (·.fields)).getD [] =
      (((base.bind c.symbols.aggregates.get?).map (·.fields)).getD []).map ρ.fieldSymbol := by
    cases base with
    | none => rfl
    | some base =>
      simp only [Option.bind_some, Context.symbols_relocate, SymbolTables.get?_aggregates_relocate]
      cases c.symbols.aggregates.get? base <;> rfl
  have hown : ∀ name, (ρ.aggregateDecl decl).fields.any (·.name == name) =
      decl.fields.any (·.name == name) := by
    intro name
    simp only [Relocation.aggregateDecl, List.any_map]
    rfl
  simp only [hinherited, hown, List.filter_map, ← List.map_append, numberFields_relocate]
  rfl

theorem functionDecl? (id : NodeId) :
    ρ.Mirrors (fun o o' => o' = o.map ρ.functionDecl) (CompileM.functionDecl? id)
      (CompileM.functionDecl? (ρ.node id)) := by
  refine (kindOf id).bindMoved fun kind _ => ?_
  cases kind <;> exact .pure rfl

theorem inheritMethod (name : String) {base : AggregateSymbol} (hbase : base.subst.Bounded ρ.base)
    (method : NodeId) :
    ρ.Mirrors Eq (CompileM.inheritMethod name base method)
      (CompileM.inheritMethod name (ρ.aggregateSymbol base) (ρ.node method)) := by
  refine (copySubtree method).bindMoved fun copy _ => ?_
  exact within hbase _ (checkFunction copy (some name) true)

theorem inheritMethods (name base : String) (decl : AggregateDecl) :
    ρ.Mirrors Eq (CompileM.inheritMethods name base decl)
      (CompileM.inheritMethods name base (ρ.aggregateDecl decl)) := by
  have hown : ρ.Mirrors Eq
      (decl.methods.filterMapM fun id => return (← CompileM.functionDecl? id).map (·.name))
      ((decl.methods.map ρ.node).filterMapM fun id =>
        return (← CompileM.functionDecl? id).map (·.name)) := by
    refine .filterMapM_eq decl.methods fun id _ => (functionDecl? id).bindRel fun o _ ho => ?_
    subst ho
    cases o <;> exact .pure rfl
  refine hown.bind fun own => .get_bind fun c u hm => ?_
  rw [Context.symbols_relocate, SymbolTables.get?_aggregates_relocate]
  cases hsymbol : c.symbols.aggregates.get? base with
  | none => exact .pure rfl
  | some symbol =>
    have hsubst := hm.bounded.symbols.aggregates base symbol hsymbol
    refine .get_bind fun c u _ => ?_
    have hfunctions : (ρ.aggregateSymbol symbol).methods.filterMap
        (ρ.context c u).symbols.functions.get? =
        (symbol.methods.filterMap c.symbols.functions.get?).map ρ.functionSymbol := by
      rw [List.map_filterMap]
      exact List.filterMap_congr fun key _ => SymbolTables.get?_functions_relocate key
    have hmethods : ρ.Mirrors (fun l l' => l' = l.map ρ.node)
        ((symbol.methods.filterMap c.symbols.functions.get?).filterMapM fun f => do
          return if (← CompileM.functionDecl? f.decl).any fun d =>
            d.isInheritable && !own.contains d.name then some f.decl else none)
        (((symbol.methods.filterMap c.symbols.functions.get?).map ρ.functionSymbol).filterMapM
          fun f => do
            return if (← CompileM.functionDecl? f.decl).any fun d =>
              d.isInheritable && !own.contains d.name then some f.decl else none) := by
      refine .filterMapM _ fun f _ => (functionDecl? f.decl).bindRel fun o _ ho => .pure ?_
      subst ho
      cases o with
      | none => rfl
      | some d =>
        simp only [Option.map_some, Option.any_some]
        change (if (d.isInheritable && !own.contains d.name) = true then _ else _) = _
        split_ifs <;> rfl
    simp only [hfunctions]
    refine hmethods.bindRel fun methods _ hsame => ?_
    subst hsame
    exact .filterMapM_eq methods fun method _ => inheritMethod name hsubst method

theorem registerAggregateTemplate (id : NodeId) (decl : AggregateDecl) (location : Location) :
    ρ.Mirrors Eq (CompileM.registerAggregateTemplate id decl location)
      (CompileM.registerAggregateTemplate (ρ.node id) (ρ.aggregateDecl decl) location) := by
  refine .get_bind fun c u _ => ?_
  simp only [Context.symbols_relocate, Context.qualify_relocate, Relocation.aggregateDecl,
    SymbolTables.get?_aggregateTemplates_relocate]
  cases c.symbols.aggregateTemplates.get? _ with
  | some existing => exact (locate existing.decl).bind fun _ => .bail _ _
  | none =>
    refine modifySymbols fun s hs => ⟨?_, hs.functions, hs.aggregates, hs.aliases⟩
    simp only [Relocation.symbols, Table.mapValues_insert]
    rfl

theorem addAggregate {a : AggregateSymbol} (ha : a.subst.Bounded ρ.base) :
    ρ.Mirrors Eq (CompileM.modifySymbols (·.addAggregate a))
      (CompileM.modifySymbols (·.addAggregate (ρ.aggregateSymbol a))) :=
  modifySymbols fun _ hs => ⟨(SymbolTables.addAggregate_relocate a).symm, hs.addAggregate ha⟩

theorem registerAggregate (id : NodeId) (name : String) {decl : AggregateDecl}
    (h : decl.Bounded ρ.base) (isInstance : Bool) (location : Location) :
    ρ.Mirrors Eq (CompileM.registerAggregate id name decl isInstance location)
      (CompileM.registerAggregate (ρ.node id) name (ρ.aggregateDecl decl) isInstance location) := by
  refine .get_bind fun c u _ => ?_
  rw [Context.symbols_relocate, SymbolTables.get?_aggregates_relocate]
  cases c.symbols.aggregates.get? name with
  | some existing => exact (locate existing.decl).bind fun _ => .bail _ _
  | none =>
    refine (resolveBase name h location).bind fun base => ?_
    refine (collectFields name h base location).bindRel fun fields _ hfields => ?_
    subst hfields
    refine .get_bind fun c u hm => ?_
    refine .bind (addAggregate hm.bounded.subst) fun _ => ?_
    refine .bind (.filterMapM_eq decl.methods fun method _ => checkFunction method _ _) fun own => ?_
    rcases base with _ | base
    on_goal 1 => refine .bind (Mirrors.pure (a := ([] : List String)) rfl) fun inherited => ?_
    on_goal 2 => refine (inheritMethods name base decl).bind fun inherited => ?_
    all_goals
      refine .get_bind fun c u hm => ?_
      rw [Context.symbols_relocate, SymbolTables.get?_aggregates_relocate]
      cases hsymbol : c.symbols.aggregates.get? name with
      | none => exact .pure rfl
      | some symbol =>
        refine modifySymbols fun s hs => ⟨?_, hs.functions, hs.aggregates.insert _ ?_, hs.aliases⟩
        · simp only [Relocation.symbols, Table.mapValues_insert]
          rfl
        · exact hm.bounded.symbols.aggregates name symbol hsymbol

theorem checkAggregate (id : NodeId) (instanceName : Option String) :
    ρ.Mirrors Eq (CompileM.checkAggregate id instanceName)
      (CompileM.checkAggregate (ρ.node id) instanceName) := by
  refine (locate id).bind fun location => (kindOf id).bindMoved fun kind hbounded => ?_
  cases kind with
  | aggregate decl =>
    refine (beginCheck id).bind fun isNew => .ite (fun _ => ?_) fun _ => .ite (fun _ => ?_) fun _ => ?_
    · refine .get_bind fun c u _ => ?_
      rw [Context.symbols_relocate, SymbolTables.get?_declaredNames_relocate]
      exact .pure rfl
    · exact (registerAggregateTemplate id decl location).bind fun _ => .pure rfl
    · exact .get_bind fun c u _ =>
        (registerAggregate id _ hbounded.aggregate _ location).bind fun _ => .pure rfl
  | _ => exact .bail _ _

/-! ### Other declarations -/

theorem checkGlobal (id : NodeId) {decl : VariableDecl}
    (h : ∀ type, decl.type = some type → type.Bounded ρ.base) (location : Location) :
    ρ.Mirrors Eq (CompileM.checkGlobal id decl location)
      (CompileM.checkGlobal (ρ.node id) (ρ.variableDecl decl) location) := by
  obtain ⟨name, declared, init, isConst⟩ := decl
  refine .get_bind fun c u _ => .get_bind fun c' u' _ => ?_
  rw [Context.qualify_relocate, Context.symbols_relocate, SymbolTables.get?_globals_relocate]
  dsimp only [Relocation.variableDecl]
  cases c'.symbols.globals.get? (c.qualify name) with
  | some existing => exact (locate existing.decl).bind fun _ => .bail _ _
  | none =>
    have hrecord : ∀ (type : SourceType) (value : Option ConstValue), ρ.Mirrors Eq
        (CompileM.modifySymbols fun s => { s with
          globals := s.globals.insert (c.qualify name)
            ⟨id, c.qualify name, LinkName.global (c.qualify name), type, isConst, value⟩ })
        (CompileM.modifySymbols fun s => { s with
          globals := s.globals.insert (c.qualify name)
            ⟨ρ.node id, c.qualify name, LinkName.global (c.qualify name), type, isConst, value⟩ }) := by
      refine fun type value => modifySymbols fun s hs =>
        ⟨?_, hs.functions, hs.aggregates, hs.aliases⟩
      simp only [Relocation.symbols, Table.mapValues_insert]
      rfl
    refine (Mirrors.optionMapM init fun id => foldRequired id "a global initializer").bind
      fun value => ?_
    cases declared with
    | some declared =>
      refine (resolveType (h declared rfl) location).bindSame fun type _ => ?_
      exact .ite (fun _ => .bail _ _) fun _ => .ite (fun _ => .bail _ _) fun _ => hrecord type value
    | none =>
      cases value with
      | none => exact .bail _ _
      | some value =>
        refine .bind (Mirrors.pure (a := value.type) rfl) fun type => ?_
        exact .ite (fun _ => .bail _ _) fun _ => .ite (fun _ => .bail _ _) fun _ => hrecord type value

theorem aliasEntry (location : Location) {target : AliasTarget} (h : target.Bounded ρ.base) :
    ρ.Mirrors (Same (AliasEntry.Bounded ρ.base)) (CompileM.aliasEntry location target)
      (CompileM.aliasEntry location (ρ.aliasTarget target)) := by
  cases target with
  | type written =>
    exact (resolveType h location).bindSame
      fun _ htype => .pure ⟨rfl, htype⟩
  | value id => exact (foldRequired id "an alias").bind fun _ => .pure ⟨rfl, trivial⟩

theorem checkAlias {decl : AliasDecl} (h : decl.target.Bounded ρ.base) (location : Location) :
    ρ.Mirrors Eq (CompileM.checkAlias decl location)
      (CompileM.checkAlias (ρ.aliasDecl decl) location) := by
  refine .get_bind fun c u _ => .get_bind fun c' u' _ => .ite (fun _ => .bail _ _) fun _ => ?_
  refine (aliasEntry location h).bindSame fun entry hentry => ?_
  exact modifySymbols fun s hs => ⟨rfl, hs.functions, hs.aggregates, hs.aliases.insert _ hentry⟩

theorem checkSpace (name : String) (items : List NodeId) (location : Location) :
    ρ.Mirrors Eq (CompileM.checkSpace name items location)
      (CompileM.checkSpace name (items.map ρ.node) location) :=
  .get_bind fun _ _ _ => .ite (fun _ => .bail _ _) fun _ =>
    inSpace name (.forM items fun item _ => Mirrors.checkNode item)

theorem checkNode (id : NodeId) :
    ρ.Mirrors Eq (CompileM.checkNode id) (CompileM.checkNode (ρ.node id)) := by
  refine (locate id).bind fun location => (kindOf id).bindMoved fun kind hbounded => ?_
  cases kind with
  | function decl => exact (checkFunction id none false).map
  | aggregate decl => exact (checkAggregate id none).map
  | «variable» decl =>
    exact (beginCheck id).bind fun _ => .ite
      (fun _ => checkGlobal id (fun _ => hbounded.variable) location) fun _ => .pure rfl
  | «alias» decl =>
    exact (beginCheck id).bind fun _ => .ite (fun _ => checkAlias hbounded.aliasTarget location)
      fun _ => .pure rfl
  | space name items =>
    exact (beginCheck id).bind fun _ => .ite (fun _ => checkSpace name items location)
      fun _ => .pure rfl
  | staticIf cond yes no =>
    refine (beginCheck id).bind fun _ => .ite (fun _ => ?_) fun _ => .pure rfl
    refine (staticBranch cond yes no).bindRel fun branch _ hbranch => ?_
    subst hbranch
    cases branch with
    | none => exact .pure rfl
    | some branch => exact Mirrors.checkNode branch
  | block items => exact .forM items fun item _ => Mirrors.checkNode item
  | builtin name args =>
    exact (beginCheck id).bind fun _ => .ite
      (fun _ => (evalBuiltin id name hbounded.builtinArgs).map) fun _ => .pure rfl
  | _ => exact .bail _ _

end Rerun
end UnitCompiler
