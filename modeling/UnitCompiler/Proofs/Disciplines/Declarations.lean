import UnitCompiler.Proofs.Disciplines.Emission

/-!
# Registering declarations

Registering the declarations of a unit keeps every discipline that allows changes of the tables.
-/

namespace UnitCompiler

/-- Tables that differ neither in functions nor in their instances, and know every aggregate still. -/
structure SymbolTables.Besides (s s' : SymbolTables) : Prop where
  functions : s'.functions = s.functions
  instances : s'.instances = s.instances
  knows : ∀ {name}, s.knowsAggregate name = true → s'.knowsAggregate name = true

namespace SymbolTables.Besides

variable {s s' s'' : SymbolTables}

theorem of_eq (hfunctions : s'.functions = s.functions) (hinstances : s'.instances = s.instances)
    (haggregates : s'.aggregates = s.aggregates)
    (hdeclared : s'.declaredAggregates = s.declaredAggregates) : s.Besides s' where
  functions := hfunctions
  instances := hinstances
  knows h := by rwa [knowsAggregate, haggregates, hdeclared]

theorem trans (h : s.Besides s') (h' : s'.Besides s'') : s.Besides s'' :=
  ⟨h'.functions.trans h.functions, h'.instances.trans h.instances, fun hname => h'.knows (h.knows hname)⟩

theorem insertAggregate (s : SymbolTables) (name : String) (a : AggregateSymbol) :
    s.Besides { s with aggregates := s.aggregates.insert name a } where
  functions := rfl
  instances := rfl
  knows {name'} h := by
    simp only [knowsAggregate, Table.contains, Table.get?_insert, Bool.or_eq_true] at h ⊢
    split_ifs
    · exact Or.inl rfl
    · exact h

theorem insertDeclared (s : SymbolTables) (name : String) (site : DeclarationSite) :
    s.Besides { s with declaredAggregates := s.declaredAggregates.insert name site } where
  functions := rfl
  instances := rfl
  knows {name'} h := by
    simp only [knowsAggregate, Table.contains, Table.get?_insert, Bool.or_eq_true] at h ⊢
    split_ifs
    · exact Or.inr rfl
    · exact h

theorem addAggregate (s : SymbolTables) (a : AggregateSymbol) : s.Besides (s.addAggregate a) := by
  rw [addAggregate_eq]
  exact (of_eq rfl rfl rfl rfl).trans ((insertAggregate _ a.name a).trans (of_eq rfl rfl rfl rfl))

end SymbolTables.Besides

/-- A property that marking declarations and entering templates has as well. -/
class Discipline.Marks (D : Discipline) : Prop extends D.Resolves where
  markChecked : ∀ {id : NodeId} {c : Context}, c.stateOf id = .unchecked →
    D.At (CompileM.setState id .checked) c
  enterTemplate : ∀ (name : String) (site : DeclarationSite) (c : Context),
    D.At (CompileM.modifySymbols fun s => { s with templates := s.templates.insert name site }) c
  enterAggregateTemplate : ∀ (name : String) (site : DeclarationSite) (c : Context),
    D.At (CompileM.modifySymbols fun s =>
      { s with aggregateTemplates := s.aggregateTemplates.insert name site }) c

/-- A property that entering globals and aliases has as well, and registering the parts of a unit. -/
class Discipline.Binds (D : Discipline) : Prop extends D.Marks where
  enterGlobal : ∀ (name : String) (symbol : GlobalSymbol) (c : Context),
    D.At (CompileM.modifySymbols fun s => { s with globals := s.globals.insert name symbol }) c
  enterAlias : ∀ (name : String) (entry : AliasEntry) (c : Context),
    D.At (CompileM.modifySymbols fun s => { s with aliases := s.aliases.insert name entry }) c
  checkNode : ∀ (id : NodeId) (c : Context), D.At (CompileM.perform (.checkNode id)) c

/-- A property that entering functions into the tables has as well. -/
class Discipline.Enters (D : Discipline) : Prop extends D.Marks where
  copySubtree : ∀ (id : NodeId) (c : Context), D.At (CompileM.copySubtree id) c
  declareKey : ∀ (id : NodeId) (key : String) (c : Context), D.At (CompileM.modifySymbols fun s =>
    { s with declaredKeys := s.declaredKeys.insert id key }) c
  register : ∀ (decl : FunctionDecl) (owner : Option String) {f : FunctionSymbol} (location : Location)
    {c : Context}, c.symbols.functions.get? f.key = none →
    D.At (CompileM.register decl owner f location) c

/-- A property that registering aggregates and the other declarations of a unit has as well. -/
class Discipline.Registers (D : Discipline) : Prop extends D.Enters where
  modifySymbols : ∀ {g : SymbolTables → SymbolTables}, (∀ s : SymbolTables, s.Besides (g s)) →
    ∀ c, D.At (CompileM.modifySymbols g) c
  checkNode : ∀ (id : NodeId) (c : Context), D.At (CompileM.perform (.checkNode id)) c

instance (D : Discipline) [D.Registers] : D.Binds where
  enterGlobal _ _ := Discipline.Registers.modifySymbols fun _ => .of_eq rfl rfl rfl rfl
  enterAlias _ _ := Discipline.Registers.modifySymbols fun _ => .of_eq rfl rfl rfl rfl
  checkNode := Discipline.Registers.checkNode

namespace Discipline.Holds

variable {D : Discipline}

/-! ### Symbols -/

theorem functionDecl? (id : NodeId) : D.Holds (CompileM.functionDecl? id) := by
  refine (kindOf id).bind fun kind => ?_
  cases kind <;> exact pure _

/-- The methods of a base are inherited one by one. -/
theorem inheritMethods_of_inheritMethod {name : String}
    (hinherit : ∀ base method, D.Holds (CompileM.inheritMethod name base method))
    (base : String) (decl : AggregateDecl) : D.Holds (CompileM.inheritMethods name base decl) := by
  refine bind (filterMapM fun id => (functionDecl? id).bind fun _ => pure _) fun own => get_bind fun c => ?_
  cases c.symbols.aggregates.get? base with
  | none => exact pure _
  | some symbol =>
    refine get_bind fun _ => bind (filterMapM fun f => ?_) fun _ => filterMapM (hinherit symbol)
    exact (functionDecl? _).bind fun _ => pure _

section Symbols

variable [D.Resolves]

theorem resolveParams (decl : FunctionDecl) (location : Location) :
    D.Holds (CompileM.resolveParams decl location) :=
  mapM fun _ => (resolveType _ _).bind fun _ => ite (bail _ _) (pure _)

theorem functionSymbol (id : NodeId) (decl : FunctionDecl) (owner : Option String)
    (isInstance : Bool) (location : Location) :
    D.Holds (CompileM.functionSymbol id decl owner isInstance location) := by
  unfold CompileM.functionSymbol
  generalize (if decl.isConstructor = true then owner else none) = constructorOf
  refine (resolveParams decl location).bind fun params => ?_
  cases constructorOf with
  | some constructed =>
    refine (pure _).bind fun ret => get_bind fun c => ite ?_ (pure _)
    cases owner with
    | none => exact bail _ _
    | some owner => exact ite (bail _ _) (pure _)
  | none =>
    refine (resolveType decl.ret location).bind fun ret => get_bind fun c => ite ?_ (pure _)
    cases owner with
    | none => exact bail _ _
    | some owner => exact ite (bail _ _) (pure _)

theorem resolveBase (name : String) (decl : AggregateDecl) (location : Location) :
    D.Holds (CompileM.resolveBase name decl location) := by
  unfold CompileM.resolveBase
  cases decl.base with
  | none => exact pure _
  | some parent =>
    refine (resolveType parent location).bind fun type => ?_
    cases type.aggregateName? with
    | none => exact bail _ _
    | some base => exact ite (bail _ _) ((ensureChecked base location).bind fun _ => pure _)

theorem resolveFields (owner : String) (location : Location) (fields : List FieldDecl)
    (seen : List String) : D.Holds (CompileM.resolveFields owner location fields seen) := by
  induction fields generalizing seen with
  | nil => exact pure _
  | cons field rest ih =>
    exact ite (bail _ _) ((resolveType _ _).bind fun _ => ite (bail _ _) (ite (bail _ _)
      ((ih _).bind fun _ => pure _)))

theorem collectFields (name : String) (decl : AggregateDecl) (base : Option String)
    (location : Location) : D.Holds (CompileM.collectFields name decl base location) :=
  get_bind fun _ => (resolveFields _ _ _ _).bind fun _ => pure _

theorem collect (id : NodeId) (space : List String) : D.Holds (CompileM.collect id space) := by
  refine fun c => at_kindOf fun kind hkind => ?_
  cases kind with
  | aggregate decl =>
    refine D.get_bind ?_
    split_ifs with hskip
    · exact pure _ c
    · exact D.declareAggregate ⟨decl, hkind, by simp_all, rfl⟩
  | space name items => exact forM (fun item => resolve (.collect item _) rfl) c
  | _ => exact pure _ c

end Symbols

/-! ### Entering functions and templates -/

theorem enterOperator_of_modifySymbols {tag : OperatorTag} {owner : String} {f : FunctionSymbol}
    {location : Location} (hinsert : ∀ a, D.Holds (CompileM.modifySymbols fun s =>
      { s with aggregates := s.aggregates.insert owner a })) :
    D.Holds (CompileM.enterOperator tag owner f location) := by
  refine get_bind fun c => ?_
  cases c.symbols.aggregates.get? owner with
  | none => exact bail _ _
  | some aggregate => exact ite (bail _ _) (hinsert _)

/-- A function is registered by entering it, after it was made an operator or a method of its owner. -/
theorem register_of_addFunction {decl : FunctionDecl} {owner : Option String} {f : FunctionSymbol}
    {location : Location}
    (hoperator : ∀ tag owner, D.Holds (CompileM.enterOperator tag owner f location))
    (hmethod : ∀ owner name, D.Holds (CompileM.modifySymbols (·.addMethod owner name f.key)))
    (hadd : D.Holds (CompileM.modifySymbols (·.addFunction f))) :
    D.Holds (CompileM.register decl owner f location) := by
  unfold CompileM.register
  cases owner with
  | none =>
    cases f.owner with
    | none => exact hadd
    | some owner => exact (hmethod owner decl.name).bind fun _ => hadd
  | some owner =>
    cases decl.operator with
    | some tag => exact (hoperator tag owner).bind fun _ => hadd
    | none =>
      cases f.owner with
      | none => exact hadd
      | some owner => exact (hmethod owner decl.name).bind fun _ => hadd

section Marking

variable [D.Marks]

theorem beginCheck (id : NodeId) : D.Holds (CompileM.beginCheck id) := by
  refine fun c => D.get_bind ?_
  split_ifs with hid
  · exact pure _ c
  · exact D.bind (Marks.markChecked (not_not.mp hid)) fun _ => pure _

theorem registerTemplate (id : NodeId) (decl : FunctionDecl) (owner : Option String)
    (location : Location) : D.Holds (CompileM.registerTemplate id decl owner location) := by
  cases owner with
  | some owner => exact bail _ _
  | none =>
    refine get_bind fun c => ?_
    dsimp only
    split
    · exact (locate _).bind fun _ => bail _ _
    · exact Marks.enterTemplate _ _

theorem registerAggregateTemplate (id : NodeId) (decl : AggregateDecl) (location : Location) :
    D.Holds (CompileM.registerAggregateTemplate id decl location) := by
  refine get_bind fun c => ?_
  dsimp only
  split
  · exact (locate _).bind fun _ => bail _ _
  · exact Marks.enterAggregateTemplate _ _

/-- An aggregate is checked as it is registered. -/
theorem checkAggregate_of_registers (hregister : ∀ id name decl isInstance location,
      D.Holds (CompileM.registerAggregate id name decl isInstance location))
    (id : NodeId) (instanceName : Option String) : D.Holds (CompileM.checkAggregate id instanceName) := by
  refine (locate id).bind fun location => (kindOf id).bind fun kind => ?_
  cases kind with
  | aggregate decl =>
    refine (beginCheck id).bind fun isNew => ite (get_bind fun _ => pure _) (ite ?_ ?_)
    · exact (registerAggregateTemplate _ _ _).bind fun _ => pure _
    · exact get_bind fun _ => (hregister _ _ _ _ _).bind fun _ => pure _
  | _ => exact bail _ _

end Marking

section Entering

variable [D.Enters]

theorem checkFunction (id : NodeId) (owner : Option String) (isInstance : Bool) :
    D.Holds (CompileM.checkFunction id owner isInstance) := by
  refine (locate id).bind fun location => (kindOf id).bind fun kind => ?_
  cases kind with
  | function decl =>
    refine (beginCheck id).bind fun isNew => ite (get_bind fun _ => pure _) (ite ?_ ?_)
    · exact (registerTemplate _ _ _ _).bind fun _ => pure _
    rcases owner with _ | owner
    on_goal 2 => refine ite (bail _ _) (ite (bail _ _) ?_)
    all_goals
      refine (functionSymbol id decl _ isInstance location).bind fun f c => D.get_bind ?_
      cases hf : c.symbols.functions.get? f.key with
      | none => exact D.bind (Enters.register decl _ location hf) fun _ => pure _
      | some existing =>
        exact ite ((locate _).bind fun _ => bail _ _) (bind (Enters.declareKey id f.key) fun _ => pure _) c
  | _ => exact bail _ _

theorem inheritMethod (name : String) (base : AggregateSymbol) (method : NodeId) :
    D.Holds (CompileM.inheritMethod name base method) :=
  bind (Enters.copySubtree method) fun copy => within (checkFunction copy (some name) true)

theorem inheritMethods (name base : String) (decl : AggregateDecl) :
    D.Holds (CompileM.inheritMethods name base decl) :=
  inheritMethods_of_inheritMethod (inheritMethod name) base decl

end Entering

/-! ### Declarations -/

section Binding

variable [D.Binds]

theorem checkNodeJob (id : NodeId) : D.Holds (CompileM.perform (.checkNode id)) :=
  Binds.checkNode id

theorem checkGlobal (id : NodeId) (decl : VariableDecl) (location : Location) :
    D.Holds (CompileM.checkGlobal id decl location) := by
  obtain ⟨name, declared, init, isConst⟩ := decl
  refine get_bind fun c => get_bind fun c' => ?_
  cases c'.symbols.globals.get? (c.qualify name) with
  | some existing => exact (locate existing.decl).bind fun _ => bail _ _
  | none =>
    refine bind (optionMapM fun node => foldRequired node _) fun value => ?_
    cases declared with
    | some declared =>
      exact (resolveType declared location).bind fun _ => ite (bail _ _) (ite (bail _ _)
        (Binds.enterGlobal _ _))
    | none =>
      cases value with
      | some value =>
        exact (pure _).bind fun _ => ite (bail _ _) (ite (bail _ _) (Binds.enterGlobal _ _))
      | none => exact bail _ _

theorem checkAlias (decl : AliasDecl) (location : Location) :
    D.Holds (CompileM.checkAlias decl location) :=
  get_bind fun _ => get_bind fun _ => ite (bail _ _) ((aliasEntry location decl.target).bind
    fun _ => Binds.enterAlias _ _)

theorem checkSpace (name : String) (items : List NodeId) (location : Location) :
    D.Holds (CompileM.checkSpace name items location) :=
  get_bind fun _ => ite (bail _ _) (inSpace (forM checkNodeJob))

/-- A node is checked by what it declares. -/
theorem checkNode_of_checks (hfunction : ∀ id, D.Holds (CompileM.checkFunction id none false))
    (haggregate : ∀ id, D.Holds (CompileM.checkAggregate id none)) (id : NodeId) :
    D.Holds (CompileM.checkNode id) := by
  have once {y : CompileM PUnit} (hy : D.Holds y) : D.Holds (do
      if ← CompileM.beginCheck id then y) :=
    (beginCheck id).bind fun _ => ite hy (pure _)
  refine (locate id).bind fun location => (kindOf id).bind fun kind => ?_
  cases kind with
  | function decl => exact (hfunction id).map _
  | aggregate decl => exact (haggregate id).map _
  | «variable» decl => exact once (checkGlobal id decl location)
  | «alias» decl => exact once (checkAlias decl location)
  | space name items => exact once (checkSpace name items location)
  | staticIf cond yes no =>
    refine once ((staticBranch cond yes no).bind fun branch => ?_)
    cases branch with
    | none => exact pure _
    | some branch => exact checkNodeJob branch
  | block items => exact forM checkNodeJob
  | builtin name args => exact once ((evalBuiltin id name args).map _)
  | _ => exact bail _ _

end Binding

/-! ### Registering the declarations of a unit -/

variable [D.Registers]

theorem modifySymbols {g : SymbolTables → SymbolTables} (h : ∀ s : SymbolTables, s.Besides (g s)) :
    D.Holds (CompileM.modifySymbols g) :=
  Registers.modifySymbols h

theorem registerAggregate (id : NodeId) (name : String) (decl : AggregateDecl) (isInstance : Bool)
    (location : Location) :
    D.Holds (CompileM.registerAggregate id name decl isInstance location) := by
  refine get_bind fun c => ?_
  cases c.symbols.aggregates.get? name with
  | some existing => exact (locate existing.decl).bind fun _ => bail _ _
  | none =>
    refine (resolveBase name decl location).bind fun base => (collectFields _ _ _ _).bind fun fields =>
      get_bind fun c => (modifySymbols (.addAggregate · _)).bind fun _ =>
        bind (filterMapM fun _ => checkFunction _ _ _) fun own => ?_
    rcases base with _ | base
    on_goal 1 => refine (pure _).bind fun inherited => get_bind fun c => ?_
    on_goal 2 => refine (inheritMethods name base decl).bind fun inherited => get_bind fun c => ?_
    all_goals
      cases c.symbols.aggregates.get? name with
      | none => exact pure _
      | some symbol => exact modifySymbols (.insertAggregate · _ _)

theorem checkAggregate (id : NodeId) (instanceName : Option String) :
    D.Holds (CompileM.checkAggregate id instanceName) :=
  checkAggregate_of_registers registerAggregate id instanceName

theorem checkNode (id : NodeId) : D.Holds (CompileM.checkNode id) :=
  checkNode_of_checks (checkFunction · none false) (checkAggregate · none) id

end Discipline.Holds
end UnitCompiler
