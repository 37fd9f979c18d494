import UnitCompiler.Proofs.Phases.Runs

/-!
# Checking

Registering declarations leads to later contexts, and so does every job.  Aliases and globals are
entered while checking only.
-/

namespace UnitCompiler

namespace Context

/-- A context later than one in which a declaration had not been looked at yet, while now it has. -/
structure Begun (c : Context) (id : NodeId) (c' : Context) : Prop where
  later : c.Later c'
  before : c.stateOf id = .unchecked
  now : c'.stateOf id ≠ .unchecked

namespace Begun

variable {c c' c'' : Context} {id : NodeId}

theorem trans (h : c.Begun id c') (h' : c'.Later c'') : c.Begun id c'' :=
  ⟨h.later.trans h', h.before, h'.ne_unchecked h.now⟩

theorem endsIn {p : Performer} {α : Type} {x : CompileM α} (h : c.Begun id c') (hx : Leads p x) :
    EndsIn (c.Begun id) (x p c') :=
  (hx c').imp fun _ => h.trans

/-- The key of the declaration is entered. -/
theorem insertKey (h : c.Begun id c') {s : SymbolTables} {key : String} (hs : c'.symbols.Grows s)
    (hkeys : s.declaredKeys = c'.symbols.declaredKeys.insert id key)
    (hnames : s.declaredNames = c'.symbols.declaredNames)
    (haliases : s.aliases = c'.symbols.aliases) (hglobals : s.globals = c'.symbols.globals) :
    c.Begun id { c' with symbols := s } := by
  refine ⟨h.later.setSymbols (h.later.symbols.trans hs) (fun {id'} hid' => ?_)
    (fun _ => by rw [hnames]) (fun _ => haliases) fun _ => hglobals, h.before, h.now⟩
  rw [hkeys, Table.get?_insert_of_ne]
  rintro rfl
  exact hid'.elim (· h.before) h.now

/-- The name of the declaration is entered. -/
theorem insertName (h : c.Begun id c') {s : SymbolTables} {name : String}
    (hs : c.symbols.Grows s) (hkeys : s.declaredKeys = c'.symbols.declaredKeys)
    (hnames : s.declaredNames = c'.symbols.declaredNames.insert id name)
    (haliases : s.aliases = c'.symbols.aliases) (hglobals : s.globals = c'.symbols.globals) :
    c.Begun id { c' with symbols := s } := by
  refine ⟨h.later.setSymbols hs (fun _ => by rw [hkeys]) (fun {id'} hid' => ?_)
    (fun _ => haliases) fun _ => hglobals, h.before, h.now⟩
  rw [hnames, Table.get?_insert_of_ne]
  rintro rfl
  exact hid'.elim (· h.before) h.now

end Begun
end Context

/-- A later context in which a declaration has been looked at. -/
structure Context.Visited (c : Context) (id : NodeId) (c' : Context) : Prop where
  later : c.Later c'
  now : c'.stateOf id ≠ .unchecked

theorem CompileM.beginCheck_of_visited {p : Performer} {c : Context} {id : NodeId}
    (h : c.stateOf id ≠ .unchecked) : CompileM.beginCheck id p c = .ok false c := by
  unfold CompileM.beginCheck
  rw [CompileM.bind_of_eq_ok (CompileM.get_apply p c), if_pos h]
  rfl

/-- A declaration that is looked at for the first time is marked before anything else is done. -/
theorem EndsIn.beginCheck_bind {p : Performer} {β : Type} {f : Bool → CompileM β} {id : NodeId}
    {c : Context} (hold : Leads p (f false))
    (hnew : ∀ c', c'.symbols = c.symbols → c.Begun id c' → EndsIn (c.Begun id) (f true p c')) :
    EndsIn (c.Visited id) ((CompileM.beginCheck id >>= f) p c) := by
  by_cases hid : c.stateOf id = .unchecked
  · rw [CompileM.bind_of_eq_ok (CompileM.beginCheck_apply hid)]
    refine (hnew { c with states := c.states.insert id .checked } rfl ⟨.setState ?_, hid, ?_⟩).imp
      fun _ h => ⟨h.later, h.now⟩
    · rw [hid]
      exact Nat.zero_le _
    · rw [Context.Later.stateOf_insert, if_pos rfl]
      decide
  · rw [CompileM.bind_of_eq_ok (CompileM.beginCheck_of_visited hid)]
    exact (hold c).imp fun _ h => ⟨h, h.ne_unchecked hid⟩

/-- Every result of an action has a property. -/
def Yields (p : Performer) {α : Type} (P : α → Prop) (x : CompileM α) : Prop :=
  ∀ c a c', x p c = .ok a c' → P a

namespace Yields

variable {p : Performer} {α β : Type} {P : β → Prop}

theorem pure {b : β} (h : P b) : Yields p P (Pure.pure b) := by
  rintro c _ c' ⟨⟩
  exact h

theorem bind {x : CompileM α} {f : α → CompileM β} (h : ∀ a, Yields p P (f a)) :
    Yields p P (x >>= f) := by
  intro c b c' hrun
  obtain ⟨a, c₁, -, hrun⟩ := CompileM.bind_eq_ok.mp hrun
  exact h a _ _ _ hrun

theorem ite {q : Prop} [Decidable q] {x y : CompileM β} (hx : Yields p P x) (hy : Yields p P y) :
    Yields p P (if q then x else y) := by
  split
  · exact hx
  · exact hy

/-- A function goes by the node that declares it, and has no other owner than the one given. -/
theorem functionSymbol (id : NodeId) (decl : FunctionDecl) (owner : Option String)
    (isInstance : Bool) (location : Location) :
    Yields p (fun f => f.decl = id ∧ ∀ name ∈ f.owner, name ∈ owner)
      (CompileM.functionSymbol id decl owner isInstance location) := by
  unfold CompileM.functionSymbol
  generalize (if decl.isConstructor = true then owner else none) = constructorOf
  refine bind fun params => ?_
  cases constructorOf with
  | some constructed =>
    have hnone : ∀ name ∈ (none : Option String), name ∈ owner := fun _ h => by cases h
    refine bind fun ret => bind fun c => ite ?_ (pure ⟨rfl, hnone⟩)
    cases owner with
    | none => exact bind fun _ => pure ⟨rfl, hnone⟩
    | some owner => exact ite (bind fun _ => pure ⟨rfl, hnone⟩) (pure ⟨rfl, hnone⟩)
  | none =>
    refine bind fun ret => bind fun c => ite ?_ (pure ⟨rfl, fun _ h => h⟩)
    cases owner with
    | none => exact bind fun _ => pure ⟨rfl, fun _ h => h⟩
    | some owner => exact ite (bind fun _ => pure ⟨rfl, fun _ h => h⟩) (pure ⟨rfl, fun _ h => h⟩)

end Yields

namespace Leads

open Discipline.Holds

variable {p : Performer}

theorem registerTemplate (id : NodeId) (decl : FunctionDecl) (owner : Option String)
    (location : Location) : Leads p (CompileM.registerTemplate id decl owner location) := by
  cases owner with
  | some owner => exact bail _ _
  | none =>
    refine get_bind fun c => ?_
    dsimp only
    split
    · exact (locate _).bind fun _ => bail _ _
    · exact modifySymbols (fun _ => .of_eq rfl rfl rfl) (fun _ => rfl) (fun _ => rfl)
        (fun _ => rfl) fun _ => rfl

theorem enterOperator (tag : OperatorTag) (owner : String) (f : FunctionSymbol)
    (location : Location) : Leads p (CompileM.enterOperator tag owner f location) := by
  refine fun c => Discipline.get_bind _ ?_
  cases haggregate : c.symbols.aggregates.get? owner with
  | none => exact Context.Later.refl c
  | some aggregate =>
    dsimp only
    split_ifs
    · exact .refl c
    refine Context.Later.grow (.insertAggregate (.refl _) fun a ha => ?_) rfl rfl rfl rfl
    rw [haggregate] at ha
    cases ha
    rfl

theorem functions_of_enterOperator {tag : OperatorTag} {owner : String} {f : FunctionSymbol}
    {location : Location} {c c' : Context}
    (h : CompileM.enterOperator tag owner f location p c = .ok () c') :
    c'.symbols.functions = c.symbols.functions := by
  unfold CompileM.enterOperator at h
  rw [CompileM.bind_of_eq_ok (CompileM.get_apply p c)] at h
  cases haggregate : c.symbols.aggregates.get? owner with
  | none =>
    rw [haggregate] at h
    cases h
  | some aggregate =>
    rw [haggregate] at h
    obtain ⟨-, h⟩ := CompileM.guard_passes h
    cases h
    rfl

/-- A new function is entered under its key. -/
theorem endsIn_register {c₀ c : Context} {decl : FunctionDecl} {owner : Option String}
    {f : FunctionSymbol} {location : Location} (h : c₀.Begun f.decl c)
    (hnew : c.symbols.functions.get? f.key = none) :
    EndsIn (c₀.Begun f.decl) (CompileM.register decl owner f location p c) := by
  have hadd {c : Context} (h : c₀.Begun f.decl c) (hnew : c.symbols.functions.get? f.key = none) :
      EndsIn (c₀.Begun f.decl) (CompileM.modifySymbols (·.addFunction f) p c) :=
    h.insertKey ((SymbolTables.Grows.insertFunction (.refl _) hnew).trans (.of_eq rfl rfl rfl)) rfl rfl
      rfl rfl
  have hmethod (owner : String) : EndsIn (c₀.Begun f.decl) ((do
      CompileM.modifySymbols (·.addMethod owner decl.name f.key)
      CompileM.modifySymbols (·.addFunction f)) p c) := by
    refine EndsIn.bind (h.endsIn (modifySymbols (fun _ => .of_eq rfl rfl rfl) (fun _ => rfl)
      (fun _ => rfl) (fun _ => rfl) fun _ => rfl)) fun _ c' hrun h' => hadd h' ?_
    cases hrun
    exact hnew
  unfold CompileM.register
  cases owner with
  | none =>
    cases f.owner with
    | none => exact hadd h hnew
    | some owner => exact hmethod owner
  | some owner =>
    cases decl.operator with
    | some tag =>
      refine EndsIn.bind (h.endsIn (enterOperator tag owner f location)) fun _ c' hrun h' => hadd h' ?_
      rw [functions_of_enterOperator hrun, hnew]
    | none =>
      cases f.owner with
      | none => exact hadd h hnew
      | some owner => exact hmethod owner

theorem registerAggregateTemplate (id : NodeId) (decl : AggregateDecl) (location : Location) :
    Leads p (CompileM.registerAggregateTemplate id decl location) := by
  refine get_bind fun c => ?_
  dsimp only
  split
  · exact (locate _).bind fun _ => bail _ _
  · exact modifySymbols (fun _ => .of_eq rfl rfl rfl) (fun _ => rfl) (fun _ => rfl)
      (fun _ => rfl) fun _ => rfl

/-- A new aggregate is entered under its name. -/
theorem endsIn_addAggregate {c₀ c : Context} {id : NodeId} {a : AggregateSymbol}
    (h : c₀.Begun id c) (hid : a.decl = id) (hnew : c₀.symbols.aggregates.get? a.name = none) :
    EndsIn (c₀.Begun id) (CompileM.modifySymbols (·.addAggregate a) p c) := by
  subst hid
  change c₀.Begun a.decl { c with symbols := c.symbols.addAggregate a }
  rw [SymbolTables.addAggregate_eq]
  refine h.insertName ?_ rfl rfl rfl rfl
  refine (h.later.symbols.insertAggregate fun a₀ ha₀ => ?_).trans (.of_eq rfl rfl rfl)
  rw [hnew] at ha₀
  cases ha₀

section Jobs

variable [p.Leads]

theorem visited_of_checkFunction {c : Context} {id : NodeId} {decl : FunctionDecl}
    (hkind : c.tree.HasKind id (.function decl)) (owner : Option String) (isInstance : Bool) :
    EndsIn (c.Visited id) (CompileM.checkFunction id owner isInstance p c) := by
  obtain ⟨location, hread⟩ := CompileM.locate_kindOf hkind
  unfold CompileM.checkFunction
  rw [hread]
  refine EndsIn.beginCheck_bind (get_bind fun _ => pure _) fun c₁ _ h₁ => ?_
  rw [if_neg (by decide)]
  by_cases htemplate : decl.isTemplate
  · rw [if_pos htemplate]
    exact h₁.endsIn ((registerTemplate id decl owner location).bind fun _ => pure _)
  rw [if_neg htemplate]
  -- A method first has its owner's name tested; what follows is the same for every function.
  rcases owner with _ | owner
  on_goal 2 => refine EndsIn.guard h₁ (EndsIn.guard h₁ ?_)
  all_goals
    refine EndsIn.bind (h₁.endsIn (functionSymbol id decl _ isInstance location))
      fun f c₂ hf h₂ => ?_
    obtain ⟨rfl, -⟩ := Yields.functionSymbol id decl _ isInstance location _ _ _ hf
    rw [CompileM.bind_of_eq_ok (CompileM.get_apply p c₂)]
    cases hexisting : c₂.symbols.functions.get? f.key with
    | none =>
      exact EndsIn.bind (endsIn_register h₂ hexisting) fun _ c₃ _ h₃ => h₃.endsIn (pure _)
    | some existing =>
      dsimp only
      split_ifs
      · exact h₂.endsIn ((locate _).bind fun _ => bail _ _)
      · let symbols := c₂.symbols
        exact h₂.insertKey (s := { symbols with
          declaredKeys := symbols.declaredKeys.insert f.decl f.key }) (.of_eq rfl rfl rfl) rfl rfl rfl rfl

theorem checkFunction (id : NodeId) (owner : Option String) (isInstance : Bool) :
    Leads p (CompileM.checkFunction id owner isInstance) := by
  refine fun c => EndsIn.locate_kindOf fun location kind hkind hread => ?_
  cases kind with
  | function decl =>
    rw [← hread]
    exact (visited_of_checkFunction hkind owner isInstance).imp fun _ => Context.Visited.later
  | _ => exact Context.Later.refl c

/-! ### Aggregates -/

theorem inheritMethod (name : String) (base : AggregateSymbol) (method : NodeId) :
    Leads p (CompileM.inheritMethod name base method) :=
  fun _ => EndsIn.copySubtree_bind fun copy _ htree _ =>
    Leads.endsIn (within (checkFunction copy (some name) true)) (.setTree htree)

theorem inheritMethods (name base : String) (decl : AggregateDecl) :
    Leads p (CompileM.inheritMethods name base decl) :=
  inheritMethods_of_inheritMethod (inheritMethod name) base decl

theorem registerAggregate {c₀ c : Context} {id : NodeId} (h : c₀.Begun id c)
    (hsymbols : c.symbols = c₀.symbols) (name : String) (decl : AggregateDecl) (isInstance : Bool)
    (location : Location) :
    EndsIn (c₀.Begun id) (CompileM.registerAggregate id name decl isInstance location p c) := by
  unfold CompileM.registerAggregate
  rw [CompileM.bind_of_eq_ok (CompileM.get_apply p c)]
  cases hnew : c.symbols.aggregates.get? name with
  | some existing => exact h.endsIn ((locate existing.decl).bind fun _ => bail _ _)
  | none =>
    refine EndsIn.bind (h.endsIn (resolveBase name decl location)) fun base c₁ _ h₁ => ?_
    refine EndsIn.bind (h₁.endsIn (collectFields name decl base location)) fun fields c₂ _ h₂ => ?_
    rw [CompileM.bind_of_eq_ok (CompileM.get_apply p c₂)]
    rw [hsymbols] at hnew
    refine EndsIn.bind (endsIn_addAggregate h₂ rfl hnew) fun _ c₃ _ h₃ => h₃.endsIn ?_
    refine (filterMapM fun method => checkFunction method _ _).bind fun own => ?_
    rcases base with _ | base
    on_goal 1 => refine (pure _).bind fun inherited => ?_
    on_goal 2 => refine (inheritMethods name base decl).bind fun inherited => ?_
    all_goals
      refine fun c₄ => Discipline.get_bind _ ?_
      cases hsymbol : c₄.symbols.aggregates.get? name with
      | none => exact Context.Later.refl c₄
      | some symbol =>
        refine Context.Later.grow (.insertAggregate (.refl _) fun a ha => ?_) rfl rfl rfl rfl
        rw [hsymbol] at ha
        cases ha
        rfl

theorem visited_of_checkAggregate {c : Context} {id : NodeId} {decl : AggregateDecl}
    (hkind : c.tree.HasKind id (.aggregate decl)) (instanceName : Option String) :
    EndsIn (c.Visited id) (CompileM.checkAggregate id instanceName p c) := by
  obtain ⟨location, hread⟩ := CompileM.locate_kindOf hkind
  unfold CompileM.checkAggregate
  rw [hread]
  refine EndsIn.beginCheck_bind (get_bind fun _ => pure _) fun c₁ hsymbols h₁ => ?_
  rw [if_neg (by decide)]
  by_cases htemplate : decl.isTemplate && instanceName.isNone
  · rw [if_pos htemplate]
    exact h₁.endsIn ((registerAggregateTemplate id decl location).bind fun _ => pure _)
  rw [if_neg htemplate, CompileM.bind_of_eq_ok (CompileM.get_apply p c₁)]
  exact EndsIn.bind (registerAggregate h₁ hsymbols _ decl _ location) fun _ _ _ h => h.endsIn (pure _)

theorem checkAggregate (id : NodeId) (instanceName : Option String) :
    Leads p (CompileM.checkAggregate id instanceName) := by
  refine fun c => EndsIn.locate_kindOf fun location kind hkind hread => ?_
  cases kind with
  | aggregate decl =>
    rw [← hread]
    exact (visited_of_checkAggregate hkind instanceName).imp fun _ => Context.Visited.later
  | _ => exact Context.Later.refl c

theorem work (job : Job) (hjob : job.isCheckNode = false) : Leads p job.work := by
  cases job with
  | collect id space => exact collect id space
  | fold id => exact foldNode id
  | checkNode id => cases hjob
  | checkFunction id owner isInstance => exact checkFunction id owner isInstance
  | checkAggregate id instanceName => exact checkAggregate id instanceName
  | complete type location => exact complete type location
  | needsDefaults type location => exact needsDefaults type location
  | applyDefaults type slot skipped location => exact applyDefaults type slot skipped location
  | emitDeclaration id => exact emitDeclaration id
  | emitFunction key => exact emitFunction key
  | emitAggregate name => exact emitAggregate name
  | emitPending => exact emitPending_of_drain Context.Later.drain
  | emitExpr id => exact emitExpr id
  | emitPlace id => exact emitPlace id
  | emitStmt id => exact emitStmt id

end Jobs

/-- Whatever work is done, it leads to later contexts, registering whole declarations apart. -/
theorem performWithin (depth : Nat) : (UnitCompiler.performWithin depth).Leads := by
  induction depth with
  | zero => exact ⟨fun _ _ _ => trivial⟩
  | succ depth ih => exact ⟨work⟩

end Leads

/-! ### Declarations of a unit -/

/-- Every run while checking leads to a later context. -/
def Checks (p : Performer) {α : Type} (x : CompileM α) : Prop :=
  ∀ c : Context, c.phase = .check → EndsIn c.Later (x p c)

namespace Checks

variable {p : Performer} {α β : Type} {x : CompileM α} {f : α → CompileM β}

theorem of_leads (h : Leads p x) : Checks p x := fun c _ => h c

theorem bind (hx : Checks p x) (hf : ∀ a, Checks p (f a)) : Checks p (x >>= f) :=
  fun c hc => EndsIn.bind (hx c hc) fun a c' _ h =>
    (hf a c' (h.phase.trans hc)).imp fun _ => h.trans

theorem get_bind {f : Context → CompileM β} (h : ∀ c, Checks p (f c)) : Checks p (get >>= f) :=
  fun c => h c c

theorem ite {q : Prop} [Decidable q] {y : CompileM α} (hx : Checks p x) (hy : Checks p y) :
    Checks p (if q then x else y) := by
  split
  · exact hx
  · exact hy

theorem forM {g : α → CompileM PUnit} {items : List α} (h : ∀ item, Checks p (g item)) :
    Checks p (items.forM g) := by
  induction items with
  | nil => exact of_leads (.pure _)
  | cons item rest ih => exact (h item).bind fun _ => ih

theorem inSpace {name : String} (hx : Checks p x) : Checks p (CompileM.inSpace name x) :=
  fun _ hc => EndsIn.restoring (hx _ hc) fun _ h => h.leaveSpace

/-- Globals and aliases are entered. -/
theorem modifySymbols {g : SymbolTables → SymbolTables} (h : ∀ s : SymbolTables, s.Grows (g s))
    (hkeys : ∀ s, (g s).declaredKeys = s.declaredKeys)
    (hnames : ∀ s, (g s).declaredNames = s.declaredNames) :
    Checks p (CompileM.modifySymbols g) := by
  intro c hc
  have hemit {q : Prop} (hphase : c.phase = .emit) : q := by
    rw [hc] at hphase
    cases hphase
  exact (Context.Later.refl c).setSymbols (h _) (fun _ => by rw [hkeys]) (fun _ => by rw [hnames])
    hemit hemit

/-- Work that is done when a declaration is looked at for the first time. -/
theorem visited {y : CompileM PUnit} {c : Context} (id : NodeId) (hy : Checks p y)
    (hc : c.phase = .check) :
    EndsIn (c.Visited id) ((do
      if ← CompileM.beginCheck id then y) p c) := by
  refine EndsIn.beginCheck_bind (.pure _) fun c' _ h => ?_
  exact (hy c' (h.later.phase.trans hc)).imp fun _ => h.trans

theorem once {y : CompileM PUnit} (id : NodeId) (hy : Checks p y) : Checks p (do
    if ← CompileM.beginCheck id then y) :=
  fun _ hc => (hy.visited id hc).imp fun _ => Context.Visited.later

theorem checkSpace (hp : ∀ id, Checks p (CompileM.perform (.checkNode id))) (name : String)
    (items : List NodeId) (location : Location) :
    Checks p (CompileM.checkSpace name items location) :=
  get_bind fun _ => ite (of_leads (.bail _ _)) (inSpace (forM hp))

variable [p.Leads]

theorem checkGlobal (id : NodeId) (decl : VariableDecl) (location : Location) :
    Checks p (CompileM.checkGlobal id decl location) := by
  obtain ⟨name, declared, init, isConst⟩ := decl
  refine get_bind fun c => get_bind fun c' => ?_
  cases c'.symbols.globals.get? (c.qualify name) with
  | some existing => exact of_leads ((Discipline.Holds.locate existing.decl).bind fun _ => .bail _ _)
  | none =>
    refine (of_leads (.optionMapM fun node => .foldRequired node _)).bind fun value => ?_
    have henter (symbol : GlobalSymbol) : Checks p (CompileM.modifySymbols fun s =>
        { s with globals := s.globals.insert (c.qualify name) symbol }) :=
      modifySymbols (fun _ => .of_eq rfl rfl rfl) (fun _ => rfl) fun _ => rfl
    cases declared with
    | some declared =>
      exact (of_leads (.resolveType declared location)).bind fun _ => ite (of_leads (.bail _ _))
        (ite (of_leads (.bail _ _)) (henter _))
    | none =>
      cases value with
      | some value =>
        exact (of_leads (.pure _)).bind fun _ => ite (of_leads (.bail _ _))
          (ite (of_leads (.bail _ _)) (henter _))
      | none => exact of_leads (.bail _ _)

theorem checkAlias (decl : AliasDecl) (location : Location) :
    Checks p (CompileM.checkAlias decl location) := by
  refine get_bind fun c => get_bind fun c' => ite (of_leads (.bail _ _)) ?_
  refine (of_leads (.aliasEntry location decl.target)).bind fun entry => ?_
  exact modifySymbols (fun _ => .of_eq rfl rfl rfl) (fun _ => rfl) fun _ => rfl

section Nodes

variable (hp : ∀ id, Checks p (CompileM.perform (.checkNode id)))
include hp

theorem checkBranch (cond yes : NodeId) (no : Option NodeId) : Checks p (do
    match ← CompileM.staticBranch cond yes no with
    | some branch => CompileM.perform (.checkNode branch)
    | none => return) := by
  refine (of_leads (.staticBranch cond yes no)).bind fun branch => ?_
  cases branch with
  | none => exact of_leads (.pure _)
  | some branch => exact hp branch

theorem checkNode (id : NodeId) : Checks p (CompileM.checkNode id) := by
  refine (of_leads (.locate id)).bind fun location => (of_leads (.kindOf id)).bind fun kind => ?_
  cases kind with
  | function decl => exact of_leads ((Leads.checkFunction id none false).map _)
  | aggregate decl => exact of_leads ((Leads.checkAggregate id none).map _)
  | «variable» decl => exact once id (checkGlobal id decl location)
  | «alias» decl => exact once id (checkAlias decl location)
  | space name items => exact once id (checkSpace hp name items location)
  | staticIf cond yes no => exact once id (checkBranch hp cond yes no)
  | block items => exact forM hp
  | builtin name args => exact once id (of_leads ((Discipline.Holds.evalBuiltin id name args).map _))
  | _ => exact of_leads (.bail _ _)

end Nodes

omit [p.Leads] in
theorem performWithin (depth : Nat) (id : NodeId) :
    Checks (UnitCompiler.performWithin depth) (CompileM.perform (.checkNode id)) := by
  induction depth generalizing id with
  | zero => exact fun _ _ => trivial
  | succ depth ih =>
    have := Leads.performWithin depth
    exact checkNode ih id

end Checks
end UnitCompiler
