import UnitCompiler.Proofs.Phases.Later

/-!
# What a written type stands for

A written type whose names are known stands for a type without anything being done: no instance is made and
no aggregate checked.  It stands for the same type in every context that knows the same names.
-/

namespace UnitCompiler

namespace Context

variable {c e : Context}

mutual

/-- At a depth of nesting the written type stands for the second one, with all generic aggregates in it
known. -/
inductive StandsFor (c : Context) : Nat → SourceType → SourceType → Prop
  | void {depth : Nat} : depth ≤ maxTypeDepth → StandsFor c depth .void .void
  | scalar {depth : Nat} (kind : Scalar) :
    depth ≤ maxTypeDepth → StandsFor c depth (.scalar kind) (.scalar kind)
  | pointer {depth : Nat} {inner type : SourceType} : depth ≤ maxTypeDepth →
    StandsFor c (depth + 1) inner type → StandsFor c depth (.pointer inner) (.pointer type)
  | const {depth : Nat} {inner type : SourceType} : depth ≤ maxTypeDepth →
    StandsFor c (depth + 1) inner type → StandsFor c depth (.const inner) (.const type)
  | array {depth : Nat} {inner type : SourceType} (length : Nat) : depth ≤ maxTypeDepth →
    StandsFor c (depth + 1) inner type →
    StandsFor c depth (.array inner (.fixed length)) (.array type (.fixed length))
  | function {depth : Nat} {ret type : SourceType} {params types : List SourceType} (isVariadic : Bool) :
    depth ≤ maxTypeDepth → StandsFor c (depth + 1) ret type → AllStandFor c (depth + 1) params types →
    StandsFor c depth (.function ret params isVariadic) (.function type types isVariadic)
  | alias {depth : Nat} (name : String) {target type : SourceType} : depth ≤ maxTypeDepth →
    StandsFor c (depth + 1) target type → StandsFor c depth (.alias name target) (.alias name type)
  | named {depth : Nat} {name : String} {type : SourceType} : depth ≤ maxTypeDepth →
    c.resolveNamed name = .ok type → StandsFor c depth (.aggregate name []) type
  | generic {depth : Nat} {name qualified : String} {site : DeclarationSite}
    {arg arg' : TemplateArg} {args args' : List TemplateArg} : depth ≤ maxTypeDepth →
    ArgStandsFor c (depth + 1) arg arg' → ArgsStandFor c (depth + 1) args args' →
    c.aggregateTemplate? name = some (qualified, site) →
    c.symbols.knowsAggregate (SourceType.aggregate qualified (arg' :: args')).canonical = true →
    StandsFor c depth (.aggregate name (arg :: args)) (.aggregate qualified (arg' :: args'))

inductive AllStandFor (c : Context) : Nat → List SourceType → List SourceType → Prop
  | nil {depth : Nat} : AllStandFor c depth [] []
  | cons {depth : Nat} {written type : SourceType} {rest types : List SourceType} :
    StandsFor c depth written type → AllStandFor c depth rest types →
    AllStandFor c depth (written :: rest) (type :: types)

/-- A bare name among the arguments may stand for a value. -/
inductive ArgStandsFor (c : Context) : Nat → TemplateArg → TemplateArg → Prop
  | value {depth : Nat} (value : ConstValue) : ArgStandsFor c depth (.value value) (.value value)
  | namedValue {depth : Nat} {written : SourceType} {name : String} {value : ConstValue} :
    written.bareName? = some name → c.valueAlias? name = some value →
    ArgStandsFor c depth (.type written) (.value value)
  | namedType {depth : Nat} {written type : SourceType} {name : String} :
    written.bareName? = some name → c.valueAlias? name = none → c.resolveNamed name = .ok type →
    ArgStandsFor c depth (.type written) (.type type)
  | type {depth : Nat} {written type : SourceType} : written.bareName? = none →
    StandsFor c depth written type → ArgStandsFor c depth (.type written) (.type type)

inductive ArgsStandFor (c : Context) : Nat → List TemplateArg → List TemplateArg → Prop
  | nil {depth : Nat} : ArgsStandFor c depth [] []
  | cons {depth : Nat} {arg arg' : TemplateArg} {args args' : List TemplateArg} :
    ArgStandsFor c depth arg arg' → ArgsStandFor c depth args args' →
    ArgsStandFor c depth (arg :: args) (arg' :: args')

end

/-- Contexts in which names of types mean the same. -/
structure SameNames (c e : Context) : Prop where
  named : ∀ name, e.resolveNamed name = c.resolveNamed name
  values : ∀ name, e.valueAlias? name = c.valueAlias? name
  templates : ∀ name, e.aggregateTemplate? name = c.aggregateTemplate? name
  known : ∀ name, e.symbols.knowsAggregate name = c.symbols.knowsAggregate name

theorem SameNames.refl (c : Context) : c.SameNames c := ⟨fun _ => rfl, fun _ => rfl, fun _ => rfl, fun _ => rfl⟩

end Context

namespace CompileM

variable {p : Performer} {c e : Context} {depth : Nat}

theorem checkDepth_apply (h : depth ≤ maxTypeDepth) (location : Location) :
    checkDepth location depth p e = .ok () e := by
  unfold checkDepth
  rw [if_neg (Nat.not_lt.mpr h)]
  rfl

theorem resolveNamed_apply (hnames : c.SameNames e) {name : String} {type : SourceType}
    (h : c.resolveNamed name = .ok type) (location : Location) :
    resolveNamed name location p e = .ok type e := by
  unfold resolveNamed
  rw [bind_of_eq_ok (get_apply p e), hnames.named, h]
  rfl

theorem ensureInstance_apply (hnames : c.SameNames e) {name qualified : String} {site : DeclarationSite}
    {args : List TemplateArg} (h : c.aggregateTemplate? name = some (qualified, site))
    (hknown : c.symbols.knowsAggregate (SourceType.aggregate qualified args).canonical = true)
    (location : Location) : ensureInstance name args location p e = .ok qualified e := by
  unfold ensureInstance
  rw [bind_of_eq_ok (get_apply p e), hnames.templates, h]
  simp only [hnames.known, hknown, if_true]
  rfl

mutual

/-- A type that stands for another one is read as that one, and nothing changes. -/
theorem resolveAt_apply (hnames : c.SameNames e) (location : Location) {written type : SourceType} {depth : Nat}
    (h : c.StandsFor depth written type) : resolveAt location written depth p e = .ok type e := by
  match h with
  | .void hdepth | .scalar _ hdepth =>
    rw [resolveAt, bind_of_eq_ok (checkDepth_apply hdepth location)]
    rfl
  | .pointer hdepth h | .const hdepth h | .alias _ hdepth h =>
    rw [resolveAt, bind_of_eq_ok (checkDepth_apply hdepth location),
      bind_of_eq_ok (resolveAt_apply hnames location h)]
    rfl
  | .array _ hdepth h =>
    rw [resolveAt, bind_of_eq_ok (checkDepth_apply hdepth location),
      bind_of_eq_ok (resolveAt_apply hnames location h)]
    rfl
  | .function _ hdepth hret hparams =>
    rw [resolveAt, bind_of_eq_ok (checkDepth_apply hdepth location),
      bind_of_eq_ok (resolveAt_apply hnames location hret),
      bind_of_eq_ok (resolveAll_apply hnames location hparams)]
    rfl
  | .named hdepth h =>
    rw [resolveAt, bind_of_eq_ok (checkDepth_apply hdepth location)]
    exact resolveNamed_apply hnames h location
  | .generic hdepth harg hargs htemplate hknown =>
    rw [resolveAt, bind_of_eq_ok (checkDepth_apply hdepth location)]
    simp only [List.isEmpty_cons, Bool.false_eq_true, if_false]
    rw [resolveArgs, bind_assoc, bind_of_eq_ok (resolveArg_apply hnames location harg), bind_assoc,
      bind_of_eq_ok (resolveArgs_apply hnames location hargs), pure_bind,
      bind_of_eq_ok (ensureInstance_apply hnames htemplate hknown location)]
    rfl

theorem resolveAll_apply (hnames : c.SameNames e) (location : Location) {written types : List SourceType}
    {depth : Nat} (h : c.AllStandFor depth written types) :
    resolveAll location written depth p e = .ok types e := by
  match h with
  | .nil =>
    rw [resolveAll]
    rfl
  | .cons hfirst hrest =>
    rw [resolveAll, bind_of_eq_ok (resolveAt_apply hnames location hfirst),
      bind_of_eq_ok (resolveAll_apply hnames location hrest)]
    rfl

theorem resolveArg_apply (hnames : c.SameNames e) (location : Location) {arg arg' : TemplateArg} {depth : Nat}
    (h : c.ArgStandsFor depth arg arg') : resolveArg location arg depth p e = .ok arg' e := by
  match h with
  | .value _ =>
    rw [resolveArg]
    rfl
  | .namedValue hname hvalue =>
    rw [resolveArg]
    simp only [hname]
    rw [bind_of_eq_ok (get_apply p e), hnames.values, hvalue]
    rfl
  | .namedType hname hvalue htype =>
    rw [resolveArg]
    simp only [hname]
    rw [bind_of_eq_ok (get_apply p e), hnames.values, hvalue]
    simp only
    rw [bind_of_eq_ok (resolveNamed_apply hnames htype location)]
    rfl
  | .type hname htype =>
    rw [resolveArg]
    simp only [hname]
    rw [bind_of_eq_ok (resolveAt_apply hnames location htype)]
    rfl

theorem resolveArgs_apply (hnames : c.SameNames e) (location : Location) {args args' : List TemplateArg}
    {depth : Nat} (h : c.ArgsStandFor depth args args') :
    resolveArgs location args depth p e = .ok args' e := by
  match h with
  | .nil =>
    rw [resolveArgs]
    rfl
  | .cons hfirst hrest =>
    rw [resolveArgs, bind_of_eq_ok (resolveArg_apply hnames location hfirst),
      bind_of_eq_ok (resolveArgs_apply hnames location hrest)]
    rfl

end

/-- Resolved arguments, which stand for themselves, are read as they are, and nothing changes. -/
theorem resolveArgs_of_resolved (location : Location) {args : List TemplateArg}
    (h : c.ArgsStandFor depth args args) : resolveArgs location args depth p c = .ok args c :=
  resolveArgs_apply (.refl c) location h

end CompileM

/-! ### Reading types again -/

namespace Context

variable {c e : Context}

/-- Contexts that differ in nodes that were added and in the functions that are registered. -/
structure Registers (c e : Context) : Prop where
  same : e = { c with
    tree := e.tree, states := e.states
    symbols := { c.symbols with
      functions := e.symbols.functions, overloads := e.symbols.overloads
      methods := e.symbols.methods, declaredKeys := e.symbols.declaredKeys } }
  tree : c.tree.Begins e.tree

theorem Registers.refl (c : Context) : c.Registers c := ⟨rfl, .refl _⟩

theorem Registers.extend (h : c.Registers e) {t : Tree} (ht : e.tree.Begins t)
    (states : Table NodeId NodeState) (functions : Table String FunctionSymbol)
    (overloads : Table String (List String)) (methods : Table (String × String) (List String))
    (declaredKeys : Table NodeId String) :
    c.Registers { e with
      tree := t, states
      symbols := { e.symbols with functions, overloads, methods, declaredKeys } } :=
  ⟨by rw [h.same], h.tree.trans ht⟩

/-- The context in the environment recorded for an aggregate. -/
def inside (c : Context) (a : AggregateSymbol) : Context :=
  { c with subst := a.subst, space := a.space, function := none }

theorem Registers.sameNames (h : c.Registers e) (a : AggregateSymbol) :
    (c.inside a).SameNames (e.inside a) where
  named name := by
    rw [h.same]
    rfl
  values name := by
    rw [h.same]
    rfl
  templates name := by
    rw [h.same]
    rfl
  known name := by
    rw [h.same]
    rfl

/-- In the environment of the aggregate a written type is read as this one, whatever functions are registered
meanwhile. -/
def TypeReads (p : Performer) (c : Context) (a : AggregateSymbol) (written type : SourceType) : Prop :=
  ∀ e location, c.Registers e → CompileM.resolveType written location p (e.inside a) = .ok type (e.inside a)

/-- A type whose names are known in the environment of the aggregate is read there at any time. -/
theorem StandsFor.typeReads {p : Performer} {a : AggregateSymbol} {written type : SourceType}
    (h : (c.inside a).StandsFor 0 (written.substitute a.subst) type) : c.TypeReads p a written type :=
  fun _ location he => CompileM.resolveAt_apply (he.sameNames a) location h

end Context
end UnitCompiler
