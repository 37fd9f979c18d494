import Mathlib
import UnitCompiler.Compile.Lowering
import UnitCompiler.Compile.Resolution
import UnitCompiler.Proofs.Relocation.Copy

/-!
# Relocated contexts

The context of a compilation that is run again over a grown tree: the same in all but the numbers of the
nodes that were added since.
-/

namespace UnitCompiler

namespace Relocation

variable (σ : Relocation)

def functionSymbol (f : FunctionSymbol) : FunctionSymbol := { f with decl := σ.node f.decl }

def fieldSymbol (f : FieldSymbol) : FieldSymbol := { f with default := f.default.map σ.node }

def aggregateSymbol (a : AggregateSymbol) : AggregateSymbol :=
  { a with decl := σ.node a.decl, fields := a.fields.map σ.fieldSymbol }

def globalSymbol (g : GlobalSymbol) : GlobalSymbol := { g with decl := σ.node g.decl }

def site (s : DeclarationSite) : DeclarationSite := { s with decl := σ.node s.decl }

def symbols (s : SymbolTables) : SymbolTables :=
  { s with
    functions := s.functions.mapValues σ.functionSymbol
    templates := s.templates.mapValues σ.site
    aggregates := s.aggregates.mapValues σ.aggregateSymbol
    aggregateTemplates := s.aggregateTemplates.mapValues σ.site
    declaredAggregates := s.declaredAggregates.mapValues σ.site
    fields := s.fields.mapValues σ.fieldSymbol
    globals := s.globals.mapValues σ.globalSymbol
    declaredKeys := s.declaredKeys.mapKeys σ.node
    declaredNames := s.declaredNames.mapKeys σ.node }

/-- The context over another tree, with the nodes moved. -/
def context (c : Context) (u : Tree) : Context :=
  { c with
    tree := u
    symbols := σ.symbols c.symbols
    states := c.states.mapKeys σ.node }

def member : Member → Member
  | .methods keys => .methods keys
  | .field field => .field (σ.fieldSymbol field)

end Relocation

section Symbols

variable {σ : Relocation} {s : SymbolTables}

@[simp] theorem Relocation.fieldTypes_aggregateSymbol (a : AggregateSymbol) :
    (σ.aggregateSymbol a).fieldTypes = a.fieldTypes := by
  simp [AggregateSymbol.fieldTypes, Relocation.aggregateSymbol, Relocation.fieldSymbol,
    Function.comp_def]

namespace SymbolTables

@[simp] theorem overloads_relocate : (σ.symbols s).overloads = s.overloads := rfl

@[simp] theorem instances_relocate : (σ.symbols s).instances = s.instances := rfl

@[simp] theorem aliases_relocate : (σ.symbols s).aliases = s.aliases := rfl

@[simp] theorem get?_functions_relocate (key : String) :
    (σ.symbols s).functions.get? key = (s.functions.get? key).map σ.functionSymbol :=
  Table.get?_mapValues _ _ _

@[simp] theorem get?_aggregates_relocate (name : String) :
    (σ.symbols s).aggregates.get? name = (s.aggregates.get? name).map σ.aggregateSymbol :=
  Table.get?_mapValues _ _ _

@[simp] theorem contains_aggregates_relocate (name : String) :
    (σ.symbols s).aggregates.contains name = s.aggregates.contains name :=
  Table.contains_mapValues _ _ _

@[simp] theorem get?_globals_relocate (name : String) :
    (σ.symbols s).globals.get? name = (s.globals.get? name).map σ.globalSymbol :=
  Table.get?_mapValues _ _ _

@[simp] theorem get?_templates_relocate (name : String) :
    (σ.symbols s).templates.get? name = (s.templates.get? name).map σ.site :=
  Table.get?_mapValues _ _ _

@[simp] theorem get?_aggregateTemplates_relocate (name : String) :
    (σ.symbols s).aggregateTemplates.get? name = (s.aggregateTemplates.get? name).map σ.site :=
  Table.get?_mapValues _ _ _

@[simp] theorem get?_declaredAggregates_relocate (name : String) :
    (σ.symbols s).declaredAggregates.get? name = (s.declaredAggregates.get? name).map σ.site :=
  Table.get?_mapValues _ _ _

@[simp] theorem contains_declaredAggregates_relocate (name : String) :
    (σ.symbols s).declaredAggregates.contains name = s.declaredAggregates.contains name :=
  Table.contains_mapValues _ _ _

@[simp] theorem get?_declaredKeys_relocate (id : NodeId) :
    (σ.symbols s).declaredKeys.get? (σ.node id) = s.declaredKeys.get? id :=
  Table.get?_mapKeys Relocation.node_injective _ _

@[simp] theorem get?_declaredNames_relocate (id : NodeId) :
    (σ.symbols s).declaredNames.get? (σ.node id) = s.declaredNames.get? id :=
  Table.get?_mapKeys Relocation.node_injective _ _

@[simp] theorem fieldTypes?_relocate (name : String) :
    (σ.symbols s).fieldTypes? name = s.fieldTypes? name := by
  simp [fieldTypes?, Relocation.symbols, Option.map_map, Function.comp_def]

@[simp] theorem layoutSource_relocate (pointerBits : Nat) :
    (σ.symbols s).layoutSource pointerBits = s.layoutSource pointerBits := by
  rw [layoutSource, layoutSource]
  congr 1
  exact funext fun name => fieldTypes?_relocate name

@[simp] theorem field?_relocate (owner name : String) :
    (σ.symbols s).field? owner name = (s.field? owner name).map σ.fieldSymbol :=
  Table.get?_mapValues σ.fieldSymbol s.fields (owner, name)

@[simp] theorem methodsOf_relocate (owner name : String) :
    (σ.symbols s).methodsOf owner name = s.methodsOf owner name := rfl

@[simp] theorem knowsAggregate_relocate (name : String) :
    (σ.symbols s).knowsAggregate name = s.knowsAggregate name := by
  simp [knowsAggregate, Relocation.symbols]

@[simp] theorem expand_relocate (budget : Nat) (visiting : List String) (name : String) :
    (σ.symbols s).expand budget visiting name = s.expand budget visiting name := by
  induction budget generalizing visiting name with
  | zero => rfl
  | succ budget ih =>
    have hexpand : ∀ visiting, (σ.symbols s).expand budget visiting = s.expand budget visiting :=
      fun visiting => funext (ih visiting)
    simp only [expand, fieldTypes?_relocate, hexpand]

@[simp] theorem lower_relocate (type : SourceType) : (σ.symbols s).lower type = s.lower type := by
  have hsize : (σ.symbols s).aggregates.size = s.aggregates.size := Table.size_mapValues _ _
  rw [lower, lower, hsize, show (σ.symbols s).expand (s.aggregates.size + 1) [] =
    s.expand (s.aggregates.size + 1) [] from funext fun name => expand_relocate _ _ name]

@[simp] theorem pickOverload_relocate (name : String) (keys : List String) (args : List SourceType) :
    (σ.symbols s).pickOverload name keys args = s.pickOverload name keys args := by
  have hany : ∀ key, ((σ.symbols s).functions.get? key).any (signature ·.params == signature args) =
      (s.functions.get? key).any (signature ·.params == signature args) := by
    intro key
    simp only [Relocation.symbols, Table.get?_mapValues, Option.any_map]
    rfl
  simp only [pickOverload, hany]

@[simp] theorem member_relocate (owner name : String) :
    (σ.symbols s).member owner name = (s.member owner name).map σ.member := by
  simp only [member, methodsOf_relocate, field?_relocate]
  cases s.methodsOf owner name with
  | nil => cases s.field? owner name <;> rfl
  | cons key keys => rfl

@[simp] theorem operator_relocate (owner : String) (tag : OperatorTag) (args : List SourceType) :
    (σ.symbols s).operator owner tag args = s.operator owner tag args := by
  simp only [operator, Relocation.symbols, Table.get?_mapValues]
  cases s.aggregates.get? owner <;> rfl

theorem addFunction_relocate (f : FunctionSymbol) :
    σ.symbols (s.addFunction f) = (σ.symbols s).addFunction (σ.functionSymbol f) := by
  simp only [addFunction, addOverload, Relocation.symbols, Table.mapValues_insert,
    Table.mapKeys_insert Relocation.node_injective]
  rfl

theorem addField_relocate (owner : String) (field : FieldSymbol) :
    σ.symbols (s.addField owner field) = (σ.symbols s).addField owner (σ.fieldSymbol field) := by
  simp only [addField, Relocation.symbols, Table.mapValues_insert]
  rfl

theorem addFields_relocate (owner : String) (fields : List FieldSymbol) :
    σ.symbols (fields.foldl (·.addField owner) s) =
      (fields.map σ.fieldSymbol).foldl (·.addField owner) (σ.symbols s) := by
  induction fields generalizing s with
  | nil => rfl
  | cons field rest ih => rw [List.foldl_cons, ih, addField_relocate, List.map_cons, List.foldl_cons]

theorem addAggregate_relocate (a : AggregateSymbol) :
    σ.symbols (s.addAggregate a) = (σ.symbols s).addAggregate (σ.aggregateSymbol a) := by
  simp only [addAggregate]
  rw [show (σ.aggregateSymbol a).fields = a.fields.map σ.fieldSymbol from rfl,
    show (σ.aggregateSymbol a).name = a.name from rfl, ← addFields_relocate]
  simp only [Relocation.symbols, Table.mapValues_insert,
    Table.mapKeys_insert Relocation.node_injective]
  rfl

end SymbolTables
end Symbols

namespace Context

variable {σ : Relocation} {c : Context} {u : Tree}

@[simp] theorem symbols_relocate : (σ.context c u).symbols = σ.symbols c.symbols := rfl

@[simp] theorem options_relocate : (σ.context c u).options = c.options := rfl

@[simp] theorem subst_relocate : (σ.context c u).subst = c.subst := rfl

@[simp] theorem space_relocate : (σ.context c u).space = c.space := rfl

@[simp] theorem function_relocate : (σ.context c u).function = c.function := rfl

@[simp] theorem program_relocate : (σ.context c u).program = c.program := rfl

@[simp] theorem pending_relocate : (σ.context c u).pending = c.pending := rfl

@[simp] theorem phase_relocate : (σ.context c u).phase = c.phase := rfl

@[simp] theorem instantiationDepth_relocate :
    (σ.context c u).instantiationDepth = c.instantiationDepth := rfl

@[simp] theorem nestingDepth_relocate : (σ.context c u).nestingDepth = c.nestingDepth := rfl

@[simp] theorem stringCount_relocate : (σ.context c u).stringCount = c.stringCount := rfl

@[simp] theorem layout_relocate : (σ.context c u).layout = c.layout := rfl

@[simp] theorem stateOf_relocate (id : NodeId) :
    (σ.context c u).stateOf (σ.node id) = c.stateOf id := by
  simp only [stateOf, Relocation.context, Table.get?_mapKeys Relocation.node_injective]

@[simp] theorem sizeOf?_relocate (type : SourceType) : (σ.context c u).sizeOf? type = c.sizeOf? type := by
  simp only [sizeOf?, symbols_relocate, options_relocate, SymbolTables.layoutSource_relocate]

@[simp] theorem qualify_relocate (name : String) : (σ.context c u).qualify name = c.qualify name := rfl

@[simp] theorem candidates_relocate (name : String) :
    (σ.context c u).candidates name = c.candidates name := rfl

@[simp] theorem localVar?_relocate (name : String) :
    (σ.context c u).localVar? name = c.localVar? name := rfl

@[simp] theorem localAlias?_relocate (name : String) :
    (σ.context c u).localAlias? name = c.localAlias? name := rfl

@[simp] theorem overloads?_relocate (name : String) :
    (σ.context c u).overloads? name = c.overloads? name := rfl

@[simp] theorem global?_relocate (name : String) :
    (σ.context c u).global? name = (c.global? name).map σ.globalSymbol := by
  rw [global?, candidates_relocate]
  change (c.candidates name).findSome? (c.symbols.globals.mapValues σ.globalSymbol).get? =
    ((c.candidates name).findSome? c.symbols.globals.get?).map σ.globalSymbol
  induction c.candidates name with
  | nil => rfl
  | cons candidate rest ih =>
    rw [List.findSome?_cons, List.findSome?_cons, Table.get?_mapValues]
    cases c.symbols.globals.get? candidate with
    | none => exact ih
    | some global => rfl

@[simp] theorem isVariable_relocate (name : String) :
    (σ.context c u).isVariable name = c.isVariable name := by
  simp only [isVariable, localVar?_relocate, global?_relocate, Option.isSome_map]

@[simp] theorem globalConst?_relocate (names : List String) :
    (σ.context c u).globalConst? names = c.globalConst? names := by
  induction names with
  | nil => rfl
  | cons name rest ih =>
    simp only [globalConst?, ih, symbols_relocate, SymbolTables.aliases_relocate,
      SymbolTables.get?_globals_relocate]
    rcases c.symbols.aliases.get? name with _ | type | value <;>
      cases c.symbols.globals.get? name <;> rfl

@[simp] theorem constant?_relocate (name : String) :
    (σ.context c u).constant? name = c.constant? name := by
  simp only [constant?, localVar?_relocate, localAlias?_relocate, candidates_relocate,
    globalConst?_relocate]
  rfl

@[simp] theorem valueAlias?_relocate (name : String) :
    (σ.context c u).valueAlias? name = c.valueAlias? name := rfl

@[simp] theorem aliasExists_relocate (name : String) :
    (σ.context c u).aliasExists name = c.aliasExists name := rfl

@[simp] theorem resolveFunction_relocate (name : String) (args : List SourceType) :
    (σ.context c u).resolveFunction name args = c.resolveFunction name args := by
  have hany : (σ.context c u).symbols.templates.contains = c.symbols.templates.contains :=
    funext fun _ => Table.contains_mapValues _ _ _
  have hpick : ∀ keys, (σ.context c u).symbols.pickOverload name keys args =
      c.symbols.pickOverload name keys args := fun _ => SymbolTables.pickOverload_relocate _ _ _
  simp only [resolveFunction, overloads?_relocate, candidates_relocate, hany, hpick]

/-- The first candidate at which a table of sites has an entry. -/
theorem findSome?_site_relocate (table : Table String DeclarationSite) (names : List String) :
    (names.findSome? fun name => ((table.mapValues σ.site).get? name).map (name, ·)) =
      (names.findSome? fun name => (table.get? name).map (name, ·)).map (Prod.map id σ.site) := by
  induction names with
  | nil => rfl
  | cons name rest ih =>
    rw [List.findSome?_cons, List.findSome?_cons, Table.get?_mapValues]
    cases table.get? name with
    | none => exact ih
    | some site => rfl

@[simp] theorem functionTemplate?_relocate (name : String) :
    (σ.context c u).functionTemplate? name =
      (c.functionTemplate? name).map (Prod.map id σ.site) :=
  findSome?_site_relocate _ _

@[simp] theorem aggregateTemplate?_relocate (name : String) :
    (σ.context c u).aggregateTemplate? name =
      (c.aggregateTemplate? name).map (Prod.map id σ.site) :=
  findSome?_site_relocate _ _

@[simp] theorem resolveNamed_relocate (name : String) :
    (σ.context c u).resolveNamed name = c.resolveNamed name := by
  have hnamed : (σ.context c u).namedAt name = c.namedAt name := by
    funext candidate
    have haggregates : (σ.context c u).symbols.knowsAggregate candidate =
        c.symbols.knowsAggregate candidate := SymbolTables.knowsAggregate_relocate candidate
    have htemplates : (σ.context c u).symbols.aggregateTemplates.contains candidate =
        c.symbols.aggregateTemplates.contains candidate := Table.contains_mapValues _ _ _
    simp only [namedAt, haggregates, htemplates]
    rfl
  simp only [resolveNamed, hnamed, localAlias?_relocate, candidates_relocate]
  rfl

end Context
end UnitCompiler
