import UnitCompiler.Proofs.Phases.Failures
import UnitCompiler.Proofs.Phases.Tables

/-!
# Runs keep the tables consistent

Every job leaves consistent tables behind, whether it succeeds or not.  A registered function is entered in all
tables at once; an aggregate is entered before its methods are, and its base is checked before it.
-/

namespace UnitCompiler

/-! ### Results of runs -/

/-- What holds of the context that a run leaves to later calls, and of its result if there is one. -/
def EndsWith {α : Type} (Q : Context → Prop) (R : α → Context → Prop) : EStateM.Result Stop Context α → Prop
  | .ok a c => Q c ∧ R a c
  | .error (.failed _) c => Q c
  | .error _ _ => True

namespace EndsWith

variable {Q : Context → Prop} {p : Performer} {α β : Type} {R R' : α → Context → Prop}
  {S : β → Context → Prop} {x : CompileM α} {f : α → CompileM β} {c : Context}

theorem endsIn {r : EStateM.Result Stop Context α} (h : EndsWith Q R r) : EndsIn Q r := by
  match r with
  | .ok _ _ => exact h.1
  | .error (.failed _) _ => exact h
  | .error .missingNode _ | .error .exhausted _ => trivial

theorem of_ok {a : α} {c' : Context} (h : EndsWith Q R (x p c)) (hrun : x p c = .ok a c') : R a c' := by
  rw [hrun] at h
  exact h.2

theorem bind (hx : EndsIn Q (x p c)) (hf : ∀ a c', x p c = .ok a c' → Q c' → EndsWith Q S (f a p c')) :
    EndsWith Q S ((x >>= f) p c) := by
  cases hrun : x p c with
  | ok a c' =>
    rw [CompileM.bind_of_eq_ok hrun]
    rw [hrun] at hx
    exact hf a c' hrun hx
  | error stop c' =>
    rw [CompileM.bind_of_eq_error hrun]
    rw [hrun] at hx
    cases stop with
    | failed error => exact hx
    | missingNode | exhausted => trivial

/-- An action behind a check that may fail. -/
theorem guard {q : Prop} [Decidable q] {location : Location} {problem : Problem} {y : CompileM β}
    (hc : Q c) (hy : EndsWith Q S (y p c)) : EndsWith Q S ((do
      if q then CompileM.bail location problem
      y : CompileM β) p c) := by
  split
  · exact hc
  · exact hy

/-- What is restored behind an action is restored however it ends. -/
theorem restoring {restore : Context → Context} (hx : EndsWith Q R (x p c)) (hQ : ∀ c', Q c' → Q (restore c'))
    (hR : ∀ a c', R a c' → R a (restore c')) : EndsWith Q R (CompileM.restoring x restore p c) := by
  unfold CompileM.restoring
  match x p c, hx with
  | .ok a c', hx => exact ⟨hQ c' hx.1, hR a c' hx.2⟩
  | .error (.failed _) c', hx => exact hQ c' hx
  | .error .missingNode _, _ | .error .exhausted _, _ => trivial

/-- A node is read before anything else is done. -/
theorem locate_kindOf {id : NodeId} {f : Location → NodeKind → CompileM β}
    (h : ∀ location kind, c.tree.HasKind id kind → EndsWith Q S (f location kind p c)) :
    EndsWith Q S ((do
      let location ← CompileM.locate id
      f location (← CompileM.kindOf id)) p c) := by
  cases hid : c.tree.node? id with
  | none =>
    rw [CompileM.bind_of_eq_error (CompileM.locate_of_none hid)]
    trivial
  | some node =>
    obtain ⟨location, hread⟩ := CompileM.locate_kindOf (c := c) ⟨node.span, hid⟩
    rw [hread]
    exact h location node.kind ⟨node.span, hid⟩

/-- A declaration is marked when it is looked at for the first time. -/
theorem beginCheck_bind {id : NodeId} {f : Bool → CompileM β}
    (hold : c.stateOf id ≠ .unchecked → EndsWith Q S (f false p c))
    (hnew : c.stateOf id = .unchecked →
      EndsWith Q S (f true p { c with states := c.states.insert id .checked })) :
    EndsWith Q S ((CompileM.beginCheck id >>= f) p c) := by
  by_cases hid : c.stateOf id = .unchecked
  · rw [CompileM.bind_of_eq_ok (CompileM.beginCheck_apply hid)]
    exact hnew hid
  · rw [CompileM.bind_of_eq_ok (CompileM.beginCheck_of_visited hid)]
    exact hold hid

end EndsWith

/-- The copy of an aggregate is an aggregate. -/
theorem Tree.exists_aggregate_of_copySubtree {t t' : Tree} {id copy : NodeId} {decl : AggregateDecl}
    (hkind : t.HasKind id (.aggregate decl)) (h : t.copySubtree id = .ok (copy, t')) :
    ∃ decl', t'.HasKind copy (.aggregate decl') := by
  obtain ⟨span, hnode⟩ := hkind
  rw [show t.copySubtree id = _ from copyWithin_of_some hnode] at h
  obtain ⟨kind, t₁, hkind, h⟩ := run_bind_eq_ok.mp h
  cases h
  have hblank := (run_children hkind).2
  have hcopy : ∃ decl', kind = .aggregate decl' := by
    cases kind <;> simp [NodeKind.blank] at hblank ⊢
  obtain ⟨decl', rfl⟩ := hcopy
  exact ⟨decl', span, (node?_push t₁ _ span _).trans (if_pos rfl)⟩

/-! ### Consistent contexts -/

namespace Context

/-- A context with consistent tables that can still register what it knows by name: only declarations that
were looked at have a key or a name, and an aggregate that was not can be registered under the name that it is
known by. -/
structure Consistent (c : Context) : Prop where
  tables : c.symbols.Consistent
  sound : c.Sound
  sites : ∀ {name site}, c.symbols.declaredAggregates.get? name = some site →
    c.stateOf site.decl = .unchecked → site.Names c.tree name

namespace Consistent

variable {c c' : Context} {s : SymbolTables}

theorem of_eq (h : c.Consistent) (hsymbols : c'.symbols = c.symbols) (hstates : c'.states = c.states)
    (htree : c.tree.Begins c'.tree) : c'.Consistent := by
  have hstate (id : NodeId) : c'.stateOf id = c.stateOf id := by rw [stateOf, hstates, stateOf]
  constructor
  · rw [hsymbols]
    exact h.tables
  · constructor
    · intro id key hkey
      rw [hsymbols] at hkey
      rw [hstate]
      exact h.sound.keys hkey
    · intro id name hname
      rw [hsymbols] at hname
      rw [hstate]
      exact h.sound.names hname
  · intro name site hsite hdecl
    rw [hsymbols] at hsite
    rw [hstate] at hdecl
    obtain ⟨decl, hkind, hrest⟩ := h.sites hsite hdecl
    exact ⟨decl, htree.hasKind hkind, hrest⟩

/-- A declaration was looked at. -/
theorem setState (h : c.Consistent) (id : NodeId) {state : NodeState} (hstate : state ≠ .unchecked) :
    { c with states := c.states.insert id state }.Consistent := by
  have hvisited {id' : NodeId} (hid' : { c with states := c.states.insert id state }.stateOf id' = .unchecked) :
      c.stateOf id' = .unchecked := by
    rw [Later.stateOf_insert] at hid'
    split_ifs at hid'
    · exact absurd hid' hstate
    · exact hid'
  exact {
    tables := h.tables
    sound := ⟨fun hkey hid => h.sound.keys hkey (hvisited hid), fun hname hid => h.sound.names hname (hvisited hid)⟩
    sites := fun hsite hdecl => h.sites hsite (hvisited hdecl) }

theorem markChecked (h : c.Consistent) (id : NodeId) :
    { c with states := c.states.insert id .checked }.Consistent :=
  h.setState id (by decide)

/-- Other tables in which no further declarations have a key or a name. -/
theorem setTables (h : c.Consistent) (hs : s.Consistent)
    (hkeys : ∀ {id}, c.stateOf id = .unchecked → s.declaredKeys.get? id = c.symbols.declaredKeys.get? id)
    (hnames : ∀ {id}, c.stateOf id = .unchecked → s.declaredNames.get? id = c.symbols.declaredNames.get? id)
    (hdeclared : s.declaredAggregates = c.symbols.declaredAggregates) : { c with symbols := s }.Consistent where
  tables := hs
  sound := by
    constructor
    · intro id key hkey hid
      exact h.sound.keys ((hkeys hid).symm.trans hkey) hid
    · intro id name hname hid
      exact h.sound.names ((hnames hid).symm.trans hname) hid
  sites := by
    change ∀ {name site}, s.declaredAggregates.get? name = some site → _
    rw [hdeclared]
    exact h.sites

/-- An aggregate becomes known by a name that it can be registered under, or was looked at before. -/
theorem declareAggregate (h : c.Consistent) {name : String} (site : DeclarationSite)
    (hsite : c.stateOf site.decl = .unchecked → site.Names c.tree name) :
    { c with symbols := { c.symbols with
      declaredAggregates := c.symbols.declaredAggregates.insert name site } }.Consistent where
  tables := h.tables.of_eq rfl rfl rfl rfl rfl rfl rfl rfl
  sound := ⟨h.sound.keys, h.sound.names⟩
  sites {name' site'} hsite' hdecl := by
    have hsite' := (Table.get?_insert _ _ _ _).symm.trans hsite'
    split_ifs at hsite' with heq
    · cases hsite'
      exact heq ▸ hsite hdecl
    · exact h.sites hsite' hdecl

end Consistent
end Context

/-! ### The discipline -/

/-- The runs under a performer that keep contexts consistent. -/
def consistentRuns (p : Performer) : Discipline where
  At x c := c.Consistent → EndsIn Context.Consistent (x p c)
  pure _ _ h := h
  throw stop _ h := by
    cases stop with
    | failed error => exact h
    | missingNode | exhausted => trivial
  bind hx hf h := EndsIn.bind (hx h) fun a c' _ => hf a c'
  get_bind h := h
  write {c c'} hwrote _ h := by
    change c'.Consistent
    rw [hwrote.same]
    exact h.of_eq rfl rfl (.refl _)
  postpone _ _ _ h := h.of_eq rfl rfl (.refl _)
  declareAggregate hsite h := h.declareAggregate _ fun _ => hsite
  copySubtree_modifyKind _ g _ hf _ h := EndsIn.copySubtree_bind fun copy _ htree hcopy =>
    hf copy _ (h.of_eq rfl rfl (htree.modifyKind hcopy g))
  within _ _ hx _ h := EndsIn.restoring (hx _ (h.of_eq rfl rfl (.refl _))) fun _ h => h.of_eq rfl rfl (.refl _)
  instantiating subst space location hx c h := by
    unfold CompileM.instantiating
    rw [CompileM.bind_of_eq_ok (CompileM.get_apply p c)]
    dsimp only
    split_ifs
    · exact h
    · exact EndsIn.restoring (EndsIn.restoring (hx _ (h.of_eq rfl rfl (.refl _)))
        fun _ h => h.of_eq rfl rfl (.refl _)) fun _ h => h.of_eq rfl rfl (.refl _)
  inSpace _ hx _ h := EndsIn.restoring (hx _ (h.of_eq rfl rfl (.refl _))) fun _ h => h.of_eq rfl rfl (.refl _)

/-- Every run of an action keeps contexts consistent. -/
def KeepsConsistent (p : Performer) {α : Type} (x : CompileM α) : Prop := (consistentRuns p).Holds x

/-- A key that a run gives is that of a registered function. -/
def IsKey (key : Option String) (c : Context) : Prop :=
  ∀ k ∈ key, c.symbols.functions.contains k = true

theorem IsKey.later {key : Option String} {c c' : Context} (h : IsKey key c) (hlater : c.Later c') :
    IsKey key c' := by
  intro k hk
  obtain ⟨f, hf⟩ := Table.contains_iff.mp (h k hk)
  exact Table.contains_of_get? (hlater.symbols.functions hf)

/-- A way to do every job that keeps contexts consistent; checking a function gives its key, and checking an
aggregate registers it, also where only the site of the aggregate itself was not yet in order. -/
class Performer.KeepsConsistent (p : Performer) : Prop where
  job : ∀ job : Job, UnitCompiler.KeepsConsistent p (CompileM.perform job)
  checkFunction : ∀ (id : NodeId) (owner : Option String) (isInstance : Bool) {c : Context}, c.Consistent →
    EndsWith Context.Consistent IsKey (CompileM.perform (.checkFunction id owner isInstance) p c)
  checkAggregate : ∀ {id : NodeId} {decl : AggregateDecl} {c : Context} (instanceName : Option String),
    c.tree.HasKind id (.aggregate decl) → (decl.isTemplate && instanceName.isNone) = false →
    c.stateOf id = .unchecked → c.Sound → { c with states := c.states.insert id .checked }.Consistent →
    EndsWith Context.Consistent
      (fun _ c' => c'.symbols.aggregates.contains (instanceName.getD (c.qualify decl.name)) = true)
      (CompileM.perform (.checkAggregate id instanceName) p c)

variable {p : Performer}

theorem KeepsConsistent.of_ok {α : Type} {x : CompileM α} {c c' : Context} {a : α}
    (hx : KeepsConsistent p x) (hc : c.Consistent) (hrun : x p c = .ok a c') : c'.Consistent :=
  EndsIn.of_ok (hx c hc) hrun

/-! ### Instances of aggregates -/

/-- An action in the environment of an instance, one level of instantiation deeper. -/
theorem EndsIn.instantiating {Q Q' : Context → Prop} {α : Type} {x : CompileM α} {c : Context}
    {subst : Substitution} {space : List String} {location : Location} (hc : Q' c)
    (hx : EndsIn Q (x p { c with instantiationDepth := c.instantiationDepth + 1, subst, space, function := none }))
    (h : ∀ c' subst space function instantiationDepth, Q c' →
      Q' { c' with subst, space, function, instantiationDepth }) :
    EndsIn Q' (CompileM.instantiating subst space location x p c) := by
  unfold CompileM.instantiating
  rw [CompileM.bind_of_eq_ok (CompileM.get_apply p c)]
  dsimp only
  split_ifs
  · exact hc
  · refine EndsIn.restoring (Q := fun c' => ∀ subst space function instantiationDepth,
      Q' { c' with subst, space, function, instantiationDepth }) ?_ fun c' h => h _ _ _ _
    exact EndsIn.restoring hx fun c' hc' _ _ _ _ => h c' _ _ _ _ hc'

namespace KeepsConsistent

open Discipline.Holds

variable {α : Type} {c : Context}

instance : (consistentRuns p).Defines where
  markEmitted _ _ h := h.setState _ (by decide)
  addType _ _ h := h.of_eq rfl rfl (.refl _)

section Jobs

variable [p.KeepsConsistent]

instance : (consistentRuns p).Calls where
  job job _ := Performer.KeepsConsistent.job job

/-- The copy of an aggregate is checked under the name of the instance.  Until it is marked it could not be
registered under this name. -/
theorem endsIn_checkCopy {relabel : NodeKind → NodeKind} {id copy : NodeId} {decl : AggregateDecl} {t : Tree}
    (hrelabel : ∀ decl, relabel (.aggregate decl) = .aggregate { decl with templateParams := [] })
    (hc : c.Consistent) (hkind : c.tree.HasKind id (.aggregate decl))
    (hcopy : c.tree.copySubtree id = .ok (copy, t)) (name : String) (space : List String) :
    EndsIn Context.Consistent ((do
      CompileM.modifyKind copy relabel
      CompileM.modifySymbols fun s => { s with declaredAggregates := s.declaredAggregates.insert name ⟨copy, space⟩ }
      discard (CompileM.perform (.checkAggregate copy (some name)))
      CompileM.scheduleAggregate name) p { c with tree := t }) := by
  obtain ⟨hbegins, hle⟩ := Tree.begins_of_copySubtree hcopy
  obtain ⟨decl', span, hnode⟩ := Tree.exists_aggregate_of_copySubtree hkind hcopy
  have hc₁ : { c with tree := t.modifyKind copy relabel }.Consistent :=
    hc.of_eq rfl rfl (hbegins.modifyKind hle relabel)
  have hkind₁ : (t.modifyKind copy relabel).HasKind copy (.aggregate { decl' with templateParams := [] }) := by
    refine ⟨span, ?_⟩
    rw [Tree.node?_modifyKind, if_pos rfl, hnode, Option.map_some, hrelabel]
  let e : Context := { c with
    tree := t.modifyKind copy relabel
    symbols := { c.symbols with declaredAggregates := c.symbols.declaredAggregates.insert name ⟨copy, space⟩ } }
  have hchecked : EndsIn Context.Consistent (CompileM.perform (.checkAggregate copy (some name)) p e) := by
    by_cases hnew : c.stateOf copy = .unchecked
    · have hmarked : { e with states := e.states.insert copy .checked }.Consistent :=
        (hc₁.markChecked copy).declareAggregate ⟨copy, space⟩ fun hid =>
          absurd hid (Context.stateOf_checked _ copy)
      exact (Performer.KeepsConsistent.checkAggregate (c := e) (some name) hkind₁ (by simp) hnew
        ⟨hc.sound.keys, hc.sound.names⟩ hmarked).endsIn
    · exact Performer.KeepsConsistent.job (.checkAggregate copy (some name)) e
        (hc₁.declareAggregate ⟨copy, space⟩ fun hid => absurd hid hnew)
  change EndsIn _ ((do
    discard (CompileM.perform (.checkAggregate copy (some name)))
    CompileM.scheduleAggregate name) p e)
  refine EndsIn.bind (hchecked.map _) fun _ c₂ _ hc₂ => ?_
  exact schedule (D := consistentRuns p) (fun c _ => job (.emitAggregate name) rfl c) (.aggregate name) c₂ hc₂

theorem endsIn_makeAggregate {site : DeclarationSite} {decl : AggregateDecl} (hc : c.Consistent)
    (hkind : c.tree.HasKind site.decl (.aggregate decl)) (name : String) :
    EndsIn Context.Consistent (CompileM.makeAggregate name site p c) := by
  refine EndsIn.copySubtree_bind_of_eq fun copy t hcopy => ?_
  refine endsIn_checkCopy ?_ hc hkind hcopy name site.space
  exact fun _ => rfl

theorem ensureInstance (name : String) (args : List TemplateArg) (location : Location) :
    KeepsConsistent p (CompileM.ensureInstance name args location) := by
  refine fun c => Discipline.get_bind _ ?_
  cases c.aggregateTemplate? name with
  | none => exact bail _ _ c
  | some found =>
    dsimp only
    split_ifs
    · exact pure _ c
    · exact bail _ _ c
    · refine at_kindOf fun kind hkind => ?_
      cases kind with
      | aggregate decl =>
        intro hc
        refine EndsIn.bind (orBail (D := consistentRuns p) _ _ c hc) fun subst c₁ hsubst _ => ?_
        obtain ⟨rfl, -⟩ := CompileM.orBail_eq_ok hsubst
        refine EndsIn.bind (Q := Context.Consistent) ?_ fun _ _ _ h => h
        have hinside : { c₁ with
            instantiationDepth := c₁.instantiationDepth + 1
            subst
            space := found.2.space
            function := none }.Consistent :=
          hc.of_eq rfl rfl (.refl _)
        exact EndsIn.instantiating hc (endsIn_makeAggregate hinside hkind _) fun _ _ _ _ _ h =>
          Context.Consistent.of_eq h rfl rfl (.refl _)
      | _ => exact bail _ _ c

instance : (consistentRuns p).Resolves where
  resolve job _ := Performer.KeepsConsistent.job job
  ensureInstance := ensureInstance

/-- Entries of tables that no other table repeats. -/
theorem endsIn_modifySymbols {s : SymbolTables} (hc : c.Consistent) (hs : s = { c.symbols with
      templates := s.templates
      aggregateTemplates := s.aggregateTemplates
      globals := s.globals
      aliases := s.aliases }) : { c with symbols := s }.Consistent := by
  rw [hs]
  exact hc.setTables (hc.tables.of_eq rfl rfl rfl rfl rfl rfl rfl rfl) (fun _ => rfl) (fun _ => rfl) rfl

instance : (consistentRuns p).Binds where
  markChecked _ hc := hc.markChecked _
  enterTemplate _ _ _ hc := endsIn_modifySymbols hc rfl
  enterAggregateTemplate _ _ _ hc := endsIn_modifySymbols hc rfl
  enterGlobal _ _ _ hc := endsIn_modifySymbols hc rfl
  enterAlias _ _ _ hc := endsIn_modifySymbols hc rfl
  checkNode id := Performer.KeepsConsistent.job (.checkNode id)

end Jobs

/-! ### Functions -/

/-- The keys of one table of operators, and a further one. -/
theorem contains_of_operators {functions : Table String FunctionSymbol}
    {operators : Table OperatorTag (Table String String)} {key : String} (hkey : functions.contains key = true)
    (h : ∀ tag operands key, (operators.get? tag).bind (·.get? operands) = some key →
      functions.contains key = true) (tag : OperatorTag) (operands : String) :
    ∀ tag' operands' key', ((operators.update tag {} (·.insert operands key)).get? tag').bind
      (·.get? operands') = some key' → functions.contains key' = true := by
  intro tag' operands' key' hkey'
  by_cases htag : tag = tag'
  · subst htag
    rw [Table.get?_update_self, Option.bind_some, Table.get?_insert] at hkey'
    split_ifs at hkey'
    · cases hkey'
      exact hkey
    · refine h tag operands' key' ?_
      cases hold : operators.get? tag with
      | none =>
        rw [hold] at hkey'
        cases hkey'
      | some t => simpa [hold] using hkey'
  · rw [Table.get?_update_of_ne _ _ _ htag] at hkey'
    exact h tag' operands' key' hkey'

/-- An operator is entered for a registered aggregate, or nothing is changed. -/
theorem enterOperator_cases (tag : OperatorTag) (owner : String) (f : FunctionSymbol) (location : Location)
    (p : Performer) (c : Context) :
    (∃ a, c.symbols.aggregates.get? owner = some a ∧
      CompileM.enterOperator tag owner f location p c = .ok () { c with symbols := { c.symbols with
        aggregates := c.symbols.aggregates.insert owner { a with
          operators := a.operators.update tag {}
            (·.insert (signature (f.params.map (operandType owner))) f.key) } } }) ∨
    ∃ error, CompileM.enterOperator tag owner f location p c = .error (.failed error) c := by
  unfold CompileM.enterOperator
  rw [CompileM.bind_of_eq_ok (CompileM.get_apply p c)]
  cases ha : c.symbols.aggregates.get? owner with
  | none => exact .inr ⟨_, rfl⟩
  | some a =>
    dsimp only
    split_ifs
    · exact .inr ⟨_, rfl⟩
    · exact .inl ⟨a, rfl, rfl⟩

/-- A new function is entered into all tables at once. -/
theorem endsWith_register {f : FunctionSymbol} (hc : c.Consistent) (hvisited : c.stateOf f.decl ≠ .unchecked)
    (hfresh : c.symbols.declaredKeys.get? f.decl = none) (hnew : c.symbols.functions.get? f.key = none)
    (hkey : f.key = functionKey f.name f.params) (decl : FunctionDecl) (owner : Option String) (location : Location) :
    EndsWith Context.Consistent (fun _ c' => c'.symbols.functions.contains f.key = true)
      (CompileM.register decl owner f location p c) := by
  have hadded := hc.tables.addFunction hnew hfresh hkey
  have hf : (c.symbols.addFunction f).functions.get? f.key = some f := Table.get?_insert_self _ _ _
  have henter {s : SymbolTables} (hs : s.Consistent)
      (hfunctions : s.functions = (c.symbols.addFunction f).functions)
      (hkeys : s.declaredKeys = c.symbols.declaredKeys.insert f.decl f.key)
      (hnames : s.declaredNames = c.symbols.declaredNames)
      (hdeclared : s.declaredAggregates = c.symbols.declaredAggregates) :
      { c with symbols := s }.Consistent ∧ s.functions.contains f.key = true := by
    refine ⟨hc.setTables hs (fun {id} hid => ?_) (fun _ => by rw [hnames]) hdeclared, ?_⟩
    · rw [hkeys, Table.get?_insert_of_ne]
      rintro rfl
      exact hvisited hid
    · rw [hfunctions]
      exact Table.contains_of_get? hf
  have hmethod (owner : String) (howner : f.owner = some owner) :
      EndsWith Context.Consistent (fun _ c' => c'.symbols.functions.contains f.key = true) ((do
        CompileM.modifySymbols (·.addMethod owner decl.name f.key)
        CompileM.modifySymbols (·.addFunction f)) p c) :=
    henter (hadded.addMethod hf howner decl.name) rfl rfl rfl rfl
  have halone : EndsWith Context.Consistent (fun _ c' => c'.symbols.functions.contains f.key = true)
      (CompileM.modifySymbols (·.addFunction f) p c) :=
    henter hadded rfl rfl rfl rfl
  unfold CompileM.register
  cases owner with
  | none =>
    cases howner : f.owner with
    | none => exact halone
    | some owner => exact hmethod owner howner
  | some owner =>
    cases decl.operator with
    | none =>
      cases howner : f.owner with
      | none => exact halone
      | some owner => exact hmethod owner howner
    | some tag =>
      rcases enterOperator_cases tag owner f location p c with ⟨a, ha, hrun⟩ | ⟨error, hrun⟩
      · have hdescribes : (c.symbols.addFunction f).Describes owner a := hadded.aggregates ha
        have hoperators := contains_of_operators (Table.contains_of_get? hf)
          (fun _ _ _ hkey => hdescribes.operators hkey) tag (signature (f.params.map (operandType owner)))
        dsimp only
        rw [CompileM.bind_of_eq_ok hrun]
        exact henter (hadded.setAggregate ha hoperators hdescribes.methods) rfl rfl rfl rfl
      · dsimp only
        rw [CompileM.bind_of_eq_error hrun]
        exact hc

/-- The key of a function is made of its name and its parameters. -/
theorem yields_key (id : NodeId) (decl : FunctionDecl) (owner : Option String) (isInstance : Bool)
    (location : Location) : Yields p (fun f => f.key = functionKey f.name f.params)
      (CompileM.functionSymbol id decl owner isInstance location) := by
  unfold CompileM.functionSymbol
  generalize (if decl.isConstructor = true then owner else none) = constructorOf
  refine .bind fun params => ?_
  cases constructorOf with
  | some constructed =>
    refine .bind fun ret => .bind fun c => .ite ?_ (.pure rfl)
    cases owner with
    | none => exact .bind fun _ => .pure rfl
    | some owner => exact .ite (.bind fun _ => .pure rfl) (.pure rfl)
  | none =>
    refine .bind fun ret => .bind fun c => .ite ?_ (.pure rfl)
    cases owner with
    | none => exact .bind fun _ => .pure rfl
    | some owner => exact .ite (.bind fun _ => .pure rfl) (.pure rfl)

section Registration

variable [p.KeepsConsistent] [p.Leads]

theorem endsWith_checkFunction (hc : c.Consistent) (id : NodeId) (owner : Option String) (isInstance : Bool) :
    EndsWith Context.Consistent IsKey (CompileM.checkFunction id owner isInstance p c) := by
  refine EndsWith.locate_kindOf fun location kind hkind => ?_
  cases kind with
  | function decl =>
    refine EndsWith.beginCheck_bind (fun _ => ⟨hc, fun _ => hc.tables.declaredKeys⟩) fun hid => ?_
    have hmarked := hc.markChecked id
    have hvisited := Context.stateOf_checked c id
    set c₁ : Context := { c with states := c.states.insert id .checked }
    rw [if_neg (by decide)]
    by_cases htemplate : decl.isTemplate
    · rw [if_pos htemplate]
      exact EndsWith.bind (registerTemplate (D := consistentRuns p) id decl owner location c₁ hmarked)
        fun _ _ _ h => ⟨h, nofun⟩
    rw [if_neg htemplate]
    -- A method first has its owner's name tested; what follows is the same for every function.
    rcases owner with _ | owner
    on_goal 2 => refine EndsWith.guard hmarked (EndsWith.guard hmarked ?_)
    all_goals
      refine EndsWith.bind (functionSymbol (D := consistentRuns p) id decl _ isInstance location c₁ hmarked)
        fun f c₂ hf h₂ => ?_
      obtain ⟨rfl, -⟩ := Yields.functionSymbol id decl _ isInstance location _ _ _ hf
      have hkey := yields_key _ decl _ isInstance location _ _ _ hf
      have hlater := EndsIn.of_ok (Leads.run (functionSymbol (D := laterRuns p) _ decl _ isInstance location) c₁) hf
      have hvisited₂ := hlater.ne_unchecked hvisited
      have hfresh := (hlater.keys hvisited).trans (hc.sound.key_eq_none hid)
      rw [CompileM.bind_of_eq_ok (CompileM.get_apply p c₂)]
      cases hexisting : c₂.symbols.functions.get? f.key with
      | none =>
        have hregister := endsWith_register (p := p) h₂ hvisited₂ hfresh hexisting hkey decl
        refine EndsWith.bind (hregister _ location).endsIn fun _ c₃ hrun h₃ => ⟨h₃, ?_⟩
        rintro _ ⟨⟩
        exact (hregister _ location).of_ok hrun
      | some existing =>
        dsimp only
        split_ifs
        · exact EndsWith.bind (locate (D := consistentRuns p) existing.decl c₂ h₂) fun _ _ _ h => h
        · have hcontains := Table.contains_of_get? hexisting
          refine ⟨h₂.setTables (h₂.tables.declareKey hcontains hfresh) (fun {id} hid => ?_) (fun _ => rfl) rfl, ?_⟩
          · rw [Table.get?_insert_of_ne]
            rintro rfl
            exact hvisited₂ hid
          · rintro _ ⟨⟩
            exact hcontains
  | _ => exact hc

theorem checkFunction (id : NodeId) (owner : Option String) (isInstance : Bool) :
    KeepsConsistent p (CompileM.checkFunction id owner isInstance) :=
  fun _ hc => (endsWith_checkFunction hc id owner isInstance).endsIn

/-! ### Aggregates -/

omit [p.KeepsConsistent] [p.Leads] in
/-- The keys that are given one after the other are those of registered functions in the end. -/
theorem endsWith_filterMapM {β : Type} {g : β → CompileM (Option String)} (hleads : ∀ b, Leads p (g b))
    (hg : ∀ b {c : Context}, c.Consistent → EndsWith Context.Consistent IsKey (g b p c)) (items : List β)
    {c : Context} (hc : c.Consistent) :
    EndsWith Context.Consistent (fun keys c' => ∀ key ∈ keys, IsKey (some key) c')
      (items.filterMapM g p c) := by
  induction items generalizing c with
  | nil => exact ⟨hc, nofun⟩
  | cons b rest ih =>
    rw [List.filterMapM_cons]
    refine EndsWith.bind (hg b hc).endsIn fun key c₁ hrun h₁ => ?_
    have hkey := (hg b hc).of_ok hrun
    cases key with
    | none => exact ih h₁
    | some key =>
      refine EndsWith.bind (ih h₁).endsIn fun keys c₂ hrest h₂ => ⟨h₂, ?_⟩
      have hlater := EndsIn.of_ok (Leads.run (filterMapM hleads) c₁) hrest
      exact List.forall_mem_cons.mpr ⟨hkey.later hlater, (ih h₁).of_ok hrest⟩

theorem endsWith_inheritMethod (hc : c.Consistent) (name : String) (base : AggregateSymbol) (method : NodeId) :
    EndsWith Context.Consistent IsKey (CompileM.inheritMethod name base method p c) := by
  have hcopy : EndsIn Context.Consistent (CompileM.copySubtree method p c) := by
    rw [← bind_pure (CompileM.copySubtree method)]
    exact EndsIn.copySubtree_bind fun _ _ hbegins _ => hc.of_eq rfl rfl hbegins
  refine EndsWith.bind hcopy fun copy c₁ _ h₁ => ?_
  have hinside : { c₁ with subst := base.subst, space := base.space, function := none }.Consistent :=
    h₁.of_eq rfl rfl (.refl _)
  exact EndsWith.restoring (endsWith_checkFunction hinside copy (some name) true)
    (fun _ h => h.of_eq rfl rfl (.refl _)) fun _ _ h => h

theorem endsWith_inheritMethods (hc : c.Consistent) (name base : String) (decl : AggregateDecl) :
    EndsWith Context.Consistent (fun keys c' => ∀ key ∈ keys, IsKey (some key) c')
      (CompileM.inheritMethods name base decl p c) := by
  unfold CompileM.inheritMethods
  have hread : KeepsConsistent p (decl.methods.filterMapM fun id =>
      return (← CompileM.functionDecl? id).map (·.name)) :=
    filterMapM fun id => (functionDecl? id).bind fun _ => pure _
  refine EndsWith.bind (hread c hc) fun own c₁ _ h₁ => ?_
  rw [CompileM.bind_of_eq_ok (CompileM.get_apply p c₁)]
  cases c₁.symbols.aggregates.get? base with
  | none => exact ⟨h₁, nofun⟩
  | some symbol =>
    dsimp only
    rw [CompileM.bind_of_eq_ok (CompileM.get_apply p c₁)]
    have hselect {f : FunctionSymbol → Option FunctionDecl → Option NodeId} (methods : List FunctionSymbol) :
        KeepsConsistent p (methods.filterMapM fun m => return f m (← CompileM.functionDecl? m.decl)) :=
      filterMapM fun m => (functionDecl? m.decl).bind fun _ => pure _
    refine EndsWith.bind (hselect _ c₁ h₁) fun methods c₂ _ h₂ => ?_
    exact endsWith_filterMapM (Leads.inheritMethod name symbol) (fun method _ hc =>
      endsWith_inheritMethod hc name symbol method) methods h₂

omit [p.Leads] in
/-- An aggregate that is checked on demand is registered afterwards. -/
theorem contains_of_ensureChecked {name : String} {location : Location} {c' : Context} (hc : c.Consistent)
    (h : CompileM.ensureChecked name location p c = .ok () c') : c'.symbols.aggregates.contains name = true := by
  unfold CompileM.ensureChecked at h
  rw [CompileM.bind_of_eq_ok (CompileM.get_apply p c)] at h
  split_ifs at h with hknown
  · cases h
    exact hknown
  cases hsite : c.symbols.declaredAggregates.get? name with
  | none =>
    rw [hsite] at h
    cases h
  | some site =>
    rw [hsite] at h
    obtain ⟨hnew, h⟩ := CompileM.guard_passes h
    have hnew : c.stateOf site.decl = .unchecked := not_not.mp hnew
    obtain ⟨c₁, hrun, rfl⟩ := CompileM.within_eq_ok.mp h
    obtain ⟨r, hrun, -⟩ := CompileM.map_eq_ok.mp hrun
    obtain ⟨decl, hkind, htemplate, hname⟩ := hc.sites hsite hnew
    let e : Context := { c with subst := {}, space := site.space, function := none }
    have he : { e with states := e.states.insert site.decl .checked }.Consistent :=
      (hc.markChecked site.decl).of_eq rfl rfl (.refl _)
    have hregistered := (Performer.KeepsConsistent.checkAggregate (c := e) none hkind (by rw [htemplate]; rfl) hnew
      ⟨hc.sound.keys, hc.sound.names⟩ he).of_ok hrun
    exact hname ▸ hregistered

omit [p.Leads] in
/-- The base of an aggregate is registered before it. -/
theorem contains_of_resolveBase {name : String} {decl : AggregateDecl} {location : Location}
    {base : Option String} {c' : Context} (hc : c.Consistent)
    (h : CompileM.resolveBase name decl location p c = .ok base c') :
    ∀ b ∈ base, c'.symbols.aggregates.contains b = true := by
  unfold CompileM.resolveBase at h
  cases hdecl : decl.base with
  | none =>
    rw [hdecl] at h
    cases h
    nofun
  | some parent =>
    rw [hdecl] at h
    obtain ⟨type, c₁, htype, h⟩ := CompileM.bind_eq_ok.mp h
    have h₁ := KeepsConsistent.of_ok (resolveType parent location) hc htype
    cases hname : type.aggregateName? with
    | none =>
      rw [hname] at h
      cases h
    | some b =>
      rw [hname] at h
      obtain ⟨-, h⟩ := CompileM.guard_passes h
      obtain ⟨⟨⟩, c₂, hchecked, h⟩ := CompileM.bind_eq_ok.mp h
      cases h
      rintro _ ⟨⟩
      exact contains_of_ensureChecked h₁ hchecked

omit [p.KeepsConsistent] [p.Leads] in
/-- The fields that an aggregate declares have different names, none of those before them. -/
theorem names_of_resolveFields {owner : String} {location : Location} {fields : List FieldDecl}
    {seen : List String} {symbols : List FieldSymbol} {c' : Context}
    (h : CompileM.resolveFields owner location fields seen p c = .ok symbols c') :
    symbols.map (·.name) = fields.map (·.name) ∧ (fields.map (·.name)).Nodup ∧
      ∀ name ∈ seen, name ∉ fields.map (·.name) := by
  induction fields generalizing seen symbols c with
  | nil =>
    cases h
    exact ⟨rfl, .nil, fun _ _ => nofun⟩
  | cons field rest ih =>
    unfold CompileM.resolveFields at h
    obtain ⟨hfresh, h⟩ := CompileM.guard_passes h
    obtain ⟨type, c₁, -, h⟩ := CompileM.bind_eq_ok.mp h
    obtain ⟨-, h⟩ := CompileM.guard_passes h
    obtain ⟨-, h⟩ := CompileM.guard_passes h
    obtain ⟨others, c₂, hrest, h⟩ := CompileM.bind_eq_ok.mp h
    cases h
    obtain ⟨hnames, hnodup, hseen⟩ := ih hrest
    refine ⟨by simp [hnames], List.nodup_cons.mpr ⟨hseen _ List.mem_cons_self, hnodup⟩, fun name hname => ?_⟩
    simp only [List.map_cons, List.mem_cons, not_or]
    refine ⟨?_, hseen name (List.mem_cons_of_mem _ hname)⟩
    rintro rfl
    exact hfresh (by simpa using hname)

omit [p.KeepsConsistent] [p.Leads] in
/-- The fields of an aggregate have different names and are numbered in their order. -/
theorem fields_of_collectFields {name : String} {decl : AggregateDecl} {base : Option String}
    {location : Location} {fields : List FieldSymbol} {c' : Context} (hc : c.Consistent)
    (h : CompileM.collectFields name decl base location p c = .ok fields c') :
    (fields.map (·.name)).Nodup ∧
      ∀ (i : Nat) (field : FieldSymbol), fields[i]? = some field → field.index = i := by
  unfold CompileM.collectFields at h
  rw [CompileM.bind_of_eq_ok (CompileM.get_apply p c)] at h
  obtain ⟨own, c₁, hown, h⟩ := CompileM.bind_eq_ok.mp h
  cases h
  obtain ⟨hnames, hnodup, -⟩ := names_of_resolveFields hown
  refine ⟨?_, fun i field => index_of_numberFields⟩
  rw [names_numberFields, List.map_append, List.nodup_append]
  have hinherited : ((((base.bind c.symbols.aggregates.get?).map (·.fields)).getD []).map (·.name)).Nodup := by
    cases hbase : base.bind c.symbols.aggregates.get? with
    | none => exact .nil
    | some a =>
      obtain ⟨b, -, ha⟩ := Option.bind_eq_some_iff.mp hbase
      exact (hc.tables.aggregates ha).nodup
  refine ⟨hinherited.sublist (List.filter_sublist.map _), hnames ▸ hnodup, ?_⟩
  rintro _ hkept field hfield rfl
  obtain ⟨inherited, hinherited, hname⟩ := List.mem_map.mp hkept
  have hkept := (List.mem_filter.mp hinherited).2
  rw [hnames] at hfield
  obtain ⟨d, hd, hsame⟩ := List.mem_map.mp hfield
  have hdeclared : decl.fields.any (·.name == inherited.name) = true :=
    List.any_eq_true.mpr ⟨d, hd, beq_iff_eq.mpr (hsame.trans hname.symm)⟩
  rw [hdeclared] at hkept
  cases hkept

omit [p.KeepsConsistent] [p.Leads] in
theorem contains_of_retains {s s' : SymbolTables} {name : String} (h : s.aggregates.contains name = true)
    (hretains : s.Retains s') : s'.aggregates.contains name = true := by
  obtain ⟨_, ha⟩ := Table.contains_iff.mp h
  obtain ⟨_, ha⟩ := hretains.aggregates ha
  exact Table.contains_of_get? ha

omit [p.KeepsConsistent] [p.Leads] in
/-- An aggregate is entered for a declaration that had no name so far. -/
theorem consistent_addAggregate {a : AggregateSymbol} (hc : c.Consistent)
    (hvisited : c.stateOf a.decl ≠ .unchecked) (hs : (c.symbols.addAggregate a).Consistent) :
    { c with symbols := c.symbols.addAggregate a }.Consistent ∧
      (c.symbols.addAggregate a).aggregates.contains a.name = true := by
  have heq := c.symbols.addAggregate_eq a
  refine ⟨hc.setTables hs (fun _ => by rw [heq]) (fun {id} hid => ?_) (by rw [heq]), ?_⟩
  · rw [SymbolTables.declaredNames_addAggregate, if_neg]
    rintro rfl
    exact hvisited hid
  · rw [heq]
    exact Table.contains_insert_self _ _ _

omit [p.KeepsConsistent] [p.Leads] in
/-- In the end the aggregate gets the keys of its methods. -/
theorem endsWith_setMethods {name : String} {keys : List String} (hc : c.Consistent)
    (hregistered : c.symbols.aggregates.contains name = true) (hkeys : ∀ key ∈ keys, IsKey (some key) c) :
    EndsWith Context.Consistent (fun _ c' => c'.symbols.aggregates.contains name = true) ((do
      if let some symbol := (← get).symbols.aggregates.get? name then
        CompileM.modifySymbols fun s =>
          { s with aggregates := s.aggregates.insert name { symbol with methods := keys } } :
      CompileM Unit) p c) := by
  rw [CompileM.bind_of_eq_ok (CompileM.get_apply p c)]
  obtain ⟨symbol, hsymbol⟩ := Table.contains_iff.mp hregistered
  rw [hsymbol]
  have hdescribes := hc.tables.aggregates hsymbol
  have hset := hc.tables.setAggregate hsymbol (fun _ _ _ hkey => hdescribes.operators hkey)
    fun key hkey => hkeys key hkey key rfl
  exact ⟨hc.setTables hset (fun _ => rfl) (fun _ => rfl) rfl, Table.contains_insert_self _ _ _⟩

/-- An aggregate is registered behind its base, and its methods behind it. -/
theorem endsWith_registerAggregate [p.Retains] {id : NodeId} (hc : c.Consistent)
    (hvisited : c.stateOf id ≠ .unchecked) (hfresh : c.symbols.declaredNames.get? id = none) (name : String)
    (decl : AggregateDecl) (isInstance : Bool) (location : Location) :
    EndsWith Context.Consistent (fun _ c' => c'.symbols.aggregates.contains name = true)
      (CompileM.registerAggregate id name decl isInstance location p c) := by
  unfold CompileM.registerAggregate
  rw [CompileM.bind_of_eq_ok (CompileM.get_apply p c)]
  cases c.symbols.aggregates.get? name with
  | some existing =>
    exact EndsWith.bind (locate (D := consistentRuns p) existing.decl c hc) fun _ _ _ h => h
  | none =>
    refine EndsWith.bind (resolveBase (D := consistentRuns p) name decl location c hc) fun base c₁ hrun₁ h₁ => ?_
    have hbase := contains_of_resolveBase hc hrun₁
    have hlater₁ := EndsIn.of_ok (Leads.run (resolveBase (D := laterRuns p) name decl location) c) hrun₁
    refine EndsWith.bind (collectFields (D := consistentRuns p) name decl base location c₁ h₁)
      fun fields c₂ hrun₂ h₂ => ?_
    obtain ⟨hnodup, hindices⟩ := fields_of_collectFields h₁ hrun₂
    have hlater₂ := hlater₁.trans
      (EndsIn.of_ok (Leads.run (collectFields (D := laterRuns p) name decl base location) c₁) hrun₂)
    have hretains₂ := Retaining.of_ok (collectFields (D := retainingRuns p) name decl base location) hrun₂
    rw [CompileM.bind_of_eq_ok (CompileM.get_apply p c₂)]
    let a : AggregateSymbol := { decl := id, name, fields, base, isInstance, space := c₂.space, subst := c₂.subst }
    obtain ⟨hadded, hregistered⟩ := consistent_addAggregate (a := a) h₂ (hlater₂.ne_unchecked hvisited)
      (h₂.tables.addAggregate ((hlater₂.names hvisited).trans hfresh) rfl rfl hnodup hindices fun b hb =>
        contains_of_retains (hbase b hb) hretains₂)
    refine EndsWith.bind (x := CompileM.modifySymbols (·.addAggregate a)) hadded fun _ c₃ hrun₃ h₃ => ?_
    obtain rfl : { c₂ with symbols := c₂.symbols.addAggregate a } = c₃ := by
      cases hrun₃
      rfl
    -- What follows enters the methods, and the aggregate stays registered.
    have hchecked := endsWith_filterMapM (fun method => Leads.checkFunction (p := p) method (some name) isInstance)
      (fun method _ hc => endsWith_checkFunction hc method (some name) isInstance) decl.methods h₃
    refine EndsWith.bind hchecked.endsIn fun own c₄ hrun₄ h₄ => ?_
    have hown := hchecked.of_ok hrun₄
    have hregistered₄ := contains_of_retains hregistered
      (Retaining.of_ok (filterMapM (D := retainingRuns p) fun method =>
        Discipline.Holds.checkFunction method (some name) isInstance) hrun₄)
    cases base with
    | none => exact endsWith_setMethods h₄ hregistered₄ (by simpa using hown)
    | some base =>
      have hinherits := endsWith_inheritMethods (p := p) h₄ name base decl
      refine EndsWith.bind hinherits.endsIn fun inherited c₅ hrun₅ h₅ => ?_
      have hinherited := hinherits.of_ok hrun₅
      have hlater := EndsIn.of_ok (Leads.run (Leads.inheritMethods (p := p) name base decl) c₄) hrun₅
      have hretains := Retaining.of_ok (Discipline.Holds.inheritMethods (D := retainingRuns p) name base decl) hrun₅
      exact endsWith_setMethods h₅ (contains_of_retains hregistered₄ hretains) fun key hkey =>
        (List.mem_append.mp hkey).elim (fun hmem => (hown key hmem).later hlater) (hinherited key)

/-- An aggregate that was not looked at before is registered under its name. -/
theorem endsWith_checkAggregate [p.Retains] {id : NodeId} {decl : AggregateDecl} (instanceName : Option String)
    (hkind : c.tree.HasKind id (.aggregate decl)) (hsingle : (decl.isTemplate && instanceName.isNone) = false)
    (hnew : c.stateOf id = .unchecked) (hsound : c.Sound)
    (hmarked : { c with states := c.states.insert id .checked }.Consistent) :
    EndsWith Context.Consistent
      (fun _ c' => c'.symbols.aggregates.contains (instanceName.getD (c.qualify decl.name)) = true)
      (CompileM.checkAggregate id instanceName p c) := by
  obtain ⟨location, hread⟩ := CompileM.locate_kindOf hkind
  unfold CompileM.checkAggregate
  rw [hread]
  refine EndsWith.beginCheck_bind (absurd hnew) fun _ => ?_
  rw [if_neg (by decide), if_neg (by rw [hsingle]; decide), CompileM.bind_of_eq_ok (CompileM.get_apply p _)]
  have hregister := endsWith_registerAggregate (p := p) hmarked (Context.stateOf_checked c id)
    (hsound.name_eq_none hnew) (instanceName.getD (c.qualify decl.name)) decl instanceName.isSome location
  exact EndsWith.bind hregister.endsIn fun _ _ hrun h => ⟨h, hregister.of_ok hrun⟩

theorem checkAggregate [p.Retains] (id : NodeId) (instanceName : Option String) :
    KeepsConsistent p (CompileM.checkAggregate id instanceName) := by
  refine fun c hc => EndsIn.locate_kindOf fun location kind hkind hread => ?_
  cases kind with
  | aggregate decl =>
    have hmarked := hc.markChecked id
    by_cases hregisters : c.stateOf id = .unchecked ∧ (decl.isTemplate && instanceName.isNone) = false
    · rw [← hread]
      exact (endsWith_checkAggregate instanceName hkind hregisters.2 hregisters.1 hc.sound hmarked).endsIn
    · refine (EndsWith.beginCheck_bind (S := fun _ _ => True) (fun _ => ?_) fun hnew => ?_).endsIn
      · exact ⟨hc, trivial⟩
      have htemplate : (decl.isTemplate && instanceName.isNone) = true := by
        simpa [hnew] using hregisters
      rw [if_neg (by decide), if_pos htemplate]
      exact EndsWith.bind (registerAggregateTemplate (D := consistentRuns p) id decl location _ hmarked)
        fun _ _ _ h => ⟨h, trivial⟩
  | _ => exact hc

/-! ### Emission -/

omit [p.Leads] in
/-- The instance of a function template is entered under the key that its check gave. -/
theorem makeFunction (name : String) (site : DeclarationSite) (location : Location) :
    KeepsConsistent p (CompileM.makeFunction name site location) := by
  refine makeFunction_of_enters (D := consistentRuns p) (fun copy c hc => ?_) site
  have hcheck := Performer.KeepsConsistent.checkFunction (p := p) copy none true hc
  refine EndsIn.bind hcheck.endsIn fun key c₁ hrun h₁ => ?_
  have hkey := hcheck.of_ok hrun
  cases key with
  | none => exact h₁
  | some key =>
    have hentered : { c₁ with
        symbols := { c₁.symbols with instances := c₁.symbols.instances.insert name key } }.Consistent :=
      h₁.setTables (h₁.tables.enterInstance (hkey key rfl) name) (fun _ => rfl) (fun _ => rfl) rfl
    refine EndsIn.bind (Q := Context.Consistent) (x := CompileM.modifySymbols fun s =>
      { s with instances := s.instances.insert name key }) hentered fun _ c₂ _ h₂ => ?_
    exact EndsIn.bind (scheduleFunction (D := consistentRuns p) key c₂ h₂) fun _ _ _ h => h

omit [p.KeepsConsistent] [p.Leads] in
instance : (consistentRuns p).Writes where
  write {c c'} hwrote hc := by
    change c'.Consistent
    rw [hwrote.same]
    exact hc.of_eq rfl rfl (.refl _)

instance : (consistentRuns p).Emits where
  inFunction job _ := Performer.KeepsConsistent.job job
  instantiateFunction _ _ _ := instantiateFunction_of_makeFunction fun _ _ _ _ =>
    Discipline.Holds.instantiating (makeFunction _ _ _)
  setNesting _ _ hc := hc.of_eq rfl rfl (.refl _)

omit [p.KeepsConsistent] [p.Leads] in
/-- An action that may begin a function. -/
theorem of_opens {x : CompileM α} (hx : (consistentRuns p).Opens x) : KeepsConsistent p x := by
  intro c hc
  induction hx generalizing c with
  | before hx => exact hx c hc
  | bind hx _ ih => exact EndsIn.bind (hx c hc) fun a c' _ hc' => ih a c' hc'
  | start f hx =>
    have hstarted : { c with function := some f }.Consistent := hc.of_eq rfl rfl (.refl _)
    exact EndsIn.bind (Q := Context.Consistent) (x := CompileM.setFunctionState f) hstarted fun _ c' _ => hx c'

theorem work [p.Retains] (job : Job) : KeepsConsistent p job.work := by
  cases job with
  | collect id space => exact collect id space
  | fold id => exact foldNode id
  | checkNode id => exact checkNode_of_checks (checkFunction · none false) (checkAggregate · none) id
  | checkFunction id owner isInstance => exact checkFunction id owner isInstance
  | checkAggregate id instanceName => exact checkAggregate id instanceName
  | complete type location => exact complete type location
  | needsDefaults type location => exact needsDefaults type location
  | applyDefaults type slot skipped location => exact applyDefaults type slot skipped location
  | emitDeclaration id => exact emitDeclaration id
  | emitFunction key =>
    exact emitFunction (fun f => within (of_opens (Discipline.opens_emitSymbol f))) key
  | emitAggregate name => exact emitAggregate name
  | emitPending => exact emitPending_of_drain fun _ hc => hc.of_eq rfl rfl (.refl _)
  | emitExpr id => exact emitExpr id
  | emitPlace id => exact emitPlace id
  | emitStmt id => exact emitStmt id

end Registration
end KeepsConsistent

/-- Whatever work is done, it keeps contexts consistent. -/
theorem KeepsConsistent.performWithin (depth : Nat) : (UnitCompiler.performWithin depth).KeepsConsistent := by
  induction depth with
  | zero => exact ⟨fun _ _ _ => trivial, fun _ _ _ _ _ => trivial, fun _ _ _ _ _ _ => trivial⟩
  | succ depth ih =>
    have hleads := Leads.performWithin depth
    exact ⟨KeepsConsistent.work, fun id owner isInstance _ hc => endsWith_checkFunction hc id owner isInstance,
      fun instanceName hkind hsingle hnew hsound hmarked =>
        endsWith_checkAggregate instanceName hkind hsingle hnew hsound hmarked⟩

/-! ### Contexts of all calls -/

namespace Context

/-- The contexts that calls of the phases and resets lead to, from a new one on. -/
inductive IsReached (tree : Tree) (options : CompileOptions) : Context → Prop
  | new : IsReached tree options (.new tree options)
  | check {c c' : Context} (roots : List NodeId) :
    IsReached tree options c → EndsAt (c.check roots) c' → IsReached tree options c'
  | emit {c c' : Context} (roots : List NodeId) :
    IsReached tree options c → EndsAt (c.emit roots) c' → IsReached tree options c'
  | reset {c : Context} : IsReached tree options c → IsReached tree options c.reset

variable {tree : Tree} {options : CompileOptions} {c : Context}

theorem consistent_new (tree : Tree) (options : CompileOptions) : (Context.new tree options).Consistent where
  tables := .empty
  sound := ⟨nofun, nofun⟩
  sites := nofun

theorem Consistent.check (hc : c.Consistent) (roots : List NodeId) :
    EndsIn Context.Consistent (c.check roots) := by
  have hkeeps := KeepsConsistent.performWithin c.jobDepth
  exact Discipline.Holds.checking (D := consistentRuns _) roots _ (hc.of_eq rfl rfl (.refl _))

theorem Consistent.emit (hc : c.Consistent) (roots : List NodeId) :
    EndsIn Context.Consistent (c.emit roots) := by
  have hkeeps := KeepsConsistent.performWithin c.jobDepth
  exact Discipline.Holds.emitting (D := consistentRuns _) roots _ (hc.of_eq rfl rfl (.refl _))

theorem IsReached.consistent (h : IsReached tree options c) : c.Consistent := by
  induction h with
  | new => exact consistent_new tree options
  | check roots _ hcall ih => exact (ih.check roots).of_endsAt hcall
  | emit roots _ hcall ih => exact (ih.emit roots).of_endsAt hcall
  | @reset c _ _ => exact (consistent_new c.tree c.options).of_eq rfl rfl (.refl _)

end Context

/-- Whatever calls of the phases were made, and however they ended, the tables are consistent: all entries fit
each other, and every base is registered.  Where an aggregate was registered by one declaration only its fields
are entered exactly as its symbol has them, and among such aggregates none extends itself. -/
theorem tables_consistent {tree : Tree} {options : CompileOptions} {c : Context}
    (h : c.IsReached tree options) :
    c.symbols.Consistent ∧ ∀ name,
      ¬Relation.TransGen (fun name base => c.symbols.IsSingle name ∧ c.symbols.Extends name base) name name :=
  ⟨h.consistent.tables, h.consistent.tables.acyclic⟩

/-- A unit that compiles is checked, and then emitted. -/
theorem exists_of_compileUnit {tree : Tree} {roots : List NodeId} {options : CompileOptions}
    (h : (compileUnit tree roots options).isOk = true) : ∃ checked emitted,
      (Context.new tree options).check roots = .ok () checked ∧ checked.emit roots = .ok () emitted := by
  unfold compileUnit at h
  cases hcheck : (Context.new tree options).check roots with
  | error stop c =>
    rw [hcheck] at h
    cases h
  | ok done checked =>
    rw [hcheck] at h
    cases hemit : checked.emit roots with
    | error stop c =>
      simp only [hemit] at h
      cases h
    | ok done emitted => exact ⟨checked, emitted, rfl, hemit⟩

/-- Two aggregates, the second of which extends the first. -/
def Tree.extending : Tree where
  nodes := #[⟨.aggregate { name := "Base", fields := [⟨"x", .int, none⟩] }, ⟨0, 1⟩⟩,
    ⟨.aggregate { name := "Derived", base := some (.aggregate "Base" []), fields := [⟨"y", .int, none⟩] }, ⟨0, 2⟩⟩]
  files := ⟨["unit"]⟩

/-- Their check leads to consistent tables, in which neither extends itself. -/
theorem tables_consistent_extending : ∃ c, (Context.new .extending {}).check [⟨1⟩, ⟨0⟩] = .ok () c ∧
    c.symbols.Extends "Derived" "Base" ∧ c.symbols.Consistent ∧
    ¬Relation.TransGen (fun name base => c.symbols.IsSingle name ∧ c.symbols.Extends name base) "Base" "Base" := by
  obtain ⟨c, emitted, hcheck, -⟩ := exists_of_compileUnit
    (show (compileUnit .extending [⟨1⟩, ⟨0⟩] {}).isOk = true by decide +kernel)
  have hbase : ((finalContext ((Context.new .extending {}).check [⟨1⟩, ⟨0⟩])).symbols.aggregates.get?
      "Derived").bind (·.base) = some "Base" := by decide +kernel
  rw [hcheck] at hbase
  have hreached : c.IsReached .extending {} := .check [⟨1⟩, ⟨0⟩] .new (by rw [hcheck]; rfl)
  obtain ⟨hconsistent, hacyclic⟩ := tables_consistent hreached
  exact ⟨c, hcheck, Option.bind_eq_some_iff.mp hbase, hconsistent, hacyclic "Base"⟩

/-- The check of an aggregate in a block, which is not known by name before, can register a second one of its
name on the way; then two aggregates extend each other. -/
example : let s := (finalContext ((Context.new { Tree.extending with
      nodes := #[⟨.aggregate { name := "Twice", base := some (.aggregate "Base" []) }, ⟨0, 1⟩⟩,
        ⟨.block [⟨0⟩], ⟨0, 1⟩⟩, ⟨.aggregate { name := "Base", base := some (.aggregate "Twice" []) }, ⟨0, 2⟩⟩,
        ⟨.aggregate { name := "Twice" }, ⟨0, 3⟩⟩] } {}).check [⟨1⟩, ⟨2⟩, ⟨3⟩])).symbols
    (s.aggregates.get? "Twice").bind (·.base) = some "Base" ∧
      (s.aggregates.get? "Base").bind (·.base) = some "Twice" := by
  decide +kernel

end UnitCompiler
