import UnitCompiler.Proofs.Disciplines.Confinement
import UnitCompiler.Proofs.Phases.Settling

/-!
# What emission adds to the code

A run that ends well keeps books: for every function with a body whose emission began there is one more
definition, by the link name of its symbol, for every aggregate one more type by its name, and nothing else is
defined.  An instance of an aggregate template that a run registers is emitted in the end or waits for it.
-/

namespace UnitCompiler

/-- A function with a body. -/
def NodeKind.isDefinition : NodeKind → Bool
  | .function decl => decl.body.isSome
  | _ => false

theorem NodeKind.isDefinition_eq_true {kind : NodeKind} :
    kind.isDefinition = true ↔ ∃ decl, kind = .function decl ∧ decl.body.isSome = true := by
  cases kind <;> simp [isDefinition]

def NodeKind.isAggregate : NodeKind → Bool
  | .aggregate _ => true
  | _ => false

/-- The declaration is that of a function which is linked by the name. -/
def SymbolTables.LinksAs (s : SymbolTables) (id : NodeId) (name : String) : Prop :=
  ∃ key f, s.functions.get? key = some f ∧ f.decl = id ∧ f.linkName = name

/-! ### Books -/

/-- The nodes of a sort whose emission began between two moments, each by a name. -/
structure Ledger (sort : NodeKind → Bool) (stands : NodeId → String → Prop) (states states' : NodeId → NodeState)
    (t : Tree) (items : List (NodeId × String)) : Prop where
  nodup : (items.map Prod.fst).Nodup
  stands : ∀ item ∈ items, stands item.1 item.2
  mem : ∀ id, id ∈ items.map Prod.fst ↔
    (states id ≠ .emitted ∧ states' id = .emitted) ∧ ∃ kind, t.HasKind id kind ∧ sort kind = true

namespace Ledger

variable {sort : NodeKind → Bool} {stands stands' : NodeId → String → Prop}
  {states states' states'' : NodeId → NodeState} {t t' : Tree} {items items' : List (NodeId × String)}
  {id : NodeId}

theorem nil (h : ∀ id, states' id = .emitted → states id = .emitted) : Ledger sort stands states states' t [] where
  nodup := .nil
  stands := nofun
  mem id := iff_of_false (List.not_mem_nil) fun ⟨⟨hid, hid'⟩, _⟩ => hid (h id hid')

theorem append (h : Ledger sort stands states states' t items)
    (h' : Ledger sort stands' states' states'' t' items')
    (hstands : ∀ {id name}, stands id name → stands' id name) (htree : t.Begins t')
    (hnodes : ∀ {id}, states' id = .emitted → ∃ kind, t.HasKind id kind)
    (hfirst : ∀ {id}, states id = .emitted → states' id = .emitted)
    (hlast : ∀ {id}, states' id = .emitted → states'' id = .emitted) :
    Ledger sort stands' states states'' t' (items ++ items') where
  nodup := by
    rw [List.map_append]
    refine List.nodup_append.mpr ⟨h.nodup, h'.nodup, fun id hid id' hid' => ?_⟩
    rintro rfl
    exact ((h'.mem id).mp hid').1.1 ((h.mem id).mp hid).1.2
  stands item hitem := (List.mem_append.mp hitem).elim (fun hmem => hstands (h.stands item hmem)) (h'.stands item)
  mem id := by
    rw [List.map_append, List.mem_append, h.mem, h'.mem]
    constructor
    · rintro (⟨⟨hid, hid'⟩, kind, hkind, hsort⟩ | ⟨⟨hid, hid'⟩, hkind⟩)
      · exact ⟨⟨hid, hlast hid'⟩, kind, htree.hasKind hkind, hsort⟩
      · exact ⟨⟨fun hbefore => hid (hfirst hbefore), hid'⟩, hkind⟩
    · rintro ⟨⟨hid, hid'⟩, kind, hkind, hsort⟩
      by_cases hbegun : states' id = .emitted
      · obtain ⟨kind', hkind'⟩ := hnodes hbegun
        obtain rfl := (htree.hasKind hkind').eq hkind
        exact .inl ⟨⟨hid, hbegun⟩, kind', hkind', hsort⟩
      · exact .inr ⟨⟨hbegun, hid'⟩, kind, hkind, hsort⟩

section Marking

variable {marked : NodeId → NodeState} (h : Ledger sort stands marked states' t items)
  (hmarked : ∀ other, marked other = if id = other then .emitted else states other)
include h hmarked

theorem mem_of_marked (other : NodeId) : other ∈ items.map Prod.fst ↔ other ≠ id ∧
    (states other ≠ .emitted ∧ states' other = .emitted) ∧ ∃ kind, t.HasKind other kind ∧ sort kind = true := by
  rw [h.mem, hmarked]
  split_ifs with heq
  · simp [heq]
  · simp [Ne.symm heq]

/-- A node of the sort is marked first. -/
theorem cons {name : String} {kind : NodeKind} (hid : states id ≠ .emitted) (hid' : states' id = .emitted)
    (hkind : t.HasKind id kind) (hsort : sort kind = true) (hname : stands id name) :
    Ledger sort stands states states' t ((id, name) :: items) where
  nodup := List.nodup_cons.mpr ⟨fun hmem => ((h.mem_of_marked hmarked id).mp hmem).1 rfl, h.nodup⟩
  stands := List.forall_mem_cons.mpr ⟨hname, h.stands⟩
  mem other := by
    rw [List.map_cons, List.mem_cons, h.mem_of_marked hmarked]
    by_cases heq : other = id
    · subst heq
      exact iff_of_true (.inl rfl) ⟨⟨hid, hid'⟩, kind, hkind, hsort⟩
    · simp [heq]

/-- A node of another sort is marked first. -/
theorem skip {kind : NodeKind} (hkind : t.HasKind id kind) (hsort : sort kind = false) :
    Ledger sort stands states states' t items where
  nodup := h.nodup
  stands := h.stands
  mem other := by
    rw [h.mem_of_marked hmarked]
    refine and_iff_right_of_imp ?_
    rintro ⟨-, kind', hkind', hsort'⟩ rfl
    rw [hkind.eq hkind', hsort'] at hsort
    cases hsort

end Marking
end Ledger

/-- The second list of names has those of the first, and one for each node of the sort whose emission began. -/
def Accounts (sort : NodeKind → Bool) (stands : NodeId → String → Prop) (states states' : NodeId → NodeState)
    (t : Tree) (names names' : List String) : Prop :=
  ∃ items, Ledger sort stands states states' t items ∧ names'.Perm (names ++ items.map Prod.snd)

/-- A node of another sort is marked first. -/
theorem Accounts.skip {sort : NodeKind → Bool} {stands : NodeId → String → Prop}
    {states marked states' : NodeId → NodeState} {t : Tree} {names names' : List String} {id : NodeId}
    {kind : NodeKind} (h : Accounts sort stands marked states' t names names')
    (hmarked : ∀ other, marked other = if id = other then .emitted else states other) (hkind : t.HasKind id kind)
    (hsort : sort kind = false) : Accounts sort stands states states' t names names' := by
  obtain ⟨items, hitems, hnames⟩ := h
  exact ⟨items, hitems.skip hmarked hkind hsort, hnames⟩

namespace Context

/-! ### Deliveries -/

/-- A context in which what was emitted is in the tree, and an aggregate goes by the name of its declaration, at
which one has looked. -/
structure Labelled (c : Context) : Prop where
  nodes : ∀ {id}, c.stateOf id = .emitted → ∃ kind, c.tree.HasKind id kind
  visited : ∀ {id name}, c.symbols.declaredNames.get? id = some name → c.stateOf id ≠ .unchecked
  kinds : ∀ {id name}, c.symbols.declaredNames.get? id = some name → ∃ decl, c.tree.HasKind id (.aggregate decl)
  names : ∀ {name a}, c.symbols.aggregates.get? name = some a → c.symbols.declaredNames.get? a.decl = some name

/-- There is an instance of an aggregate template by the name. -/
def HasInstance (c : Context) (name : String) : Prop :=
  ∃ a, c.symbols.aggregates.get? name = some a ∧ a.isInstance = true

/-- The emission of an aggregate of the name has begun. -/
def IsTypeEmitted (c : Context) (name : String) : Prop :=
  ∃ id, c.symbols.declaredNames.get? id = some name ∧ c.stateOf id = .emitted

/-- The aggregate waits for emission, or its emission has begun. -/
def IsTypeScheduled (c : Context) (name : String) : Prop :=
  Pending.aggregate name ∈ c.pending ∨ c.IsTypeEmitted name

/-- What a run that ends well leads to.  The instance that is owed may be left to be scheduled. -/
structure Delivers (owed : Option String) (c c' : Context) : Prop where
  labelled : c'.Labelled
  tree : c.tree.Begins c'.tree
  states : ∀ {id}, c.stateOf id = .emitted → c'.stateOf id = .emitted
  functions : ∀ {key f}, c.symbols.functions.get? key = some f → c'.symbols.functions.get? key = some f
  names : ∀ {id name}, c.symbols.declaredNames.get? id = some name → c'.symbols.declaredNames.get? id = some name
  definitions : Accounts NodeKind.isDefinition c'.symbols.LinksAs c.stateOf c'.stateOf c'.tree
    (c.program.definitions.map (·.name)) (c'.program.definitions.map (·.name))
  types : Accounts NodeKind.isAggregate (fun id name => c'.symbols.declaredNames.get? id = some name)
    c.stateOf c'.stateOf c'.tree (c.program.types.map (·.name)) (c'.program.types.map (·.name))
  instances : ∀ {name}, c'.HasInstance name → c.HasInstance name ∨ c'.IsTypeScheduled name ∨ name ∈ owed
  scheduled : ∀ {name}, c.IsTypeScheduled name → c'.IsTypeScheduled name

variable {c c' c'' : Context} {owed : Option String}

theorem Labelled.of_eq (hc : c.Labelled) (hstates : c'.states = c.states) (htree : c.tree.Begins c'.tree)
    (hnames : c'.symbols.declaredNames = c.symbols.declaredNames)
    (haggregates : ∀ {name a}, c'.symbols.aggregates.get? name = some a →
      ∃ a₀, c.symbols.aggregates.get? name = some a₀ ∧ a₀.decl = a.decl) : c'.Labelled := by
  have hstate (id : NodeId) : c'.stateOf id = c.stateOf id := by rw [stateOf, hstates, stateOf]
  constructor
  · intro id hid
    obtain ⟨kind, hkind⟩ := hc.nodes ((hstate id).symm.trans hid)
    exact ⟨kind, htree.hasKind hkind⟩
  · intro id name hname
    rw [hnames] at hname
    rw [hstate]
    exact hc.visited hname
  · intro id name hname
    rw [hnames] at hname
    obtain ⟨decl, hkind⟩ := hc.kinds hname
    exact ⟨decl, htree.hasKind hkind⟩
  · intro name a ha
    obtain ⟨a₀, ha₀, hdecl⟩ := haggregates ha
    rw [hnames, ← hdecl]
    exact hc.names ha₀

/-- One looked at the node, or its emission begins. -/
theorem Labelled.mark (hc : c.Labelled) {id : NodeId} {state : NodeState} (hstate : state ≠ .unchecked)
    (hkind : state = .emitted → ∃ kind, c.tree.HasKind id kind) :
    { c with states := c.states.insert id state }.Labelled where
  nodes {id'} hid' := by
    rw [Later.stateOf_insert] at hid'
    split_ifs at hid' with heq
    · exact heq ▸ hkind hid'
    · exact hc.nodes hid'
  visited {id' name} hname := by
    rw [Later.stateOf_insert]
    split_ifs
    · exact hstate
    · exact hc.visited hname
  kinds := hc.kinds
  names := hc.names

namespace Delivers

/-- Nothing is emitted. -/
theorem of_quiet (hc' : c'.Labelled) (htree : c.tree.Begins c'.tree)
    (hstates : ∀ {id}, c'.stateOf id = .emitted ↔ c.stateOf id = .emitted)
    (hfunctions : ∀ {key f}, c.symbols.functions.get? key = some f → c'.symbols.functions.get? key = some f)
    (hnames : ∀ {id name}, c.symbols.declaredNames.get? id = some name →
      c'.symbols.declaredNames.get? id = some name)
    (hinstances : ∀ {name}, c'.HasInstance name → c.HasInstance name ∨ name ∈ owed)
    (hpending : c.pending ⊆ c'.pending) (hdefinitions : c'.program.definitions = c.program.definitions)
    (htypes : c'.program.types = c.program.types) : c.Delivers owed c' where
  labelled := hc'
  tree := htree
  states := hstates.mpr
  functions := hfunctions
  names := hnames
  definitions := ⟨[], .nil fun _ => hstates.mp, by rw [hdefinitions]; simp⟩
  types := ⟨[], .nil fun _ => hstates.mp, by rw [htypes]; simp⟩
  instances hname := (hinstances hname).imp_right .inr
  scheduled
    | .inl h => .inl (hpending h)
    | .inr ⟨id, hname, hid⟩ => .inr ⟨id, hnames hname, hstates.mpr hid⟩

theorem of_eq (hc : c.Labelled) (hsymbols : c'.symbols = c.symbols) (hstates : c'.states = c.states)
    (htree : c.tree.Begins c'.tree) (hpending : c.pending ⊆ c'.pending)
    (hdefinitions : c'.program.definitions = c.program.definitions)
    (htypes : c'.program.types = c.program.types) : c.Delivers none c' := by
  have hstate (id : NodeId) : c'.stateOf id = c.stateOf id := by rw [stateOf, hstates, stateOf]
  refine of_quiet (hc.of_eq hstates htree (by rw [hsymbols]) fun ha => ⟨_, hsymbols ▸ ha, rfl⟩) htree
    (fun {id} => by rw [hstate]) (fun hf => hsymbols ▸ hf) (fun hname => hsymbols ▸ hname) ?_ hpending
    hdefinitions htypes
  rintro name ⟨a, ha, hinstance⟩
  exact .inl ⟨a, hsymbols ▸ ha, hinstance⟩

theorem refl (hc : c.Labelled) : c.Delivers none c :=
  of_eq hc rfl rfl (.refl _) (List.Subset.refl _) rfl rfl

theorem edited (hc : c.Labelled) (h : c.Edited c') : c.Delivers none c' := by
  obtain ⟨⟨hsame, -⟩, -, hdefinitions, htypes⟩ := h
  refine of_eq hc ?_ ?_ ?_ ?_ hdefinitions htypes <;> rw [hsame]
  · exact .refl _
  · exact List.Subset.refl _

theorem trans (h : c.Delivers owed c') (h' : c'.Delivers owed c'') : c.Delivers owed c'' where
  labelled := h'.labelled
  tree := h.tree.trans h'.tree
  states hid := h'.states (h.states hid)
  functions hf := h'.functions (h.functions hf)
  names hname := h'.names (h.names hname)
  definitions := by
    obtain ⟨items, hitems, hnames⟩ := h.definitions
    obtain ⟨items', hitems', hnames'⟩ := h'.definitions
    refine ⟨items ++ items', hitems.append hitems' ?_ h'.tree h.labelled.nodes h.states h'.states, ?_⟩
    · rintro id name ⟨key, f, hf, hlinks⟩
      exact ⟨key, f, h'.functions hf, hlinks⟩
    · rw [List.map_append, ← List.append_assoc]
      exact hnames'.trans (hnames.append_right _)
  types := by
    obtain ⟨items, hitems, hnames⟩ := h.types
    obtain ⟨items', hitems', hnames'⟩ := h'.types
    refine ⟨items ++ items', hitems.append hitems' h'.names h'.tree h.labelled.nodes h.states h'.states, ?_⟩
    rw [List.map_append, ← List.append_assoc]
    exact hnames'.trans (hnames.append_right _)
  instances hname := by
    obtain hname | hname | hname := h'.instances hname
    · exact (h.instances hname).imp_right (Or.imp_left h'.scheduled)
    · exact .inr (.inl hname)
    · exact .inr (.inr hname)
  scheduled hname := h'.scheduled (h.scheduled hname)

/-- Less is owed. -/
theorem weaken (h : c.Delivers none c') : c.Delivers owed c' :=
  { h with instances := fun hname => (h.instances hname).imp_right fun hname => .inl (hname.resolve_right nofun) }

/-- What is owed is scheduled. -/
theorem settle {name : String} (h : c.Delivers (some name) c') (hname : c'.IsTypeScheduled name) :
    c.Delivers none c' :=
  { h with
    instances := fun hinstance => (h.instances hinstance).imp_right fun hinstance => .inl <| by
      obtain hinstance | ⟨⟨⟩⟩ := hinstance
      · exact hinstance
      · exact hname }

/-- The same stores under other bindings. -/
theorem rebind {subst subst' : Substitution} {space space' : List String}
    {function function' : Option FunctionState} {depth depth' : Nat}
    (h : { c with subst, space, function, instantiationDepth := depth }.Delivers owed c') :
    c.Delivers owed { c' with
      subst := subst', space := space', function := function', instantiationDepth := depth' } where
  labelled := ⟨h.labelled.nodes, h.labelled.visited, h.labelled.kinds, h.labelled.names⟩
  tree := h.tree
  states := h.states
  functions := h.functions
  names := h.names
  definitions := h.definitions
  types := h.types
  instances := h.instances
  scheduled := h.scheduled

end Delivers

theorem Labelled.rebind (hc : c.Labelled) (subst : Substitution) (space : List String)
    (function : Option FunctionState) (depth : Nat) :
    { c with subst, space, function, instantiationDepth := depth }.Labelled :=
  ⟨hc.nodes, hc.visited, hc.kinds, hc.names⟩

/-- The function under emission has its name and its blocks still. -/
def Fills (c c' : Context) : Prop :=
  ∀ f, c.function = some f → ∃ f', c'.function = some f' ∧ f.builder.Keeps f'.builder

namespace Fills

theorem of_eq (h : c'.function = c.function) : c.Fills c' := fun f hf => ⟨f, h.trans hf, .refl _⟩

theorem trans (h : c.Fills c') (h' : c'.Fills c'') : c.Fills c'' := by
  intro f hf
  obtain ⟨f', hf', hkeeps⟩ := h f hf
  obtain ⟨f'', hf'', hkeeps'⟩ := h' f' hf'
  exact ⟨f'', hf'', hkeeps.trans hkeeps'⟩

end Fills
end Context

/-! ### The discipline -/

/-- The runs under a performer that keep books. -/
def deliveringRuns (p : Performer) : Discipline where
  At x c := c.Labelled → ∀ a c', x p c = .ok a c' → c.Delivers none c' ∧ c.Fills c'
  pure := by
    rintro _ a c hc _ _ ⟨⟩
    exact ⟨.refl hc, .of_eq rfl⟩
  throw _ _ _ _ _ hrun := by cases hrun
  bind hx hf hc b c'' hrun := by
    obtain ⟨a, c', hfirst, hrest⟩ := CompileM.bind_eq_ok.mp hrun
    obtain ⟨h, hfills⟩ := hx hc a c' hfirst
    obtain ⟨h', hfills'⟩ := hf a c' h.labelled b c'' hrest
    exact ⟨h.trans h', hfills.trans hfills'⟩
  get_bind h := h
  write hedited hfunction hc := by
    rintro _ _ ⟨⟩
    exact ⟨.edited hc hedited, .of_eq hfunction⟩
  postpone item _ _ hc := by
    rintro _ _ ⟨⟩
    exact ⟨.of_eq hc rfl rfl (.refl _) (List.subset_append_left _ _) rfl rfl, .of_eq rfl⟩
  declareAggregate _ hc := by
    rintro _ _ ⟨⟩
    exact ⟨.of_quiet (hc.of_eq rfl (.refl _) rfl fun ha => ⟨_, ha, rfl⟩) (.refl _) .rfl id id .inl
      (List.Subset.refl _) rfl rfl, .of_eq rfl⟩
  copySubtree_modifyKind id g _ hf c hc a c' hrun := by
    obtain ⟨copy, tree, hcopy, hread⟩ | ⟨stop, hread⟩ := CompileM.copySubtree_cases id c
    · rw [CompileM.bind_of_eq_ok (hread p)] at hrun
      obtain ⟨htree, hle⟩ := Tree.begins_of_copySubtree hcopy
      have hcopied : c.Delivers none { c with tree := tree.modifyKind copy g } :=
        .of_eq hc rfl rfl (htree.modifyKind hle g) (List.Subset.refl _) rfl rfl
      obtain ⟨h, hfills⟩ := hf copy _ hcopied.labelled a c' hrun
      exact ⟨hcopied.trans h, hfills⟩
    · rw [CompileM.bind_of_eq_error (hread p)] at hrun
      cases hrun
  within subst space hx c hc a c' hrun := by
    obtain ⟨ended, hinside, rfl⟩ := CompileM.within_eq_ok.mp hrun
    exact ⟨(hx _ (hc.rebind subst space none c.instantiationDepth) a ended hinside).1.rebind, .of_eq rfl⟩
  instantiating subst space location hx c hc a c' hrun := by
    obtain ⟨ended, hinside, rfl⟩ := CompileM.instantiating_eq_ok hrun
    exact ⟨(hx _ (hc.rebind subst space none _) a ended hinside).1.rebind, .of_eq rfl⟩
  inSpace name hx c hc a c' hrun := by
    obtain ⟨ended, hinside, rfl⟩ := CompileM.inSpace_eq_ok.mp hrun
    obtain ⟨h, hfills⟩ := hx _ (hc.rebind c.subst _ c.function c.instantiationDepth) a ended hinside
    exact ⟨h.rebind, hfills⟩

/-- The aggregate instance that a job checks is scheduled by whoever asks for the job. -/
def Job.owes : Job → Option String
  | .checkAggregate _ instanceName => instanceName
  | _ => none

theorem Job.owes_of_isCommon {job : Job} (h : job.isCommon = true) : job.owes = none := by
  cases job with
  | checkAggregate id instanceName =>
    cases instanceName with
    | none => rfl
    | some name => cases h
  | _ => rfl

/-- A way to do every job that keeps books, and begins the emission of an aggregate when it is asked for. -/
class Performer.Delivers (p : Performer) : Prop where
  job : ∀ (job : Job) {c c' : Context} {r : job.Result}, c.Labelled → p job c = .ok r c' →
    c.Delivers job.owes c' ∧ c.Fills c'
  emitted : ∀ {name : String} {c c' : Context}, c.Labelled → p (.emitAggregate name) c = .ok () c' →
    c'.IsTypeEmitted name

namespace Delivering

open Discipline.Holds Context

variable {p : Performer} {α β : Type} {x : CompileM α} {f : α → CompileM β} {c c' : Context}

theorem of_holds {a : α} (hc : c.Labelled) (hrun : x p c = .ok a c') (hx : (deliveringRuns p).Holds x) :
    c.Delivers none c' ∧ c.Fills c' :=
  hx c hc a c' hrun

theorem andThen (hx : (deliveringRuns p).At x c)
    (hf : ∀ a c', x p c = .ok a c' → (deliveringRuns p).At (f a) c') : (deliveringRuns p).At (x >>= f) c := by
  intro hc b c'' hrun
  obtain ⟨a, c', hfirst, hrest⟩ := CompileM.bind_eq_ok.mp hrun
  obtain ⟨h, hfills⟩ := hx hc a c' hfirst
  obtain ⟨h', hfills'⟩ := hf a c' hfirst h.labelled b c'' hrest
  exact ⟨h.trans h', hfills.trans hfills'⟩

theorem fails {location : Location} {problem : Problem} :
    (deliveringRuns p).At (CompileM.bail location problem : CompileM α) c :=
  fun _ _ _ hrun => by cases hrun

/-! ### Tables -/

/-- Other tables that have every function still, and no other aggregates. -/
theorem setSymbols (hc : c.Labelled) {s : SymbolTables}
    (hfunctions : ∀ {key f}, c.symbols.functions.get? key = some f → s.functions.get? key = some f)
    (hnames : s.declaredNames = c.symbols.declaredNames)
    (haggregates : ∀ {name a}, s.aggregates.get? name = some a →
      ∃ a₀, c.symbols.aggregates.get? name = some a₀ ∧ a₀.decl = a.decl ∧ a₀.isInstance = a.isInstance) :
    c.Delivers none { c with symbols := s } := by
  refine .of_quiet (hc.of_eq rfl (.refl _) hnames fun ha => ?_) (.refl _) .rfl hfunctions (fun hname => ?_)
    (fun hname => .inl ?_) (List.Subset.refl _) rfl rfl
  · obtain ⟨a₀, ha₀, hdecl, -⟩ := haggregates ha
    exact ⟨a₀, ha₀, hdecl⟩
  · change s.declaredNames.get? _ = _
    rwa [hnames]
  · obtain ⟨a, ha, hinstance⟩ := hname
    obtain ⟨a₀, ha₀, -, hsame⟩ := haggregates ha
    exact ⟨a₀, ha₀, hsame.trans hinstance⟩

theorem at_setSymbols {g : SymbolTables → SymbolTables}
    (h : c.Labelled → c.Delivers none { c with symbols := g c.symbols }) :
    (deliveringRuns p).At (CompileM.modifySymbols g) c := by
  rintro hc _ _ ⟨⟩
  exact ⟨h hc, .of_eq rfl⟩

/-- A change of other tables. -/
theorem modifySymbols {g : SymbolTables → SymbolTables} (hfunctions : ∀ s, (g s).functions = s.functions)
    (hnames : ∀ s, (g s).declaredNames = s.declaredNames) (haggregates : ∀ s, (g s).aggregates = s.aggregates) :
    (deliveringRuns p).Holds (CompileM.modifySymbols g) :=
  fun c => at_setSymbols fun hc => setSymbols hc (fun hf => (hfunctions c.symbols).symm ▸ hf) (hnames c.symbols)
    fun ha => ⟨_, haggregates c.symbols ▸ ha, rfl, rfl⟩

/-- An aggregate gets other operators or methods. -/
theorem setAggregate {name : String} {a a' : AggregateSymbol} (ha : c.symbols.aggregates.get? name = some a)
    (hdecl : a.decl = a'.decl) (hinstance : a.isInstance = a'.isInstance) :
    (deliveringRuns p).At (CompileM.modifySymbols fun s =>
      { s with aggregates := s.aggregates.insert name a' }) c := by
  refine at_setSymbols fun hc => setSymbols hc id rfl fun {name' b} hb => ?_
  have hb := (Table.get?_insert _ _ _ _).symm.trans hb
  split_ifs at hb with heq
  · cases hb
    exact ⟨a, heq ▸ ha, hdecl, hinstance⟩
  · exact ⟨b, hb, rfl, rfl⟩

theorem enterOperator (tag : OperatorTag) (owner : String) (f : FunctionSymbol) (location : Location) :
    (deliveringRuns p).Holds (CompileM.enterOperator tag owner f location) := by
  refine fun c => (deliveringRuns p).get_bind ?_
  cases ha : c.symbols.aggregates.get? owner with
  | none => exact fails
  | some a =>
    dsimp only
    split_ifs
    · exact fails
    · exact setAggregate ha rfl rfl

/-- A new function is entered under its key. -/
theorem register (decl : FunctionDecl) (owner : Option String) {f : FunctionSymbol} (location : Location)
    (hnew : c.symbols.functions.get? f.key = none) :
    (deliveringRuns p).At (CompileM.register decl owner f location) c := by
  have hadd {c : Context} (hnew : c.symbols.functions.get? f.key = none) :
      (deliveringRuns p).At (CompileM.modifySymbols (·.addFunction f)) c :=
    at_setSymbols fun hc => setSymbols hc
      (SymbolTables.Grows.insertFunction (.refl c.symbols) hnew).functions rfl fun ha => ⟨_, ha, rfl, rfl⟩
  have hmethod (owner : String) : (deliveringRuns p).At (do
      CompileM.modifySymbols (·.addMethod owner decl.name f.key)
      CompileM.modifySymbols (·.addFunction f)) c :=
    andThen (modifySymbols (g := (·.addMethod owner decl.name f.key)) (fun _ => rfl) (fun _ => rfl)
      (fun _ => rfl) c) fun _ _ hrun => hadd (by cases hrun; exact hnew)
  unfold CompileM.register
  cases owner with
  | none =>
    cases f.owner with
    | none => exact hadd hnew
    | some owner => exact hmethod owner
  | some owner =>
    cases decl.operator with
    | some tag =>
      refine andThen (enterOperator tag owner f location c) fun _ _ hrun => hadd ?_
      rw [Leads.functions_of_enterOperator hrun, hnew]
    | none =>
      cases f.owner with
      | none => exact hadd hnew
      | some owner => exact hmethod owner

/-! ### Disciplines -/

section Jobs

variable [p.Delivers]

instance : (deliveringRuns p).Calls where
  job job hjob c hc r c' hrun := by
    have h := Performer.Delivers.job job hc hrun
    rwa [Job.owes_of_isCommon hjob] at h

instance : (deliveringRuns p).Edits where
  edit h hc := by
    rintro _ _ ⟨⟩
    exact ⟨.edited hc h, fun _ => h.function⟩

theorem isTypeScheduled_of_scheduleAggregate {name : String} (hc : c.Labelled)
    (hrun : CompileM.scheduleAggregate name p c = .ok () c') : c'.IsTypeScheduled name := by
  unfold CompileM.scheduleAggregate at hrun
  rw [CompileM.bind_of_eq_ok (CompileM.get_apply p c)] at hrun
  cases hphase : c.phase with
  | emit =>
    rw [hphase] at hrun
    exact .inr (Performer.Delivers.emitted hc hrun)
  | check =>
    rw [hphase] at hrun
    cases hrun
    exact .inl (List.mem_append_right _ List.mem_cons_self)

/-- An instance that is made is scheduled once it is checked. -/
theorem makeAggregate (name : String) (site : DeclarationSite) :
    (deliveringRuns p).Holds (CompileM.makeAggregate name site) := by
  refine makeAggregate_of_enters fun copy c hc _ c' hrun => ?_
  have hdeclares : (deliveringRuns p).Holds (CompileM.modifySymbols fun s =>
      { s with declaredAggregates := s.declaredAggregates.insert name ⟨copy, site.space⟩ }) :=
    modifySymbols (fun _ => rfl) (fun _ => rfl) fun _ => rfl
  obtain ⟨⟨⟩, c₁, hdeclare, hrun⟩ := CompileM.bind_eq_ok.mp hrun
  obtain ⟨⟨⟩, c₂, hcheck, hrun⟩ := CompileM.bind_eq_ok.mp hrun
  obtain ⟨r, hcheck, -⟩ := CompileM.map_eq_ok.mp hcheck
  obtain ⟨h₁, hfills₁⟩ := hdeclares c hc _ c₁ hdeclare
  obtain ⟨h₂, hfills₂⟩ := Performer.Delivers.job (.checkAggregate copy (some name)) h₁.labelled hcheck
  obtain ⟨h₃, hfills₃⟩ :=
    of_holds h₂.labelled hrun (schedule (fun c _ => job (.emitAggregate name) rfl c) (.aggregate name))
  have hscheduled := isTypeScheduled_of_scheduleAggregate h₂.labelled hrun
  exact ⟨(h₁.weaken.trans (h₂.trans h₃.weaken)).settle hscheduled, hfills₁.trans (hfills₂.trans hfills₃)⟩

instance : (deliveringRuns p).Resolves where
  resolve job hjob := Discipline.Calls.job job (Job.isCommon_of_isResolving hjob)
  ensureInstance _ _ _ := ensureInstance_of_makeAggregate fun _ _ _ _ => instantiating (makeAggregate _ _)

instance : (deliveringRuns p).Emits where
  inFunction job hjob c hc r c' hrun := by
    have h := Performer.Delivers.job job hc hrun
    have howes : job.owes = none := by cases job <;> first | rfl | cases hjob
    rwa [howes] at h
  instantiateFunction := instantiateFunction_of_enterInstance fun _ _ =>
    modifySymbols (fun _ => rfl) (fun _ => rfl) fun _ => rfl
  setNesting _ c hc := by
    rintro _ _ ⟨⟩
    exact ⟨.of_eq hc rfl rfl (.refl _) (List.Subset.refl _) rfl rfl, .of_eq rfl⟩

instance : (deliveringRuns p).Enters where
  markChecked {id c} hid hc := by
    rintro _ _ ⟨⟩
    refine ⟨.of_quiet (hc.mark (by decide) nofun) (.refl _) (fun {id'} => ?_) (fun hf => hf) (fun hname => hname)
      (fun hname => .inl hname) (List.Subset.refl _) rfl rfl, .of_eq rfl⟩
    rw [Later.stateOf_insert]
    split_ifs with heq
    · rw [← heq, hid]
      decide
    · rfl
  enterTemplate _ _ := modifySymbols (fun _ => rfl) (fun _ => rfl) fun _ => rfl
  enterAggregateTemplate _ _ := modifySymbols (fun _ => rfl) (fun _ => rfl) fun _ => rfl
  copySubtree id c hc copy c' hrun := by
    obtain ⟨copy', tree, hcopy, hread⟩ | ⟨stop, hread⟩ := CompileM.copySubtree_cases id c
    · cases (hread p).symm.trans hrun
      exact ⟨.of_eq hc rfl rfl (Tree.begins_of_copySubtree hcopy).1 (List.Subset.refl _) rfl rfl, .of_eq rfl⟩
    · cases (hread p).symm.trans hrun
  declareKey _ _ := modifySymbols (fun _ => rfl) (fun _ => rfl) fun _ => rfl
  register decl owner _ location _ := register decl owner location

instance : (deliveringRuns p).Binds where
  enterGlobal _ _ := modifySymbols (fun _ => rfl) (fun _ => rfl) fun _ => rfl
  enterAlias _ _ := modifySymbols (fun _ => rfl) (fun _ => rfl) fun _ => rfl
  checkNode id _ hc _ _ hrun := Performer.Delivers.job (.checkNode id) hc hrun

/-! ### Aggregates -/

omit [p.Delivers] in
/-- An aggregate is entered for a declaration that had no name. -/
theorem addAggregate (hc : c.Labelled) {a : AggregateSymbol} {decl : AggregateDecl} {owed : Option String}
    (hvisited : c.stateOf a.decl ≠ .unchecked) (hkind : c.tree.HasKind a.decl (.aggregate decl))
    (hfresh : c.symbols.declaredNames.get? a.decl = none) (howed : a.isInstance = true → a.name ∈ owed) :
    c.Delivers owed { c with symbols := c.symbols.addAggregate a } := by
  have haggregates {name : String} {b : AggregateSymbol}
      (hb : (c.symbols.addAggregate a).aggregates.get? name = some b) :
      a.name = name ∧ a = b ∨ c.symbols.aggregates.get? name = some b := by
    rw [SymbolTables.aggregates_addAggregate] at hb
    split_ifs at hb with heq
    · cases hb
      exact .inl ⟨heq, rfl⟩
    · exact .inr hb
  have hnames := c.symbols.declaredNames_addAggregate a
  have hkept {id : NodeId} {name : String} (hname : c.symbols.declaredNames.get? id = some name) :
      (c.symbols.addAggregate a).declaredNames.get? id = some name := by
    rw [hnames, if_neg]
    · exact hname
    · rintro rfl
      rw [hfresh] at hname
      cases hname
  refine .of_quiet ⟨hc.nodes, fun {id name} hname => ?_, fun {id name} hname => ?_, fun {name b} hb => ?_⟩
    (.refl _) .rfl (fun {key f} hf => ?_) hkept (fun {name} hname => ?_) (List.Subset.refl _) rfl rfl
  · replace hname := (hnames id).symm.trans hname
    split_ifs at hname with heq
    · exact heq ▸ hvisited
    · exact hc.visited hname
  · replace hname := (hnames id).symm.trans hname
    split_ifs at hname with heq
    · exact ⟨decl, heq ▸ hkind⟩
    · exact hc.kinds hname
  · obtain ⟨rfl, rfl⟩ | hb := haggregates hb
    · exact (hnames a.decl).trans (if_pos rfl)
    · exact hkept (hc.names hb)
  · change (c.symbols.addAggregate a).functions.get? key = some f
    rwa [SymbolTables.addAggregate_eq]
  · obtain ⟨b, hb, hinstance⟩ := hname
    obtain ⟨rfl, rfl⟩ | hb := haggregates hb
    · exact .inr (howed hinstance)
    · exact .inl ⟨b, hb, hinstance⟩

variable [p.Leads]

/-- An aggregate is registered for a declaration at which one has looked just now. -/
theorem registerAggregate {id : NodeId} {name : String} {decl : AggregateDecl} {isInstance : Bool}
    {location : Location} {owed : Option String} (hc : c.Labelled) (hvisited : c.stateOf id ≠ .unchecked)
    (hkind : c.tree.HasKind id (.aggregate decl)) (hfresh : c.symbols.declaredNames.get? id = none)
    (howed : isInstance = true → name ∈ owed)
    (hrun : CompileM.registerAggregate id name decl isInstance location p c = .ok () c') :
    c.Delivers owed c' ∧ c.Fills c' := by
  unfold CompileM.registerAggregate at hrun
  rw [CompileM.bind_of_eq_ok (CompileM.get_apply p c)] at hrun
  cases hname : c.symbols.aggregates.get? name with
  | some existing =>
    rw [hname] at hrun
    obtain ⟨_, _, -, hrun⟩ := CompileM.bind_eq_ok.mp hrun
    obtain ⟨_, _, hrun, -⟩ := CompileM.bind_eq_ok.mp hrun
    cases hrun
  | none =>
    rw [hname] at hrun
    obtain ⟨base, c₁, hbase, hrun⟩ := CompileM.bind_eq_ok.mp hrun
    obtain ⟨fields, c₂, hfields, hrun⟩ := CompileM.bind_eq_ok.mp hrun
    obtain ⟨h₁, hfills₁⟩ := of_holds hc hbase (resolveBase name decl location)
    obtain ⟨h₂, hfills₂⟩ := of_holds h₁.labelled hfields (collectFields name decl base location)
    have hlater := (EndsIn.of_ok (Leads.run (resolveBase (D := laterRuns p) name decl location) c) hbase).trans
      (EndsIn.of_ok (Leads.run (collectFields (D := laterRuns p) name decl base location) c₁) hfields)
    rw [CompileM.bind_of_eq_ok (CompileM.get_apply p c₂)] at hrun
    obtain ⟨⟨⟩, c₃, hadd, hrun⟩ := CompileM.bind_eq_ok.mp hrun
    cases hadd
    have h₃ := addAggregate
      (a := { decl := id, name, fields, base, isInstance, space := c₂.space, subst := c₂.subst }) h₂.labelled
      (hlater.ne_unchecked hvisited) (hlater.tree.hasKind hkind) ((hlater.names hvisited).trans hfresh) howed
    -- What follows enters the methods.
    obtain ⟨h₄, hfills₄⟩ := of_holds h₃.labelled hrun <| by
      refine bind (filterMapM fun method => checkFunction method _ _) fun own => ?_
      cases base
      on_goal 1 => refine (pure []).bind fun inherited => ?_
      on_goal 2 => refine (inheritMethods _ _ _).bind fun inherited => ?_
      all_goals
        refine fun c => (deliveringRuns p).get_bind ?_
        cases ha : c.symbols.aggregates.get? name with
        | none => exact pure _ c
        | some symbol => exact setAggregate ha rfl rfl
    exact ⟨h₁.weaken.trans (h₂.weaken.trans (h₃.trans h₄.weaken)), hfills₁.trans (hfills₂.trans hfills₄)⟩

theorem checkAggregate {id : NodeId} {instanceName : Option String} {r : Option String} (hc : c.Labelled)
    (hrun : CompileM.checkAggregate id instanceName p c = .ok r c') :
    c.Delivers instanceName c' ∧ c.Fills c' := by
  unfold CompileM.checkAggregate at hrun
  obtain ⟨location, c₁, hlocate, hkinds⟩ := CompileM.bind_eq_ok.mp hrun
  obtain rfl := CompileM.state_of_locate hlocate
  obtain ⟨kind, c₂, hread, hbody⟩ := CompileM.bind_eq_ok.mp hkinds
  obtain ⟨rfl, hkind⟩ := CompileM.kindOf_eq_ok hread
  cases kind with
  | aggregate decl =>
    obtain ⟨isNew, c₃, hbegin, hrun⟩ := CompileM.bind_eq_ok.mp hbody
    obtain ⟨h₁, hfills₁⟩ := of_holds hc hbegin (beginCheck id)
    by_cases hid : c₂.stateOf id = .unchecked
    · cases (CompileM.beginCheck_apply hid).symm.trans hbegin
      rw [if_neg (by decide)] at hrun
      by_cases htemplate : (decl.isTemplate && instanceName.isNone) = true
      · rw [if_pos htemplate] at hrun
        obtain ⟨⟨⟩, c₄, hregister, hrun⟩ := CompileM.bind_eq_ok.mp hrun
        cases hrun
        obtain ⟨h₂, hfills₂⟩ := of_holds h₁.labelled hregister (registerAggregateTemplate id decl location)
        exact ⟨(h₁.trans h₂).weaken, hfills₁.trans hfills₂⟩
      · rw [if_neg htemplate, CompileM.bind_of_eq_ok (CompileM.get_apply p _)] at hrun
        obtain ⟨⟨⟩, c₄, hregister, hrun⟩ := CompileM.bind_eq_ok.mp hrun
        cases hrun
        have hfresh : c₂.symbols.declaredNames.get? id = none :=
          Option.eq_none_iff_forall_ne_some.mpr fun name hname => hc.visited hname hid
        have howed (hsome : instanceName.isSome = true) :
            instanceName.getD (c₂.qualify decl.name) ∈ instanceName := by
          obtain ⟨name, rfl⟩ := Option.isSome_iff_exists.mp hsome
          rfl
        have hvisited : { c₂ with states := c₂.states.insert id .checked }.stateOf id ≠ .unchecked := by
          rw [Later.stateOf_insert, if_pos rfl]
          decide
        obtain ⟨h₂, hfills₂⟩ := registerAggregate h₁.labelled hvisited hkind hfresh howed hregister
        exact ⟨h₁.weaken.trans h₂, hfills₁.trans hfills₂⟩
    · cases (CompileM.beginCheck_of_visited hid).symm.trans hbegin
      cases hrun
      exact ⟨h₁.weaken, hfills₁⟩
  | _ => cases hbody

/-! ### Emission -/

omit [p.Delivers] [p.Leads]

/-- The same tables and the same tree, while the books are kept in another way. -/
theorem rebook {e : Context} {owed : Option String} {program : Program} (h : e.Delivers owed c')
    (hsymbols : e.symbols = c.symbols) (htree : e.tree = c.tree) (hpending : e.pending = c.pending)
    (hstates : ∀ {id}, c.stateOf id = .emitted → e.stateOf id = .emitted)
    (hdefinitions : Accounts NodeKind.isDefinition c'.symbols.LinksAs c.stateOf c'.stateOf c'.tree
      (c.program.definitions.map (·.name)) (program.definitions.map (·.name)))
    (htypes : Accounts NodeKind.isAggregate (fun id name => c'.symbols.declaredNames.get? id = some name)
      c.stateOf c'.stateOf c'.tree (c.program.types.map (·.name)) (program.types.map (·.name))) :
    c.Delivers owed { c' with program } where
  labelled := ⟨h.labelled.nodes, h.labelled.visited, h.labelled.kinds, h.labelled.names⟩
  tree := htree ▸ h.tree
  states hid := h.states (hstates hid)
  functions hf := h.functions (hsymbols ▸ hf)
  names hname := h.names (hsymbols ▸ hname)
  definitions := hdefinitions
  types := htypes
  instances {name} hname := by
    refine (h.instances (show c'.HasInstance name from hname)).imp_left ?_
    rintro ⟨a, ha, hinstance⟩
    exact ⟨a, hsymbols ▸ ha, hinstance⟩
  scheduled {name} hname := by
    refine h.scheduled (show e.IsTypeScheduled name from ?_)
    obtain hwaits | ⟨id, hid, hstate⟩ := hname
    · exact .inl (hpending ▸ hwaits)
    · exact .inr ⟨id, hsymbols ▸ hid, hstates hstate⟩

theorem stateOf_marked (c : Context) (id other : NodeId) (h : c.stateOf other = .emitted) :
    { c with states := c.states.insert id .emitted }.stateOf other = .emitted := by
  rw [Later.stateOf_insert]
  split_ifs
  · rfl
  · exact h

/-- The emission of a declaration begins that is neither a function with a body nor an aggregate. -/
theorem mark_other {id : NodeId} {kind : NodeKind} (hc : c.Labelled) (hkind : c.tree.HasKind id kind)
    (hdefinition : kind.isDefinition = false) (haggregate : kind.isAggregate = false) :
    c.Delivers none { c with states := c.states.insert id .emitted } := by
  have hmarked : { c with states := c.states.insert id .emitted }.Labelled :=
    hc.mark (by decide) fun _ => ⟨kind, hkind⟩
  have hbooks {sort : NodeKind → Bool} {stands : NodeId → String → Prop} (hsort : sort kind = false)
      (names : List String) : Accounts sort stands c.stateOf
        { c with states := c.states.insert id .emitted }.stateOf c.tree names names :=
    Accounts.skip ⟨[], .nil fun _ h => h, by simp⟩ (Later.stateOf_insert c id · .emitted) hkind hsort
  exact rebook (.refl hmarked) rfl rfl rfl (stateOf_marked c id _) (hbooks hdefinition _) (hbooks haggregate _)

/-- The emission of a function with a body begins, and in the end the function is a definition. -/
theorem mark_definition {ended : Context} {f : FunctionSymbol} {key : String} {decl : FunctionDecl}
    {fn : IrFunction} {subst : Substitution} {space : List String} (h : { c with
      states := c.states.insert f.decl .emitted, subst, space, function := none }.Delivers none ended)
    (hf : c.symbols.functions.get? key = some f) (hid : c.stateOf f.decl ≠ .emitted)
    (hkind : c.tree.HasKind f.decl (.function decl)) (hbody : decl.body.isSome = true)
    (hname : fn.name = f.linkName) (hdefinition : fn.isDeclaration = false) :
    c.Delivers none { ended with program := ended.program.addFunction fn } := by
  have hemitted : ended.stateOf f.decl = .emitted :=
    h.states ((Later.stateOf_insert c f.decl f.decl .emitted).trans (if_pos rfl))
  have hkind' := h.tree.hasKind hkind
  refine rebook h rfl rfl rfl (stateOf_marked c f.decl _) ?_ ?_
  · obtain ⟨items, hitems, hnames⟩ := h.definitions
    refine ⟨_, hitems.cons (Later.stateOf_insert c f.decl · .emitted) hid hemitted hkind' hbody
      ⟨key, f, h.functions hf, rfl, rfl⟩, ?_⟩
    have hadded : (ended.program.addFunction fn).definitions.map (·.name) =
        ended.program.definitions.map (·.name) ++ [f.linkName] := by
      rw [Program.definitions_addFunction, hdefinition, List.map_append]
      exact congrArg (_ ++ [·]) hname
    rw [hadded]
    refine (hnames.append_right [f.linkName]).trans ?_
    rw [List.append_assoc]
    exact List.perm_append_comm.append_left _
  · exact h.types.skip (Later.stateOf_insert c f.decl · .emitted) hkind' rfl

/-- The emission of an aggregate begins, and its type is added. -/
theorem mark_aggregate {id : NodeId} {name : String} {type : IrType} {decl : AggregateDecl} (h : { c with
      states := c.states.insert id .emitted, program := c.program.addType ⟨name, type⟩ }.Delivers none c')
    (hname : c.symbols.declaredNames.get? id = some name) (hid : c.stateOf id ≠ .emitted)
    (hkind : c.tree.HasKind id (.aggregate decl)) : c.Delivers none c' := by
  have hemitted : c'.stateOf id = .emitted :=
    h.states ((Later.stateOf_insert c id id .emitted).trans (if_pos rfl))
  have hkind' := h.tree.hasKind hkind
  refine rebook h rfl rfl rfl (stateOf_marked c id _) ?_ ?_
  · exact h.definitions.skip (Later.stateOf_insert c id · .emitted) hkind' rfl
  · obtain ⟨items, hitems, hnames⟩ := h.types
    refine ⟨_, hitems.cons (Later.stateOf_insert c id · .emitted) hid hemitted hkind' rfl (h.names hname), ?_⟩
    have hadded : (c.program.addType ⟨name, type⟩).types.map (·.name) = c.program.types.map (·.name) ++ [name] :=
      List.map_append
    rw [hadded, List.append_assoc] at hnames
    exact hnames

theorem emitVariable {id : NodeId} {decl : VariableDecl} (hkind : c.tree.HasKind id (.variable decl))
    (location : Location) : (deliveringRuns p).At (do
      if ← CompileM.beginEmit id then CompileM.emitGlobal id location) c := by
  by_cases hid : c.stateOf id = .emitted
  · refine andThen (fun hc _ _ hrun => ?_) fun _ _ hrun => ?_
    · cases (CompileM.beginEmit_of_emitted hid).symm.trans hrun
      exact ⟨.refl hc, .of_eq rfl⟩
    · cases (CompileM.beginEmit_of_emitted hid).symm.trans hrun
      exact pure _ _
  · refine andThen (fun hc _ _ hrun => ?_) fun _ _ hrun => ?_
    · cases (CompileM.beginEmit_apply hid).symm.trans hrun
      exact ⟨mark_other hc hkind rfl rfl, .of_eq rfl⟩
    · cases (CompileM.beginEmit_apply hid).symm.trans hrun
      exact emitGlobal id location _

variable [p.Delivers]

/-- The type of an aggregate is added to the code when its emission begins. -/
theorem emitAggregate {name : String} (hc : c.Labelled) (hrun : CompileM.emitAggregate name p c = .ok () c') :
    (c.Delivers none c' ∧ c.Fills c') ∧ c'.IsTypeEmitted name := by
  unfold CompileM.emitAggregate at hrun
  rw [CompileM.bind_of_eq_ok (CompileM.get_apply p c)] at hrun
  cases ha : c.symbols.aggregates.get? name with
  | none =>
    rw [ha] at hrun
    cases hrun
  | some a =>
    rw [ha] at hrun
    have hname := hc.names ha
    obtain ⟨decl, hkind⟩ := hc.kinds hname
    obtain ⟨isNew, c₁, hbegin, hrest⟩ := CompileM.bind_eq_ok.mp hrun
    by_cases hid : c.stateOf a.decl = .emitted
    · cases (CompileM.beginEmit_of_emitted hid).symm.trans hbegin
      cases hrest
      exact ⟨⟨.refl hc, .of_eq rfl⟩, a.decl, hname, hid⟩
    · cases (CompileM.beginEmit_apply hid).symm.trans hbegin
      rw [if_pos rfl] at hrest
      obtain ⟨location, c₂, hlocate, htyped⟩ := CompileM.bind_eq_ok.mp hrest
      obtain rfl := CompileM.state_of_locate hlocate
      obtain ⟨type, c₃, hlower, hadded⟩ := CompileM.bind_eq_ok.mp htyped
      obtain ⟨rfl, -⟩ := CompileM.lower_eq_ok hlower
      obtain ⟨⟨⟩, c₄, hadd, hmethods⟩ := CompileM.bind_eq_ok.mp hadded
      cases hadd
      have hmarked : { c with states := c.states.insert a.decl .emitted }.Labelled :=
        hc.mark (by decide) fun _ => ⟨_, hkind⟩
      let e : Context := { c with
        states := c.states.insert a.decl .emitted, program := c.program.addType ⟨name, type⟩ }
      have he : e.Labelled := ⟨hmarked.nodes, hmarked.visited, hmarked.kinds, hmarked.names⟩
      obtain ⟨h, hfills⟩ := of_holds he hmethods (forM fun key => job (.emitFunction key) rfl)
      have hemitted : c'.stateOf a.decl = .emitted :=
        h.states ((Later.stateOf_insert c a.decl a.decl .emitted).trans (if_pos rfl))
      exact ⟨⟨mark_aggregate h hname hid hkind, hfills⟩, a.decl, h.names hname, hemitted⟩

/-- A function is begun, written and ended; then it is a definition. -/
theorem emitBody {f : FunctionSymbol} {function : IrFunction} {classes : List PassingClass} {body : NodeId}
    {location : Location} (hc : c.Labelled)
    (hrun : CompileM.emitBody f function classes body location p c = .ok () c') :
    ∃ ended fn, c.Delivers none ended ∧ fn.name = function.name ∧ fn.isDeclaration = false ∧
      c' = { ended with function := none, program := ended.program.addFunction fn } := by
  rw [CompileM.emitBody_eq, CompileM.bind_of_eq_ok (CompileM.get_apply p c),
    CompileM.bind_of_eq_ok (CompileM.setFunctionState_apply _ p c)] at hrun
  obtain ⟨⟨⟩, ended, hfill, hfinish⟩ := CompileM.bind_eq_ok.mp hrun
  obtain ⟨h, hfills⟩ := of_holds (hc.rebind c.subst c.space _ c.instantiationDepth) hfill
    (Discipline.Holds.fillFunction f function.signature classes (statement body) location)
  obtain ⟨g, hg, hkeeps⟩ := hfills _ rfl
  refine ⟨ended, g.builder.finish, h.rebind, hkeeps.name, hkeeps.isDeclaration_finish ?_,
    CompileM.finishFunction_spec hg hfinish⟩
  have hblocks : (FunctionState.begin f function c.layout).builder.function.blocks =
      function.blocks ++ [{ id := 0, label := some "entry" }] ++ [{ id := 1, label := some "exit" }] := rfl
  simp [hblocks]

/-- A function with a body becomes a definition when it is emitted. -/
theorem emitSymbol {f : FunctionSymbol} {key : String} {subst : Substitution} {space : List String}
    (hc : c.Labelled) (hf : c.symbols.functions.get? key = some f) (hid : c.stateOf f.decl ≠ .emitted)
    (hrun : CompileM.emitSymbol f p { c with
      states := c.states.insert f.decl .emitted, subst, space, function := none } = .ok () c') :
    c.Delivers none c' := by
  rw [CompileM.emitSymbol_eq] at hrun
  obtain ⟨location, c₁, hlocate, hkinds⟩ := CompileM.bind_eq_ok.mp hrun
  obtain rfl := CompileM.state_of_locate hlocate
  obtain ⟨kind, c₂, hread, hbody⟩ := CompileM.bind_eq_ok.mp hkinds
  obtain ⟨rfl, hkind⟩ := CompileM.kindOf_eq_ok hread
  cases kind with
  | function decl =>
    have hmarked : { c with states := c.states.insert f.decl .emitted }.Labelled :=
      hc.mark (by decide) fun _ => ⟨_, hkind⟩
    let e : Context := { c with states := c.states.insert f.decl .emitted, subst, space, function := none }
    have he : e.Labelled := hmarked.rebind subst space none c.instantiationDepth
    obtain ⟨classes, c₃, hclasses, hbody⟩ := CompileM.bind_eq_ok.mp hbody
    obtain ⟨signature, c₄, hsignature, hbody⟩ := CompileM.bind_eq_ok.mp hbody
    obtain ⟨h₁, -⟩ := of_holds he hclasses (classifyParams f location)
    obtain ⟨h₂, -⟩ := of_holds h₁.labelled hsignature (machineSignature f classes location)
    cases hdecl : decl.body with
    | none =>
      rw [hdecl] at hbody
      have hdeclares (fn : IrFunction) (hfn : fn.isDeclaration = true) : (deliveringRuns p).Holds (do
          if ((← get).program.function? f.linkName).isNone then
            modify fun c => { c with program := c.program.addFunction fn }) :=
        get_bind fun _ => ite (write (fun c => .declare c hfn) fun _ => rfl) (pure _)
      have h₃ := (hdeclares _ rfl c₄ h₂.labelled _ c' hbody).1
      have hmark := mark_other hc hkind (by simp [NodeKind.isDefinition, hdecl]) rfl
      have hrest : { c with states := c.states.insert f.decl .emitted }.Delivers none c' :=
        (h₁.trans (h₂.trans h₃)).rebind
      exact hmark.trans hrest
    | some body =>
      rw [hdecl] at hbody
      obtain ⟨ended, fn, h₃, hname, hdefinition, rfl⟩ := emitBody h₂.labelled hbody
      have h := mark_definition (h₁.trans (h₂.trans h₃)) hf hid hkind (by rw [hdecl]; rfl) hname hdefinition
      exact h.rebind
  | _ => cases hbody

theorem emitFunction (key : String) : (deliveringRuns p).Holds (CompileM.emitFunction key) := by
  intro c hc _ c' hrun
  unfold CompileM.emitFunction at hrun
  rw [CompileM.bind_of_eq_ok (CompileM.get_apply p c)] at hrun
  cases hf : c.symbols.functions.get? key with
  | none =>
    rw [hf] at hrun
    cases hrun
  | some f =>
    rw [hf] at hrun
    obtain ⟨isNew, c₁, hbegin, hrest⟩ := CompileM.bind_eq_ok.mp hrun
    by_cases hid : c.stateOf f.decl = .emitted
    · cases (CompileM.beginEmit_of_emitted hid).symm.trans hbegin
      cases hrest
      exact ⟨.refl hc, .of_eq rfl⟩
    · cases (CompileM.beginEmit_apply hid).symm.trans hbegin
      rw [if_pos rfl] at hrest
      obtain ⟨ended, hsymbol, rfl⟩ := CompileM.within_eq_ok.mp hrest
      exact ⟨(emitSymbol hc hf hid hsymbol).rebind, .of_eq rfl⟩

/-- The aggregates that wait are emitted one after the other. -/
theorem emitItems (items : List Pending) (hc : c.Labelled) (hrun : items.forM CompileM.emitItem p c = .ok ⟨⟩ c') :
    (c.Delivers none c' ∧ c.Fills c') ∧ ∀ {name}, Pending.aggregate name ∈ items → c'.IsTypeEmitted name := by
  induction items generalizing c with
  | nil =>
    cases hrun
    exact ⟨⟨.refl hc, .of_eq rfl⟩, nofun⟩
  | cons item rest ih =>
    obtain ⟨⟨⟩, c₁, hfirst, hrest⟩ := CompileM.bind_eq_ok.mp hrun
    obtain ⟨h, hfills⟩ := of_holds hc hfirst (emitItem item)
    obtain ⟨⟨h', hfills'⟩, hemitted⟩ := ih h.labelled hrest
    refine ⟨⟨h.trans h', hfills.trans hfills'⟩, fun {name} hname => ?_⟩
    rcases List.mem_cons.mp hname with rfl | hname
    · obtain ⟨id, hid, hstate⟩ := Performer.Delivers.emitted (p := p) hc hfirst
      exact ⟨id, h'.names hid, h'.states hstate⟩
    · exact hemitted hname

/-- What waited is emitted. -/
theorem drainPending (c : Context) : (deliveringRuns p).At (CompileM.drainPending c.pending) c := by
  intro hc _ c' hrun
  obtain ⟨⟨⟩, c₁, hdrain, hitems⟩ := CompileM.bind_eq_ok.mp hrun
  cases hdrain
  let e : Context := { c with pending := [] }
  have he : e.Labelled := ⟨hc.nodes, hc.visited, hc.kinds, hc.names⟩
  obtain ⟨⟨h, hfills⟩, hemitted⟩ := emitItems (p := p) c.pending he hitems
  refine ⟨{ h with scheduled := fun {name} hname => ?_ }, hfills⟩
  obtain hwaits | htype := hname
  · exact .inr (hemitted hwaits)
  · exact h.scheduled (.inr htype)

theorem work [p.Leads] (job : Job) {r : job.Result} (hc : c.Labelled) (hrun : job.work p c = .ok r c') :
    c.Delivers job.owes c' ∧ c.Fills c' := by
  have hnothing {x : CompileM job.Result} (howes : job.owes = none) (hx : (deliveringRuns p).Holds x)
      (hrun : x p c = .ok r c') : c.Delivers job.owes c' ∧ c.Fills c' :=
    howes ▸ of_holds hc hrun hx
  have haggregate (id : NodeId) : (deliveringRuns p).Holds (CompileM.checkAggregate id none) :=
    fun _ hc _ _ hrun => checkAggregate hc hrun
  cases job with
  | collect id space => exact hnothing rfl (collect id space) hrun
  | fold id => exact hnothing rfl (foldNode id) hrun
  | checkNode id =>
    exact hnothing rfl (checkNode_of_checks (checkFunction · none false) haggregate id) hrun
  | checkFunction id owner isInstance => exact hnothing rfl (checkFunction id owner isInstance) hrun
  | checkAggregate id instanceName => exact checkAggregate hc hrun
  | complete type location => exact hnothing rfl (complete type location) hrun
  | needsDefaults type location => exact hnothing rfl (needsDefaults type location) hrun
  | applyDefaults type slot skipped location => exact hnothing rfl (applyDefaults type slot skipped location) hrun
  | emitDeclaration id =>
    exact hnothing rfl (emitDeclaration_of_variable fun _ location _ hkind => emitVariable hkind location) hrun
  | emitFunction key => exact hnothing rfl (emitFunction key) hrun
  | emitAggregate name => exact (emitAggregate hc hrun).1
  | emitPending => exact hnothing rfl (emitPending_of_drains drainPending) hrun
  | emitExpr id => exact hnothing rfl (emitExpr id) hrun
  | emitPlace id => exact hnothing rfl (emitPlace id) hrun
  | emitStmt id => exact hnothing rfl (emitStmt id) hrun

end Jobs

/-- Whatever work is done, books are kept. -/
theorem performWithin (depth : Nat) : (UnitCompiler.performWithin depth).Delivers := by
  induction depth with
  | zero => exact ⟨fun _ _ _ _ _ => nofun, fun _ => nofun⟩
  | succ depth ih =>
    have hleads := Leads.performWithin depth
    exact ⟨fun job _ _ _ hc hrun => work job hc hrun, fun hc hrun => (emitAggregate hc hrun).2⟩

end Delivering

/-! ### Code that is there once -/

/-- A second component that belongs to one first component only is counted once. -/
theorem count_snd_of_unique {items : List (NodeId × String)} (hnodup : (items.map Prod.fst).Nodup) {id : NodeId}
    {name : String} (hmem : (id, name) ∈ items) (hunique : ∀ {other}, (other, name) ∈ items → other = id) :
    (items.map Prod.snd).count name = 1 := by
  induction items with
  | nil => cases hmem
  | cons item rest ih =>
    obtain ⟨hfirst, hrest⟩ := List.nodup_cons.mp hnodup
    rw [List.map_cons, List.count_cons]
    rcases List.mem_cons.mp hmem with rfl | hmem
    · have hnone : name ∉ rest.map Prod.snd := by
        intro hname
        obtain ⟨⟨other, _⟩, hother, rfl⟩ := List.mem_map.mp hname
        obtain rfl := hunique (List.mem_cons_of_mem _ hother)
        exact hfirst (List.mem_map_of_mem hother)
      rw [List.count_eq_zero_of_not_mem hnone]
      simp
    · have hother : item.2 ≠ name := by
        rintro rfl
        obtain rfl : item.1 = id := hunique List.mem_cons_self
        exact hfirst (List.mem_map_of_mem (f := Prod.fst) hmem)
      rw [ih hrest hmem fun h => hunique (List.mem_cons_of_mem _ h)]
      simp [hother]

namespace Context

theorem labelled_new (tree : Tree) (options : CompileOptions) : (new tree options).Labelled :=
  ⟨nofun, nofun, nofun, nofun⟩

variable {tree : Tree} {options : CompileOptions} {c : Context}

/-- What a node of a sort is named by is defined once, unless another node is named so. -/
theorem count_of_accounts {sort : NodeKind → Bool} {stands : NodeId → String → Prop}
    {states states' : NodeId → NodeState} {t : Tree} {names : List String}
    (h : Accounts sort stands states states' t [] names) {id : NodeId} {name : String} {kind : NodeKind}
    (hid : states id ≠ .emitted) (hid' : states' id = .emitted) (hkind : t.HasKind id kind)
    (hsort : sort kind = true) (hname : ∀ {name'}, stands id name' → name' = name)
    (halone : ∀ {other}, stands other name → other = id) : names.count name = 1 := by
  obtain ⟨items, hitems, hnames⟩ := h
  obtain ⟨⟨_, name'⟩, hmem, rfl⟩ := List.mem_map.mp ((hitems.mem id).mpr ⟨⟨hid, hid'⟩, kind, hkind, hsort⟩)
  obtain rfl := hname (hitems.stands _ hmem)
  rw [hnames.count_eq, List.nil_append]
  exact count_snd_of_unique hitems.nodup hmem fun hother => halone (hitems.stands _ hother)

/-- A function with a body that was emitted is defined once, unless another function has its link name. -/
theorem Delivers.definitionCount_eq_one {owed : Option String} (h : (new tree options).Delivers owed c)
    (hkeys : ∀ {key f}, c.symbols.functions.get? key = some f → c.symbols.declaredKeys.get? f.decl = some key)
    {key : String} {f : FunctionSymbol} {decl : FunctionDecl} (hf : c.symbols.functions.get? key = some f)
    (hemitted : c.stateOf f.decl = .emitted) (hkind : c.tree.HasKind f.decl (.function decl))
    (hbody : decl.body.isSome = true)
    (halone : ∀ {key' f'}, c.symbols.functions.get? key' = some f' → f'.linkName = f.linkName → key' = key) :
    c.program.definitionCount f.linkName = 1 := by
  rw [Program.definitionCount_eq]
  refine count_of_accounts h.definitions (by nofun) hemitted hkind hbody ?_ ?_
  · rintro _ ⟨key', f', hf', hdecl, rfl⟩
    have hkey := hkeys hf'
    rw [hdecl, hkeys hf] at hkey
    cases hkey
    cases hf.symm.trans hf'
    rfl
  · rintro _ ⟨key', f', hf', rfl, hlink⟩
    obtain rfl := halone hf' hlink
    cases hf.symm.trans hf'
    rfl

/-- An aggregate that was emitted has one type, unless another declaration has its name. -/
theorem Delivers.typeCount_eq_one {owed : Option String} (h : (new tree options).Delivers owed c) {name : String}
    (hemitted : c.IsTypeEmitted name)
    (halone : ∀ {id id'}, c.symbols.declaredNames.get? id = some name →
      c.symbols.declaredNames.get? id' = some name → id = id') :
    (c.program.types.map (·.name)).count name = 1 := by
  obtain ⟨id, hname, hid⟩ := hemitted
  obtain ⟨decl, hkind⟩ := h.labelled.kinds hname
  refine count_of_accounts h.types (by nofun) hid hkind rfl (fun hname' => ?_) fun hother => halone hother hname
  rw [hname] at hname'
  cases hname'
  rfl

end Context
end UnitCompiler
