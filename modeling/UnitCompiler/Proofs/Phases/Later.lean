import UnitCompiler.Proofs.Compile.Actions
import UnitCompiler.Proofs.Ir.Definitions
import UnitCompiler.Proofs.Relocation.Copy
import UnitCompiler.Proofs.Relocation.Rebuilding

/-!
# Later contexts

What a run of the compiler leaves alone.  Nodes and function symbols stay, declarations only come
further, and what is known by name stays known.  Emission adds no names to those that checking found,
apart from the instances of templates.  Work outside of functions stays there.
-/

namespace UnitCompiler

/-! ### Growing trees -/

/-- The nodes of the one tree are the first nodes of the other. -/
structure Tree.Begins (t t' : Tree) : Prop where
  files : t'.files = t.files
  size_le : t.size ≤ t'.size
  node? : ∀ {id : NodeId}, id.index < t.size → t'.node? id = t.node? id

namespace Tree

variable {t t' t'' : Tree}

theorem Begins.refl (t : Tree) : t.Begins t := ⟨rfl, le_refl _, fun _ => rfl⟩

theorem Begins.trans (h : t.Begins t') (h' : t'.Begins t'') : t.Begins t'' :=
  ⟨h'.files.trans h.files, h.size_le.trans h'.size_le,
    fun hid => (h'.node? (hid.trans_le h.size_le)).trans (h.node? hid)⟩

theorem Begins.push (t : Tree) (kind : NodeKind) (span : Span) : t.Begins (t.push kind span).2 := by
  constructor
  · rfl
  · rw [size_push]
    exact Nat.le_succ _
  · intro id hid
    rw [node?_push, if_neg (Nat.ne_of_lt hid)]

/-- A node behind the ones of the first tree may be changed. -/
theorem Begins.modifyKind (h : t.Begins t') {id : NodeId} (hid : t.size ≤ id.index)
    (f : NodeKind → NodeKind) : t.Begins (t'.modifyKind id f) := by
  constructor
  · exact h.files
  · rw [size_modifyKind]
    exact h.size_le
  · intro id' hid'
    rw [node?_modifyKind, if_neg ?_, h.node? hid']
    rintro rfl
    omega

theorem Begins.node?_eq_some (h : t.Begins t') {id : NodeId} {node : Node}
    (hnode : t.node? id = some node) : t'.node? id = some node :=
  (h.node? (index_lt_of_node? hnode)).trans hnode

theorem Begins.hasKind (h : t.Begins t') {id : NodeId} {kind : NodeKind} (hkind : t.HasKind id kind) :
    t'.HasKind id kind := by
  obtain ⟨span, hnode⟩ := hkind
  exact ⟨span, h.node?_eq_some hnode⟩

theorem HasKind.eq {id : NodeId} {kind kind' : NodeKind} (h : t.HasKind id kind)
    (h' : t.HasKind id kind') : kind = kind' := by
  obtain ⟨span, hnode⟩ := h
  obtain ⟨span', hnode'⟩ := h'
  cases hnode.symm.trans hnode'
  rfl

/-- A copier that only adds nodes. -/
def Adds {α : Type} (x : StateT Tree (Except CopyError) α) : Prop :=
  ∀ t a t', x t = .ok (a, t') → t.Begins t'

namespace Adds

variable {α β : Type} {x : StateT Tree (Except CopyError) α}
  {f : α → StateT Tree (Except CopyError) β}

theorem pure (a : α) : Adds (Pure.pure a) := by
  rintro t _ _ ⟨⟩
  exact .refl t

theorem bind (hx : Adds x) (hf : ∀ a, Adds (f a)) : Adds (x >>= f) := by
  intro t b t'' h
  obtain ⟨a, t', hrun, h⟩ := run_bind_eq_ok.mp h
  exact (hx _ _ _ hrun).trans (hf _ _ _ _ h)

theorem mapM {items : List α} (hf : ∀ a, Adds (f a)) : Adds (items.mapM f) := by
  induction items with
  | nil => exact pure _
  | cons item rest ih =>
    rw [List.mapM_cons]
    exact (hf item).bind fun _ => ih.bind fun _ => pure _

theorem mapChildren {f : NodeId → StateT Tree (Except CopyError) NodeId} (hf : ∀ id, Adds (f id))
    (kind : NodeKind) : Adds (kind.mapChildren f) :=
  fun _ _ _ h => mapM hf _ _ _ (run_children h).1

theorem copyWithin (fuel : Nat) (id : NodeId) : Adds (Tree.copyWithin fuel id) := by
  induction fuel generalizing id with
  | zero => nofun
  | succ fuel ih =>
    intro t copy t' h
    cases hnode : t.node? id with
    | none =>
      rw [show Tree.copyWithin (fuel + 1) id t = _ from copyWithin_of_none hnode] at h
      cases h
    | some node =>
      rw [show Tree.copyWithin (fuel + 1) id t = _ from copyWithin_of_some hnode] at h
      refine bind (mapChildren ih node.kind) (fun kind => ?_) _ _ _ h
      rintro t _ _ ⟨⟩
      exact .push t kind node.span

end Adds

/-- The copy of a subtree stands behind the nodes that were there. -/
theorem begins_of_copySubtree {id copy : NodeId} (h : t.copySubtree id = .ok (copy, t')) :
    t.Begins t' ∧ t.size ≤ copy.index := by
  refine ⟨Adds.copyWithin _ _ _ _ _ h, ?_⟩
  cases hnode : t.node? id with
  | none =>
    rw [show t.copySubtree id = _ from copyWithin_of_none hnode] at h
    cases h
  | some node =>
    rw [show t.copySubtree id = _ from copyWithin_of_some hnode] at h
    obtain ⟨kind, t₁, hrun, h⟩ := run_bind_eq_ok.mp h
    cases h
    exact (Adds.mapChildren (Adds.copyWithin _) node.kind _ _ _ hrun).size_le

end Tree

/-! ### Later contexts -/

/-- How far a state has come. -/
def NodeState.rank : NodeState → Nat
  | .unchecked => 0
  | .checked => 1
  | .emitted => 2

theorem NodeState.rank_pos {state : NodeState} : 0 < state.rank ↔ state ≠ .unchecked := by
  cases state <;> simp [rank]

/-- Tables that still hold every function, every aggregate and every name of an aggregate. -/
structure SymbolTables.Grows (s s' : SymbolTables) : Prop where
  functions : ∀ {key f}, s.functions.get? key = some f → s'.functions.get? key = some f
  aggregates : ∀ {name a}, s.aggregates.get? name = some a →
    ∃ a', s'.aggregates.get? name = some a' ∧ a'.decl = a.decl
  declared : ∀ {name}, s.declaredAggregates.contains name → s'.declaredAggregates.contains name

namespace SymbolTables.Grows

variable {s s' s'' : SymbolTables}

theorem refl (s : SymbolTables) : s.Grows s := ⟨id, fun h => ⟨_, h, rfl⟩, id⟩

theorem trans (h : s.Grows s') (h' : s'.Grows s'') : s.Grows s'' where
  functions hf := h'.functions (h.functions hf)
  aggregates ha := by
    obtain ⟨a', ha', hdecl⟩ := h.aggregates ha
    obtain ⟨a'', ha'', hdecl'⟩ := h'.aggregates ha'
    exact ⟨a'', ha'', hdecl'.trans hdecl⟩
  declared hname := h'.declared (h.declared hname)

theorem of_eq (hfunctions : s'.functions = s.functions) (haggregates : s'.aggregates = s.aggregates)
    (hdeclared : s'.declaredAggregates = s.declaredAggregates) : s.Grows s' where
  functions hf := by rwa [hfunctions]
  aggregates ha := ⟨_, by rwa [haggregates], rfl⟩
  declared hname := by rwa [hdeclared]

/-- A new function is entered. -/
theorem insertFunction {f : FunctionSymbol} (h : s.Grows s') (hnew : s'.functions.get? f.key = none) :
    s.Grows { s' with functions := s'.functions.insert f.key f } where
  functions {key g} hg := by
    have hold := h.functions hg
    rw [Table.get?_insert_of_ne]
    · exact hold
    · rintro rfl
      rw [hnew] at hold
      cases hold
  aggregates := h.aggregates
  declared := h.declared

/-- An aggregate is entered that is new or stands for the same declaration as before. -/
theorem insertAggregate {name : String} {a : AggregateSymbol} (h : s.Grows s')
    (hold : ∀ a₀, s.aggregates.get? name = some a₀ → a.decl = a₀.decl) :
    s.Grows { s' with aggregates := s'.aggregates.insert name a } where
  functions := h.functions
  aggregates {name' a₀} ha₀ := by
    rw [Table.get?_insert]
    split_ifs with heq
    · subst heq
      exact ⟨a, rfl, hold a₀ ha₀⟩
    · exact h.aggregates ha₀
  declared := h.declared

theorem insertDeclared {name : String} {site : DeclarationSite} (h : s.Grows s') :
    s.Grows { s' with declaredAggregates := s'.declaredAggregates.insert name site } where
  functions := h.functions
  aggregates := h.aggregates
  declared {name'} hname' := by
    have hold := h.declared hname'
    rw [Table.contains] at hold ⊢
    rw [Table.get?_insert]
    split_ifs
    · rfl
    · exact hold

end SymbolTables.Grows

namespace Context

/-- Contexts that differ at most in the code, the diagnostics and the function under emission, which does
not begin. -/
structure Wrote (c c' : Context) : Prop where
  same : c' = { c with
    function := c'.function, program := c'.program, log := c'.log, stringCount := c'.stringCount }
  outside : c.function = none → c'.function = none

namespace Wrote

theorem trans {c c' c'' : Context} (h : c.Wrote c') (h' : c'.Wrote c'') : c.Wrote c'' :=
  ⟨Eq.trans h'.same (by rw [h.same]), fun hc => h'.outside (h.outside hc)⟩

end Wrote

/-- Such contexts in which the function under emission keeps what it has, and nothing was defined. -/
structure Edited (c c' : Context) : Prop extends Wrote c c' where
  function : ∀ {f}, c.function = some f → ∃ f', c'.function = some f' ∧ f.builder.Keeps f'.builder
  definitions : c'.program.definitions = c.program.definitions
  types : c'.program.types = c.program.types

namespace Edited

theorem of_eq {c c' : Context} (hsame : c' = { c with program := c'.program, log := c'.log, stringCount := c'.stringCount })
    (hdefinitions : c'.program.definitions = c.program.definitions) (htypes : c'.program.types = c.program.types) :
    c.Edited c' := by
  have hfunction : c'.function = c.function := by rw [hsame]
  refine ⟨⟨?_, fun h => hfunction.trans h⟩, fun h => ⟨_, hfunction.trans h, .refl _⟩, hdefinitions, htypes⟩
  rw [hfunction]
  exact hsame

theorem refl (c : Context) : c.Edited c := of_eq rfl rfl rfl

theorem trans {c c' c'' : Context} (h : c.Edited c') (h' : c'.Edited c'') : c.Edited c'' where
  toWrote := h.toWrote.trans h'.toWrote
  function hf := by
    obtain ⟨f', hf', hkeeps⟩ := h.function hf
    obtain ⟨f'', hf'', hkeeps'⟩ := h'.function hf'
    exact ⟨f'', hf'', hkeeps.trans hkeeps'⟩
  definitions := h'.definitions.trans h.definitions
  types := h'.types.trans h.types

theorem warn (c : Context) (location : Location) (message code : String) :
    c.Edited (c.warn location message code) := by
  unfold Context.warn
  split
  · exact of_eq rfl rfl rfl
  · exact refl c

theorem reportUnused (c : Context) (vars : List LocalVar) : c.Edited (c.reportUnused vars) := by
  unfold Context.reportUnused
  split_ifs with h
  · clear h
    induction vars generalizing c with
    | nil => exact refl c
    | cons v rest ih => exact (warn c _ _ _).trans (ih _)
  · exact refl c

/-- The function under emission is written. -/
theorem setFunction {c : Context} {f f' : FunctionState} (h : c.function = some f)
    (hkeeps : f.builder.Keeps f'.builder) : c.Edited { c with function := some f' } where
  same := rfl
  outside hnone := by
    rw [h] at hnone
    cases hnone
  function hf := by
    cases h.symm.trans hf
    exact ⟨f', rfl, hkeeps⟩
  definitions := rfl
  types := rfl

/-- The program gets a function without a body. -/
theorem declare (c : Context) {f : IrFunction} (h : f.isDeclaration = true) :
    c.Edited { c with program := c.program.addFunction f } :=
  of_eq rfl (by simp [Program.definitions_addFunction, h]) rfl

end Edited

/-- Only declarations that were looked at have a key or a name. -/
structure Sound (c : Context) : Prop where
  keys : ∀ {id key}, c.symbols.declaredKeys.get? id = some key → c.stateOf id ≠ .unchecked
  names : ∀ {id name}, c.symbols.declaredNames.get? id = some name → c.stateOf id ≠ .unchecked

/-- A context that a run has led to from another one. -/
structure Later (c c' : Context) : Prop where
  tree : c.tree.Begins c'.tree
  phase : c'.phase = c.phase
  jobDepth : c'.jobDepth = c.jobDepth
  subst : c'.subst = c.subst
  space : c'.space = c.space
  states : ∀ id, (c.stateOf id).rank ≤ (c'.stateOf id).rank
  symbols : c.symbols.Grows c'.symbols
  keys : ∀ {id}, c.stateOf id ≠ .unchecked →
    c'.symbols.declaredKeys.get? id = c.symbols.declaredKeys.get? id
  names : ∀ {id}, c.stateOf id ≠ .unchecked →
    c'.symbols.declaredNames.get? id = c.symbols.declaredNames.get? id
  sound : c.Sound → c'.Sound
  aliases : c.phase = .emit → c'.symbols.aliases = c.symbols.aliases
  globals : c.phase = .emit → c'.symbols.globals = c.symbols.globals
  pending : c.phase = .emit → c.pending = [] → c'.pending = []
  outside : c.function = none → c'.function = none

theorem Later.unchecked_of_unchecked {c c' : Context} {id : NodeId} (h : c.Later c')
    (hid : c'.stateOf id = .unchecked) : c.stateOf id = .unchecked := by
  by_contra hne
  have := h.states id
  have := NodeState.rank_pos.mpr hne
  rw [hid] at *
  simp only [NodeState.rank] at *
  omega

theorem Later.ne_unchecked {c c' : Context} {id : NodeId} (h : c.Later c')
    (hid : c.stateOf id ≠ .unchecked) : c'.stateOf id ≠ .unchecked :=
  fun h' => hid (h.unchecked_of_unchecked h')

namespace Later

variable {c c' c'' : Context}

theorem refl (c : Context) : c.Later c where
  tree := .refl _
  phase := rfl
  jobDepth := rfl
  subst := rfl
  space := rfl
  states _ := le_refl _
  symbols := .refl _
  keys _ := rfl
  names _ := rfl
  sound := id
  aliases _ := rfl
  globals _ := rfl
  pending _ := id
  outside := id

theorem trans (h : c.Later c') (h' : c'.Later c'') : c.Later c'' where
  tree := h.tree.trans h'.tree
  phase := h'.phase.trans h.phase
  jobDepth := h'.jobDepth.trans h.jobDepth
  subst := h'.subst.trans h.subst
  space := h'.space.trans h.space
  states id := (h.states id).trans (h'.states id)
  symbols := h.symbols.trans h'.symbols
  keys hid := (h'.keys (h.ne_unchecked hid)).trans (h.keys hid)
  names hid := (h'.names (h.ne_unchecked hid)).trans (h.names hid)
  sound hc := h'.sound (h.sound hc)
  aliases hphase := (h'.aliases (h.phase.trans hphase)).trans (h.aliases hphase)
  globals hphase := (h'.globals (h.phase.trans hphase)).trans (h.globals hphase)
  pending hphase hc := h'.pending (h.phase.trans hphase) (h.pending hphase hc)
  outside hc := h'.outside (h.outside hc)

/-! ### Basic changes -/

theorem wrote (h : c.Wrote c') : c.Later c' := by
  rw [h.same]
  exact { refl c with sound := fun hc => ⟨hc.keys, hc.names⟩, outside := h.outside }

/-- Instances wait for emission only while checking. -/
theorem postpone (item : Pending) (h : c.phase = .check) :
    c.Later { c with pending := c.pending ++ [item] } :=
  { refl c with
    sound := fun hc => ⟨hc.keys, hc.names⟩
    pending := fun hphase => by
      rw [h] at hphase
      cases hphase }

theorem drain (c : Context) : c.Later { c with pending := [] } :=
  { refl c with
    sound := fun hc => ⟨hc.keys, hc.names⟩
    pending := fun _ _ => rfl }

/-- The same stores under other bindings. -/
theorem rebind {subst subst' : Substitution} {space space' : List String}
    {function function' : Option FunctionState} {depth depth' : Nat}
    (h : { c with subst, space, function, instantiationDepth := depth }.Later c')
    (hsubst : subst' = c.subst) (hspace : space' = c.space)
    (hfunction : c.function = none → function' = none) :
    c.Later { c' with
      subst := subst', space := space', function := function', instantiationDepth := depth' } where
  tree := h.tree
  phase := h.phase
  jobDepth := h.jobDepth
  subst := hsubst
  space := hspace
  states := h.states
  symbols := h.symbols
  keys := h.keys
  names := h.names
  sound hc := by
    obtain ⟨hkeys, hnames⟩ := h.sound ⟨hc.keys, hc.names⟩
    exact ⟨hkeys, hnames⟩
  aliases := h.aliases
  globals := h.globals
  pending := h.pending
  outside := hfunction

/-- Back from work one namespace deeper. -/
theorem leaveSpace {name : String} (h : { c with space := c.space ++ [name] }.Later c') :
    c.Later { c' with space := c'.space.dropLast } :=
  h.rebind h.subst (by rw [h.space, List.dropLast_concat]) h.outside

/-- The same stores with another function under emission. -/
theorem withFunction {function : Option FunctionState} (h : c.Later c')
    (hfunction : c.function = none → function = none) : c.Later { c' with function } :=
  { h with
    sound := fun hc =>
      have hc' := h.sound hc
      ⟨hc'.keys, hc'.names⟩
    outside := hfunction }

theorem stateOf_insert (c : Context) (id id' : NodeId) (state : NodeState) :
    { c with states := c.states.insert id state }.stateOf id' =
      if id = id' then state else c.stateOf id' := by
  unfold stateOf
  rw [Table.get?_insert]
  split_ifs <;> rfl

/-- A declaration comes further. -/
theorem setState {id : NodeId} {state : NodeState} (h : (c.stateOf id).rank ≤ state.rank) :
    c.Later { c with states := c.states.insert id state } := by
  have hstates (id' : NodeId) : (c.stateOf id').rank ≤
      ({ c with states := c.states.insert id state }.stateOf id').rank := by
    rw [stateOf_insert]
    split_ifs with heq
    · exact heq ▸ h
    · exact le_refl _
  have hvisited {id' : NodeId} (hid' : c.stateOf id' ≠ .unchecked) :
      { c with states := c.states.insert id state }.stateOf id' ≠ .unchecked :=
    NodeState.rank_pos.mp ((NodeState.rank_pos.mpr hid').trans_le (hstates id'))
  exact { refl c with
    states := hstates
    sound := fun hc => ⟨fun hkey => hvisited (hc.keys hkey), fun hname => hvisited (hc.names hname)⟩ }

theorem setTree {t : Tree} (h : c.tree.Begins t) : c.Later { c with tree := t } :=
  { refl c with
    tree := h
    sound := fun hc => ⟨hc.keys, hc.names⟩ }

/-- Tables that differ in the keys and names of declarations which were looked at since. -/
theorem setSymbols {s : SymbolTables} (h : c.Later c') (hs : c.symbols.Grows s)
    (hkeys : ∀ {id}, c.stateOf id ≠ .unchecked ∨ c'.stateOf id = .unchecked →
      s.declaredKeys.get? id = c'.symbols.declaredKeys.get? id)
    (hnames : ∀ {id}, c.stateOf id ≠ .unchecked ∨ c'.stateOf id = .unchecked →
      s.declaredNames.get? id = c'.symbols.declaredNames.get? id)
    (haliases : c.phase = .emit → s.aliases = c'.symbols.aliases)
    (hglobals : c.phase = .emit → s.globals = c'.symbols.globals) :
    c.Later { c' with symbols := s } where
  tree := h.tree
  phase := h.phase
  jobDepth := h.jobDepth
  subst := h.subst
  space := h.space
  states := h.states
  symbols := hs
  keys hid := (hkeys (.inl hid)).trans (h.keys hid)
  names hid := (hnames (.inl hid)).trans (h.names hid)
  sound hc := by
    constructor
    · intro id key hkey hid
      exact (h.sound hc).keys ((hkeys (.inr hid)).symm.trans hkey) hid
    · intro id name hname hid
      exact (h.sound hc).names ((hnames (.inr hid)).symm.trans hname) hid
  aliases hphase := (haliases hphase).trans (h.aliases hphase)
  globals hphase := (hglobals hphase).trans (h.globals hphase)
  pending := h.pending
  outside := h.outside

/-- Tables that differ in nothing that is kept track of but in what they gained. -/
theorem grow {s : SymbolTables} (hs : c.symbols.Grows s)
    (hkeys : s.declaredKeys = c.symbols.declaredKeys)
    (hnames : s.declaredNames = c.symbols.declaredNames) (haliases : s.aliases = c.symbols.aliases)
    (hglobals : s.globals = c.symbols.globals) : c.Later { c with symbols := s } :=
  (refl c).setSymbols hs (fun _ => by rw [hkeys]) (fun _ => by rw [hnames]) (fun _ => haliases)
    fun _ => hglobals

end Later
end Context
end UnitCompiler
