import UnitCompiler.Proofs.Compile.Reading
import UnitCompiler.Proofs.Disciplines.Retention
import UnitCompiler.Proofs.Phases.Declarations

/-!
# Inheritance

An aggregate that extends another one has its fields in front of its own, and a copy of every method that
it does not declare itself.  A copy is checked in the environment recorded for the base, so the types of a
method must be read there as they were when the method was registered.  Then checking succeeds, and the base
is left as it was.
-/

namespace UnitCompiler

/-! ### Copies of functions -/

namespace Tree

variable {t t' : Tree} {id copy : NodeId} {d : FunctionDecl}

/-- A tree that came from a well-formed one by copying subtrees. -/
def Grown (start t : Tree) : Prop := ∃ u, Growth ⟨start.size, 0⟩ start t u

theorem WellFormed.grown (h : t.WellFormed) : t.Grown t := by
  obtain ⟨rank, hrank⟩ := h.exists_ranked
  have hnode (id : NodeId) : (Relocation.mk t.size 0).node id = id := by
    unfold Relocation.node
    split <;> rfl
  refine ⟨t, ⟨⟨rfl, le_refl _, rfl, fun id => ?_⟩, ⟨rank, hrank⟩, h.bounded, fun _ => rfl, le_refl _, rfl⟩⟩
  rw [hnode]
  cases hid : t.node? id with
  | none => rfl
  | some node =>
    have hkind : (Relocation.mk t.size 0).kind node.kind = node.kind :=
      Relocation.kind_of_lt fun child hchild => (hrank.child ⟨node, hid, hchild⟩).1
    rw [Option.map_some, hkind]

/-- The copy of a function is a function with a body of its own. -/
theorem hasKind_of_copySubtree (hkind : t.HasKind id (.function d)) (h : t.copySubtree id = .ok (copy, t')) :
    ∃ body, t'.HasKind copy (.function { d with body }) := by
  obtain ⟨span, hnode⟩ := hkind
  rw [show t.copySubtree id = _ from copyWithin_of_some hnode] at h
  obtain ⟨kind, t₁, hkind, h⟩ := run_bind_eq_ok.mp h
  obtain ⟨body, t₂, -, hkind⟩ := run_bind_eq_ok.mp hkind
  cases hkind
  cases h
  exact ⟨body, span, (node?_push t₁ _ span _).trans (if_pos rfl)⟩

/-- A function of a tree can be copied, to a new node. -/
theorem Grown.copySubtree {start : Tree} (h : start.Grown t) (hkind : t.HasKind id (.function d)) :
    ∃ copy t' body, t.copySubtree id = .ok (copy, t') ∧ start.Grown t' ∧ t.Begins t' ∧
      t.size ≤ copy.index ∧ t'.HasKind copy (.function { d with body }) := by
  obtain ⟨u, hgrowth⟩ := h
  have hid : id.index < t.size := index_lt_of_node? hkind.choose_spec
  obtain ⟨copy, t', u', hcopy, -, hgrowth', -⟩ := hgrowth.exists_copySubtree hid
  obtain ⟨body, hbody⟩ := hasKind_of_copySubtree hkind hcopy
  obtain ⟨hbegins, hle⟩ := begins_of_copySubtree hcopy
  exact ⟨copy, t', body, hcopy, ⟨u', hgrowth'⟩, hbegins, hle, hbody⟩

end Tree

/-! ### Methods with their declarations -/

/-- A registered method with its declaration. -/
structure DeclaredMethod where
  symbol : FunctionSymbol
  decl : FunctionDecl

namespace DeclaredMethod

/-- The name that a copy of the method has. -/
def nameFor (m : DeclaredMethod) (owner : String) : String := owner ++ "." ++ m.decl.name

/-- The parameters that a copy of the method has: those of the method behind another `this`. -/
def paramsFor (m : DeclaredMethod) (owner : String) : List SourceType :=
  .pointer (.named owner) :: m.symbol.params.tail

def keyFor (m : DeclaredMethod) (owner : String) : String := functionKey (m.nameFor owner) (m.paramsFor owner)

/-- The declaration of the method would be registered in the environment of the aggregate with the types
that are recorded for it. -/
structure Rereads (p : Performer) (c : Context) (a : AggregateSymbol) (m : DeclaredMethod) : Prop where
  kind : c.tree.HasKind m.symbol.decl (.function m.decl)
  single : m.decl.isTemplate = false
  destructor : m.decl.name = FunctionDecl.destructorName → m.decl.params = []
  params : List.Forall₂ (fun param type => c.TypeReads p a param.type type ∧ type.isVoid = false)
    m.decl.params m.symbol.params.tail
  ret : c.TypeReads p a m.decl.ret m.symbol.ret

/-- A copy of the method that is registered for another aggregate. -/
structure IsCopy (m : DeclaredMethod) (a : AggregateSymbol) (owner : String) (t : Tree) (g : FunctionSymbol) :
    Prop where
  decl : ∃ body, t.HasKind g.decl (.function { m.decl with body })
  name : g.name = m.nameFor owner
  key : g.key = m.keyFor owner
  params : g.params = m.paramsFor owner
  ret : g.ret = m.symbol.ret
  owner : g.owner = some owner
  space : g.space = a.space
  subst : g.subst = a.subst

end DeclaredMethod

/-! ### Registering a copy -/

/-- The symbol of a method that is neither an operator nor a constructor. -/
def FunctionDecl.methodSymbol (d : FunctionDecl) (id : NodeId) (owner : String) (isInstance : Bool)
    (params : List SourceType) (ret : SourceType) (space : List String) (subst : Substitution) :
    FunctionSymbol :=
  let params := .pointer (.named owner) :: params
  let key := functionKey (owner ++ "." ++ d.name) params
  { decl := id
    name := owner ++ "." ++ d.name
    key
    linkName := d.linkNameFor key (some owner) space.isEmpty
    params
    paramNames := "this" :: d.params.map (·.name)
    ret
    isVariadic := d.hasModifier .variadic
    convention := d.convention
    owner := some owner
    constructorOf := none
    space
    isInstance
    isExternal := d.body.isNone
    subst }

/-- The context in which a declaration has just been looked at. -/
def Context.marked (c : Context) (id : NodeId) : Context :=
  { c with states := c.states.insert id .checked }

/-- The tables with a method entered; an instance that exists already is shared. -/
def SymbolTables.enterMethod (s : SymbolTables) (name : String) (f : FunctionSymbol) (owner : String) :
    SymbolTables :=
  match s.functions.get? f.key with
  | none => (s.addMethod owner name f.key).addFunction f
  | some _ => { s with declaredKeys := s.declaredKeys.insert f.decl f.key }

namespace CompileM

variable {p : Performer} {c : Context} {id : NodeId} {d : FunctionDecl} {owner : String}
  {isInstance : Bool} {location : Location} {params : List SourceType} {ret : SourceType}

theorem functionSymbol_method (hop : d.operator = none) (hname : d.isConstructor = false)
    (hparams : resolveParams d location p c = .ok params c)
    (hret : resolveType d.ret location p c = .ok ret c) :
    functionSymbol id d (some owner) isInstance location p c =
      .ok (d.methodSymbol id owner isInstance params ret c.space c.subst) c := by
  unfold functionSymbol
  simp only [hop, hname, Option.isNone_none, Option.isSome_none, Bool.false_eq_true, if_false,
    Bool.and_self, if_true]
  rw [bind_of_eq_ok hparams, bind_of_eq_ok hret]
  rfl

/-- A method of an instance that is looked at for the first time. -/
theorem checkFunction_method (hkind : c.tree.HasKind id (.function d)) (hid : c.stateOf id = .unchecked)
    (hsingle : d.isTemplate = false) (hop : d.operator = none)
    (hname : d.name ≠ FunctionDecl.constructorName)
    (hdestructor : d.name = FunctionDecl.destructorName → d.params = [])
    (hparams : ∀ location, resolveParams d location p (c.marked id) = .ok params (c.marked id))
    (hret : ∀ location, resolveType d.ret location p (c.marked id) = .ok ret (c.marked id)) :
    checkFunction id (some owner) true p c =
      .ok (some (d.methodSymbol id owner true params ret c.space c.subst).key)
        { c.marked id with
          symbols := c.symbols.enterMethod d.name (d.methodSymbol id owner true params ret c.space c.subst)
            owner } := by
  obtain ⟨location, hread⟩ := locate_kindOf hkind
  have hconstructor : d.isConstructor = false := by
    simp [FunctionDecl.isConstructor, hname]
  have hdestructor' : (d.name == FunctionDecl.destructorName && !d.params.isEmpty) = false := by
    by_cases h : d.name = FunctionDecl.destructorName
    · simp [hdestructor h]
    · simp [h]
  have hbegin : beginCheck id p c = .ok true (c.marked id) := beginCheck_apply hid
  have hsymbol : functionSymbol id d (some owner) true location p (c.marked id) = _ :=
    functionSymbol_method hop hconstructor (hparams location) (hret location)
  generalize hf : d.methodSymbol id owner true params ret c.space c.subst = f
  rw [show d.methodSymbol id owner true params ret (c.marked id).space (c.marked id).subst = f from hf]
    at hsymbol
  have hdecl : f.decl = id := by rw [← hf]; rfl
  have howner : f.owner = some owner := by rw [← hf]; rfl
  unfold checkFunction
  rw [hread]
  dsimp only
  rw [bind_of_eq_ok hbegin]
  simp only [Bool.not_true, Bool.false_eq_true, if_false, hsingle, hdestructor', hconstructor, Bool.false_and]
  rw [bind_of_eq_ok hsymbol, bind_of_eq_ok (get_apply p _)]
  unfold SymbolTables.enterMethod
  have hsymbols : (c.marked id).symbols = c.symbols := rfl
  rw [hsymbols]
  cases c.symbols.functions.get? f.key with
  | none =>
    have hregister : register d (some owner) f location p (c.marked id) = .ok () { c.marked id with
        symbols := (c.symbols.addMethod owner d.name f.key).addFunction f } := by
      unfold register
      simp only [hop, howner]
      rfl
    dsimp only
    rw [bind_of_eq_ok hregister]
    rfl
  | some existing =>
    rw [hdecl]
    rfl

theorem copySubtree_apply {copy : NodeId} {t : Tree} (h : c.tree.copySubtree id = .ok (copy, t)) :
    copySubtree id p c = .ok copy { c with tree := t } := by
  unfold copySubtree
  rw [bind_of_eq_ok (get_apply p c), h]
  rfl

end CompileM

theorem SymbolTables.enterMethod_of_none {s : SymbolTables} {f : FunctionSymbol}
    (h : s.functions.get? f.key = none) (name owner : String) : s.enterMethod name f owner = { s with
      functions := s.functions.insert f.key f
      overloads := s.overloads.update f.name [] (· ++ [f.key])
      methods := s.methods.update (owner, name) [] (· ++ [f.key])
      declaredKeys := s.declaredKeys.insert f.decl f.key } := by
  rw [enterMethod, h]
  rfl

theorem SymbolTables.enterMethod_of_some {s : SymbolTables} {f g : FunctionSymbol}
    (h : s.functions.get? f.key = some g) (name owner : String) : s.enterMethod name f owner =
      { s with declaredKeys := s.declaredKeys.insert f.decl f.key } := by
  rw [enterMethod, h]

theorem DeclaredMethod.IsCopy.mono {m : DeclaredMethod} {a : AggregateSymbol} {owner : String} {t t' : Tree}
    {g : FunctionSymbol} (h : m.IsCopy a owner t g) (ht : t.Begins t') : m.IsCopy a owner t' g := by
  obtain ⟨body, hbody⟩ := h.decl
  exact { h with decl := ⟨body, ht.hasKind hbody⟩ }

/-! ### Copying the methods of a base -/

namespace Context

variable {p : Performer} {c e : Context} {a : AggregateSymbol} {owner : String}
  {ms : List DeclaredMethod} {m : DeclaredMethod}

/-- These methods of an aggregate have been copied for another one, and nothing else has been registered
since. -/
structure Inherited (c : Context) (a : AggregateSymbol) (owner : String) (ms : List DeclaredMethod)
    (e : Context) : Prop where
  registers : c.Registers e
  tree : c.tree.Grown e.tree
  states : ∀ id : NodeId, e.tree.size ≤ id.index → e.stateOf id = .unchecked
  keys : ∀ m ∈ ms, m.keyFor owner ∈ e.symbols.methodsOf owner m.decl.name
  copies : ∀ m ∈ ms, ∃ g, e.symbols.functions.get? (m.keyFor owner) = some g ∧ m.IsCopy a owner e.tree g
  functions : ∀ key, (∀ m ∈ ms, m.keyFor owner ≠ key) →
    e.symbols.functions.get? key = c.symbols.functions.get? key
  methods : ∀ key, (∀ m ∈ ms, (owner, m.decl.name) ≠ key) →
    e.symbols.methods.get? key = c.symbols.methods.get? key
  overloads : ∀ name, (∀ m ∈ ms, m.nameFor owner ≠ name) →
    e.symbols.overloads.get? name = c.symbols.overloads.get? name

namespace Inherited

theorem nil (htree : c.tree.WellFormed)
    (hstates : ∀ id : NodeId, c.tree.size ≤ id.index → c.stateOf id = .unchecked)
    (a : AggregateSymbol) (owner : String) : c.Inherited a owner [] c where
  registers := .refl c
  tree := htree.grown
  states := hstates
  keys _ hm := nomatch hm
  copies _ hm := nomatch hm
  functions _ _ := rfl
  methods _ _ := rfl
  overloads _ _ := rfl

/-- A new node is looked at. -/
theorem grow (h : c.Inherited a owner ms e) {copy : NodeId} {t : Tree} (ht : c.tree.Grown t)
    (hbegins : e.tree.Begins t) (hcopy : copy.index < t.size) (declaredKeys : Table NodeId String) :
    c.Inherited a owner ms { e with
      tree := t, states := e.states.insert copy .checked
      symbols := { e.symbols with declaredKeys } } where
  registers := h.registers.extend hbegins _ _ _ _ _
  tree := ht
  states id hid := by
    have hne : copy ≠ id := by
      rintro rfl
      exact absurd hcopy (Nat.not_lt.mpr hid)
    exact (Later.stateOf_insert e copy id .checked).trans
      ((if_neg hne).trans (h.states id (hbegins.size_le.trans hid)))
  keys := h.keys
  copies m hm := by
    obtain ⟨g, hg, hcopied⟩ := h.copies m hm
    exact ⟨g, hg, hcopied.mono hbegins⟩
  functions := h.functions
  methods := h.methods
  overloads := h.overloads

/-- The copy of another method is entered. -/
theorem enter (h : c.Inherited a owner ms e) {f : FunctionSymbol} (hf : m.IsCopy a owner e.tree f)
    (hnew : e.symbols.functions.get? f.key = none) :
    c.Inherited a owner (ms ++ [m]) { e with
      symbols := { e.symbols with
        functions := e.symbols.functions.insert f.key f
        overloads := e.symbols.overloads.update f.name [] (· ++ [f.key])
        methods := e.symbols.methods.update (owner, m.decl.name) [] (· ++ [f.key]) } } where
  registers := h.registers.extend (.refl _) _ _ _ _ _
  tree := h.tree
  states := h.states
  keys m' hm' := by
    rcases List.mem_append.mp hm' with hm' | hm'
    · exact (SymbolTables.Retains.prefix_getD_update _ _ _ _).subset (h.keys m' hm')
    · obtain rfl := List.mem_singleton.mp hm'
      rw [SymbolTables.methodsOf, Table.get?_update_self, ← hf.key]
      exact List.mem_append_right _ List.mem_cons_self
  copies m' hm' := by
    rcases List.mem_append.mp hm' with hm' | hm'
    · obtain ⟨g, hg, hcopied⟩ := h.copies m' hm'
      refine ⟨g, ?_, hcopied⟩
      rw [Table.get?_insert_of_ne]
      · exact hg
      · intro heq
        rw [heq, hg] at hnew
        cases hnew
    · obtain rfl := List.mem_singleton.mp hm'
      exact ⟨f, hf.key ▸ Table.get?_insert_self _ _ _, hf⟩
  functions key hkey := by
    refine (Table.get?_insert_of_ne _ _ ?_).trans
      (h.functions key fun m' hm' => hkey m' (List.mem_append_left _ hm'))
    exact hf.key ▸ hkey m (List.mem_append_right _ List.mem_cons_self)
  methods key hkey := by
    refine (Table.get?_update_of_ne _ _ _ ?_).trans
      (h.methods key fun m' hm' => hkey m' (List.mem_append_left _ hm'))
    exact hkey m (List.mem_append_right _ List.mem_cons_self)
  overloads name hname := by
    refine (Table.get?_update_of_ne _ _ _ ?_).trans
      (h.overloads name fun m' hm' => hname m' (List.mem_append_left _ hm'))
    exact hf.name ▸ hname m (List.mem_append_right _ List.mem_cons_self)

/-- A method that was copied before. -/
theorem again (h : c.Inherited a owner ms e) (hm : m ∈ ms) : c.Inherited a owner (ms ++ [m]) e := by
  have hmem : ∀ m' ∈ ms ++ [m], m' ∈ ms := by
    intro m' hm'
    rcases List.mem_append.mp hm' with hm' | hm'
    · exact hm'
    · exact List.mem_singleton.mp hm' ▸ hm
  exact { h with
    keys := fun m' hm' => h.keys m' (hmem m' hm')
    copies := fun m' hm' => h.copies m' (hmem m' hm')
    functions := fun key hkey => h.functions key fun m' hm' => hkey m' (List.mem_append_left _ hm')
    methods := fun key hkey => h.methods key fun m' hm' => hkey m' (List.mem_append_left _ hm')
    overloads := fun name hname => h.overloads name fun m' hm' => hname m' (List.mem_append_left _ hm') }

/-- One more method is copied. -/
theorem inheritMethod (h : c.Inherited a owner ms e) (hm : m.Rereads p c a)
    (hinherits : m.decl.isInheritable = true)
    (hnew : c.symbols.functions.get? (m.keyFor owner) = none)
    (hkeys : ∀ m' ∈ ms, m'.keyFor owner = m.keyFor owner → m' = m) :
    ∃ e', CompileM.inheritMethod owner a m.symbol.decl p e = .ok (some (m.keyFor owner)) e' ∧
      c.Inherited a owner (ms ++ [m]) e' := by
  obtain ⟨copy, t, body, hcopy, hgrown, hbegins, hle, hkind⟩ :=
    h.tree.copySubtree (h.registers.tree.hasKind hm.kind)
  have hlt : copy.index < t.size := Tree.index_lt_of_node? hkind.choose_spec
  let d : FunctionDecl := { m.decl with body }
  let f := d.methodSymbol copy owner true m.symbol.params.tail m.symbol.ret a.space a.subst
  have hf : m.IsCopy a owner t f := ⟨⟨body, hkind⟩, rfl, rfl, rfl, rfl, rfl, rfl, rfl⟩
  have hreads {written type : SourceType} (hread : c.TypeReads p a written type) (location : Location) :
      CompileM.resolveType written location p (({ e with tree := t }.inside a).marked copy) =
        .ok type (({ e with tree := t }.inside a).marked copy) :=
    hread _ location (h.registers.extend hbegins (e.states.insert copy .checked) e.symbols.functions
      e.symbols.overloads e.symbols.methods e.symbols.declaredKeys)
  have hparams (location : Location) :
      CompileM.resolveParams d location p (({ e with tree := t }.inside a).marked copy) =
        .ok m.symbol.params.tail (({ e with tree := t }.inside a).marked copy) := by
    refine CompileM.mapM_of_forall₂ (hm.params.imp fun param type h => ?_)
    rw [CompileM.bind_of_eq_ok (hreads h.1 location), h.2]
    rfl
  simp only [FunctionDecl.isInheritable, Bool.and_eq_true, Option.isNone_iff_eq_none, bne_iff_ne, ne_eq]
    at hinherits
  have hcheck : CompileM.checkFunction copy (some owner) true p ({ e with tree := t }.inside a) = _ :=
    CompileM.checkFunction_method (d := d) hkind (h.states copy hle) hm.single hinherits.1.1 hinherits.1.2
      hm.destructor hparams (hreads hm.ret)
  have hrun : CompileM.inheritMethod owner a m.symbol.decl p e = .ok (some (m.keyFor owner)) { e with
      tree := t, states := e.states.insert copy .checked
      symbols := e.symbols.enterMethod m.decl.name f owner } := by
    unfold CompileM.inheritMethod
    rw [CompileM.bind_of_eq_ok (CompileM.copySubtree_apply hcopy)]
    exact CompileM.within_eq_ok.mpr ⟨_, hcheck, rfl⟩
  refine ⟨_, hrun, ?_⟩
  have hgrown' := h.grow hgrown hbegins hlt (e.symbols.declaredKeys.insert f.decl f.key)
  cases hfound : e.symbols.functions.get? f.key with
  | none =>
    rw [SymbolTables.enterMethod_of_none hfound]
    exact hgrown'.enter hf hfound
  | some g =>
    rw [SymbolTables.enterMethod_of_some hfound]
    refine hgrown'.again ?_
    by_contra hmem
    have hold := h.functions f.key fun m' hm' heq => hmem (hkeys m' hm' (heq.trans hf.key) ▸ hm')
    rw [hfound, hf.key, hnew] at hold
    cases hold

/-- All methods are copied, one after the other. -/
theorem inheritEach {ms' : List DeclaredMethod} (h : c.Inherited a owner ms e)
    (hms : ∀ m ∈ ms', m.Rereads p c a ∧ m.decl.isInheritable = true)
    (hnew : ∀ m ∈ ms', c.symbols.functions.get? (m.keyFor owner) = none)
    (hkeys : ∀ m ∈ ms ++ ms', ∀ m' ∈ ms ++ ms', m'.keyFor owner = m.keyFor owner → m' = m) :
    ∃ e', (ms'.map (·.symbol.decl)).filterMapM (CompileM.inheritMethod owner a) p e =
        .ok (ms'.map (·.keyFor owner)) e' ∧ c.Inherited a owner (ms ++ ms') e' := by
  induction ms' generalizing ms e with
  | nil => exact ⟨e, rfl, by simpa using h⟩
  | cons m rest ih =>
    have hm : m ∈ ms ++ m :: rest := List.mem_append_right _ List.mem_cons_self
    obtain ⟨e₁, hfirst, h₁⟩ := h.inheritMethod (hms m List.mem_cons_self).1 (hms m List.mem_cons_self).2
      (hnew m List.mem_cons_self) fun m' hm' => hkeys m hm m' (List.mem_append_left _ hm')
    obtain ⟨e', hrest, h'⟩ := ih h₁ (fun m' hm' => hms m' (List.mem_cons_of_mem _ hm'))
      (fun m' hm' => hnew m' (List.mem_cons_of_mem _ hm')) (by simpa using hkeys)
    refine ⟨e', ?_, by simpa using h'⟩
    rw [List.map_cons, List.filterMapM_cons, CompileM.bind_of_eq_ok hfirst]
    dsimp only
    rw [CompileM.bind_of_eq_ok hrest]
    rfl

end Inherited
end Context

/-! ### The methods of a base -/

/-- The function declaration at a node that is one. -/
def Tree.functionDecl? (t : Tree) (id : NodeId) : Option FunctionDecl :=
  (t.node? id).bind fun node =>
    match node.kind with
    | .function decl => some decl
    | _ => none

/-- The names of the functions among the methods that an aggregate declares. -/
def AggregateDecl.methodNames (decl : AggregateDecl) (t : Tree) : List String :=
  decl.methods.filterMap fun id => (t.functionDecl? id).map (·.name)

/-- The methods of an aggregate that one with methods of these names takes over. -/
def Context.inheritable (c : Context) (a : AggregateSymbol) (own : List String) : List DeclaredMethod :=
  (a.methods.filterMap c.symbols.functions.get?).filterMap fun f =>
    ((c.tree.functionDecl? f.decl).filter fun d => d.isInheritable && !own.contains d.name).map (⟨f, ·⟩)

/-- The methods that an aggregate of a name takes over have declarations that read, in the environment of
the base, as they were registered, and nothing has the names and keys of the copies. -/
structure Context.Passes (p : Performer) (c : Context) (a : AggregateSymbol) (name : String)
    (own : List String) : Prop where
  tree : c.tree.WellFormed
  states : ∀ id : NodeId, c.tree.size ≤ id.index → c.stateOf id = .unchecked
  declared : ∀ f ∈ a.methods.filterMap c.symbols.functions.get?, ∃ kind, c.tree.HasKind f.decl kind
  reads : ∀ m ∈ c.inheritable a own, m.Rereads p c a
  functions : ∀ m ∈ c.inheritable a own, c.symbols.functions.get? (m.keyFor name) = none
  methods : ∀ m ∈ c.inheritable a own, c.symbols.methods.get? (name, m.decl.name) = none
  overloads : ∀ m ∈ c.inheritable a own, c.symbols.overloads.get? (m.nameFor name) = none
  keys : ∀ m ∈ c.inheritable a own, ∀ m' ∈ c.inheritable a own, m'.keyFor name = m.keyFor name → m' = m

theorem Context.isInheritable_of_mem {c : Context} {a : AggregateSymbol} {own : List String}
    {m : DeclaredMethod} (h : m ∈ c.inheritable a own) : m.decl.isInheritable = true := by
  obtain ⟨f, -, hf⟩ := List.mem_filterMap.mp h
  obtain ⟨d, hd, rfl⟩ := Option.map_eq_some_iff.mp hf
  have hfilter := (Option.filter_eq_some_iff.mp hd).2
  simp only [Bool.and_eq_true] at hfilter
  exact hfilter.1

namespace CompileM

variable {p : Performer} {c : Context} {a : AggregateSymbol} {name base : String} {decl : AggregateDecl}

theorem functionDecl?_apply {id : NodeId} {kind : NodeKind} (h : c.tree.HasKind id kind) :
    functionDecl? id p c = .ok (c.tree.functionDecl? id) c := by
  obtain ⟨span, hnode⟩ := h
  unfold functionDecl?
  rw [bind_of_eq_ok (kindOf_apply ⟨span, hnode⟩), Tree.functionDecl?, hnode]
  cases kind <;> rfl

theorem inheritMethods_apply (hbase : c.symbols.aggregates.get? base = some a)
    (hown : ∀ id ∈ decl.methods, ∃ kind, c.tree.HasKind id kind)
    (hmethods : ∀ f ∈ a.methods.filterMap c.symbols.functions.get?, ∃ kind, c.tree.HasKind f.decl kind) :
    inheritMethods name base decl p c =
      ((c.inheritable a (decl.methodNames c.tree)).map (·.symbol.decl)).filterMapM
        (inheritMethod name a) p c := by
  have hnames : (decl.methods.filterMapM fun id => return (← functionDecl? id).map (·.name) :
      CompileM (List String)) p c = .ok (decl.methodNames c.tree) c := by
    refine filterMapM_apply fun id hid => ?_
    rw [bind_of_eq_ok (functionDecl?_apply (hown id hid).choose_spec)]
    rfl
  generalize hnamed : decl.methodNames c.tree = own at hnames ⊢
  have hnodes : ((a.methods.filterMap c.symbols.functions.get?).filterMapM fun f => do
      let inherits (d : FunctionDecl) := d.isInheritable && !own.contains d.name
      return if (← functionDecl? f.decl).any inherits then some f.decl else none :
      CompileM (List NodeId)) p c = .ok ((c.inheritable a own).map (·.symbol.decl)) c := by
    rw [Context.inheritable, List.map_filterMap]
    refine filterMapM_apply fun f hf => ?_
    rw [bind_of_eq_ok (functionDecl?_apply (hmethods f hf).choose_spec)]
    cases hd : c.tree.functionDecl? f.decl with
    | none => rfl
    | some d =>
      simp only [Option.any_some, Option.filter_some]
      split <;> rfl
  unfold inheritMethods
  rw [bind_of_eq_ok hnames, bind_of_eq_ok (get_apply p c), hbase]
  dsimp only
  rw [bind_of_eq_ok (get_apply p c), bind_of_eq_ok hnodes]

end CompileM

/-! ### Extending an aggregate -/

/-- The symbol of an aggregate with these fields of its own that extends another one. -/
def AggregateDecl.extending (decl : AggregateDecl) (id : NodeId) (name base : String) (a : AggregateSymbol)
    (fields : List FieldSymbol) (isInstance : Bool) (space : List String) (subst : Substitution) :
    AggregateSymbol where
  decl := id
  name
  fields := numberFields (a.fields.filter (fun field => !decl.fields.any (·.name == field.name)) ++ fields)
  base := some base
  isInstance
  space
  subst

/-- What an aggregate declares itself is checked without an error: the base, behind which that one is
registered as `a` and this one is still new, then the fields, and with these the methods.  This leads to the
contexts `c₁`, `c₂` and `c₃`. -/
structure ChecksOwn (p : Performer) (id : NodeId) (name : String) (decl : AggregateDecl) (isInstance : Bool)
    (location : Location) (base : String) (a : AggregateSymbol) (fields : List FieldSymbol)
    (own : List String) (c c₁ c₂ c₃ : Context) : Prop where
  resolved : CompileM.resolveBase name decl location p c = .ok (some base) c₁
  new : c₁.symbols.aggregates.get? name = none
  registered : c₁.symbols.aggregates.get? base = some a
  typed : CompileM.resolveFields name location decl.fields [] p c₁ = .ok fields c₂
  methods : decl.methods.filterMapM (fun id => CompileM.checkFunction id (some name) isInstance) p { c₂ with
      symbols := c₂.symbols.addAggregate
        (decl.extending id name base a fields isInstance c₂.space c₂.subst) } = .ok own c₃

/-- In the second context an aggregate is registered with its own fields and methods and with those of the
base, and apart from it nothing is different. -/
structure Context.Merges (c : Context) (name base : String) (decl : AggregateDecl) (a : AggregateSymbol)
    (fields : List FieldSymbol) (own : List String) (ms : List DeclaredMethod) (c' : Context) : Prop where
  symbol : ∃ b, c'.symbols.aggregates.get? name = some b ∧ b.base = some base ∧
    b.fields = numberFields
      (a.fields.filter (fun field => !decl.fields.any (·.name == field.name)) ++ fields) ∧
    b.methods = own ++ ms.map (·.keyFor name)
  methods : ∀ m ∈ ms, ∃ keys g, c'.symbols.member name m.decl.name = .ok (.methods keys) ∧
    m.keyFor name ∈ keys ∧ c'.symbols.functions.get? (m.keyFor name) = some g ∧ m.IsCopy a name c'.tree g
  parent : c'.symbols.aggregates.get? base = some a
  aggregates : ∀ other ≠ name, c'.symbols.aggregates.get? other = c.symbols.aggregates.get? other
  fields : c'.symbols.fields = c.symbols.fields
  functions : ∀ {key f}, c.symbols.functions.get? key = some f → c'.symbols.functions.get? key = some f
  keys : ∀ {key keys}, c.symbols.methods.get? key = some keys → c'.symbols.methods.get? key = some keys
  overloads : ∀ {name keys}, c.symbols.overloads.get? name = some keys →
    c'.symbols.overloads.get? name = some keys

/-- Where a table may differ nothing was found before. -/
theorem Table.get?_of_new {κ α β : Type} [DecidableEq κ] {t t' : Table κ α} {l : List β} {k : β → κ}
    (h : ∀ key, (∀ b ∈ l, k b ≠ key) → t'.get? key = t.get? key) (hnew : ∀ b ∈ l, t.get? (k b) = none)
    {key : κ} {a : α} (ha : t.get? key = some a) : t'.get? key = some a := by
  rw [h key]
  · exact ha
  · rintro b hb rfl
    rw [hnew b hb] at ha
    cases ha

theorem SymbolTables.get?_addAggregate_self (s : SymbolTables) (a : AggregateSymbol) :
    (s.addAggregate a).aggregates.get? a.name = some a := by
  rw [aggregates_addAggregate, if_pos rfl]

namespace CompileM

variable {p : Performer} {c c' c₁ c₂ c₃ : Context} {a a₀ : AggregateSymbol} {name base : String}
  {decl : AggregateDecl} {id : NodeId} {location : Location} {isInstance : Bool}
  {fields : List FieldSymbol} {own : List String}

theorem ne_of_resolveBase (h : resolveBase name decl location p c = .ok (some base) c') : base ≠ name := by
  unfold resolveBase at h
  cases hdecl : decl.base with
  | none =>
    rw [hdecl] at h
    cases h
  | some written =>
    rw [hdecl] at h
    obtain ⟨type, c₁, -, h⟩ := bind_eq_ok.mp h
    cases htype : type.aggregateName? with
    | none =>
      simp only [htype] at h
      cases h
    | some found =>
      simp only [htype] at h
      obtain ⟨hne, h⟩ := guard_passes h
      obtain ⟨_, c₂, -, h⟩ := bind_eq_ok.mp h
      cases h
      simpa using hne

/-- Functions that were checked have nodes. -/
theorem hasKind_of_checked [p.Leads] {ids : List NodeId} {owner : Option String} {keys : List String}
    (h : ids.filterMapM (fun id => checkFunction id owner isInstance) p c = .ok keys c') :
    c.Later c' ∧ ∀ id ∈ ids, ∃ kind, c'.tree.HasKind id kind := by
  induction ids generalizing c keys with
  | nil =>
    cases h
    exact ⟨.refl _, fun _ hid => nomatch hid⟩
  | cons first rest ih =>
    rw [List.filterMapM_cons] at h
    obtain ⟨o, c₁, hfirst, h⟩ := bind_eq_ok.mp h
    have hlater : c.Later c₁ := EndsIn.of_ok (Leads.checkFunction first owner isInstance c) hfirst
    obtain ⟨kind, hkind⟩ := hasKind_of_ok hfirst
    obtain ⟨keys', hrest⟩ : ∃ keys', rest.filterMapM (fun id => checkFunction id owner isInstance) p c₁ =
        .ok keys' c' := by
      cases o with
      | none => exact ⟨keys, h⟩
      | some key =>
        obtain ⟨keys', c₂, hrest, h⟩ := bind_eq_ok.mp h
        cases h
        exact ⟨keys', hrest⟩
    obtain ⟨hlater', hnodes⟩ := ih hrest
    refine ⟨hlater.trans hlater', fun id hid => ?_⟩
    rcases List.mem_cons.mp hid with rfl | hid
    · exact ⟨kind, (hlater.trans hlater').tree.hasKind hkind⟩
    · exact hnodes id hid

/-- The fields of an extending aggregate. -/
theorem collectFields_apply (hbase : c₁.symbols.aggregates.get? base = some a)
    (hfields : resolveFields name location decl.fields [] p c₁ = .ok fields c₂) :
    collectFields name decl (some base) location p c₁ = .ok (numberFields
      (a.fields.filter (fun field => !decl.fields.any (·.name == field.name)) ++ fields)) c₂ := by
  unfold collectFields
  rw [bind_of_eq_ok (get_apply p c₁), bind_of_eq_ok hfields, Option.bind_some, hbase]
  rfl

/-- Behind its own parts the aggregate has its fields, and what was registered before is still there. -/
theorem registered_of_checksOwn [p.Retains]
    (h : ChecksOwn p id name decl isInstance location base a₀ fields own c c₁ c₂ c₃) :
    (∃ operators, c₃.symbols.aggregates.get? name = some { decl.extending id name base a₀ fields isInstance
      c₂.space c₂.subst with operators }) ∧ c₁.symbols.Retains c₃.symbols := by
  have hfields : c₁.symbols.Retains c₂.symbols :=
    Retaining.of_ok (Discipline.Holds.resolveFields name location decl.fields []) h.typed
  have hmethods := Retaining.of_ok (Discipline.Holds.filterMapM fun id => Discipline.Holds.checkFunction id
    (some name) isInstance) h.methods
  constructor
  · exact hmethods.aggregates (SymbolTables.get?_addAggregate_self _ _)
  · exact (hfields.addAggregate h.new).trans hmethods

theorem new_of_checksOwn [p.Retains]
    (h : ChecksOwn p id name decl isInstance location base a₀ fields own c c₁ c₂ c₃) :
    c.symbols.aggregates.get? name = none := by
  have hretains : c.symbols.Retains c₁.symbols :=
    Retaining.of_ok (Discipline.Holds.resolveBase name decl location) h.resolved
  by_contra hne
  obtain ⟨b, hb⟩ := Option.ne_none_iff_exists'.mp hne
  obtain ⟨operators, hb'⟩ := hretains.aggregates hb
  rw [h.new] at hb'
  cases hb'

/-- Behind its own parts an aggregate gets the methods of its base. -/
theorem registerAggregate_merges [p.Leads] [p.Retains]
    (h : ChecksOwn p id name decl isInstance location base a₀ fields own c c₁ c₂ c₃)
    (ha : c₃.symbols.aggregates.get? base = some a)
    (hpasses : c₃.Passes p a name (decl.methodNames c₃.tree)) :
    ∃ c', registerAggregate id name decl isInstance location p c = .ok () c' ∧
      c₁.symbols.Retains c'.symbols ∧
      c₃.Merges name base decl a fields own (c₃.inheritable a (decl.methodNames c₃.tree)) c' := by
  obtain ⟨⟨operators, hb⟩, hretains⟩ := registered_of_checksOwn h
  obtain ⟨operators', hbase⟩ := hretains.aggregates h.registered
  obtain rfl : { a₀ with operators := operators' } = a := Option.some.inj (hbase.symm.trans ha)
  have hne := ne_of_resolveBase h.resolved
  have hinherits : inheritMethods name base decl p c₃ = _ :=
    inheritMethods_apply ha (hasKind_of_checked h.methods).2 hpasses.declared
  generalize hms : c₃.inheritable { a₀ with operators := operators' } (decl.methodNames c₃.tree) = ms at *
  have hreads : ∀ m ∈ ms, m.Rereads p c₃ { a₀ with operators := operators' } ∧ m.decl.isInheritable = true := by
    subst hms
    exact fun m hm => ⟨hpasses.reads m hm, Context.isInheritable_of_mem hm⟩
  obtain ⟨c₄, heach, h₄⟩ := (Context.Inherited.nil hpasses.tree hpasses.states _ name).inheritEach hreads
    (hms ▸ hpasses.functions) (hms ▸ hpasses.keys)
  rw [List.nil_append] at h₄
  rw [heach] at hinherits
  have hretains₄ : c₃.symbols.Retains c₄.symbols :=
    Retaining.of_ok (Discipline.Holds.inheritMethods name base decl) hinherits
  have haggregates : c₄.symbols.aggregates = c₃.symbols.aggregates := by rw [h₄.registers.same]
  have hfields : c₄.symbols.fields = c₃.symbols.fields := by rw [h₄.registers.same]
  rw [← haggregates] at hb ha
  let b : AggregateSymbol := { decl.extending id name base a₀ fields isInstance c₂.space c₂.subst with
    operators, methods := own ++ ms.map (·.keyFor name) }
  refine ⟨{ c₄ with symbols := { c₄.symbols with aggregates := c₄.symbols.aggregates.insert name b } },
    ?_, (hretains.trans hretains₄).insertAggregate h.new b, ?_⟩
  · unfold registerAggregate
    rw [bind_of_eq_ok (get_apply p c), new_of_checksOwn h]
    dsimp only
    rw [bind_of_eq_ok h.resolved, bind_of_eq_ok (collectFields_apply h.registered h.typed),
      bind_of_eq_ok (get_apply p c₂)]
    have hadd : modifySymbols (·.addAggregate {
        decl := id
        name
        fields := numberFields
          (a₀.fields.filter (fun field => !decl.fields.any (·.name == field.name)) ++ fields)
        base := some base
        isInstance
        space := c₂.space
        subst := c₂.subst }) p c₂ = .ok () { c₂ with
          symbols := c₂.symbols.addAggregate
            (decl.extending id name base a₀ fields isInstance c₂.space c₂.subst) } := rfl
    rw [bind_of_eq_ok hadd, bind_of_eq_ok h.methods]
    dsimp only
    rw [bind_of_eq_ok hinherits, bind_of_eq_ok (get_apply p c₄), hb]
    rfl
  · exact {
      symbol := ⟨b, Table.get?_insert_self _ _ _, rfl, rfl, rfl⟩
      methods := fun m hm => by
        obtain ⟨g, hg, hcopy⟩ := h₄.copies m hm
        have hkey := h₄.keys m hm
        cases hkeys : c₄.symbols.methodsOf name m.decl.name with
        | nil =>
          rw [hkeys] at hkey
          cases hkey
        | cons key keys =>
          refine ⟨key :: keys, g, ?_, hkeys ▸ hkey, hg, hcopy⟩
          change SymbolTables.member c₄.symbols name m.decl.name = _
          rw [SymbolTables.member, hkeys]
      parent := (Table.get?_insert_of_ne _ _ hne.symm).trans ha
      aggregates := fun other hother => by
        rw [← haggregates]
        exact Table.get?_insert_of_ne _ _ hother.symm
      fields := hfields
      functions := Table.get?_of_new h₄.functions (hms ▸ hpasses.functions)
      keys := Table.get?_of_new h₄.methods (hms ▸ hpasses.methods)
      overloads := Table.get?_of_new h₄.overloads (hms ▸ hpasses.overloads) }

/-- An aggregate whose own fields and methods are checked without an error is registered with them and with
the fields and methods of the aggregate that it extends.  The entries of that one stay as they were. -/
theorem checkAggregate_merges [p.Leads] [p.Retains] {instanceName : Option String}
    (hkind : c.tree.HasKind id (.aggregate decl)) (hid : c.stateOf id = .unchecked)
    (hlocation : locate id p c = .ok location c)
    (hsingle : (decl.isTemplate && instanceName.isNone) = false)
    (hname : instanceName.getD (c.qualify decl.name) = name)
    (hown : ChecksOwn p id name decl instanceName.isSome location base a₀ fields own (c.marked id) c₁ c₂ c₃)
    (ha : c₃.symbols.aggregates.get? base = some a)
    (hpasses : c₃.Passes p a name (decl.methodNames c₃.tree)) :
    ∃ c', checkAggregate id instanceName p c = .ok (some name) c' ∧ c₁.symbols.Retains c'.symbols ∧
      c₃.Merges name base decl a fields own (c₃.inheritable a (decl.methodNames c₃.tree)) c' := by
  obtain ⟨c', hregister, hretains, hmerges⟩ := registerAggregate_merges hown ha hpasses
  refine ⟨c', ?_, hretains, hmerges⟩
  have hbegin : beginCheck id p c = .ok true (c.marked id) := beginCheck_apply hid
  have hqualify : (c.marked id).qualify decl.name = c.qualify decl.name := rfl
  unfold checkAggregate
  rw [bind_of_eq_ok hlocation, bind_of_eq_ok (kindOf_apply hkind)]
  dsimp only
  rw [bind_of_eq_ok hbegin]
  simp only [Bool.not_true, Bool.false_eq_true, if_false, hsingle]
  rw [bind_of_eq_ok (get_apply p _), hqualify, hname, bind_of_eq_ok hregister]
  rfl

end CompileM

/-! ### An aggregate that extends an instance -/

/-- A method with a template parameter for its types. -/
def getterDecl : FunctionDecl where
  name := "get"
  params := [⟨"d", .aggregate "T" []⟩]
  ret := .aggregate "T" []
  body := some ⟨0⟩

/-- An aggregate that extends an instance for `int` and has a field of its own. -/
def extensionDecl : AggregateDecl where
  name := "B"
  base := some (.aggregate "A" [.type (.scalar .int)])
  fields := [⟨"y", .scalar .int, none⟩]

def Tree.withExtension : Tree where
  nodes := #[⟨.block [], default⟩, ⟨.function getterDecl, default⟩, ⟨.aggregate extensionDecl, default⟩]

theorem Tree.wellFormed_withExtension : withExtension.WellFormed := by
  refine .of_descending fun {id node} hnode => ?_
  obtain ⟨index⟩ := id
  have hindex : index < 3 := index_lt_of_node? hnode
  interval_cases index <;> cases hnode <;>
    exact ⟨by decide, by simp [withExtension, getterDecl, extensionDecl, NodeKind.Bounded, NodeKind.types,
      SourceType.Bounded, TemplateArg.AllBounded, TemplateArg.Bounded]⟩

/-- The method, as it was registered for the instance. -/
def getterSymbol : FunctionSymbol :=
  getterDecl.methodSymbol ⟨1⟩ "A<int>" true [.scalar .int] (.scalar .int) []
    { types := ⟨[("T", .scalar .int)]⟩ }

def instanceSymbol : AggregateSymbol where
  decl := ⟨3⟩
  name := "A<int>"
  fields := [{ name := "x", type := .scalar .int, index := 0, default := none }]
  base := none
  methods := [getterSymbol.key]
  isInstance := true
  space := []
  subst := { types := ⟨[("T", .scalar .int)]⟩ }

/-- Tables that know a template and its instance. -/
def instanceTables : SymbolTables where
  functions := ⟨[(getterSymbol.key, getterSymbol)]⟩
  aggregates := ⟨[("A<int>", instanceSymbol)]⟩
  aggregateTemplates := ⟨[("A", ⟨⟨3⟩, []⟩)]⟩

/-- The aggregate is registered with both fields and with the method for its own name. -/
theorem checkAggregate_extension :
    let c : Context := { tree := .withExtension, symbols := instanceTables }
    let y : FieldSymbol := { name := "y", type := .scalar .int, index := 0, default := none }
    let c₃ : Context := { c.marked ⟨2⟩ with
      symbols := instanceTables.addAggregate
        (extensionDecl.extending ⟨2⟩ "B" "A<int>" instanceSymbol [y] false [] {}) }
    ∃ c', CompileM.checkAggregate ⟨2⟩ none (performWithin 0) c = .ok (some "B") c' ∧
      (c.marked ⟨2⟩).symbols.Retains c'.symbols ∧
      c₃.Merges "B" "A<int>" extensionDecl instanceSymbol [y] [] [⟨getterSymbol, getterDecl⟩] c' := by
  intro c y c₃
  have hmem {m : DeclaredMethod} (hm : m ∈ c₃.inheritable instanceSymbol []) :
      m = ⟨getterSymbol, getterDecl⟩ := List.mem_singleton.mp hm
  have hint : c₃.TypeReads (performWithin 0) instanceSymbol (.aggregate "T" []) (.scalar .int) :=
    Context.StandsFor.typeReads (.scalar .int (by decide))
  have hown : ChecksOwn (performWithin 0) ⟨2⟩ "B" extensionDecl false (c.tree.locate default) "A<int>"
      instanceSymbol [y] [] (c.marked ⟨2⟩) (c.marked ⟨2⟩) (c.marked ⟨2⟩) c₃ := ⟨rfl, rfl, rfl, rfl, rfl⟩
  have hleads := Leads.performWithin 0
  refine CompileM.checkAggregate_merges ⟨default, rfl⟩ rfl rfl rfl rfl hown rfl {
    tree := Tree.wellFormed_withExtension
    states := fun id hid => ?_
    declared := fun f hf => ?_
    reads := fun m hm => ?_
    functions := fun m hm => ?_
    methods := fun m hm => ?_
    overloads := fun m hm => ?_
    keys := fun m hm m' hm' _ => (hmem hm').trans (hmem hm).symm }
  · refine (Context.Later.stateOf_insert c ⟨2⟩ id .checked).trans (if_neg ?_)
    rintro rfl
    exact absurd hid (by decide)
  · obtain rfl := List.mem_singleton.mp hf
    exact ⟨_, default, rfl⟩
  · obtain rfl := hmem hm
    exact ⟨⟨default, rfl⟩, rfl, fun h => absurd h (by decide), .cons ⟨hint, rfl⟩ .nil, hint⟩
  · obtain rfl := hmem hm
    rfl
  · obtain rfl := hmem hm
    rfl
  · obtain rfl := hmem hm
    rfl

end UnitCompiler
