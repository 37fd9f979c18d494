import UnitCompiler.Proofs.Compile.AggregateCasts
import UnitCompiler.Proofs.Compile.Completion
import UnitCompiler.Proofs.Compile.ConstantPlaces
import UnitCompiler.Proofs.Compile.Entries
import UnitCompiler.Proofs.Compile.Literals

/-!
# Construction of aggregates

The forms that make an aggregate without a constructor: a local variable, a call of the aggregate's name
and a literal.  Their code makes a slot of its own, and what is there in the end is the default value, behind
the values that a literal gives.
-/

namespace UnitCompiler
open Machine

/-! ### Aggregates -/

namespace SymbolTables

/-- An aggregate without floating-point numbers whose struct has a size. -/
structure Shapes (s : SymbolTables) (name : String) (aggregate : AggregateSymbol) (struct : IrType) :
    Prop where
  named : (SourceType.named name).aggregateName? = some name
  symbol : s.aggregates.get? name = some aggregate
  numbers : aggregate.fields = numberFields aggregate.fields
  count : aggregate.fields.length ≤ 2 ^ 31
  lower : s.lower (.named name) = .ok struct
  size : layout.sizeOf struct < maxU64
  floats : struct.hasFloat = false

namespace Shapes

variable {s : SymbolTables} {name : String} {aggregate : AggregateSymbol} {struct : IrType}
  {type : SourceType}

theorem lower_of (h : s.Shapes name aggregate struct) (htype : type.aggregateName? = some name) :
    s.lower type = .ok struct :=
  (lower_of_aggregateName? htype h.named).trans h.lower

theorem places (h : s.Shapes name aggregate struct) (htype : type.aggregateName? = some name) :
    s.Places type (placedFields struct aggregate.fields) :=
  .struct htype h.symbol h.numbers h.count (h.lower_of htype)

theorem laidOut (h : s.Shapes name aggregate struct) :
    s.LaidOut struct (placedFields struct aggregate.fields) :=
  laidOut_placedFields h.named h.symbol h.numbers h.count h.lower h.size

theorem contains (h : s.Shapes name aggregate struct) : s.aggregates.contains name = true := by
  rw [Table.contains, h.symbol]
  rfl

theorem length_pieces (h : s.Shapes name aggregate struct) :
    struct.pieces.length = aggregate.fields.length := by
  obtain ⟨machines, -, -, hlength⟩ := exists_struct h.named h.symbol h.lower
  exact hlength

theorem map_field (h : s.Shapes name aggregate struct) :
    (placedFields struct aggregate.fields).map (·.field) = aggregate.fields :=
  map_field_placedFields h.length_pieces

theorem map_piece (h : s.Shapes name aggregate struct) :
    (placedFields struct aggregate.fields).map (fun f => (f.offset, f.machine)) = struct.pieces :=
  map_piece_placedFields h.length_pieces

theorem admits (h : s.Shapes name aggregate struct) : struct.Admits (.zero struct) :=
  admits_zero_of_hasFloat h.floats

theorem isVoid (h : s.Shapes name aggregate struct) : struct.isVoid = false := by
  obtain ⟨machines, isPacked, name, rfl⟩ := h.laidOut.shape
  rfl

end Shapes
end SymbolTables

/-- Variables of the unit lie before what memory grows by. -/
theorem Lends.behind {i : Image} {m m' : Memory} {G : String → GlobalSymbol} {ρ : String → IntValue}
    {names : List String} {a : Nat} (h : Lends i m G ρ names 0 0) (hm : Grows m m') (ha : m.size ≤ a)
    (count : Nat) : Lends i m' G ρ names a count := by
  intro name hname
  obtain ⟨htype, address, haddress, hholds, -⟩ := h name hname
  exact ⟨htype, address, haddress, hm.holds hholds, Or.inl (hholds.access.2.trans ha)⟩

/-- A state in which the variables of the unit have the values that `ρ` gives. -/
def Lent (G : String → GlobalSymbol) (ρ : String → IntValue) (names : List String) (A : Activation)
    (s : State) : Prop :=
  memoryBase ≤ s.memory.size ∧ Lends A.image s.memory G ρ names 0 0

/-- A new slot has room for the defaults. -/
theorem Machine.Zeroed.rooms {A : Activation} {b b' : FunctionBuilder} {slot : Operand} {struct : IrType}
    {frame : Machine.Frame} {s : State} {a : Nat} {C C' : Config} {G : String → GlobalSymbol}
    {ρ : String → IntValue} {names : List String} (h : Zeroed A b b' slot struct frame s.memory a C)
    (hlent : Lent G ρ names A s) (hslot : Carries A.image C'.frame slot (.ptr a) (.ptr struct))
    (hsize : C.state.memory.size ≤ C'.state.memory.size) (hm : Grows s.memory C'.state.memory) :
    Rooms A G ρ C'.frame C'.state slot struct names a where
  slot := hslot
  base := hlent.1.trans h.allots.behind
  inside := h.allots.inside.trans hsize
  address := h.address
  lends := hlent.2.behind hm h.allots.behind _

/-- The innermost block of the function under emission has no variable of the name. -/
def Context.Lacks (c : Context) (name : String) : Prop :=
  ∃ F vars rest, c.function = some F ∧ F.scope.places = vars :: rest ∧ vars.find? (·.1 == name) = none

section Lacks

variable {c c' : Context} {b b' : FunctionBuilder} {name : String}

theorem Follows.lacks (h : Follows c c' b b') (hlacks : c.Lacks name) : c'.Lacks name := by
  obtain ⟨F, vars, rest, hF, hplaces, hnone⟩ := hlacks
  obtain ⟨F', scope, hF', -, rfl, hscope⟩ := h.state
  cases hF.symm.trans hF'
  exact ⟨_, vars, rest, Context.function_advance hF b' scope, hscope.trans hplaces, hnone⟩

theorem Scope.exists_declare {s : Scope} {v : LocalVar} {vars : List (String × Place)}
    {rest : List (List (String × Place))} (hplaces : s.places = vars :: rest)
    (hnone : vars.find? (·.1 == v.name) = none) : ∃ s', s.declare v = some s' := by
  obtain ⟨frames⟩ := s
  cases frames with
  | nil => cases hplaces
  | cons frame frames =>
    cases hplaces
    have hvar : frame.var? v.name = none := by
      rw [List.find?_map, Option.map_eq_none_iff] at hnone
      exact hnone
    unfold Scope.declare
    simp only [hvar, Option.isSome_none, Bool.false_eq_true, if_false]
    exact ⟨_, rfl⟩

end Lacks

/-- A function under emission in which the names stand for variables of the unit. -/
structure Hosts (s : SymbolTables) (t : Tree) (G : String → GlobalSymbol) (names : List String) (c : Context)
    (b : FunctionBuilder) : Prop where
  symbols : c.symbols = s
  tree : c.tree = t
  ready : Ready c b
  reads : c.Reads G names

section Hosts

variable {s : SymbolTables} {t : Tree} {G : String → GlobalSymbol} {names : List String} {c c' : Context}
  {b b' : FunctionBuilder}

theorem Hosts.follows (h : Hosts s t G names c b) (hf : Follows c c' b b') : Hosts s t G names c' b' :=
  ⟨hf.symbols.trans h.symbols, hf.tree.trans h.tree, hf.ready, hf.reads h.reads⟩

theorem Hosts.lower_apply {p : Performer} {name : String} {aggregate : AggregateSymbol} {struct : IrType}
    {type : SourceType} (h : Hosts s t G names c b) (hs : s.Shapes name aggregate struct)
    (htype : type.aggregateName? = some name) (location : Location) :
    CompileM.lower type location p c = .ok struct c := by
  unfold CompileM.lower
  rw [CompileM.bind_of_eq_ok (CompileM.get_apply p c), h.symbols, hs.lower_of htype]
  rfl

end Hosts

namespace CompileM

variable {p : Performer} {c : Context} {b : FunctionBuilder} {name : String} {aggregate : AggregateSymbol}
  {struct : IrType} {type : SourceType} {location : Location} {s : SymbolTables} {t : Tree}
  {G : String → GlobalSymbol} {ds : List StoredDefault}

/-- The defaults of the type behind the first fields are stored in every slot of every function. -/
def AppliesDefaults (p : Performer) (s : SymbolTables) (t : Tree) (G : String → GlobalSymbol)
    (type : SourceType) (skipped : Nat) (struct : IrType) (ds : List StoredDefault) : Prop :=
  ∀ (c : Context) (b : FunctionBuilder) (slot : Operand) (location : Location),
    Hosts s t G (StoredDefault.names ds) c b → slot.Below b.nextValue → ∃ c' b',
      perform (.applyDefaults type slot skipped location) p c = .ok () c' ∧
        EmitsDefaults c c' b b' slot struct G ds

/-- The default value of the fields, where the variables that it depends on have values. -/
def FitsDefault (s : SymbolTables) (G : String → GlobalSymbol) (placed : List PlacedField)
    (ds : List StoredDefault) (A : Activation) (_ : Machine.Frame) (st : State) (v : Value) : Prop :=
  ∃ ρ xs items, v = .aggregate items ∧ StoredDefault.values ρ ds = some xs ∧ s.Initial placed ds xs items ∧
    Lent G ρ (StoredDefault.names ds) A st

/-- The slot with the defaults of an aggregate. -/
theorem defaultSlot_spec (hs : s.Shapes name aggregate struct) (htype : type.aggregateName? = some name)
    (happlies : AppliesDefaults p s t G type 0 struct ds) (hc : Hosts s t G (StoredDefault.names ds) c b)
    (location : Location) :
    ∃ slot c' b', defaultSlot type location p c = .ok slot c' ∧
      Furnishes c c' b b' slot struct (FitsDefault s G (placedFields struct aggregate.fields) ds) := by
  obtain ⟨c₁, b₁, hnew, e₁⟩ := newSlot_spec (p := p) hc.ready hs.admits
  obtain ⟨c₂, b₂, hzero, e₂⟩ := storeZero_spec (p := p) e₁ hs.admits
  obtain ⟨c₃, b₃, hrun, e₃⟩ := happlies c₂ b₂ (.register b.nextValue) location (hc.follows e₂.follows) e₂.below
  refine ⟨.register b.nextValue, c₃, b₃, ?_, e₂.furnishes ds e₃.follows hs.laidOut hs.map_piece ?_⟩
  · obtain ⟨F, hF, -⟩ := hc.ready.function
    obtain ⟨F₁, hF₁, -⟩ := e₁.follows.ready.function
    obtain ⟨F₂, hF₂, -⟩ := e₂.follows.ready.function
    have hslot : build (do
        let slot ← FunctionBuilder.alloca struct
        FunctionBuilder.store (.constant (.zero struct)) slot
        return slot) p c = .ok (.register b.nextValue) c₂ := by
      rw [build_bind hF, bind_of_eq_ok hnew, build_bind hF₁, bind_of_eq_ok hzero]
      exact build_pure hF₂ _
    unfold defaultSlot
    rw [bind_of_eq_ok (hc.lower_apply hs htype location), bind_of_eq_ok hslot, bind_of_eq_ok hrun]
    rfl
  · rintro A frame st v hA ⟨ρ, xs, items, rfl, hxs, hinitial, hlent⟩
    refine ⟨hlent.1, xs, items, rfl, hinitial, fun a C hzeroed => ?_⟩
    rw [← hxs]
    exact e₃.stores A C.frame C.state a ρ hA
      (hzeroed.rooms hlent hzeroed.slot (le_refl _) hzeroed.allots.grows)

/-- The slot of a local variable without an initializer. -/
theorem localSlot_spec (hs : s.Shapes name aggregate struct) (htype : type.aggregateName? = some name)
    (happlies : AppliesDefaults p s t G type 0 struct ds)
    (hneeds : needsDefaults type location p c = .ok (!ds.isEmpty) c)
    (hc : Hosts s t G (StoredDefault.names ds) c b) :
    ∃ slot c' b', localSlot type false location p c = .ok slot c' ∧
      Furnishes c c' b b' slot struct (FitsDefault s G (placedFields struct aggregate.fields) ds) := by
  unfold localSlot
  simp only [Bool.false_eq_true, if_false]
  rw [bind_of_eq_ok hneeds]
  cases ds with
  | cons d ds => exact defaultSlot_spec hs htype happlies hc location
  | nil =>
    -- the zeros of a new slot are the default value
    obtain ⟨c₁, b₁, hnew, e₁⟩ := newSlot_spec (p := p) hc.ready hs.admits
    refine ⟨.register b.nextValue, c₁, b₁, ?_,
      e₁.furnishes [] (.refl e₁.follows.ready) hs.laidOut hs.map_piece ?_⟩
    · simp only [List.isEmpty_nil, Bool.not_true, Bool.false_eq_true, if_false]
      rw [bind_of_eq_ok (hc.lower_apply hs htype location)]
      exact hnew
    · rintro A frame st v hA ⟨ρ, xs, items, rfl, hxs, hinitial, hlent⟩
      cases hxs
      exact ⟨hlent.1, [], items, rfl, hinitial, fun _ _ _ => .nil⟩

/-- A new variable leaves the builder alone. -/
theorem declare_apply {v : LocalVar} (h : c.Lacks v.name) :
    ∃ c', declare v p c = .ok true c' ∧
      c'.function.map (·.builder) = c.function.map (·.builder) := by
  obtain ⟨F, vars, rest, hF, hplaces, hnone⟩ := h
  obtain ⟨scope, hscope⟩ := Scope.exists_declare hplaces hnone
  refine ⟨{ c with function := some { F with scope } }, ?_, by rw [hF]; rfl⟩
  unfold declare
  rw [bind_of_eq_ok (functionState_apply hF), hscope]
  rfl

/-- The declaration of a local variable without an initializer: its name stands for a slot with the defaults. -/
theorem emitLocal_default {id : NodeId} {decl : VariableDecl} {written : SourceType}
    (hs : s.Shapes name aggregate struct) (htype : type.aggregateName? = some name)
    (happlies : AppliesDefaults p s t G type 0 struct ds)
    (hneeds : needsDefaults type location p c = .ok (!ds.isEmpty) c)
    (hc : Hosts s t G (StoredDefault.names ds) c b) (hwritten : decl.type = some written)
    (hinit : decl.init = none) (hconst : decl.isConst = false)
    (hresolve : resolveType written location p c = .ok type c) (hnode : (c.tree.node? id).isSome)
    (hlacks : c.Lacks decl.name) :
    ∃ slot c₁ c' b', emitLocal id decl location p c = .ok () c' ∧
      c'.place? decl.name = some ⟨type, slot⟩ ∧ c'.function.map (·.builder) = some b' ∧
      Furnishes c c₁ b b' slot struct (FitsDefault s G (placedFields struct aggregate.fields) ds) := by
  obtain ⟨slot, c₁, b₁, hslot, hfurnishes⟩ := localSlot_spec hs htype happlies hneeds hc
  obtain ⟨node, hnode⟩ := Option.isSome_iff_exists.mp hnode
  rw [← hfurnishes.follows.tree] at hnode
  have hspan : spanOf id p c₁ = .ok node.span c₁ := by
    unfold spanOf
    rw [bind_of_eq_ok (nodeAt_apply hnode)]
    rfl
  let v : LocalVar := { name := decl.name, type, slot, span := node.span }
  obtain ⟨c', hdeclare, hbuilder⟩ := declare_apply (p := p) (v := v) (hfurnishes.follows.lacks hlacks)
  obtain ⟨F, hF, rfl⟩ := hfurnishes.follows.ready.function
  have hvoid : type.isVoid = false := by
    obtain ⟨bare, args, hstrip, -⟩ := aggregateName?_eq_some.mp htype
    unfold SourceType.isVoid
    rw [hstrip]
  refine ⟨slot, c₁, c', F.builder, ?_, place?_of_declare hdeclare, by rw [hbuilder, hF]; rfl, hfurnishes⟩
  have hnone : ((none : Option NodeId).mapM fun node => CompileM.perform (.emitExpr node)) p c =
      .ok none c := rfl
  unfold emitLocal
  simp only [hwritten, hinit, hconst]
  rw [bind_of_eq_ok hnone, bind_of_eq_ok hresolve]
  simp only [hvoid, Bool.false_and, Bool.false_eq_true, if_false, Option.isSome_none]
  rw [bind_of_eq_ok hslot, bind_of_eq_ok hspan, bind_of_eq_ok hdeclare]
  rfl

/-- The call of an aggregate without arguments. -/
theorem constructDefault_spec (hs : s.Shapes name aggregate struct)
    (happlies : AppliesDefaults p s t G (.named name) 0 struct ds)
    (hc : Hosts s t G (StoredDefault.names ds) c b) (location : Location) :
    ∃ value c' b', constructDefault name 0 location p c = .ok value c' ∧
      Produces c c' b b' value.operand struct
        (FitsDefault s G (placedFields struct aggregate.fields) ds) := by
  obtain ⟨slot, c₁, b₁, hslot, hfurnishes⟩ := defaultSlot_spec hs hs.named happlies hc location
  obtain ⟨o, c₂, b₂, hload, hproduces⟩ := load_spec (p := p) hfurnishes hs.isVoid
  refine ⟨⟨.named name, o⟩, c₂, b₂, ?_, hproduces⟩
  unfold constructDefault
  simp only [Nat.lt_irrefl, if_false]
  rw [bind_of_eq_ok (hc.lower_apply hs hs.named location), bind_of_eq_ok hslot, bind_of_eq_ok hload]
  rfl

/-- The name of an aggregate that is called. -/
theorem emitNamedCall_spec {written : String} (hs : s.Shapes name aggregate struct)
    (happlies : AppliesDefaults p s t G (.named name) 0 struct ds)
    (hc : Hosts s t G (StoredDefault.names ds) c b) (location : Location)
    (hnone : c.overloads? written = none)
    (hfound : (c.candidates written).find? c.symbols.knowsAggregate = some name) :
    ∃ value c' b', emitNamedCall written [] location p c = .ok value c' ∧
      Produces c c' b b' value.operand struct
        (FitsDefault s G (placedFields struct aggregate.fields) ds) := by
  have hconstructed : constructedAggregate written location p c = .ok (some name) c := by
    unfold constructedAggregate
    rw [bind_of_eq_ok (get_apply p c)]
    simp only [hnone, hfound, Option.isSome_none, Bool.false_eq_true, if_false]
    rw [bind_of_eq_ok (ensureChecked_of_contains (hc.symbols ▸ hs.contains) p)]
    rfl
  unfold emitNamedCall
  rw [bind_of_eq_ok hconstructed]
  exact constructDefault_spec hs happlies hc location

/-- The values of a literal are stored in every slot of every function in which the variables that they
mention are integers. -/
def StoresGiven (p : Performer) (t : Tree) (placed : List PlacedField) (nodes : List NodeId)
    (struct : IrType) (vs : List StoredDefault) : Prop :=
  ∀ (c : Context) (b : FunctionBuilder) (slot : Operand) (location : Location), c.tree = t → Ready c b →
    Typed c b (StoredDefault.names vs) → slot.Below b.nextValue → ∃ c' b',
      storeFields slot location ((placed.map (·.field)).zip nodes) p c = .ok () c' ∧
        EmitsGiven c c' b b' slot struct vs

/-- The value of a literal: what is given, and the default values of the other fields. -/
def FitsGiven (s : SymbolTables) (G : String → GlobalSymbol) (placed : List PlacedField)
    (nodes : List NodeId) (vs ds : List StoredDefault) (c : Context) (A : Activation) (frame : Machine.Frame)
    (st : State) (v : Value) : Prop :=
  ∃ ρ xs items, v = .aggregate items ∧ StoredDefault.values ρ (vs ++ ds) = some xs ∧
    s.Initial (PlacedField.given placed nodes) (vs ++ ds) xs items ∧
    Lent G ρ (StoredDefault.names ds) A st ∧ Provides c A frame st.memory ρ (StoredDefault.names vs)

variable {c₁ c₂ c₃ : Context} {b₁ b₂ b₃ : FunctionBuilder} {slot : Operand} {placed : List PlacedField}
  {nodes : List NodeId} {vs : List StoredDefault}

/-- Code that stores the values of a literal, and then defaults, over the zeros of a slot. -/
theorem furnishes_given (h₁ : EmitsZero c c₁ b b₁ slot struct) (h₂ : EmitsGiven c₁ c₂ b₁ b₂ slot struct vs)
    (h₃ : EmitsDefaults c₂ c₃ b₂ b₃ slot struct G ds) (ht : Typed c b (StoredDefault.names vs))
    (hlaid : s.LaidOut struct placed) (hpieces : placed.map (fun f => (f.offset, f.machine)) = struct.pieces)
    (hdefaults : s.Defaults t (PlacedField.given placed nodes) (vs ++ ds)) :
    Furnishes c c₃ b b₃ slot struct (FitsGiven s G placed nodes vs ds c) := by
  have hlaid' := hlaid.given nodes
  have hapart := (List.pairwise_append.mp (hdefaults.apart hlaid')).2.2
  refine h₁.furnishes (vs ++ ds) (h₂.follows.trans h₃.follows) hlaid'
    ((PlacedField.map_given placed nodes).trans hpieces) ?_
  rintro A frame st v hA ⟨ρ, xs, items, rfl, hxs, hinitial, hlent, hprovides⟩
  refine ⟨hlent.1, xs, items, rfl, hinitial, fun a C hzeroed => ?_⟩
  have hoffers : Offers c₁ A ρ C.frame C.state slot struct (StoredDefault.names vs) st.memory a :=
    { slot := hzeroed.slot
      grows := hzeroed.allots.grows
      base := hlent.1
      behind := hzeroed.allots.behind
      inside := hzeroed.allots.inside
      address := hzeroed.address
      provides := hprovides.mono (fun _ => id) ht h₁.follows hzeroed.frame (.refl _) }
  -- the defaults are read from variables that the values before them have not touched
  rw [← hxs, StoredDefault.values_append]
  refine (h₂.stores A C.frame C.state st.memory a ρ (hA.of_continues h₃.follows.continues) hoffers).append
    h₂.follows.continues.value h₃.follows.continues.value hapart fun ys C' hC' => ?_
  exact h₃.stores A C'.frame C'.state a ρ hA (hzeroed.rooms hlent (hC'.frame.carries hzeroed.slot h₁.below)
    hC'.memory.size (hC'.memory.grows hzeroed.allots.grows hzeroed.allots.behind))

/-- An aggregate literal. -/
theorem emitAggregateLit_spec {written : SourceType} (hs : s.Shapes name aggregate struct)
    (htype : type.aggregateName? = some name)
    (hgiven : Given t (placedFields struct aggregate.fields) nodes vs)
    (hds : s.Defaults t ((placedFields struct aggregate.fields).drop nodes.length) ds)
    (hstores : StoresGiven p t (placedFields struct aggregate.fields) nodes struct vs)
    (happlies : AppliesDefaults p s t G type nodes.length struct ds)
    (hc : Hosts s t G (StoredDefault.names ds) c b) (ht : Typed c b (StoredDefault.names vs))
    (hresolve : resolveType written location p c = .ok type c) :
    ∃ value c' b', emitAggregateLit written nodes location p c = .ok value c' ∧
      Produces c c' b b' value.operand struct
        (FitsGiven s G (placedFields struct aggregate.fields) nodes vs ds c) := by
  have hlength : (placedFields struct aggregate.fields).length = aggregate.fields.length := by
    rw [← List.length_map (·.field), hs.map_field]
  have hcount : nodes.length ≤ aggregate.fields.length := hlength ▸ hgiven.length_le
  obtain ⟨c₁, b₁, hnew, e₁⟩ := newSlot_spec (p := p) hc.ready hs.admits
  unfold emitAggregateLit
  rw [bind_of_eq_ok hresolve]
  simp only [htype]
  rw [bind_of_eq_ok (ensureChecked_of_contains (hc.symbols ▸ hs.contains) p), bind_of_eq_ok (get_apply p c),
    hc.symbols, hs.symbol]
  simp only [Nat.not_lt.mpr hcount, if_false]
  rw [bind_of_eq_ok (hc.lower_apply hs htype location), bind_of_eq_ok hnew]
  by_cases hshort : nodes.length < aggregate.fields.length
  · obtain ⟨c₂, b₂, hzero, e₂⟩ := storeZero_spec (p := p) e₁ hs.admits
    obtain ⟨c₃, b₃, hfields, e₃⟩ := hstores c₂ b₂ _ location (e₂.follows.tree.trans hc.tree) e₂.follows.ready
      (ht.follows e₂.follows) e₂.below
    obtain ⟨c₄, b₄, hrest, e₄⟩ := happlies c₃ b₃ _ location (hc.follows (e₂.follows.trans e₃.follows))
      (e₂.below.mono e₃.follows.continues.value)
    obtain ⟨o, c₅, b₅, hload, hproduces⟩ := load_spec (p := p)
      (furnishes_given e₂ e₃ e₄ ht hs.laidOut hs.map_piece (hgiven.defaults hds)) hs.isVoid
    rw [hs.map_field] at hfields
    refine ⟨⟨type.strip, o⟩, c₅, b₅, ?_, hproduces⟩
    simp only [hshort, if_true]
    rw [bind_of_eq_ok hzero, bind_of_eq_ok hfields, bind_of_eq_ok hrest, bind_of_eq_ok hload]
    rfl
  · -- a literal with a value for every field clears nothing
    have hnone : (placedFields struct aggregate.fields).drop nodes.length = [] :=
      List.drop_eq_nil_of_le (by omega)
    rw [hnone] at hds
    obtain rfl := hds.eq_nil
    obtain ⟨c₂, b₂, hfields, e₂⟩ := hstores c₁ b₁ _ location (e₁.follows.tree.trans hc.tree) e₁.follows.ready
      (ht.follows e₁.follows) e₁.below
    obtain ⟨o, c₃, b₃, hload, hproduces⟩ := load_spec (p := p)
      (furnishes_given e₁ e₂ (.nil e₂.follows.ready) ht hs.laidOut hs.map_piece (hgiven.defaults (hnone ▸ hds)))
      hs.isVoid
    rw [hs.map_field] at hfields
    refine ⟨⟨type.strip, o⟩, c₃, b₃, ?_, hproduces⟩
    simp only [hshort, if_false]
    rw [bind_of_eq_ok hfields, bind_of_eq_ok hload]
    rfl

theorem exists_appliesDefaults (skipped : Nat) (hs : s.Shapes name aggregate struct)
    (htype : type.aggregateName? = some name)
    (hds : s.Defaults t ((placedFields struct aggregate.fields).drop skipped) ds)
    (htypes : ∀ name ∈ StoredDefault.names ds, (G name).type.isInteger = true) :
    ∃ depth, ∀ d ≥ depth, AppliesDefaults (performWithin d) s t G type skipped struct ds := by
  obtain ⟨n, hn⟩ := applyDefaults_hygienic (hs.places htype) (hs.lower_of htype) hs.size hds htypes
  refine ⟨n + 1, fun d hd c b slot location hc hslot => ?_⟩
  obtain ⟨d, rfl⟩ := Nat.exists_eq_add_of_le' (show 1 ≤ d by omega)
  exact hn d (by omega) c b slot location hc.symbols hc.tree hc.ready hc.reads hslot

theorem exists_storesGiven (hlaid : s.LaidOut struct placed) (hgiven : Given t placed nodes vs)
    (hdefaults : s.Defaults t (PlacedField.given placed nodes) (vs ++ ds)) :
    ∃ depth, ∀ d ≥ depth, StoresGiven (performWithin d) t placed nodes struct vs := by
  have hapart := (List.pairwise_append.mp (hdefaults.apart (hlaid.given nodes))).1
  obtain ⟨n, hn⟩ := storeFields_spec (s := s) hgiven
  exact ⟨n, fun d hd c b slot location htree hr ht hslot =>
    hn d hd slot location hlaid htree hr ht hslot hapart⟩

/-! ### Default values in the three forms -/

/-- A literal of the type with the nodes gives a value that fits. -/
def MakesLiteral (p : Performer) (c : Context) (b : FunctionBuilder) (type : SourceType) (nodes : List NodeId)
    (struct : IrType) (Fit : Activation → Machine.Frame → State → Value → Prop) : Prop :=
  ∀ (written : SourceType) (location : Location), resolveType written location p c = .ok type c →
    ∃ value c' b', emitAggregateLit written nodes location p c = .ok value c' ∧
      Produces c c' b b' value.operand struct Fit

/-- A local variable without an initializer, a call without arguments and a literal without values make an
aggregate that fits.  The name of the variable stands for the slot with the aggregate. -/
structure MakesDefault (p : Performer) (c : Context) (b : FunctionBuilder) (name : String) (type : SourceType)
    (struct : IrType) (Fit : Activation → Machine.Frame → State → Value → Prop) : Prop where
  declaration : ∀ (id : NodeId) (decl : VariableDecl) (written : SourceType) (location : Location),
    decl.type = some written → decl.init = none → decl.isConst = false →
    resolveType written location p c = .ok type c → (c.tree.node? id).isSome → c.Lacks decl.name →
    ∃ slot c₁ c' b', emitLocal id decl location p c = .ok () c' ∧
      c'.place? decl.name = some ⟨type, slot⟩ ∧ c'.function.map (·.builder) = some b' ∧
      Furnishes c c₁ b b' slot struct Fit
  call : ∀ (written : String) (location : Location), c.overloads? written = none →
    (c.candidates written).find? c.symbols.knowsAggregate = some name →
    ∃ value c' b', emitNamedCall written [] location p c = .ok value c' ∧
      Produces c c' b b' value.operand struct Fit
  literal : MakesLiteral p c b type [] struct Fit

theorem exists_makesLiteral (hs : s.Shapes name aggregate struct) (htype : type.aggregateName? = some name)
    (hgiven : Given t (placedFields struct aggregate.fields) nodes vs)
    (hds : s.Defaults t ((placedFields struct aggregate.fields).drop nodes.length) ds)
    (htypes : ∀ name ∈ StoredDefault.names ds, (G name).type.isInteger = true) :
    ∃ depth, ∀ d ≥ depth, ∀ ρ xs items, StoredDefault.values ρ (vs ++ ds) = some xs →
      s.Initial (PlacedField.given (placedFields struct aggregate.fields) nodes) (vs ++ ds) xs items →
      ∀ c b, Hosts s t G (StoredDefault.names ds) c b → Typed c b (StoredDefault.names vs) →
        MakesLiteral (performWithin d) c b type nodes struct fun A frame st v =>
          v = .aggregate items ∧ Lent G ρ (StoredDefault.names ds) A st ∧
            Provides c A frame st.memory ρ (StoredDefault.names vs) := by
  obtain ⟨n, hn⟩ := exists_appliesDefaults nodes.length hs htype hds htypes
  obtain ⟨n', hn'⟩ := exists_storesGiven hs.laidOut hgiven (hgiven.defaults hds)
  refine ⟨max n n', fun d hd ρ xs items hxs hinitial c b hc ht written location hresolve => ?_⟩
  obtain ⟨value, c', b', hrun, hproduces⟩ := emitAggregateLit_spec hs htype hgiven hds
    (hn' d ((le_max_right _ _).trans hd)) (hn d ((le_max_left _ _).trans hd)) hc ht hresolve
  exact ⟨value, c', b', hrun, hproduces.of_imp fun A frame st v ⟨hv, hlent, hprovides⟩ =>
    ⟨ρ, xs, items, hv, hxs, hinitial, hlent, hprovides⟩⟩

theorem exists_makesDefault (hs : s.Shapes name aggregate struct) (htype : type.aggregateName? = some name)
    (hds : s.Defaults t (placedFields struct aggregate.fields) ds)
    (htypes : ∀ name ∈ StoredDefault.names ds, (G name).type.isInteger = true) :
    ∃ depth, ∀ d ≥ depth, ∀ ρ xs items, StoredDefault.values ρ ds = some xs →
      s.Initial (placedFields struct aggregate.fields) ds xs items →
      ∀ c b, Hosts s t G (StoredDefault.names ds) c b →
        MakesDefault (performWithin d) c b name type struct fun A _ st v =>
          v = .aggregate items ∧ Lent G ρ (StoredDefault.names ds) A st := by
  obtain ⟨n, hn⟩ := exists_appliesDefaults 0 hs htype hds htypes
  obtain ⟨n₁, hn₁⟩ := exists_appliesDefaults 0 hs hs.named hds htypes
  obtain ⟨n₂, hn₂⟩ := anyDefault_spec hds
  obtain ⟨n₃, hn₃⟩ := exists_makesLiteral hs htype (.nil _) hds htypes
  refine ⟨max (max n n₁) (max n₂ n₃), fun d hd ρ xs items hxs hinitial c b hc => ?_⟩
  simp only [ge_iff_le, max_le_iff] at hd
  have hfits {A frame st v} (hv : v = .aggregate items ∧ Lent G ρ (StoredDefault.names ds) A st) :
      FitsDefault s G (placedFields struct aggregate.fields) ds A frame st v :=
    ⟨ρ, xs, items, hv.1, hxs, hinitial, hv.2⟩
  refine ⟨?_, ?_, ?_⟩
  · intro id decl written location hwritten hinit hconst hresolve hnode hlacks
    have hneeds : needsDefaults type location (performWithin d) c = .ok (!ds.isEmpty) c :=
      needsDefaults_apply (hc.symbols ▸ hs.places htype) (hn₂ d hd.2.1 c location hc.symbols)
    obtain ⟨slot, c₁, c', b', hrun, hplace, hbuilder, hfurnishes⟩ := emitLocal_default hs htype
      (hn d hd.1.1) hneeds hc hwritten hinit hconst hresolve hnode hlacks
    exact ⟨slot, c₁, c', b', hrun, hplace, hbuilder, hfurnishes.of_imp fun A frame st v => hfits⟩
  · intro written location hnone hfound
    obtain ⟨value, c', b', hrun, hproduces⟩ :=
      emitNamedCall_spec hs (hn₁ d hd.1.2) hc location hnone hfound
    exact ⟨value, c', b', hrun, hproduces.of_imp fun A frame st v => hfits⟩
  · rw [← PlacedField.given_nil (placedFields struct aggregate.fields)] at hinitial
    intro written location hresolve
    obtain ⟨value, c', b', hrun, hproduces⟩ :=
      hn₃ d hd.2.2 ρ xs items hxs hinitial c b hc nofun written location hresolve
    exact ⟨value, c', b', hrun, hproduces.of_imp fun A frame st v hv => ⟨hv.1, hv.2, nofun⟩⟩

/-- A local variable without an initializer, a call without arguments and a literal without values have one
value: zeros, with the default of every field that has one at every level, converted to the kind of the field.
A literal with values has these in its first fields, and the same defaults in the others. -/
theorem default_values {ds' : List StoredDefault} (hs : s.Shapes name aggregate struct)
    (htype : type.aggregateName? = some name)
    (hds : s.Defaults t (placedFields struct aggregate.fields) ds)
    (hgiven : Given t (placedFields struct aggregate.fields) nodes vs)
    (hrest : s.Defaults t ((placedFields struct aggregate.fields).drop nodes.length) ds')
    (htypes : ∀ name ∈ StoredDefault.names (ds ++ ds'), (G name).type.isInteger = true) :
    ∃ depth, ∀ ρ,
      ((StoredDefault.values ρ ds).isSome → ∃ items,
        s.Starts t ρ (placedFields struct aggregate.fields) items ∧
        ∀ d ≥ depth, ∀ c b, Hosts s t G (StoredDefault.names ds) c b →
          MakesDefault (performWithin d) c b name type struct fun A _ st v =>
            v = .aggregate items ∧ Lent G ρ (StoredDefault.names ds) A st) ∧
      ((StoredDefault.values ρ (vs ++ ds')).isSome → ∃ items,
        s.Starts t ρ (PlacedField.given (placedFields struct aggregate.fields) nodes) items ∧
        ∀ d ≥ depth, ∀ c b, Hosts s t G (StoredDefault.names ds') c b → Typed c b (StoredDefault.names vs) →
          MakesLiteral (performWithin d) c b type nodes struct fun A frame st v =>
            v = .aggregate items ∧ Lent G ρ (StoredDefault.names ds') A st ∧
              Provides c A frame st.memory ρ (StoredDefault.names vs)) := by
  rw [StoredDefault.names_append] at htypes
  have htypes₁ (name : String) (hname : name ∈ StoredDefault.names ds) :=
    htypes name (List.mem_append_left _ hname)
  have htypes₂ (name : String) (hname : name ∈ StoredDefault.names ds') :=
    htypes name (List.mem_append_right _ hname)
  obtain ⟨n₁, hn₁⟩ := exists_makesDefault hs htype hds htypes₁
  obtain ⟨n₂, hn₂⟩ := exists_makesLiteral hs htype hgiven hrest htypes₂
  refine ⟨max n₁ n₂, fun ρ => ⟨fun hsome => ?_, fun hsome => ?_⟩⟩
  · obtain ⟨xs, hxs⟩ := Option.isSome_iff_exists.mp hsome
    obtain ⟨items, hstarts, hinitial⟩ := hds.exists_starts hxs
    exact ⟨items, hstarts, fun d hd => hn₁ d ((le_max_left _ _).trans hd) ρ xs items hxs hinitial⟩
  · obtain ⟨xs, hxs⟩ := Option.isSome_iff_exists.mp hsome
    obtain ⟨items, hstarts, hinitial⟩ := (hgiven.defaults hrest).exists_starts hxs
    exact ⟨items, hstarts, fun d hd => hn₂ d ((le_max_right _ _).trans hd) ρ xs items hxs hinitial⟩

/-- An aggregate that starts with the variable `limit`, has an aggregate with a default, and ends in a number
without one. -/
def rangeSymbol : AggregateSymbol where
  decl := ⟨2⟩
  name := "Range"
  fields := [{ name := "low", type := .scalar .char, index := 0, default := some ⟨0⟩ },
    { name := "held", type := .named "Holder", index := 1, default := none },
    { name := "high", type := .long, index := 2, default := none }]
  base := none
  isInstance := false
  space := []
  subst := {}

def rangeStruct : IrType := .struct [.i8, holderStruct, .i64] false (some "Range")

def rangeContext : Context where
  tree := { nodes := #[⟨.ident "limit" [], default⟩, ⟨.int 300, default⟩] }
  symbols :=
    { aggregates := ⟨[("Holder", holderSymbol), ("Range", rangeSymbol)]⟩
      globals := ⟨[("limit", limitSymbol)]⟩ }
  function := some { FunctionState.entry default {} (.scalar .int) false with scope := ⟨[{}]⟩ }

def rangeBuilder : FunctionBuilder := (FunctionState.entry default {} (.scalar .int) false).builder

/-- The value of a range with a number in its first field, where `limit` is 5. -/
def FitsRange (low : Nat) (names : List String) (A : Activation) (_ : Machine.Frame) (st : State) (v : Value) :
    Prop :=
  v = .aggregate [.ofInt low 8, .aggregate [.ofInt 5 32], .ofInt 0 64] ∧
    Lent (fun _ => limitSymbol) (fun _ => ⟨.uchar, 5⟩) names A st

/-- The three forms make the same range, and a literal with 300 for its first field has 44 there. -/
theorem default_values_range : ∃ d,
    (∃ slot c c' b, emitLocal ⟨1⟩ ⟨"r", some (.named "Range"), none, false⟩ default (performWithin d)
        rangeContext = .ok () c' ∧ c'.place? "r" = some ⟨.named "Range", slot⟩ ∧
      c'.function.map (·.builder) = some b ∧
      Furnishes rangeContext c rangeBuilder b slot rangeStruct (FitsRange 5 ["limit", "limit"])) ∧
    (∃ value c b, emitNamedCall "Range" [] default (performWithin d) rangeContext = .ok value c ∧
      Produces rangeContext c rangeBuilder b value.operand rangeStruct (FitsRange 5 ["limit", "limit"])) ∧
    (∃ value c b, emitAggregateLit (.named "Range") [] default (performWithin d) rangeContext = .ok value c ∧
      Produces rangeContext c rangeBuilder b value.operand rangeStruct (FitsRange 5 ["limit", "limit"])) ∧
    ∃ value c b, emitAggregateLit (.named "Range") [⟨1⟩] default (performWithin d) rangeContext =
        .ok value c ∧
      Produces rangeContext c rangeBuilder b value.operand rangeStruct (FitsRange 44 ["limit"]) := by
  have hs : rangeContext.symbols.Shapes "Range" rangeSymbol rangeStruct :=
    ⟨rfl, rfl, rfl, by decide, rfl, by decide, rfl⟩
  have hlimit : IntExpr.At rangeContext.tree (.var "limit") ⟨0⟩ := ⟨default, rfl⟩
  have hgivenAt : IntExpr.At rangeContext.tree (.int 300) ⟨1⟩ := ⟨default, rfl⟩
  have hheld : rangeContext.symbols.Places (.named "Holder") (placedFields holderStruct holderSymbol.fields) :=
    .struct rfl rfl rfl (by decide) rfl
  have hinner : rangeContext.symbols.Defaults rangeContext.tree (placedFields holderStruct holderSymbol.fields)
      [⟨0, .int, .var "limit"⟩] := .own rfl rfl rfl hlimit .nil
  have hrest : rangeContext.symbols.Defaults rangeContext.tree
      ((placedFields rangeStruct rangeSymbol.fields).drop 1) [⟨4, .int, .var "limit"⟩] :=
    .inner rfl hheld hinner (.inner rfl (.bare rfl) .nil .nil)
  have hds : rangeContext.symbols.Defaults rangeContext.tree (placedFields rangeStruct rangeSymbol.fields)
      [⟨0, .char, .var "limit"⟩, ⟨4, .int, .var "limit"⟩] := .own rfl rfl rfl hlimit hrest
  have hgiven : Given rangeContext.tree (placedFields rangeStruct rangeSymbol.fields) [⟨1⟩]
      [⟨0, .char, .int 300⟩] := .cons rfl rfl hgivenAt (.nil _)
  have hready : Ready rangeContext rangeBuilder :=
    ⟨⟨_, rfl, rfl⟩, (FunctionBuilder.sound_new rfl {}).addBlock "exit",
      (FunctionState.open_entry rfl {} (.scalar .int) false).1⟩
  obtain ⟨d, hd⟩ := default_values (G := fun _ => limitSymbol) hs hs.named hds hgiven hrest fun _ _ => rfl
  obtain ⟨hforms, hliteral⟩ := hd fun _ => ⟨.uchar, 5⟩
  obtain ⟨items, hstarts, hmakes⟩ := hforms rfl
  obtain ⟨items', hstarts', hmakes'⟩ := hliteral rfl
  have hlater : rangeContext.symbols.Starts rangeContext.tree (fun _ => ⟨.uchar, 5⟩)
      ((placedFields rangeStruct rangeSymbol.fields).drop 1) [.aggregate [.ofInt 5 32], .ofInt 0 64] :=
    .inner rfl nofun hheld (.own (k := .int) rfl rfl rfl hlimit rfl .nil) (.bare rfl rfl .nil)
  cases hstarts.unique (.own (k := .char) rfl rfl rfl hlimit rfl hlater)
  cases hstarts'.unique (.own (k := .char) rfl rfl rfl hgivenAt rfl hlater)
  have hreads {names : List String} (hnames : ∀ name ∈ names, name = "limit") :
      Hosts rangeContext.symbols rangeContext.tree (fun _ => limitSymbol) names rangeContext _ :=
    ⟨rfl, rfl, hready, fun name hname => by obtain rfl := hnames name hname; exact ⟨rfl, rfl⟩⟩
  obtain ⟨hdeclaration, hcall, hempty⟩ := hmakes d (le_refl _) _ _ (hreads (by decide))
  refine ⟨d, hdeclaration ⟨1⟩ _ (.named "Range") default rfl rfl rfl rfl rfl ⟨_, _, _, rfl, rfl, rfl⟩,
    hcall "Range" default rfl rfl, hempty (.named "Range") default rfl, ?_⟩
  obtain ⟨value, c', b', hrun, hproduces⟩ :=
    hmakes' d (le_refl _) _ _ (hreads (by decide)) nofun (.named "Range") default rfl
  exact ⟨value, c', b', hrun, hproduces.of_imp fun A frame st v hv => ⟨hv.1, hv.2, nofun⟩⟩

end CompileM
end UnitCompiler
