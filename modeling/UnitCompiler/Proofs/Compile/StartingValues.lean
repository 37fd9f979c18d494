import UnitCompiler.Proofs.Compile.Hygiene
import UnitCompiler.Proofs.Machine.Loading
import UnitCompiler.Proofs.Phases.Later

/-!
# Values that aggregates start with

The default value of an aggregate as a value of the machine: zeros, with the default of every field that
has one, at every level.  It is what memory holds when zeros are overlaid with the numbers of the defaults.
-/

namespace UnitCompiler
open Machine

/-! ### Zeros -/

mutual

/-- What pointers point to does not show in a zero. -/
theorem IrType.Alike.zero {type type' : IrType} (h : type.Alike type') :
    Value.zero type' = Value.zero type := by
  cases h with
  | refl => rfl
  | ptr => rfl
  | array length helement => rw [Value.zero, Value.zero, helement.zero]
  | struct isPacked name hfields => rw [Value.zero, Value.zero, hfields.zeros]

theorem IrType.AllAlike.zeros {types types' : List IrType} (h : AllAlike types types') :
    Value.zeros types' = Value.zeros types := by
  cases h with
  | nil => rfl
  | cons htype hrest => rw [Value.zeros, Value.zeros, htype.zero, hrest.zeros]

end

theorem Machine.Value.zeros_eq_map (types : List IrType) : zeros types = types.map zero := by
  induction types with
  | nil => rfl
  | cons type rest ih => rw [zeros, ih, List.map_cons]

/-- The pieces of a struct of zeros are zeros. -/
theorem Machine.Memory.load_zero_piece {fields : List IrType} {isPacked : Bool} {name : Option String}
    {m : Memory} {a : Nat}
    (h : m.load a (.struct fields isPacked name) = .ok (.zero (.struct fields isPacked name)))
    {piece : Nat × IrType} (hpiece : piece ∈ (IrType.struct fields isPacked name).pieces) :
    m.load (a + piece.1) piece.2 = .ok (.zero piece.2) := by
  obtain ⟨items, hitems, hloads⟩ := (load_eq_ok_iff rfl).mp h
  rw [Value.zero, Value.zeros_eq_map] at hitems
  cases hitems
  obtain ⟨i, hi, rfl⟩ := List.mem_iff_getElem.mp hpiece
  obtain ⟨hlength, hget⟩ := List.forall₂_iff_get.mp hloads
  have hload := hget i hi (hlength ▸ hi)
  simp only [List.get_eq_getElem, List.getElem_map] at hload
  rw [hload]
  simp only [IrType.pieces, List.getElem_zip]

/-! ### Overlaid zeros -/

theorem StoredDefault.length_of_values {ρ : String → IntValue} {ds : List StoredDefault}
    {xs : List IntValue} (h : values ρ ds = some xs) : ds.length = xs.length := by
  induction ds generalizing xs with
  | nil =>
    cases h
    rfl
  | cons d ds ih =>
    have hsplit : values ρ ([d] ++ ds) = some xs := h
    rw [values_append] at hsplit
    obtain ⟨firsts, hfirst, hsplit⟩ := Option.bind_eq_some_iff.mp hsplit
    obtain ⟨rest, hrest, rfl⟩ := Option.map_eq_some_iff.mp hsplit
    rw [values_singleton] at hfirst
    obtain ⟨x, -, rfl⟩ := Option.map_eq_some_iff.mp hfirst
    rw [List.length_cons, ih hrest]
    rfl

/-- Zeros in the places of fields, overlaid with the numbers of defaults. -/
structure Machine.Overlays (m m' : Memory) (a : Nat) (placed : List PlacedField)
    (ds : List StoredDefault) (xs : List IntValue) : Prop where
  zero : ∀ f ∈ placed, m.load (a + f.offset) f.machine = .ok (.zero f.machine)
  inside : ∀ f ∈ placed, a + f.offset + layout.sizeOf f.machine ≤ m.size
  size : m.size ≤ m'.size
  bytes : ∀ f ∈ placed, ∀ i, a + f.offset ≤ i → i < a + f.offset + layout.sizeOf f.machine →
    (∀ d ∈ ds, i < a + d.offset ∨ a + d.offset + d.kind.bytes ≤ i) → m'.bytes[i]? = m.bytes[i]?
  cells : List.Forall₂ (fun d x => Holds m' (a + d.offset) x ∧ x.kind = d.kind) ds xs

namespace Machine.Overlays

variable {s : SymbolTables} {struct : IrType} {f : PlacedField} {placed rest : List PlacedField}
  {ds ds' : List StoredDefault} {xs xs' : List IntValue} {m m' : Memory} {a : Nat}

/-- Defaults that lie in the first field do not matter for the other ones. -/
theorem tail (h : Overlays m m' a (f :: rest) (ds ++ ds') (xs ++ xs')) (hlength : ds.length = xs.length)
    (hlaid : s.LaidOut struct (f :: rest))
    (hds : ∀ d ∈ ds, d.offset + d.kind.bytes ≤ f.offset + layout.sizeOf f.machine) :
    Overlays m m' a rest ds' xs' where
  zero := fun f' hf' => h.zero f' (List.mem_cons_of_mem _ hf')
  inside := fun f' hf' => h.inside f' (List.mem_cons_of_mem _ hf')
  size := h.size
  bytes := by
    intro f' hf' i hle hlt hout
    refine h.bytes f' (List.mem_cons_of_mem _ hf') i hle hlt fun d hd => ?_
    rcases List.mem_append.mp hd with hd | hd
    · have hbefore := (List.pairwise_cons.mp hlaid.apart).1 f' hf'
      have := hds d hd
      exact Or.inr (by omega)
    · exact hout d hd
  cells := by
    have hcells := List.forall₂_drop_append _ _ _ h.cells
    rwa [← hlength, List.drop_left] at hcells

/-- A field without defaults is still zero. -/
theorem load_first (h : Overlays m m' a (f :: rest) ds xs) (hlaid : s.LaidOut struct (f :: rest))
    (hds : ∀ d ∈ ds, f.offset + layout.sizeOf f.machine ≤ d.offset) :
    m'.load (a + f.offset) f.machine = .ok (.zero f.machine) := by
  have hinside := h.inside f List.mem_cons_self
  have hsize : layout.sizeOf f.machine < maxU64 := by
    have := hlaid.inside List.mem_cons_self
    have := hlaid.size
    omega
  rw [Memory.load_congr f.machine hsize (fun i hle hlt => ?_) hinside (hinside.trans h.size)]
  · exact h.zero f List.mem_cons_self
  · refine h.bytes f List.mem_cons_self i hle hlt fun d hd => Or.inl ?_
    have := hds d hd
    omega

/-- The defaults of the aggregate in the first field are overlaid in the place of the field. -/
theorem first (h : Overlays m m' a (f :: rest) (ds.map (.behind f.offset) ++ ds') (xs ++ xs'))
    (hlength : ds.length = xs.length) (hlaid : s.LaidOut struct placed) (halike : f.machine.Alike struct)
    (hds : ∀ d ∈ ds', f.offset + layout.sizeOf f.machine ≤ d.offset) :
    Overlays m m' (a + f.offset) placed ds xs where
  zero := by
    intro f' hf'
    obtain ⟨machines, isPacked, name, rfl⟩ := hlaid.shape
    have hzero := h.zero f List.mem_cons_self
    rw [← halike.load, ← halike.zero] at hzero
    exact Memory.load_zero_piece hzero (List.mem_of_getElem? (hlaid.piece f' hf'))
  inside := by
    intro f' hf'
    have hpart := hlaid.inside hf'
    rw [(halike.sizes layout).1] at hpart
    have := h.inside f List.mem_cons_self
    omega
  size := h.size
  bytes := by
    intro f' hf' i hle hlt hout
    have hpart := hlaid.inside hf'
    rw [(halike.sizes layout).1] at hpart
    refine h.bytes f List.mem_cons_self i (by omega) (by omega) fun d hd => ?_
    rcases List.mem_append.mp hd with hd | hd
    · obtain ⟨d₀, hd₀, rfl⟩ := List.mem_map.mp hd
      have := hout d₀ hd₀
      simp only [StoredDefault.behind]
      omega
    · have := hds d hd
      exact Or.inl (by omega)
  cells := by
    have hcells := List.forall₂_take_append _ _ _ h.cells
    rw [← hlength, ← List.length_map (StoredDefault.behind f.offset), List.take_left,
      List.forall₂_map_left_iff] at hcells
    refine hcells.imp fun d x hx => ?_
    simp only [StoredDefault.behind, ← Nat.add_assoc] at hx
    exact hx

end Machine.Overlays

/-! ### Default values -/

/-- A node holds one expression. -/
theorem IntExpr.At.unique {t : Tree} {e e' : IntExpr} {id : NodeId} (h : e.At t id) (h' : e'.At t id) :
    e = e' := by
  induction e generalizing e' id with
  | int v | bool v | char v | var name => cases e' <;> grind [At, Tree.HasKind.eq]
  | neg e ih | bitNot e ih | not e ih => cases e' <;> grind [At, Tree.HasKind.eq]
  | binary op l r ihl ihr => cases e' <;> grind [At, Tree.HasKind.eq]
  | cast k e ih => cases e' <;> grind [At, Tree.HasKind.eq]

namespace SymbolTables

/-- The items of a value with the defaults of its fields.  A field with a default has that number, converted
to its kind; one without has the default value of the aggregate that it is, and zeros where it is none. -/
inductive Starts (s : SymbolTables) (t : Tree) (ρ : String → IntValue) :
    List PlacedField → List Value → Prop
  | nil : s.Starts t ρ [] []
  | own {f : PlacedField} {node : NodeId} {k : Scalar} {e : IntExpr} {x : IntValue}
    {rest : List PlacedField} {items : List Value} : f.field.default = some node →
      f.field.type.strip = .scalar k → k.isInteger = true → e.At t node → e.eval ρ = some x →
        s.Starts t ρ rest items → s.Starts t ρ (f :: rest) ((x.convert k).word :: items)
  | bare {f : PlacedField} {rest : List PlacedField} {items : List Value} : f.field.default = none →
      f.field.type.aggregateName? = none → s.Starts t ρ rest items →
        s.Starts t ρ (f :: rest) (.zero f.machine :: items)
  | inner {f : PlacedField} {placed rest : List PlacedField} {items items' : List Value} :
    f.field.default = none → f.field.type.aggregateName? ≠ none → s.Places f.field.type placed →
      s.Starts t ρ placed items → s.Starts t ρ rest items' →
        s.Starts t ρ (f :: rest) (.aggregate items :: items')

variable {s : SymbolTables} {t : Tree} {ρ : String → IntValue} {struct : IrType} {f : PlacedField}
  {placed rest : List PlacedField} {ds : List StoredDefault} {xs : List IntValue}

theorem Places.unique {type : SourceType} {placed' : List PlacedField} (h : s.Places type placed)
    (h' : s.Places type placed') : placed = placed' := by
  cases h with
  | bare hname =>
    cases h' with
    | bare => rfl
    | struct hname' => cases hname.symm.trans hname'
  | struct hname ha hnumbers hcount hlower =>
    cases h' with
    | bare hname' => cases hname.symm.trans hname'
    | struct hname' ha' hnumbers' hcount' hlower' =>
      cases hname.symm.trans hname'
      cases ha.symm.trans ha'
      cases hlower.symm.trans hlower'
      rfl

/-- The default value is one value. -/
theorem Starts.unique {items items' : List Value} (h : s.Starts t ρ placed items)
    (h' : s.Starts t ρ placed items') : items = items' := by
  induction h generalizing items' with
  | nil =>
    cases h'
    rfl
  | own hdefault htype hk hat hx hrest ih =>
    cases h' with
    | own hdefault' htype' hk' hat' hx' hrest' =>
      cases hdefault.symm.trans hdefault'
      cases htype.symm.trans htype'
      cases hat.unique hat'
      cases hx.symm.trans hx'
      rw [ih hrest']
    | bare hnone | inner hnone => cases hdefault.symm.trans hnone
  | bare hnone hname hrest ih =>
    cases h' with
    | own hdefault => cases hnone.symm.trans hdefault
    | bare hnone' hname' hrest' => rw [ih hrest']
    | inner hnone' hsome => exact absurd hname hsome
  | inner hnone hsome hplaces hinner hrest ihinner ihrest =>
    cases h' with
    | own hdefault => cases hnone.symm.trans hdefault
    | bare hnone' hname => exact absurd hname hsome
    | inner hnone' hsome' hplaces' hinner' hrest' =>
      cases hplaces.unique hplaces'
      rw [ihinner hinner', ihrest hrest']

/-- A field that is an integer has the machine type of its kind. -/
theorem machine_of_lowered {type : SourceType} {k : Scalar} {machine : IrType}
    (h : Lowered s type machine) (htype : type.strip = .scalar k) : machine = k.machineType := by
  have hstrip := h.strip
  rw [htype] at hstrip
  cases hstrip
  rfl

/-- The fields of an aggregate that is a field itself have its places. -/
theorem LaidOut.of_field {name : String} {aggregate : AggregateSymbol} {machine : IrType}
    (h : s.LaidOut struct (f :: rest)) (hname : f.field.type.aggregateName? = some name)
    (haggregate : s.aggregates.get? name = some aggregate)
    (hnumbers : aggregate.fields = numberFields aggregate.fields)
    (hcount : aggregate.fields.length ≤ 2 ^ 31) (hlower : s.lower f.field.type = .ok machine) :
    f.machine.Alike machine ∧ s.LaidOut machine (placedFields machine aggregate.fields) := by
  have halike := alike_of_lowered (h.lowered f List.mem_cons_self) (lowered_of_lower hlower)
  have hsizes := (halike.sizes layout).1
  refine ⟨halike, laidOut_placedFields hname haggregate hnumbers hcount hlower ?_⟩
  have := h.inside List.mem_cons_self
  have := h.size
  omega

/-- The fields of a struct in the order of its pieces. -/
theorem map_piece_placedFields {fields : List FieldSymbol} (hlength : struct.pieces.length = fields.length) :
    (placedFields struct fields).map (fun f => (f.offset, f.machine)) = struct.pieces := by
  unfold placedFields
  rw [List.map_zipWith]
  apply List.ext_getElem
  · rw [List.length_zipWith, hlength, min_self]
  · intro i hi hi'
    rw [List.getElem_zipWith]

/-- A struct is loaded field by field. -/
theorem load_of_items {m : Memory} {a : Nat} {items : List Value} (haggregate : struct.isAggregate = true)
    (hpieces : placed.map (fun f => (f.offset, f.machine)) = struct.pieces)
    (h : List.Forall₂ (fun f item => m.load (a + f.offset) f.machine = .ok item) placed items) :
    m.load a struct = .ok (.aggregate items) := by
  rw [Memory.load_eq_ok_iff haggregate]
  refine ⟨items, rfl, ?_⟩
  rw [← hpieces, List.forall₂_map_left_iff]
  exact h

/-- The fields have the items wherever zeros were overlaid with the numbers of the defaults. -/
def Initial (s : SymbolTables) (placed : List PlacedField) (ds : List StoredDefault) (xs : List IntValue)
    (items : List Value) : Prop :=
  ∀ struct m m' a, s.LaidOut struct placed → Overlays m m' a placed ds xs →
    List.Forall₂ (fun f item => m'.load (a + f.offset) f.machine = .ok item) placed items

/-- The defaults of fields give every field an item, when there is a number for each of them. -/
theorem Defaults.exists_starts (h : s.Defaults t placed ds) (hxs : StoredDefault.values ρ ds = some xs) :
    ∃ items, s.Starts t ρ placed items ∧ s.Initial placed ds xs items := by
  induction h generalizing xs with
  | nil => exact ⟨[], .nil, fun struct m m' a _ _ => .nil⟩
  | @own f node k e rest ds hdefault htype hk hat hrest ih =>
    have hsplit : StoredDefault.values ρ ([⟨f.offset, k, e⟩] ++ ds) = some xs := hxs
    rw [StoredDefault.values_append, StoredDefault.values_singleton] at hsplit
    obtain ⟨firsts, hfirst, hsplit⟩ := Option.bind_eq_some_iff.mp hsplit
    obtain ⟨xs', hxs', rfl⟩ := Option.map_eq_some_iff.mp hsplit
    obtain ⟨x, hx, rfl⟩ := Option.map_eq_some_iff.mp hfirst
    obtain ⟨y, hy, rfl⟩ := Option.map_eq_some_iff.mp hx
    obtain ⟨items, hstarts, hloads⟩ := ih hxs'
    refine ⟨_, .own hdefault htype hk hat hy hstarts, fun struct m m' a hlaid hover => ?_⟩
    have hmachine := machine_of_lowered (hlaid.lowered f List.mem_cons_self) htype
    have hover' : Overlays m m' a (f :: rest) ([⟨f.offset, k, e⟩] ++ ds) ([y.convert k] ++ xs') := hover
    refine .cons ?_ (hloads struct m m' a hlaid.tail (hover'.tail rfl hlaid fun d hd => ?_))
    · obtain ⟨⟨hholds, hkind⟩, -⟩ := List.forall₂_cons.mp hover.cells
      have hload := hholds.load
      rw [hkind] at hload
      rw [hmachine]
      exact hload
    · obtain rfl := List.mem_singleton.mp hd
      rw [hmachine, sizeOf_machineType]
  | @inner f placed rest ds ds' hdefault hplaces hinner hrest ihinner ihrest =>
    -- the numbers are those of the aggregate in the field, and then those of the later fields
    rw [StoredDefault.values_append, StoredDefault.values_behind] at hxs
    obtain ⟨xs₁, hxs₁, hxs⟩ := Option.bind_eq_some_iff.mp hxs
    obtain ⟨xs₂, hxs₂, rfl⟩ := Option.map_eq_some_iff.mp hxs
    obtain ⟨items₂, hstarts₂, hloads₂⟩ := ihrest hxs₂
    have hlength := StoredDefault.length_of_values hxs₁
    have hbehind {struct : IrType} (hlaid : s.LaidOut struct (f :: rest)) (d : StoredDefault)
        (hd : d ∈ ds') : f.offset + layout.sizeOf f.machine ≤ d.offset := by
      obtain ⟨f', hf', hle, -⟩ := hrest.inside hlaid.tail hd
      exact ((List.pairwise_cons.mp hlaid.apart).1 f' hf').trans hle
    cases hplaces with
    | bare hname =>
      obtain rfl := hinner.eq_nil
      obtain rfl := List.length_eq_zero_iff.mp hlength.symm
      refine ⟨_, .bare hdefault hname hstarts₂, fun struct m m' a hlaid hover => ?_⟩
      refine .cons (hover.load_first hlaid (hbehind hlaid)) (hloads₂ struct m m' a hlaid.tail ?_)
      have hover' : Overlays m m' a (f :: rest) ([] ++ ds') ([] ++ xs₂) := hover
      exact hover'.tail rfl hlaid nofun
    | @struct name aggregate machine hname haggregate hnumbers hcount hlower =>
      obtain ⟨items₁, hstarts₁, hloads₁⟩ := ihinner hxs₁
      have hplaces : s.Places f.field.type (placedFields machine aggregate.fields) :=
        .struct hname haggregate hnumbers hcount hlower
      have hsome : f.field.type.aggregateName? ≠ none := by
        rw [hname]
        exact Option.some_ne_none name
      refine ⟨_, .inner hdefault hsome hplaces hstarts₁ hstarts₂, fun struct m m' a hlaid hover => ?_⟩
      obtain ⟨halike, hlaid₁⟩ := hlaid.of_field hname haggregate hnumbers hcount hlower
      have hover₁ := hover.first hlength hlaid₁ halike (hbehind hlaid)
      have hitems := hloads₁ machine m m' (a + f.offset) hlaid₁ hover₁
      obtain ⟨machines, rfl, -, hpieces⟩ := exists_struct hname haggregate hlower
      refine .cons ?_ (hloads₂ struct m m' a hlaid.tail (hover.tail ?_ hlaid fun d hd => ?_))
      · rw [← halike.load]
        exact load_of_items rfl (map_piece_placedFields hpieces) hitems
      · rw [List.length_map, hlength]
      · obtain ⟨d₀, hd₀, rfl⟩ := List.mem_map.mp hd
        have := hinner.le_sizeOf hlaid₁ hd₀
        rw [(halike.sizes layout).1] at this
        simp only [StoredDefault.behind]
        omega

end SymbolTables
end UnitCompiler
