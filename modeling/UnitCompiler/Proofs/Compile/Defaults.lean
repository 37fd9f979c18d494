import Mathlib
import UnitCompiler.Compile.Declarations
import UnitCompiler.Proofs.Compile.Travel
import UnitCompiler.Proofs.Machine.Pieces
import UnitCompiler.Proofs.Source.Expression

/-!
# The defaults of an aggregate

The numbers that the fields of an aggregate start with, at every level, and the places at which they lie
in a value of it.  Different defaults have no byte in common, and each lies within its field.
-/

namespace UnitCompiler
open Machine

attribute [local instance (high)] instPowNat

/-- A field that is laid out in the struct of its aggregate. -/
structure PlacedField where
  offset : Nat
  machine : IrType
  field : FieldSymbol

/-- The fields of an aggregate at the pieces of its struct. -/
def placedFields (struct : IrType) (fields : List FieldSymbol) : List PlacedField :=
  List.zipWith (fun piece field => ⟨piece.1, piece.2, field⟩) struct.pieces fields

/-- What an integer field starts with. -/
structure StoredDefault where
  offset : Nat
  kind : Scalar
  expr : IntExpr

namespace StoredDefault

/-- The default of a field of an aggregate that lies `n` bytes behind. -/
def behind (n : Nat) (d : StoredDefault) : StoredDefault := { d with offset := n + d.offset }

/-- The number that is stored. -/
def value (ρ : String → IntValue) (d : StoredDefault) : Option IntValue :=
  (d.expr.eval ρ).map (·.convert d.kind)

/-- The numbers that are stored one after the other; none when one of them divides by zero. -/
def values (ρ : String → IntValue) (ds : List StoredDefault) : Option (List IntValue) :=
  ds.mapM (value ρ)

/-- The names that are mentioned. -/
def names (ds : List StoredDefault) : List String := ds.flatMap (·.expr.vars)

variable {ρ : String → IntValue} {ds ds' : List StoredDefault}

theorem values_append :
    values ρ (ds ++ ds') = (values ρ ds).bind fun xs => (values ρ ds').map (xs ++ ·) := by
  unfold values
  rw [List.mapM_append]
  cases ds.mapM (value ρ) with
  | none => rfl
  | some xs => cases ds'.mapM (value ρ) <;> rfl

@[simp] theorem values_singleton (d : StoredDefault) : values ρ [d] = (d.value ρ).map ([·]) := by
  unfold values
  cases h : d.value ρ <;> simp [h]

@[simp] theorem values_behind (n : Nat) : values ρ (ds.map (behind n)) = values ρ ds := by
  unfold values
  rw [List.mapM_map]
  rfl

@[simp] theorem names_singleton (d : StoredDefault) : names [d] = d.expr.vars := List.append_nil _

@[simp] theorem names_append : names (ds ++ ds') = names ds ++ names ds' := List.flatMap_append

@[simp] theorem names_behind (n : Nat) : names (ds.map (behind n)) = names ds := by
  unfold names
  rw [List.flatMap_map]
  rfl

end StoredDefault

namespace SymbolTables

/-- The fields of a type as they are laid out; a type that is no aggregate has none. -/
inductive Places (s : SymbolTables) (type : SourceType) : List PlacedField → Prop
  | bare : type.aggregateName? = none → s.Places type []
  | struct {name : String} {a : AggregateSymbol} {machine : IrType} :
    type.aggregateName? = some name → s.aggregates.get? name = some a →
      a.fields = numberFields a.fields → a.fields.length ≤ 2 ^ 31 → s.lower type = .ok machine →
        s.Places type (placedFields machine a.fields)

/-- The defaults of fields: an integer field has an expression of its own, and a field without one has
the defaults of the aggregate that it is. -/
inductive Defaults (s : SymbolTables) (t : Tree) : List PlacedField → List StoredDefault → Prop
  | nil : s.Defaults t [] []
  | own {f : PlacedField} {node : NodeId} {k : Scalar} {e : IntExpr} {rest : List PlacedField}
    {ds : List StoredDefault} : f.field.default = some node → f.field.type.strip = .scalar k →
      k.isInteger = true → e.At t node → s.Defaults t rest ds →
        s.Defaults t (f :: rest) (⟨f.offset, k, e⟩ :: ds)
  | inner {f : PlacedField} {placed rest : List PlacedField} {ds ds' : List StoredDefault} :
    f.field.default = none → s.Places f.field.type placed → s.Defaults t placed ds →
      s.Defaults t rest ds' → s.Defaults t (f :: rest) (ds.map (.behind f.offset) ++ ds')

/-- Fields that are pieces of one struct, one behind the other. -/
structure LaidOut (s : SymbolTables) (struct : IrType) (placed : List PlacedField) : Prop where
  shape : ∃ machines isPacked name, struct = .struct machines isPacked name
  size : layout.sizeOf struct < maxU64
  piece : ∀ f ∈ placed, struct.pieces[f.field.index]? = some (f.offset, f.machine)
  index : ∀ f ∈ placed, f.field.index < 2 ^ 31
  lowered : ∀ f ∈ placed, Lowered s f.field.type f.machine
  apart : placed.Pairwise fun f f' => f.offset + layout.sizeOf f.machine ≤ f'.offset

end SymbolTables

/-! ### Where defaults lie -/

namespace SymbolTables

variable {s : SymbolTables} {t : Tree} {struct : IrType} {f : PlacedField}
  {placed rest : List PlacedField} {ds : List StoredDefault}

theorem LaidOut.tail (h : s.LaidOut struct (f :: rest)) : s.LaidOut struct rest where
  shape := h.shape
  size := h.size
  piece := fun f' hf' => h.piece f' (List.mem_cons_of_mem _ hf')
  index := fun f' hf' => h.index f' (List.mem_cons_of_mem _ hf')
  lowered := fun f' hf' => h.lowered f' (List.mem_cons_of_mem _ hf')
  apart := (List.pairwise_cons.mp h.apart).2

theorem LaidOut.drop (h : s.LaidOut struct placed) (skipped : Nat) :
    s.LaidOut struct (placed.drop skipped) where
  shape := h.shape
  size := h.size
  piece := fun f hf => h.piece f (List.mem_of_mem_drop hf)
  index := fun f hf => h.index f (List.mem_of_mem_drop hf)
  lowered := fun f hf => h.lowered f (List.mem_of_mem_drop hf)
  apart := h.apart.sublist (List.drop_sublist _ _)

theorem LaidOut.inside (h : s.LaidOut struct placed) (hf : f ∈ placed) :
    f.offset + layout.sizeOf f.machine ≤ layout.sizeOf struct :=
  IrType.piece_le h.size (List.mem_of_getElem? (h.piece f hf))

theorem length_of_loweredAll {types : List SourceType} {machines : List IrType}
    (h : LoweredAll s types machines) : machines.length = types.length := by
  induction types generalizing machines with
  | nil =>
    cases h
    rfl
  | cons type types ih =>
    cases h with
    | cons hfirst hrest => rw [List.length_cons, List.length_cons, ih hrest]

theorem lowered_of_loweredAll {types : List SourceType} {machines : List IrType}
    (h : LoweredAll s types machines) {i : Nat} {type : SourceType} {machine : IrType}
    (htype : types[i]? = some type) (hmachine : machines[i]? = some machine) :
    Lowered s type machine := by
  induction types generalizing machines i with
  | nil => cases htype
  | cons first types ih =>
    cases h with
    | cons hfirst hrest =>
      cases i with
      | zero =>
        cases htype
        cases hmachine
        exact hfirst
      | succ i => exact ih hrest htype hmachine

/-- The struct of an aggregate has a piece for every field. -/
theorem exists_struct {type : SourceType} {name : String} {a : AggregateSymbol}
    (hname : type.aggregateName? = some name) (ha : s.aggregates.get? name = some a)
    (hlower : s.lower type = .ok struct) :
    ∃ machines, struct = .struct machines false (some name) ∧ LoweredAll s a.fieldTypes machines ∧
      struct.pieces.length = a.fields.length := by
  obtain ⟨fields, machines, hfields, hall, rfl⟩ := (lowered_of_lower hlower).of_aggregateName? hname
  have hfields' : s.fieldTypes? name = some a.fieldTypes := by
    rw [fieldTypes?, ha]
    rfl
  cases hfields'.symm.trans hfields
  refine ⟨machines, rfl, hall, ?_⟩
  have hlength := length_of_loweredAll hall
  rw [AggregateSymbol.fieldTypes, List.length_map] at hlength
  rw [IrType.pieces, List.length_zip, DataLayout.fieldOffsets, IrType.length_placeFields, min_self, hlength]

/-- The fields of an aggregate that has a size are laid out in its struct. -/
theorem laidOut_placedFields {type : SourceType} {name : String} {a : AggregateSymbol}
    (hname : type.aggregateName? = some name) (ha : s.aggregates.get? name = some a)
    (hnumbers : a.fields = numberFields a.fields) (hcount : a.fields.length ≤ 2 ^ 31)
    (hlower : s.lower type = .ok struct) (hsize : layout.sizeOf struct < maxU64) :
    s.LaidOut struct (placedFields struct a.fields) := by
  obtain ⟨machines, rfl, hall, hlength⟩ := exists_struct hname ha hlower
  -- every placed field is the piece of its number
  have hmem (f : PlacedField) (hf : f ∈ placedFields (.struct machines false (some name)) a.fields) :
      (IrType.struct machines false (some name)).pieces[f.field.index]? = some (f.offset, f.machine) ∧
        a.fields[f.field.index]? = some f.field := by
    obtain ⟨i, hi⟩ := List.getElem?_of_mem hf
    obtain ⟨piece, field, hpiece, hfield, rfl⟩ := List.getElem?_zipWith_eq_some.mp hi
    have hindex : field.index = i := by
      rw [hnumbers] at hfield
      exact index_of_numberFields hfield
    rw [hindex]
    exact ⟨hpiece, hfield⟩
  refine ⟨⟨_, _, _, rfl⟩, hsize, fun f hf => (hmem f hf).1, fun f hf => ?_, fun f hf => ?_, ?_⟩
  · exact (List.getElem?_eq_some_iff.mp (hmem f hf).2).1.trans_le hcount
  · obtain ⟨hpiece, hfield⟩ := hmem f hf
    refine lowered_of_loweredAll hall ?_ (List.getElem?_zip_eq_some.mp hpiece).2
    rw [AggregateSymbol.fieldTypes, List.getElem?_map, hfield]
    rfl
  · refine List.pairwise_iff_getElem.mpr fun i j hi hj hij => ?_
    have hpairs := List.pairwise_iff_getElem.mp (IrType.pieces_pairwise hsize)
    simp only [placedFields, List.getElem_zipWith]
    simp only [placedFields, List.length_zipWith] at hi hj
    exact hpairs i j (by omega) (by omega) hij

/-- Fields in the order of their aggregate. -/
theorem map_field_placedFields {fields : List FieldSymbol} (h : struct.pieces.length = fields.length) :
    (placedFields struct fields).map (·.field) = fields := by
  unfold placedFields
  rw [List.map_zipWith]
  apply List.ext_getElem
  · rw [List.length_zipWith, h, min_self]
  · intro i hi hi'
    rw [List.getElem_zipWith]

/-- The size of a number's field is that of the number. -/
theorem sizeOf_of_lowered {type : SourceType} {k : Scalar} {machine : IrType}
    (h : Lowered s type machine) (htype : type.strip = .scalar k) : layout.sizeOf machine = k.bytes := by
  have hstrip := h.strip
  rw [htype] at hstrip
  cases hstrip
  exact sizeOf_machineType k

/-- The fields of an aggregate that is a field itself are laid out, too. -/
theorem LaidOut.inner (h : s.LaidOut struct (f :: rest)) (hplaces : s.Places f.field.type placed)
    (hne : placed ≠ []) :
    ∃ machine, s.lower f.field.type = .ok machine ∧ s.LaidOut machine placed ∧
      layout.sizeOf machine = layout.sizeOf f.machine := by
  cases hplaces with
  | bare => exact absurd rfl hne
  | @struct name a machine hname ha hnumbers hcount hlower =>
    have halike := alike_of_lowered (h.lowered f List.mem_cons_self) (lowered_of_lower hlower)
    have hsizes := (halike.sizes layout).1
    refine ⟨machine, hlower, laidOut_placedFields hname ha hnumbers hcount hlower ?_, hsizes⟩
    have hinside := h.inside List.mem_cons_self
    have hsize := h.size
    omega

theorem Defaults.eq_nil (h : s.Defaults t [] ds) : ds = [] := by
  cases h
  rfl

/-- A default lies within the field that it belongs to. -/
theorem Defaults.inside (h : s.Defaults t placed ds) (hlaid : s.LaidOut struct placed)
    {d : StoredDefault} (hd : d ∈ ds) :
    ∃ f ∈ placed, f.offset ≤ d.offset ∧ d.offset + d.kind.bytes ≤ f.offset + layout.sizeOf f.machine := by
  induction h generalizing struct d with
  | nil => cases hd
  | @own f node k e rest ds hdefault htype hk hat hrest ih =>
    rcases List.mem_cons.mp hd with rfl | hd
    · refine ⟨f, List.mem_cons_self, le_refl _, ?_⟩
      rw [sizeOf_of_lowered (hlaid.lowered f List.mem_cons_self) htype]
    · obtain ⟨f', hf', hbounds⟩ := ih hlaid.tail hd
      exact ⟨f', List.mem_cons_of_mem _ hf', hbounds⟩
  | @inner f placed rest ds ds' hdefault hplaces hinner hrest ihinner ihrest =>
    rcases List.mem_append.mp hd with hd | hd
    · obtain ⟨d₀, hd₀, rfl⟩ := List.mem_map.mp hd
      have hne : placed ≠ [] := by
        rintro rfl
        rw [hinner.eq_nil] at hd₀
        cases hd₀
      obtain ⟨machine, -, hlaid', hsize⟩ := hlaid.inner hplaces hne
      obtain ⟨f', hf', hle, hstop⟩ := ihinner hlaid' hd₀
      have hinside := hlaid'.inside hf'
      refine ⟨f, List.mem_cons_self, Nat.le_add_right _ _, ?_⟩
      simp only [StoredDefault.behind]
      omega
    · obtain ⟨f', hf', hbounds⟩ := ihrest hlaid.tail hd
      exact ⟨f', List.mem_cons_of_mem _ hf', hbounds⟩

theorem Defaults.le_sizeOf (h : s.Defaults t placed ds) (hlaid : s.LaidOut struct placed)
    {d : StoredDefault} (hd : d ∈ ds) : d.offset + d.kind.bytes ≤ layout.sizeOf struct := by
  obtain ⟨f, hf, -, hstop⟩ := h.inside hlaid hd
  exact hstop.trans (hlaid.inside hf)

/-- Defaults lie one behind the other. -/
theorem Defaults.apart (h : s.Defaults t placed ds) (hlaid : s.LaidOut struct placed) :
    ds.Pairwise fun d d' => d.offset + d.kind.bytes ≤ d'.offset := by
  induction h generalizing struct with
  | nil => exact List.Pairwise.nil
  | @own f node k e rest ds hdefault htype hk hat hrest ih =>
    refine List.pairwise_cons.mpr ⟨fun d hd => ?_, ih hlaid.tail⟩
    obtain ⟨f', hf', hle, -⟩ := hrest.inside hlaid.tail hd
    have hbefore := (List.pairwise_cons.mp hlaid.apart).1 f' hf'
    rw [sizeOf_of_lowered (hlaid.lowered f List.mem_cons_self) htype] at hbefore
    exact hbefore.trans hle
  | @inner f placed rest ds ds' hdefault hplaces hinner hrest ihinner ihrest =>
    cases placed with
    | nil =>
      rw [hinner.eq_nil]
      exact ihrest hlaid.tail
    | cons f₀ placed =>
      obtain ⟨machine, -, hlaid', hsize⟩ := hlaid.inner hplaces (List.cons_ne_nil _ _)
      refine List.pairwise_append.mpr ⟨?_, ihrest hlaid.tail, ?_⟩
      · refine List.pairwise_map.mpr ((ihinner hlaid').imp fun {d d'} hle => ?_)
        simp only [StoredDefault.behind]
        omega
      · intro d hd d' hd'
        obtain ⟨d₀, hd₀, rfl⟩ := List.mem_map.mp hd
        obtain ⟨f', hf', hle, -⟩ := hrest.inside hlaid.tail hd'
        have hbefore := (List.pairwise_cons.mp hlaid.apart).1 f' hf'
        have hstop := hinner.le_sizeOf hlaid' hd₀
        simp only [StoredDefault.behind]
        omega

end SymbolTables
end UnitCompiler
