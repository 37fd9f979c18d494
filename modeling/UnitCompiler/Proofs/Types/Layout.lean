import Mathlib
import UnitCompiler.Compile.Lowering

/-!
# One layout for source types and machine types

Sizes, alignments and field offsets are computed twice: over source types, through the table of
aggregates and in checked arithmetic, and over machine types in saturating arithmetic.  Where the first
has an answer the second gives the same one, and it has one exactly when types nest within the limit
and no size leaves 64 bits.
-/

namespace UnitCompiler

open SourceType

/-- The least multiple of the alignment that is not below the value. -/
def roundUp (value alignment : Nat) : Nat := (value + (alignment - 1)) / alignment * alignment

section Rounding

variable {value alignment : Nat}

theorem roundUp_of_dvd (ha : 0 < alignment) (h : value % alignment = 0) :
    roundUp value alignment = value := by
  obtain ⟨k, rfl⟩ := Nat.dvd_of_mod_eq_zero h
  have hdiv : (alignment * k + (alignment - 1)) / alignment = k := by
    rw [Nat.mul_add_div ha, Nat.div_eq_of_lt (by omega), Nat.add_zero]
  rw [roundUp, hdiv, Nat.mul_comm]

theorem roundUp_of_not_dvd (ha : 0 < alignment) (h : value % alignment ≠ 0) :
    roundUp value alignment = value + (alignment - value % alignment) := by
  have hlt := Nat.mod_lt value ha
  have hvalue := Nat.div_add_mod value alignment
  have hdiv : (value + (alignment - 1)) / alignment = value / alignment + 1 := by
    have hsplit : value + (alignment - 1) =
        alignment * (value / alignment + 1) + (value % alignment - 1) := by
      rw [Nat.mul_add]
      omega
    have hrest : value % alignment - 1 < alignment := by omega
    rw [hsplit, Nat.mul_add_div ha, Nat.div_eq_of_lt hrest, Nat.add_zero]
  rw [roundUp, hdiv, Nat.mul_comm, Nat.mul_add]
  omega

/-- Rounding up within 64 bits is rounding up, as long as the result is in their range. -/
theorem alignUp?_eq (ha : 0 < alignment) (hv : value ≤ maxU64) :
    alignUp? value alignment = checkU64 (roundUp value alignment) := by
  unfold alignUp?
  split_ifs with hone hdvd
  · have : alignment = 1 := by omega
    subst this
    rw [roundUp_of_dvd (by omega) (Nat.mod_one value), checkU64, if_pos hv]
  · rw [roundUp_of_dvd ha hdvd, checkU64, if_pos hv]
  · rw [roundUp_of_not_dvd ha hdvd]

end Rounding

theorem checkU64_eq_some {value n : Nat} : checkU64 value = some n ↔ value ≤ maxU64 ∧ value = n := by
  simp [checkU64]

theorem alignUp_of_alignUp? {value alignment n : Nat} (h : alignUp? value alignment = some n) :
    alignUp value alignment = n := by
  rw [alignUp, h, Option.getD_some]

theorem saturatingMul_of_le {a b : Nat} (h : a * b ≤ maxU64) : saturatingMul a b = a * b :=
  min_eq_left h

theorem saturatingAdd_of_le {a b : Nat} (h : a + b ≤ maxU64) : saturatingAdd a b = a + b :=
  min_eq_left h

/-! ### What a type holds by value -/

/-- The aggregate is the type itself, or is held by value in an element or a field of it. -/
inductive SymbolTables.Holds (s : SymbolTables) : SourceType → String → Prop
  | itself {type : SourceType} {name : String} : type.aggregateName? = some name → s.Holds type name
  | element {type inner : SourceType} {length : ArrayLength} {name : String} :
    type.strip = .array inner length → s.Holds inner name → s.Holds type name
  | field {type field : SourceType} {fields : List SourceType} {outer name : String} :
    type.aggregateName? = some outer → s.fieldTypes? outer = some fields → field ∈ fields →
      s.Holds field name → s.Holds type name

/-- The type is the machine type itself, or is held by value in an element or a field of it. -/
inductive IrType.Holds : IrType → IrType → Prop
  | itself {type : IrType} : type.Holds type
  | element {inner part : IrType} {length : Nat} :
    inner.Holds part → (IrType.array inner length).Holds part
  | field {field part : IrType} {fields : List IrType} {isPacked : Bool} {name : Option String} :
    field ∈ fields → field.Holds part → (IrType.struct fields isPacked name).Holds part

/-- No path by value through arrays and aggregates has more than so many types on it. -/
def SymbolTables.NestsWithin (s : SymbolTables) : Nat → SourceType → Prop
  | 0, _ => False
  | count + 1, type =>
    match type.strip with
    | .array inner _ => s.NestsWithin count inner
    | .aggregate name args =>
      ∀ fields, s.fieldTypes? (canonical (.aggregate name args)) = some fields →
        ∀ field ∈ fields, s.NestsWithin count field
    | _ => True

mutual

/-- No size and no rounding in the layout of the type leaves 64 bits. -/
def IrType.Fits (d : DataLayout) : IrType → Prop
  | .array element length => element.Fits d ∧ d.sizeOf element * length ≤ maxU64
  | .struct fields _ _ => IrType.FitFrom d fields 0 1
  | _ => True

/-- The fields fit, placed one after the other from `offset` on, and so does the rounded end. -/
def IrType.FitFrom (d : DataLayout) : List IrType → Nat → Nat → Prop
  | [], offset, align => roundUp offset align ≤ maxU64
  | field :: rest, offset, align =>
    let stop := roundUp offset (d.alignOf field) + d.sizeOf field
    field.Fits d ∧ stop ≤ maxU64 ∧ IrType.FitFrom d rest stop (max align (d.alignOf field))

end

/-! ### Lowering as a relation -/

mutual

/-- What lowering keeps of a type, pointers aside: scalars, arrays of a known length and the fields of
aggregates. -/
inductive Lowered (s : SymbolTables) : SourceType → IrType → Prop
  | void : Lowered s .void .void
  | scalar (kind : Scalar) : Lowered s (.scalar kind) kind.machineType
  | pointer (inner : SourceType) (target : IrType) : Lowered s (.pointer inner) (.ptr target)
  | function (ret : SourceType) (params : List SourceType) (isVariadic : Bool) (target : IrType) :
    Lowered s (.function ret params isVariadic) (.ptr target)
  | array {inner : SourceType} {element : IrType} (length : Nat) :
    Lowered s inner element → Lowered s (.array inner (.fixed length)) (.array element length)
  | aggregate {name : String} {args : List TemplateArg} {fields : List SourceType}
    {machines : List IrType} : s.fieldTypes? (canonical (.aggregate name args)) = some fields →
      LoweredAll s fields machines →
      Lowered s (.aggregate name args)
        (.struct machines false (some (canonical (.aggregate name args))))
  | const {inner : SourceType} {machine : IrType} :
    Lowered s inner machine → Lowered s (.const inner) machine
  | alias (name : String) {inner : SourceType} {machine : IrType} :
    Lowered s inner machine → Lowered s (.alias name inner) machine

inductive LoweredAll (s : SymbolTables) : List SourceType → List IrType → Prop
  | nil : LoweredAll s [] []
  | cons {type : SourceType} {machine : IrType} {types : List SourceType} {machines : List IrType} :
    Lowered s type machine → LoweredAll s types machines →
      LoweredAll s (type :: types) (machine :: machines)

end

/-- A machine type for an aggregate is the struct of its lowered fields. -/
def Expands (s : SymbolTables) (expand : String → Except Problem IrType) : Prop :=
  ∀ name machine, expand name = .ok machine → ∃ fields machines,
    s.fieldTypes? name = some fields ∧ LoweredAll s fields machines ∧
      machine = .struct machines false (some name)

section Lowering

variable {s : SymbolTables} {expand : String → Except Problem IrType} {visiting : List String}

/-- A function is lowered to a pointer. -/
theorem lowerWith_of_isFunction {type : SourceType} {machine : IrType} (hf : type.isFunction = true)
    (h : lowerWith expand visiting type = .ok machine) : ∃ target, machine = .ptr target := by
  match type with
  | .const inner | .alias _ inner =>
    rw [lowerWith] at h
    exact @lowerWith_of_isFunction inner machine hf h
  | .function ret params isVariadic =>
    rw [lowerWith] at h
    cases hp : lowerAll expand visiting params with
    | error problem =>
      rw [hp] at h
      cases h
    | ok machines =>
      cases hr : lowerWith expand visiting ret with
      | error problem =>
        rw [hp, hr] at h
        cases h
      | ok machine' =>
        rw [hp, hr] at h
        cases h
        exact ⟨_, rfl⟩
  | .void | .scalar _ | .pointer _ | .array .. | .aggregate .. | .templateParam _ => cases hf

mutual

theorem lowered_of_lowerWith (hexpand : Expands s expand) (type : SourceType) {machine : IrType}
    (h : lowerWith expand visiting type = .ok machine) : Lowered s type machine := by
  match type with
  | .void =>
    rw [lowerWith] at h
    cases h
    exact .void
  | .scalar kind =>
    rw [lowerWith] at h
    cases h
    exact .scalar kind
  | .pointer inner =>
    rw [lowerWith, pointerTo] at h
    split_ifs at h with hf hopaque
    · obtain ⟨target, rfl⟩ := lowerWith_of_isFunction hf h
      exact .pointer inner target
    · cases h
      exact .pointer inner .i8
    · cases hinner : lowerWith expand visiting inner with
      | error problem =>
        rw [hinner] at h
        cases h
      | ok target =>
        rw [hinner] at h
        cases h
        exact .pointer inner target
  | .array inner (.fixed length) =>
    rw [lowerWith] at h
    cases hinner : lowerWith expand visiting inner with
    | error problem =>
      rw [hinner] at h
      cases h
    | ok element =>
      rw [hinner] at h
      cases h
      exact .array length (lowered_of_lowerWith hexpand inner hinner)
  | .array inner (.param _) | .array inner (.expr _) =>
    rw [lowerWith] at h
    · cases h
    · nofun
  | .aggregate name args =>
    rw [lowerWith] at h
    split_ifs at h
    obtain ⟨fields, machines, hfields, hall, rfl⟩ := hexpand _ _ h
    exact .aggregate hfields hall
  | .function ret params isVariadic =>
    obtain ⟨target, rfl⟩ := lowerWith_of_isFunction rfl h
    exact .function ret params isVariadic target
  | .templateParam name =>
    rw [lowerWith] at h
    cases h
  | .const inner =>
    rw [lowerWith] at h
    exact .const (lowered_of_lowerWith hexpand inner h)
  | .alias name inner =>
    rw [lowerWith] at h
    exact .alias name (lowered_of_lowerWith hexpand inner h)

theorem loweredAll_of_lowerAll (hexpand : Expands s expand) (types : List SourceType)
    {machines : List IrType} (h : lowerAll expand visiting types = .ok machines) :
    LoweredAll s types machines := by
  match types with
  | [] =>
    rw [lowerAll] at h
    cases h
    exact .nil
  | type :: rest =>
    rw [lowerAll] at h
    cases htype : lowerWith expand visiting type with
    | error problem =>
      rw [htype] at h
      cases h
    | ok machine =>
      cases hrest : lowerAll expand visiting rest with
      | error problem =>
        rw [htype, hrest] at h
        cases h
      | ok machines =>
        rw [htype, hrest] at h
        cases h
        exact .cons (lowered_of_lowerWith hexpand type htype) (loweredAll_of_lowerAll hexpand rest hrest)

end

/-- The induction is on the number of aggregates that may still be entered. -/
theorem SymbolTables.expands_expand (s : SymbolTables) (budget : Nat) (visiting : List String) :
    Expands s (s.expand budget visiting) := by
  induction budget generalizing visiting with
  | zero =>
    intro name machine h
    cases h
  | succ budget ih =>
    intro name machine h
    rw [SymbolTables.expand] at h
    cases hfields : s.fieldTypes? name with
    | none =>
      rw [hfields] at h
      cases h
    | some fields =>
      rw [hfields] at h
      simp only at h
      cases hall : lowerAll (s.expand budget (name :: visiting)) (name :: visiting) fields with
      | error problem =>
        rw [hall] at h
        cases h
      | ok machines =>
        rw [hall] at h
        cases h
        exact ⟨fields, machines, rfl, loweredAll_of_lowerAll (ih _) fields hall, rfl⟩

theorem lowered_of_lower {type : SourceType} {machine : IrType} (h : s.lower type = .ok machine) :
    Lowered s type machine :=
  lowered_of_lowerWith (s.expands_expand _ _) type h

end Lowering

/-! ### Agreement -/

section Place

variable {alignOf sizeOf alignOf' sizeOf' : SourceType → Option Nat} {field : SourceType}
  {rest fields : List SourceType} {offset align : Nat} {placed : List Nat × Nat × Nat}

theorem AggregateLayout.place_cons :
    place alignOf sizeOf (field :: rest) offset align = some placed ↔
      ∃ a start n stop offsets final, alignOf field = some a ∧ alignUp? offset (max a 1) = some start ∧
        sizeOf field = some n ∧ checkU64 (start + n) = some stop ∧
        place alignOf sizeOf rest stop (max align (max a 1)) = some (offsets, final) ∧
        placed = (start :: offsets, final) := by
  simp only [place, Option.bind_eq_bind, Option.bind_eq_some_iff, Option.some.injEq, Prod.exists]
  constructor
  · rintro ⟨a, ha, start, hstart, n, hn, stop, hstop, offsets, last, top, hplace, rfl⟩
    exact ⟨a, start, n, stop, offsets, last, top, ha, hstart, hn, hstop, hplace, rfl⟩
  · rintro ⟨a, start, n, stop, offsets, last, top, ha, hstart, hn, hstop, hplace, rfl⟩
    exact ⟨a, ha, start, hstart, n, hn, stop, hstop, offsets, last, top, hplace, rfl⟩

theorem AggregateLayout.ofFields_eq_some {layout : AggregateLayout} :
    ofFields alignOf sizeOf fields = some layout ↔
      ∃ stop, place alignOf sizeOf fields 0 1 = some (layout.offsets, stop, layout.align) ∧
        alignUp? stop layout.align = some layout.size := by
  simp only [ofFields, Option.bind_eq_bind, Option.bind_eq_some_iff, Option.some.injEq, Prod.exists]
  constructor
  · rintro ⟨offsets, stop, align, hplace, size, hsize, rfl⟩
    exact ⟨stop, hplace, hsize⟩
  · rintro ⟨stop, hplace, hsize⟩
    exact ⟨layout.offsets, stop, layout.align, hplace, layout.size, hsize, rfl⟩

/-- More answers for the fields leave a layout as it is. -/
theorem AggregateLayout.place_mono
    (halign : ∀ field a, alignOf field = some a → alignOf' field = some a)
    (hsize : ∀ field n, sizeOf field = some n → sizeOf' field = some n)
    (h : place alignOf sizeOf fields offset align = some placed) :
    place alignOf' sizeOf' fields offset align = some placed := by
  induction fields generalizing offset align placed with
  | nil => exact h
  | cons field rest ih =>
    obtain ⟨a, start, n, stop, offsets, final, ha, hstart, hn, hstop, hrest, rfl⟩ := place_cons.mp h
    exact place_cons.mpr ⟨a, start, n, stop, offsets, final, halign _ _ ha, hstart, hsize _ _ hn, hstop,
      ih hrest, rfl⟩

theorem AggregateLayout.ofFields_mono {layout : AggregateLayout}
    (halign : ∀ field a, alignOf field = some a → alignOf' field = some a)
    (hsize : ∀ field n, sizeOf field = some n → sizeOf' field = some n)
    (h : ofFields alignOf sizeOf fields = some layout) :
    ofFields alignOf' sizeOf' fields = some layout := by
  obtain ⟨stop, hplace, hround⟩ := ofFields_eq_some.mp h
  exact ofFields_eq_some.mpr ⟨stop, place_mono halign hsize hplace, hround⟩

end Place

section Budget

variable {src : LayoutSource} {budget budget' : Nat} {type : SourceType}

theorem sizeWithin_array {inner : SourceType} {length : Nat} (h : type.strip = .array inner (.fixed length)) :
    sizeWithin src (budget + 1) type =
      (sizeWithin src budget inner).bind fun n => checkU64 (n * length) := by
  rw [sizeWithin, h]
  rfl

theorem alignWithin_array {inner : SourceType} {length : ArrayLength} (h : type.strip = .array inner length) :
    alignWithin src (budget + 1) type = alignWithin src budget inner := by
  rw [alignWithin, h]

theorem sizeWithin_aggregate {name : String} {args : List TemplateArg} {fields : List SourceType}
    (h : type.strip = .aggregate name args)
    (hfields : src.fields (canonical (.aggregate name args)) = some fields) :
    sizeWithin src (budget + 1) type =
      (AggregateLayout.ofFields (alignWithin src budget) (sizeWithin src budget) fields).map (·.size) := by
  rw [sizeWithin, h]
  simp only [hfields, Option.bind_eq_bind, Option.bind_some, Option.map_eq_bind]
  rfl

theorem alignWithin_aggregate {name : String} {args : List TemplateArg} {fields : List SourceType}
    (h : type.strip = .aggregate name args)
    (hfields : src.fields (canonical (.aggregate name args)) = some fields) :
    alignWithin src (budget + 1) type =
      (AggregateLayout.ofFields (alignWithin src budget) (sizeWithin src budget) fields).map (·.align) := by
  rw [alignWithin, h]
  simp only [hfields, Option.bind_eq_bind, Option.bind_some, Option.map_eq_bind]
  rfl

/-- Answers stay the same when more levels may be entered. -/
theorem within_mono (h : budget ≤ budget') :
    (∀ type n, sizeWithin src budget type = some n → sizeWithin src budget' type = some n) ∧
      ∀ type a, alignWithin src budget type = some a → alignWithin src budget' type = some a := by
  induction budget generalizing budget' with
  | zero => exact ⟨nofun, nofun⟩
  | succ budget ih =>
    obtain ⟨budget', rfl⟩ : ∃ k, budget' = k + 1 := ⟨budget' - 1, by omega⟩
    obtain ⟨hsize, halign⟩ := ih (Nat.le_of_succ_le_succ h)
    refine ⟨fun type n hn => ?_, fun type a ha => ?_⟩
    · cases htype : type.strip with
      | array inner length =>
        cases length with
        | fixed length =>
          rw [sizeWithin_array htype] at hn ⊢
          obtain ⟨m, hm, hcheck⟩ := Option.bind_eq_some_iff.mp hn
          exact Option.bind_eq_some_iff.mpr ⟨m, hsize _ _ hm, hcheck⟩
        | param _ | expr _ => simp [sizeWithin, htype] at hn
      | aggregate name args =>
        cases hfields : src.fields (canonical (.aggregate name args)) with
        | none => simp [sizeWithin, htype, hfields] at hn
        | some fields =>
          rw [sizeWithin_aggregate htype hfields] at hn ⊢
          obtain ⟨layout, hlayout, rfl⟩ := Option.map_eq_some_iff.mp hn
          exact Option.map_eq_some_iff.mpr
            ⟨layout, AggregateLayout.ofFields_mono halign hsize hlayout, rfl⟩
      | void | scalar _ | pointer _ | function _ _ _ => simpa [sizeWithin, htype] using hn
      | const _ | templateParam _ | «alias» _ _ => simp [sizeWithin, htype] at hn
    · cases htype : type.strip with
      | array inner length =>
        rw [alignWithin_array htype] at ha ⊢
        exact halign _ _ ha
      | aggregate name args =>
        cases hfields : src.fields (canonical (.aggregate name args)) with
        | none => simp [alignWithin, htype, hfields] at ha
        | some fields =>
          rw [alignWithin_aggregate htype hfields] at ha ⊢
          obtain ⟨layout, hlayout, rfl⟩ := Option.map_eq_some_iff.mp ha
          exact Option.map_eq_some_iff.mpr
            ⟨layout, AggregateLayout.ofFields_mono halign hsize hlayout, rfl⟩
      | void | scalar _ | pointer _ | function _ _ _ => simpa [alignWithin, htype] using ha
      | const _ | templateParam _ | «alias» _ _ => simp [alignWithin, htype] at ha

/-- What has a size has an alignment. -/
theorem alignWithin_of_sizeWithin {n : Nat} (h : sizeWithin src budget type = some n) :
    ∃ a, alignWithin src budget type = some a := by
  induction budget generalizing type n with
  | zero => cases h
  | succ budget ih =>
    cases htype : type.strip with
    | array inner length =>
      rw [alignWithin_array htype]
      cases length with
      | fixed length =>
        rw [sizeWithin_array htype] at h
        obtain ⟨m, hm, -⟩ := Option.bind_eq_some_iff.mp h
        exact ih hm
      | param _ | expr _ => simp [sizeWithin, htype] at h
    | aggregate name args =>
      cases hfields : src.fields (canonical (.aggregate name args)) with
      | none => simp [sizeWithin, htype, hfields] at h
      | some fields =>
        rw [sizeWithin_aggregate htype hfields] at h
        obtain ⟨layout, hlayout, rfl⟩ := Option.map_eq_some_iff.mp h
        exact ⟨layout.align, by rw [alignWithin_aggregate htype hfields, hlayout]; rfl⟩
    | void | scalar _ | pointer _ | function _ _ _ => simp [alignWithin, htype]
    | const _ | templateParam _ | «alias» _ _ => simp [sizeWithin, htype] at h

end Budget

section Agreement

variable {s : SymbolTables} {bits : Nat}

/-- A pointer is as wide as its alignment says. -/
theorem alignOf_ptr (hbits : bits ∈ [16, 32, 64]) (target : IrType) :
    (DataLayout.ofPointerBits bits).alignOf (.ptr target) = bits / 8 ∧ 0 < bits / 8 := by
  simp only [List.mem_cons, List.not_mem_nil, or_false] at hbits
  rcases hbits with rfl | rfl | rfl <;> exact ⟨rfl, by decide⟩

theorem DataLayout.le_placeFields_align (d : DataLayout) (isPacked : Bool) (fields : List IrType)
    (offset align : Nat) : align ≤ (d.placeFields isPacked fields offset align).2.2 := by
  induction fields generalizing offset align with
  | nil => exact le_refl _
  | cons field rest ih => exact (le_max_left _ _).trans (ih _ _)

theorem Scalar.sizeOf_machineType (d : DataLayout) (k : Scalar) : d.sizeOf k.machineType = k.bytes := by
  cases k <;> rfl

theorem Scalar.alignOf_machineType (d : DataLayout) (k : Scalar) : d.alignOf k.machineType = k.align := by
  cases k <;> rfl

theorem Scalar.align_pos (k : Scalar) : 0 < k.align := by cases k <;> decide

theorem Lowered.alignOf_pos (hbits : bits ∈ [16, 32, 64]) {type : SourceType} {machine : IrType}
    (h : Lowered s type machine) : 0 < (DataLayout.ofPointerBits bits).alignOf machine := by
  match h with
  | .void => exact Nat.one_pos
  | .scalar kind =>
    rw [Scalar.alignOf_machineType]
    exact kind.align_pos
  | .pointer inner target | .function _ _ _ target =>
    obtain ⟨halign, hpos⟩ := alignOf_ptr hbits target
    rw [halign]
    exact hpos
  | .array length h => exact h.alignOf_pos hbits
  | .aggregate _ _ => exact DataLayout.le_placeFields_align _ _ _ 0 1
  | .const h | .alias _ h => exact h.alignOf_pos hbits

mutual

/-- A size or an alignment that the source type has is the one of its machine type. -/
theorem Lowered.agrees (hbits : bits ∈ [16, 32, 64]) {type : SourceType} {machine : IrType}
    (h : Lowered s type machine) (budget : Nat) :
    (∀ n, sizeWithin (s.layoutSource bits) budget type = some n →
        (DataLayout.ofPointerBits bits).sizeOf machine = n) ∧
      ∀ a, alignWithin (s.layoutSource bits) budget type = some a →
        (DataLayout.ofPointerBits bits).alignOf machine = a := by
  cases budget with
  | zero => exact ⟨nofun, nofun⟩
  | succ budget =>
    match h with
    | .void => exact ⟨fun n hn => Option.some.inj hn, fun a ha => Option.some.inj ha⟩
    | .scalar kind =>
      rw [Scalar.sizeOf_machineType, Scalar.alignOf_machineType]
      exact ⟨fun n hn => Option.some.inj hn, fun a ha => Option.some.inj ha⟩
    | .pointer inner target | .function _ _ _ target =>
      rw [(alignOf_ptr hbits target).1]
      exact ⟨fun n hn => Option.some.inj hn, fun a ha => Option.some.inj ha⟩
    | .array length hinner =>
      obtain ⟨hsize, halign⟩ := hinner.agrees hbits budget
      refine ⟨fun n hn => ?_, fun a ha => halign a ?_⟩
      · rw [sizeWithin_array rfl] at hn
        obtain ⟨m, hm, hcheck⟩ := Option.bind_eq_some_iff.mp hn
        obtain ⟨hle, rfl⟩ := checkU64_eq_some.mp hcheck
        rw [DataLayout.sizeOf, hsize m hm, saturatingMul_of_le hle]
      · rwa [alignWithin_array rfl] at ha
    | .aggregate hfields hall =>
      refine ⟨fun n hn => ?_, fun a ha => ?_⟩
      · rw [sizeWithin_aggregate rfl hfields] at hn
        obtain ⟨layout, hlayout, rfl⟩ := Option.map_eq_some_iff.mp hn
        obtain ⟨stop, hplace, hround⟩ := AggregateLayout.ofFields_eq_some.mp hlayout
        simp [DataLayout.sizeOf, hall.agrees hbits budget hplace, alignUp_of_alignUp? hround]
      · rw [alignWithin_aggregate rfl hfields] at ha
        obtain ⟨layout, hlayout, rfl⟩ := Option.map_eq_some_iff.mp ha
        obtain ⟨stop, hplace, hround⟩ := AggregateLayout.ofFields_eq_some.mp hlayout
        simp [DataLayout.alignOf, hall.agrees hbits budget hplace]
    | .const hinner | .alias _ hinner =>
      simpa only [sizeWithin, alignWithin, strip_const, strip_alias] using hinner.agrees hbits (budget + 1)

/-- Fields that the source types place are placed alike by their machine types. -/
theorem LoweredAll.agrees (hbits : bits ∈ [16, 32, 64]) {types : List SourceType}
    {machines : List IrType} (h : LoweredAll s types machines) (budget : Nat) {offset align : Nat}
    {placed : List Nat × Nat × Nat}
    (hplace : AggregateLayout.place (alignWithin (s.layoutSource bits) budget)
      (sizeWithin (s.layoutSource bits) budget) types offset align = some placed) :
    (DataLayout.ofPointerBits bits).placeFields false machines offset align = placed := by
  match h with
  | .nil => exact Option.some.inj hplace
  | .cons htype hrest =>
    obtain ⟨a, start, n, stop, offsets, final, ha, hstart, hn, hstop, hplace, rfl⟩ :=
      AggregateLayout.place_cons.mp hplace
    obtain ⟨hsize, halign⟩ := htype.agrees hbits budget
    obtain ⟨hle, rfl⟩ := checkU64_eq_some.mp hstop
    have hpos := htype.alignOf_pos hbits
    rw [halign a ha] at hpos
    rw [max_eq_left (Nat.succ_le_of_lt hpos)] at hstart hplace
    have hrest := hrest.agrees hbits budget hplace
    simp only [DataLayout.placeFields, Bool.false_eq_true, if_false, halign a ha, hsize n hn,
      alignUp_of_alignUp? hstart, saturatingAdd_of_le hle, hrest]

end

mutual

/-- A type has a size exactly when it nests within the budget and its layout stays in 64 bits. -/
theorem Lowered.isSome_iff (hbits : bits ∈ [16, 32, 64]) {type : SourceType} {machine : IrType}
    (h : Lowered s type machine) (budget : Nat) :
    (sizeWithin (s.layoutSource bits) budget type).isSome ↔
      s.NestsWithin budget type ∧ machine.Fits (DataLayout.ofPointerBits bits) := by
  cases budget with
  | zero => simp [sizeWithin, SymbolTables.NestsWithin]
  | succ budget =>
    match h with
    | .void | .pointer _ _ | .function _ _ _ _ =>
      simp [sizeWithin, SymbolTables.NestsWithin, SourceType.strip, IrType.Fits]
    | .scalar kind =>
      have hfits : kind.machineType.Fits (DataLayout.ofPointerBits bits) := by
        cases kind <;> simp [Scalar.machineType, IrType.Fits]
      simp [sizeWithin, SymbolTables.NestsWithin, SourceType.strip, hfits]
    | .array length hinner =>
      have ih := hinner.isSome_iff hbits budget
      simp only [SymbolTables.NestsWithin, SourceType.strip, IrType.Fits, ← and_assoc, ← ih]
      rw [sizeWithin_array rfl]
      constructor
      · intro hsome
        obtain ⟨n, hn⟩ := Option.isSome_iff_exists.mp hsome
        obtain ⟨m, hm, hcheck⟩ := Option.bind_eq_some_iff.mp hn
        rw [(hinner.agrees hbits budget).1 m hm, hm]
        exact ⟨rfl, (checkU64_eq_some.mp hcheck).1⟩
      · rintro ⟨hsome, hle⟩
        obtain ⟨m, hm⟩ := Option.isSome_iff_exists.mp hsome
        rw [(hinner.agrees hbits budget).1 m hm] at hle
        rw [hm, Option.bind_some, checkU64_eq_some.mpr ⟨hle, rfl⟩]
        rfl
    | @Lowered.aggregate _ name args fields _ hfields hall =>
      have ih := hall.isSome_iff hbits budget 0 1 (Nat.zero_le _) Nat.one_pos
      rw [sizeWithin_aggregate rfl hfields, Option.isSome_map, IrType.Fits]
      have hnests : s.NestsWithin (budget + 1) (.aggregate name args) ↔
          ∀ field ∈ fields, s.NestsWithin budget field := by
        simp [SymbolTables.NestsWithin, SourceType.strip, hfields]
      rw [hnests, ← ih]
      constructor
      · intro hsome
        obtain ⟨layout, hlayout⟩ := Option.isSome_iff_exists.mp hsome
        obtain ⟨stop, hplace, hround⟩ := AggregateLayout.ofFields_eq_some.mp hlayout
        exact ⟨_, _, _, hplace, _, hround⟩
      · rintro ⟨offsets, stop, top, hplace, size, hround⟩
        exact Option.isSome_iff_exists.mpr
          ⟨⟨size, top, offsets⟩, AggregateLayout.ofFields_eq_some.mpr ⟨stop, hplace, hround⟩⟩
    | .const hinner | .alias _ hinner =>
      simpa only [sizeWithin, SymbolTables.NestsWithin, strip_const, strip_alias] using
        hinner.isSome_iff hbits (budget + 1)

theorem LoweredAll.isSome_iff (hbits : bits ∈ [16, 32, 64]) {types : List SourceType}
    {machines : List IrType} (h : LoweredAll s types machines) (budget offset align : Nat)
    (hoffset : offset ≤ maxU64) (halign : 0 < align) :
    (∃ offsets stop top,
        AggregateLayout.place (alignWithin (s.layoutSource bits) budget)
          (sizeWithin (s.layoutSource bits) budget) types offset align = some (offsets, stop, top) ∧
        ∃ size, alignUp? stop top = some size) ↔
      (∀ type ∈ types, s.NestsWithin budget type) ∧
        IrType.FitFrom (DataLayout.ofPointerBits bits) machines offset align := by
  match h with
  | .nil =>
    simp only [AggregateLayout.place, Option.some.injEq, Prod.mk.injEq, IrType.FitFrom]
    constructor
    · rintro ⟨_, _, _, ⟨rfl, rfl, rfl⟩, size, hround⟩
      rw [alignUp?_eq halign hoffset] at hround
      exact ⟨nofun, (checkU64_eq_some.mp hround).1⟩
    · rintro ⟨-, hle⟩
      refine ⟨[], offset, align, ⟨rfl, rfl, rfl⟩, roundUp offset align, ?_⟩
      rw [alignUp?_eq halign hoffset]
      exact checkU64_eq_some.mpr ⟨hle, rfl⟩
  | @LoweredAll.cons _ type machine _ _ htype hrest =>
    have hhead := htype.isSome_iff hbits budget
    obtain ⟨hsize, halign'⟩ := htype.agrees hbits budget
    have hpos := htype.alignOf_pos hbits
    have htop : 0 < max align ((DataLayout.ofPointerBits bits).alignOf machine) :=
      halign.trans_le (le_max_left _ _)
    simp only [List.forall_mem_cons, IrType.FitFrom]
    constructor
    · rintro ⟨offsets, stop, top, hplace, hround⟩
      obtain ⟨a, start, n, next, offsets, final, ha, hstart, hn, hnext, hplace, hfinal⟩ :=
        AggregateLayout.place_cons.mp hplace
      cases hfinal
      cases halign' a ha
      cases hsize n hn
      rw [max_eq_left (Nat.succ_le_of_lt hpos)] at hstart hplace
      rw [alignUp?_eq hpos hoffset] at hstart
      obtain ⟨-, rfl⟩ := checkU64_eq_some.mp hstart
      obtain ⟨hle, rfl⟩ := checkU64_eq_some.mp hnext
      obtain ⟨hnests, hfits⟩ := hhead.mp (by rw [hn]; rfl)
      obtain ⟨hnestsAll, hfitsAll⟩ :=
        (hrest.isSome_iff hbits budget _ _ hle htop).mp ⟨_, _, _, hplace, hround⟩
      exact ⟨⟨hnests, hnestsAll⟩, hfits, hle, hfitsAll⟩
    · rintro ⟨⟨hnests, hnestsAll⟩, hfits, hle, hfitsAll⟩
      obtain ⟨n, hn⟩ := Option.isSome_iff_exists.mp (hhead.mpr ⟨hnests, hfits⟩)
      obtain ⟨a, ha⟩ := alignWithin_of_sizeWithin hn
      obtain ⟨offsets, stop, top, hplace, hround⟩ :=
        (hrest.isSome_iff hbits budget _ _ hle htop).mpr ⟨hnestsAll, hfitsAll⟩
      refine ⟨_, stop, top, AggregateLayout.place_cons.mpr ⟨a, roundUp offset a, n, _, offsets, _, ha, ?_,
        hn, checkU64_eq_some.mpr ⟨?_, rfl⟩, ?_, rfl⟩, hround⟩
      all_goals cases halign' a ha; cases hsize n hn
      · rw [max_eq_left (Nat.succ_le_of_lt hpos), alignUp?_eq hpos hoffset]
        exact checkU64_eq_some.mpr ⟨by omega, rfl⟩
      · exact hle
      · rwa [max_eq_left (Nat.succ_le_of_lt hpos)]

end

/-! ### The aggregates held by value -/

theorem LoweredAll.exists_of_mem {types : List SourceType} {machines : List IrType}
    (h : LoweredAll s types machines) {type : SourceType} (hmem : type ∈ types) :
    ∃ machine ∈ machines, Lowered s type machine := by
  match h with
  | .nil => cases hmem
  | .cons htype hrest =>
    rcases List.mem_cons.mp hmem with rfl | hmem
    · exact ⟨_, List.mem_cons_self, htype⟩
    · obtain ⟨machine, hmachine, hlowered⟩ := hrest.exists_of_mem hmem
      exact ⟨machine, List.mem_cons_of_mem _ hmachine, hlowered⟩

theorem LoweredAll.exists_of_mem_machines {types : List SourceType} {machines : List IrType}
    (h : LoweredAll s types machines) {machine : IrType} (hmem : machine ∈ machines) :
    ∃ type ∈ types, Lowered s type machine := by
  match h with
  | .nil => cases hmem
  | .cons htype hrest =>
    rcases List.mem_cons.mp hmem with rfl | hmem
    · exact ⟨_, List.mem_cons_self, htype⟩
    · obtain ⟨type, htype, hlowered⟩ := hrest.exists_of_mem_machines hmem
      exact ⟨type, List.mem_cons_of_mem _ htype, hlowered⟩

/-- Stripping a type does not change what it is lowered to. -/
theorem Lowered.strip {type : SourceType} {machine : IrType} (h : Lowered s type machine) :
    Lowered s type.strip machine := by
  match h with
  | .const hinner | .alias _ hinner => exact hinner.strip
  | .void => exact .void
  | .scalar kind => exact .scalar kind
  | .pointer inner target => exact .pointer inner target
  | .function ret params isVariadic target => exact .function ret params isVariadic target
  | .array length hinner => exact .array length hinner
  | .aggregate hfields hall => exact .aggregate hfields hall

theorem aggregateName?_eq_some {type : SourceType} {name : String} :
    type.aggregateName? = some name ↔
      ∃ bare args, type.strip = .aggregate bare args ∧ canonical (.aggregate bare args) = name := by
  unfold aggregateName?
  cases type.strip <;> simp

/-- An aggregate is lowered to the struct of its fields. -/
theorem Lowered.of_aggregateName? {type : SourceType} {machine : IrType} {name : String}
    (h : Lowered s type machine) (hname : type.aggregateName? = some name) :
    ∃ fields machines, s.fieldTypes? name = some fields ∧ LoweredAll s fields machines ∧
      machine = .struct machines false (some name) := by
  obtain ⟨bare, args, hstrip, rfl⟩ := aggregateName?_eq_some.mp hname
  have hl := h.strip
  rw [hstrip] at hl
  match hl with
  | .aggregate hfields hall => exact ⟨_, _, hfields, hall, rfl⟩

/-- A struct stands in the machine type for each aggregate that the type holds. -/
theorem SymbolTables.Holds.struct {type : SourceType} {name : String} (h : s.Holds type name)
    {machine : IrType} (hl : Lowered s type machine) :
    ∃ fields machines, s.fieldTypes? name = some fields ∧
      machine.Holds (.struct machines false (some name)) := by
  induction h generalizing machine with
  | itself hname =>
    obtain ⟨fields, machines, hfields, -, rfl⟩ := hl.of_aggregateName? hname
    exact ⟨fields, machines, hfields, .itself⟩
  | element htype _ ih =>
    have hl := hl.strip
    rw [htype] at hl
    cases hl with
    | array length hinner =>
      obtain ⟨fields, machines, hfields, hholds⟩ := ih hinner
      exact ⟨fields, machines, hfields, .element hholds⟩
  | field hname hfields hmem _ ih =>
    obtain ⟨fields', machines, hfields', hall, rfl⟩ := hl.of_aggregateName? hname
    cases hfields.symm.trans hfields'
    obtain ⟨machine, hmachine, hfield⟩ := hall.exists_of_mem hmem
    obtain ⟨fields, parts, hfields, hholds⟩ := ih hfield
    exact ⟨fields, parts, hfields, .field hmachine hholds⟩

theorem AggregateLayout.size_of_mem {alignOf sizeOf : SourceType → Option Nat}
    {fields : List SourceType} {field : SourceType} {offset align : Nat} {placed : List Nat × Nat × Nat}
    (h : place alignOf sizeOf fields offset align = some placed) (hmem : field ∈ fields) :
    ∃ n, sizeOf field = some n := by
  induction fields generalizing offset align placed with
  | nil => cases hmem
  | cons head rest ih =>
    obtain ⟨a, start, n, stop, offsets, final, -, -, hn, -, hplace, -⟩ := place_cons.mp h
    rcases List.mem_cons.mp hmem with rfl | hmem
    · exact ⟨n, hn⟩
    · exact ih hplace hmem

/-- Only aggregates are lowered to structs. -/
theorem Lowered.of_struct {type : SourceType} {machine : IrType} {machines : List IrType}
    {isPacked : Bool} {name : Option String} (h : Lowered s type machine)
    (hmachine : machine = .struct machines isPacked name) :
    ∃ aggregate fields, name = some aggregate ∧ isPacked = false ∧
      type.aggregateName? = some aggregate ∧ s.fieldTypes? aggregate = some fields ∧
      LoweredAll s fields machines := by
  match h with
  | .void | .pointer _ _ | .function _ _ _ _ | .array _ _ => cases hmachine
  | .scalar kind => cases kind <;> cases hmachine
  | .aggregate hfields hall =>
    cases hmachine
    exact ⟨_, _, rfl, rfl, rfl, hfields, hall⟩
  | .const hinner | .alias _ hinner => exact hinner.of_struct hmachine

/-- Only arrays are lowered to arrays. -/
theorem Lowered.of_array {type : SourceType} {machine element : IrType} {length : Nat}
    (h : Lowered s type machine) (hmachine : machine = .array element length) :
    ∃ inner, type.strip = .array inner (.fixed length) ∧ Lowered s inner element := by
  match h with
  | .void | .pointer _ _ | .function _ _ _ _ | .aggregate _ _ => cases hmachine
  | .scalar kind => cases kind <;> cases hmachine
  | .array _ hinner =>
    cases hmachine
    exact ⟨_, rfl, hinner⟩
  | .const hinner | .alias _ hinner => exact hinner.of_array hmachine

/-- An aggregate with a size has a layout of its fields. -/
theorem ofFields_of_sizeWithin {src : LayoutSource} {budget n : Nat} {type : SourceType} {name : String}
    {fields : List SourceType} (hname : type.aggregateName? = some name)
    (hfields : src.fields name = some fields) (hsize : sizeWithin src budget type = some n) :
    ∃ deeper < budget, ∃ layout, AggregateLayout.ofFields (alignWithin src deeper)
      (sizeWithin src deeper) fields = some layout := by
  obtain ⟨bare, args, hstrip, rfl⟩ := aggregateName?_eq_some.mp hname
  cases budget with
  | zero => cases hsize
  | succ deeper =>
    rw [sizeWithin_aggregate hstrip hfields] at hsize
    obtain ⟨layout, hlayout, -⟩ := Option.map_eq_some_iff.mp hsize
    exact ⟨deeper, Nat.lt_succ_self _, layout, hlayout⟩

/-- A struct in the machine type of a type with a size belongs to an aggregate that has a layout.  The
induction is on the way to the struct. -/
theorem IrType.Holds.ofFields {machine part : IrType} (hpart : machine.Holds part) {type : SourceType}
    {budget n : Nat} (h : Lowered s type machine)
    (hsize : sizeWithin (s.layoutSource bits) budget type = some n) {machines : List IrType}
    {isPacked : Bool} {name : String} (hstruct : part = .struct machines isPacked (some name)) :
    ∃ fields, s.fieldTypes? name = some fields ∧ LoweredAll s fields machines ∧ isPacked = false ∧
      ∃ deeper < budget, ∃ layout, AggregateLayout.ofFields (alignWithin (s.layoutSource bits) deeper)
        (sizeWithin (s.layoutSource bits) deeper) fields = some layout := by
  induction hpart generalizing type budget n with
  | itself =>
    obtain ⟨_, fields, hname, hpacked, haggregate, hfields, hall⟩ := h.of_struct hstruct
    cases hname
    exact ⟨fields, hfields, hall, hpacked, ofFields_of_sizeWithin haggregate hfields hsize⟩
  | element _ ih =>
    obtain ⟨inner, hstrip, hinner⟩ := h.of_array rfl
    cases budget with
    | zero => cases hsize
    | succ budget =>
      rw [sizeWithin_array hstrip] at hsize
      obtain ⟨m, hm, -⟩ := Option.bind_eq_some_iff.mp hsize
      obtain ⟨fields, hfields, hall, hpacked, deeper, hdeeper, hlayout⟩ := ih hinner hm hstruct
      exact ⟨fields, hfields, hall, hpacked, deeper, Nat.lt_succ_of_lt hdeeper, hlayout⟩
  | field hmem _ ih =>
    obtain ⟨outer, types, -, -, haggregate, htypes, hall⟩ := h.of_struct rfl
    obtain ⟨deeper, hdeeper, layout, hlayout⟩ := ofFields_of_sizeWithin haggregate htypes hsize
    obtain ⟨type, htype, hlowered⟩ := hall.exists_of_mem_machines hmem
    obtain ⟨stop, hplace, -⟩ := AggregateLayout.ofFields_eq_some.mp hlayout
    obtain ⟨m, hm⟩ := AggregateLayout.size_of_mem hplace htype
    obtain ⟨fields, hfields, hall, hpacked, deepest, hdeepest, hlayout⟩ := ih hlowered hm hstruct
    exact ⟨fields, hfields, hall, hpacked, deepest, hdeepest.trans hdeeper, hlayout⟩

/-- The layout of fields is that of the struct they are lowered to. -/
theorem LoweredAll.structLayout? (hbits : bits ∈ [16, 32, 64]) {fields : List SourceType}
    {machines : List IrType} (h : LoweredAll s fields machines) {name : Option String}
    {layout : AggregateLayout} (hlayout : aggregateLayout? (s.layoutSource bits) fields = some layout) :
    (DataLayout.ofPointerBits bits).structLayout? (.struct machines false name) =
      some ⟨layout.size, layout.align, layout.offsets⟩ := by
  obtain ⟨stop, hplace, hround⟩ := AggregateLayout.ofFields_eq_some.mp hlayout
  simp [DataLayout.structLayout?, DataLayout.sizeOf, DataLayout.alignOf, h.agrees hbits _ hplace,
    alignUp_of_alignUp? hround]

end Agreement

namespace SymbolTables

/-- A type with a size has the size and the alignment of the machine type it is lowered to, and every
aggregate it holds by value has the layout of the struct that stands for it.  A type has a size exactly
when it nests within the limit and no size or rounding leaves 64 bits. -/
theorem layout_of_lower {s : SymbolTables} {bits : Nat} (hbits : bits ∈ [16, 32, 64]) {type : SourceType}
    {machine : IrType} (hlower : s.lower type = .ok machine) :
    (∀ n, type.sizeBytes? (s.layoutSource bits) = some n →
      (DataLayout.ofPointerBits bits).sizeOf machine = n ∧
      type.alignment? (s.layoutSource bits) = some ((DataLayout.ofPointerBits bits).alignOf machine) ∧
      ∀ name, s.Holds type name →
        (∃ machines, machine.Holds (.struct machines false (some name))) ∧
        ∀ machines isPacked, machine.Holds (.struct machines isPacked (some name)) →
          ∃ fields layout, s.fieldTypes? name = some fields ∧
            aggregateLayout? (s.layoutSource bits) fields = some layout ∧
            (DataLayout.ofPointerBits bits).structLayout? (.struct machines isPacked (some name)) =
              some ⟨layout.size, layout.align, layout.offsets⟩) ∧
    ((type.sizeBytes? (s.layoutSource bits)).isSome ↔
      s.NestsWithin (maxLayoutDepth + 1) type ∧ machine.Fits (DataLayout.ofPointerBits bits)) := by
  have hl := lowered_of_lower hlower
  refine ⟨fun n hn => ?_, hl.isSome_iff hbits _⟩
  obtain ⟨hsize, halign⟩ := hl.agrees hbits (maxLayoutDepth + 1)
  obtain ⟨a, ha⟩ := alignWithin_of_sizeWithin hn
  refine ⟨hsize n hn, ?_, fun name hname => ⟨?_, fun machines isPacked hholds => ?_⟩⟩
  · rw [halign a ha]
    exact ha
  · obtain ⟨-, machines, -, hholds⟩ := hname.struct hl
    exact ⟨machines, hholds⟩
  · obtain ⟨fields, hfields, hall, rfl, deeper, hdeeper, layout, hlayout⟩ := hholds.ofFields hl hn rfl
    obtain ⟨hsizes, haligns⟩ := @within_mono (s.layoutSource bits) _ _ (Nat.le_of_lt hdeeper)
    have hlayout : aggregateLayout? (s.layoutSource bits) fields = some layout :=
      AggregateLayout.ofFields_mono haligns hsizes hlayout
    exact ⟨fields, layout, hfields, hlayout, hall.structLayout? hbits hlayout⟩

/-- The aggregates `Cell`, which points to itself, and `Pair`, which holds a cell. -/
def cells : SymbolTables where
  aggregates := ⟨[
    ("Cell", {
      decl := ⟨0⟩, name := "Cell", base := none, isInstance := false, space := [], subst := {}
      fields := [⟨"tag", .scalar .char, 0, none⟩, ⟨"next", .pointer (.aggregate "Cell" []), 1, none⟩,
        ⟨"items", .array (.scalar .short) (.fixed 3), 2, none⟩] }),
    ("Pair", {
      decl := ⟨1⟩, name := "Pair", base := none, isInstance := false, space := [], subst := {}
      fields := [⟨"first", .scalar .bool, 0, none⟩, ⟨"cell", .aggregate "Cell" [], 1, none⟩,
        ⟨"last", .const (.scalar .long), 2, none⟩] })]⟩

/-- The machine type of `Cell`. -/
def cell : IrType := .struct [.i8, .ptr .i8, .array .i16 3] false (some "Cell")

theorem layout_of_pairs :
    32 ∈ [16, 32, 64] ∧
      cells.lower (.array (.aggregate "Pair" []) (.fixed 2)) =
        .ok (.array (.struct [.i1, cell, .i64] false (some "Pair")) 2) ∧
      (DataLayout.ofPointerBits 32).sizeOf (.array (.struct [.i1, cell, .i64] false (some "Pair")) 2) = 64 ∧
      ((DataLayout.ofPointerBits 32).structLayout? cell).map (·.offsets) = some [0, 4, 8] := by
  have hlower : cells.lower (.array (.aggregate "Pair" []) (.fixed 2)) =
      .ok (.array (.struct [.i1, cell, .i64] false (some "Pair")) 2) := rfl
  obtain ⟨hsize, -, hheld⟩ := (@layout_of_lower cells 32 (by decide) _ _ hlower).1 64 (by decide)
  have hholds : cells.Holds (.array (.aggregate "Pair" []) (.fixed 2)) "Cell" :=
    .element rfl (.field rfl rfl (.tail _ (.head _)) (.itself rfl))
  obtain ⟨-, hlayout⟩ := hheld "Cell" hholds
  obtain ⟨fields, layout, hfields, hlayout, hstruct⟩ :=
    hlayout [.i8, .ptr .i8, .array .i16 3] false (.element (.field (.tail _ (.head _)) .itself))
  cases hfields
  cases hlayout
  exact ⟨by decide, hlower, hsize, by rw [cell, hstruct]; rfl⟩

end SymbolTables

end UnitCompiler
