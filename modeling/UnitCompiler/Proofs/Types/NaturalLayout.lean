import Mathlib
import UnitCompiler.Proofs.Types.Layout

/-!
# The natural layout

The layout of a field list is compared with one that is described without computing it and knows no
largest address: each field stands at the least multiple of its alignment from the end of the field
before, the size is the least such multiple that covers the last field.  A list has a layout exactly
when its fields are measured and that size stays within 64 bits.  Since every alignment is a power of
two that divides the size, the alignment of a leaf is kept through fields and elements.
-/

namespace UnitCompiler

open SourceType

/-- The least multiple of the alignment that is not below the bound. -/
def IsNextMultiple (alignment bound n : Nat) : Prop := IsLeast {m | alignment ∣ m ∧ bound ≤ m} n

section Multiples

variable {alignment bound n : Nat}

theorem IsNextMultiple.dvd (h : IsNextMultiple alignment bound n) : alignment ∣ n := h.1.1

theorem IsNextMultiple.le (h : IsNextMultiple alignment bound n) : bound ≤ n := h.1.2

theorem isNextMultiple_roundUp (ha : 0 < alignment) :
    IsNextMultiple alignment bound (roundUp bound alignment) := by
  have hstep : bound ≤ roundUp bound alignment ∧ roundUp bound alignment < bound + alignment := by
    by_cases hdvd : bound % alignment = 0
    · rw [roundUp_of_dvd ha hdvd]
      omega
    · have hlt := Nat.mod_lt bound ha
      rw [roundUp_of_not_dvd ha hdvd]
      omega
  have hdvd : alignment ∣ roundUp bound alignment := Nat.dvd_mul_left _ _
  refine ⟨⟨hdvd, hstep.1⟩, ?_⟩
  -- a smaller multiple would be a whole alignment below, and so below the bound
  rintro m ⟨hm, hle⟩
  by_contra hlt
  have hgap := Nat.le_of_dvd (by omega) (Nat.dvd_sub hdvd hm)
  omega

/-- Checked rounding finds the next multiple, if it is within 64 bits. -/
theorem alignUp?_eq_some_iff (ha : 0 < alignment) (hbound : bound ≤ maxU64) :
    alignUp? bound alignment = some n ↔ IsNextMultiple alignment bound n ∧ n ≤ maxU64 := by
  rw [alignUp?_eq ha hbound, checkU64_eq_some]
  constructor
  · rintro ⟨hle, rfl⟩
    exact ⟨isNextMultiple_roundUp ha, hle⟩
  · rintro ⟨hn, hle⟩
    cases (isNextMultiple_roundUp ha).unique hn
    exact ⟨hle, rfl⟩

end Multiples

/-! ### Field lists -/

/-- The size and the alignment of a field. -/
structure Part where
  size : Nat
  align : Nat

/-- The parts stand one after the other, each at the next multiple of its alignment, and end at
`stop`. -/
inductive Placed : List Part → Nat → List Nat → Nat → Prop
  | nil (bound : Nat) : Placed [] bound [] bound
  | cons {part : Part} {rest : List Part} {bound offset stop : Nat} {offsets : List Nat} :
    IsNextMultiple part.align bound offset → Placed rest (offset + part.size) offsets stop →
      Placed (part :: rest) bound (offset :: offsets) stop

/-- The largest alignment of the parts, and no less than the given one. -/
def topAlign (parts : List Part) (align : Nat) : Nat := parts.foldl (fun top part => max top part.align) align

/-- The layout that places the parts one after the other and ends at a multiple of the largest
alignment. -/
def IsNatural (parts : List Part) (layout : AggregateLayout) : Prop :=
  ∃ stop, Placed parts 0 layout.offsets stop ∧ layout.align = topAlign parts 1 ∧
    IsNextMultiple layout.align stop layout.size

/-- The parts are the sizes and the alignments of the fields. -/
def Measures (alignOf sizeOf : SourceType → Option Nat) : List SourceType → List Part → Prop :=
  List.Forall₂ fun field part => sizeOf field = some part.size ∧ alignOf field = some part.align

section Fields

variable {parts : List Part} {bound stop align : Nat} {offsets : List Nat}
  {alignOf sizeOf : SourceType → Option Nat} {fields : List SourceType}

theorem Placed.le (h : Placed parts bound offsets stop) : bound ≤ stop := by
  induction h with
  | nil => exact le_refl _
  | cons hnext _ ih =>
    have := hnext.le
    omega

theorem exists_placed (hpos : ∀ part ∈ parts, 0 < part.align) (bound : Nat) :
    ∃ offsets stop, Placed parts bound offsets stop := by
  induction parts generalizing bound with
  | nil => exact ⟨[], bound, .nil bound⟩
  | cons part rest ih =>
    rw [List.forall_mem_cons] at hpos
    obtain ⟨offsets, stop, hrest⟩ := ih hpos.2 (roundUp bound part.align + part.size)
    exact ⟨_, stop, .cons (isNextMultiple_roundUp hpos.1) hrest⟩

/-- Fields keep their order and do not overlap. -/
theorem Placed.pairwise (h : Placed parts bound offsets stop) :
    (offsets.zip parts).Pairwise (fun first second => first.1 + first.2.size ≤ second.1) ∧
      ∀ placed ∈ offsets.zip parts, bound ≤ placed.1 ∧ placed.1 + placed.2.size ≤ stop := by
  induction h with
  | nil => exact ⟨.nil, nofun⟩
  | cons hnext hrest ih =>
    obtain ⟨hpairs, hinside⟩ := ih
    have hbound := hnext.le
    have hstop := hrest.le
    rw [List.zip_cons_cons, List.pairwise_cons, List.forall_mem_cons]
    refine ⟨⟨fun placed hmem => (hinside placed hmem).1, hpairs⟩, ⟨hbound, hstop⟩, fun placed hmem => ?_⟩
    have := hinside placed hmem
    omega

theorem le_topAlign : align ≤ topAlign parts align ∧ ∀ part ∈ parts, part.align ≤ topAlign parts align := by
  induction parts generalizing align with
  | nil => exact ⟨le_refl _, nofun⟩
  | cons part rest ih =>
    obtain ⟨htop, hrest⟩ := @ih (max align part.align)
    rw [List.forall_mem_cons]
    exact ⟨(le_max_left _ _).trans htop, (le_max_right _ _).trans htop, hrest⟩

/-- What holds of the alignments and of one holds of the largest. -/
theorem topAlign_induction {P : Nat → Prop} (hbase : P align) (hparts : ∀ part ∈ parts, P part.align) :
    P (topAlign parts align) := by
  induction parts generalizing align with
  | nil => exact hbase
  | cons part rest ih =>
    rw [List.forall_mem_cons] at hparts
    have hmax : P (max align part.align) := by
      rcases max_choice align part.align with h | h <;> rw [h]
      · exact hbase
      · exact hparts.1
    exact ih hmax hparts.2

theorem Measures.exists_of_mem (hm : Measures alignOf sizeOf fields parts) {part : Part} (hmem : part ∈ parts) :
    ∃ field, alignOf field = some part.align := by
  induction hm with
  | nil => cases hmem
  | cons hpart _ ih =>
    rcases List.mem_cons.mp hmem with rfl | hmem
    · exact ⟨_, hpart.2⟩
    · exact ih hmem

/-- The field at an index has its part there, at a multiple of its alignment. -/
theorem Placed.field (h : Placed parts bound offsets stop) (hm : Measures alignOf sizeOf fields parts)
    {j start : Nat} {field : SourceType} (hstart : offsets[j]? = some start)
    (hfield : fields[j]? = some field) :
    ∃ part ∈ parts, alignOf field = some part.align ∧ part.align ∣ start := by
  induction h generalizing fields j with
  | nil => cases hstart
  | @cons part rest _ _ _ _ hnext _ ih =>
    cases hm with
    | cons hpart hrest =>
      cases j with
      | zero =>
        cases hstart
        cases hfield
        exact ⟨part, List.mem_cons_self, hpart.2, hnext.dvd⟩
      | succ j =>
        obtain ⟨part, hmem, hpart⟩ := ih hrest hstart hfield
        exact ⟨part, List.mem_cons_of_mem _ hmem, hpart⟩

/-- Placing fields finds where their parts stand, if they end within 64 bits.  The induction is on the
fields. -/
theorem AggregateLayout.place_eq_some_iff (hpos : ∀ field a, alignOf field = some a → 0 < a)
    (hbound : bound ≤ maxU64) {top : Nat} :
    place alignOf sizeOf fields bound align = some (offsets, stop, top) ↔
      ∃ parts, Measures alignOf sizeOf fields parts ∧ Placed parts bound offsets stop ∧
        top = topAlign parts align ∧ stop ≤ maxU64 := by
  induction fields generalizing bound align offsets with
  | nil =>
    constructor
    · intro h
      cases h
      exact ⟨[], .nil, .nil _, rfl, hbound⟩
    · rintro ⟨parts, hm, hplaced, rfl, -⟩
      cases hm
      cases hplaced
      rfl
  | cons field rest ih =>
    constructor
    · intro h
      obtain ⟨a, start, n, next, later, final, ha, hstart, hn, hnext, hplace, heq⟩ := place_cons.mp h
      cases heq
      have haPos := hpos field a ha
      rw [max_eq_left (b := 1) haPos] at hstart hplace
      obtain ⟨hleast, -⟩ := (alignUp?_eq_some_iff haPos hbound).mp hstart
      obtain ⟨hle, rfl⟩ := checkU64_eq_some.mp hnext
      obtain ⟨parts, hm, hplaced, htop, hstop⟩ := (ih hle).mp hplace
      exact ⟨⟨n, a⟩ :: parts, .cons ⟨hn, ha⟩ hm, .cons hleast hplaced, htop, hstop⟩
    · rintro ⟨parts, hm, hplaced, htop, hstop⟩
      cases hm with
      | @cons _ part _ parts hpart hm =>
        cases hplaced with
        | @cons _ _ _ start _ offsets hleast hplaced =>
          have hle := hplaced.le
          have haPos := hpos field part.align hpart.2
          have hstart := (alignUp?_eq_some_iff haPos hbound).mpr ⟨hleast, by omega⟩
          have hplace := (ih (by omega)).mpr ⟨parts, hm, hplaced, htop, hstop⟩
          apply place_cons.mpr
          refine ⟨part.align, start, part.size, start + part.size, offsets, (stop, top), hpart.2, ?_, hpart.1,
            checkU64_eq_some.mpr ⟨by omega, rfl⟩, ?_, rfl⟩
          · rwa [max_eq_left (b := 1) haPos]
          · rwa [max_eq_left (b := 1) haPos]

/-- The layout of a field list is the natural one, and there is none when a field has no measure or the
natural one is too large. -/
theorem AggregateLayout.ofFields_eq_some_iff (hpos : ∀ field a, alignOf field = some a → 0 < a)
    {layout : AggregateLayout} :
    ofFields alignOf sizeOf fields = some layout ↔
      ∃ parts, Measures alignOf sizeOf fields parts ∧ IsNatural parts layout ∧ layout.size ≤ maxU64 := by
  have hzero : 0 ≤ maxU64 := Nat.zero_le _
  have htopPos : ∀ parts, 0 < topAlign parts 1 := fun parts => le_topAlign.1
  rw [ofFields_eq_some]
  constructor
  · rintro ⟨stop, hplace, hround⟩
    obtain ⟨parts, hm, hplaced, htop, hstop⟩ := (place_eq_some_iff hpos hzero).mp hplace
    obtain ⟨hleast, hle⟩ := (alignUp?_eq_some_iff (htop ▸ htopPos parts) hstop).mp hround
    exact ⟨parts, hm, ⟨stop, hplaced, htop, hleast⟩, hle⟩
  · rintro ⟨parts, hm, ⟨stop, hplaced, htop, hleast⟩, hle⟩
    have hstop : stop ≤ maxU64 := hleast.le.trans hle
    refine ⟨stop, (place_eq_some_iff hpos hzero).mpr ⟨parts, hm, hplaced, htop, hstop⟩, ?_⟩
    exact (alignUp?_eq_some_iff (htop ▸ htopPos parts) hstop).mpr ⟨hleast, hle⟩

theorem exists_natural (hpos : ∀ part ∈ parts, 0 < part.align) : ∃ layout, IsNatural parts layout := by
  obtain ⟨offsets, stop, hplaced⟩ := exists_placed hpos 0
  have htop : 0 < topAlign parts 1 := le_topAlign.1
  exact ⟨⟨_, topAlign parts 1, offsets⟩, stop, hplaced, rfl, isNextMultiple_roundUp htop⟩

theorem exists_measures (h : ∀ field ∈ fields, sizeOf field ≠ none ∧ alignOf field ≠ none) :
    ∃ parts, Measures alignOf sizeOf fields parts := by
  induction fields with
  | nil => exact ⟨[], .nil⟩
  | cons field rest ih =>
    rw [List.forall_mem_cons] at h
    obtain ⟨parts, hm⟩ := ih h.2
    obtain ⟨n, hn⟩ := Option.ne_none_iff_exists'.mp h.1.1
    obtain ⟨a, ha⟩ := Option.ne_none_iff_exists'.mp h.1.2
    exact ⟨⟨n, a⟩ :: parts, .cons ⟨hn, ha⟩ hm⟩

end Fields

/-! ### Powers of two -/

theorem isPowerOfTwo_dvd {a b : Nat} (ha : a.isPowerOfTwo) (hb : b.isPowerOfTwo) (hle : a ≤ b) : a ∣ b := by
  obtain ⟨k, rfl⟩ := ha
  obtain ⟨l, rfl⟩ := hb
  apply Nat.pow_dvd_pow
  exact (Nat.pow_le_pow_iff_right (by decide)).mp hle

theorem topAlign_isPowerOfTwo {alignOf sizeOf : SourceType → Option Nat} {fields : List SourceType}
    {parts : List Part} (hpower : ∀ field a, alignOf field = some a → a.isPowerOfTwo)
    (hm : Measures alignOf sizeOf fields parts) : (topAlign parts 1).isPowerOfTwo := by
  apply topAlign_induction (P := Nat.isPowerOfTwo) ⟨0, rfl⟩
  intro part hpart
  obtain ⟨field, ha⟩ := hm.exists_of_mem hpart
  exact hpower field part.align ha

/-- When the fields are aligned to powers of two, so is the aggregate, and its size is a multiple. -/
theorem AggregateLayout.isPowerOfTwo_align {alignOf sizeOf : SourceType → Option Nat}
    {fields : List SourceType} {layout : AggregateLayout}
    (hpower : ∀ field a, alignOf field = some a → a.isPowerOfTwo)
    (hlayout : ofFields alignOf sizeOf fields = some layout) :
    layout.align.isPowerOfTwo ∧ layout.align ∣ layout.size := by
  obtain ⟨parts, hm, ⟨stop, -, htop, hleast⟩, -⟩ :=
    (ofFields_eq_some_iff fun field a ha => Nat.pos_of_isPowerOfTwo (hpower field a ha)).mp hlayout
  refine ⟨?_, hleast.dvd⟩
  rw [htop]
  exact topAlign_isPowerOfTwo hpower hm

/-- Storage and alignment of a scalar are the same power of two. -/
theorem Scalar.isPowerOfTwo_align (k : Scalar) : k.align.isPowerOfTwo ∧ k.align = k.bytes := by
  refine ⟨?_, rfl⟩
  cases k
  case bool | char | uchar => exact ⟨0, rfl⟩
  case short | ushort | half | bhalf => exact ⟨1, rfl⟩
  case int | uint | float => exact ⟨2, rfl⟩
  case long | ulong | double => exact ⟨3, rfl⟩
  case cent | ucent | real => exact ⟨4, rfl⟩

theorem isPowerOfTwo_pointer {bits : Nat} (hbits : bits ∈ [16, 32, 64]) : (bits / 8).isPowerOfTwo := by
  simp only [List.mem_cons, List.not_mem_nil, or_false] at hbits
  rcases hbits with rfl | rfl | rfl
  · exact ⟨1, rfl⟩
  · exact ⟨2, rfl⟩
  · exact ⟨3, rfl⟩

section Alignment

variable {src : LayoutSource} {budget : Nat} {type : SourceType}

/-- An alignment is a power of two and divides the size.  The induction is on the levels of nesting. -/
theorem alignWithin_isPowerOfTwo (hbits : src.pointerBits ∈ [16, 32, 64]) {a : Nat}
    (ha : alignWithin src budget type = some a) :
    a.isPowerOfTwo ∧ ∀ n, sizeWithin src budget type = some n → a ∣ n := by
  induction budget generalizing type a with
  | zero => cases ha
  | succ budget ih =>
    cases htype : type.strip with
    | array inner length =>
      rw [alignWithin_array htype] at ha
      obtain ⟨hpower, hdvd⟩ := ih ha
      refine ⟨hpower, fun n hn => ?_⟩
      cases length with
      | fixed length =>
        rw [sizeWithin_array htype] at hn
        obtain ⟨m, hm, hcheck⟩ := Option.bind_eq_some_iff.mp hn
        obtain ⟨-, rfl⟩ := checkU64_eq_some.mp hcheck
        exact (hdvd m hm).mul_right length
      | param _ | expr _ => simp [sizeWithin, htype] at hn
    | aggregate name args =>
      cases hfields : src.fields (canonical (.aggregate name args)) with
      | none => simp [alignWithin, htype, hfields] at ha
      | some fields =>
        rw [alignWithin_aggregate htype hfields] at ha
        obtain ⟨layout, hlayout, rfl⟩ := Option.map_eq_some_iff.mp ha
        obtain ⟨hpower, hdvd⟩ :=
          AggregateLayout.isPowerOfTwo_align (fun field a ha => (ih ha).1) hlayout
        refine ⟨hpower, fun n hn => ?_⟩
        rw [sizeWithin_aggregate htype hfields, hlayout] at hn
        cases hn
        exact hdvd
    | void =>
      simp only [alignWithin, htype, Option.some.injEq] at ha
      subst ha
      exact ⟨Nat.isPowerOfTwo_one, fun n _ => Nat.one_dvd n⟩
    | scalar kind =>
      simp only [alignWithin, htype, Option.some.injEq] at ha
      subst ha
      obtain ⟨hpower, hbytes⟩ := kind.isPowerOfTwo_align
      refine ⟨hpower, fun n hn => ?_⟩
      simp only [sizeWithin, htype, Option.some.injEq] at hn
      rw [hbytes, hn]
    | pointer _ | function _ _ _ =>
      simp only [alignWithin, htype, Option.some.injEq] at ha
      subst ha
      refine ⟨isPowerOfTwo_pointer hbits, fun n hn => ?_⟩
      simp only [sizeWithin, htype, Option.some.injEq] at hn
      rw [hn]
    | const _ | templateParam _ | «alias» _ _ => simp [alignWithin, htype] at ha

theorem alignment?_pos (hbits : src.pointerBits ∈ [16, 32, 64]) (field : SourceType) (a : Nat)
    (ha : field.alignment? src = some a) : 0 < a := by
  obtain ⟨hpower, -⟩ := alignWithin_isPowerOfTwo hbits ha
  exact Nat.pos_of_isPowerOfTwo hpower

/-! ### Leaves -/

/-- The leaf, which is a scalar or a pointer, stands so many bytes from the start of the type. -/
inductive LeafAt (src : LayoutSource) : SourceType → Nat → SourceType → Prop
  | scalar {type : SourceType} {kind : Scalar} : type.strip = .scalar kind → LeafAt src type 0 type
  | pointer {type inner : SourceType} : type.strip = .pointer inner → LeafAt src type 0 type
  | function {type ret : SourceType} {params : List SourceType} {isVariadic : Bool} :
    type.strip = .function ret params isVariadic → LeafAt src type 0 type
  | element {type inner leaf : SourceType} {length n i offset : Nat} :
    type.strip = .array inner (.fixed length) → inner.sizeBytes? src = some n → i < length →
      LeafAt src inner offset leaf → LeafAt src type (n * i + offset) leaf
  | field {type field leaf : SourceType} {name : String} {fields : List SourceType}
    {layout : AggregateLayout} {j start offset : Nat} :
    type.aggregateName? = some name → src.fields name = some fields →
      aggregateLayout? src fields = some layout → fields[j]? = some field →
      layout.offsets[j]? = some start → LeafAt src field offset leaf →
      LeafAt src type (start + offset) leaf

/-- An array is aligned as its elements are. -/
theorem alignment?_element {inner : SourceType} {length : ArrayLength} {a : Nat}
    (htype : type.strip = .array inner length) (ha : type.alignment? src = some a) :
    inner.alignment? src = some a := by
  rw [alignment?, alignWithin_array htype] at ha
  exact (within_mono (Nat.le_succ maxLayoutDepth)).2 inner a ha

/-- An aggregate is aligned as the layout of its fields says. -/
theorem alignment?_aggregate {name : String} {fields : List SourceType} {layout : AggregateLayout} {a : Nat}
    (hname : type.aggregateName? = some name) (hfields : src.fields name = some fields)
    (hlayout : aggregateLayout? src fields = some layout) (ha : type.alignment? src = some a) :
    a = layout.align := by
  obtain ⟨bare, args, hstrip, rfl⟩ := aggregateName?_eq_some.mp hname
  rw [alignment?, alignWithin_aggregate hstrip hfields] at ha
  obtain ⟨inner, hinner, rfl⟩ := Option.map_eq_some_iff.mp ha
  obtain ⟨hsizes, haligns⟩ := @within_mono src _ _ (Nat.le_succ maxLayoutDepth)
  have hmono := AggregateLayout.ofFields_mono haligns hsizes hinner
  cases hmono.symm.trans hlayout
  rfl

/-- A field is aligned within the aggregate: its alignment divides where it stands and the alignment of
the whole. -/
theorem dvd_of_field (hbits : src.pointerBits ∈ [16, 32, 64]) {fields : List SourceType}
    {layout : AggregateLayout} (hlayout : aggregateLayout? src fields = some layout) {j start : Nat}
    {field : SourceType} (hfield : fields[j]? = some field) (hstart : layout.offsets[j]? = some start) :
    ∃ a, field.alignment? src = some a ∧ a ∣ start ∧ a ∣ layout.align := by
  obtain ⟨parts, hm, ⟨stop, hplaced, htop, -⟩, -⟩ :=
    (AggregateLayout.ofFields_eq_some_iff (alignment?_pos hbits)).mp hlayout
  obtain ⟨part, hmem, ha, hdvd⟩ := hplaced.field hm hstart hfield
  obtain ⟨hpower, -⟩ := alignWithin_isPowerOfTwo hbits ha
  have htopPower := topAlign_isPowerOfTwo (fun field a ha => (alignWithin_isPowerOfTwo hbits ha).1) hm
  refine ⟨part.align, ha, hdvd, ?_⟩
  rw [htop]
  exact isPowerOfTwo_dvd hpower htopPower (le_topAlign.2 part hmem)

/-- The alignment of a leaf divides where it stands and the alignment of the type it is reached from.
The induction is on the way to the leaf. -/
theorem LeafAt.aligned (hbits : src.pointerBits ∈ [16, 32, 64]) {leaf : SourceType} {offset a : Nat}
    (h : LeafAt src type offset leaf) (ha : type.alignment? src = some a) :
    ∃ b, leaf.alignment? src = some b ∧ b ∣ offset ∧ b ∣ a := by
  induction h generalizing a with
  | scalar _ | pointer _ | function _ => exact ⟨a, ha, Nat.dvd_zero a, Nat.dvd_refl a⟩
  | element htype hn _ _ ih =>
    have hinner := alignment?_element htype ha
    obtain ⟨-, hdvd⟩ := alignWithin_isPowerOfTwo hbits hinner
    obtain ⟨b, hb, hoffset, hba⟩ := ih hinner
    exact ⟨b, hb, (((hba.trans (hdvd _ hn)).mul_right _).add hoffset), hba⟩
  | field hname hfields hlayout hfield hstart _ ih =>
    obtain ⟨c, hc, hcstart, hctop⟩ := dvd_of_field hbits hlayout hfield hstart
    obtain ⟨b, hb, hoffset, hbc⟩ := ih hc
    rw [alignment?_aggregate hname hfields hlayout ha]
    exact ⟨b, hb, (hbc.trans hcstart).add hoffset, hbc.trans hctop⟩

/-- Aggregates have the natural layout.  Alignments are powers of two that divide the size.  Fields stand
in order, each at the next multiple of its alignment, and every leaf of a field stands at a multiple of
its own alignment.  A field list without a layout has a field that is not measured, or is too large. -/
theorem aggregateLayout?_natural (hbits : src.pointerBits ∈ [16, 32, 64]) (fields : List SourceType) :
    (∀ (type : SourceType) (a : Nat), type.alignment? src = some a →
      a.isPowerOfTwo ∧ ∀ n, type.sizeBytes? src = some n → a ∣ n) ∧
    (∀ layout, aggregateLayout? src fields = some layout →
      (∃ parts, Measures (alignment? src) (sizeBytes? src) fields parts ∧ IsNatural parts layout ∧
        (layout.offsets.zip parts).Pairwise (fun first second => first.1 + first.2.size ≤ second.1) ∧
        ∀ placed ∈ layout.offsets.zip parts, placed.1 + placed.2.size ≤ layout.size) ∧
      layout.align.isPowerOfTwo ∧ layout.align ∣ layout.size ∧
      ∀ (j : Nat) field start, fields[j]? = some field → layout.offsets[j]? = some start →
        ∀ offset leaf, LeafAt src field offset leaf →
          ∃ a, leaf.alignment? src = some a ∧ a ∣ start + offset) ∧
    (aggregateLayout? src fields = none →
      (∃ field ∈ fields, field.sizeBytes? src = none ∨ field.alignment? src = none) ∨
      ∃ parts layout, Measures (alignment? src) (sizeBytes? src) fields parts ∧ IsNatural parts layout ∧
        maxU64 < layout.size) := by
  have hpower : ∀ field a, alignment? src field = some a → a.isPowerOfTwo :=
    fun field a ha => (alignWithin_isPowerOfTwo hbits ha).1
  have hlayouts : ∀ layout, aggregateLayout? src fields = some layout ↔ ∃ parts,
      Measures (alignment? src) (sizeBytes? src) fields parts ∧ IsNatural parts layout ∧
        layout.size ≤ maxU64 :=
    fun layout => AggregateLayout.ofFields_eq_some_iff (alignment?_pos hbits)
  refine ⟨fun type a ha => alignWithin_isPowerOfTwo hbits ha, fun layout hlayout => ?_, fun hnone => ?_⟩
  · obtain ⟨parts, hm, hnatural, -⟩ := (hlayouts layout).mp hlayout
    have ⟨stop, hplaced, _, hleast⟩ := hnatural
    obtain ⟨hpairs, hinside⟩ := hplaced.pairwise
    obtain ⟨halign, hdvd⟩ := AggregateLayout.isPowerOfTwo_align hpower hlayout
    refine ⟨⟨parts, hm, hnatural, hpairs, fun placed hmem => ?_⟩, halign, hdvd, ?_⟩
    · exact (hinside placed hmem).2.trans hleast.le
    · intro j field start hfield hstart offset leaf hleaf
      obtain ⟨a, ha, hdvd, -⟩ := dvd_of_field hbits hlayout hfield hstart
      obtain ⟨b, hb, hoffset, hba⟩ := hleaf.aligned hbits ha
      exact ⟨b, hb, (hba.trans hdvd).add hoffset⟩
  · by_contra! hcon
    obtain ⟨hknown, hfits⟩ := hcon
    obtain ⟨parts, hm⟩ := exists_measures hknown
    have hpos : ∀ part ∈ parts, 0 < part.align := by
      intro part hpart
      obtain ⟨field, ha⟩ := hm.exists_of_mem hpart
      exact alignment?_pos hbits field part.align ha
    obtain ⟨layout, hnatural⟩ := exists_natural hpos
    have hsome := (hlayouts layout).mpr ⟨parts, hm, hnatural, hfits parts layout hm hnatural⟩
    cases hnone.symm.trans hsome

end Alignment

/-- In `Pair` the last item of the cell stands at 16, which its two bytes divide. -/
theorem aggregateLayout?_natural_pair :
    32 ∈ [16, 32, 64] ∧
      (∃ parts, IsNatural parts ⟨32, 8, [0, 4, 24]⟩ ∧ parts.length = 3) ∧
      ∃ a, (SourceType.scalar .short).alignment? (SymbolTables.cells.layoutSource 32) = some a ∧
        a ∣ 4 + (8 + (2 * 2 + 0)) := by
  let fields : List SourceType := [.scalar .bool, .aggregate "Cell" [], .const (.scalar .long)]
  have hbits : (SymbolTables.cells.layoutSource 32).pointerBits ∈ [16, 32, 64] := by decide
  obtain ⟨-, hlayouts, -⟩ := aggregateLayout?_natural hbits fields
  obtain ⟨⟨parts, hm, hnatural, -⟩, -, -, hleaves⟩ := hlayouts ⟨32, 8, [0, 4, 24]⟩ (by rfl)
  let items : SourceType := .array (.scalar .short) (.fixed 3)
  let cell : List SourceType := [.scalar .char, .pointer (.aggregate "Cell" []), items]
  have hcell : aggregateLayout? (SymbolTables.cells.layoutSource 32) cell = some ⟨16, 4, [0, 4, 8]⟩ := by
    rfl
  have hthird : cell[2]? = some items := rfl
  have hitem : LeafAt (SymbolTables.cells.layoutSource 32) (.aggregate "Cell" []) (8 + (2 * 2 + 0))
      (.scalar .short) :=
    .field rfl rfl hcell hthird rfl (.element rfl (by rfl) (by decide : 2 < 3) (.scalar rfl))
  exact ⟨hbits, ⟨parts, hnatural, (List.Forall₂.length_eq hm).symm⟩, hleaves 1 _ 4 rfl rfl _ _ hitem⟩

end UnitCompiler
