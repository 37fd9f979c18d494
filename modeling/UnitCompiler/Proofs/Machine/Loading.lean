import Mathlib
import UnitCompiler.Proofs.Machine.Allocation
import UnitCompiler.Proofs.Machine.Paths

/-!
# Loading a program

Once a program is in memory, each global is found at an aligned address of its own and has the value
that its initializer stands for.  The initializer only has to be built as the type says, since numbers
are reduced to their width when constants are evaluated.
-/

namespace UnitCompiler

attribute [local instance (high)] instPowNat

namespace IrType

open Machine (Value)

/-- The value is built as the type says: numbers of its width, addresses, and an item for each element
or field.  How large the numbers are is left open. -/
inductive HasShape : IrType → Value → Prop
  | int {type : IrType} {word bits : Nat} : type.intBits? = some bits → HasShape type (.int word bits)
  | float {type : IrType} (x : Double) : type.isFloat = true → HasShape type (.float x)
  | ptr (target : IrType) (address : Nat) : HasShape (.ptr target) (.ptr address)
  | function (ret : IrType) (params : List IrType) (isVariadic : Bool) (address : Nat) :
    HasShape (.function ret params isVariadic) (.ptr address)
  | array {element : IrType} {length : Nat} {items : List Value} : items.length = length →
      (∀ item ∈ items, HasShape element item) → HasShape (.array element length) (.aggregate items)
  | vector {element : IrType} {lanes : Nat} {items : List Value} : items.length = lanes →
      (∀ item ∈ items, HasShape element item) → HasShape (.vector element lanes) (.aggregate items)
  | struct {fields : List IrType} {items : List Value} (isPacked : Bool) (name : Option String) :
    fields.length = items.length → (∀ part ∈ fields.zip items, HasShape part.1 part.2) →
      HasShape (.struct fields isPacked name) (.aggregate items)
  | void : HasShape .void .void

end IrType

namespace Machine

/-- The numbers in the value are below two to their width, and the addresses are words. -/
inductive Value.IsReduced : Value → Prop
  | void : IsReduced .void
  | int {word bits : Nat} : word < Word.modulus bits → IsReduced (.int word bits)
  | float (x : Double) : IsReduced (.float x)
  | ptr {address : Nat} : address ≤ maxU64 → IsReduced (.ptr address)
  | aggregate {items : List Value} : (∀ item ∈ items, IsReduced item) → IsReduced (.aggregate items)

/-! ### Zeros and constants -/

mutual

/-- The zero of a type is built as the type says. -/
theorem hasShape_zero (type : IrType) : type.HasShape (.zero type) := by
  match type with
  | .void => exact .void
  | .i1 | .i8 | .i16 | .i32 | .i64 | .i128 => exact .int rfl
  | .f16 | .bf16 | .f32 | .f64 | .f128 => exact .float _ rfl
  | .ptr target => exact .ptr target 0
  | .function ret params isVariadic => exact .function ret params isVariadic 0
  | .array element length =>
    apply IrType.HasShape.array List.length_replicate
    intro item hitem
    rw [List.eq_of_mem_replicate hitem]
    exact hasShape_zero element
  | .vector element lanes =>
    apply IrType.HasShape.vector List.length_replicate
    intro item hitem
    rw [List.eq_of_mem_replicate hitem]
    exact hasShape_zero element
  | .struct fields isPacked name =>
    obtain ⟨hlength, hparts⟩ := hasShape_zeros fields
    exact .struct isPacked name hlength hparts

theorem hasShape_zeros (types : List IrType) : types.length = (Value.zeros types).length ∧
    ∀ part ∈ types.zip (Value.zeros types), part.1.HasShape part.2 := by
  match types with
  | [] => exact ⟨rfl, nofun⟩
  | type :: rest =>
    obtain ⟨hlength, hparts⟩ := hasShape_zeros rest
    rw [Value.zeros, List.zip_cons_cons, List.forall_mem_cons]
    exact ⟨congrArg (· + 1) hlength, hasShape_zero type, hparts⟩

end

mutual

theorem isReduced_zero (type : IrType) : (Value.zero type).IsReduced := by
  match type with
  | .void => exact .void
  | .i1 | .i8 | .i16 | .i32 | .i64 | .i128 => exact .int (Word.modulus_pos _)
  | .f16 | .bf16 | .f32 | .f64 | .f128 => exact .float _
  | .ptr _ | .function _ _ _ => exact .ptr (Nat.zero_le _)
  | .array element length | .vector element length =>
    refine .aggregate fun item hitem => ?_
    rw [List.eq_of_mem_replicate hitem]
    exact isReduced_zero element
  | .struct fields isPacked name => exact .aggregate (isReduced_zeros fields)

theorem isReduced_zeros (types : List IrType) : ∀ item ∈ Value.zeros types, item.IsReduced := by
  match types with
  | [] => nofun
  | type :: rest =>
    rw [Value.zeros, List.forall_mem_cons]
    exact ⟨isReduced_zero type, isReduced_zeros rest⟩

end

theorem isReduced_string (text : String) {v : Value} (h : constantValue (.string text) = .ok v) :
    v.IsReduced := by
  cases h
  refine .aggregate fun item hitem => ?_
  rcases List.mem_append.mp hitem with hitem | hitem
  · obtain ⟨byte, -, rfl⟩ := List.mem_map.mp hitem
    exact .int (byte.toNat_lt.trans_le (by decide))
  · rw [List.mem_singleton.mp hitem]
    exact .int (Word.modulus_pos 8)

mutual

/-- Constants are reduced when they are evaluated. -/
theorem isReduced_constantValue (constant : IrConstant) {v : Value} (h : constantValue constant = .ok v) :
    v.IsReduced := by
  match constant with
  | .int value type =>
    cases h
    exact .int (Word.ofInt_lt _ _)
  | .uint value type =>
    cases h
    exact .int (Word.mask_lt _ _)
  | .bool value =>
    cases h
    cases value <;> exact .int (by decide)
  | .float value type =>
    unfold constantValue at h
    split at h <;> cases h <;> exact .float _
  | .string text => exact isReduced_string text h
  | .array items _ | .struct items _ =>
    unfold constantValue at h
    cases hitems : constantValues items with
    | error e =>
      rw [hitems] at h
      cases h
    | ok values =>
      rw [hitems] at h
      cases h
      exact .aggregate (isReduced_constantValues items hitems)
  | .null _ =>
    cases h
    exact .ptr (Nat.zero_le _)
  | .undef type | .zero type =>
    cases h
    exact isReduced_zero type

theorem isReduced_constantValues (items : List IrConstant) {values : List Value}
    (h : constantValues items = .ok values) : ∀ value ∈ values, value.IsReduced := by
  match items with
  | [] =>
    cases h
    nofun
  | item :: rest =>
    unfold constantValues at h
    cases hitem : constantValue item with
    | error e =>
      rw [hitem] at h
      cases h
    | ok value =>
      cases hrest : constantValues rest with
      | error e =>
        rw [hitem, hrest] at h
        cases h
      | ok values =>
        rw [hitem, hrest] at h
        cases h
        rw [List.forall_mem_cons]
        exact ⟨isReduced_constantValue item hitem, isReduced_constantValues rest hrest⟩

end

theorem admitAll_of_parts {fields : List IrType} {items : List Value} (hlength : fields.length = items.length)
    (hfloat : IrType.anyHasFloat fields = false) (hreduced : ∀ item ∈ items, item.IsReduced)
    (h : ∀ part ∈ fields.zip items, part.1.hasFloat = false → part.2.IsReduced → part.1.Admits part.2) :
    IrType.AdmitAll fields items := by
  induction fields generalizing items with
  | nil =>
    obtain rfl := List.length_eq_zero_iff.mp hlength.symm
    trivial
  | cons field rest ih =>
    cases items with
    | nil => cases hlength
    | cons item items =>
      obtain ⟨hfirst, hrest⟩ := Bool.or_eq_false_iff.mp hfloat
      rw [List.zip_cons_cons, List.forall_mem_cons] at h
      rw [List.forall_mem_cons] at hreduced
      exact ⟨h.1 hfirst hreduced.1, ih (Nat.succ.inj hlength) hrest hreduced.2 h.2⟩

/-- A reduced value built as a type without floats says is a value of the type. -/
theorem admits_of_hasShape {type : IrType} {v : Value} (hshape : type.HasShape v)
    (hfloat : type.hasFloat = false) (hreduced : v.IsReduced) : type.Admits v := by
  induction hshape with
  | @int type word bits hbits =>
    cases hreduced with
    | int hlt =>
      cases type <;> simp only [IrType.intBits?, Option.some.injEq, reduceCtorEq] at hbits
      all_goals
        subst hbits
        exact ⟨_, rfl, hlt⟩
  | @float type x htype =>
    cases type <;> simp only [IrType.isFloat, Bool.false_eq_true] at htype
    all_goals simp [IrType.hasFloat] at hfloat
  | ptr target address =>
    cases hreduced with
    | ptr hle => exact ⟨address, rfl, hle⟩
  | function ret params isVariadic address =>
    cases hreduced with
    | ptr hle => exact ⟨address, rfl, hle⟩
  | @array element length items hlength _ ih | @vector element length items hlength _ ih =>
    cases hreduced with
    | aggregate hitems =>
      refine ⟨items, rfl, hlength, ?_⟩
      intro item hitem
      exact ih item hitem hfloat (hitems item hitem)
  | @struct fields items isPacked name hlength _ ih =>
    cases hreduced with
    | aggregate hitems => exact ⟨items, rfl, admitAll_of_parts hlength hfloat hitems ih⟩
  | void => rfl

/-! ### Globals -/

/-- The global's type has no floats, and its initializer, if there is one, is built as the type says. -/
structure IsLoadable (g : GlobalVariable) : Prop where
  floats : g.type.hasFloat = false
  shape : ∀ init, g.initializer = some init → ∃ v, constantValue init = .ok v ∧ g.type.HasShape v

theorem IsLoadable.begins {g : GlobalVariable} (h : IsLoadable g) : ∃ v, Begins g v := by
  cases hinit : g.initializer with
  | none =>
    have hvalue : initialValue g = .ok (.zero g.type) := by rw [initialValue, hinit]
    have hadmits := admits_of_hasShape (hasShape_zero g.type) h.floats (isReduced_zero g.type)
    exact ⟨_, hvalue, hadmits⟩
  | some init =>
    obtain ⟨v, hv, hshape⟩ := h.shape init hinit
    have hvalue : initialValue g = .ok v := by
      rw [initialValue, hinit]
      exact hv
    have hadmits := admits_of_hasShape hshape h.floats (isReduced_constantValue init hv)
    exact ⟨v, hvalue, hadmits⟩

/-- Each global is given a multiple of the alignment of its type. -/
theorem allocateGlobals_aligned {vars : List GlobalVariable} {m m' : Memory}
    {addresses : List (String × Nat)} (h : allocateGlobals vars m = .ok addresses m') :
    ∀ g ∈ vars, ∃ a, (g.name, a) ∈ addresses ∧ max (layout.alignOf g.type) 1 ∣ a := by
  induction vars generalizing m addresses with
  | nil => nofun
  | cons g rest ih =>
    obtain ⟨a, m₁, more, halloc, hrest, rfl⟩ := allocateGlobals_cons h
    rw [List.forall_mem_cons]
    refine ⟨⟨a, List.mem_cons_self, (Memory.appends_of_allocate halloc).dvd⟩, fun other hother => ?_⟩
    obtain ⟨b, hmem, hdvd⟩ := ih hrest other hother
    exact ⟨b, List.mem_cons_of_mem _ hmem, hdvd⟩

/-- A program whose globals have names of their own, types without floats and initializers built as the
types say is loaded faithfully: each global stands at an aligned address behind the null pointers and
inside the memory, apart from all others, and reads as its initializer or, without one, as zero. -/
theorem boot_loads {program : Program} {session : Session}
    (hnodup : (program.globals.map (·.name)).Nodup) (hload : ∀ g ∈ program.globals, IsLoadable g)
    (hboot : boot program = .ok session) :
    (∀ g ∈ program.globals, ∃ a v, session.image.globalAddress? g.name = some a ∧ memoryBase ≤ a ∧
      max (layout.alignOf g.type) 1 ∣ a ∧ a + layout.sizeOf g.type ≤ session.state.memory.size ∧
      initialValue g = .ok v ∧ session.readGlobal g.name = .ok v) ∧
    ∀ g ∈ program.globals, ∀ other ∈ program.globals, g.name ≠ other.name →
      ∀ a b, session.image.globalAddress? g.name = some a →
        session.image.globalAddress? other.name = some b →
        Apart a (layout.sizeOf g.type) b (layout.sizeOf other.type) := by
  obtain ⟨hprogram, hbooted⟩ := boot_spec (fun g hg => (hload g hg).begins) hnodup hboot
  obtain ⟨addresses, m, m', halloc, -, rfl⟩ := boot_cases hboot
  refine ⟨fun g hg => ?_, hbooted.apart⟩
  obtain ⟨v, hv⟩ := (hload g hg).begins
  obtain ⟨a, ha, hbase, hinside, hvalue⟩ := hbooted.found g hg
  obtain ⟨b, hmem, hdvd⟩ := allocateGlobals_aligned halloc g hg
  have hnames : (addresses.map (·.1)).Nodup := (allocateGlobals_spec halloc).names ▸ hnodup
  have hsame : a = b := Option.some.inj (ha.symm.trans (addressOf_of_mem hnames hmem))
  refine ⟨a, v, ha, hbase, hsame ▸ hdvd, hinside, hv.value, ?_⟩
  have hglobal : program.global? g.name = some g := global?_of_mem hnodup hg
  rw [Session.readGlobal, hglobal, ha]
  exact hvalue v hv.value

/-- Two entries of a short and a word with a byte in front of them, and behind them an array of no
elements and an address. -/
def table : Program where
  globals :=
    let entry : IrType := .struct [.i16, .i64] false none
    [⟨"tag", .i8, some (.int 300 .i8), .external, false, false, none⟩,
      ⟨"entries", .array entry 2,
        some (.array [.struct [.int (-1) .i16, .uint 7 .i64] entry, .zero entry] entry),
        .external, false, false, none⟩,
      ⟨"empty", .array .i32 0, none, .external, false, false, none⟩,
      ⟨"link", .ptr .i8, none, .external, false, false, none⟩]

theorem isLoadable_table : ∀ g ∈ table.globals, IsLoadable g := by
  simp only [table, List.forall_mem_cons, List.not_mem_nil, IsEmpty.forall_iff, implies_true, and_true]
  refine ⟨⟨rfl, ?_⟩, ⟨rfl, ?_⟩, ⟨rfl, ?_⟩, ⟨rfl, ?_⟩⟩
  · rintro init ⟨⟩
    exact ⟨.int 44 8, rfl, .int rfl⟩
  · rintro init ⟨⟩
    refine ⟨_, rfl, .array rfl fun item hitem => ?_⟩
    rcases List.mem_cons.mp hitem with rfl | hitem
    · exact .struct _ _ rfl fun part hpart => by
        rcases List.mem_cons.mp hpart with rfl | hpart
        · exact .int rfl
        · rw [List.mem_singleton.mp hpart]
          exact .int rfl
    · rw [List.mem_singleton.mp hitem]
      exact hasShape_zero _
  · rintro init ⟨⟩
  · rintro init ⟨⟩

/-- The table is loaded with its numbers reduced to their widths. -/
theorem boot_loads_table : (table.globals.map (·.name)).Nodup ∧ (∀ g ∈ table.globals, IsLoadable g) ∧
    ∃ session, boot table = .ok session ∧ session.readGlobal "tag" = .ok (.int 44 8) ∧
      session.readGlobal "entries" = .ok (.aggregate [.aggregate [.ofInt (-1) 16, .int 7 64],
        .aggregate [.int 0 16, .int 0 64]]) ∧
      session.readGlobal "empty" = .ok (.aggregate []) ∧ session.readGlobal "link" = .ok (.ptr 0) := by
  have hnodup : (table.globals.map (·.name)).Nodup := by decide
  obtain ⟨session, hboot⟩ : ∃ session, boot table = .ok session := ⟨_, rfl⟩
  obtain ⟨hreads, -⟩ := boot_loads hnodup isLoadable_table hboot
  simp only [table, List.forall_mem_cons] at hreads
  obtain ⟨⟨_, _, -, -, -, -, htag, tag⟩, ⟨_, _, -, -, -, -, hentries, entries⟩,
    ⟨_, _, -, -, -, -, hempty, empty⟩, ⟨_, _, -, -, -, -, hlink, link⟩, -⟩ := hreads
  cases htag
  cases hentries
  cases hempty
  cases hlink
  exact ⟨hnodup, isLoadable_table, session, hboot, tag, entries, empty, link⟩

end Machine
end UnitCompiler
