import Mathlib
import UnitCompiler.Proofs.Types.Layout

/-!
# Which types have a machine type

Lowering an aggregate enters every aggregate that its fields name, those behind pointers included, unless
it is on the way already: directly behind a pointer such an aggregate is passed over, anywhere else it is
taken for one that contains itself.  A type has a machine type exactly when no path leads back in the
second way.  An aggregate that holds itself by value is always refused; one that is only pointed to may
be refused as well, depending on where lowering begins.
-/

namespace UnitCompiler

open SourceType

/-- An aggregate named in a type, and whether the name stands directly behind a pointer. -/
structure Mention where
  name : String
  isPointee : Bool

namespace SourceType

mutual

/-- The aggregates that are named in a type outside of template arguments. -/
def mentions : SourceType → List Mention
  | .void | .scalar _ | .templateParam _ => []
  | .pointer inner =>
    match inner.aggregateName? with
    | some name => [⟨name, true⟩]
    | none => mentions inner
  | .array inner _ | .const inner | .alias _ inner => mentions inner
  | .aggregate name args => [⟨canonical (.aggregate name args), false⟩]
  | .function ret params _ => mentionsOfAll params ++ mentions ret

def mentionsOfAll : List SourceType → List Mention
  | [] => []
  | type :: rest => mentions type ++ mentionsOfAll rest

end

theorem mentions_strip (type : SourceType) : type.strip.mentions = type.mentions := by
  match type with
  | .const inner | .alias _ inner =>
    rw [strip, mentions]
    exact mentions_strip inner
  | .void | .scalar _ | .pointer _ | .array .. | .aggregate .. | .function .. | .templateParam _ => rfl

/-- What an aggregate type names is the aggregate. -/
theorem mentions_of_aggregateName? {type : SourceType} {name : String}
    (h : type.aggregateName? = some name) : type.mentions = [⟨name, false⟩] := by
  rw [← mentions_strip]
  obtain ⟨name', args, hstrip, rfl⟩ := aggregateName?_eq_some.mp h
  rw [hstrip, mentions]

theorem mem_mentionsOfAll {types : List SourceType} {m : Mention} :
    m ∈ mentionsOfAll types ↔ ∃ type ∈ types, m ∈ type.mentions := by
  induction types with
  | nil => simp [mentionsOfAll]
  | cons type rest ih => simp [mentionsOfAll, ih]

end SourceType

namespace SymbolTables

mutual

/-- The type is built from aggregates of the table, and every length outside of template arguments is
known. -/
def covers (s : SymbolTables) : SourceType → Bool
  | .void | .scalar _ => true
  | .pointer inner | .const inner | .alias _ inner => s.covers inner
  | .array inner length => (length matches .fixed _) && s.covers inner
  | .aggregate name args => (s.fieldTypes? (SourceType.canonical (.aggregate name args))).isSome
  | .function ret params _ => s.covers ret && s.coversAll params
  | .templateParam _ => false

def coversAll (s : SymbolTables) : List SourceType → Bool
  | [] => true
  | type :: rest => s.covers type && s.coversAll rest

end

variable {s : SymbolTables}

theorem coversAll_iff {types : List SourceType} :
    s.coversAll types = true ↔ ∀ type ∈ types, s.covers type = true := by
  induction types with
  | nil => simp [coversAll]
  | cons type rest ih => simp [coversAll, ih]

mutual

/-- A covered type names aggregates of the table only. -/
theorem fieldTypes?_of_mention {type : SourceType} (h : s.covers type = true) {m : Mention}
    (hm : m ∈ type.mentions) : (s.fieldTypes? m.name).isSome = true := by
  match type with
  | .void | .scalar _ => cases hm
  | .const inner | .alias _ inner =>
    rw [mentions] at hm
    exact @fieldTypes?_of_mention inner h m hm
  | .array inner (.fixed length) =>
    rw [mentions] at hm
    exact @fieldTypes?_of_mention inner (by simpa [covers] using h) m hm
  | .pointer inner =>
    rw [mentions] at hm
    cases hname : inner.aggregateName? with
    | none =>
      rw [hname] at hm
      exact @fieldTypes?_of_mention inner h m hm
    | some name =>
      simp only [hname, List.mem_singleton] at hm
      have hinner := @fieldTypes?_of_mention inner h ⟨name, false⟩
        (by rw [mentions_of_aggregateName? hname, List.mem_singleton])
      rwa [hm]
  | .aggregate name args =>
    rw [mentions, List.mem_singleton] at hm
    rwa [hm]
  | .function ret params isVariadic =>
    rw [mentions, List.mem_append] at hm
    rw [covers, Bool.and_eq_true] at h
    rcases hm with hm | hm
    · exact fieldTypes?_of_mentionsOfAll h.2 hm
    · exact fieldTypes?_of_mention h.1 hm
  | .array _ (.param _) | .array _ (.expr _) | .templateParam _ => cases h

theorem fieldTypes?_of_mentionsOfAll {types : List SourceType} (h : s.coversAll types = true)
    {m : Mention} (hm : m ∈ mentionsOfAll types) : (s.fieldTypes? m.name).isSome = true := by
  match types with
  | [] => cases hm
  | type :: rest =>
    rw [mentionsOfAll, List.mem_append] at hm
    rw [coversAll, Bool.and_eq_true] at h
    rcases hm with hm | hm
    · exact fieldTypes?_of_mention h.1 hm
    · exact fieldTypes?_of_mentionsOfAll h.2 hm

end

/-- Every field of the table is of a type that the table covers. -/
def IsClosed (s : SymbolTables) : Prop :=
  ∀ name fields, s.fieldTypes? name = some fields → ∀ field ∈ fields, s.covers field = true

/-- The fields of the aggregate name another one. -/
def Names (s : SymbolTables) (outer : String) (m : Mention) : Prop :=
  ∃ fields, s.fieldTypes? outer = some fields ∧ ∃ field ∈ fields, m ∈ field.mentions

/-- From the aggregate entered last, fields lead back into one on the way to it, and not directly behind
a pointer. -/
inductive LeadsBack (s : SymbolTables) : List String → Prop
  | here {outer : String} {way : List String} {m : Mention} : s.Names outer m → m.isPointee = false →
    m.name ∈ outer :: way → s.LeadsBack (outer :: way)
  | deeper {outer : String} {way : List String} {m : Mention} : s.Names outer m →
    m.name ∉ outer :: way → s.LeadsBack (m.name :: outer :: way) → s.LeadsBack (outer :: way)

/-- The fields of the aggregate name the other one, behind pointers or not. -/
def Refers (s : SymbolTables) (outer inner : String) : Prop :=
  ∃ m, s.Names outer m ∧ m.name = inner

/-- A field of the aggregate holds the aggregate by value. -/
def HoldsItself (s : SymbolTables) (name : String) : Prop :=
  ∃ fields, s.fieldTypes? name = some fields ∧ ∃ field ∈ fields, s.Holds field name

end SymbolTables

/-! ### Lowering one type -/

section Lowering

variable {s : SymbolTables} {expand : String → Except Problem IrType} {visiting : List String}

theorem lowerWith_strip (type : SourceType) :
    lowerWith expand visiting type.strip = lowerWith expand visiting type := by
  match type with
  | .const inner | .alias _ inner =>
    rw [strip, lowerWith]
    exact lowerWith_strip inner
  | .void | .scalar _ | .pointer _ | .array .. | .aggregate .. | .function .. | .templateParam _ => rfl

/-- Lowering passes over an aggregate that is pointed to and on the way, and enters one that is not on
the way. -/
def Passes (expand : String → Except Problem IrType) (visiting : List String) (m : Mention) : Prop :=
  if m.name ∈ visiting then m.isPointee = true else ∃ machine, expand m.name = .ok machine

theorem lowerWith_of_aggregateName? {type : SourceType} {name : String}
    (h : type.aggregateName? = some name) : lowerWith expand visiting type =
      if visiting.contains name then .error (.containsItself name) else expand name := by
  rw [← lowerWith_strip]
  obtain ⟨bare, args, hstrip, rfl⟩ := aggregateName?_eq_some.mp h
  rw [hstrip, lowerWith]

/-- A pointer to an aggregate. -/
theorem lowerPointer_isOk_iff {inner : SourceType} {name : String}
    (h : inner.aggregateName? = some name) :
    (∃ machine, lowerWith expand visiting (.pointer inner) = .ok machine) ↔
      Passes expand visiting ⟨name, true⟩ := by
  obtain ⟨bare, args, hstrip, hname⟩ := aggregateName?_eq_some.mp h
  have hfunction : inner.isFunction = false := by simp [isFunction, hstrip]
  have hvoid : inner.isVoid = false := by simp [isVoid, hstrip]
  rw [lowerWith, pointerTo, lowerWith_of_aggregateName? h, h, hfunction, hvoid, Passes]
  by_cases hmem : name ∈ visiting
  · simp [hmem]
  · simp only [Bool.false_eq_true, if_false, Option.any_some, List.contains_eq_mem, decide_eq_true_eq,
      hmem, Bool.or_false]
    cases expand name with
    | error problem => exact ⟨nofun, nofun⟩
    | ok machine => exact ⟨fun _ => ⟨_, rfl⟩, fun _ => ⟨_, rfl⟩⟩

/-- A pointer to anything else. -/
theorem lowerPointer_isOk_iff_inner {inner : SourceType} (h : inner.aggregateName? = none) :
    (∃ machine, lowerWith expand visiting (.pointer inner) = .ok machine) ↔
      ∃ machine, lowerWith expand visiting inner = .ok machine := by
  rw [lowerWith, pointerTo, h]
  by_cases hfunction : inner.isFunction = true
  · rw [if_pos hfunction]
  by_cases hvoid : inner.isVoid = true
  · have hstrip : inner.strip = .void := by
      unfold isVoid at hvoid
      split at hvoid
      · assumption
      · cases hvoid
    rw [if_neg hfunction, hvoid, ← lowerWith_strip inner, hstrip, lowerWith]
    exact ⟨fun _ => ⟨_, rfl⟩, fun _ => ⟨_, rfl⟩⟩
  · rw [if_neg hfunction, eq_false_of_ne_true hvoid]
    cases lowerWith expand visiting inner with
    | error problem => exact ⟨nofun, nofun⟩
    | ok machine => exact ⟨fun _ => ⟨_, rfl⟩, fun _ => ⟨_, rfl⟩⟩

mutual

/-- A type has a machine type when lowering passes every aggregate that it names. -/
theorem lowerWith_isOk_iff (type : SourceType) (h : s.covers type = true) :
    (∃ machine, lowerWith expand visiting type = .ok machine) ↔
      ∀ m ∈ type.mentions, Passes expand visiting m := by
  match type with
  | .void | .scalar _ => simp [lowerWith, mentions]
  | .const inner | .alias _ inner =>
    rw [lowerWith, mentions]
    exact lowerWith_isOk_iff inner h
  | .array inner (.fixed length) =>
    have hinner := lowerWith_isOk_iff inner (by simpa [SymbolTables.covers] using h)
    rw [lowerWith, mentions, ← hinner]
    cases lowerWith expand visiting inner with
    | error problem => exact ⟨nofun, nofun⟩
    | ok element => exact ⟨fun _ => ⟨_, rfl⟩, fun _ => ⟨_, rfl⟩⟩
  | .aggregate name args =>
    rw [lowerWith_of_aggregateName? rfl, mentions, List.forall_mem_singleton, Passes]
    by_cases hmem : canonical (.aggregate name args) ∈ visiting <;> simp [hmem]
  | .pointer inner =>
    rw [mentions]
    cases hname : inner.aggregateName? with
    | some name => simpa using lowerPointer_isOk_iff hname
    | none => exact (lowerPointer_isOk_iff_inner hname).trans (lowerWith_isOk_iff inner h)
  | .function ret params isVariadic =>
    rw [SymbolTables.covers, Bool.and_eq_true] at h
    have hret := lowerWith_isOk_iff ret h.1
    have hparams := lowerAll_isOk_iff params h.2
    rw [lowerWith, mentions, List.forall_mem_append, ← hret, ← hparams]
    cases lowerAll expand visiting params with
    | error problem => exact ⟨nofun, fun h => by simpa using h.1⟩
    | ok machines =>
      cases lowerWith expand visiting ret with
      | error problem => exact ⟨nofun, fun h => by simpa using h.2⟩
      | ok machine => exact ⟨fun _ => ⟨⟨_, rfl⟩, ⟨_, rfl⟩⟩, fun _ => ⟨_, rfl⟩⟩
  | .array _ (.param _) | .array _ (.expr _) | .templateParam _ => cases h

theorem lowerAll_isOk_iff (types : List SourceType) (h : s.coversAll types = true) :
    (∃ machines, lowerAll expand visiting types = .ok machines) ↔
      ∀ m ∈ mentionsOfAll types, Passes expand visiting m := by
  match types with
  | [] => simp [lowerAll, mentionsOfAll]
  | type :: rest =>
    rw [SymbolTables.coversAll, Bool.and_eq_true] at h
    have htype := lowerWith_isOk_iff type h.1
    have hrest := lowerAll_isOk_iff rest h.2
    rw [lowerAll, mentionsOfAll, List.forall_mem_append, ← htype, ← hrest]
    cases lowerWith expand visiting type with
    | error problem => exact ⟨nofun, fun h => by simpa using h.1⟩
    | ok machine =>
      cases lowerAll expand visiting rest with
      | error problem => exact ⟨nofun, fun h => by simpa using h.2⟩
      | ok machines => exact ⟨fun _ => ⟨⟨_, rfl⟩, ⟨_, rfl⟩⟩, fun _ => ⟨_, rfl⟩⟩

end

mutual

/-- Lowering asks only for the aggregates that are not on the way. -/
theorem lowerWith_congr {expand' : String → Except Problem IrType}
    (h : ∀ name ∉ visiting, expand name = expand' name) (type : SourceType) :
    lowerWith expand visiting type = lowerWith expand' visiting type := by
  match type with
  | .void | .scalar _ | .templateParam _ | .array _ (.param _) | .array _ (.expr _) => simp [lowerWith]
  | .const inner | .alias _ inner | .pointer inner | .array inner (.fixed _) =>
    simp only [lowerWith, lowerWith_congr h inner]
  | .aggregate name args =>
    by_cases hmem : canonical (.aggregate name args) ∈ visiting
    · simp [lowerWith, hmem]
    · simp [lowerWith, hmem, h _ hmem]
  | .function ret params isVariadic =>
    simp only [lowerWith, lowerWith_congr h ret, lowerAll_congr h params]

theorem lowerAll_congr {expand' : String → Except Problem IrType}
    (h : ∀ name ∉ visiting, expand name = expand' name) (types : List SourceType) :
    lowerAll expand visiting types = lowerAll expand' visiting types := by
  match types with
  | [] => rfl
  | type :: rest => simp only [lowerAll, lowerWith_congr h type, lowerAll_congr h rest]

end

end Lowering

/-! ### Entering aggregates -/

namespace SymbolTables

variable {s : SymbolTables} {name : String} {way : List String}

/-- The way to an aggregate: aggregates of the table, each entered once. -/
structure IsWay (s : SymbolTables) (way : List String) : Prop where
  nodup : way.Nodup
  known : ∀ name ∈ way, (s.fieldTypes? name).isSome = true

theorem IsWay.nil : s.IsWay [] := ⟨List.nodup_nil, nofun⟩

theorem IsWay.cons {fields : List SourceType} (h : s.IsWay way)
    (hfields : s.fieldTypes? name = some fields) (hfresh : name ∉ way) : s.IsWay (name :: way) where
  nodup := List.nodup_cons.mpr ⟨hfresh, h.nodup⟩
  known := by
    intro other hother
    rcases List.mem_cons.mp hother with rfl | hother
    · simp [hfields]
    · exact h.known other hother

theorem mem_keys_of_fieldTypes? (h : (s.fieldTypes? name).isSome = true) : name ∈ s.aggregates.keys := by
  simp only [fieldTypes?, Table.get?, Option.isSome_map, List.find?_isSome, decide_eq_true_eq] at h
  obtain ⟨entry, hentry, rfl⟩ := h
  exact List.mem_map_of_mem hentry

/-- A way is not longer than the table. -/
theorem IsWay.length_le (h : s.IsWay way) : way.length ≤ s.aggregates.size := by
  have hsub : way ⊆ s.aggregates.keys := fun name hname => mem_keys_of_fieldTypes? (h.known name hname)
  simpa [Table.keys, Table.size] using (h.nodup.subperm hsub).length_le

/-- More entries than a way can take change nothing.  The induction is on the entries left. -/
theorem expand_eq_of_le {budget budget' : Nat} (hway : s.IsWay way)
    (h : s.aggregates.size < budget + way.length) (hle : budget ≤ budget') (hfresh : name ∉ way) :
    s.expand budget way name = s.expand budget' way name := by
  induction budget generalizing budget' way name with
  | zero =>
    have := hway.length_le
    omega
  | succ budget ih =>
    obtain ⟨budget', rfl⟩ : ∃ k, budget' = k + 1 := ⟨budget' - 1, by omega⟩
    rw [expand, expand]
    cases hfields : s.fieldTypes? name with
    | none => rfl
    | some fields =>
      have hdeeper (other : String) (hother : other ∉ name :: way) :
          s.expand budget (name :: way) other = s.expand budget' (name :: way) other :=
        ih (hway.cons hfields hfresh) (by rw [List.length_cons]; omega) (by omega) hother
      have hcongr := lowerAll_congr hdeeper fields
      simp only [hcongr]

theorem leadsBack_cons_iff : s.LeadsBack (name :: way) ↔ ∃ m, s.Names name m ∧
    if m.name ∈ name :: way then m.isPointee = false else s.LeadsBack (m.name :: name :: way) := by
  constructor
  · rintro (⟨hnames, hopen, hmem⟩ | ⟨hnames, hmem, hback⟩)
    · exact ⟨_, hnames, by rwa [if_pos hmem]⟩
    · exact ⟨_, hnames, by rwa [if_neg hmem]⟩
  · rintro ⟨m, hnames, h⟩
    split_ifs at h with hmem
    · exact .here hnames h hmem
    · exact .deeper hnames hmem h

/-- An aggregate is entered successfully when no fields lead back from it.  The induction is on the
entries left, and a way that has used all of them would be longer than the table. -/
theorem expand_isOk_iff (hclosed : s.IsClosed) {budget : Nat} (hway : s.IsWay way)
    (hbudget : s.aggregates.size < budget + way.length) {fields : List SourceType}
    (hfields : s.fieldTypes? name = some fields) (hfresh : name ∉ way) :
    (∃ machine, s.expand budget way name = .ok machine) ↔ ¬ s.LeadsBack (name :: way) := by
  induction budget generalizing way name fields with
  | zero =>
    have := hway.length_le
    omega
  | succ budget ih =>
    have hcovered := hclosed name fields hfields
    have hall : (∃ machines, lowerAll (s.expand budget (name :: way)) (name :: way) fields = .ok machines) ↔
        ∀ m ∈ mentionsOfAll fields, Passes (s.expand budget (name :: way)) (name :: way) m :=
      lowerAll_isOk_iff fields (coversAll_iff.mpr hcovered)
    have hexpand : (∃ machine, s.expand (budget + 1) way name = .ok machine) ↔
        ∃ machines, lowerAll (s.expand budget (name :: way)) (name :: way) fields = .ok machines := by
      simp only [expand, hfields]
      cases lowerAll (s.expand budget (name :: way)) (name :: way) fields with
      | error problem => constructor <;> rintro ⟨_, h⟩ <;> cases h
      | ok machines => exact ⟨fun _ => ⟨_, rfl⟩, fun _ => ⟨_, rfl⟩⟩
    have hpasses (field : SourceType) (hfield : field ∈ fields) (m : Mention)
        (hm : m ∈ field.mentions) : Passes (s.expand budget (name :: way)) (name :: way) m ↔
          ¬ if m.name ∈ name :: way then m.isPointee = false
            else s.LeadsBack (m.name :: name :: way) := by
      rw [Passes]
      split_ifs with hmem
      · simp
      · obtain ⟨inner, hinner⟩ := Option.isSome_iff_exists.mp
          (fieldTypes?_of_mention (hcovered field hfield) hm)
        exact ih (hway.cons hfields hfresh) (by rw [List.length_cons]; omega) hinner hmem
    rw [hexpand, hall, leadsBack_cons_iff, not_exists]
    constructor
    · rintro h m ⟨⟨fields', hfields', field, hfield, hm⟩, hback⟩
      cases hfields.symm.trans hfields'
      exact (hpasses field hfield m hm).mp (h m (mem_mentionsOfAll.mpr ⟨field, hfield, hm⟩)) hback
    · intro h m hm
      obtain ⟨field, hfield, hm⟩ := mem_mentionsOfAll.mp hm
      exact (hpasses field hfield m hm).mpr fun hback =>
        h m ⟨⟨fields, hfields, field, hfield, hm⟩, hback⟩

/-- Where fields lead back into an aggregate on the way, a reference that is not directly behind a
pointer lies on a circle.  The induction is on the way back, along which each aggregate leads to the one
entered last. -/
theorem LeadsBack.exists_circle (h : s.LeadsBack way) {last : String} (hhead : way.head? = some last)
    (hway : ∀ other ∈ way, Relation.ReflTransGen s.Refers other last) :
    ∃ outer m, s.Names outer m ∧ m.isPointee = false ∧
      Relation.ReflTransGen s.Refers m.name outer := by
  induction h generalizing last with
  | here hnames hopen hmem =>
    cases hhead
    exact ⟨_, _, hnames, hopen, hway _ hmem⟩
  | deeper hnames _ _ ih =>
    cases hhead
    refine ih rfl fun other hother => ?_
    rcases List.mem_cons.mp hother with rfl | hother
    · exact .refl
    · exact (hway other hother).tail ⟨_, hnames, rfl⟩

end SymbolTables

/-! ### Aggregates that hold themselves -/

theorem IrType.Holds.sizeOf_le {machine part : IrType} (h : machine.Holds part) :
    sizeOf part ≤ sizeOf machine := by
  induction h with
  | itself => exact le_rfl
  | element _ ih =>
    rw [IrType.array.sizeOf_spec]
    omega
  | field hmem _ ih =>
    have := List.sizeOf_lt_of_mem hmem
    rw [IrType.struct.sizeOf_spec]
    omega

namespace SymbolTables

variable {s : SymbolTables}

/-- A struct in the machine type of a type stands for lowered fields. -/
theorem loweredAll_of_holds {machine part : IrType} (hpart : machine.Holds part) {type : SourceType}
    (h : Lowered s type machine) {machines : List IrType} {isPacked : Bool} {name : String}
    (hstruct : part = .struct machines isPacked (some name)) :
    ∃ fields, s.fieldTypes? name = some fields ∧ LoweredAll s fields machines := by
  induction hpart generalizing type with
  | itself =>
    obtain ⟨_, fields, hname, -, -, hfields, hall⟩ := h.of_struct hstruct
    cases hname
    exact ⟨fields, hfields, hall⟩
  | element _ ih =>
    obtain ⟨inner, -, hinner⟩ := h.of_array rfl
    exact ih hinner hstruct
  | field hmem _ ih =>
    obtain ⟨_, _, -, -, -, -, hall⟩ := h.of_struct rfl
    obtain ⟨_, -, hlowered⟩ := hall.exists_of_mem_machines hmem
    exact ih hlowered hstruct

/-- A struct for an aggregate that holds itself would hold a smaller one for the same aggregate. -/
theorem HoldsItself.not_loweredAll {name : String} {fields : List SourceType} {machines : List IrType}
    (h : s.HoldsItself name) (hfields : s.fieldTypes? name = some fields) :
    ¬ LoweredAll s fields machines := by
  obtain ⟨fields', hfields', field, hfield, hholds⟩ := h
  cases hfields.symm.trans hfields'
  induction hn : sizeOf machines using Nat.strong_induction_on generalizing machines with
  | _ n ih =>
    intro hall
    obtain ⟨machine, hmachine, hlowered⟩ := hall.exists_of_mem hfield
    obtain ⟨-, parts, -, hpart⟩ := hholds.struct hlowered
    obtain ⟨fields'', hfields'', hparts⟩ := loweredAll_of_holds hpart hlowered rfl
    cases hfields.symm.trans hfields''
    have hle := hpart.sizeOf_le
    have hlt := List.sizeOf_lt_of_mem hmachine
    rw [IrType.struct.sizeOf_spec] at hle
    exact ih (sizeOf parts) (by omega) rfl hparts

/-- A type over a closed table has a machine type exactly when no fields lead back from an aggregate that
it names; so it has one when no reference that is not directly behind a pointer lies on a circle, and none
when it holds an aggregate that holds itself.  The answer needs no more entries than the table has
aggregates. -/
theorem lower_isOk_iff (hclosed : s.IsClosed) {type : SourceType} (htype : s.covers type = true) :
    ((∃ machine, s.lower type = .ok machine) ↔ ∀ m ∈ type.mentions, ¬ s.LeadsBack [m.name]) ∧
    ((∀ outer m, s.Names outer m → m.isPointee = false →
      ¬ Relation.ReflTransGen s.Refers m.name outer) → ∃ machine, s.lower type = .ok machine) ∧
    (∀ name, s.Holds type name → s.HoldsItself name → ∃ problem, s.lower type = .error problem) ∧
    ∀ budget > s.aggregates.size, type.lowerWith (s.expand budget []) [] = s.lower type := by
  have hiff : (∃ machine, s.lower type = .ok machine) ↔ ∀ m ∈ type.mentions, ¬ s.LeadsBack [m.name] := by
    refine (lowerWith_isOk_iff type htype).trans (forall₂_congr fun m hm => ?_)
    obtain ⟨fields, hfields⟩ := Option.isSome_iff_exists.mp (fieldTypes?_of_mention htype hm)
    rw [Passes, if_neg List.not_mem_nil]
    exact expand_isOk_iff hclosed .nil (Nat.lt_succ_self _) hfields List.not_mem_nil
  refine ⟨hiff, fun hopen => hiff.mpr fun m _ hback => ?_, fun name hholds hself => ?_,
    fun budget hbudget => ?_⟩
  · obtain ⟨outer, m', hnames, hfalse, hcircle⟩ := hback.exists_circle rfl fun other hother => by
      rw [List.mem_singleton.mp hother]
    exact hopen outer m' hnames hfalse hcircle
  · cases hlower : s.lower type with
    | error problem => exact ⟨problem, rfl⟩
    | ok machine =>
      have hl := lowered_of_lower hlower
      obtain ⟨-, machines, -, hpart⟩ := hholds.struct hl
      obtain ⟨fields, hfields, hall⟩ := loweredAll_of_holds hpart hl rfl
      exact absurd hall (hself.not_loweredAll hfields)
  · exact lowerWith_congr (fun name hname =>
      (expand_eq_of_le .nil (Nat.lt_succ_self _) hbudget hname).symm) type

/-- The aggregates `Node`, which points to its list, and `List`, which holds its first node. -/
def knot : SymbolTables where
  aggregates := ⟨[
    ("Node", {
      decl := ⟨0⟩, name := "Node", base := none, isInstance := false, space := [], subst := {}
      fields := [⟨"owner", .pointer (.aggregate "List" []), 0, none⟩] }),
    ("List", {
      decl := ⟨1⟩, name := "List", base := none, isInstance := false, space := [], subst := {}
      fields := [⟨"head", .aggregate "Node" [], 0, none⟩] })]⟩

theorem knot_isClosed : knot.IsClosed := by
  intro name fields hfields field hfield
  by_cases hnode : name = "Node"
  · subst hnode
    cases hfields
    rw [List.mem_singleton.mp hfield]
    rfl
  by_cases hlist : name = "List"
  · subst hlist
    cases hfields
    rw [List.mem_singleton.mp hfield]
    rfl
  · have hnone : knot.fieldTypes? name = none := by
      simp [knot, fieldTypes?, Table.get?, Ne.symm hnode, Ne.symm hlist]
    rw [hnone] at hfields
    cases hfields

/-- Lowering succeeds from the side of the list only. -/
theorem lower_of_knot :
    knot.IsClosed ∧ knot.covers (.aggregate "Node" []) = true ∧
      (¬ ∃ machine, knot.lower (.aggregate "Node" []) = .ok machine) ∧
      knot.lower (.aggregate "List" []) =
        .ok (.struct [.struct [.ptr .i8] false (some "Node")] false (some "List")) := by
  have hback : knot.LeadsBack ["Node"] :=
    .deeper (m := ⟨"List", true⟩) ⟨_, rfl, _, .head _, .head _⟩ (by decide)
      (.here (m := ⟨"Node", false⟩) ⟨_, rfl, _, .head _, .head _⟩ rfl (by decide))
  refine ⟨knot_isClosed, rfl, fun hok => ?_, rfl⟩
  exact (lower_isOk_iff knot_isClosed rfl).1.mp hok ⟨"Node", false⟩ (.head _) hback

end SymbolTables

end UnitCompiler
