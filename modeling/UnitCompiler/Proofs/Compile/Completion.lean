import UnitCompiler.Proofs.Compile.Actions
import UnitCompiler.Proofs.Types.Cycles

/-!
# Completion of types

Completing a type enters the elements and fields that it holds by value, one job for each, and so does the
search for default values.  Both keep no record of the aggregates on the way.  They end for a type that
holds no aggregate that holds itself; for any other type whose aggregates are all checked, completion uses
up every depth of jobs.
-/

namespace UnitCompiler

open SourceType

/-! ### Parts of types -/

namespace SymbolTables

/-- The type is the element or a field of the other one. -/
inductive Part (s : SymbolTables) : SourceType → SourceType → Prop
  | element {type inner : SourceType} {length : ArrayLength} :
    type.strip = .array inner length → s.Part inner type
  | field {type field : SourceType} {fields : List SourceType} {outer : String} :
    type.aggregateName? = some outer → s.fieldTypes? outer = some fields → field ∈ fields →
      s.Part field type

/-- The type holds an aggregate that holds itself. -/
def IsEndless (s : SymbolTables) (type : SourceType) : Prop :=
  ∃ name, s.Holds type name ∧ s.HoldsItself name

variable {s : SymbolTables} {type part : SourceType}

/-- What a part holds, the whole holds. -/
theorem Part.holds (h : s.Part part type) {name : String} (hname : s.Holds part name) :
    s.Holds type name := by
  cases h with
  | element htype => exact .element htype hname
  | field htype hfields hmem => exact .field htype hfields hmem hname

theorem isEndless_iff : s.IsEndless type ↔ ∃ part, s.Part part type ∧ s.IsEndless part := by
  constructor
  · rintro ⟨name, hholds, hself⟩
    cases hholds with
    | itself htype =>
      obtain ⟨fields, hfields, field, hfield, hback⟩ := hself
      exact ⟨field, .field htype hfields hfield, name, hback, fields, hfields, field, hfield, hback⟩
    | element htype hinner => exact ⟨_, .element htype, name, hinner, hself⟩
    | field htype hfields hmem hfield => exact ⟨_, .field htype hfields hmem, name, hfield, hself⟩
  · rintro ⟨part, hpart, name, hholds, hself⟩
    exact ⟨name, hpart.holds hholds, hself⟩

open Classical in
/-- The aggregates of the table that a type holds. -/
noncomputable def held (s : SymbolTables) (type : SourceType) : Finset String :=
  s.aggregates.keys.toFinset.filter (s.Holds type)

theorem Part.held_subset (h : s.Part part type) : s.held part ⊆ s.held type := by
  intro name hname
  simp only [held, Finset.mem_filter] at hname ⊢
  exact ⟨hname.1, h.holds hname.2⟩

/-- An aggregate that does not hold itself is not held by its fields. -/
theorem held_ssubset {field : SourceType} {fields : List SourceType} {outer : String}
    (hfinite : ¬ s.IsEndless type) (htype : type.aggregateName? = some outer)
    (hfields : s.fieldTypes? outer = some fields) (hmem : field ∈ fields) :
    s.held field ⊂ s.held type := by
  refine (Finset.ssubset_iff_of_subset (Part.field htype hfields hmem).held_subset).mpr ⟨outer, ?_, ?_⟩
  · have hkey : outer ∈ s.aggregates.keys := mem_keys_of_fieldTypes? (by simp [hfields])
    simp only [held, Finset.mem_filter, List.mem_toFinset]
    exact ⟨hkey, .itself htype⟩
  · simp only [held, Finset.mem_filter, not_and]
    exact fun _ hback => hfinite ⟨outer, .itself htype, fields, hfields, field, hmem, hback⟩

theorem sizeOf_strip_le (type : SourceType) : sizeOf type.strip ≤ sizeOf type := by
  match type with
  | .const inner | .alias _ inner =>
    have := sizeOf_strip_le inner
    rw [strip]
    simp only [SourceType.const.sizeOf_spec, SourceType.alias.sizeOf_spec]
    omega
  | .void | .scalar _ | .pointer _ | .array .. | .aggregate .. | .function .. | .templateParam _ =>
    exact le_rfl

/-- No way into the parts of such a type goes on forever: a field holds fewer aggregates than its
aggregate, and an element is a smaller type. -/
theorem acc_part (type : SourceType) (hfinite : ¬ s.IsEndless type) : Acc s.Part type := by
  refine ⟨_, fun part hpart => ?_⟩
  have hpart' : ¬ s.IsEndless part := fun h => hfinite (isEndless_iff.mpr ⟨part, hpart, h⟩)
  have hlt : (s.held part).card < (s.held type).card ∨
      (s.held part).card = (s.held type).card ∧ sizeOf part < sizeOf type := by
    cases hpart with
    | element htype =>
      have hle := sizeOf_strip_le type
      rw [htype, SourceType.array.sizeOf_spec] at hle
      have hcard := Finset.card_le_card (Part.element (s := s) htype).held_subset
      omega
    | field htype hfields hmem =>
      exact .inl (Finset.card_lt_card (held_ssubset hfinite htype hfields hmem))
  exact acc_part part hpart'
termination_by ((s.held type).card, sizeOf type)
decreasing_by exact Prod.lex_def.mpr hlt

end SymbolTables

/-! ### Actions that end -/

namespace CompileM

variable {α β : Type} {c : Context}

/-- What an action gives that leaves the context alone. -/
def quietly (c : Context) : Except CompileError α → EStateM.Result Stop Context α
  | .ok a => .ok a c
  | .error error => .error (.failed error) c

/-- The action ends in the same way wherever jobs may nest deeply enough, and leaves the context alone. -/
def EndsQuietly (x : CompileM α) (c : Context) : Prop :=
  ∃ d₀ outcome, ∀ d ≥ d₀, x (performWithin d) c = quietly c outcome

theorem EndsQuietly.of_eq {x : CompileM α} (outcome : Except CompileError α)
    (h : ∀ p, x p c = quietly c outcome) : EndsQuietly x c :=
  ⟨0, outcome, fun _ _ => h _⟩

theorem EndsQuietly.bind {x : CompileM α} {f : α → CompileM β} (h : EndsQuietly x c)
    (hf : ∀ a, EndsQuietly (f a) c) : EndsQuietly (x >>= f) c := by
  obtain ⟨d₀, outcome, hx⟩ := h
  cases outcome with
  | error error => exact ⟨d₀, .error error, fun d hd => bind_of_eq_error (hx d hd)⟩
  | ok a =>
    obtain ⟨d₁, outcome, ha⟩ := hf a
    refine ⟨max d₀ d₁, outcome, fun d hd => ?_⟩
    rw [bind_of_eq_ok (hx d (by omega))]
    exact ha d (by omega)

/-- Behind an action that only reads. -/
theorem EndsQuietly.of_bind {x : CompileM α} {f : α → CompileM β} {a : α} (hx : ∀ p, x p c = .ok a c)
    (h : EndsQuietly (f a) c) : EndsQuietly (x >>= f) c := by
  obtain ⟨d₀, outcome, ha⟩ := h
  refine ⟨d₀, outcome, fun d hd => ?_⟩
  rw [bind_of_eq_ok (hx _)]
  exact ha d hd

theorem EndsQuietly.perform {job : Job} (h : EndsQuietly job.work c) :
    EndsQuietly (CompileM.perform job) c := by
  obtain ⟨d₀, outcome, hwork⟩ := h
  refine ⟨d₀ + 1, outcome, fun d hd => ?_⟩
  obtain ⟨d, rfl⟩ : ∃ k, d = k + 1 := ⟨d - 1, by omega⟩
  exact hwork d (by omega)

theorem EndsQuietly.forM {items : List β} {f : β → CompileM Unit}
    (h : ∀ item ∈ items, EndsQuietly (f item) c) : EndsQuietly (items.forM f) c := by
  induction items with
  | nil => exact .of_eq (.ok ()) fun _ => rfl
  | cons item rest ih =>
    exact (h item (.head _)).bind fun _ => ih fun other hother => h other (.tail _ hother)

end CompileM

/-! ### Completion -/

namespace Context

/-- No aggregate that the type holds is left to be checked on demand. -/
def IsSettled (c : Context) (type : SourceType) : Prop :=
  ∀ name, c.symbols.Holds type name → c.symbols.aggregates.contains name = true ∨
    ∀ site, c.symbols.declaredAggregates.get? name = some site → c.stateOf site.decl ≠ .unchecked

/-- Every aggregate that the type holds is checked. -/
def Knows (c : Context) (type : SourceType) : Prop :=
  ∀ name, c.symbols.Holds type name → c.symbols.aggregates.contains name = true

variable {c : Context} {type inner : SourceType}

theorem IsSettled.part (h : c.IsSettled type) (hpart : c.symbols.Part inner type) : c.IsSettled inner :=
  fun name hname => h name (hpart.holds hname)

theorem Knows.part (h : c.Knows type) (hpart : c.symbols.Part inner type) : c.Knows inner :=
  fun name hname => h name (hpart.holds hname)

end Context

namespace CompileM

variable {c : Context} {type : SourceType} {location : Location} {name : String}

theorem ensureChecked_of_contains (h : c.symbols.aggregates.contains name = true) (p : Performer) :
    ensureChecked name location p c = .ok () c := by
  unfold ensureChecked
  rw [bind_of_eq_ok (get_apply p c), if_pos h]
  rfl

theorem endsQuietly_ensureChecked (h : c.IsSettled type) (htype : type.aggregateName? = some name) :
    EndsQuietly (ensureChecked name location) c := by
  by_cases hcontains : c.symbols.aggregates.contains name = true
  · exact .of_eq (.ok ()) (ensureChecked_of_contains hcontains)
  have hstates := (h name (.itself htype)).resolve_left hcontains
  cases hsite : c.symbols.declaredAggregates.get? name with
  | none =>
    refine .of_eq (.error (.semantic location (.unknownAggregate name))) fun p => ?_
    unfold ensureChecked
    rw [bind_of_eq_ok (get_apply p c), if_neg hcontains, hsite]
    rfl
  | some site =>
    refine .of_eq (.error (.semantic location (.dependsOnItself name))) fun p => ?_
    unfold ensureChecked
    rw [bind_of_eq_ok (get_apply p c), if_neg hcontains, hsite]
    simp only [if_pos (hstates site hsite)]
    rfl

theorem mem_fieldTypes {s : SymbolTables} {field : SourceType}
    (h : field ∈ (s.fieldTypes? name).getD []) :
    ∃ fields, s.fieldTypes? name = some fields ∧ field ∈ fields := by
  cases hfields : s.fieldTypes? name with
  | none =>
    rw [hfields] at h
    cases h
  | some fields =>
    rw [hfields] at h
    exact ⟨fields, rfl, h⟩

theorem mem_fieldTypes_of_fields {s : SymbolTables} {field : FieldSymbol}
    (h : field ∈ ((s.aggregates.get? name).map (·.fields)).getD []) :
    field.type ∈ (s.fieldTypes? name).getD [] := by
  unfold SymbolTables.fieldTypes?
  cases hsymbol : s.aggregates.get? name with
  | none =>
    rw [hsymbol] at h
    cases h
  | some symbol =>
    rw [hsymbol] at h
    exact List.mem_map_of_mem h

/-- Completion goes into the element of an array and into the fields of an aggregate. -/
theorem complete_cases (type : SourceType) (location : Location) :
    (∃ inner length, type.strip = .array inner length ∧
      CompileM.complete type location = perform (.complete inner location)) ∨
    (∃ name, type.aggregateName? = some name ∧
      CompileM.complete type location = do
        ensureChecked name location
        let c ← get
        ((c.symbols.fieldTypes? name).getD []).forM fun field => perform (.complete field location)) ∨
    ((∀ (s : SymbolTables) (part : SourceType), ¬ s.Part part type) ∧
      CompileM.complete type location = pure ()) := by
  unfold CompileM.complete
  split
  · next inner length hstrip => exact .inl ⟨inner, length, hstrip, rfl⟩
  · next bare args hstrip =>
    exact .inr (.inl ⟨_, aggregateName?_eq_some.mpr ⟨bare, args, hstrip, rfl⟩, rfl⟩)
  · next harray haggregate =>
    refine .inr (.inr ⟨fun s part hpart => ?_, rfl⟩)
    cases hpart with
    | element hstrip => exact harray _ _ hstrip
    | field htype =>
      obtain ⟨bare, args, hstrip, -⟩ := aggregateName?_eq_some.mp htype
      exact haggregate _ _ hstrip

/-- Completion ends: the induction is on the parts of the type. -/
theorem endsQuietly_complete (hacc : Acc c.symbols.Part type) (h : c.IsSettled type) :
    EndsQuietly (perform (.complete type location)) c := by
  induction hacc with
  | intro type _ ih =>
    refine EndsQuietly.perform ?_
    change EndsQuietly (CompileM.complete type location) c
    obtain ⟨inner, length, hstrip, hrun⟩ | ⟨name, hname, hrun⟩ | ⟨-, hrun⟩ := complete_cases type location
    · rw [hrun]
      exact ih inner (.element hstrip) (h.part (.element hstrip))
    · rw [hrun]
      refine (endsQuietly_ensureChecked h hname).bind fun _ => .of_bind (get_apply · c) ?_
      refine EndsQuietly.forM fun field hfield => ?_
      obtain ⟨fields, hfields, hmem⟩ := mem_fieldTypes hfield
      have hpart := SymbolTables.Part.field hname hfields hmem
      exact ih field hpart (h.part hpart)
    · rw [hrun]
      exact .of_eq (.ok ()) fun _ => rfl

theorem endsQuietly_anyDefault {fields : List FieldSymbol}
    (h : ∀ field ∈ fields, EndsQuietly (perform (.needsDefaults field.type location)) c) :
    EndsQuietly (anyDefault location fields) c := by
  induction fields with
  | nil => exact .of_eq (.ok false) fun _ => rfl
  | cons field rest ih =>
    unfold CompileM.anyDefault
    by_cases hdefault : field.default.isSome = true
    · rw [if_pos hdefault]
      exact .of_eq (.ok true) fun _ => rfl
    · rw [if_neg hdefault]
      refine (h field (.head _)).bind fun needs => ?_
      cases needs with
      | true => exact .of_eq (.ok true) fun _ => rfl
      | false => exact ih fun other hother => h other (.tail _ hother)

/-- The search for default values ends. -/
theorem endsQuietly_needsDefaults (hacc : Acc c.symbols.Part type) (h : c.IsSettled type) :
    EndsQuietly (perform (.needsDefaults type location)) c := by
  induction hacc with
  | intro type _ ih =>
    refine EndsQuietly.perform ?_
    change EndsQuietly (CompileM.needsDefaults type location) c
    unfold CompileM.needsDefaults CompileM.fieldsOf
    cases hname : type.aggregateName? with
    | none => exact .of_eq (.ok false) fun _ => rfl
    | some name =>
      rw [bind_assoc]
      refine (endsQuietly_ensureChecked h hname).bind fun _ => ?_
      refine .of_bind (fun _ => rfl) (endsQuietly_anyDefault fun field hfield => ?_)
      obtain ⟨fields, hfields, hmem⟩ := mem_fieldTypes (mem_fieldTypes_of_fields hfield)
      have hpart := SymbolTables.Part.field hname hfields hmem
      exact ih field.type hpart (h.part hpart)

/-! ### Completion without end -/

/-- Jobs in a row are done unless one of them runs out of depth. -/
theorem forM_or_exhausted {α : Type} {items : List α} {f : α → CompileM Unit} {p : Performer}
    {P : α → Prop}
    (h : ∀ item ∈ items, f item p c = .ok () c ∧ P item ∨ f item p c = .error .exhausted c) :
    (items.forM f p c = .ok () c ∧ ∀ item ∈ items, P item) ∨
      items.forM f p c = .error .exhausted c := by
  induction items with
  | nil => exact .inl ⟨rfl, nofun⟩
  | cons item rest ih =>
    rcases h item (.head _) with ⟨hitem, hP⟩ | hitem
    · have hcons : (item :: rest).forM f p c = rest.forM f p c := bind_of_eq_ok hitem
      rw [hcons, List.forall_mem_cons]
      exact (ih fun other hother => h other (.tail _ hother)).imp_left fun ⟨hrest, hall⟩ =>
        ⟨hrest, hP, hall⟩
    · exact .inr (bind_of_eq_error hitem)

/-- Within any depth, completion is done only for a type that holds no aggregate that holds itself.  The
induction is on the depth. -/
theorem complete_or_exhausted (h : c.Knows type) (depth : Nat) :
    (performWithin depth (.complete type location) c = .ok () c ∧ ¬ c.symbols.IsEndless type) ∨
      performWithin depth (.complete type location) c = .error .exhausted c := by
  induction depth generalizing type with
  | zero => exact .inr rfl
  | succ depth ih =>
    change (CompileM.complete type location (performWithin depth) c = _ ∧ _) ∨
      CompileM.complete type location (performWithin depth) c = _
    obtain ⟨inner, length, hstrip, hrun⟩ | ⟨name, hname, hrun⟩ | ⟨hparts, hrun⟩ :=
      complete_cases type location
    · rw [hrun]
      refine (ih (h.part (.element hstrip))).imp_left (And.imp_right fun hinner hendless => ?_)
      obtain ⟨part, hpart, hdeeper⟩ := SymbolTables.isEndless_iff.mp hendless
      cases hpart with
      | element hpart =>
        cases hstrip.symm.trans hpart
        exact hinner hdeeper
      | field htype =>
        obtain ⟨bare, args, haggregate, -⟩ := aggregateName?_eq_some.mp htype
        cases hstrip.symm.trans haggregate
    · rw [hrun, bind_of_eq_ok (ensureChecked_of_contains (h name (.itself hname)) _),
        bind_of_eq_ok (get_apply _ c)]
      refine (forM_or_exhausted (P := fun field => ¬ c.symbols.IsEndless field)
        fun field hfield => ?_).imp_left (And.imp_right fun hfields hendless => ?_)
      · obtain ⟨fields, hfields, hmem⟩ := mem_fieldTypes hfield
        exact ih (h.part (.field hname hfields hmem))
      · obtain ⟨part, hpart, hdeeper⟩ := SymbolTables.isEndless_iff.mp hendless
        cases hpart with
        | element hpart =>
          obtain ⟨bare, args, haggregate, -⟩ := aggregateName?_eq_some.mp hname
          cases hpart.symm.trans haggregate
        | field htype hparts hmem =>
          cases hname.symm.trans htype
          rw [hparts] at hfields
          exact hfields part hmem hdeeper
    · rw [hrun]
      refine .inl ⟨rfl, fun hendless => ?_⟩
      obtain ⟨part, hpart, -⟩ := SymbolTables.isEndless_iff.mp hendless
      exact hparts _ _ hpart

/-- Completion and the search for default values end and change nothing for a type that holds no aggregate
that holds itself.  For any other type whose aggregates are checked, completion ends within no depth. -/
theorem completion_ends_iff (c : Context) (type : SourceType) (location : Location) :
    (c.IsSettled type → ¬ c.symbols.IsEndless type →
      EndsQuietly (perform (.complete type location)) c ∧
      EndsQuietly (perform (.needsDefaults type location)) c) ∧
    (c.Knows type → c.symbols.IsEndless type → ∀ depth,
      performWithin depth (.complete type location) c = .error .exhausted c) := by
  refine ⟨fun h hfinite => ?_, fun h hendless depth => ?_⟩
  · have hacc := SymbolTables.acc_part type hfinite
    exact ⟨endsQuietly_complete hacc h, endsQuietly_needsDefaults hacc h⟩
  · exact (complete_or_exhausted h depth).resolve_left fun hdone => hdone.2 hendless

/-- The aggregates `A`, which holds a `B`, and `B`, which holds two of `A`. -/
def circle : SymbolTables where
  aggregates := ⟨[
    ("A", {
      decl := ⟨0⟩, name := "A", base := none, isInstance := false, space := [], subst := {}
      fields := [⟨"b", .aggregate "B" [], 0, none⟩] }),
    ("B", {
      decl := ⟨1⟩, name := "B", base := none, isInstance := false, space := [], subst := {}
      fields := [⟨"items", .array (.aggregate "A" []) (.fixed 2), 0, none⟩] })]⟩

theorem contains_of_holds_circle {type : SourceType} (h : circle.Holds type name) (htype : type ∈
    [.aggregate "A" [], .aggregate "B" [], .array (.aggregate "A" []) (.fixed 2)]) :
    circle.aggregates.contains name = true := by
  simp only [List.mem_cons, List.not_mem_nil, or_false] at htype
  induction h with
  | itself hname =>
    obtain rfl | rfl | rfl := htype <;> cases hname <;> rfl
  | element hstrip _ ih =>
    obtain rfl | rfl | rfl := htype <;> cases hstrip
    exact ih (.inl rfl)
  | field hname hfields hmem _ ih =>
    obtain rfl | rfl | rfl := htype <;> cases hname <;> cases hfields
    · exact ih (.inr (.inl (List.mem_singleton.mp hmem)))
    · exact ih (.inr (.inr (List.mem_singleton.mp hmem)))

/-- Completing `A` never ends; completing a pointer to it does. -/
theorem completion_of_circle (location : Location) :
    let c := { Context.new {} {} with symbols := circle }
    (∀ depth, performWithin depth (.complete (.aggregate "A" []) location) c = .error .exhausted c) ∧
      EndsQuietly (perform (.complete (.pointer (.aggregate "A" [])) location)) c := by
  intro c
  have hknows : c.Knows (.aggregate "A" []) := fun name hname => contains_of_holds_circle hname (.head _)
  have hback : circle.HoldsItself "A" :=
    ⟨_, rfl, _, .head _, .field rfl rfl (.head _) (.element rfl (.itself rfl))⟩
  have hpointer (name : String) : ¬ circle.Holds (.pointer (.aggregate "A" [])) name := by
    rintro (h | h | h) <;> cases h
  refine ⟨(completion_ends_iff c _ location).2 hknows ⟨"A", .itself rfl, hback⟩, ?_⟩
  exact ((completion_ends_iff c _ location).1 (fun name hname => absurd hname (hpointer name))
    fun ⟨name, hname, _⟩ => hpointer name hname).1

end CompileM

end UnitCompiler
