import UnitCompiler.Proofs.Disciplines.Retention

/-!
# Consistent symbol tables

The tables of a unit repeat each other: functions are found by key, by name, by declaration and by owner,
fields by the aggregate and on their own.  In consistent tables all entries fit, and each change that checking
makes keeps them so.  An aggregate that two declarations were registered under is left out where its two
symbols could disagree.
-/

namespace UnitCompiler

namespace Table

variable {κ α : Type} [DecidableEq κ]

theorem contains_of_get? {t : Table κ α} {k : κ} {a : α} (h : t.get? k = some a) : t.contains k = true := by
  rw [contains, h]
  rfl

theorem mem_of_get? {t : Table κ α} {k : κ} {a : α} (h : t.get? k = some a) : (k, a) ∈ t.entries := by
  obtain ⟨e, hfind, rfl⟩ := Option.map_eq_some_iff.mp h
  obtain rfl : e.1 = k := by simpa using List.find?_some hfind
  exact List.mem_of_find?_eq_some hfind

theorem contains_iff {t : Table κ α} {k : κ} : t.contains k = true ↔ ∃ a, t.get? k = some a :=
  Option.isSome_iff_exists

theorem contains_insert_self (t : Table κ α) (k : κ) (a : α) : (t.insert k a).contains k = true :=
  contains_of_get? (get?_insert_self t k a)

theorem contains_insert {t : Table κ α} {k' : κ} (h : t.contains k' = true) (k : κ) (a : α) :
    (t.insert k a).contains k' = true := by
  rw [contains, get?_insert]
  split_ifs
  · rfl
  · exact h

/-- Lists that a key is put at the end of. -/
theorem getD_update (t : Table κ (List String)) (k k' : κ) (key : String) :
    ((t.update k [] (· ++ [key])).get? k').getD [] = (t.get? k').getD [] ++ if k = k' then [key] else [] := by
  by_cases heq : k = k'
  · subst heq
    rw [get?_update_self, if_pos rfl]
    rfl
  · rw [get?_update_of_ne _ _ _ heq, if_neg heq, List.append_nil]

end Table

/-! ### Fields of one owner -/

/-- Fields of different names are entered under their names and nothing else changes. -/
theorem get?_foldl_insert_field (owner : String) {fields : List FieldSymbol}
    (hnames : (fields.map (·.name)).Nodup) (t : Table (String × String) FieldSymbol) (at' : String × String) :
    (fields.foldl (fun t field => t.insert (owner, field.name) field) t).get? at' =
      (if owner = at'.1 then fields.find? (·.name == at'.2) else none).or (t.get? at') := by
  induction fields generalizing t with
  | nil => simp
  | cons field rest ih =>
    obtain ⟨hfirst, hrest⟩ := List.nodup_cons.mp hnames
    rw [List.foldl_cons, ih hrest, Table.get?_insert]
    by_cases howner : owner = at'.1
    · rw [if_pos howner, if_pos howner]
      by_cases hname : field.name = at'.2
      · have hmissing : rest.find? (·.name == at'.2) = none := by
          refine List.find?_eq_none.mpr fun other hother => ?_
          rw [beq_iff_eq]
          exact fun heq => hfirst (List.mem_map.mpr ⟨other, hother, heq.trans hname.symm⟩)
        rw [hmissing, List.find?_cons_of_pos (by simpa using hname), if_pos (by rw [howner, hname])]
        rfl
      · rw [List.find?_cons_of_neg (by simpa using hname), if_neg]
        rintro rfl
        exact hname rfl
    · rw [if_neg howner, if_neg howner, if_neg]
      rintro rfl
      exact howner rfl

theorem find?_field_of_mem {fields : List FieldSymbol} (hnames : (fields.map (·.name)).Nodup)
    {field : FieldSymbol} (h : field ∈ fields) : fields.find? (·.name == field.name) = some field := by
  induction fields with
  | nil => cases h
  | cons first rest ih =>
    obtain ⟨hfirst, hrest⟩ := List.nodup_cons.mp hnames
    rcases List.mem_cons.mp h with rfl | hmem
    · exact List.find?_cons_of_pos (beq_self_eq_true _)
    · rw [List.find?_cons_of_neg]
      · exact ih hrest hmem
      · rw [beq_iff_eq]
        exact fun heq => hfirst (List.mem_map.mpr ⟨field, hmem, heq.symm⟩)

/-! ### What the tables say of an aggregate -/

namespace SymbolTables

/-- The first aggregate extends the second one. -/
def Extends (s : SymbolTables) (name base : String) : Prop :=
  ∃ a, s.aggregates.get? name = some a ∧ a.base = some base

/-- No two declarations were registered under the name. -/
def IsSingle (s : SymbolTables) (name : String) : Prop :=
  ∀ id id', s.declaredNames.get? id = some name → s.declaredNames.get? id' = some name → id = id'

/-- The tables have everything that the symbol of an aggregate refers to. -/
structure Describes (s : SymbolTables) (name : String) (a : AggregateSymbol) : Prop where
  named : a.name = name
  declared : s.declaredNames.get? a.decl = some name
  operators : ∀ {tag operands key}, a.operator? tag operands = some key → s.functions.contains key = true
  methods : ∀ key ∈ a.methods, s.functions.contains key = true
  nodup : (a.fields.map (·.name)).Nodup
  indices : ∀ {i : Nat} {field : FieldSymbol}, a.fields[i]? = some field → field.index = i
  fields : ∀ field ∈ a.fields, s.field? name field.name = some field
  base : ∀ base ∈ a.base, s.aggregates.contains base = true

/-- Tables whose entries fit each other. -/
structure Consistent (s : SymbolTables) : Prop where
  functions : ∀ {key f}, s.functions.get? key = some f → f.key = key ∧ key = functionKey f.name f.params
  keys : ∀ {key f}, s.functions.get? key = some f → s.declaredKeys.get? f.decl = some key
  nodup : ∀ name, (s.overloadsOf name).Nodup
  overloads : ∀ {name key}, key ∈ s.overloadsOf name ↔ ∃ f, s.functions.get? key = some f ∧ f.name = name
  methods : ∀ {owner name key}, key ∈ s.methodsOf owner name →
    ∃ f, s.functions.get? key = some f ∧ f.owner = some owner
  declaredKeys : ∀ {id key}, s.declaredKeys.get? id = some key → s.functions.contains key = true
  instances : ∀ {name key}, s.instances.get? name = some key → s.functions.contains key = true
  aggregates : ∀ {name a}, s.aggregates.get? name = some a → s.Describes name a
  declaredNames : ∀ {id name}, s.declaredNames.get? id = some name → s.aggregates.contains name = true
  fields : ∀ {name}, s.IsSingle name → ∀ field,
    s.field? name field = (s.aggregates.get? name).bind fun a => a.fields.find? (·.name == field)
  bases : ∃ rank : String → Nat, ∀ {name base}, s.IsSingle name → s.IsSingle base → s.Extends name base →
    rank base < rank name

/-- Tables that have more still have what a symbol refers to. -/
theorem Describes.mono {s s' : SymbolTables} {name : String} {a : AggregateSymbol} (h : s.Describes name a)
    (hfunctions : ∀ {key}, s.functions.contains key = true → s'.functions.contains key = true)
    (hnames : s.declaredNames.get? a.decl = some name → s'.declaredNames.get? a.decl = some name)
    (hfields : ∀ field, s'.field? name field = s.field? name field)
    (haggregates : ∀ {name}, s.aggregates.contains name = true → s'.aggregates.contains name = true) :
    s'.Describes name a where
  named := h.named
  declared := hnames h.declared
  operators hkey := hfunctions (h.operators hkey)
  methods key hkey := hfunctions (h.methods key hkey)
  nodup := h.nodup
  indices := h.indices
  fields field hfield := (hfields _).trans (h.fields field hfield)
  base base hbase := haggregates (h.base base hbase)

namespace Consistent

variable {s s' : SymbolTables}

theorem empty : ({} : SymbolTables).Consistent where
  functions h := by cases h
  keys h := by cases h
  nodup _ := .nil
  overloads := ⟨nofun, fun ⟨_, h, _⟩ => nomatch h⟩
  methods h := by cases h
  declaredKeys h := by cases h
  instances h := by cases h
  aggregates h := by cases h
  declaredNames h := by cases h
  fields _ _ := rfl
  bases := ⟨fun _ => 0, fun _ _ ⟨_, h, _⟩ => nomatch h⟩

/-- Aggregates without a second declaration extend no aggregates that extend them. -/
theorem acyclic (h : s.Consistent) (name : String) :
    ¬Relation.TransGen (fun name base => s.IsSingle name ∧ s.Extends name base) name name := by
  obtain ⟨rank, hrank⟩ := h.bases
  have hdown {name base : String}
      (hpath : Relation.TransGen (fun name base => s.IsSingle name ∧ s.Extends name base) name base)
      (hbase : s.IsSingle base) : rank base < rank name := by
    induction hpath with
    | single hstep => exact hrank hstep.1 hbase hstep.2
    | tail _ hstep ih => exact (hrank hstep.1 hbase hstep.2).trans (ih hstep.1)
  intro hcycle
  obtain ⟨_, hstep, -⟩ := Relation.TransGen.head'_iff.mp hcycle
  exact lt_irrefl _ (hdown hcycle hstep.1)

/-! ### Changes of other tables -/

theorem of_eq (h : s.Consistent) (hfunctions : s'.functions = s.functions) (hoverloads : s'.overloads = s.overloads)
    (hinstances : s'.instances = s.instances) (haggregates : s'.aggregates = s.aggregates)
    (hmethods : s'.methods = s.methods) (hfields : s'.fields = s.fields)
    (hkeys : s'.declaredKeys = s.declaredKeys) (hnames : s'.declaredNames = s.declaredNames) :
    s'.Consistent := by
  obtain ⟨⟩ := s
  obtain ⟨⟩ := s'
  cases hfunctions
  cases hoverloads
  cases hinstances
  cases haggregates
  cases hmethods
  cases hfields
  cases hkeys
  cases hnames
  exact {
    functions := h.functions
    keys := h.keys
    nodup := h.nodup
    overloads := h.overloads
    methods := h.methods
    declaredKeys := h.declaredKeys
    instances := h.instances
    aggregates := fun ha => { h.aggregates ha with }
    declaredNames := h.declaredNames
    fields := h.fields
    bases := h.bases }

/-! ### Functions -/

/-- A new function is entered under its key, for a declaration that had none. -/
theorem addFunction (h : s.Consistent) {f : FunctionSymbol} (hnew : s.functions.get? f.key = none)
    (hdecl : s.declaredKeys.get? f.decl = none) (hkey : f.key = functionKey f.name f.params) :
    (s.addFunction f).Consistent := by
  have hfunctions (key : String) : (s.addFunction f).functions.get? key =
      if f.key = key then some f else s.functions.get? key :=
    Table.get?_insert _ _ _ _
  have hkept {key : String} {g : FunctionSymbol} (hg : s.functions.get? key = some g) :
      (s.addFunction f).functions.get? key = some g := by
    rw [hfunctions, if_neg]
    · exact hg
    · rintro rfl
      rw [hnew] at hg
      cases hg
  have hcontains {key : String} (hkey : s.functions.contains key = true) :
      (s.addFunction f).functions.contains key = true :=
    Table.contains_insert hkey _ _
  have hoverloads (name : String) : (s.addFunction f).overloadsOf name =
      s.overloadsOf name ++ if f.name = name then [f.key] else [] :=
    Table.getD_update _ _ _ _
  have hfresh (name : String) : f.key ∉ s.overloadsOf name := by
    intro hmem
    obtain ⟨g, hg, -⟩ := h.overloads.mp hmem
    rw [hnew] at hg
    cases hg
  constructor
  case functions =>
    intro key g hg
    rw [hfunctions] at hg
    split_ifs at hg with heq
    · cases hg
      exact ⟨heq, heq ▸ hkey⟩
    · exact h.functions hg
  case keys =>
    intro key g hg
    rw [hfunctions] at hg
    change (s.declaredKeys.insert f.decl f.key).get? g.decl = some key
    split_ifs at hg with heq
    · cases hg
      rw [Table.get?_insert_self, heq]
    · have hold := h.keys hg
      rw [Table.get?_insert_of_ne]
      · exact hold
      · intro hsame
        rw [← hsame, hdecl] at hold
        cases hold
  case nodup =>
    intro name
    rw [hoverloads]
    split_ifs
    · refine List.nodup_append.mpr ⟨h.nodup name, List.nodup_singleton _, fun key hmem key' hmem' => ?_⟩
      rintro rfl
      exact hfresh name (List.mem_singleton.mp hmem' ▸ hmem)
    · rw [List.append_nil]
      exact h.nodup name
  case overloads =>
    intro name key
    rw [hoverloads, List.mem_append, h.overloads, hfunctions]
    constructor
    · rintro (⟨g, hg, hname⟩ | hmem)
      · exact ⟨g, (hfunctions key).symm.trans (hkept hg), hname⟩
      · split_ifs at hmem with hname
        · rw [List.mem_singleton.mp hmem, if_pos rfl]
          exact ⟨f, rfl, hname⟩
        · cases hmem
    · rintro ⟨g, hg, hname⟩
      split_ifs at hg with heq
      · cases hg
        rw [if_pos hname, heq]
        exact .inr (List.mem_singleton_self key)
      · exact .inl ⟨g, hg, hname⟩
  case methods =>
    intro owner name key hmem
    obtain ⟨g, hg, howner⟩ := h.methods hmem
    exact ⟨g, hkept hg, howner⟩
  case declaredKeys =>
    intro id key hdeclared
    have hdeclared := (Table.get?_insert _ _ _ _).symm.trans hdeclared
    split_ifs at hdeclared
    · cases hdeclared
      exact Table.contains_insert_self _ _ _
    · exact hcontains (h.declaredKeys hdeclared)
  case instances => exact fun hinstance => hcontains (h.instances hinstance)
  case aggregates => exact fun ha => (h.aggregates ha).mono hcontains id (fun _ => rfl) id
  case declaredNames => exact h.declaredNames
  case fields => exact h.fields
  case bases => exact h.bases

/-- A registered function becomes a method of its owner. -/
theorem addMethod (h : s.Consistent) {owner key : String} {f : FunctionSymbol}
    (hf : s.functions.get? key = some f) (howner : f.owner = some owner) (name : String) :
    (s.addMethod owner name key).Consistent where
  functions := h.functions
  keys := h.keys
  nodup := h.nodup
  overloads := h.overloads
  methods {owner' name' key'} hmem := by
    have hmem : key' ∈ (s.methods.get? (owner', name')).getD [] ++
        if (owner, name) = (owner', name') then [key] else [] := by
      rw [← Table.getD_update]
      exact hmem
    rcases List.mem_append.mp hmem with hmem | hmem
    · exact h.methods hmem
    · split_ifs at hmem with heq
      · obtain rfl := List.mem_singleton.mp hmem
        exact ⟨f, hf, howner.trans (congrArg some (Prod.mk.inj heq).1)⟩
      · cases hmem
  declaredKeys := h.declaredKeys
  instances := h.instances
  aggregates ha := { h.aggregates ha with }
  declaredNames := h.declaredNames
  fields := h.fields
  bases := h.bases

/-- A registered function is entered for a declaration that had none. -/
theorem declareKey (h : s.Consistent) {key : String} (hkey : s.functions.contains key = true) {id : NodeId}
    (hid : s.declaredKeys.get? id = none) :
    { s with declaredKeys := s.declaredKeys.insert id key }.Consistent where
  functions := h.functions
  keys {key' f} hf := by
    have hold := h.keys hf
    rw [Table.get?_insert_of_ne]
    · exact hold
    · rintro rfl
      rw [hid] at hold
      cases hold
  nodup := h.nodup
  overloads := h.overloads
  methods := h.methods
  declaredKeys {id' key'} hdeclared := by
    have hdeclared := (Table.get?_insert _ _ _ _).symm.trans hdeclared
    split_ifs at hdeclared
    · cases hdeclared
      exact hkey
    · exact h.declaredKeys hdeclared
  instances := h.instances
  aggregates ha := { h.aggregates ha with }
  declaredNames := h.declaredNames
  fields := h.fields
  bases := h.bases

/-- A registered function is entered as an instance. -/
theorem enterInstance (h : s.Consistent) {key : String} (hkey : s.functions.contains key = true)
    (name : String) : { s with instances := s.instances.insert name key }.Consistent where
  functions := h.functions
  keys := h.keys
  nodup := h.nodup
  overloads := h.overloads
  methods := h.methods
  declaredKeys := h.declaredKeys
  instances {name' key'} hinstance := by
    have hinstance := (Table.get?_insert _ _ _ _).symm.trans hinstance
    split_ifs at hinstance
    · cases hinstance
      exact hkey
    · exact h.instances hinstance
  aggregates ha := { h.aggregates ha with }
  declaredNames := h.declaredNames
  fields := h.fields
  bases := h.bases

/-! ### Aggregates -/

/-- A registered aggregate gets other operators and methods. -/
theorem setAggregate (h : s.Consistent) {name : String} {a : AggregateSymbol}
    (ha : s.aggregates.get? name = some a) {operators : Table OperatorTag (Table String String)}
    {methods : List String}
    (hoperators : ∀ tag operands key, (operators.get? tag).bind (·.get? operands) = some key →
      s.functions.contains key = true)
    (hmethods : ∀ key ∈ methods, s.functions.contains key = true) :
    { s with aggregates := s.aggregates.insert name { a with operators, methods } }.Consistent := by
  set s' : SymbolTables := { s with aggregates := s.aggregates.insert name { a with operators, methods } }
  have haggregates (name' : String) : s'.aggregates.get? name' =
      if name = name' then some { a with operators, methods } else s.aggregates.get? name' :=
    Table.get?_insert _ _ _ _
  have hcontains {name' : String} (hname' : s.aggregates.contains name' = true) :
      s'.aggregates.contains name' = true :=
    Table.contains_insert hname' _ _
  have hextends {name' base : String} (hbase : s'.Extends name' base) : s.Extends name' base := by
    obtain ⟨a', ha', hbase⟩ := hbase
    rw [haggregates] at ha'
    split_ifs at ha' with heq
    · cases ha'
      exact ⟨a, heq ▸ ha, hbase⟩
    · exact ⟨a', ha', hbase⟩
  constructor
  case functions => exact h.functions
  case keys => exact h.keys
  case nodup => exact h.nodup
  case overloads => exact h.overloads
  case methods => exact h.methods
  case declaredKeys => exact h.declaredKeys
  case instances => exact h.instances
  case aggregates =>
    intro name' a' ha'
    rw [haggregates] at ha'
    split_ifs at ha' with heq
    · subst heq
      cases ha'
      have hdescribes : s'.Describes name a := (h.aggregates ha).mono id id (fun _ => rfl) hcontains
      exact { hdescribes with
        operators := hoperators _ _ _
        methods := hmethods }
    · exact (h.aggregates ha').mono id id (fun _ => rfl) hcontains
  case declaredNames => exact fun hname => hcontains (h.declaredNames hname)
  case fields =>
    intro name' hsingle field
    rw [show s'.field? name' field = s.field? name' field from rfl, h.fields hsingle, haggregates]
    split_ifs with heq
    · rw [← heq, ha]
      rfl
    · rfl
  case bases =>
    obtain ⟨rank, hrank⟩ := h.bases
    exact ⟨rank, fun hname hbase hstep => hrank hname hbase (hextends hstep)⟩

/-- An aggregate is entered for a declaration that had no name, whether or not its name is a new one. -/
theorem addAggregate (h : s.Consistent) {a : AggregateSymbol} (hdecl : s.declaredNames.get? a.decl = none)
    (hoperators : a.operators = {}) (hmethods : a.methods = []) (hnodup : (a.fields.map (·.name)).Nodup)
    (hindices : ∀ (i : Nat) (field : FieldSymbol), a.fields[i]? = some field → field.index = i)
    (hbase : ∀ base ∈ a.base, s.aggregates.contains base = true) : (s.addAggregate a).Consistent := by
  rw [addAggregate_eq]
  set s' : SymbolTables := { s with
    aggregates := s.aggregates.insert a.name a
    declaredNames := s.declaredNames.insert a.decl a.name
    fields := a.fields.foldl (fun t field => t.insert (a.name, field.name) field) s.fields }
  have haggregates (name : String) : s'.aggregates.get? name =
      if a.name = name then some a else s.aggregates.get? name :=
    Table.get?_insert _ _ _ _
  have hnames (id : NodeId) : s'.declaredNames.get? id =
      if a.decl = id then some a.name else s.declaredNames.get? id :=
    Table.get?_insert _ _ _ _
  have hfields (name field : String) : s'.field? name field =
      (if a.name = name then a.fields.find? (·.name == field) else none).or (s.field? name field) :=
    get?_foldl_insert_field a.name hnodup s.fields (name, field)
  have hcontains {name : String} (hname : s.aggregates.contains name = true) :
      s'.aggregates.contains name = true :=
    Table.contains_insert hname _ _
  have hkept {id : NodeId} {name : String} (hid : s.declaredNames.get? id = some name) :
      s'.declaredNames.get? id = some name := by
    rw [hnames, if_neg]
    · exact hid
    · rintro rfl
      rw [hdecl] at hid
      cases hid
  have hsingle {name : String} (hname : s'.IsSingle name) : s.IsSingle name :=
    fun id id' hid hid' => hname id id' (hkept hid) (hkept hid')
  -- A name that had a symbol before has two declarations from now on.
  have hnew (hname : s'.IsSingle a.name) : s.aggregates.get? a.name = none := by
    cases hold : s.aggregates.get? a.name with
    | none => rfl
    | some a₀ =>
      have hdecl₀ := (h.aggregates hold).declared
      have hsame := hname a.decl a₀.decl (by rw [hnames, if_pos rfl]) (hkept hdecl₀)
      rw [← hsame, hdecl] at hdecl₀
      cases hdecl₀
  constructor
  case functions => exact h.functions
  case keys => exact h.keys
  case nodup => exact h.nodup
  case overloads => exact h.overloads
  case methods => exact h.methods
  case declaredKeys => exact h.declaredKeys
  case instances => exact h.instances
  case aggregates =>
    intro name a' ha'
    rw [haggregates] at ha'
    split_ifs at ha' with hname
    · cases ha'
      subst hname
      constructor
      case named => rfl
      case declared => rw [hnames, if_pos rfl]
      case operators =>
        intro tag operands key hkey
        rw [AggregateSymbol.operator?, hoperators] at hkey
        cases hkey
      case methods =>
        intro key hkey
        rw [hmethods] at hkey
        cases hkey
      case nodup => exact hnodup
      case indices => exact hindices _ _
      case fields =>
        intro field hfield
        have hfind : a.fields.find? (·.name == field.name) = some field :=
          find?_field_of_mem hnodup hfield
        rw [hfields, if_pos rfl, hfind]
        rfl
      case base => exact fun base hmem => hcontains (hbase base hmem)
    · refine (h.aggregates ha').mono id hkept (fun field => ?_) hcontains
      rw [hfields, if_neg hname]
      rfl
  case declaredNames =>
    intro id name hid
    rw [hnames] at hid
    split_ifs at hid
    · cases hid
      exact Table.contains_insert_self _ _ _
    · exact hcontains (h.declaredNames hid)
  case fields =>
    intro name hname field
    rw [hfields, haggregates]
    split_ifs with heq
    · subst heq
      rw [h.fields (hsingle hname), hnew hname]
      simp
    · exact h.fields (hsingle hname) field
  case bases =>
    obtain ⟨rank, hrank⟩ := h.bases
    have hother {base : String} (hbase : s'.IsSingle base) (hknown : s.aggregates.contains base = true) :
        base ≠ a.name := by
      rintro rfl
      rw [Table.contains, hnew hbase] at hknown
      cases hknown
    refine ⟨Function.update rank a.name (a.base.elim 0 rank + 1), fun {name base} hname hbase' hstep => ?_⟩
    obtain ⟨a', ha', hextends⟩ := hstep
    rw [haggregates] at ha'
    split_ifs at ha' with heq
    · cases ha'
      subst heq
      rw [Function.update_self, Function.update_of_ne (hother hbase' (hbase base hextends)), hextends]
      exact Nat.lt_succ_self _
    · have hknown := (h.aggregates ha').base base hextends
      rw [Function.update_of_ne (Ne.symm heq), Function.update_of_ne (hother hbase' hknown)]
      exact hrank (hsingle hname) (hsingle hbase') ⟨a', ha', hextends⟩

end Consistent
end SymbolTables
end UnitCompiler
