import UnitCompiler.Proofs.Compile.Reading
import UnitCompiler.Proofs.Types.ArrayLengths
import UnitCompiler.Proofs.Types.Substitution

/-!
# Captured names

What a template parameter is bound to is read again in the environment of the instance.  A name of the
argument is captured there when something else is found under it first: a parameter, a local alias, or a
declaration of a namespace around the template.  The parameter is read as its argument exactly when no name
of the argument is captured.
-/

namespace UnitCompiler

/-! ### Spellings of a name -/

theorem qualifyIn_ne {space : List String} (h : space ≠ []) (name : String) : qualifyIn space name ≠ name := by
  intro heq
  have hlength := congrArg String.length heq
  rw [qualifyIn, String.intercalate_append_of_ne_nil h (List.cons_ne_nil _ _), String.intercalate_singleton,
    String.length_append, String.length_append] at hlength
  have : "::".length = 2 := by decide
  omega

namespace Context

variable {c : Context} {name : String}

/-- The last spelling of a name is the name itself, and no other one is. -/
theorem candidates_eq (c : Context) (name : String) : ∃ inner,
    c.candidates name = inner ++ [name] ∧ ∀ candidate ∈ inner, candidate ≠ name := by
  refine ⟨((List.range c.space.length).map Nat.succ).reverse.map fun depth =>
    qualifyIn (c.space.take depth) name, ?_, ?_⟩
  · rw [candidates, List.range_succ_eq_map, List.reverse_cons, List.map_append]
    rfl
  · intro candidate hcandidate
    obtain ⟨depth, hdepth, rfl⟩ := List.mem_map.mp hcandidate
    obtain ⟨k, hk, rfl⟩ := List.mem_map.mp (List.mem_reverse.mp hdepth)
    refine qualifyIn_ne (fun hnil => ?_) name
    have := congrArg List.length hnil
    simp only [List.length_take, List.length_nil] at this
    have := List.mem_range.mp hk
    omega

/-- What the name itself leads to is found when nothing is found under another spelling. -/
theorem findSome?_candidates {β : Type} (c : Context) {name : String} {g : String → Option β} {b : β}
    (h : g name = some b) (hother : ∀ candidate, candidate ≠ name → g candidate ≠ some b) :
    (c.candidates name).findSome? g = some b ↔
      ∀ candidate ∈ c.candidates name, candidate ≠ name → g candidate = none := by
  obtain ⟨inner, hcandidates, hinner⟩ := c.candidates_eq name
  rw [hcandidates, List.findSome?_append]
  constructor
  · intro hfound candidate hcandidate hne
    have hcandidate : candidate ∈ inner := by simpa [hne] using hcandidate
    cases hfirst : inner.findSome? g with
    | none => exact List.findSome?_eq_none_iff.mp hfirst candidate hcandidate
    | some b' =>
      rw [hfirst] at hfound
      cases hfound
      obtain ⟨before, found, after, rfl, hfound, -⟩ := List.findSome?_eq_some_iff.mp hfirst
      exact absurd hfound (hother found (hinner found (by simp)))
  · intro hnone
    rw [List.findSome?_eq_none_iff.mpr fun candidate hcandidate =>
      hnone candidate (List.mem_append_left _ hcandidate) (hinner candidate hcandidate)]
    simp [h]

/-! ### Captured names -/

/-- The same tables outside of all namespaces, functions and instances. -/
def outermost (c : Context) : Context := { c with subst := {}, space := [], function := none }

/-- As a type the name leads to something else than the aggregate of this name. -/
inductive CapturesType (c : Context) (name : String) : Prop
  | parameter {bound : SourceType} (hbound : c.subst.types.get? name = some bound)
    (hne : bound ≠ .aggregate name []) : CapturesType c name
  | local {target : SourceType} (hbound : c.subst.types.get? name = none)
    (halias : c.localAlias? name = some (.type target)) : CapturesType c name
  | inner {candidate : String} (hbound : c.subst.types.get? name = none)
    (hcandidate : candidate ∈ c.candidates name) (hne : candidate ≠ name)
    (hnamed : c.namedAt name candidate ≠ none) : CapturesType c name

/-- As a template argument the name leads to a value. -/
inductive CapturesArgument (c : Context) (name : String) : Prop
  | parameter {value : ConstValue} (hbound : c.subst.values.get? name = some value) : CapturesArgument c name
  | local {value : ConstValue} (halias : c.localAlias? name = some (.value value)) : CapturesArgument c name
  | inner {candidate : String} {value : ConstValue} (hcandidate : candidate ∈ c.candidates name)
    (halias : c.symbols.aliases.get? candidate = some (.value value)) : CapturesArgument c name

/-- An aggregate template of an inner namespace has the name. -/
def CapturesTemplate (c : Context) (name : String) : Prop :=
  ∃ candidate ∈ c.candidates name, candidate ≠ name ∧ c.symbols.aggregateTemplates.contains candidate = true

theorem resolveNamed_outermost {type : SourceType} (h : c.outermost.resolveNamed name = .ok type) :
    c.namedAt name name = some (.ok type) := by
  change (([name].findSome? (c.namedAt name)).getD _) = _ at h
  cases hnamed : c.namedAt name name with
  | none =>
    simp [hnamed] at h
  | some result => simpa [hnamed] using h

theorem namedAt_ne_self {candidate : String} (hne : candidate ≠ name) :
    c.namedAt name candidate ≠ some (.ok (.aggregate name [])) := by
  unfold namedAt
  split
  · simp
  · split_ifs <;> simp [hne]

/-- Without parameters and local aliases the spellings of a name decide. -/
theorem resolveNamed_of_candidates (hbound : c.subst.types.get? name = none)
    (halias : ∀ target, c.localAlias? name ≠ some (.type target)) :
    c.resolveNamed name =
      ((c.candidates name).findSome? (c.namedAt name)).getD (.error (.unknownType name)) := by
  unfold resolveNamed
  rw [hbound]
  cases hentry : c.localAlias? name with
  | none => rfl
  | some entry =>
    cases entry with
    | type target => exact absurd hentry (halias target)
    | value value => rfl

/-- An aggregate that goes by its own name is found under it exactly where the name is not captured. -/
theorem resolveNamed_eq_self_iff (h : c.outermost.resolveNamed name = .ok (.aggregate name [])) :
    c.resolveNamed name = .ok (.aggregate name []) ↔ ¬c.CapturesType name := by
  have hinner := c.findSome?_candidates (resolveNamed_outermost h) fun candidate => namedAt_ne_self
  cases hbound : c.subst.types.get? name with
  | some bound =>
    have hresolve : c.resolveNamed name = .ok bound := by
      unfold resolveNamed
      rw [hbound]
    rw [hresolve]
    constructor
    · rintro heq (⟨hbound', hne⟩ | ⟨hnone, -⟩ | ⟨hnone, -, -, -⟩)
      · rw [hbound] at hbound'
        cases hbound'
        exact hne (by simpa using heq)
      · rw [hbound] at hnone
        cases hnone
      · rw [hbound] at hnone
        cases hnone
    · intro hfree
      by_contra hne
      exact hfree (.parameter hbound fun heq => hne (by rw [heq]))
  | none =>
    by_cases hlocal : ∃ target, c.localAlias? name = some (.type target)
    · obtain ⟨target, halias⟩ := hlocal
      have hresolve : c.resolveNamed name = .ok (.alias name target) := by
        unfold resolveNamed
        rw [hbound, halias]
      rw [hresolve]
      exact iff_of_false (by simp) fun hfree => hfree (.local hbound halias)
    · have halias : ∀ target, c.localAlias? name ≠ some (.type target) := fun target h => hlocal ⟨target, h⟩
      have hfound : c.resolveNamed name = .ok (.aggregate name []) ↔
          (c.candidates name).findSome? (c.namedAt name) = some (.ok (.aggregate name [])) := by
        rw [resolveNamed_of_candidates hbound halias]
        cases (c.candidates name).findSome? (c.namedAt name) <;> simp
      rw [hfound, hinner]
      constructor
      · rintro hnone (⟨hbound', -⟩ | ⟨-, halias'⟩ | ⟨-, hcandidate, hne, hnamed⟩)
        · rw [hbound] at hbound'
          cases hbound'
        · exact halias _ halias'
        · exact hnamed (hnone _ hcandidate hne)
      · intro hfree candidate hcandidate hne
        by_contra hnamed
        exact hfree (.inner hbound hcandidate hne hnamed)

/-- A name stands for no value as a template argument exactly where none captures it. -/
theorem valueAlias?_eq_none_iff : c.valueAlias? name = none ↔ ¬c.CapturesArgument name := by
  cases hbound : c.subst.values.get? name with
  | some value =>
    refine iff_of_false (fun hnone => ?_) fun hfree => hfree (.parameter hbound)
    unfold valueAlias? at hnone
    rw [hbound] at hnone
    cases hnone
  | none =>
    by_cases hlocal : ∃ value, c.localAlias? name = some (.value value)
    · obtain ⟨value, halias⟩ := hlocal
      refine iff_of_false (fun hnone => ?_) fun hfree => hfree (.local halias)
      unfold valueAlias? at hnone
      rw [hbound, halias] at hnone
      cases hnone
    · have halias : ∀ value, c.localAlias? name ≠ some (.value value) := fun value h => hlocal ⟨value, h⟩
      unfold valueAlias?
      rw [hbound]
      split
      · simp_all
      · exact absurd ‹_› (halias _)
      rw [List.findSome?_eq_none_iff]
      constructor
      · rintro hnone (hbound' | halias' | ⟨hcandidate, halias'⟩)
        · rw [hbound] at hbound'
          cases hbound'
        · exact halias _ halias'
        · have := hnone _ hcandidate
          rw [halias'] at this
          cases this
      · intro hfree candidate hcandidate
        split
        · exact absurd (.inner hcandidate ‹_›) hfree
        · rfl

/-- A template that goes by its own name is found under it exactly where the name is not captured. -/
theorem aggregateTemplate?_eq_self_iff {site : DeclarationSite}
    (h : c.outermost.aggregateTemplate? name = some (name, site)) :
    (∃ site, c.aggregateTemplate? name = some (name, site)) ↔ ¬c.CapturesTemplate name := by
  have hself : (c.symbols.aggregateTemplates.get? name).map (name, ·) = some (name, site) := by
    change [name].findSome? (fun candidate =>
      (c.symbols.aggregateTemplates.get? candidate).map (candidate, ·)) = _ at h
    simpa using h
  have hinner := c.findSome?_candidates (g := fun candidate =>
    (c.symbols.aggregateTemplates.get? candidate).map (candidate, ·)) hself fun candidate hne heq => by
      obtain ⟨_, -, heq⟩ := Option.map_eq_some_iff.mp heq
      exact hne (Prod.mk.inj heq).1
  constructor
  · rintro ⟨site', hfound⟩ ⟨candidate, hcandidate, hne, hcontains⟩
    have hsite : site' = site := by
      obtain ⟨_, found, _, -, hfound, -⟩ := List.findSome?_eq_some_iff.mp hfound
      obtain ⟨_, hget, heq⟩ := Option.map_eq_some_iff.mp hfound
      cases heq
      rw [hget] at hself
      exact (Prod.mk.inj (Option.some.inj hself)).2
    have hnone := hinner.mp (hsite ▸ hfound) candidate hcandidate hne
    rw [Table.contains, Option.map_eq_none_iff.mp hnone] at hcontains
    cases hcontains
  · intro hfree
    refine ⟨site, hinner.mpr fun candidate hcandidate hne => ?_⟩
    by_contra hsome
    refine hfree ⟨candidate, hcandidate, hne, ?_⟩
    rw [Table.contains, Option.isSome_iff_ne_none]
    exact fun hnone => hsome (by rw [hnone]; rfl)

end Context

/-! ### Captured types -/

namespace SourceType

mutual

/-- The names of the generic aggregates in the type. -/
def genericNames : SourceType → List String
  | .void | .scalar _ | .templateParam _ => []
  | .pointer inner | .const inner | .array inner _ | .alias _ inner => genericNames inner
  | .aggregate name args => if args.isEmpty then [] else name :: argsGenericNames args
  | .function ret params _ => genericNames ret ++ allGenericNames params

def argGenericNames : TemplateArg → List String
  | .type type => genericNames type
  | .value _ => []

def argsGenericNames : List TemplateArg → List String
  | [] => []
  | arg :: rest => argGenericNames arg ++ argsGenericNames rest

def allGenericNames : List SourceType → List String
  | [] => []
  | type :: rest => genericNames type ++ allGenericNames rest

end

end SourceType

namespace Context

variable {c : Context}

/-- None of the names is captured: bare names, bare template arguments and names of generic aggregates. -/
structure Spares (c : Context) (names arguments generics : List String) : Prop where
  types : ∀ name ∈ names, ¬c.CapturesType name
  arguments : ∀ name ∈ arguments, ¬c.CapturesArgument name
  templates : ∀ name ∈ generics, ¬c.CapturesTemplate name

theorem spares_nil (c : Context) : c.Spares [] [] [] := ⟨by simp, by simp, by simp⟩

theorem spares_append {names names' arguments arguments' generics generics' : List String} :
    c.Spares (names ++ names') (arguments ++ arguments') (generics ++ generics') ↔
      c.Spares names arguments generics ∧ c.Spares names' arguments' generics' := by
  constructor
  · rintro ⟨htypes, harguments, htemplates⟩
    rw [List.forall_mem_append] at htypes harguments htemplates
    exact ⟨⟨htypes.1, harguments.1, htemplates.1⟩, ⟨htypes.2, harguments.2, htemplates.2⟩⟩
  · rintro ⟨⟨htypes, harguments, htemplates⟩, ⟨htypes', harguments', htemplates'⟩⟩
    exact ⟨List.forall_mem_append.mpr ⟨htypes, htypes'⟩, List.forall_mem_append.mpr ⟨harguments, harguments'⟩,
      List.forall_mem_append.mpr ⟨htemplates, htemplates'⟩⟩

/-- No name of a type is captured. -/
def SparesType (c : Context) (type : SourceType) : Prop :=
  c.Spares type.bareNames type.argumentNames type.genericNames

mutual

/-- A type that stands for itself outside of all namespaces does so wherever none of its names is captured. -/
theorem standsFor_of_spares {type : SourceType} {depth : Nat} (h : c.outermost.StandsFor depth type type)
    (hspares : c.SparesType type) : c.StandsFor depth type type := by
  match type with
  | .void =>
    cases h with
    | void hdepth => exact .void hdepth
  | .scalar kind =>
    cases h with
    | scalar _ hdepth => exact .scalar kind hdepth
  | .pointer inner =>
    cases h with
    | pointer hdepth h => exact .pointer hdepth (standsFor_of_spares h hspares)
  | .const inner =>
    cases h with
    | const hdepth h => exact .const hdepth (standsFor_of_spares h hspares)
  | .array inner length =>
    cases h with
    | array _ hdepth h => exact .array _ hdepth (standsFor_of_spares h hspares)
  | .alias name target =>
    cases h with
    | «alias» _ hdepth h => exact .«alias» name hdepth (standsFor_of_spares h hspares)
  | .function ret params _ =>
    cases h with
    | function _ hdepth hret hparams =>
      obtain ⟨hspares, hspares'⟩ := spares_append.mp hspares
      exact .function _ hdepth (standsFor_of_spares hret hspares) (allStandFor_of_spares hparams hspares')
  | .templateParam _ => cases h
  | .aggregate name [] =>
    cases h with
    | named hdepth hname =>
      exact .named hdepth ((resolveNamed_eq_self_iff hname).mpr (hspares.types name (by simp [SourceType.bareNames])))
  | .aggregate name (arg :: args) =>
    cases h with
    | generic hdepth harg hargs htemplate hknown =>
      obtain ⟨htypes, harguments, htemplates⟩ := hspares
      obtain ⟨site, htemplate⟩ := (aggregateTemplate?_eq_self_iff htemplate).mpr
        (htemplates name (by simp [SourceType.genericNames]))
      obtain ⟨hspares, hspares'⟩ := spares_append.mp (⟨htypes, harguments, fun other hother =>
        htemplates other (List.mem_cons_of_mem _ hother)⟩ : c.Spares
          (SourceType.argBareNames arg ++ SourceType.argsBareNames args)
          (SourceType.argArgumentNames arg ++ SourceType.argsArgumentNames args)
          (SourceType.argGenericNames arg ++ SourceType.argsGenericNames args))
      exact .generic hdepth (argStandsFor_of_spares harg hspares) (argsStandFor_of_spares hargs hspares')
        htemplate hknown
termination_by structural type

theorem allStandFor_of_spares {types : List SourceType} {depth : Nat}
    (h : c.outermost.AllStandFor depth types types)
    (hspares : c.Spares (SourceType.allBareNames types) (SourceType.allArgumentNames types)
      (SourceType.allGenericNames types)) : c.AllStandFor depth types types := by
  match types with
  | [] => exact .nil
  | type :: rest =>
    cases h with
    | cons hfirst hrest =>
      obtain ⟨hspares, hspares'⟩ := spares_append.mp hspares
      exact .cons (standsFor_of_spares hfirst hspares) (allStandFor_of_spares hrest hspares')
termination_by structural types

theorem argStandsFor_of_spares {arg : TemplateArg} {depth : Nat} (h : c.outermost.ArgStandsFor depth arg arg)
    (hspares : c.Spares (SourceType.argBareNames arg) (SourceType.argArgumentNames arg)
      (SourceType.argGenericNames arg)) : c.ArgStandsFor depth arg arg := by
  match arg with
  | .value value => exact .value value
  | .type type =>
    obtain ⟨htypes, harguments, htemplates⟩ := hspares
    cases h with
    | namedType hname _ hresolve =>
      obtain rfl := eq_of_bareName? hname
      refine .namedType hname (valueAlias?_eq_none_iff.mpr (harguments _ ?_))
        ((resolveNamed_eq_self_iff hresolve).mpr (htypes _ ?_))
      · simp [SourceType.argArgumentNames, TemplateArg.bareName?]
      · simp [SourceType.argBareNames, SourceType.bareNames]
    | type hname h =>
      exact .type hname (standsFor_of_spares h ⟨htypes, fun name hname =>
        harguments name (List.mem_append_right _ hname), htemplates⟩)
termination_by structural arg

theorem argsStandFor_of_spares {args : List TemplateArg} {depth : Nat}
    (h : c.outermost.ArgsStandFor depth args args)
    (hspares : c.Spares (SourceType.argsBareNames args) (SourceType.argsArgumentNames args)
      (SourceType.argsGenericNames args)) : c.ArgsStandFor depth args args := by
  match args with
  | [] => exact .nil
  | arg :: rest =>
    cases h with
    | cons hfirst hrest =>
      obtain ⟨hspares, hspares'⟩ := spares_append.mp hspares
      exact .cons (argStandsFor_of_spares hfirst hspares) (argsStandFor_of_spares hrest hspares')
termination_by structural args

end

end Context

/-! ### Reading a type as itself -/

namespace CompileM

open Context

variable {p : Performer} {c : Context} {location : Location}

/-- An instance goes by the name of a template that was found. -/
theorem ensureInstance_eq_ok {name qualified : String} {args : List TemplateArg} {c' : Context}
    (h : ensureInstance name args location p c = .ok qualified c') :
    ∃ site, c.aggregateTemplate? name = some (qualified, site) := by
  unfold ensureInstance at h
  rw [bind_of_eq_ok (get_apply p c)] at h
  cases htemplate : c.aggregateTemplate? name with
  | none =>
    rw [htemplate] at h
    cases h
  | some found =>
    rw [htemplate] at h
    dsimp only at h
    split_ifs at h
    · cases h
      exact ⟨_, rfl⟩
    · cases h
    · obtain ⟨kind, c₁, -, h⟩ := bind_eq_ok.mp h
      cases kind with
      | aggregate decl =>
        obtain ⟨subst, c₂, -, h⟩ := bind_eq_ok.mp h
        obtain ⟨_, c₃, -, h⟩ := bind_eq_ok.mp h
        cases h
        exact ⟨_, rfl⟩
      | _ => cases h

mutual

/-- Where such a type is read as itself none of its names is captured. -/
theorem spares_of_resolveAt {type : SourceType} {depth : Nat} {c' : Context}
    (h : c.outermost.StandsFor depth type type)
    (hrun : resolveAt location type depth p c = .ok type c') : c.SparesType type := by
  match type with
  | .void | .scalar _ => exact c.spares_nil
  | .pointer inner =>
    rw [resolveAt] at hrun
    obtain ⟨⟨⟩, c₁, hdepth, hrun⟩ := bind_eq_ok.mp hrun
    obtain ⟨inner', c₂, hinner, hrun⟩ := bind_eq_ok.mp hrun
    rw [checkDepth_eq_ok hdepth] at hinner
    cases hrun
    cases h with
    | pointer _ h =>
      have hspares : c.SparesType inner := spares_of_resolveAt h hinner
      exact hspares
  | .const inner =>
    rw [resolveAt] at hrun
    obtain ⟨⟨⟩, c₁, hdepth, hrun⟩ := bind_eq_ok.mp hrun
    obtain ⟨inner', c₂, hinner, hrun⟩ := bind_eq_ok.mp hrun
    rw [checkDepth_eq_ok hdepth] at hinner
    cases hrun
    cases h with
    | const _ h =>
      have hspares : c.SparesType inner := spares_of_resolveAt h hinner
      exact hspares
  | .alias _ inner =>
    rw [resolveAt] at hrun
    obtain ⟨⟨⟩, c₁, hdepth, hrun⟩ := bind_eq_ok.mp hrun
    obtain ⟨inner', c₂, hinner, hrun⟩ := bind_eq_ok.mp hrun
    rw [checkDepth_eq_ok hdepth] at hinner
    cases hrun
    cases h with
    | «alias» _ _ h =>
      have hspares : c.SparesType inner := spares_of_resolveAt h hinner
      exact hspares
  | .array inner length =>
    rw [resolveAt] at hrun
    obtain ⟨⟨⟩, c₁, hdepth, hrun⟩ := bind_eq_ok.mp hrun
    obtain ⟨inner', c₂, hinner, hrun⟩ := bind_eq_ok.mp hrun
    obtain ⟨length', c₃, -, hrun⟩ := bind_eq_ok.mp hrun
    rw [checkDepth_eq_ok hdepth] at hinner
    cases hrun
    cases h with
    | array _ _ h =>
      have hspares : c.SparesType inner := spares_of_resolveAt h hinner
      exact hspares
  | .function ret params _ =>
    rw [resolveAt] at hrun
    obtain ⟨⟨⟩, c₁, hdepth, hrun⟩ := bind_eq_ok.mp hrun
    obtain ⟨ret', c₂, hret, hrun⟩ := bind_eq_ok.mp hrun
    obtain ⟨params', c₃, hparams, hrun⟩ := bind_eq_ok.mp hrun
    rw [checkDepth_eq_ok hdepth] at hret
    cases hrun
    cases h with
    | function _ _ h hall =>
      have hspares : c.SparesType ret := spares_of_resolveAt h hret
      -- What is read as itself changes nothing, so the parameters are read in the same context.
      have hsame := resolveAt_apply (p := p) (.refl c) location (standsFor_of_spares h hspares)
      rw [hsame] at hret
      cases hret
      exact spares_append.mpr ⟨hspares, spares_of_resolveAll hall hparams⟩
  | .templateParam _ => cases h
  | .aggregate name [] =>
    rw [resolveAt] at hrun
    obtain ⟨⟨⟩, c₁, hdepth, hrun⟩ := bind_eq_ok.mp hrun
    rw [checkDepth_eq_ok hdepth] at hrun
    cases h with
    | named _ hname =>
      have hfree := (resolveNamed_eq_self_iff hname).mp (resolveNamed_eq_ok hrun)
      exact ⟨by simpa [SourceType.bareNames] using hfree, by simp [SourceType.argumentNames, SourceType.argsArgumentNames],
        by simp [SourceType.genericNames]⟩
  | .aggregate name (arg :: args) =>
    rw [resolveAt] at hrun
    obtain ⟨⟨⟩, c₁, hdepth, hrun⟩ := bind_eq_ok.mp hrun
    obtain ⟨args', c₂, hargs, hrun⟩ := bind_eq_ok.mp hrun
    obtain ⟨qualified, c₃, hinstance, hrun⟩ := bind_eq_ok.mp hrun
    rw [checkDepth_eq_ok hdepth] at hargs
    cases hrun
    cases h with
    | generic _ harg hrest htemplate _ =>
      obtain ⟨htypes, harguments, htemplates⟩ :=
        spares_of_resolveArgs (.cons harg hrest) hargs
      have hsame := resolveArgs_of_resolved (p := p) location
        (argsStandFor_of_spares (.cons harg hrest) ⟨htypes, harguments, htemplates⟩)
      rw [hsame] at hargs
      cases hargs
      have hfree := (aggregateTemplate?_eq_self_iff htemplate).mp (ensureInstance_eq_ok hinstance)
      exact ⟨htypes, harguments, List.forall_mem_cons.mpr ⟨hfree, htemplates⟩⟩
termination_by structural type

theorem spares_of_resolveAll {types : List SourceType} {depth : Nat} {c' : Context}
    (h : c.outermost.AllStandFor depth types types)
    (hrun : resolveAll location types depth p c = .ok types c') :
    c.Spares (SourceType.allBareNames types) (SourceType.allArgumentNames types)
      (SourceType.allGenericNames types) := by
  match types with
  | [] => exact c.spares_nil
  | type :: rest =>
    rw [resolveAll] at hrun
    obtain ⟨first', c₁, hfirst, hrun⟩ := bind_eq_ok.mp hrun
    obtain ⟨rest', c₂, hrest, hrun⟩ := bind_eq_ok.mp hrun
    cases hrun
    cases h with
    | cons h hall =>
      have hspares : c.SparesType type := spares_of_resolveAt h hfirst
      have hsame := resolveAt_apply (p := p) (.refl c) location (standsFor_of_spares h hspares)
      rw [hsame] at hfirst
      cases hfirst
      exact spares_append.mpr ⟨hspares, spares_of_resolveAll hall hrest⟩
termination_by structural types

theorem spares_of_resolveArg {arg : TemplateArg} {depth : Nat} {c' : Context}
    (h : c.outermost.ArgStandsFor depth arg arg)
    (hrun : resolveArg location arg depth p c = .ok arg c') :
    c.Spares (SourceType.argBareNames arg) (SourceType.argArgumentNames arg)
      (SourceType.argGenericNames arg) := by
  match arg with
  | .value _ => exact c.spares_nil
  | .type type =>
    rw [resolveArg] at hrun
    cases h with
    | @namedType _ _ _ name hname _ hresolve =>
      obtain rfl := eq_of_bareName? hname
      simp only [hname] at hrun
      rw [bind_of_eq_ok (get_apply p c)] at hrun
      cases hvalue : c.valueAlias? name with
      | some value =>
        rw [hvalue] at hrun
        cases hrun
      | none =>
        rw [hvalue] at hrun
        obtain ⟨type', c₁, htype, hrun⟩ := bind_eq_ok.mp hrun
        cases hrun
        have hfree := (resolveNamed_eq_self_iff hresolve).mp (resolveNamed_eq_ok htype)
        refine ⟨?_, ?_, ?_⟩
        · simpa [SourceType.argBareNames, SourceType.bareNames] using hfree
        · simpa [SourceType.argArgumentNames, TemplateArg.bareName?, SourceType.argumentNames,
            SourceType.argsArgumentNames] using valueAlias?_eq_none_iff.mp hvalue
        · simp [SourceType.argGenericNames, SourceType.genericNames]
    | type hname h =>
      simp only [hname] at hrun
      obtain ⟨type', c₁, htype, hrun⟩ := bind_eq_ok.mp hrun
      cases hrun
      have hspares : c.SparesType type := spares_of_resolveAt h htype
      have hnone : (TemplateArg.type type).bareName? = none := by
        match type with
        | .void | .scalar _ | .pointer _ | .const _ | .array .. | .function .. | .alias .. => rfl
        | .aggregate _ (_ :: _) => rfl
        | .aggregate _ [] => cases hname
        | .templateParam _ => cases h
      refine ⟨hspares.types, ?_, hspares.templates⟩
      rw [SourceType.argArgumentNames, hnone]
      exact hspares.arguments
termination_by structural arg

theorem spares_of_resolveArgs {args : List TemplateArg} {depth : Nat} {c' : Context}
    (h : c.outermost.ArgsStandFor depth args args)
    (hrun : resolveArgs location args depth p c = .ok args c') :
    c.Spares (SourceType.argsBareNames args) (SourceType.argsArgumentNames args)
      (SourceType.argsGenericNames args) := by
  match args with
  | [] => exact c.spares_nil
  | arg :: rest =>
    rw [resolveArgs] at hrun
    obtain ⟨first', c₁, hfirst, hrun⟩ := bind_eq_ok.mp hrun
    obtain ⟨rest', c₂, hrest, hrun⟩ := bind_eq_ok.mp hrun
    cases hrun
    cases h with
    | cons h hall =>
      have hspares := spares_of_resolveArg h hfirst
      have hsame := resolveArg_apply (p := p) (.refl c) location (argStandsFor_of_spares h hspares)
      rw [hsame] at hfirst
      cases hfirst
      exact spares_append.mpr ⟨hspares, spares_of_resolveArgs hall hrest⟩
termination_by structural args

end

end CompileM

/-! ### Bound parameters -/

/-- A step of binding changes at most the type of its own parameter. -/
theorem types_of_bindParam {template name : String} {s s' : Substitution} {param : TemplateParam}
    {arg : TemplateArg} (h : bindParam template s param arg = .ok s')
    (hname : param.kind = .type → param.name ≠ name) : s'.types.get? name = s.types.get? name := by
  unfold bindParam at h
  split at h
  · rename_i hkind
    cases h
    exact Table.get?_insert_of_ne _ _ (hname hkind)
  · split at h
    · cases h
      rfl
    · cases h
  · cases h
  · cases h

/-- Binding further parameters keeps a type whose parameter they do not name. -/
theorem types_of_foldlM {template name : String} {pairs : List (TemplateParam × TemplateArg)}
    {s s' : Substitution}
    (h : pairs.foldlM (fun s (param, arg) => bindParam template s param arg) s = .ok s')
    (hname : ∀ pair ∈ pairs, pair.1.kind = .type → pair.1.name ≠ name) :
    s'.types.get? name = s.types.get? name := by
  induction pairs generalizing s with
  | nil =>
    cases h
    rfl
  | cons pair rest ih =>
    obtain ⟨param, arg⟩ := pair
    rw [List.foldlM_cons] at h
    dsimp only at h
    cases hfirst : bindParam template s param arg with
    | error problem =>
      rw [hfirst] at h
      cases h
    | ok s₁ =>
      rw [hfirst] at h
      rw [ih h fun other hother => hname other (List.mem_cons_of_mem _ hother),
        types_of_bindParam hfirst (hname _ List.mem_cons_self)]

/-- A type parameter is bound to its argument, unless a later one has its name. -/
theorem types_of_bindParams {template name : String} {params : List TemplateParam} {args : List TemplateArg}
    {s : Substitution} {i : Nat} {type : SourceType} (h : bindParams template params args = .ok s)
    (hparam : params[i]? = some ⟨name, .type⟩) (harg : args[i]? = some (.type type))
    (hlast : ∀ j param, i < j → params[j]? = some param → param.kind = .type → param.name ≠ name) :
    s.types.get? name = some type := by
  unfold bindParams at h
  split_ifs at h with hlength
  have hpair : (params.zip args)[i]? = some (⟨name, .type⟩, .type type) := by
    rw [List.getElem?_zip_eq_some]
    exact ⟨hparam, harg⟩
  obtain ⟨hi, hget⟩ := List.getElem?_eq_some_iff.mp hpair
  rw [← List.take_append_drop i (params.zip args), List.drop_eq_getElem_cons hi, hget, List.foldlM_append] at h
  cases hbefore : ((params.zip args).take i).foldlM
      (fun s (param, arg) => bindParam template s param arg) ({} : Substitution) with
  | error problem =>
    rw [hbefore] at h
    cases h
  | ok s₁ =>
    rw [hbefore] at h
    change (do
      let s ← bindParam template s₁ ⟨name, .type⟩ (.type type)
      ((params.zip args).drop (i + 1)).foldlM (fun s (param, arg) => bindParam template s param arg) s) = _ at h
    rw [types_of_foldlM (s := s₁.bindType name type) h]
    · exact Table.get?_insert_self _ _ _
    · intro pair hpair
      obtain ⟨j, hj⟩ := List.mem_iff_getElem?.mp hpair
      rw [List.getElem?_drop] at hj
      obtain ⟨hparam', -⟩ := List.getElem?_zip_eq_some.mp hj
      exact hlast _ _ (by omega) hparam'

/-- In the environment of an instance a type parameter is read as its argument, and nothing changes, exactly
when no name of the argument is captured there: none of its bare names as a type, none of its bare template
arguments as a value, and none of its templates.  The argument is resolved: outside of all namespaces and
instances it stands for itself. -/
theorem parameter_reads_argument_iff {template name : String} {params : List TemplateParam}
    {args : List TemplateArg} {c : Context} {i : Nat} {argument : SourceType}
    (hbind : bindParams template params args = .ok c.subst)
    (hparam : params[i]? = some ⟨name, .type⟩) (harg : args[i]? = some (.type argument))
    (hlast : ∀ j param, i < j → params[j]? = some param → param.kind = .type → param.name ≠ name)
    (hresolved : c.outermost.StandsFor 0 argument argument) (p : Performer) (location : Location) :
    ∀ occurrence ∈ [SourceType.aggregate name [], SourceType.templateParam name],
      ((∃ c', CompileM.resolveType occurrence location p c = .ok argument c') ↔
        (∀ n ∈ argument.bareNames, ¬c.CapturesType n) ∧
        (∀ n ∈ argument.argumentNames, ¬c.CapturesArgument n) ∧
        (∀ n ∈ argument.genericNames, ¬c.CapturesTemplate n)) ∧
      ∀ c', CompileM.resolveType occurrence location p c = .ok argument c' → c' = c := by
  have hbound := types_of_bindParams hbind hparam harg hlast
  intro occurrence hoccurrence
  have hsubst : occurrence.substitute c.subst = argument := by
    simp only [List.mem_cons, List.not_mem_nil, or_false] at hoccurrence
    rcases hoccurrence with rfl | rfl <;> simp [SourceType.substitute, hbound]
  have hrun : CompileM.resolveType occurrence location p c = CompileM.resolveAt location argument 0 p c := by
    unfold CompileM.resolveType
    rw [CompileM.bind_of_eq_ok (CompileM.get_apply p c), hsubst]
  have hread (h : c.SparesType argument) : CompileM.resolveAt location argument 0 p c = .ok argument c :=
    CompileM.resolveAt_apply (.refl c) location (Context.standsFor_of_spares hresolved h)
  rw [hrun]
  refine ⟨⟨?_, fun h => ⟨c, hread ⟨h.1, h.2.1, h.2.2⟩⟩⟩, fun c' h => ?_⟩
  · rintro ⟨c', h⟩
    obtain ⟨htypes, harguments, htemplates⟩ := CompileM.spares_of_resolveAt hresolved h
    exact ⟨htypes, harguments, htemplates⟩
  · have hsame := hread (CompileM.spares_of_resolveAt hresolved h)
    rw [h] at hsame
    cases hsame
    rfl

/-- The environment of an instance for two types, where the aggregates `Node` and `U` are known. -/
def Context.inPair (first : SourceType) : Context where
  tree := { nodes := #[] }
  symbols := { declaredAggregates := ⟨[("Node", ⟨⟨0⟩, []⟩), ("U", ⟨⟨1⟩, []⟩)]⟩ }
  subst := { types := ⟨[("T", first), ("U", .long)]⟩ }

/-- The first parameter is read as the aggregate `Node`, but not as the aggregate that has the name of the
second one. -/
theorem parameter_reads_node :
    (∃ c', CompileM.resolveType (.aggregate "T" []) default (performWithin 0) (.inPair (.aggregate "Node" [])) =
      .ok (.aggregate "Node" []) c') ∧
    ¬∃ c', CompileM.resolveType (.aggregate "T" []) default (performWithin 0) (.inPair (.aggregate "U" [])) =
      .ok (.aggregate "U" []) c' := by
  have hparams : ∀ j (param : TemplateParam), 0 < j → [⟨"T", .type⟩, ⟨"U", .type⟩][j]? = some param →
      param.kind = .type → param.name ≠ "T" := by
    intro j param hj hparam _
    match j with
    | 1 =>
      cases hparam
      decide
    | j + 2 => cases hparam
  have hbind (argument : SourceType) :
      bindParams "pair" [⟨"T", .type⟩, ⟨"U", .type⟩] [.type argument, .type .long] =
        .ok (Context.inPair argument).subst :=
    rfl
  constructor
  · refine ((parameter_reads_argument_iff (i := 0) (hbind (.aggregate "Node" [])) rfl rfl hparams
      (.named (Nat.zero_le _) rfl) (performWithin 0) default _ List.mem_cons_self).1).mpr ⟨?_, nofun, nofun⟩
    intro n hn
    obtain rfl : n = "Node" := by simpa [SourceType.bareNames] using hn
    rintro (⟨hbound, -⟩ | ⟨-, halias⟩ | ⟨-, hcandidate, hne, -⟩)
    · cases hbound
    · cases halias
    · exact hne (List.mem_singleton.mp hcandidate)
  · intro h
    refine ((parameter_reads_argument_iff (i := 0) (hbind (.aggregate "U" [])) rfl rfl hparams
      (.named (Nat.zero_le _) rfl) (performWithin 0) default _ List.mem_cons_self).1.mp h).1 "U" ?_ ?_
    · simp [SourceType.bareNames]
    · exact .parameter rfl nofun

end UnitCompiler
