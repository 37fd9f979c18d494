import UnitCompiler.Proofs.Types.Signatures
import UnitCompiler.Types.Substitution

/-!
# Substituting twice

What a name is bound to may itself consist of bound names, since a bare name is a parameter whenever it is
bound.  Substituting a second time changes nothing exactly when no bound type has such a name in it.
-/

namespace UnitCompiler

namespace SourceType

mutual

/-- The bare names in the type, which substitution looks up among the bound types. -/
def bareNames : SourceType → List String
  | .void | .scalar _ | .templateParam _ => []
  | .pointer inner | .const inner | .array inner _ | .alias _ inner => bareNames inner
  | .aggregate name args => if args.isEmpty then [name] else argsBareNames args
  | .function ret params _ => bareNames ret ++ allBareNames params

def argBareNames : TemplateArg → List String
  | .type type => bareNames type
  | .value _ => []

def argsBareNames : List TemplateArg → List String
  | [] => []
  | arg :: rest => argBareNames arg ++ argsBareNames rest

def allBareNames : List SourceType → List String
  | [] => []
  | type :: rest => bareNames type ++ allBareNames rest

end

mutual

/-- The bare names that are template arguments in the type, which may also stand for values. -/
def argumentNames : SourceType → List String
  | .void | .scalar _ | .templateParam _ => []
  | .pointer inner | .const inner | .array inner _ | .alias _ inner => argumentNames inner
  | .aggregate _ args => argsArgumentNames args
  | .function ret params _ => argumentNames ret ++ allArgumentNames params

def argArgumentNames : TemplateArg → List String
  | .type type => (TemplateArg.type type).bareName?.toList ++ argumentNames type
  | .value _ => []

def argsArgumentNames : List TemplateArg → List String
  | [] => []
  | arg :: rest => argArgumentNames arg ++ argsArgumentNames rest

def allArgumentNames : List SourceType → List String
  | [] => []
  | type :: rest => argumentNames type ++ allArgumentNames rest

end

end SourceType

namespace Substitution

/-- A name that as a type stands for itself. -/
def KeepsName (s : Substitution) (name : String) : Prop :=
  ∀ bound, s.types.get? name = some bound → bound = .aggregate name []

/-- The names of a type stand for themselves, both as types and as template arguments. -/
structure Keeps (s : Substitution) (names arguments : List String) : Prop where
  types : ∀ name ∈ names, s.KeepsName name
  values : ∀ name ∈ arguments, s.values.get? name = none

theorem keeps_append {s : Substitution} {names names' arguments arguments' : List String} :
    s.Keeps (names ++ names') (arguments ++ arguments') ↔
      s.Keeps names arguments ∧ s.Keeps names' arguments' := by
  constructor
  · rintro ⟨htypes, hvalues⟩
    rw [List.forall_mem_append] at htypes hvalues
    exact ⟨⟨htypes.1, hvalues.1⟩, ⟨htypes.2, hvalues.2⟩⟩
  · rintro ⟨⟨htypes, hvalues⟩, ⟨htypes', hvalues'⟩⟩
    exact ⟨List.forall_mem_append.mpr ⟨htypes, htypes'⟩, List.forall_mem_append.mpr ⟨hvalues, hvalues'⟩⟩

theorem keeps_nil (s : Substitution) : s.Keeps [] [] := ⟨by simp, by simp⟩

theorem keepsName_iff {s : Substitution} {name : String} :
    s.KeepsName name ↔ (s.types.get? name).getD (.aggregate name []) = .aggregate name [] := by
  unfold KeepsName
  cases s.types.get? name with
  | none => simp
  | some bound => simp

end Substitution

namespace SourceType

variable {s : Substitution}

/-! ### Types that substitution leaves alone -/

theorem substituteArg_of_bareName? {type : SourceType} {name : String}
    (h : (TemplateArg.type type).bareName? = some name) :
    substituteArg s (.type type) =
      ((s.values.get? name).map TemplateArg.value).getD (.type (type.substitute s)) := by
  rw [substituteArg, h, Option.bind_some]
  cases s.values.get? name <;> rfl

theorem substituteArg_of_not_bare {type : SourceType} (h : (TemplateArg.type type).bareName? = none) :
    substituteArg s (.type type) = .type (type.substitute s) := by
  rw [substituteArg, h, Option.bind_none]

mutual

/-- A resolved type is left alone exactly when all its names stand for themselves. -/
theorem substitute_eq_self_iff (type : SourceType) (h : type.resolved = true) :
    type.substitute s = type ↔ s.Keeps type.bareNames type.argumentNames := by
  match type with
  | .void | .scalar _ => simp [substitute, bareNames, argumentNames, s.keeps_nil]
  | .pointer inner | .const inner | .alias _ inner =>
    simpa [substitute, bareNames, argumentNames] using substitute_eq_self_iff inner h
  | .array inner (.fixed length) =>
    simp only [resolved, Bool.and_eq_true] at h
    simpa [substitute, ArrayLength.substitute, bareNames, argumentNames] using
      substitute_eq_self_iff inner h.2
  | .aggregate name [] =>
    simp only [substitute, bareNames, argumentNames, argsArgumentNames, List.isEmpty_nil, if_true]
    rw [← Substitution.keepsName_iff]
    exact ⟨fun hname => ⟨by simpa using hname, by simp⟩, fun hkeeps => hkeeps.types name (by simp)⟩
  | .aggregate name (arg :: args) =>
    simpa [substitute, bareNames, argumentNames] using
      substituteArgs_eq_self_iff (arg :: args) h
  | .function ret params _ =>
    simp only [resolved, Bool.and_eq_true] at h
    simp only [substitute, bareNames, argumentNames, function.injEq, and_true]
    rw [Substitution.keeps_append, substitute_eq_self_iff ret h.1, substituteTypes_eq_self_iff params h.2]
termination_by structural type

theorem substituteArg_eq_self_iff (arg : TemplateArg) (h : argResolved arg = true) :
    substituteArg s arg = arg ↔ s.Keeps (argBareNames arg) (argArgumentNames arg) := by
  match arg with
  | .value _ => simp [substituteArg, argBareNames, argArgumentNames, s.keeps_nil]
  | .type type =>
    have hinner := substitute_eq_self_iff type h
    rw [argBareNames, argArgumentNames]
    cases hname : (TemplateArg.type type).bareName? with
    | none => simpa [substituteArg_of_not_bare hname] using hinner
    | some name =>
      rw [substituteArg_of_bareName? hname]
      cases hvalue : s.values.get? name with
      | none =>
        refine Iff.trans (by simp) (hinner.trans ⟨fun hkeeps => ⟨hkeeps.types, ?_⟩, fun hkeeps =>
          ⟨hkeeps.types, fun name' hname' => hkeeps.values name' (List.mem_append_right _ hname')⟩⟩)
        exact List.forall_mem_append.mpr ⟨by simpa using hvalue, hkeeps.values⟩
      | some value =>
        refine iff_of_false (by simp) fun hkeeps => ?_
        have hnone := hkeeps.values name (by simp)
        rw [hvalue] at hnone
        cases hnone
termination_by structural arg

theorem substituteArgs_eq_self_iff (args : List TemplateArg) (h : argsResolved args = true) :
    substituteArgs s args = args ↔ s.Keeps (argsBareNames args) (argsArgumentNames args) := by
  match args with
  | [] => simp [substituteArgs, argsBareNames, argsArgumentNames, s.keeps_nil]
  | arg :: rest =>
    simp only [argsResolved, Bool.and_eq_true] at h
    rw [substituteArgs, argsBareNames, argsArgumentNames, Substitution.keeps_append, List.cons.injEq,
      substituteArg_eq_self_iff arg h.1, substituteArgs_eq_self_iff rest h.2]
termination_by structural args

theorem substituteTypes_eq_self_iff (types : List SourceType) (h : allResolved types = true) :
    substituteTypes s types = types ↔ s.Keeps (allBareNames types) (allArgumentNames types) := by
  match types with
  | [] => simp [substituteTypes, allBareNames, allArgumentNames, s.keeps_nil]
  | type :: rest =>
    simp only [allResolved, Bool.and_eq_true] at h
    rw [substituteTypes, allBareNames, allArgumentNames, Substitution.keeps_append, List.cons.injEq,
      substitute_eq_self_iff type h.1, substituteTypes_eq_self_iff rest h.2]
termination_by structural types

end

end SourceType

/-! ### Substituting twice -/

theorem ArrayLength.substitute_substitute (s : Substitution) (length : ArrayLength) :
    (length.substitute s).substitute s = length.substitute s := by
  cases length with
  | fixed _ | expr _ => rfl
  | param name =>
    cases h : (s.values.get? name).bind ConstValue.toInt? <;> simp [substitute, h]

/-- What a name is bound to is left alone, also where the name was a template argument. -/
structure Substitution.Settles (s : Substitution) : Prop where
  type : ∀ {name bound}, s.types.get? name = some bound → bound.substitute s = bound
  arg : ∀ {name bound}, s.types.get? name = some bound → s.values.get? name = none →
    SourceType.substituteArg s (.type bound) = .type bound

namespace SourceType

variable {s : Substitution}

/-- A type other than a bare name is none after substitution either. -/
theorem bareName?_substitute {type : SourceType} (h : (TemplateArg.type type).bareName? = none) :
    (TemplateArg.type (type.substitute s)).bareName? = none := by
  match type with
  | .void | .scalar _ | .pointer _ | .const _ | .array .. | .function .. | .alias .. => rfl
  | .aggregate name (arg :: args) => rfl
  | .aggregate name [] | .templateParam name => cases h

mutual

theorem substitute_substitute (hs : s.Settles) (type : SourceType) :
    (type.substitute s).substitute s = type.substitute s := by
  match type with
  | .void | .scalar _ => rfl
  | .pointer inner | .const inner | .alias _ inner =>
    simp only [substitute, substitute_substitute hs inner]
  | .array inner length =>
    simp only [substitute, substitute_substitute hs inner, length.substitute_substitute s]
  | .templateParam name | .aggregate name [] =>
    simp only [substitute, List.isEmpty_nil, if_true]
    cases hbound : s.types.get? name with
    | none => simp [substitute, hbound]
    | some bound => exact hs.type hbound
  | .aggregate name (arg :: args) =>
    have hargs := substituteArgs_substituteArgs hs (arg :: args)
    simp only [substituteArgs] at hargs
    simp only [substitute, substituteArgs, List.isEmpty_cons, Bool.false_eq_true, if_false, hargs]
  | .function ret params _ =>
    simp only [substitute, substitute_substitute hs ret, substituteTypes_substituteTypes hs params]
termination_by structural type

theorem substituteArg_substituteArg (hs : s.Settles) (arg : TemplateArg) :
    substituteArg s (substituteArg s arg) = substituteArg s arg := by
  match arg with
  | .value _ => rfl
  | .type type =>
    have hinner := substitute_substitute hs type
    cases hname : (TemplateArg.type type).bareName? with
    | none =>
      rw [substituteArg_of_not_bare hname, substituteArg_of_not_bare (bareName?_substitute hname), hinner]
    | some name =>
      rw [substituteArg_of_bareName? hname]
      cases hvalue : s.values.get? name with
      | some value => rfl
      | none =>
        change substituteArg s (.type (type.substitute s)) = .type (type.substitute s)
        have htype : type.substitute s = (s.types.get? name).getD type := by
          match type with
          | .templateParam _ | .aggregate _ [] =>
            cases hname
            simp [substitute]
        cases hbound : s.types.get? name with
        | some bound =>
          rw [htype, hbound]
          exact hs.arg hbound hvalue
        | none =>
          rw [hbound] at htype
          rw [htype, Option.getD_none, substituteArg_of_bareName? hname, hvalue, htype]
          rfl
termination_by structural arg

theorem substituteArgs_substituteArgs (hs : s.Settles) (args : List TemplateArg) :
    substituteArgs s (substituteArgs s args) = substituteArgs s args := by
  match args with
  | [] => rfl
  | arg :: rest =>
    simp only [substituteArgs, substituteArg_substituteArg hs arg, substituteArgs_substituteArgs hs rest]
termination_by structural args

theorem substituteTypes_substituteTypes (hs : s.Settles) (types : List SourceType) :
    substituteTypes s (substituteTypes s types) = substituteTypes s types := by
  match types with
  | [] => rfl
  | type :: rest =>
    simp only [substituteTypes, substitute_substitute hs type, substituteTypes_substituteTypes hs rest]
termination_by structural types

end

end SourceType

/-- Substituting twice is the same as substituting once for every type exactly when every bound type is left
alone, both as a type and as the argument that a name stood for. -/
theorem Substitution.settles_iff {s : Substitution} : s.Settles ↔
    ∀ type : SourceType, (type.substitute s).substitute s = type.substitute s := by
  refine ⟨SourceType.substitute_substitute, fun h => ⟨fun {name bound} hbound => ?_,
    fun {name bound} hbound hvalue => ?_⟩⟩
  · have htwice := h (.templateParam name)
    simpa [SourceType.substitute, hbound] using htwice
  · have htwice := h (.aggregate "" [.type (.templateParam name)])
    have harg : SourceType.substituteArg s (.type (.templateParam name)) = .type bound := by
      rw [SourceType.substituteArg_of_bareName? rfl, hvalue]
      simp [SourceType.substitute, hbound]
    simpa [SourceType.substitute, SourceType.substituteArgs, harg] using htwice

/-- Let resolved types be bound.  Substituting twice is the same as substituting once, for every type,
exactly when no bound type has a name in it that is itself bound: no name that stands for another type, no
template argument that stands for a value, and, unless the name it is bound to stands for a value as well,
it is not such an argument itself. -/
theorem substitute_idempotent_iff (s : Substitution)
    (hresolved : ∀ name bound, s.types.get? name = some bound → bound.resolved = true) :
    (∀ type : SourceType, (type.substitute s).substitute s = type.substitute s) ↔
      ∀ name bound, s.types.get? name = some bound →
        (∀ inner ∈ bound.bareNames, ∀ other, s.types.get? inner = some other →
          other = .aggregate inner []) ∧
        (∀ inner ∈ bound.argumentNames, s.values.get? inner = none) ∧
        (s.values.get? name = none → ∀ inner, bound = .aggregate inner [] →
          s.values.get? inner = none) := by
  rw [← Substitution.settles_iff]
  constructor
  · intro h name bound hbound
    obtain ⟨htypes, hvalues⟩ :=
      (SourceType.substitute_eq_self_iff bound (hresolved name bound hbound)).mp (h.type hbound)
    refine ⟨htypes, hvalues, fun hname inner hinner => ?_⟩
    subst hinner
    obtain ⟨-, harg⟩ := (SourceType.substituteArg_eq_self_iff (.type (.aggregate inner [])) rfl).mp
      (h.arg hbound hname)
    exact harg inner (by simp [SourceType.argArgumentNames, TemplateArg.bareName?])
  · intro h
    refine ⟨fun {name bound} hbound => ?_, fun {name bound} hbound hname => ?_⟩
    · obtain ⟨htypes, hvalues, -⟩ := h name bound hbound
      exact (SourceType.substitute_eq_self_iff bound (hresolved name bound hbound)).mpr ⟨htypes, hvalues⟩
    · obtain ⟨htypes, hvalues, hbare⟩ := h name bound hbound
      refine (SourceType.substituteArg_eq_self_iff (.type bound) (hresolved name bound hbound)).mpr
        ⟨htypes, List.forall_mem_append.mpr ⟨fun inner hinner => hbare hname inner ?_, hvalues⟩⟩
      have hres := hresolved name bound hbound
      match bound with
      | .aggregate inner' [] =>
        rw [TemplateArg.bareName?, Option.mem_toList] at hinner
        cases hinner
        rfl
      | .templateParam _ => cases hres

/-- Two parameters, the first of which stands for the given type. -/
def Substitution.pairing (first : SourceType) : Substitution :=
  (({} : Substitution).bindType "T" first).bindType "U" .long |>.bindValue "N" (.int 4 .int)

theorem Substitution.get?_pairing {first bound : SourceType} {name : String}
    (h : (pairing first).types.get? name = some bound) :
    name = "U" ∧ bound = .long ∨ name = "T" ∧ bound = first := by
  simp only [pairing, bindType, bindValue, Table.get?_insert] at h
  split_ifs at h with hU hT
  · exact .inl ⟨hU.symm, (Option.some.inj h).symm⟩
  · exact .inr ⟨hT.symm, (Option.some.inj h).symm⟩
  · cases h

/-- With a pointer to an unbound aggregate in it, a substitution may be applied again; with the name of the
other parameter it may not. -/
theorem substitute_idempotent_of_pairing :
    (∀ type : SourceType, (type.substitute (.pairing (.pointer (.aggregate "Node" [])))).substitute
      (.pairing (.pointer (.aggregate "Node" []))) =
        type.substitute (.pairing (.pointer (.aggregate "Node" [])))) ∧
    ¬ ∀ type : SourceType, (type.substitute (.pairing (.aggregate "U" []))).substitute
      (.pairing (.aggregate "U" [])) = type.substitute (.pairing (.aggregate "U" [])) := by
  constructor
  · refine (substitute_idempotent_iff _ fun name bound h => ?_).mpr fun name bound h => ?_
    · obtain ⟨-, rfl⟩ | ⟨-, rfl⟩ := Substitution.get?_pairing h <;> rfl
    · obtain ⟨-, rfl⟩ | ⟨-, rfl⟩ := Substitution.get?_pairing h
      · exact ⟨by simp [SourceType.long, SourceType.bareNames],
          by simp [SourceType.long, SourceType.argumentNames], nofun⟩
      · refine ⟨fun inner hinner other hother => ?_, by decide, nofun⟩
        obtain rfl : inner = "Node" := by simpa [SourceType.bareNames] using hinner
        obtain ⟨hname, -⟩ | ⟨hname, -⟩ := Substitution.get?_pairing hother <;> simp at hname
  · intro h
    obtain ⟨hnames, -⟩ := (substitute_idempotent_iff _ fun name bound h => by
      obtain ⟨-, rfl⟩ | ⟨-, rfl⟩ := Substitution.get?_pairing h <;> rfl).mp h "T" _ rfl
    exact nomatch hnames "U" (by simp [SourceType.bareNames]) .long rfl

end UnitCompiler
