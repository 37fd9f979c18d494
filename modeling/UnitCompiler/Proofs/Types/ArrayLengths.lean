import UnitCompiler.Proofs.Phases.Declarations

/-!
# Array lengths

The length of an array is written as a number, as a template value or as an expression.  Reading a type
puts a number in its place: the written one, or as much of the value as an unsigned number of 64 bits
holds.  The value of an expression must not be negative, while a negative template value counts as zero.
-/

namespace UnitCompiler

/-- The unsigned number of 64 bits that is kept for an integer. -/
structure KeptAs (z : Int) (n : Nat) : Prop where
  exact : 0 ≤ z → z < 2 ^ 64 → n = z
  negative : z < 0 → n = 0
  large : 2 ^ 64 ≤ z → n = z % 2 ^ 64

theorem keptAs_toU64 (z : Int) : KeptAs z (toU64 (max z 0)) := by
  unfold toU64
  constructor <;> intros <;> omega

/-- The number that an array gets for its written length, under the template values of a context. -/
inductive LengthReadAs (p : Performer) (c : Context) : ArrayLength → Nat → Prop where
  | fixed (n : Nat) : LengthReadAs p c (.fixed n) n
  | bound {name : String} {v : ConstValue} {z : Int} {n : Nat}
      (hv : c.subst.values.get? name = some v) (hz : v.toInt? = some z) (hn : KeptAs z n) :
      LengthReadAs p c (.param name) n
  | folded {node : NodeId} {v : ConstValue} {z : Int} {n : Nat} {c₁ c₂ : Context} (hlater : c.Later c₁)
      (hrun : p (.fold node) c₁ = .ok (some v) c₂) (hz : v.toInt? = some z) (hnonneg : 0 ≤ z)
      (hn : KeptAs z n) : LengthReadAs p c (.expr node) n

mutual

/-- What a written type is read as when a substitution is in force: names that it binds stand for what is
bound, all others for what the tables know, and every array has a number as its length. -/
inductive ReadAs (p : Performer) (c : Context) : Substitution → SourceType → SourceType → Prop where
  | void {s : Substitution} : ReadAs p c s .void .void
  | scalar {s : Substitution} (kind : Scalar) : ReadAs p c s (.scalar kind) (.scalar kind)
  | pointer {s : Substitution} {inner type : SourceType} :
    ReadAs p c s inner type → ReadAs p c s (.pointer inner) (.pointer type)
  | const {s : Substitution} {inner type : SourceType} :
    ReadAs p c s inner type → ReadAs p c s (.const inner) (.const type)
  | array {s : Substitution} {inner type : SourceType} {length : ArrayLength} {n : Nat} :
    ReadAs p c s inner type → LengthReadAs p c length n →
    ReadAs p c s (.array inner length) (.array type (.fixed n))
  | function {s : Substitution} {ret type : SourceType} {params types : List SourceType}
    (isVariadic : Bool) : ReadAs p c s ret type → AllReadAs p c s params types →
    ReadAs p c s (.function ret params isVariadic) (.function type types isVariadic)
  | «alias» {s : Substitution} (name : String) {target type : SourceType} :
    ReadAs p c s target type → ReadAs p c s (.alias name target) (.alias name type)
  | parameter {s : Substitution} {name : String} {bound type : SourceType} :
    s.types.get? name = some bound → ReadAs p c {} bound type → ReadAs p c s (.templateParam name) type
  | boundName {s : Substitution} {name : String} {bound type : SourceType} :
    s.types.get? name = some bound → ReadAs p c {} bound type → ReadAs p c s (.aggregate name []) type
  | named {s : Substitution} {name : String} {type : SourceType} {c₁ : Context} :
    s.types.get? name = none → c.Later c₁ → c₁.resolveNamed name = .ok type →
    ReadAs p c s (.aggregate name []) type
  | generic {s : Substitution} {name : String} {arg : TemplateArg} {args args' : List TemplateArg}
    (qualified : String) : ArgsReadAs p c s (arg :: args) args' →
    ReadAs p c s (.aggregate name (arg :: args)) (.aggregate qualified args')

inductive AllReadAs (p : Performer) (c : Context) :
    Substitution → List SourceType → List SourceType → Prop where
  | nil {s : Substitution} : AllReadAs p c s [] []
  | cons {s : Substitution} {written type : SourceType} {rest types : List SourceType} :
    ReadAs p c s written type → AllReadAs p c s rest types →
    AllReadAs p c s (written :: rest) (type :: types)

/-- A bare name among the arguments may stand for a value. -/
inductive ArgReadAs (p : Performer) (c : Context) :
    Substitution → TemplateArg → TemplateArg → Prop where
  | value {s : Substitution} (v : ConstValue) : ArgReadAs p c s (.value v) (.value v)
  | boundValue {s : Substitution} {arg : TemplateArg} {name : String} {v : ConstValue} :
    arg.bareName? = some name → s.values.get? name = some v → ArgReadAs p c s arg (.value v)
  | namedValue {s : Substitution} {written : SourceType} {name : String} {v : ConstValue} {c₁ : Context} :
    (written.substitute s).bareName? = some name → c.Later c₁ → c₁.valueAlias? name = some v →
    ArgReadAs p c s (.type written) (.value v)
  | type {s : Substitution} {written type : SourceType} :
    ReadAs p c s written type → ArgReadAs p c s (.type written) (.type type)

inductive ArgsReadAs (p : Performer) (c : Context) :
    Substitution → List TemplateArg → List TemplateArg → Prop where
  | nil {s : Substitution} : ArgsReadAs p c s [] []
  | cons {s : Substitution} {arg arg' : TemplateArg} {args args' : List TemplateArg} :
    ArgReadAs p c s arg arg' → ArgsReadAs p c s args args' →
    ArgsReadAs p c s (arg :: args) (arg' :: args')

end

variable {p : Performer} {c : Context}

/-! ### Substitution -/

/-- A bound length is read as the number that substitution puts in its place. -/
theorem lengthReadAs_of_substitute {length : ArrayLength} {n : Nat}
    (h : LengthReadAs p c (length.substitute c.subst) n) : LengthReadAs p c length n := by
  cases length with
  | fixed k => exact h
  | expr node => exact h
  | param name =>
    simp only [ArrayLength.substitute] at h
    cases hz : (c.subst.values.get? name).bind ConstValue.toInt? with
    | none =>
      rw [hz] at h
      exact h
    | some z =>
      rw [hz] at h
      cases h
      obtain ⟨v, hv, hz⟩ := Option.bind_eq_some_iff.mp hz
      exact .bound hv hz (keptAs_toU64 z)

theorem eq_of_bareName? {type : SourceType} {name : String} (h : type.bareName? = some name) :
    type = .aggregate name [] := by
  cases type with
  | aggregate name' args =>
    cases args with
    | nil =>
      cases h
      rfl
    | cons => cases h
  | _ => cases h

theorem bareName?_substitute_empty (type : SourceType) :
    (type.substitute {}).bareName? = type.bareName? := by
  cases type with
  | aggregate name args =>
    cases args <;> rw [SourceType.substitute] <;> rfl
  | _ => rw [SourceType.substitute] <;> rfl

mutual

theorem readAs_of_substitute {written type : SourceType}
    (h : ReadAs p c {} (written.substitute c.subst) type) : ReadAs p c c.subst written type := by
  match written with
  | .void | .scalar _ =>
    rw [SourceType.substitute] at h
    cases h
    constructor
  | .pointer inner =>
    rw [SourceType.substitute] at h
    cases h with
    | pointer h => exact .pointer (readAs_of_substitute h)
  | .const inner =>
    rw [SourceType.substitute] at h
    cases h with
    | const h => exact .const (readAs_of_substitute h)
  | .alias name target =>
    rw [SourceType.substitute] at h
    cases h with
    | «alias» _ h => exact .alias name (readAs_of_substitute h)
  | .array inner length =>
    rw [SourceType.substitute] at h
    generalize hlength : length.substitute c.subst = length' at h
    cases h with
    | array h hn => exact .array (readAs_of_substitute h) (lengthReadAs_of_substitute (hlength ▸ hn))
  | .function ret params isVariadic =>
    rw [SourceType.substitute] at h
    cases h with
    | function _ hret hparams =>
      exact .function isVariadic (readAs_of_substitute hret) (allReadAs_of_substitute hparams)
  | .templateParam name =>
    rw [SourceType.substitute] at h
    cases hbound : c.subst.types.get? name with
    | some bound =>
      rw [hbound] at h
      exact .parameter hbound h
    | none =>
      rw [hbound] at h
      cases h with
      | parameter hnone _ => cases hnone
  | .aggregate name [] =>
    rw [SourceType.substitute] at h
    cases hbound : c.subst.types.get? name with
    | some bound =>
      rw [hbound] at h
      exact .boundName hbound h
    | none =>
      rw [hbound] at h
      cases h with
      | boundName hsome _ => cases hsome
      | named _ hlater htype => exact .named hbound hlater htype
  | .aggregate name (arg :: args) =>
    rw [SourceType.substitute, SourceType.substituteArgs] at h
    cases h with
    | generic qualified h =>
      cases h with
      | cons harg hargs =>
        exact .generic qualified (.cons (argReadAs_of_substitute harg) (argsReadAs_of_substitute hargs))
termination_by structural written

theorem allReadAs_of_substitute {written types : List SourceType}
    (h : AllReadAs p c {} (SourceType.substituteTypes c.subst written) types) :
    AllReadAs p c c.subst written types := by
  match written with
  | [] =>
    rw [SourceType.substituteTypes] at h
    cases h
    exact .nil
  | first :: rest =>
    rw [SourceType.substituteTypes] at h
    cases h with
    | cons hfirst hrest => exact .cons (readAs_of_substitute hfirst) (allReadAs_of_substitute hrest)
termination_by structural written

theorem argReadAs_of_substitute {written arg : TemplateArg}
    (h : ArgReadAs p c {} (SourceType.substituteArg c.subst written) arg) :
    ArgReadAs p c c.subst written arg := by
  match written with
  | .value v =>
    rw [SourceType.substituteArg] at h
    cases h with
    | value _ => exact .value v
    | boundValue hname _ => cases hname
  | .type type =>
    rw [SourceType.substituteArg] at h
    cases hbound : (TemplateArg.type type).bareName?.bind c.subst.values.get? with
    | some v =>
      rw [hbound] at h
      obtain ⟨name, hname, hv⟩ := Option.bind_eq_some_iff.mp hbound
      cases h with
      | value _ => exact .boundValue hname hv
      | boundValue hname _ => cases hname
    | none =>
      rw [hbound] at h
      cases h with
      | boundValue _ hnone => cases hnone
      | namedValue hname hlater hv =>
        rw [bareName?_substitute_empty] at hname
        exact .namedValue hname hlater hv
      | type h => exact .type (readAs_of_substitute h)
termination_by structural written

theorem argsReadAs_of_substitute {written args : List TemplateArg}
    (h : ArgsReadAs p c {} (SourceType.substituteArgs c.subst written) args) :
    ArgsReadAs p c c.subst written args := by
  match written with
  | [] =>
    rw [SourceType.substituteArgs] at h
    cases h
    exact .nil
  | first :: rest =>
    rw [SourceType.substituteArgs] at h
    cases h with
    | cons hfirst hrest => exact .cons (argReadAs_of_substitute hfirst) (argsReadAs_of_substitute hrest)
termination_by structural written

end

/-! ### Resolution -/

namespace CompileM

variable {location : Location} {c₁ c₂ : Context}

theorem resolveNamed_eq_ok {name : String} {type : SourceType}
    (h : resolveNamed name location p c₁ = .ok type c₂) : c₁.resolveNamed name = .ok type :=
  (orBail_eq_ok h).2

theorem readAs_of_resolveNamed {name : String} {type : SourceType} (hlater : c.Later c₁)
    (h : resolveNamed name location p c₁ = .ok type c₂) : ReadAs p c {} (.aggregate name []) type :=
  .named rfl hlater (resolveNamed_eq_ok h)

theorem lengthOfValue_eq_ok {v : ConstValue} {n : Nat}
    (h : resolveLength.ofValue location v p c₁ = .ok n c₂) :
    ∃ z, v.toInt? = some z ∧ 0 ≤ z ∧ KeptAs z n := by
  unfold resolveLength.ofValue at h
  cases hz : v.toInt? with
  | none =>
    rw [hz] at h
    cases h
  | some z =>
    rw [hz] at h
    simp only at h
    split_ifs at h with hnonneg
    · cases h
      refine ⟨z, rfl, hnonneg, ?_⟩
      have hkept := keptAs_toU64 z
      rwa [max_eq_left hnonneg] at hkept
    · cases h

theorem foldRequired_eq_ok {node : NodeId} {what : String} {v : ConstValue}
    (h : foldRequired node what p c₁ = .ok v c₂) : p (.fold node) c₁ = .ok (some v) c₂ := by
  unfold foldRequired at h
  obtain ⟨result, c₃, hfold, h⟩ := bind_eq_ok.mp h
  cases result with
  | none =>
    obtain ⟨location, c₄, -, h⟩ := bind_eq_ok.mp h
    cases h
  | some v' =>
    cases h
    exact hfold

theorem lengthReadAs_of_resolveLength {length : ArrayLength} {n : Nat} (hlater : c.Later c₁)
    (h : resolveLength location length p c₁ = .ok n c₂) : LengthReadAs p c length n := by
  cases length with
  | fixed k =>
    cases h
    exact .fixed _
  | param name =>
    unfold resolveLength at h
    simp only at h
    rw [bind_of_eq_ok (get_apply p c₁), hlater.subst] at h
    cases hv : c.subst.values.get? name with
    | none =>
      rw [hv] at h
      cases h
    | some v =>
      rw [hv] at h
      obtain ⟨z, hz, -, hn⟩ := lengthOfValue_eq_ok h
      exact .bound hv hz hn
  | expr node =>
    obtain ⟨v, c₃, hfold, h⟩ := bind_eq_ok.mp h
    obtain ⟨z, hz, hnonneg, hn⟩ := lengthOfValue_eq_ok h
    exact .folded hlater (foldRequired_eq_ok hfold) hz hnonneg hn

theorem checkDepth_eq_ok {depth : Nat} (h : checkDepth location depth p c₁ = .ok () c₂) : c₂ = c₁ := by
  unfold checkDepth at h
  split_ifs at h <;> cases h
  rfl

mutual

/-- A type is read part by part, each part in a later context than the one before. -/
theorem readAs_of_resolveAt [p.Leads] {written type : SourceType} {depth : Nat} {c₁ c₂ : Context}
    (hlater : c.Later c₁) (h : resolveAt location written depth p c₁ = .ok type c₂) :
    ReadAs p c {} written type := by
  match written with
  | .void | .scalar _ =>
    rw [resolveAt] at h
    obtain ⟨⟨⟩, c₃, -, h⟩ := bind_eq_ok.mp h
    cases h
    constructor
  | .pointer inner =>
    rw [resolveAt] at h
    obtain ⟨⟨⟩, c₃, hdepth, h⟩ := bind_eq_ok.mp h
    obtain ⟨inner', c₄, hinner, h⟩ := bind_eq_ok.mp h
    rw [checkDepth_eq_ok hdepth] at hinner
    cases h
    exact .pointer (readAs_of_resolveAt hlater hinner)
  | .const inner =>
    rw [resolveAt] at h
    obtain ⟨⟨⟩, c₃, hdepth, h⟩ := bind_eq_ok.mp h
    obtain ⟨inner', c₄, hinner, h⟩ := bind_eq_ok.mp h
    rw [checkDepth_eq_ok hdepth] at hinner
    cases h
    exact .const (readAs_of_resolveAt hlater hinner)
  | .alias name target =>
    rw [resolveAt] at h
    obtain ⟨⟨⟩, c₃, hdepth, h⟩ := bind_eq_ok.mp h
    obtain ⟨target', c₄, htarget, h⟩ := bind_eq_ok.mp h
    rw [checkDepth_eq_ok hdepth] at htarget
    cases h
    exact .alias name (readAs_of_resolveAt hlater htarget)
  | .array inner length =>
    rw [resolveAt] at h
    obtain ⟨⟨⟩, c₃, hdepth, h⟩ := bind_eq_ok.mp h
    obtain ⟨inner', c₄, hinner, h⟩ := bind_eq_ok.mp h
    obtain ⟨n, c₅, hlength, h⟩ := bind_eq_ok.mp h
    rw [checkDepth_eq_ok hdepth] at hinner
    cases h
    have hleads : Leads p (resolveAt location inner (depth + 1)) := Discipline.Holds.resolveAt _ _ _
    have hlater' := (hleads.endsIn hlater).of_ok hinner
    exact .array (readAs_of_resolveAt hlater hinner) (lengthReadAs_of_resolveLength hlater' hlength)
  | .function ret params isVariadic =>
    rw [resolveAt] at h
    obtain ⟨⟨⟩, c₃, hdepth, h⟩ := bind_eq_ok.mp h
    obtain ⟨ret', c₄, hret, h⟩ := bind_eq_ok.mp h
    obtain ⟨params', c₅, hparams, h⟩ := bind_eq_ok.mp h
    rw [checkDepth_eq_ok hdepth] at hret
    cases h
    have hleads : Leads p (resolveAt location ret (depth + 1)) := Discipline.Holds.resolveAt _ _ _
    have hlater' := (hleads.endsIn hlater).of_ok hret
    exact .function isVariadic (readAs_of_resolveAt hlater hret) (allReadAs_of_resolveAll hlater' hparams)
  | .templateParam name =>
    rw [resolveAt] at h
    obtain ⟨⟨⟩, c₃, -, h⟩ := bind_eq_ok.mp h
    cases h
  | .aggregate name [] =>
    rw [resolveAt] at h
    obtain ⟨⟨⟩, c₃, hdepth, h⟩ := bind_eq_ok.mp h
    rw [checkDepth_eq_ok hdepth] at h
    exact readAs_of_resolveNamed hlater h
  | .aggregate name (arg :: args) =>
    rw [resolveAt] at h
    obtain ⟨⟨⟩, c₃, hdepth, h⟩ := bind_eq_ok.mp h
    obtain ⟨args', c₄, hargs, h⟩ := bind_eq_ok.mp h
    obtain ⟨qualified, c₅, -, h⟩ := bind_eq_ok.mp h
    rw [checkDepth_eq_ok hdepth] at hargs
    cases h
    exact .generic qualified (argsReadAs_of_resolveArgs hlater hargs)
termination_by structural written

theorem allReadAs_of_resolveAll [p.Leads] {written types : List SourceType} {depth : Nat} {c₁ c₂ : Context}
    (hlater : c.Later c₁) (h : resolveAll location written depth p c₁ = .ok types c₂) :
    AllReadAs p c {} written types := by
  match written with
  | [] =>
    rw [resolveAll] at h
    cases h
    exact .nil
  | first :: rest =>
    rw [resolveAll] at h
    obtain ⟨first', c₃, hfirst, h⟩ := bind_eq_ok.mp h
    obtain ⟨rest', c₄, hrest, h⟩ := bind_eq_ok.mp h
    cases h
    have hleads : Leads p (resolveAt location first depth) := Discipline.Holds.resolveAt _ _ _
    have hlater' := (hleads.endsIn hlater).of_ok hfirst
    exact .cons (readAs_of_resolveAt hlater hfirst) (allReadAs_of_resolveAll hlater' hrest)
termination_by structural written

theorem argReadAs_of_resolveArg [p.Leads] {written arg : TemplateArg} {depth : Nat} {c₁ c₂ : Context}
    (hlater : c.Later c₁) (h : resolveArg location written depth p c₁ = .ok arg c₂) :
    ArgReadAs p c {} written arg := by
  match written with
  | .value v =>
    rw [resolveArg] at h
    cases h
    exact .value v
  | .type type =>
    rw [resolveArg] at h
    cases hname : type.bareName? with
    | none =>
      rw [hname] at h
      obtain ⟨type', c₃, htype, h⟩ := bind_eq_ok.mp h
      cases h
      exact .type (readAs_of_resolveAt hlater htype)
    | some name =>
      rw [hname] at h
      simp only at h
      rw [bind_of_eq_ok (get_apply p c₁)] at h
      cases hv : c₁.valueAlias? name with
      | some v =>
        rw [hv] at h
        cases h
        exact .namedValue ((bareName?_substitute_empty type).trans hname) hlater hv
      | none =>
        rw [hv] at h
        obtain ⟨type', c₃, htype, h⟩ := bind_eq_ok.mp h
        cases h
        obtain rfl := eq_of_bareName? hname
        exact .type (readAs_of_resolveNamed hlater htype)
termination_by structural written

theorem argsReadAs_of_resolveArgs [p.Leads] {written args : List TemplateArg} {depth : Nat} {c₁ c₂ : Context}
    (hlater : c.Later c₁) (h : resolveArgs location written depth p c₁ = .ok args c₂) :
    ArgsReadAs p c {} written args := by
  match written with
  | [] =>
    rw [resolveArgs] at h
    cases h
    exact .nil
  | first :: rest =>
    rw [resolveArgs] at h
    obtain ⟨first', c₃, hfirst, h⟩ := bind_eq_ok.mp h
    obtain ⟨rest', c₄, hrest, h⟩ := bind_eq_ok.mp h
    cases h
    have hleads : Leads p (resolveArg location first depth) := Discipline.Holds.resolveArg _ _ _
    have hlater' := (hleads.endsIn hlater).of_ok hfirst
    exact .cons (argReadAs_of_resolveArg hlater hfirst) (argsReadAs_of_resolveArgs hlater' hrest)
termination_by structural written

end

/-- A type that is resolved has a number as the length of each of its arrays: the written number, or what an
unsigned number of 64 bits holds of the value that the written length has.  The value of an expression is
not negative. -/
theorem resolveType_reads_lengths {d : Nat} {written type : SourceType} {location : Location}
    {c c' : Context} (h : resolveType written location (performWithin d) c = .ok type c') :
    ReadAs (performWithin d) c c.subst written type := by
  have := Leads.performWithin d
  unfold resolveType at h
  rw [bind_of_eq_ok (get_apply _ c)] at h
  exact readAs_of_substitute (readAs_of_resolveAt (.refl c) h)

/-- An instance for minus one. -/
def negativeInstance : Context where
  tree := { nodes := #[] }
  subst := { values := ⟨[("N", .int (-1) .int)]⟩ }

/-- An array of minus one elements is read as one without elements. -/
theorem resolveType_reads_negative : ∃ c',
    resolveType (.array .int (.param "N")) default (performWithin 0) negativeInstance =
      .ok (.array .int (.fixed 0)) c' ∧
    ReadAs (performWithin 0) negativeInstance negativeInstance.subst (.array .int (.param "N"))
      (.array .int (.fixed 0)) := by
  have hrun : resolveType (.array .int (.param "N")) default (performWithin 0) negativeInstance =
      .ok (.array .int (.fixed 0)) negativeInstance := by
    rfl
  exact ⟨_, hrun, resolveType_reads_lengths hrun⟩

end CompileM
end UnitCompiler
