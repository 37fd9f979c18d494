import UnitCompiler.Proofs.Compile.Operations

/-!
# Variables

Where the names of an expression lead: the places of variables, the numbers in them, and the code that
reads them.
-/

namespace UnitCompiler
open Machine

/-- The place of the global variable with a name. -/
def Context.globalPlace? (c : Context) (name : String) : Option Place :=
  (c.global? name).bind fun g =>
    match c.symbols.lower g.type with
    | .ok machine =>
      some ⟨if g.isConst && !g.type.isConst then .const g.type else g.type,
        .global g.linkName machine⟩
    | .error _ => none

/-- The place that the name of a variable stands for. -/
def Context.place? (c : Context) (name : String) : Option Place :=
  (c.function.bind fun f => findPlace f.scope.places name).or (c.globalPlace? name)

theorem Follows.place? {c c' : Context} {b b' : FunctionBuilder} (h : Follows c c' b b')
    (name : String) : c'.place? name = c.place? name := by
  obtain ⟨F, scope, hF, hb, rfl, hplaces⟩ := h.state
  have hfunction := Context.function_advance hF b' scope
  unfold Context.place?
  rw [hfunction, hF]
  simp only [Option.bind_some, hplaces]
  rfl

/-- The number in the cell that a slot points to. -/
def Sees (i : Image) (frame : Machine.Frame) (m : Memory) (slot : Operand) (x : IntValue) : Prop :=
  ∃ a, i.eval frame slot = .ok (.ptr a) ∧ Holds m a x

theorem Sees.mono {i : Image} {frame frame' : Machine.Frame} {m m' : Memory} {slot : Operand}
    {x : IntValue} {lo hi : Nat} (h : Sees i frame m slot x) (hslot : slot.Below lo)
    (hframe : Agrees lo hi frame frame') (hm : Grows m m') : Sees i frame' m' slot x := by
  obtain ⟨a, ha, hx⟩ := h
  refine ⟨a, (hframe.eval i ?_).trans ha, hm.holds hx⟩
  rintro r rfl
  exact Or.inl hslot

/-- The names stand for integer variables, whose slots are there before the builder goes on. -/
def Typed (c : Context) (b : FunctionBuilder) (names : List String) : Prop :=
  ∀ name ∈ names, ∃ place k, c.place? name = some place ∧ place.type.strip = .scalar k ∧
    k.isInteger = true ∧ place.address.Below b.nextValue

theorem Typed.follows {c c' : Context} {b b' : FunctionBuilder} {names : List String}
    (h : Typed c b names) (hf : Follows c c' b b') : Typed c' b' names := by
  intro name hname
  obtain ⟨place, k, hplace, hk, hint, hbelow⟩ := h name hname
  exact ⟨place, k, (hf.place? name).trans hplace, hk, hint, hbelow.mono hf.continues.value⟩

theorem Typed.subset {c : Context} {b : FunctionBuilder} {names names' : List String}
    (h : Typed c b names) (hsub : ∀ name ∈ names', name ∈ names) : Typed c b names' :=
  fun name hname => h name (hsub name hname)

/-- The variables with the names have the values that `ρ` gives. -/
def Provides (c : Context) (A : Activation) (frame : Machine.Frame) (m : Memory)
    (ρ : String → IntValue) (names : List String) : Prop :=
  ∀ name ∈ names, ∃ place, c.place? name = some place ∧
    place.type.strip = .scalar (ρ name).kind ∧ Sees A.image frame m place.address (ρ name)

theorem Provides.follows {c c' : Context} {b b' : FunctionBuilder} {A : Activation}
    {frame : Machine.Frame} {m : Memory} {ρ : String → IntValue} {names : List String}
    (h : Provides c A frame m ρ names) (hf : Follows c c' b b') : Provides c' A frame m ρ names := by
  intro name hname
  obtain ⟨place, hplace, hrest⟩ := h name hname
  exact ⟨place, (hf.place? name).trans hplace, hrest⟩

theorem Provides.mono {c c' : Context} {b b' : FunctionBuilder} {A : Activation}
    {frame frame' : Machine.Frame} {m m' : Memory} {ρ : String → IntValue} {names names' : List String}
    (h : Provides c A frame m ρ names) (hsub : ∀ name ∈ names', name ∈ names)
    (ht : Typed c b names) (hf : Follows c c' b b') {hi : Nat}
    (hframe : Agrees b.nextValue hi frame frame') (hm : Grows m m') :
    Provides c' A frame' m' ρ names' := by
  intro name hname
  obtain ⟨place, hplace, htype, hsees⟩ := h name (hsub name hname)
  obtain ⟨place', k, hplace', -, -, hbelow⟩ := ht name (hsub name hname)
  cases hplace.symm.trans hplace'
  exact ⟨place, (hf.place? name).trans hplace, htype, hsees.mono hbelow hframe hm⟩

/-- A type that is a number below its qualifiers has that number's machine type. -/
theorem SourceType.lower_of_strip {k : Scalar} {type : SourceType} (h : type.strip = .scalar k)
    (s : SymbolTables) : s.lower type = .ok k.machineType := by
  match type with
  | .scalar _ =>
    cases h
    rfl
  | .const inner => exact lower_of_strip (show inner.strip = .scalar k from h) s
  | .alias _ inner => exact lower_of_strip (show inner.strip = .scalar k from h) s

theorem Context.isVariable_of_place? {c : Context} {name : String} {place : Place}
    (h : c.place? name = some place) : c.isVariable name = true := by
  unfold Context.isVariable Context.localVar?
  rcases Option.or_eq_some_iff.mp h with hlocal | ⟨-, hglobal⟩
  · obtain ⟨F, hF, hplace⟩ := Option.bind_eq_some_iff.mp hlocal
    rw [← Scope.map_lookup] at hplace
    obtain ⟨v, hv, -⟩ := Option.map_eq_some_iff.mp hplace
    simp [hF, hv]
  · obtain ⟨g, hg, -⟩ := Option.bind_eq_some_iff.mp hglobal
    simp [hg]

/-- Code behind actions that emit none. -/
theorem Follows.emits {c c₁ c₂ : Context} {b b' : FunctionBuilder} {o : Operand} {k : Scalar}
    {Fit : Activation → Machine.Frame → State → Option IntValue → Prop} (h : Follows c c₁ b b)
    (e : Emits c₁ c₂ b b' o k Fit) : Emits c c₂ b b' o k Fit :=
  ⟨h.trans e.follows, e.below, e.kind, e.computes⟩

namespace CompileM

variable {p : Performer} {c c' : Context} {b : FunctionBuilder} {location : Location}

/-- The place of a variable is found, and nothing but its use is noted. -/
theorem variablePlace_apply (location : Location) (p : Performer) {F : FunctionState} {name : String}
    {place : Place} (hF : c.function = some F) (h : c.place? name = some place) :
    ∃ scope, scope.places = F.scope.places ∧
      variablePlace name location p c = .ok place (c.advance F.builder scope) := by
  unfold variablePlace
  rw [bind_of_eq_ok (functionState_apply hF)]
  unfold Context.place? at h
  rw [hF, Option.bind_some, ← Scope.map_lookup] at h
  cases hlocal : F.scope.lookup name with
  | some v =>
    simp only [hlocal, Option.map_some, Option.some_or, Option.some.injEq] at h
    subst h
    refine ⟨F.scope.markUsed name, Scope.places_markUsed _ _, ?_⟩
    simp only
    rw [bind_of_eq_ok (setFunctionState_apply _ p c)]
    simp [Context.advance, hF]
  | none =>
    simp only [hlocal, Option.map_none, Option.none_or] at h
    refine ⟨F.scope, rfl, ?_⟩
    rw [Context.advance_self hF]
    obtain ⟨g, hg, h⟩ := Option.bind_eq_some_iff.mp h
    simp only
    rw [bind_of_eq_ok (get_apply p c), hg]
    cases hlower : c.symbols.lower g.type with
    | error problem => simp [hlower] at h
    | ok machine =>
      simp only [hlower, Option.some.injEq] at h
      have hrun : lower g.type location p c = .ok machine c := by
        unfold lower
        rw [bind_of_eq_ok (get_apply p c), hlower]
        rfl
      simp only
      rw [bind_of_eq_ok hrun, ← h]
      rfl

theorem variablePlace_spec {name : String} {place : Place} (hr : Ready c b)
    (h : c.place? name = some place) :
    ∃ c', variablePlace name location p c = .ok place c' ∧ Follows c c' b b := by
  obtain ⟨F, hF, rfl⟩ := hr.function
  obtain ⟨scope, hplaces, hrun⟩ := variablePlace_apply location p hF h
  exact ⟨_, hrun, ⟨F, scope, hF, rfl, rfl, hplaces⟩, .refl hr.sound (List.mem_singleton_self _), hr.isOpen⟩

/-- Reading a variable of an integer kind. -/
theorem loadPlace_spec {place : Place} {k : Scalar} {value : Rvalue} (hr : Ready c b)
    (hk : k.isInteger = true) (htype : place.type.strip = .scalar k)
    (h : loadPlace place location p c = .ok value c') :
    value.type = .scalar k ∧ ∃ b', Emits c c' b b' value.operand k fun A frame s v =>
      ∃ x, Sees A.image frame s.memory place.address x ∧ x.kind = k ∧ v = some x := by
  have hlower : lower place.type location p c = .ok k.machineType c := by
    unfold lower
    rw [bind_of_eq_ok (get_apply p c), SourceType.lower_of_strip htype]
    rfl
  simp only [loadPlace, htype] at h
  rw [bind_of_eq_ok hlower] at h
  obtain ⟨o, c₁, hpush, hpure⟩ := bind_eq_ok.mp h
  cases hpure
  refine ⟨rfl, _, emits_push hr hk hpush ?_⟩
  rintro A frame s v ⟨x, ⟨a, ha, hx⟩, rfl, rfl⟩
  refine ⟨?_, perform_load A.caller _ ha hx⟩
  rintro y hy
  cases hy
  exact ⟨hx.wellFormed, rfl⟩

end CompileM
end UnitCompiler
