import UnitCompiler.Proofs.Compile.Units

/-!
# Names at compile time and at run time

Folding and emission look a name up in their own orders.  Both find the same number where no template
value and no alias of a value comes before a variable of the name: while the variables keep the values
they start with, the code for a name computes the number that the name folds to, reduced to its kind.
-/

namespace UnitCompiler
open Machine

theorem SourceType.strip_strip (type : SourceType) : type.strip.strip = type.strip := by
  induction type using SourceType.strip.induct with
  | case1 inner ih => exact ih
  | case2 name target ih => exact ih
  | case3 type hconst halias =>
    have hstrip : type.strip = type := by rw [SourceType.strip] <;> assumption
    rw [hstrip, hstrip]

theorem SourceType.scalar_of_isInteger {type : SourceType} (h : type.isInteger) :
    ∃ k, type.strip = .scalar k ∧ k.isInteger := by
  unfold SourceType.isInteger SourceType.scalar? at h
  cases hstrip : type.strip with
  | scalar k =>
    rw [hstrip] at h
    exact ⟨k, rfl, h⟩
  | _ =>
    rw [hstrip] at h
    cases h

namespace GlobalSymbol

/-- A variable that is declared with an integer starts with the number of its kind that is congruent. -/
inductive StartsAs (g : GlobalSymbol) : IntValue → Prop
  | initialized {k : Scalar} {value : ConstValue} {n : Int} (htype : g.type.strip = .scalar k)
      (hk : k.isInteger) (hvalue : g.value = some value) (hn : value.toInt? = some n) :
      StartsAs g (.ofInt k n)

/-- A variable of the tables is emitted as the variable `v`. -/
structure Becomes (g : GlobalSymbol) (s : SymbolTables) (v : GlobalVariable) : Prop where
  name : v.name = g.linkName
  type : s.lower g.type = .ok v.type
  value : ∀ value, g.value = some value →
    ∃ constant, initializer value v.type = .ok constant ∧ v.initializer = some constant

theorem StartsAs.startsWith {g : GlobalSymbol} {x : IntValue} {s : SymbolTables} {v : GlobalVariable}
    (h : g.StartsAs x) (hv : g.Becomes s v) : StartsWith v x := by
  cases h with
  | @initialized k value n htype hk hvalue hn =>
    have hmachine : v.type = k.machineType :=
      Except.ok.inj (hv.type.symm.trans (SourceType.lower_of_strip htype s))
    obtain ⟨constant, hconstant, hinit⟩ := hv.value value hvalue
    rw [hmachine] at hconstant
    obtain ⟨m, hm, hvalue⟩ := constantValue_initializer hk hconstant
    cases hn.symm.trans hm
    constructor
    · exact IntValue.wellFormed_ofInt hk n
    · exact hmachine
    · rw [initialValue, hinit]
      exact hvalue

end GlobalSymbol

namespace Context

/-- Whether one of some spellings is an alias of a value, and none before it a variable. -/
def aliasesValue (c : Context) : List String → Prop
  | [] => False
  | candidate :: rest =>
    (∃ value, c.symbols.aliases.get? candidate = some (.value value)) ∨
      c.symbols.globals.get? candidate = none ∧ c.aliasesValue rest

/-- Whether folding finds a template value or an alias of a value under a name before it comes to a
variable. -/
def Hides (c : Context) (name : String) : Prop :=
  (∃ value, c.localAlias? name = some (.value value)) ∨
    (∃ value, c.subst.values.get? name = some value) ∨ c.aliasesValue (c.candidates name)

/-- The integer variables of the tables are in memory with the values that they start with. -/
def Fresh (c : Context) (i : Image) (m : Memory) : Prop :=
  ∀ candidate g x, c.symbols.globals.get? candidate = some g → g.StartsAs x →
    ∃ a, i.globalAddress? g.linkName = some a ∧ Holds m a x

/-- A program has the variables of the tables, every variable under a name of its own and with a value
of its type to start with. -/
structure Declares (c : Context) (program : Program) : Prop where
  names : (program.globals.map (·.name)).Nodup
  begins : ∀ v ∈ program.globals, ∃ w, Begins v w
  becomes : ∀ candidate g, c.symbols.globals.get? candidate = some g →
    ∃ v ∈ program.globals, g.Becomes c.symbols v

/-- The memory of a program that has the variables of the tables, as it was put into memory: since then
memory was added, and nothing was stored into the memory that was there. -/
def Unstored (c : Context) (i : Image) (m : Memory) : Prop :=
  ∃ program session, c.Declares program ∧ boot program = .ok session ∧ session.image = i ∧
    Grows session.state.memory m

variable {c : Context} {name : String} {g : GlobalSymbol}

theorem globalConst?_of_global {candidates : List String}
    (hglobal : candidates.findSome? c.symbols.globals.get? = some g)
    (halias : ¬ c.aliasesValue candidates) :
    c.globalConst? candidates = if g.isConst then g.value else none := by
  induction candidates with
  | nil => cases hglobal
  | cons candidate rest ih =>
    rw [List.findSome?_cons] at hglobal
    obtain ⟨hvalue, hrest⟩ := not_or.mp halias
    rw [globalConst?]
    cases hget : c.symbols.globals.get? candidate with
    | none =>
      rw [hget] at hglobal
      rw [← ih hglobal fun h => hrest ⟨hget, h⟩]
      rcases halias : c.symbols.aliases.get? candidate with _ | (_ | value)
      · rfl
      · rfl
      · exact absurd ⟨value, halias⟩ hvalue
    | some g' =>
      rw [hget] at hglobal
      cases hglobal
      rcases halias : c.symbols.aliases.get? candidate with _ | (_ | value)
      · rfl
      · rfl
      · exact absurd ⟨value, halias⟩ hvalue

/-- A global variable that nothing hides is at compile time what its declaration says. -/
theorem constant?_of_global (hlocal : c.localVar? name = none) (hglobal : c.global? name = some g)
    (hhides : ¬ c.Hides name) : c.constant? name = if g.isConst then g.value else none := by
  obtain ⟨halias, hhides⟩ := not_or.mp hhides
  obtain ⟨hvalue, hglobals⟩ := not_or.mp hhides
  rw [← globalConst?_of_global hglobal hglobals, constant?, if_neg (by simp [hlocal])]
  cases hget : c.subst.values.get? name with
  | some value => exact absurd ⟨value, hget⟩ hvalue
  | none =>
    rcases hentry : c.localAlias? name with _ | (_ | value)
    · rfl
    · rfl
    · exact absurd ⟨value, hentry⟩ halias

theorem candidate_of_global? (h : c.global? name = some g) :
    ∃ candidate, c.symbols.globals.get? candidate = some g :=
  (List.exists_of_findSome?_eq_some h).imp fun _ => And.right

theorem Unstored.fresh {i : Image} {m : Memory} (h : c.Unstored i m) : c.Fresh i m := by
  obtain ⟨program, session, hdeclares, hboot, rfl, hgrows⟩ := h
  intro candidate g x hget hstarts
  obtain ⟨v, hv, hbecomes⟩ := hdeclares.becomes candidate g hget
  obtain ⟨-, hbooted⟩ := boot_spec hdeclares.begins hdeclares.names hboot
  obtain ⟨a, ha, hholds⟩ := hbooted.holds hv (hstarts.startsWith hbecomes)
  exact ⟨a, hbecomes.name ▸ ha, hgrows.holds hholds⟩

end Context

namespace CompileM

variable {p : Performer} {c c' : Context} {b : FunctionBuilder} {location : Location} {name : String}
  {value : Rvalue} {g : GlobalSymbol}

/-- The operand of a constant is the number that the constant is. -/
theorem emitConst_spec {v : ConstValue} {n : Int} (hr : Ready c b) (hn : v.toInt? = some n)
    (hinteger : value.type.isInteger) (h : emitConst v p c = .ok value c') :
    ∃ k, value.type = .scalar k ∧
      Emits c c' b b value.operand k fun _ _ _ x => x = some (.ofInt k n) := by
  cases v with
  | int v kind =>
    cases hn
    cases h
    refine ⟨kind, rfl, .refl hr, trivial, hinteger, ?_⟩
    rintro A frame s x - rfl
    exact .refl (denotes_constInt A.image frame hinteger n) rfl
  | bool v =>
    cases hn
    cases h
    refine ⟨.bool, rfl, .refl hr, trivial, rfl, ?_⟩
    rintro A frame s x - rfl
    rw [IntValue.ofInt_bool]
    exact .refl (denotes_bool A.image frame v) rfl
  | float | str | null => cases hn

/-- A name that is no local variable stands for the place of the global variable. -/
theorem place_of_variablePlace {place : Place} {c₁ : Context} (hr : Ready c b)
    (hlocal : c.localVar? name = none) (hglobal : c.global? name = some g)
    (h : variablePlace name location p c = .ok place c₁) :
    c₁ = c ∧ place.type.strip = g.type.strip ∧
      ∃ machine, place.address = .global g.linkName machine := by
  obtain ⟨F, hF, rfl⟩ := hr.function
  have hnone : F.scope.lookup name = none := by simpa [Context.localVar?, hF] using hlocal
  unfold variablePlace at h
  rw [bind_of_eq_ok (functionState_apply hF)] at h
  simp only [hnone] at h
  rw [bind_of_eq_ok (get_apply p c)] at h
  simp only [hglobal] at h
  obtain ⟨machine, c₂, hlower, hpure⟩ := bind_eq_ok.mp h
  obtain ⟨rfl, -⟩ := lower_eq_ok hlower
  cases hpure
  exact ⟨rfl, strip_qualified g.isConst g.type, machine, rfl⟩

/-- What is read as an integer is kept as one. -/
theorem integer_of_loadPlace {place : Place} (h : loadPlace place location p c = .ok value c')
    (hinteger : value.type.isInteger) : ∃ k, place.type.strip = .scalar k ∧ k.isInteger := by
  by_cases harray : ∃ element length, place.type.strip = .array element length
  · -- an array is read as the pointer to its first element
    obtain ⟨element, length, hstrip⟩ := harray
    simp only [loadPlace, hstrip] at h
    obtain ⟨machine, c₁, hlower, h⟩ := bind_eq_ok.mp h
    obtain ⟨o, c₂, hbuild, hpure⟩ := bind_eq_ok.mp h
    cases hpure
    cases hinteger
  · have hload : loadPlace place location = (do
        let machine ← lower place.type location
        return ⟨place.type.strip, ← build (FunctionBuilder.load place.address machine)⟩) := by
      unfold loadPlace
      split
      case h_1 element length hstrip => exact absurd ⟨element, length, hstrip⟩ harray
      case h_2 => rfl
    rw [hload] at h
    obtain ⟨machine, c₁, hlower, h⟩ := bind_eq_ok.mp h
    obtain ⟨o, c₂, hbuild, hpure⟩ := bind_eq_ok.mp h
    cases hpure
    apply SourceType.scalar_of_isInteger
    rwa [SourceType.isInteger, SourceType.scalar?, SourceType.strip_strip] at hinteger

/-- The code for the name of a global variable reads the variable. -/
theorem emitVariable_spec (hr : Ready c b) (hlocal : c.localVar? name = none)
    (hglobal : c.global? name = some g) (hinteger : value.type.isInteger)
    (h : (do loadPlace (← variablePlace name location) location) p c = .ok value c') :
    ∃ k b', value.type = .scalar k ∧ g.type.strip = .scalar k ∧ Emits c c' b b' value.operand k
      fun A _ s x => ∃ y a, A.image.globalAddress? g.linkName = some a ∧ Holds s.memory a y ∧
        y.kind = k ∧ x = some y := by
  obtain ⟨place, c₁, hplace, hload⟩ := bind_eq_ok.mp h
  obtain ⟨rfl, hstrip, machine, haddress⟩ := place_of_variablePlace hr hlocal hglobal hplace
  obtain ⟨k, htype, hk⟩ := integer_of_loadPlace hload hinteger
  obtain ⟨hvalue, b', hemits⟩ := loadPlace_spec hr hk htype hload
  refine ⟨k, b', hvalue, hstrip.symm.trans htype, hemits.of_imp ?_⟩
  rintro A frame s x ⟨y, a, ha, hholds, hkind, rfl⟩
  refine ⟨y, ⟨a, ?_, hholds⟩, hkind, rfl⟩
  rw [haddress, Image.eval, ha]

/-- What a name folds to is what the code for the name computes, as long as nothing has been stored into
the variables: the number is reduced to its kind. -/
theorem emitName_of_constant {v : ConstValue} {n : Int} (hr : Ready c b)
    (hconstant : c.constant? name = some v) (hn : v.toInt? = some n)
    (hhides : c.isVariable name → ¬ c.Hides name) (h : emitName name location p c = .ok value c')
    (hinteger : value.type.isInteger) :
    ∃ k b', value.type = .scalar k ∧ Emits c c' b b' value.operand k fun A _ s x =>
      c.Unstored A.image s.memory ∧ x = some (.ofInt k n) := by
  unfold emitName at h
  rw [bind_of_eq_ok (get_apply p c)] at h
  cases hvariable : c.isVariable name with
  | false =>
    rw [hvariable, hconstant] at h
    obtain ⟨k, htype, hemits⟩ := emitConst_spec hr hn hinteger h
    exact ⟨k, b, htype, hemits.of_imp fun A frame s x => And.right⟩
  | true =>
    rw [hvariable] at h
    have hlocal : c.localVar? name = none := by
      by_contra hne
      rw [Context.constant?, if_pos (Option.isSome_iff_ne_none.mpr hne)] at hconstant
      cases hconstant
    obtain ⟨g, hglobal⟩ : ∃ g, c.global? name = some g := by
      simpa [Context.isVariable, hlocal, Option.isSome_iff_exists] using hvariable
    rw [Context.constant?_of_global hlocal hglobal (hhides hvariable)] at hconstant
    have hvalue : g.value = some v := by
      split_ifs at hconstant
      exact hconstant
    obtain ⟨k, b', htype, hstrip, hemits⟩ := emitVariable_spec hr hlocal hglobal hinteger h
    refine ⟨k, b', htype, hemits.of_imp ?_⟩
    rintro A frame s x ⟨hunstored, rfl⟩
    obtain ⟨candidate, hget⟩ := Context.candidate_of_global? hglobal
    obtain ⟨a, ha, hholds⟩ := hunstored.fresh candidate g _ hget (.initialized hstrip hemits.kind hvalue hn)
    exact ⟨_, a, ha, hholds, rfl, rfl⟩

/-- The variable `const uchar limit = 300`. -/
def limitSymbol : GlobalSymbol where
  decl := ⟨1⟩
  name := "limit"
  linkName := LinkName.global "limit"
  type := .scalar .uchar
  isConst := true
  value := some (.int 300 .int)

/-- A function is emitted where the variable is declared. -/
def limitContext : Context where
  tree := default
  symbols := { globals := ⟨[("limit", limitSymbol)]⟩ }
  function := some (.entry default {} (.scalar .uchar) false)

def limitProgram : Program where
  globals :=
    [{ name := limitSymbol.linkName, type := .i8, initializer := some (.int 300 .i8), isConst := true }]

theorem declares_limitProgram : limitContext.Declares limitProgram where
  names := List.nodup_singleton _
  begins v hv := by
    cases List.mem_singleton.mp hv
    exact ⟨.int 44 8, rfl, 44, rfl, by decide⟩
  becomes candidate g hget := by
    obtain rfl : limitSymbol = g := by
      obtain ⟨e, hfind, rfl⟩ := Option.map_eq_some_iff.mp hget
      cases List.mem_singleton.mp (List.mem_of_find?_eq_some hfind)
      rfl
    refine ⟨_, List.mem_singleton_self _, rfl, rfl, ?_⟩
    rintro value ⟨⟩
    exact ⟨_, rfl, rfl⟩

/-- The name folds to 300, and the variable is 44. -/
theorem emitName_limit : limitContext.constant? "limit" = some (.int 300 .int) ∧
    (∃ session, boot limitProgram = .ok session ∧
      limitContext.Unstored session.image session.state.memory) ∧
    ∃ value c' b b', emitName "limit" default (performWithin 0) limitContext = .ok value c' ∧
      Emits limitContext c' b b' value.operand .uchar fun A _ s x =>
        limitContext.Unstored A.image s.memory ∧ x = some ⟨.uchar, 44⟩ := by
  refine ⟨rfl, ?_, ?_⟩
  · have hok : (boot limitProgram).isOk = true := by decide +kernel
    cases hboot : boot limitProgram with
    | error fault =>
      rw [hboot] at hok
      cases hok
    | ok session =>
      exact ⟨session, rfl, limitProgram, session, declares_limitProgram, hboot, rfl, .refl _⟩
  · have hr : Ready limitContext (FunctionState.entry default {} (.scalar .uchar) false).builder :=
      ⟨⟨_, rfl, rfl⟩, (FunctionBuilder.sound_new rfl {}).addBlock "exit",
        (FunctionState.open_entry rfl {} (.scalar .uchar) false).1⟩
    have hhides : ¬ limitContext.Hides "limit" := by
      rintro (⟨value, h⟩ | ⟨value, h⟩ | ⟨value, h⟩ | ⟨h, -⟩) <;> cases h
    obtain ⟨value, c', hrun, htype⟩ : ∃ value c',
        emitName "limit" default (performWithin 0) limitContext = .ok value c' ∧
          value.type = .scalar .uchar := ⟨_, _, rfl, rfl⟩
    obtain ⟨k, b', hk, hemits⟩ :=
      emitName_of_constant (v := .int 300 .int) hr rfl rfl (fun _ => hhides) hrun (by rw [htype]; rfl)
    cases htype.symm.trans hk
    exact ⟨value, c', _, b', hrun, hemits⟩

end CompileM
end UnitCompiler
