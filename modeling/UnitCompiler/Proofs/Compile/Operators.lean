import Mathlib
import UnitCompiler.Compile.Unit
import UnitCompiler.Proofs.Compile.Operations

/-!
# Operators of aggregates

Which function an operator on an aggregate resolves to, and what its code computes when the negation of
another operator stands in for it: the code is that of the other operator on the same operands, with one
more instruction that inverts the result.
-/

namespace UnitCompiler
open Machine

namespace OperatorTag

theorem negated?_eq_some_iff {tag positive : OperatorTag} :
    tag.negated? = some positive ↔ (tag, positive) ∈ [(ne, eq), (ge, lt), (le, gt)] := by
  cases tag <;> simp [negated?, eq_comm]

end OperatorTag

/-! ### Resolution -/

namespace SymbolTables

variable {s : SymbolTables} {owner key : String} {tag positive : OperatorTag} {types : List SourceType}
  {a : AggregateSymbol}

/-- An aggregate's own operator is found first. -/
theorem operator_of_own (ha : s.aggregates.get? owner = some a)
    (hkey : a.operator? tag (signature types) = some key) :
    s.operator owner tag types = .ok ⟨key, false⟩ := by
  unfold operator
  simp only [ha, hkey]

theorem operator_of_counterpart (ha : s.aggregates.get? owner = some a)
    (hnone : a.operator? tag (signature types) = none) (hpositive : tag.negated? = some positive)
    (hkey : a.operator? positive (signature types) = some key) :
    s.operator owner tag types = .ok ⟨key, true⟩ := by
  unfold operator
  simp only [ha, hnone, hpositive, Option.bind_some, hkey]

/-- What an operator resolves to: an entry of its own tag, or in its absence one of its counterpart. -/
theorem operator_eq_ok {target : OperatorTarget} (h : s.operator owner tag types = .ok target) :
    ∃ a, s.aggregates.get? owner = some a ∧
      ((a.operator? tag (signature types) = some target.key ∧ target.isNegated = false) ∨
        ∃ positive, tag.negated? = some positive ∧
          a.operator? positive (signature types) = some target.key ∧ target.isNegated = true) := by
  unfold operator at h
  cases ha : s.aggregates.get? owner with
  | none =>
    rw [ha] at h
    cases h
  | some a =>
    refine ⟨a, rfl, ?_⟩
    simp only [ha] at h
    cases hown : a.operator? tag (signature types) with
    | some key =>
      rw [hown] at h
      cases h
      exact Or.inl ⟨rfl, rfl⟩
    | none =>
      rw [hown] at h
      cases hcounterpart : tag.negated?.bind (a.operator? · (signature types)) with
      | none =>
        rw [hcounterpart] at h
        cases h
      | some key =>
        rw [hcounterpart] at h
        cases h
        obtain ⟨positive, hpositive, hkey⟩ := Option.bind_eq_some_iff.mp hcounterpart
        exact Or.inr ⟨positive, hpositive, hkey, rfl⟩

theorem exists_operator_iff (s : SymbolTables) (owner : String) (tag : OperatorTag)
    (types : List SourceType) : (∃ target, s.operator owner tag types = .ok target) ↔
      ∃ a, s.aggregates.get? owner = some a ∧ ((a.operator? tag (signature types)).isSome ∨
        ∃ positive, tag.negated? = some positive ∧ (a.operator? positive (signature types)).isSome) := by
  constructor
  · rintro ⟨target, h⟩
    obtain ⟨a, ha, ⟨hkey, -⟩ | ⟨positive, hpositive, hkey, -⟩⟩ := operator_eq_ok h
    · exact ⟨a, ha, Or.inl (Option.isSome_of_eq_some hkey)⟩
    · exact ⟨a, ha, Or.inr ⟨positive, hpositive, Option.isSome_of_eq_some hkey⟩⟩
  · rintro ⟨a, ha, h⟩
    cases hown : a.operator? tag (signature types) with
    | some key => exact ⟨_, operator_of_own ha hown⟩
    | none =>
      rw [hown] at h
      obtain hsome | ⟨positive, hpositive, hsome⟩ := h
      · cases hsome
      · obtain ⟨key, hkey⟩ := Option.isSome_iff_exists.mp hsome
        exact ⟨_, operator_of_counterpart ha hown hpositive hkey⟩

end SymbolTables

/-! ### Code -/

namespace FunctionBuilder

/-- An instruction with a result gets a register, also behind the end of its block. -/
theorem push_register (b : FunctionBuilder) (operation : Operation) {type : IrType}
    (hvoid : type.isVoid = false) : ((push operation (some type)).run b).1 = .register b.nextValue := by
  have hresult (id : Nat) : (⟨id, operation, some type⟩ : Instruction).hasResult = true := by
    simp [Instruction.hasResult, hvoid]
  unfold push
  change ((ite (b.isTerminated = true) _ _ : BuildM _).run b).1 = _
  by_cases hended : b.isTerminated = true
  · rw [if_pos hended]
    change ite (Instruction.hasResult _ = true) _ _ = _
    rw [if_pos (hresult _)]
  · rw [if_neg hended]
    change ite (Instruction.hasResult _ = true) _ _ = _
    rw [if_pos (hresult _)]

end FunctionBuilder

namespace Machine

theorem complement_ofBool (x : Bool) :
    Value.int (Word.complement 1 (if x then 1 else 0)) 1 = .ofBool (!x) := by
  cases x <;> rfl

/-- The configuration behind an instruction that inverts a word: its register has the complement of the
word, which for a truth value is the other one. -/
structure Inverted (A : Activation) (p : Point) (frame : Machine.Frame) (m : Memory) (id word bits : Nat)
    (C : Config) : Prop where
  point : C.point = p.next
  frame : Agrees id (id + 1) frame C.frame
  memory : C.state.memory = m
  value : A.image.eval C.frame (.register id) = .ok (.int (Word.complement bits word) bits)
  truth : ∀ x, Value.int word bits = .ofBool x →
    A.image.eval C.frame (.register id) = .ok (.ofBool !x)

/-- The instruction `id` inverts an operand in whatever function it stands. -/
theorem Activation.leads_not {A : Activation} {p : Point} {frame : Machine.Frame} {s : State}
    {id word bits : Nat} {o : Operand}
    (hat : (A.code.body p.block)[p.index]? = some ⟨id, .not o, some .i1⟩)
    (ho : A.image.eval frame o = .ok (.int word bits)) :
    A.Leads 0 ⟨p, frame, s⟩ (Inverted A p frame s.memory id word bits) (·.isLimit = true) := by
  have hperform (s : State) : perform A.image A.caller frame .i1 (.not o) s =
      .ok (.int (Word.complement bits word) bits) s := by
    rw [perform, ho]
    rfl
  let i : Instruction := ⟨id, .not o, some .i1⟩
  refine leads_step hat (fun _ h => h) ?_ ?_
  · intro v s' h
    cases (hperform _).symm.trans h
    have hvalue : A.image.eval (frame.keep i (.int (Word.complement bits word) bits)) (.register id) =
        .ok (.int (Word.complement bits word) bits) := by
      have hreg := getElem?_keep frame (i := i) rfl rfl (.int (Word.complement bits word) bits)
      change (frame.keep i _).registers[id]? = _ at hreg
      rw [Image.eval, hreg]
    refine ⟨rfl, agrees_keep frame i _, rfl, hvalue, fun x hx => ?_⟩
    obtain ⟨rfl, rfl⟩ := Value.int.inj hx
    rw [hvalue, complement_ofBool]
  · intro e s' h
    cases (hperform _).symm.trans h

end Machine

namespace CompileM

variable {p : Performer} {c c₁ c₂ c' : Context} {op : BinaryOp} {tag : OperatorTag} {owner key : String}
  {lhs rhs : NodeId} {left right r : Rvalue} {location : Location}

/-- A pushed instruction with a result is known by its register. -/
theorem build_push_register {operation : Operation} {type : IrType} (hvoid : type.isVoid = false)
    {o : Operand} (h : build (FunctionBuilder.push operation (some type)) p c = .ok o c') :
    ∃ id, o = .register id := by
  cases hF : c.function with
  | none =>
    unfold build functionState at h
    obtain ⟨F, c₁, hstate, -⟩ := bind_eq_ok.mp h
    rw [bind_of_eq_ok (get_apply p c), hF] at hstate
    cases hstate
  | some F =>
    rw [build_apply hF, FunctionBuilder.push_register _ _ hvoid] at h
    cases h
    exact ⟨_, rfl⟩

/-- The code of a missing operator: that of its counterpart, whose result is a truth value by its type, and
one instruction that inverts the result. -/
structure Negates (p : Performer) (positive : Rvalue) (c : Context) (r : Rvalue) (c' : Context) : Prop where
  isBool : positive.type.scalar? = some .bool
  type : r.type = .bool
  push : build (FunctionBuilder.push (.not positive.operand) (some .i1)) p c = .ok r.operand c'

theorem Negates.exists_register {positive : Rvalue} (h : Negates p positive c r c') :
    ∃ id, r.operand = .register id :=
  build_push_register rfl h.push

/-- In an open block the instruction that inverts stands where the code was before. -/
theorem Negates.follows {positive : Rvalue} {b : FunctionBuilder} {id : Nat}
    (h : Negates p positive c r c') (hr : Ready c b) (hid : r.operand = .register id) :
    Follows c c' b (b.place (.not positive.operand) (some .i1)) ∧
      ∀ A : Activation, A.Has (b.place (.not positive.operand) (some .i1)) →
        (A.code.body b.here.block)[b.here.index]? = some ⟨id, .not positive.operand, some .i1⟩ := by
  obtain ⟨c₁, hrun, hfollows⟩ := build_push hr (.not positive.operand) (show IrType.i1.isVoid = false from rfl)
  have hsame := hrun.symm.trans h.push
  rw [hid] at hsame
  cases hsame
  exact ⟨hfollows, fun A hA => hA.getElem? hr.sound⟩

/-- An operator of the aggregate itself is called as it is. -/
theorem callOperator_of_own (operands : List Rvalue)
    (h : c.symbols.operator owner tag (operands.map (·.type.strip)) = .ok ⟨key, false⟩) :
    callOperator owner tag operands location p c =
      callFunction key (operands.map ({ value := · })) location p c := by
  unfold callOperator
  rw [bind_of_eq_ok (get_apply p c), h, bind_of_eq_ok (orBail_ok _ _)]
  change (callFunction key _ location >>= pure) p c = _
  rw [bind_pure]

/-- In the place of a missing operator its counterpart is called once. -/
theorem callOperator_of_counterpart (operands : List Rvalue)
    (h : c.symbols.operator owner tag (operands.map (·.type.strip)) = .ok ⟨key, true⟩)
    (hok : callOperator owner tag operands location p c = .ok r c') : ∃ positive c₁,
      callFunction key (operands.map ({ value := · })) location p c = .ok positive c₁ ∧
        Negates p positive c₁ r c' := by
  unfold callOperator at hok
  rw [bind_of_eq_ok (get_apply p c), h, bind_of_eq_ok (orBail_ok _ _)] at hok
  obtain ⟨positive, c₁, hcall, hok⟩ := bind_eq_ok.mp hok
  obtain ⟨hbool, hok⟩ := guard_passes hok
  obtain ⟨o, c₂, hpush, hok⟩ := bind_eq_ok.mp hok
  cases hok
  exact ⟨positive, c₁, hcall, not_not.mp hbool, rfl, hpush⟩

/-- The operands of an overloadable operator are evaluated first, each once. -/
theorem emitBinary_of_tag (htag : op.tag? = some tag) (haggregate : left.type.isAggregate = true)
    (hleft : p (.emitExpr lhs) c = .ok left c₁) (hright : p (.emitExpr rhs) c₁ = .ok right c₂) :
    emitBinary op lhs rhs location p c =
      callOperator left.type.canonical tag [left, right] location p c₂ := by
  have hassign : op.isAssignment = false := by cases op <;> first | rfl | cases htag
  have hlogical : op.isLogical = false := by cases op <;> first | rfl | cases htag
  unfold emitBinary
  rw [hassign, hlogical]
  change (_ >>= _ : CompileM Rvalue) p c = _
  rw [bind_of_eq_ok ((perform_apply _ p c).trans hleft),
    bind_of_eq_ok ((perform_apply _ p c₁).trans hright)]
  unfold emitOperation
  rw [haggregate, htag]
  rfl

/-- The operator whose tag is the counterpart of a tag. -/
theorem exists_positive {positive : OperatorTag} (h : tag.negated? = some positive) :
    ∃ op : BinaryOp, op.tag? = some positive := by
  cases tag with
  | ne => exact ⟨.eq, h⟩
  | ge => exact ⟨.lt, h⟩
  | le => exact ⟨.gt, h⟩
  | add | sub | mul | div | rem | bitAnd | bitOr | bitXor | shl | shr | eq | lt | gt | index
  | indexAssign => cases h

/-- An operator on an aggregate resolves just when the aggregate has an entry of its tag for the operands,
or when it has a counterpart and the aggregate an entry of that; the entry of its own tag always wins.
Where the counterpart stands in, the code of the expression is the code of the counterpart on the same
operands, each evaluated once, and an instruction behind it: in every run it turns the word that the
counterpart gave into its complement, and so a truth value into the other one. -/
theorem operators_of_aggregates :
    (∀ (s : SymbolTables) (owner : String) (tag : OperatorTag) (types : List SourceType),
      ((∃ target, s.operator owner tag types = .ok target) ↔
        ∃ a, s.aggregates.get? owner = some a ∧ ((a.operator? tag (signature types)).isSome ∨
          ∃ positive, (tag, positive) ∈ [(.ne, .eq), (.ge, .lt), (.le, .gt)] ∧
            (a.operator? positive (signature types)).isSome)) ∧
      ∀ a key, s.aggregates.get? owner = some a → a.operator? tag (signature types) = some key →
        s.operator owner tag types = .ok ⟨key, false⟩) ∧
    ∀ (p : Performer) (c c₁ c₂ c' : Context) (op : BinaryOp) (tag : OperatorTag) (key : String)
      (lhs rhs : NodeId) (left right r : Rvalue) (location : Location),
      op.tag? = some tag → p (.emitExpr lhs) c = .ok left c₁ → p (.emitExpr rhs) c₁ = .ok right c₂ →
      left.type.isAggregate = true →
      c₂.symbols.operator left.type.canonical tag [left.type.strip, right.type.strip] = .ok ⟨key, true⟩ →
      emitBinary op lhs rhs location p c = .ok r c' →
      ∃ (positive : BinaryOp) (result : Rvalue) (c₃ : Context) (id : Nat), positive.tag? = tag.negated? ∧
        emitBinary positive lhs rhs location p c = .ok result c₃ ∧
        callFunction key [{ value := left }, { value := right }] location p c₂ = .ok result c₃ ∧
        Negates p result c₃ r c' ∧ r.operand = .register id ∧
        (∀ b, Ready c₃ b → Follows c₃ c' b (b.place (.not result.operand) (some .i1)) ∧
          ∀ A : Activation, A.Has (b.place (.not result.operand) (some .i1)) →
            (A.code.body b.here.block)[b.here.index]? = some ⟨id, .not result.operand, some .i1⟩) ∧
        ∀ (A : Activation) (point : Point) (frame : Machine.Frame) (s : State) (word bits : Nat),
          (A.code.body point.block)[point.index]? = some ⟨id, .not result.operand, some .i1⟩ →
          A.image.eval frame result.operand = .ok (.int word bits) →
          A.Leads 0 ⟨point, frame, s⟩ (Inverted A point frame s.memory id word bits)
            (·.isLimit = true) := by
  constructor
  · intro s owner tag types
    constructor
    · simp only [← OperatorTag.negated?_eq_some_iff]
      exact s.exists_operator_iff owner tag types
    · intro a key ha hkey
      exact SymbolTables.operator_of_own ha hkey
  · intro p c c₁ c₂ c' op tag key lhs rhs left right r location htag hleft hright haggregate htarget hok
    rw [emitBinary_of_tag htag haggregate hleft hright] at hok
    obtain ⟨result, c₃, hcall, hnegates⟩ := callOperator_of_counterpart [left, right] htarget hok
    obtain ⟨id, hid⟩ := hnegates.exists_register
    obtain ⟨a, ha, ⟨-, hfalse⟩ | ⟨positive, hpositive, hkey, -⟩⟩ := SymbolTables.operator_eq_ok htarget
    · cases hfalse
    · obtain ⟨op', hop'⟩ := exists_positive hpositive
      have hown : c₂.symbols.operator left.type.canonical positive [left.type.strip, right.type.strip] =
          .ok ⟨key, false⟩ := SymbolTables.operator_of_own ha hkey
      refine ⟨op', result, c₃, id, hop'.trans hpositive.symm, ?_, hcall, hnegates, hid, ?_, ?_⟩
      · rw [emitBinary_of_tag hop' haggregate hleft hright]
        exact (callOperator_of_own [left, right] hown).trans hcall
      · intro b hr
        exact hnegates.follows hr hid
      · intro A point frame s word bits hat ho
        exact Activation.leads_not hat ho

/-- An aggregate of an integer. -/
def numberType : SourceType := .aggregate "Number" []

/-- The operator function `==` of the aggregate. -/
def numberEq : FunctionSymbol where
  decl := ⟨1⟩
  name := "Number.(==)"
  key := functionKey "Number.(==)" [numberType, numberType]
  linkName := LinkName.method "Number.(==)"
  params := [numberType, numberType]
  paramNames := ["l", "r"]
  ret := .scalar .bool
  isVariadic := false
  convention := .c
  owner := some "Number"
  constructorOf := none
  space := []
  isInstance := false
  isExternal := true
  subst := {}

/-- The aggregate has the operator `==` only, and there is a variable of it. -/
def numberTables : SymbolTables where
  functions := ⟨[(numberEq.key, numberEq)]⟩
  aggregates := ⟨[("Number",
    { decl := ⟨2⟩
      name := "Number"
      fields := [⟨"value", .scalar .int, 0, none⟩]
      base := none
      operators := ⟨[(.eq, ⟨[(signature [numberType, numberType], numberEq.key)]⟩)]⟩
      isInstance := false
      space := []
      subst := {} })]⟩
  globals := ⟨[("n", ⟨⟨3⟩, "n", LinkName.global "n", numberType, false, none⟩)]⟩

def numberContext : Context where
  tree := { nodes := #[⟨.ident "n" [], default⟩] }
  symbols := numberTables
  function := some { builder := .new default {}, ret := .scalar .bool, exit := 0, exitTail := 0 }

/-- The expression `n != n` compiles, and its code inverts the result of `n == n`. -/
theorem operators_of_aggregates_number : ∃ left right r c₁ c₂ c',
    performWithin 1 (.emitExpr ⟨0⟩) numberContext = .ok left c₁ ∧
    performWithin 1 (.emitExpr ⟨0⟩) c₁ = .ok right c₂ ∧ left.type.isAggregate = true ∧
    c₂.symbols.operator left.type.canonical .ne [left.type.strip, right.type.strip] =
      .ok ⟨numberEq.key, true⟩ ∧
    emitBinary .ne ⟨0⟩ ⟨0⟩ default (performWithin 1) numberContext = .ok r c' ∧
    ∃ (positive : BinaryOp) (result : Rvalue) (c₃ : Context), positive.tag? = some .eq ∧
      emitBinary positive ⟨0⟩ ⟨0⟩ default (performWithin 1) numberContext = .ok result c₃ ∧
      Negates (performWithin 1) result c₃ r c' := by
  obtain ⟨left, right, r, c₁, c₂, c', hleft, hright, haggregate, htarget, hok⟩ : ∃ left right r c₁ c₂ c',
      performWithin 1 (.emitExpr ⟨0⟩) numberContext = .ok left c₁ ∧
      performWithin 1 (.emitExpr ⟨0⟩) c₁ = .ok right c₂ ∧ left.type.isAggregate = true ∧
      c₂.symbols.operator left.type.canonical .ne [left.type.strip, right.type.strip] =
        .ok ⟨numberEq.key, true⟩ ∧
      emitBinary .ne ⟨0⟩ ⟨0⟩ default (performWithin 1) numberContext = .ok r c' :=
    ⟨_, _, _, _, _, _, rfl, rfl, rfl, rfl, rfl⟩
  obtain ⟨positive, result, c₃, id, hpositive, hemit, -, hnegates, -⟩ := operators_of_aggregates.2 _ _ _ _ _
    .ne .ne _ ⟨0⟩ ⟨0⟩ left right r default rfl hleft hright haggregate htarget hok
  exact ⟨left, right, r, c₁, c₂, c', hleft, hright, haggregate, htarget, hok, positive, result, c₃,
    hpositive, hemit, hnegates⟩

/-- A function `int eq(Number l, Number r) { return 2; }`, linked under its own name. -/
def twoDecl : FunctionDecl where
  name := "eq"
  params := [⟨"l", numberType⟩, ⟨"r", numberType⟩]
  ret := .scalar .int
  body := some ⟨2⟩
  modifiers := [.plainName]

/-- An operator `==` without a body that is linked to it. -/
def foreignDecl : FunctionDecl where
  name := "eq"
  params := [⟨"l", numberType⟩, ⟨"r", numberType⟩]
  ret := .scalar .bool
  modifiers := [.plainName]
  operator := some .eq

/-- A function without parameters, linked under its own name. -/
def plainDecl (name : String) (body : NodeId) : FunctionDecl where
  name := name
  ret := .scalar .int
  body := some body
  modifiers := [.plainName]

/-- The functions `same` and `differ` return `p == p` and `p != p`. -/
def foreignTree : Tree where
  nodes := #[⟨.int 2, default⟩, ⟨.ret (some ⟨0⟩), default⟩, ⟨.block [⟨1⟩], default⟩,
    ⟨.function twoDecl, default⟩, ⟨.function foreignDecl, default⟩,
    ⟨.aggregate { name := "Number", fields := [⟨"value", .scalar .int, none⟩], methods := [⟨4⟩] }, default⟩,
    ⟨.variable ⟨"p", some numberType, none, false⟩, default⟩, ⟨.ident "p" [], default⟩,
    ⟨.binary .eq ⟨7⟩ ⟨7⟩, default⟩, ⟨.ret (some ⟨8⟩), default⟩, ⟨.block [⟨6⟩, ⟨9⟩], default⟩,
    ⟨.function (plainDecl "same" ⟨10⟩), default⟩,
    ⟨.variable ⟨"p", some numberType, none, false⟩, default⟩,
    ⟨.binary .ne ⟨7⟩ ⟨7⟩, default⟩, ⟨.ret (some ⟨13⟩), default⟩, ⟨.block [⟨12⟩, ⟨14⟩], default⟩,
    ⟨.function (plainDecl "differ" ⟨15⟩), default⟩]

/-- A unit that compiles to a program that boots. -/
theorem exists_booted {result : Except Stop CompiledUnit} {P : Session → Prop}
    (h : match result with
      | .error _ => False
      | .ok unit =>
        match boot unit.program with
        | .error _ => False
        | .ok booted => P booted) :
    ∃ unit booted, result = .ok unit ∧ boot unit.program = .ok booted ∧ P booted := by
  cases result with
  | error stop => exact h.elim
  | ok unit =>
    cases hboot : boot unit.program with
    | error fault =>
      simp only [hboot] at h
    | ok booted =>
      simp only [hboot] at h
      exact ⟨unit, booted, rfl, hboot, h⟩

/-- The operator gives 2, which is no truth value, and its negation -3, which is not zero. -/
theorem differ_of_foreign_result : ∃ unit booted,
    compileUnit foreignTree [⟨3⟩, ⟨5⟩, ⟨11⟩, ⟨16⟩] {} = .ok unit ∧ boot unit.program = .ok booted ∧
      (booted.run "same" []).1 = .ok (.ofInt 2 32) ∧ (booted.run "differ" []).1 = .ok (.ofInt (-3) 32) ∧
      Value.ofInt (-3) 32 ≠ Value.ofInt 0 32 := by
  have hdiffers : Value.ofInt (-3) 32 ≠ Value.ofInt 0 32 := fun h => absurd (Value.int.inj h).1 (by decide)
  have hruns : ∃ unit booted,
      compileUnit foreignTree [⟨3⟩, ⟨5⟩, ⟨11⟩, ⟨16⟩] {} = .ok unit ∧ boot unit.program = .ok booted ∧
        (booted.run "same" []).1 = .ok (.ofInt 2 32) ∧
          (booted.run "differ" []).1 = .ok (.ofInt (-3) 32) := by
    apply exists_booted
    cbv
  obtain ⟨unit, booted, hcompile, hboot, hsame, hdiffer⟩ := hruns
  exact ⟨unit, booted, hcompile, hboot, hsame, hdiffer, hdiffers⟩

end CompileM
end UnitCompiler
