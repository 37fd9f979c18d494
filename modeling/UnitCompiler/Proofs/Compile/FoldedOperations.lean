import UnitCompiler.Proofs.Compile.Entries
import UnitCompiler.Proofs.Compile.Progress
import UnitCompiler.Proofs.Machine.StraightLine
import UnitCompiler.Proofs.Source.Folding

/-!
# Folded operators and their code

The code of an operator is the conversion of both operands to their common kind and one instruction.
Folding the operator computes what this code computes: in the kinds whose numbers compile-time integers
hold as they are, the constant is the number that the machine gets, in the range of its kind.
-/

namespace UnitCompiler
open Machine

namespace Scalar

/-- The integer kinds whose numbers a compile-time integer holds as they are; numbers of 128 bits are
held as signed ones. -/
def foldedKinds : List Scalar :=
  [.char, .uchar, .short, .ushort, .int, .uint, .long, .ulong, .cent]

variable {a b k : Scalar} {v : Int}

theorem isInteger_of_folded (hk : k ∈ foldedKinds) : k.isInteger = true := by
  cases k <;> simp [foldedKinds] at hk <;> rfl

theorem ne_bool_of_folded (hk : k ∈ foldedKinds) : k ≠ .bool := by
  rintro rfl
  simp [foldedKinds] at hk

theorem common_folded (ha : a ∈ foldedKinds) (hb : b ∈ foldedKinds) : a.common b ∈ foldedKinds := by
  cases a <;> simp [foldedKinds] at ha <;> cases b <;> simp [foldedKinds] at hb <;> decide

/-- All of these kinds but `cent` are narrower than 128 bits. -/
theorem bits_lt_or_eq_cent (hk : k ∈ foldedKinds) : k.bits < 128 ∨ k = .cent := by
  cases k <;> simp [foldedKinds] at hk <;> decide

theorem inRange_cent (ha : a ∈ foldedKinds) (hv : a.InRange v) : Scalar.cent.InRange v := by
  unfold InRange reduce at *
  cases a <;> simp [foldedKinds] at ha <;>
    simp only [isUnsigned, bits, if_true, Bool.false_eq_true, if_false, Int.bmod_def] at hv ⊢ <;>
    omega

/-- Numbers of these kinds are in range again after wrapping to one of them. -/
theorem inRange_wrap (ha : a ∈ foldedKinds) (hk : k ∈ foldedKinds) (hv : a.InRange v) :
    k.InRange (k.wrap v) := by
  rcases bits_lt_or_eq_cent hk with hbits | rfl
  · rw [wrap_eq_reduce (isInteger_of_folded hk) hbits]
    exact k.inRange_reduce v
  · rw [wrap_of_le (by decide)]
    exact inRange_cent ha hv

end Scalar

namespace ConstValue

variable {op : BinaryOp} {k : Scalar} {a b : Int} {c : ConstValue}

/-- Results are wrapped to the range of their kind, by way of that of `cent`. -/
theorem inRange_wrapped (hk : k ∈ Scalar.foldedKinds) (v : Int) : (wrapped k v).InRange := by
  have hcent : Scalar.cent ∈ Scalar.foldedKinds := by decide
  exact Scalar.inRange_wrap hcent hk (Scalar.cent.inRange_reduce v)

theorem foldIntegers_inRange (hk : k ∈ Scalar.foldedKinds) (h : foldIntegers op k a b = some c) :
    c.InRange := by
  have hcompare (h : (compareBy op (some (compare a b))).map ConstValue.bool = some c) : c.InRange := by
    obtain ⟨t, -, rfl⟩ := Option.map_eq_some_iff.mp h
    trivial
  cases op
  case add | sub | mul | div | rem | bitAnd | bitOr | bitXor | shl | shr =>
    cases h
    exact inRange_wrapped hk _
  all_goals exact hcompare h

theorem exists_foldIntegers (hassign : op.isAssignment = false) (hlogical : op.isLogical = false)
    (k : Scalar) (a b : Int) : ∃ c, foldIntegers op k a b = some c := by
  cases op <;> first
    | exact ⟨_, rfl⟩
    | exact absurd hassign (by decide)
    | exact absurd hlogical (by decide)

/-- The right operands that are refused: zero in a division, and in a shift what is no count of bits. -/
theorem operandProblem?_isSome_iff : (∃ problem, operandProblem? op k b = some problem) ↔
    ((op = .div ∨ op = .rem) ∧ b = 0) ∨ ((op = .shl ∨ op = .shr) ∧ ¬(0 ≤ b ∧ b < k.bits)) := by
  cases op <;> simp only [operandProblem?, reduceCtorEq, or_self, or_true, false_and, true_and, or_false,
    false_or, exists_false]
  case div | rem => by_cases hb : b = 0 <;> simp [hb]
  case shl | shr => by_cases hb : 0 ≤ b ∧ b < (k.bits : Int) <;> simp [hb]

end ConstValue

/-! ### The code of an operator -/

/-- The instruction that is selected for an operator on operands of a kind. -/
inductive BinaryOp.Selects (op : BinaryOp) (k : Scalar) : (Operand → Operand → Operation) → Prop
  | compare {instr : CompareOp} : op.isComparison = true → op.compareOp? k.isUnsigned = some instr →
    Selects op k (.compare instr)
  | arith {instr : ArithOp} : op.isComparison = false → op.arithOp? k = some instr →
    Selects op k (.arith instr)

theorem BinaryOp.exists_selects {op : BinaryOp} (hassign : op.isAssignment = false)
    (hlogical : op.isLogical = false) {k : Scalar} (hk : k.isInteger = true) :
    ∃ operation, op.Selects k operation := by
  cases hcompare : op.isComparison with
  | true =>
    obtain ⟨instr, hinstr⟩ := exists_compareOp? hcompare k.isUnsigned
    exact ⟨_, .compare hcompare hinstr⟩
  | false =>
    obtain ⟨instr, hinstr⟩ := exists_arithOp? hassign hlogical hcompare hk
    exact ⟨_, .arith hcompare hinstr⟩

namespace FunctionBuilder

/-- Takes an operand of a kind to another one. -/
def toKind (source target : Scalar) (o : Operand) : BuildM Operand :=
  match (Conversion.ofScalars source target).op? with
  | none => pure o
  | some op => convert op o target.machineType

/-- Takes two operands to a kind and combines them there. -/
def combine (left right common result : Scalar) (operation : Operand → Operand → Operation)
    (l r : Operand) : BuildM Operand := do
  let a ← toKind left common l
  let b ← toKind right common r
  push (operation a b) (some result.machineType)

theorem appends_toKind {b : FunctionBuilder} (hb : b.Standing) (source target : Scalar) (o : Operand) :
    ∃ code, b.Appends ((toKind source target o).run b).2 code ∧ code.length ≤ 1 := by
  unfold toKind
  cases (Conversion.ofScalars source target).op? with
  | none => exact ⟨[], .refl hb, Nat.zero_le _⟩
  | some op => exact ⟨_, Appends.push hb _ _, Nat.le_refl 1⟩

/-- The code is three instructions at the most. -/
theorem appends_combine {b : FunctionBuilder} (hb : b.Standing) (left right common result : Scalar)
    (operation : Operand → Operand → Operation) (l r : Operand) :
    ∃ code, b.Appends ((combine left right common result operation l r).run b).2 code ∧
      code.length ≤ 3 := by
  obtain ⟨code₁, h₁, hle₁⟩ := appends_toKind hb left common l
  obtain ⟨code₂, h₂, hle₂⟩ := appends_toKind h₁.standing right common r
  have h₃ := Appends.push h₂.standing
    (operation ((toKind left common l).run b).1
      ((toKind right common r).run ((toKind left common l).run b).2).1) (some result.machineType)
  refine ⟨_, h₁.trans (h₂.trans h₃), ?_⟩
  simp only [List.length_append, List.length_singleton]
  omega

end FunctionBuilder

namespace CompileM

variable {p : Performer} {c : Context} {F : FunctionState} {location : Location} {op : BinaryOp}
  {left right k : Scalar} {l r : Operand} {operation : Operand → Operand → Operation}

theorem castTo_eq_ok (hF : c.function = some F) (hleft : left.isInteger = true)
    (hk : k.isInteger = true) (hb : k ≠ .bool) (o : Operand) :
    castTo ⟨.scalar left, o⟩ (.scalar k) location p c =
      .ok ⟨.scalar k, ((FunctionBuilder.toKind left k o).run F.builder).1⟩
        (c.advance ((FunctionBuilder.toKind left k o).run F.builder).2 F.scope) := by
  rw [castTo_apply hleft hk, if_neg fun h => hb h.1]
  unfold FunctionBuilder.toKind
  cases (Conversion.ofScalars left k).op? with
  | none => exact congrArg _ (Context.advance_self hF).symm
  | some op => exact map_eq_ok.mpr ⟨_, build_apply hF _, rfl⟩

/-- An operator on numbers is emitted as the conversion of both operands and its instruction. -/
theorem emitArith_eq_ok (p : Performer) (location : Location) (l r : Operand)
    (hF : c.function = some F) (hleft : left.isInteger = true) (hright : right.isInteger = true)
    (hb : left.common right ≠ .bool) (hselects : op.Selects (left.common right) operation) :
    let run := (FunctionBuilder.combine left right (left.common right)
      (resultKind op (left.common right)) operation l r).run F.builder
    emitArith op ⟨.scalar left, l⟩ ⟨.scalar right, r⟩ location p c =
      .ok ⟨.scalar (resultKind op (left.common right)), run.1⟩ (c.advance run.2 F.scope) := by
  have hk := Scalar.isInteger_common hleft hright
  have hF₁ := Context.function_advance hF
    ((FunctionBuilder.toKind left (left.common right) l).run F.builder).2 F.scope
  have hF₂ := Context.function_advance hF₁
    ((FunctionBuilder.toKind right (left.common right) r).run
      ((FunctionBuilder.toKind left (left.common right) l).run F.builder).2).2 F.scope
  change emitNumeric op ⟨.scalar left, l⟩ ⟨.scalar right, r⟩ (left.common right) location p c = _
  unfold emitNumeric
  rw [bind_of_eq_ok (castTo_eq_ok hF hleft hk hb l), bind_of_eq_ok (castTo_eq_ok hF₁ hright hk hb r)]
  cases hselects with
  | compare hcompare hinstr =>
    simp only [hcompare, if_true, emitCompare, hinstr, resultKind]
    rw [bind_of_eq_ok (build_apply hF₂ _)]
    simp only [Context.advance_advance]
    rfl
  | arith hcompare hinstr =>
    simp only [hcompare, Bool.false_eq_true, if_false, hinstr, resultKind]
    rw [bind_of_eq_ok (build_apply hF₂ _)]
    simp only [Context.advance_advance]
    rfl

end CompileM

namespace Machine

variable {image : Image} {caller : Caller} {b : FunctionBuilder} {frame : Frame} {s : State}
  {x y z : IntValue} {l r : Operand} {op : BinaryOp} {k : Scalar}
  {operation : Operand → Operand → Operation}

/-- The selected instruction computes the operator on two numbers of the kind. -/
theorem perform_selected (hselects : op.Selects k operation) {v w : Int}
    (hl : Denotes image frame l ⟨k, v⟩) (hr : Denotes image frame r ⟨k, w⟩) {type : IrType} :
    perform image caller frame type (operation l r) s =
      outcome s (if op.isComparison then some (.ofBool (IntValue.compares op v w))
        else (IntValue.arith? op k v w).map (IntValue.ofInt k)) := by
  cases hselects with
  | compare hcompare hinstr =>
    rw [if_pos hcompare]
    exact perform_compare caller _ _ hl hr hinstr
  | arith hcompare hinstr =>
    rw [if_neg (by simp [hcompare])]
    exact perform_arith caller _ _ hl hr hinstr

theorem executes_toKind (hb : b.Standing) (hx : Denotes image frame l x) (hbelow : l.Below b.nextValue)
    (hk : k.isInteger = true) (hbool : k ≠ .bool) :
    Executes image caller (FunctionBuilder.toKind x.kind k l) b frame s
      (Gives image (x.convert k).word k.machineType s.memory) := by
  unfold FunctionBuilder.toKind
  cases hop : (Conversion.ofScalars x.kind k).op? with
  | none =>
    refine .pure hb ⟨hbelow, ⟨?_, ?_⟩, rfl⟩
    · rw [word_convert_of_noop hx.wellFormed hk (fun h => absurd h hbool) hop]
      exact hx.eval
    · rw [← machineType_eq_of_noop hx.wellFormed.1 hk hop]
      exact hx.type
  | some op =>
    refine executes_pure hb (by simp [isVoid_machineType]) fun s' _ => ?_
    exact perform_convert caller _ _ hx hk hbool hop

theorem Gives.denotes_convert {m : Memory} (hk : k.isInteger = true) (hbool : k ≠ .bool)
    (h : Gives image (x.convert k).word k.machineType m l b frame s) :
    Denotes image frame l ⟨k, (x.convert k).value⟩ := by
  have hconvert : x.convert k = ⟨k, (x.convert k).value⟩ := by
    simp only [IntValue.convert, if_neg hbool, IntValue.ofInt]
  rw [← hconvert]
  refine ⟨IntValue.wellFormed_convert x hk, h.carries.eval, ?_⟩
  rw [IntValue.kind_convert]
  exact h.carries.typeOf

/-- The code of an operator gives what the operator means. -/
theorem executes_combine (hb : b.Standing) (hx : Denotes image frame l x) (hy : Denotes image frame r y)
    (hl : l.Below b.nextValue) (hr : r.Below b.nextValue) (hk : k.isInteger = true) (hbool : k ≠ .bool)
    (hselects : op.Selects k operation)
    (hz : (if op.isComparison then
        some (.ofBool (IntValue.compares op (x.convert k).value (y.convert k).value))
      else (IntValue.arith? op k (x.convert k).value (y.convert k).value).map (IntValue.ofInt k)) =
        some z) :
    Executes image caller (FunctionBuilder.combine x.kind y.kind k z.kind operation l r) b frame s
      (Gives image z.word z.kind.machineType s.memory) := by
  refine (executes_toKind hb hx hl hk hbool).bind fun o b₁ frame₁ s₁ hafter₁ hleft => ?_
  refine (executes_toKind hafter₁.standing (hafter₁.agrees.denotes hy hr) (hafter₁.below hr) hk
    hbool).bind fun o' b₂ frame₂ s₂ hafter₂ hright => ?_
  have hmemory : s₂.memory = s.memory := hright.memory.trans hleft.memory
  rw [← hmemory]
  refine executes_pure hafter₂.standing (by simp [isVoid_machineType]) fun s' _ => ?_
  have hdenotes := hafter₂.agrees.denotes (hleft.denotes_convert hk hbool) hleft.below
  rw [perform_selected hselects hdenotes (hright.denotes_convert hk hbool), hz]
  rfl

end Machine

/-- The code of an operator on two numbers gives the number `n` of a kind: wherever the operator is
emitted, at most three instructions stand behind what was there, and run with operands that stand for
the two numbers they end with the word of `n` and leave memory alone. -/
def BinaryOp.CodeGives (op : BinaryOp) (x y : IntValue) (kind : Scalar) (n : Int) : Prop :=
  ∀ (p : Performer) (c : Context) (F : FunctionState) (location : Location) (l r : Operand),
    c.function = some F → F.builder.Standing → l.Below F.builder.nextValue →
    r.Below F.builder.nextValue →
    ∃ (o : Operand) (b : FunctionBuilder) (code : List Instruction),
      CompileM.emitArith op ⟨.scalar x.kind, l⟩ ⟨.scalar y.kind, r⟩ location p c =
        .ok ⟨.scalar kind, o⟩ (c.advance b F.scope) ∧
      F.builder.Appends b code ∧ code.length ≤ 3 ∧
      ∀ (image : Image) (caller : Caller) (frame : Machine.Frame) (s : State),
        Denotes image frame l x → Denotes image frame r y → s.steps + code.length ≤ maxSteps →
        ∃ frame' s', code.foldlM (stepInstruction image caller) frame s = .ok frame' s' ∧
          image.eval frame' o = .ok (.ofInt n kind.bits) ∧ s'.memory = s.memory

/-- The code of an operator gives what the operator means, where it means something. -/
theorem BinaryOp.codeGives_of_binary? {op : BinaryOp} {x y z : IntValue}
    (hassign : op.isAssignment = false) (hlogical : op.isLogical = false) (hx : x.WellFormed)
    (hy : y.WellFormed) (hbool : x.kind.common y.kind ≠ .bool) (hz : IntValue.binary? op x y = some z) :
    op.CodeGives x y z.kind z.value := by
  intro p c F location l r hF hstanding hl hr
  have hk := Scalar.isInteger_common hx.1 hy.1
  obtain ⟨operation, hselects⟩ := op.exists_selects hassign hlogical hk
  have hemit := CompileM.emitArith_eq_ok p location l r hF hx.1 hy.1 hbool hselects
  rw [← IntValue.kind_binary? hz] at hemit
  obtain ⟨code, happends, hlength⟩ := FunctionBuilder.appends_combine hstanding x.kind y.kind
    (x.kind.common y.kind) z.kind operation l r
  refine ⟨_, _, code, hemit, happends, hlength, fun image caller frame s hxd hyd hsteps => ?_⟩
  have hexecutes : Executes image caller _ F.builder frame s
      (Gives image z.word z.kind.machineType s.memory) :=
    executes_combine hstanding hxd hyd hl hr hk hbool hselects hz
  obtain ⟨code', frame', s', hruns, hgives⟩ := hexecutes
  obtain rfl := happends.unique hruns.appends
  exact ⟨frame', s', hruns.run hsteps, hgives.carries.eval, hgives.memory⟩

namespace ConstValue

section Folded

variable {op : BinaryOp} {k₁ k₂ : Scalar} (h₁ : k₁ ∈ Scalar.foldedKinds) (h₂ : k₂ ∈ Scalar.foldedKinds)
  {v w : Int} (hv : k₁.InRange v) (hw : k₂.InRange w)

include h₁ hv

theorem denotes_of_inRange : (ConstValue.int v k₁).Denotes ⟨k₁, v⟩ :=
  ⟨Scalar.isInteger_of_folded h₁, Scalar.ne_bool_of_folded h₁, by rw [IntValue.ofInt, hv]⟩

include h₂ hw

theorem compatible_of_inRange (op : BinaryOp) : Compatible op (.int v k₁) (.int w k₂) := by
  have hkind : integerKind (.int v k₁) (.int w k₂) = k₁.common k₂ :=
    Scalar.wider_eq_common (Scalar.isInteger_of_folded h₁) (Scalar.isInteger_of_folded h₂)
  have hcommon := Scalar.common_folded h₁ h₂
  refine ⟨hv, hw, ?_, fun htype => ?_⟩
  · rintro v' w' ⟨⟩ ⟨⟩
    rw [hkind]
    exact ⟨Scalar.inRange_wrap h₁ hcommon hv, Scalar.inRange_wrap h₂ hcommon hw⟩
  · cases htype
    exact absurd rfl (Scalar.ne_bool_of_folded h₁)

/-- Folding an operator on two integers in the range of their kinds.  It is refused for a division by
zero and a shift by what is no count of bits; otherwise the constant is of the kind that the code of the
operator computes in, in its range, and the number that the code gives. -/
theorem foldBinary_agrees (hassign : op.isAssignment = false) (hlogical : op.isLogical = false) :
    k₁.wider k₂ = k₁.common k₂ ∧
    ((∃ problem, foldBinary op (.int v k₁) (.int w k₂) = .error problem) ↔
      ((op = .div ∨ op = .rem) ∧ w = 0) ∨
        ((op = .shl ∨ op = .shr) ∧ ¬(0 ≤ w ∧ w < (k₁.common k₂).bits))) ∧
    ∀ folded, foldBinary op (.int v k₁) (.int w k₂) = .ok folded →
      ∃ c n, folded = some c ∧
        c.type = .scalar (CompileM.resultKind op (k₁.common k₂)) ∧ c.toInt? = some n ∧
        (CompileM.resultKind op (k₁.common k₂)).InRange n ∧
        op.CodeGives ⟨k₁, v⟩ ⟨k₂, w⟩ (CompileM.resultKind op (k₁.common k₂)) n := by
  have hwider := Scalar.wider_eq_common (Scalar.isInteger_of_folded h₁) (Scalar.isInteger_of_folded h₂)
  have hcommon := Scalar.common_folded h₁ h₂
  have hkind : integerKind (.int v k₁) (.int w k₂) = k₁.common k₂ := hwider
  have hfold : foldBinary op (.int v k₁) (.int w k₂) = _ := foldBinary_of_ints rfl rfl
  rw [hkind] at hfold
  refine ⟨hwider, ?_, fun folded hok => ?_⟩
  · rw [← operandProblem?_isSome_iff, hfold]
    cases operandProblem? op (k₁.common k₂) w with
    | some problem => simp
    | none => simp
  · obtain ⟨c, hc⟩ := exists_foldIntegers hassign hlogical (k₁.common k₂) ((k₁.common k₂).wrap v)
      ((k₁.common k₂).wrap w)
    have hfolded : folded = some c := by
      rw [hok] at hfold
      cases hproblem : operandProblem? op (k₁.common k₂) w with
      | some problem =>
        rw [hproblem] at hfold
        cases hfold
      | none =>
        rw [hproblem] at hfold
        exact (Except.ok.inj hfold).trans hc
    subst hfolded
    have hleft := denotes_of_inRange h₁ hv
    have hright := denotes_of_inRange h₂ hw
    obtain ⟨z, hz, hcz⟩ := foldBinary_denotes hleft hright (compatible_of_inRange h₁ h₂ hv hw op) hok
    have hresult := IntValue.kind_binary? hz
    have hgives := op.codeGives_of_binary? hassign hlogical hleft.wellFormed hright.wellFormed
      (Scalar.ne_bool_of_folded hcommon) hz
    refine ⟨c, z.value, rfl, ?_, hcz.toInt?_eq (foldIntegers_inRange hcommon hc), ?_, ?_⟩
    · rw [hcz.type_eq, hresult]
    · rw [← hresult]
      exact hcz.wellFormed.2
    · rw [← hresult]
      exact hgives

end Folded

/-- A function is emitted. -/
def emptyContext : Context where
  tree := default
  function := some (.entry default {} (.scalar .ulong) false)

/-- The square of the largest 64-bit number is one, at compile time and in the function. -/
theorem foldBinary_agrees_square : let top : Int := 2 ^ 64 - 1
    let largest := constInt top Scalar.ulong.machineType
    (BinaryOp.mul.isAssignment = false ∧ BinaryOp.mul.isLogical = false ∧
      Scalar.ulong ∈ Scalar.foldedKinds ∧ Scalar.ulong.InRange top) ∧
    foldBinary .mul (.int top .ulong) (.int top .ulong) = .ok (some (.int 1 .ulong)) ∧
    ∃ (o : Operand) (c' : Context) (code : List Instruction) (frame' : Machine.Frame) (s' : State),
      CompileM.emitArith .mul ⟨.scalar .ulong, largest⟩ ⟨.scalar .ulong, largest⟩ default
        (performWithin 0) emptyContext = .ok ⟨.scalar .ulong, o⟩ c' ∧
      code.foldlM (stepInstruction ⟨{}, []⟩ fun _ _ => pure .void) ⟨default, [], {}⟩
        ⟨Memory.initial, 0⟩ = .ok frame' s' ∧
      Image.eval ⟨{}, []⟩ frame' o = .ok (.ofInt 1 64) := by
  intro top largest
  have hkind : Scalar.ulong ∈ Scalar.foldedKinds := by decide
  have htop : Scalar.ulong.InRange top := by decide
  have hsquare :
      Scalar.ulong.wrap (Word.wrapFull (Scalar.ulong.wrap top * Scalar.ulong.wrap top)) = 1 := by
    decide
  have hfold : foldBinary .mul (.int top .ulong) (.int top .ulong) = .ok (some (.int 1 .ulong)) :=
    congrArg (fun n => Except.ok (some (ConstValue.int n .ulong))) hsquare
  obtain ⟨-, -, hcode⟩ := foldBinary_agrees hkind hkind htop htop
    (show BinaryOp.mul.isAssignment = false from rfl) rfl
  obtain ⟨c, n, hc, -, hn, -, hgives⟩ := hcode _ hfold
  cases hc
  cases hn
  obtain ⟨o, b, code, hemit, -, hlength, hrun⟩ := hgives (performWithin 0) emptyContext
    (.entry default {} (.scalar .ulong) false) default largest largest rfl ⟨_, rfl, rfl⟩ trivial trivial
  have hdenotes : Machine.Denotes ⟨{}, []⟩ ⟨default, [], {}⟩ largest ⟨.ulong, top⟩ := by
    have h := denotes_constInt ⟨{}, []⟩ ⟨default, [], {}⟩ (k := .ulong) rfl top
    rwa [IntValue.ofInt, htop] at h
  obtain ⟨frame', s', hok, heval, -⟩ := hrun _ (fun _ _ => pure .void) _ ⟨Memory.initial, 0⟩ hdenotes
    hdenotes (by rw [Nat.zero_add]; exact hlength.trans (by decide))
  exact ⟨⟨rfl, rfl, hkind, htop⟩, hfold, o, _, code, frame', s', hemit, hok, heval⟩

end ConstValue
end UnitCompiler
