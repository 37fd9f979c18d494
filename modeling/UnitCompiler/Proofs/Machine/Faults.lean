import UnitCompiler.Proofs.Machine.Walk

/-!
# The faults of operations

An operation faults because a register or an argument is missing, or because of the values that it works
on.  No operation takes a run off its way by itself.
-/

namespace UnitCompiler
namespace Machine

/-- The faults that come from values, not from the way that a run took, and do not end the machine. -/
def Fault.isPlain : Fault → Bool
  | .registerUnset _ | .registerUntyped _ | .missingArgument _ | .missingBlock _ | .notTerminated _
  | .noBlocks _ | .externalFunction _ | .argumentCount .. | .callDepth _ | .stepLimit | .stalled
  | .divisorVanishes | .addressOverflow => false
  | _ => true

/-- The faults of memory: those that come from values, and an address of more than 64 bits. -/
def Fault.FromMemory (e : Fault) : Prop := e.isPlain ∨ e = .addressOverflow

/-- Every fault of a computation is of a kind. -/
def Only {α : Type} (P : Fault → Prop) (x : Except Fault α) : Prop := ∀ e, x = .error e → P e

/-- Every fault of a computation comes from values. -/
abbrev Plain {α : Type} (x : Except Fault α) : Prop := Only (·.isPlain) x

namespace Only

variable {α β : Type} {P Q : Fault → Prop}

theorem ok (a : α) : Only P (.ok a) := by
  intro e h
  cases h

theorem error {e : Fault} (h : P e) : Only P (.error e : Except Fault α) := by
  intro e' he
  cases he
  exact h

theorem imp {x : Except Fault α} (h : Only P x) (hPQ : ∀ e, P e → Q e) : Only Q x :=
  fun e he => hPQ e (h e he)

theorem bind {x : Except Fault α} {next : α → Except Fault β} (h : Only P x)
    (h' : ∀ a, Only P (next a)) : Only P (x >>= next) := by
  intro e he
  cases x with
  | error e' =>
    cases he
    exact h e rfl
  | ok a => exact h' a e he

theorem map {x : Except Fault α} (h : Only P x) (g : α → β) : Only P (x.map g) := by
  intro e he
  cases x with
  | error e' =>
    cases he
    exact h e rfl
  | ok a => cases he

theorem mapM {f : α → Except Fault β} {l : List α} (h : ∀ a ∈ l, Only P (f a)) :
    Only P (l.mapM f) := by
  induction l with
  | nil => exact ok []
  | cons a l ih =>
    rw [List.mapM_cons]
    exact bind (h a (by simp)) fun b => bind (ih fun c hc => h c (by simp [hc])) fun bs => ok _

end Only

/-- The same of an action on a state. -/
def OnlyIn {σ α : Type} (P : Fault → Prop) (act : EStateM Fault σ α) : Prop :=
  ∀ s e s', act s = .error e s' → P e

namespace OnlyIn

variable {σ α β : Type} {P Q : Fault → Prop}

theorem pure (a : α) : OnlyIn P (Pure.pure a : EStateM Fault σ α) := by
  intro s e s' h
  cases h

theorem throw {e : Fault} (he : P e) :
    OnlyIn P (MonadExcept.throw e : EStateM Fault σ α) := by
  intro s e' s' h
  cases h
  exact he

theorem throwBind {e : Fault} {next : α → EStateM Fault σ β} (he : P e) :
    OnlyIn P (MonadExcept.throw e >>= next) := by
  intro s e' s' h
  cases h
  exact he

theorem imp {act : EStateM Fault σ α} (h : OnlyIn P act) (hPQ : ∀ e, P e → Q e) : OnlyIn Q act :=
  fun s e s' hrun => hPQ e (h s e s' hrun)

theorem bind {act : EStateM Fault σ α} {next : α → EStateM Fault σ β} (h : OnlyIn P act)
    (h' : ∀ a, OnlyIn P (next a)) : OnlyIn P (act >>= next) := by
  intro s e s' hrun
  change EStateM.bind act next s = _ at hrun
  unfold EStateM.bind at hrun
  cases hact : act s with
  | ok a s'' =>
    rw [hact] at hrun
    exact h' a s'' e s' hrun
  | error e' s'' =>
    rw [hact] at hrun
    cases hrun
    exact h s e s' hact

theorem forM {l : List α} {f : α → EStateM Fault σ PUnit} (h : ∀ a, OnlyIn P (f a)) :
    OnlyIn P (l.forM f) := by
  induction l with
  | nil => exact pure _
  | cons a l ih => exact bind (h a) fun _ => ih

theorem get : OnlyIn P (MonadState.get : EStateM Fault σ σ) := by
  intro s e s' h
  cases h

theorem modify (g : σ → σ) : OnlyIn P (modify g : EStateM Fault σ PUnit) := by
  intro s e s' h
  cases h

theorem liftFault {x : Except Fault α} (h : Only P x) : OnlyIn P (liftFault x) := by
  cases x with
  | ok a => exact pure a
  | error e => exact throw (h e rfl)

/-- What comes after a value may depend on where the value is from. -/
theorem liftFaultBind {x : Except Fault α} {next : α → EStateM Fault State β} (h : Only P x)
    (h' : ∀ a, x = .ok a → OnlyIn P (next a)) : OnlyIn P (Machine.liftFault x >>= next) := by
  cases x with
  | ok a => exact h' a rfl
  | error e => exact throwBind (h e rfl)

theorem onMemory {act : EStateM Fault Memory α} (h : OnlyIn P act) : OnlyIn P (onMemory act) := by
  intro s e s' hrun
  unfold Machine.onMemory at hrun
  cases hact : act s.memory with
  | ok a m =>
    rw [hact] at hrun
    cases hrun
  | error e' m =>
    rw [hact] at hrun
    cases hrun
    exact h s.memory e m hact

end OnlyIn

/-! ### Memory -/

namespace Memory

theorem fromMemory_checkAccess (m : Memory) (address count : Nat) :
    Only Fault.FromMemory (m.checkAccess address count) := by
  unfold checkAccess
  split_ifs
  · exact .error (.inr rfl)
  · exact .error (.inl rfl)
  · exact .error (.inl rfl)
  · exact .ok ()

theorem fromMemory_readWord (m : Memory) (address count : Nat) :
    Only Fault.FromMemory (m.readWord address count) :=
  .bind (.bind (fromMemory_checkAccess m address count) fun _ => .ok _) fun _ => .ok _

theorem fromMemory_writeWord (address count n : Nat) : OnlyIn Fault.FromMemory (writeWord address count n) := by
  intro m e m' h
  unfold writeWord at h
  have haccess := fromMemory_checkAccess m address count
  cases hcheck : m.checkAccess address count with
  | ok _ =>
    rw [hcheck] at h
    cases h
  | error e' =>
    rw [hcheck] at h
    cases h
    exact haccess e hcheck

theorem fromMemory_allocate (size align : Nat) : OnlyIn Fault.FromMemory (allocate size align) := by
  intro m e m' h
  unfold allocate at h
  dsimp only at h
  split_ifs at h
  · cases h
    exact .inr rfl
  · cases h
    exact .inl rfl

theorem fromMemory_storeInt (address : Nat) (value : Value) (type : IrType) :
    OnlyIn Fault.FromMemory (storeInt address value type) := by
  unfold storeInt
  cases value with
  | int word bits => exact fromMemory_writeWord _ _ _
  | void | float _ | ptr _ | aggregate _ => exact .throw (.inl rfl)

theorem fromMemory_storePtr (address : Nat) (value : Value) (type : IrType) :
    OnlyIn Fault.FromMemory (storePtr address value type) := by
  unfold storePtr
  cases value with
  | ptr target => exact fromMemory_writeWord _ _ _
  | void | float _ | int _ _ | aggregate _ => exact .throw (.inl rfl)

mutual

theorem fromMemory_store (address : Nat) (value : Value) (type : IrType) :
    OnlyIn Fault.FromMemory (store address value type) := by
  match type with
  | .void => exact .pure _
  | .i1 | .i8 | .i16 | .i32 | .i64 | .i128 => exact fromMemory_storeInt _ _ _
  | .f16 | .bf16 | .f128 => exact .throw (.inl rfl)
  | .f32 | .f64 =>
    cases value with
    | float x => exact fromMemory_writeWord _ _ _
    | void | int _ _ | ptr _ | aggregate _ => exact .throw (.inl rfl)
  | .ptr _ | .function .. => exact fromMemory_storePtr _ _ _
  | .array element _ | .vector element _ =>
    cases value with
    | aggregate items => exact .forM fun _ => fromMemory_store _ _ element
    | void | int _ _ | ptr _ | float _ => exact .throw (.inl rfl)
  | .struct fields _ _ =>
    cases value with
    | aggregate items => exact fromMemory_storeFields _ _ _ fields
    | void | int _ _ | ptr _ | float _ => exact .throw (.inl rfl)

theorem fromMemory_storeFields (address : Nat) (items : List Value) (offsets : List Nat)
    (fields : List IrType) : OnlyIn Fault.FromMemory (storeFields address items offsets fields) := by
  match fields, items, offsets with
  | [], _, _ => exact .pure _
  | field :: fields, item :: items, offset :: offsets =>
    exact .bind (fromMemory_store _ item field) fun _ => fromMemory_storeFields _ items offsets fields
  | _ :: _, [], _ | _ :: _, _ :: _, [] => exact .pure _

end

theorem fromMemory_loadEach {read : Nat → Except Fault Value} (h : ∀ n, Only Fault.FromMemory (read n))
    (count index : Nat) (done : List Value) : Only Fault.FromMemory (loadEach read count index done) := by
  rw [loadEach_eq]
  exact .map (.mapM fun n _ => h n) _

mutual

theorem fromMemory_load (m : Memory) (address : Nat) (type : IrType) :
    Only Fault.FromMemory (m.load address type) := by
  match type with
  | .void => exact .ok _
  | .i1 | .i8 | .i16 | .i32 | .i64 | .i128 | .f32 | .f64 | .ptr _ | .function .. =>
    exact .bind (fromMemory_readWord _ _ _) fun _ => .ok _
  | .f16 | .bf16 | .f128 => exact .error (.inl rfl)
  | .array element _ | .vector element _ =>
    exact .bind (fromMemory_loadEach (fun _ => fromMemory_load m _ element) _ _ _) fun _ => .ok _
  | .struct fields _ _ => exact .bind (fromMemory_loadFields m address _ fields) fun _ => .ok _

theorem fromMemory_loadFields (m : Memory) (address : Nat) (offsets : List Nat)
    (fields : List IrType) : Only Fault.FromMemory (loadFields m address offsets fields) := by
  match fields, offsets with
  | [], _ => exact .ok _
  | _ :: _, [] => exact .ok _
  | field :: fields, offset :: offsets =>
    exact .bind (fromMemory_load m _ field) fun _ =>
      .bind (fromMemory_loadFields m address offsets fields) fun _ => .ok _

end

end Memory

/-! ### Values -/

/-- A division by a number that is not zero, but has no bit in the width of the dividend. -/
def DivisorVanishes (op : ArithOp) (bits y : Nat) : Prop :=
  (op = .div ∨ op = .rem) ∧ y ≠ 0 ∧ Word.toInt bits y = 0

instance (op : ArithOp) (bits y : Nat) : Decidable (DivisorVanishes op bits y) :=
  inferInstanceAs (Decidable ((op = .div ∨ op = .rem) ∧ y ≠ 0 ∧ Word.toInt bits y = 0))

/-- A division checks its divisor twice: for zero as it stands, and for zero in the dividend's width
if it is signed. -/
theorem integerArith_division (bits x y : Nat) {op : ArithOp}
    (hop : op ∈ [ArithOp.div, .rem, .udiv, .urem]) :
    ∃ n < Word.modulus bits, integerArith op bits x y =
      if y = 0 then .error .divisionByZero
      else if DivisorVanishes op bits y then .error .divisorVanishes
      else .ok n := by
  have hsigned {op : ArithOp} (hop : op = .div ∨ op = .rem) (hy : y ≠ 0) :
      DivisorVanishes op bits y ↔ Word.toInt bits y = 0 :=
    ⟨fun h => h.2.2, fun h => ⟨hop, hy, h⟩⟩
  have hunsigned (op : ArithOp) (hop : ¬(op = .div ∨ op = .rem)) : ¬DivisorVanishes op bits y :=
    fun h => hop h.1
  simp only [List.mem_cons, List.not_mem_nil, or_false] at hop
  rcases hop with rfl | rfl | rfl | rfl
  · refine ⟨_, Word.ofInt_lt bits ((Word.toInt bits x).tdiv (Word.toInt bits y)), ?_⟩
    by_cases hy : y = 0
    · simp only [integerArith, hy, if_true]
    · simp only [integerArith, hy, if_false, hsigned (.inl rfl) hy]
  · refine ⟨_, Word.ofInt_lt bits ((Word.toInt bits x).tmod (Word.toInt bits y)), ?_⟩
    by_cases hy : y = 0
    · simp only [integerArith, hy, if_true]
    · simp only [integerArith, hy, if_false, hsigned (.inr rfl) hy]
  · refine ⟨_, Word.mask_lt bits (x / y), ?_⟩
    simp only [integerArith, hunsigned .udiv (by decide), if_false]
  · refine ⟨_, Word.mask_lt bits (x % y), ?_⟩
    simp only [integerArith, hunsigned .urem (by decide), if_false]

theorem only_integerArith (op : ArithOp) (bits x y : Nat) :
    Only (fun e => e.isPlain ∨ e = .divisorVanishes ∧ DivisorVanishes op bits y)
      (integerArith op bits x y) := by
  by_cases hop : op ∈ [ArithOp.div, .rem, .udiv, .urem]
  · obtain ⟨n, -, h⟩ := integerArith_division bits x y hop
    rw [h]
    split_ifs with hy hvanishes
    · exact .error (.inl rfl)
    · exact .error (.inr ⟨rfl, hvanishes⟩)
    · exact .ok _
  · cases op <;> first | exact .ok _ | exact absurd (by decide) hop

theorem only_arith (op : ArithOp) (lhs rhs : Operand) (a b : Value) (type : IrType) :
    Only (fun e => e.isPlain ∨ e = .divisorVanishes ∧ ∃ x bits y width, a = .int x bits ∧
      b = .int y width ∧ DivisorVanishes op bits y) (arith op lhs rhs a b type) := by
  unfold arith
  split
  · split
    · exact .ok _
    · exact .error (.inl rfl)
  · refine .map ((only_integerArith _ _ _ _).imp fun e => ?_) _
    rintro (hplain | ⟨he, hvanishes⟩)
    · exact .inl hplain
    · exact .inr ⟨he, _, _, _, _, rfl, rfl, hvanishes⟩
  · exact .error (.inl rfl)

theorem plain_compareValues (op : CompareOp) (a b : Value) :
    Plain (compareValues op a b) := by
  unfold compareValues
  split
  · split <;> exact .ok _
  · split_ifs <;> exact .ok _
  · exact .ok _
  · exact .error rfl

mutual

theorem plain_constantValue (c : IrConstant) : Plain (constantValue c) := by
  match c with
  | .int _ _ | .uint _ _ | .bool _ | .string _ | .null _ | .undef _ | .zero _ => exact .ok _
  | .float value type =>
    unfold constantValue
    split
    · exact .ok _
    · exact .ok _
    · exact .error rfl
  | .array items _ | .struct items _ => exact .map (plain_constantValues items) _

theorem plain_constantValues (cs : List IrConstant) : Plain (constantValues cs) := by
  match cs with
  | [] => exact .ok _
  | c :: rest =>
    exact .bind (plain_constantValue c) fun _ =>
      .bind (plain_constantValues rest) fun _ => .ok _

end

theorem plain_extractAt (value : Value) (path : List Nat) : Plain (extractAt value path) := by
  induction path generalizing value with
  | nil => exact .ok _
  | cons index path ih =>
    unfold extractAt
    split
    · split
      · exact ih _
      · exact .error rfl
    · exact .error rfl

theorem plain_insertAt (value element : Value) (path : List Nat) :
    Plain (insertAt value element path) := by
  induction path generalizing value with
  | nil => exact .ok _
  | cons index path ih =>
    unfold insertAt
    split
    · split
      · exact .bind (ih _) fun _ => .ok _
      · exact .error rfl
    · exact .error rfl

theorem plain_convertValue (op : ConvertOp) (value : Value) (type : IrType) :
    Plain (convertValue op value type) := by
  cases op with
  | trunc | zext | sext | fptosi =>
    unfold convertValue
    dsimp only
    split
    · exact .ok _
    · exact .error rfl
  | fptrunc | fpext | sitofp | bitcast => exact .ok _

theorem fromMemory_bitcast (value : Value) (source target : IrType) :
    OnlyIn Fault.FromMemory (bitcast value source target) := by
  unfold bitcast
  dsimp only
  split
  · exact .pure _
  · exact .pure _
  · split
    · exact .throwBind (.inl rfl)
    · refine .bind .get fun _ => .bind (Memory.fromMemory_allocate _ _) fun address => ?_
      refine .bind (Memory.fromMemory_store _ _ _) fun _ =>
        .bind .get fun m => .bind (.modify _) fun _ => ?_
      have hresult := Memory.fromMemory_load m address target
      split
      · exact .pure _
      next e hm => exact .throw (hresult e hm)

theorem plain_indexStep (type : IrType) (index : Int) : Plain (indexStep type index) := by
  cases type with
  | struct fields isPacked name =>
    unfold indexStep
    dsimp only
    split
    · exact .ok _
    · exact .error rfl
  | array element length | vector element lanes => exact .ok _
  | _ => exact .error rfl

/-! ### Operands -/

/-- Why an operand is missing from a frame. -/
inductive Frame.Lacks (frame : Frame) : Operand → Fault → Prop
  | unset {id : Nat} (h : frame.registers[id]? = none) : Lacks frame (.register id) (.registerUnset id)
  | untyped {id : Nat} (h : frame.registers[id]? = none) : Lacks frame (.register id) (.registerUntyped id)
  | unpassed {index : Nat} (h : frame.args[index]? = none) :
      Lacks frame (.argument index) (.missingArgument index)
  | undeclared {index : Nat} (h : frame.signature.params[index]? = none) :
      Lacks frame (.argument index) (.missingArgument index)

/-- A fault that comes from values or from an operand that is missing. -/
def Frame.Explains (frame : Frame) (operands : List Operand) (e : Fault) : Prop :=
  e.isPlain ∨ ∃ operand ∈ operands, frame.Lacks operand e

/-- An operation that divides by a number that vanishes in the width of the dividend. -/
inductive Vanishes (i : Image) (frame : Frame) : Operation → Prop
  | divide {op : ArithOp} {lhs rhs : Operand} {x bits y width : Nat}
      (hlhs : i.eval frame lhs = .ok (.int x bits)) (hrhs : i.eval frame rhs = .ok (.int y width))
      (h : DivisorVanishes op bits y) : Vanishes i frame (.arith op lhs rhs)

/-- An operation that reads memory or may change it. -/
def accessesMemory : Operation → Bool
  | .load .. => true
  | operation => touchesMemory operation

/-- What the fault of an operation comes from. -/
def Image.Explains (i : Image) (frame : Frame) (operation : Operation) (e : Fault) : Prop :=
  frame.Explains operation.operands e ∨ e = .divisorVanishes ∧ Vanishes i frame operation ∨
    e = .addressOverflow ∧ accessesMemory operation = true

section Operands

variable {i : Image} {frame : Frame} {operands : List Operand}

theorem plain_functionAt (address : Nat) : Plain (i.functionAt address) := by
  unfold Image.functionAt
  split_ifs
  · exact .error rfl
  · split
    · exact .ok _
    · exact .error rfl

theorem explains_eval {operand : Operand} (hmem : operand ∈ operands) :
    Only (frame.Explains operands) (i.eval frame operand) := by
  cases operand with
  | register id =>
    unfold Image.eval
    dsimp only
    split
    · exact .ok _
    next h => exact .error (.inr ⟨_, hmem, .unset h⟩)
  | argument index =>
    unfold Image.eval
    dsimp only
    split
    · exact .ok _
    next h => exact .error (.inr ⟨_, hmem, .unpassed h⟩)
  | global _ _ | function _ =>
    unfold Image.eval
    dsimp only
    split
    · exact .ok _
    · exact .error (.inl rfl)
  | constant value => exact (plain_constantValue value).imp fun _ => .inl
  | undef type | null type => exact .ok _

theorem explains_evalPtr {operand : Operand} (hmem : operand ∈ operands) :
    Only (frame.Explains operands) (i.evalPtr frame operand) := by
  refine .bind (explains_eval hmem) fun v => ?_
  cases v with
  | ptr address => exact .ok _
  | void | int _ _ | float _ | aggregate _ => exact .error (.inl rfl)

theorem explains_typeOf {operand : Operand} (hmem : operand ∈ operands) :
    Only (frame.Explains operands) (frame.typeOf operand) := by
  cases operand with
  | register id =>
    unfold Frame.typeOf
    dsimp only
    split
    · exact .ok _
    next h => exact .error (.inr ⟨_, hmem, .untyped h⟩)
  | argument index =>
    unfold Frame.typeOf
    dsimp only
    split
    · exact .ok _
    next h => exact .error (.inr ⟨_, hmem, .undeclared h⟩)
  | constant _ | global _ _ | function _ | undef _ | null _ => exact .ok _

theorem explains_followIndices {indices : List Operand} (hmem : ∀ o ∈ indices, o ∈ operands)
    (type : IrType) (address : Int) :
    Only (frame.Explains operands) (followIndices i frame type address indices) := by
  induction indices generalizing type address with
  | nil => exact .ok _
  | cons operand rest ih =>
    refine .bind (explains_eval (hmem operand (by simp))) fun v => ?_
    refine .bind ((plain_indexStep _ _).imp fun _ => .inl) fun step => ?_
    exact ih (fun o ho => hmem o (by simp [ho])) _ _

theorem explains_elementAddress {base : Operand} {indices : List Operand} :
    Only (frame.Explains (base :: indices)) (elementAddress i frame base indices) := by
  refine .bind (explains_typeOf (by simp)) fun baseType => ?_
  refine .bind (explains_evalPtr (by simp)) fun address => ?_
  split
  · exact .error (.inl rfl)
  · cases indices with
    | nil => exact .ok _
    | cons first rest =>
      refine .bind (explains_eval (by simp)) fun v => ?_
      refine .bind (explains_followIndices ?_ _ _) fun final => .ok _
      intro o ho
      simp [ho]

/-- An operation faults because of its values or for want of an operand, as long as the function it calls
has no fault. -/
theorem explains_perform (operation : Operation) (type : IrType) :
    OnlyIn (i.Explains frame operation) (perform i idle frame type operation) := by
  have heval : ∀ operand ∈ operation.operands,
      OnlyIn (i.Explains frame operation) (liftFault (i.eval frame operand)) :=
    fun operand hmem => .liftFault ((explains_eval hmem).imp fun _ => .inl)
  have hptr : ∀ operand ∈ operation.operands,
      OnlyIn (i.Explains frame operation) (liftFault (i.evalPtr frame operand)) :=
    fun operand hmem => .liftFault ((explains_evalPtr hmem).imp fun _ => .inl)
  have htype : ∀ operand ∈ operation.operands,
      OnlyIn (i.Explains frame operation) (liftFault (frame.typeOf operand)) :=
    fun operand hmem => .liftFault ((explains_typeOf hmem).imp fun _ => .inl)
  have hvalues {α : Type} {x : Except Fault α} (h : Plain x) :
      OnlyIn (i.Explains frame operation) (liftFault x) := .liftFault (h.imp fun _ he => .inl (.inl he))
  have hfault (haccesses : accessesMemory operation = true) (e : Fault) (he : e.FromMemory) :
      i.Explains frame operation e := he.imp .inl fun h => .inr ⟨h, haccesses⟩
  have hmemory {α : Type} {act : EStateM Fault Memory α} (haccesses : accessesMemory operation = true)
      (h : OnlyIn Fault.FromMemory act) : OnlyIn (i.Explains frame operation) (onMemory act) :=
    .onMemory (h.imp (hfault haccesses))
  cases operation with
  | arith op lhs rhs =>
    refine .liftFaultBind ((explains_eval (by simp [Operation.operands])).imp fun _ => .inl) fun a ha => ?_
    refine .liftFaultBind ((explains_eval (by simp [Operation.operands])).imp fun _ => .inl) fun b hb => ?_
    refine .liftFault ((only_arith op lhs rhs a b type).imp fun e => ?_)
    rintro (hplain | ⟨he, x, bits, y, width, rfl, rfl, hvanishes⟩)
    · exact .inl (.inl hplain)
    · exact .inr (.inl ⟨he, .divide ha hb hvanishes⟩)
  | compare op lhs rhs =>
    exact .bind (heval _ (by simp [Operation.operands])) fun _ =>
      .bind (heval _ (by simp [Operation.operands])) fun _ => hvalues (plain_compareValues _ _ _)
  | neg value | not value =>
    refine .bind (heval _ (by simp [Operation.operands])) fun v => ?_
    cases v <;> first | exact .pure _ | exact .throw (.inl (.inl rfl))
  | load address align isVolatile =>
    exact .bind (hptr _ (by simp [Operation.operands])) fun _ => .bind .get fun _ =>
      .liftFault ((Memory.fromMemory_load _ _ _).imp (hfault rfl))
  | store value address align isVolatile =>
    exact .bind (htype _ (by simp [Operation.operands])) fun _ =>
      .bind (heval _ (by simp [Operation.operands])) fun _ =>
        .bind (hptr _ (by simp [Operation.operands])) fun _ =>
          .bind (hmemory rfl (Memory.fromMemory_store _ _ _)) fun _ => .pure _
  | alloca slot align =>
    exact .bind (hmemory rfl (Memory.fromMemory_allocate _ _)) fun _ =>
      .bind (hmemory rfl (Memory.fromMemory_store _ _ _)) fun _ => .pure _
  | elementPtr base indices inbounds => exact .liftFault (explains_elementAddress.imp fun _ => .inl)
  | ptrToInt value => exact .bind (hptr _ (by simp [Operation.operands])) fun _ => .pure _
  | intToPtr value => exact .bind (heval _ (by simp [Operation.operands])) fun _ => .pure _
  | convert op value target =>
    have hvalue := heval value (by simp [Operation.operands])
    cases op with
    | bitcast =>
      exact .bind (htype _ (by simp [Operation.operands])) fun _ =>
        .bind hvalue fun _ => hmemory rfl (fromMemory_bitcast _ _ _)
    | trunc | zext | sext | fptrunc | fpext | fptosi | sitofp =>
      exact .bind hvalue fun _ => hvalues (plain_convertValue _ _ _)
  | extract aggregate indices =>
    exact .bind (heval _ (by simp [Operation.operands])) fun _ => hvalues (plain_extractAt _ _)
  | insert aggregate element indices =>
    exact .bind (heval _ (by simp [Operation.operands])) fun _ =>
      .bind (heval _ (by simp [Operation.operands])) fun _ => hvalues (plain_insertAt _ _ _)
  | call callee args convention isTail =>
    have hargs : ∀ name, OnlyIn (i.Explains frame (.call callee args convention isTail))
        (do
          let values ← args.mapM fun arg => liftFault (i.eval frame arg)
          idle name values) := by
      intro name
      refine .bind ?_ fun values => .pure _
      intro st e st' h
      rw [mapM_liftFault] at h
      exact .inl (OnlyIn.liftFault (.mapM fun arg harg => explains_eval (.tail _ harg)) st e st' h)
    by_cases hdirect : ∃ name, callee = .function name
    · obtain ⟨name, rfl⟩ := hdirect
      exact hargs name
    · rw [perform_indirect fun g hg => hdirect ⟨g, hg⟩]
      exact .bind (hptr _ (by simp [Operation.operands])) fun _ =>
        .bind (hvalues (plain_functionAt _)) hargs

/-- A block with a terminator is left because of a value or for want of an operand, if it is not left as
the terminator says. -/
theorem explains_leaveBlock {b : Block} {t : Terminator} (hterm : b.terminator = some t) :
    Only (frame.Explains t.operands) (leaveBlock i frame b) := by
  unfold leaveBlock
  rw [hterm]
  match t with
  | .ret (some value) => exact .map (explains_eval (by simp [Terminator.operands])) _
  | .condBr condition _ _ =>
    exact .bind (explains_eval (by simp [Terminator.operands])) fun _ => .ok _
  | .ret none | .br _ => exact .ok _
  | .unreachable => exact .error (.inl rfl)

end Operands

end Machine
end UnitCompiler
