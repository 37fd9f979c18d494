import UnitCompiler.Proofs.Machine.Control

/-!
# Instructions on numbers

What single instructions do when their operands are numbers: which register they set, and that they
leave all other registers alone.
-/

namespace UnitCompiler

/-- An operand that does not depend on registers from `n` on. -/
def Operand.Below (n : Nat) : Operand → Prop
  | .register id => id < n
  | _ => True

theorem Operand.Below.mono {n m : Nat} {o : Operand} (h : o.Below n) (hnm : n ≤ m) : o.Below m := by
  cases o with
  | register id => exact lt_of_lt_of_le h hnm
  | constant _ | global _ _ | function _ | argument _ | undef _ | null _ => trivial

namespace Machine

/-- An operand stands for a number in a frame. -/
structure Denotes (i : Image) (frame : Frame) (o : Operand) (x : IntValue) : Prop where
  wellFormed : x.WellFormed
  eval : i.eval frame o = .ok x.word
  type : frame.typeOf o = .ok x.kind.machineType

/-- Two frames of one activation that agree but for the registers from `lo` up to `hi`. -/
structure Agrees (lo hi : Nat) (frame frame' : Frame) : Prop where
  signature : frame'.signature = frame.signature
  args : frame'.args = frame.args
  registers : ∀ r, r < lo ∨ hi ≤ r → frame'.registers[r]? = frame.registers[r]?

namespace Agrees

theorem refl (lo hi : Nat) (frame : Frame) : Agrees lo hi frame frame := ⟨rfl, rfl, fun _ _ => rfl⟩

theorem trans {lo mid mid' hi : Nat} {f f₁ f₂ : Frame} (h : Agrees lo mid f f₁)
    (h' : Agrees mid' hi f₁ f₂) (hlo : lo ≤ mid') (hhi : mid ≤ hi) : Agrees lo hi f f₂ :=
  ⟨h'.signature.trans h.signature, h'.args.trans h.args, fun r hr =>
    (h'.registers r (by omega)).trans (h.registers r (by omega))⟩

theorem mono {lo hi lo' hi' : Nat} {f f₁ : Frame} (h : Agrees lo hi f f₁) (hlo : lo' ≤ lo)
    (hhi : hi ≤ hi') : Agrees lo' hi' f f₁ :=
  ⟨h.signature, h.args, fun r hr => h.registers r (by omega)⟩

variable {lo hi : Nat} {frame frame' : Frame} (h : Agrees lo hi frame frame')
include h

theorem eval (i : Image) {o : Operand} (ho : ∀ r, o = .register r → r < lo ∨ hi ≤ r) :
    i.eval frame' o = i.eval frame o := by
  cases o with
  | register r => simp only [Image.eval, h.registers r (ho r rfl)]
  | argument index => simp only [Image.eval, h.args]
  | constant _ | global _ _ | function _ | undef _ | null _ => rfl

theorem typeOf {o : Operand} (ho : ∀ r, o = .register r → r < lo ∨ hi ≤ r) :
    frame'.typeOf o = frame.typeOf o := by
  cases o with
  | register r => simp only [Frame.typeOf, h.registers r (ho r rfl)]
  | argument index => simp only [Frame.typeOf, h.signature]
  | constant _ | global _ _ | function _ | undef _ | null _ => rfl

theorem denotes {i : Image} {o : Operand} {x : IntValue} (hx : Denotes i frame o x)
    (ho : o.Below lo) : Denotes i frame' o x := by
  have hout : ∀ r, o = .register r → r < lo ∨ hi ≤ r := by
    rintro r rfl
    exact Or.inl ho
  exact ⟨hx.wellFormed, (h.eval i hout).trans hx.eval, (h.typeOf hout).trans hx.type⟩

end Agrees

theorem agrees_keep (frame : Frame) (i : Instruction) (v : Value) :
    Agrees i.id (i.id + 1) frame (frame.keep i v) := by
  unfold Frame.keep
  simp only
  split_ifs
  · exact .refl _ _ _
  · refine ⟨rfl, rfl, fun r hr => ?_⟩
    have hne : ¬ i.id = r := by omega
    simp [Std.HashMap.getElem?_insert, hne]

/-- The register of an instruction with a result. -/
theorem getElem?_keep (frame : Frame) {i : Instruction} {type : IrType} (htype : i.type = some type)
    (hvoid : type.isVoid = false) (v : Value) :
    (frame.keep i v).registers[i.id]? = some ⟨v, type⟩ := by
  simp [Frame.keep, htype, hvoid]

theorem isVoid_machineType (k : Scalar) : k.machineType.isVoid = false := by cases k <;> rfl

/-- An instruction whose result is a number leaves it in its register. -/
theorem denotes_keep (image : Image) (frame : Frame) {i : Instruction} {x : IntValue}
    (hx : x.WellFormed) (htype : i.type = some x.kind.machineType) :
    Denotes image (frame.keep i x.word) (.register i.id) x := by
  have hreg := getElem?_keep frame htype (isVoid_machineType _) x.word
  exact ⟨hx, by simp [Image.eval, hreg], by simp [Frame.typeOf, hreg]⟩

/-- An integer constant of a kind stands for the number it is congruent to. -/
theorem denotes_constInt (image : Image) (frame : Frame) {k : Scalar} (hk : k.isInteger = true)
    (v : Int) : Denotes image frame (constInt v k.machineType) (IntValue.ofInt k v) := by
  refine ⟨IntValue.wellFormed_ofInt hk v, ?_, rfl⟩
  simp [constInt, Image.eval, constantValue, intBits?_machineType hk, IntValue.word_ofInt]

theorem denotes_bool (image : Image) (frame : Frame) (v : Bool) :
    Denotes image frame (.constant (.bool v)) (IntValue.ofBool v) := by
  refine ⟨IntValue.wellFormed_ofBool v, ?_, rfl⟩
  simp [Image.eval, constantValue, IntValue.word_ofBool]

/-- A number for a result; the only operations without one divide by zero. -/
def outcome (s : State) : Option IntValue → EStateM.Result Fault State Value
  | some x => .ok x.word s
  | none => .error .divisionByZero s

section Perform

-- The equations of `perform` are derived here, once for all lemmas of the section.
attribute [local simp] perform

variable {image : Image} (caller : Caller) {frame : Frame} {k : Scalar} {o o₁ o₂ : Operand}
  {x : IntValue} {a b : Int} (type : IrType) (s : State)

theorem perform_arith (h₁ : Denotes image frame o₁ ⟨k, a⟩) (h₂ : Denotes image frame o₂ ⟨k, b⟩)
    {op : BinaryOp} {instr : ArithOp} (hop : op.arithOp? k = some instr) :
    perform image caller frame type (.arith instr o₁ o₂) s =
      outcome s ((IntValue.arith? op k a b).map (IntValue.ofInt k)) := by
  have hword := integerArith_arithOp? h₁.wellFormed.1 h₁.wellFormed.2 h₂.wellFormed.2 hop
  simp only [perform, h₁.eval, h₂.eval, liftFault, pure_bind, IntValue.word, Value.ofInt, arith,
    hword]
  cases IntValue.arith? op k a b with
  | none => rfl
  | some v =>
    simp only [Except.map, Option.map_some, outcome, IntValue.word_ofInt]
    rfl

theorem perform_compare (h₁ : Denotes image frame o₁ ⟨k, a⟩) (h₂ : Denotes image frame o₂ ⟨k, b⟩)
    {op : BinaryOp} {instr : CompareOp} (hop : op.compareOp? k.isUnsigned = some instr) :
    perform image caller frame type (.compare instr o₁ o₂) s =
      outcome s (some (.ofBool (IntValue.compares op a b))) := by
  have hcompare := compareValues_compareOp? h₁.wellFormed.2 h₂.wellFormed.2 hop
  simp only [perform, h₁.eval, h₂.eval, liftFault, pure_bind, IntValue.word, hcompare]
  rw [outcome, ← IntValue.word_ofBool]
  rfl

theorem perform_neg (h : Denotes image frame o x) :
    perform image caller frame type (.neg o) s = outcome s (some x.neg) := by
  rw [outcome, word_neg]
  simp only [perform, h.eval, liftFault, pure_bind, IntValue.word, Value.ofInt]
  rfl

theorem perform_not (h : Denotes image frame o x) :
    perform image caller frame type (.not o) s = outcome s (some x.bitNot) := by
  rw [outcome, word_bitNot]
  simp only [perform, h.eval, liftFault, pure_bind, IntValue.word, Value.ofInt]
  rfl

theorem perform_convert (h : Denotes image frame o x) (hk : k.isInteger = true) (hb : k ≠ .bool)
    {op : ConvertOp} (hop : (Conversion.ofScalars x.kind k).op? = some op) :
    perform image caller frame type (.convert op o k.machineType) s =
      outcome s (some (x.convert k)) := by
  have hconvert := convertValue_ofScalars h.wellFormed hk hb hop
  have hcast : op ≠ .bitcast := by
    rintro rfl
    have hsource : x.kind.isFloat = false := by simpa [Scalar.isInteger] using h.wellFormed.1
    have htarget : k.isFloat = false := by simpa [Scalar.isInteger] using hk
    simp only [Conversion.ofScalars, hsource, htarget] at hop
    split_ifs at hop <;> simp [Conversion.op?] at hop
  have hperform : perform image caller frame type (.convert op o k.machineType) s =
      (do
        let v ← liftFault (image.eval frame o)
        liftFault (convertValue op v k.machineType)) s := by
    cases op with
    | bitcast => exact absurd rfl hcast
    | trunc | zext | sext | fptrunc | fpext | fptosi | sitofp => rfl
  rw [hperform, h.eval]
  simp only [liftFault, pure_bind, hconvert]
  rfl

theorem perform_load {address : Nat} (ho : image.eval frame o = .ok (.ptr address))
    (h : Holds s.memory address x) :
    perform image caller frame x.kind.machineType (.load o none false) s = outcome s (some x) := by
  have hptr : image.evalPtr frame o = .ok address := by
    simp [Image.evalPtr, ho, bind, Except.bind, pure, Except.pure]
  simp only [perform, hptr, liftFault, pure_bind]
  change liftFault (s.memory.load address x.kind.machineType) s = _
  rw [h.load]
  rfl

/-- A store makes a cell and keeps all bytes outside of it. -/
theorem perform_store (h : Denotes image frame o x) {address : Nat}
    (ho : image.eval frame o₁ = .ok (.ptr address))
    (haccess : memoryBase ≤ address ∧ address + x.kind.bytes ≤ s.memory.size) :
    ∃ m, perform image caller frame type (.store o o₁ none false) s =
        .ok .void { s with memory := m } ∧
      m.size = s.memory.size ∧ Holds m address x ∧
      ∀ j, (j < address ∨ address + x.kind.bytes ≤ j) → m.bytes[j]? = s.memory.bytes[j]? := by
  have hptr : image.evalPtr frame o₁ = .ok address := by
    simp [Image.evalPtr, ho, bind, Except.bind, pure, Except.pure]
  obtain ⟨m, hstore, hrest⟩ := store_word h.wellFormed haccess
  refine ⟨m, ?_, hrest⟩
  simp only [perform, h.type, h.eval, hptr, liftFault, pure_bind]
  rw [bind_apply, onMemory, hstore]
  rfl

/-- An allocation fails for lack of memory or gives a new cell with a zero behind all memory. -/
theorem perform_alloca (hk : k.isInteger = true) {align : Nat} (halign : align ≤ memoryLimit)
    (hbase : memoryBase ≤ s.memory.size) :
    (∃ s', perform image caller frame type (.alloca k.machineType align) s =
        .error .outOfMemory s') ∨
      ∃ address m, perform image caller frame type (.alloca k.machineType align) s =
          .ok (.ptr address) { s with memory := m } ∧
        Grows s.memory m ∧ s.memory.size ≤ address ∧ Holds m address ⟨k, 0⟩ := by
  simp only [perform]
  rw [bind_apply, onMemory]
  rcases allocate_cases (layout.sizeOf k.machineType) align s.memory with
    herror | ⟨-, hover⟩ | ⟨address, m, hok, hgrows, hle, hsize⟩
  · rw [herror]
    exact Or.inl ⟨_, rfl⟩
  · -- memory, the alignment and the size are all far from the last address
    have hstart := alignUp_le s.memory.size align
    have hsize := s.memory.size_le
    have hbytes : k.bytes ≤ 16 := by cases k <;> decide
    have hlimit : memoryLimit + memoryLimit + 17 < maxU64 := by decide
    rw [sizeOf_machineType] at hover
    simp only [Memory.size] at hover hstart
    omega
  · have hzero : (IntValue.mk k 0).WellFormed := ⟨hk, k.inRange_zero⟩
    rw [sizeOf_machineType] at hsize
    obtain ⟨m', hstore, hsize', hholds, hbytes⟩ :=
      store_word (m := m) hzero ⟨hbase.trans hle, hsize⟩
    rw [← zero_machineType hk] at hstore
    refine Or.inr ⟨address, m', ?_, ⟨?_, ?_⟩, hle, hholds⟩
    · rw [hok]
      simp only
      rw [bind_apply, onMemory, hstore]
      rfl
    · rw [hsize']
      exact hgrows.size
    · intro j hj
      rw [hbytes j (Or.inl (hj.trans_le hle)), hgrows.bytes j hj]

end Perform

namespace Activation

variable {A : Activation} {p : Point} {frame : Frame} {s : State}

/-- One instruction: it reaches the next point, or it faults. -/
theorem leads_step {i : Instruction} {Q : Config → Prop} {X : Fault → Prop}
    (hat : (A.code.body p.block)[p.index]? = some i) (hX : ∀ e, e.isLimit = true → X e)
    (hok : ∀ v s', perform A.image A.caller frame (i.type.getD .void) i.operation
      { s with steps := s.steps + 1 } = .ok v s' → Q ⟨p.next, frame.keep i v, s'⟩)
    (herror : ∀ e s', perform A.image A.caller frame (i.type.getD .void) i.operation
      { s with steps := s.steps + 1 } = .error e s' → X e) :
    A.Leads 0 ⟨p, frame, s⟩ Q X := by
  have hstep := @stepInstruction_eq A.image A.caller frame i s
  by_cases hlimit : maxSteps < s.steps + 1
  · rw [if_pos hlimit] at hstep
    refine Or.inr ⟨.stepLimit, { s with steps := s.steps + 1 }, 0, hX _ rfl, fun n => ?_⟩
    rw [exec_step hat, hstep]
  · rw [if_neg hlimit] at hstep
    cases hperform : perform A.image A.caller frame (i.type.getD .void) i.operation
        { s with steps := s.steps + 1 } with
    | error e s' =>
      refine Or.inr ⟨e, s', 0, herror e s' hperform, fun n => ?_⟩
      rw [exec_step hat, hstep, hperform]
    | ok v s' =>
      refine Or.inl ⟨_, 0, hok v s' hperform, le_refl _, fun n => ?_⟩
      rw [Nat.add_zero, exec_step hat, hstep, hperform]

/-- A jump to another block than the entry block. -/
theorem leads_br {target : Nat} (hend : A.code.ending p.block = some (.br target))
    (hlen : (A.code.body p.block).length = p.index) (htarget : target ≠ 0) {Q : Config → Prop}
    {X : Fault → Prop} (hQ : Q ⟨⟨target, 0⟩, frame, s⟩) : A.Leads 1 ⟨p, frame, s⟩ Q X := by
  refine Or.inl ⟨_, 1, hQ, le_refl _, fun n => ?_⟩
  rw [exec_end hend hlen, ← runBlocks_eq_exec htarget]
  rfl

/-- A jump that a truth value decides. -/
theorem leads_condBr {o : Operand} {c : Bool} {yes no : Nat}
    (hend : A.code.ending p.block = some (.condBr o yes no))
    (hlen : (A.code.body p.block).length = p.index) (hyes : yes ≠ 0) (hno : no ≠ 0)
    (ho : A.image.eval frame o = .ok (IntValue.ofBool c).word) {Q : Config → Prop}
    {X : Fault → Prop} (hQ : Q ⟨⟨if c then yes else no, 0⟩, frame, s⟩) :
    A.Leads 1 ⟨p, frame, s⟩ Q X := by
  refine Or.inl ⟨_, 1, hQ, le_refl _, fun n => ?_⟩
  have hleave : leaveBy A.image frame (.condBr o yes no) =
      .ok (.goto (if c then yes else no)) := by
    rw [leaveBy, ho]
    cases c <;> rfl
  have hne : (if c then yes else no) ≠ 0 := by
    split_ifs
    · exact hyes
    · exact hno
  rw [exec_end hend hlen, hleave, ← runBlocks_eq_exec hne]

end Activation

end Machine
end UnitCompiler
