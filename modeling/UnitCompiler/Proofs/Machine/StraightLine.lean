import Mathlib
import UnitCompiler.Proofs.Ir.Building
import UnitCompiler.Proofs.Machine.Aggregates
import UnitCompiler.Proofs.Machine.Budget

/-!
# Straight-line code

A builder action that only pushes instructions writes a list of them, which can be run by itself.  What
such a run does is put together from what its actions do one after another.
-/

namespace UnitCompiler
namespace FunctionBuilder

/-- The current block is there and has not ended. -/
def Standing (b : FunctionBuilder) : Prop :=
  ∃ block, b.function.block? b.current = some block ∧ block.terminator = none

/-- The builder with instructions behind those of its current block. -/
structure Appends (b b' : FunctionBuilder) (code : List Instruction) : Prop where
  standing : b'.Standing
  current : b'.current = b.current
  nextValue : b'.nextValue = b.nextValue + code.length
  layout : b'.layout = b.layout
  instructions : b'.function.instructionsOf = Function.update b.function.instructionsOf b.current
    (b.function.instructionsOf b.current ++ code)

/-- An action that does nothing but append instructions to the current block. -/
def Straight {α : Type} (x : BuildM α) : Prop :=
  ∀ b : FunctionBuilder, b.Standing → ∃ code, b.Appends (x.run b).2 code

theorem Standing.isOpen {b : FunctionBuilder} (h : b.Standing) : b.Open := by
  obtain ⟨block, hblock, hending⟩ := h
  change (b.function.block? b.current).bind (·.terminator) = none
  rw [hblock]
  exact hending

namespace Appends

variable {b b' b'' : FunctionBuilder} {code code' : List Instruction}

theorem refl (h : b.Standing) : b.Appends b [] :=
  ⟨h, rfl, rfl, rfl, by rw [List.append_nil, Function.update_eq_self]⟩

theorem trans (h : b.Appends b' code) (h' : b'.Appends b'' code') : b.Appends b'' (code ++ code') where
  standing := h'.standing
  current := h'.current.trans h.current
  nextValue := by
    rw [h'.nextValue, h.nextValue, List.length_append, Nat.add_assoc]
  layout := h'.layout.trans h.layout
  instructions := by
    rw [h'.instructions, h.instructions, h.current, Function.update_self, Function.update_idem,
      List.append_assoc]

theorem place (h : b.Standing) (operation : Operation) (type : Option IrType) :
    b.Appends (b.place operation type) [⟨b.nextValue, operation, type⟩] := by
  obtain ⟨block, hblock, hending⟩ := h
  have hmodified := IrFunction.block?_modifyBlock b.function b.current
    (g := (append · ⟨b.nextValue, operation, type⟩)) (fun _ => rfl)
  refine ⟨⟨append block ⟨b.nextValue, operation, type⟩, ?_, hending⟩, rfl, rfl, rfl, ?_⟩
  · change (b.function.modifyBlock b.current _).block? b.current = _
    rw [hmodified, if_pos rfl, hblock]
    rfl
  · funext id
    change (((b.function.modifyBlock b.current _).block? id).map (·.instructions)).getD [] = _
    rw [hmodified]
    by_cases hid : id = b.current
    · subst hid
      simp [hblock, IrFunction.instructionsOf, append]
    · simp [hid, IrFunction.instructionsOf]

theorem push (h : b.Standing) (operation : Operation) (type : Option IrType) :
    b.Appends ((FunctionBuilder.push operation type).run b).2 [⟨b.nextValue, operation, type⟩] := by
  rw [push_run h.isOpen]
  exact place h operation type

/-- What was appended is what the new block has more than the old one. -/
theorem unique (h : b.Appends b' code) (h' : b.Appends b' code') : code = code' := by
  have heq := h.instructions.symm.trans h'.instructions
  have hcurrent := congrFun heq b.current
  rw [Function.update_self, Function.update_self] at hcurrent
  exact List.append_cancel_left hcurrent

end Appends

/-- A slot is one instruction, aligned by the layout of the builder. -/
theorem alloca_run_eq (b : FunctionBuilder) (type : IrType) :
    (alloca type).run b =
      (push (.alloca type (b.layout.alignOf type)) (some (.ptr type))).run b := by
  rw [alloca, run_bind, StateT.run_get]
  simp only [pure]

namespace Straight

variable {α β : Type}

theorem push (operation : Operation) (type : Option IrType) : Straight (push operation type) :=
  fun _ h => ⟨_, .push h operation type⟩

theorem bind {x : BuildM α} {f : α → BuildM β} (hx : Straight x) (hf : ∀ a, Straight (f a)) :
    Straight (x >>= f) := by
  intro b h
  obtain ⟨code, hcode⟩ := hx b h
  obtain ⟨code', hcode'⟩ := hf (x.run b).1 (x.run b).2 hcode.standing
  exact ⟨code ++ code', hcode.trans hcode'⟩

theorem alloca (type : IrType) : Straight (alloca type) := by
  intro b h
  rw [alloca_run_eq]
  exact push _ _ b h

theorem store (value address : Operand) : Straight (store value address) := fun b h => push _ _ b h

theorem load (address : Operand) (type : IrType) : Straight (load address type) := push _ _

theorem convert (op : ConvertOp) (value : Operand) (type : IrType) : Straight (convert op value type) :=
  push _ _

end Straight
end FunctionBuilder

namespace Machine

/-- Code that a builder appended leads from one frame and state to others, when the steps it takes are
left.  It sets none but the registers that got their numbers with it. -/
structure Runs (image : Image) (caller : Caller) (b b' : FunctionBuilder) (code : List Instruction)
    (frame frame' : Frame) (s s' : State) : Prop where
  appends : b.Appends b' code
  run : s.steps + code.length ≤ maxSteps →
    code.foldlM (stepInstruction image caller) frame s = .ok frame' s'
  steps : s'.steps = s.steps + code.length
  agrees : Agrees b.nextValue b'.nextValue frame frame'

namespace Runs

variable {image : Image} {caller : Caller} {b b' b'' : FunctionBuilder} {code code' : List Instruction}
  {frame frame' frame'' : Frame} {s s' s'' : State}

theorem refl (hb : b.Standing) : Runs image caller b b [] frame frame s s :=
  ⟨.refl hb, fun _ => rfl, rfl, .refl _ _ _⟩

theorem trans (h : Runs image caller b b' code frame frame' s s')
    (h' : Runs image caller b' b'' code' frame' frame'' s' s'') :
    Runs image caller b b'' (code ++ code') frame frame'' s s'' where
  appends := h.appends.trans h'.appends
  run := by
    intro hsteps
    have hmiddle := h.steps
    rw [List.length_append] at hsteps
    rw [List.foldlM_append, bind_apply, h.run (by omega)]
    exact h'.run (by omega)
  steps := by
    rw [h'.steps, h.steps, List.length_append, Nat.add_assoc]
  agrees := by
    have hle := h.appends.nextValue
    have hle' := h'.appends.nextValue
    exact h.agrees.trans h'.agrees (by omega) (by omega)

end Runs

/-- What code leaves as it was for the code behind it. -/
structure After (b b' : FunctionBuilder) (frame frame' : Frame) : Prop where
  standing : b'.Standing
  layout : b'.layout = b.layout
  nextValue_le : b.nextValue ≤ b'.nextValue
  agrees : Agrees b.nextValue b'.nextValue frame frame'

namespace After

variable {b b' : FunctionBuilder} {frame frame' : Frame} {o : Operand} {image : Image} {v : Value}
  {type : IrType}

theorem below (h : After b b' frame frame') (ho : o.Below b.nextValue) : o.Below b'.nextValue :=
  ho.mono h.nextValue_le

theorem carries (h : After b b' frame frame') (ho : Carries image frame o v type)
    (hbelow : o.Below b.nextValue) : Carries image frame' o v type :=
  h.agrees.carries ho hbelow

end After

theorem Runs.after {image : Image} {caller : Caller} {b b' : FunctionBuilder} {code : List Instruction}
    {frame frame' : Frame} {s s' : State} (h : Runs image caller b b' code frame frame' s s') :
    After b b' frame frame' := by
  refine ⟨h.appends.standing, h.appends.layout, ?_, h.agrees⟩
  rw [h.appends.nextValue]
  exact Nat.le_add_right _ _

/-- The instructions that an action writes run to where a property holds. -/
def Executes {α : Type} (image : Image) (caller : Caller) (x : BuildM α) (b : FunctionBuilder)
    (frame : Frame) (s : State) (Q : α → FunctionBuilder → Frame → State → Prop) : Prop :=
  ∃ code frame' s', Runs image caller b (x.run b).2 code frame frame' s s' ∧
    Q (x.run b).1 (x.run b).2 frame' s'

namespace Executes

variable {α β : Type} {image : Image} {caller : Caller} {x : BuildM α} {b : FunctionBuilder}
  {frame : Frame} {s : State} {Q : α → FunctionBuilder → Frame → State → Prop}

theorem pure {a : α} (hb : b.Standing) (h : Q a b frame s) :
    Executes image caller (pure a) b frame s Q :=
  ⟨[], frame, s, .refl hb, h⟩

/-- Two actions in a row. -/
theorem bind {f : α → BuildM β} {R : β → FunctionBuilder → Frame → State → Prop}
    (h : Executes image caller x b frame s Q)
    (hnext : ∀ a b' frame' s', After b b' frame frame' → Q a b' frame' s' →
      Executes image caller (f a) b' frame' s' R) :
    Executes image caller (x >>= f) b frame s R := by
  obtain ⟨code, frame', s', hruns, hQ⟩ := h
  obtain ⟨code', frame'', s'', hruns', hR⟩ := hnext _ _ frame' s' hruns.after hQ
  exact ⟨code ++ code', frame'', s'', hruns.trans hruns', hR⟩

theorem imp {R : α → FunctionBuilder → Frame → State → Prop}
    (h : Executes image caller x b frame s Q)
    (hQR : ∀ a b' frame' s', After b b' frame frame' → Q a b' frame' s' → R a b' frame' s') :
    Executes image caller x b frame s R := by
  obtain ⟨code, frame', s', hruns, hQ⟩ := h
  exact ⟨code, frame', s', hruns, hQR _ _ _ _ hruns.after hQ⟩

/-- Actions that do the same to a builder run the same. -/
theorem of_run_eq {y : BuildM α} (heq : x.run b = y.run b)
    (h : Executes image caller y b frame s Q) : Executes image caller x b frame s Q := by
  unfold Executes at h ⊢
  rw [heq]
  exact h

end Executes

/-- The result of an action stands for a value of a type, and memory is what it says. -/
structure Gives (image : Image) (v : Value) (type : IrType) (m : Memory) (o : Operand)
    (b : FunctionBuilder) (frame : Frame) (s : State) : Prop where
  below : o.Below b.nextValue
  carries : Carries image frame o v type
  memory : s.memory = m

/-- A result stays one while code behind it leaves its register alone. -/
theorem Gives.after {image : Image} {v : Value} {type : IrType} {m m' : Memory} {o : Operand}
    {b b' : FunctionBuilder} {frame frame' : Frame} {s s' : State} (h : Gives image v type m o b frame s)
    (ha : After b b' frame frame') (hs' : s'.memory = m') : Gives image v type m' o b' frame' s' :=
  ⟨ha.below h.below, ha.carries h.carries h.below, hs'⟩

section Steps

variable {image : Image} {caller : Caller} {b : FunctionBuilder} {frame : Frame} {s : State}
  {v : Value} {type : IrType} {o o' : Operand} {m : Memory} {a : Nat}

/-- One instruction. -/
theorem executes_push {operation : Operation} {result : Option IrType}
    {Q : Operand → FunctionBuilder → Frame → State → Prop} (hb : b.Standing)
    (hperform : ∀ s' : State, s'.memory = s.memory →
      perform image caller frame (result.getD .void) operation s' = .ok v { s' with memory := m })
    (hQ : ∀ s' : State, s'.memory = m → Q (FunctionBuilder.result b.nextValue result)
      (b.place operation result) (frame.keep ⟨b.nextValue, operation, result⟩ v) s') :
    Executes image caller (FunctionBuilder.push operation result) b frame s Q := by
  unfold Executes
  rw [FunctionBuilder.push_run hb.isOpen]
  refine ⟨[⟨b.nextValue, operation, result⟩], _, ⟨m, s.steps + 1⟩,
    ⟨.place hb operation result, fun hsteps => ?_, rfl,
      agrees_keep frame ⟨b.nextValue, operation, result⟩ v⟩, hQ ⟨m, s.steps + 1⟩ rfl⟩
  have hlimit : ¬ maxSteps < s.steps + 1 := Nat.not_lt.mpr hsteps
  simp only [List.foldlM_cons, List.foldlM_nil]
  rw [bind_apply, stepInstruction_eq, if_neg hlimit, hperform ⟨s.memory, s.steps + 1⟩ rfl]
  rfl

/-- One instruction with a result; one of no type is not kept. -/
theorem executes_value {operation : Operation} (hb : b.Standing)
    (hvoid : type.isVoid = true → v = .void)
    (hperform : ∀ s' : State, s'.memory = s.memory →
      perform image caller frame type operation s' = .ok v { s' with memory := m }) :
    Executes image caller (FunctionBuilder.push operation (some type)) b frame s
      (Gives image v type m) := by
  refine executes_push hb hperform fun s' hs' => ?_
  have hnext : (b.place operation (some type)).nextValue = b.nextValue + 1 := rfl
  cases hv : type.isVoid with
  | false =>
    have hresult : FunctionBuilder.result b.nextValue (some type) = .register b.nextValue := by
      simp [FunctionBuilder.result, Instruction.hasResult, hv]
    have hcarries := carries_keep image frame (i := ⟨b.nextValue, operation, some type⟩) rfl hv v
    rw [hresult]
    exact ⟨by rw [hnext]; exact Nat.lt_succ_self _, hcarries, hs'⟩
  | true =>
    obtain rfl := hvoid hv
    obtain rfl : type = .void := by
      cases type <;> first | rfl | cases hv
    exact ⟨trivial, ⟨rfl, rfl⟩, hs'⟩

/-- A pointer is kept in any case. -/
theorem eq_void_of_isVoid_ptr {target : IrType} (h : (IrType.ptr target).isVoid = true) : v = .void :=
  absurd h Bool.false_ne_true

theorem eq_void_of_admits (hv : type.Admits v) (h : type.isVoid = true) : v = .void := by
  cases type <;> first | exact hv | cases h

/-- One instruction that leaves memory as it is. -/
theorem executes_pure {operation : Operation} (hb : b.Standing) (hvoid : type.isVoid = true → v = .void)
    (hperform : ∀ s' : State, s'.memory = s.memory →
      perform image caller frame type operation s' = .ok v s') :
    Executes image caller (FunctionBuilder.push operation (some type)) b frame s
      (Gives image v type s.memory) := by
  refine executes_value hb hvoid fun s' hs' => ?_
  rw [hperform s' hs', ← hs']

theorem executes_alloca (hb : b.Standing) (hv : type.Admits v) (hbase : memoryBase ≤ s.memory.size)
    (hroom : s.memory.size + slotRoom b.layout type ≤ memoryLimit) :
    Executes image caller (FunctionBuilder.alloca type) b frame s fun o b' frame' s' =>
      ∃ a, Gives image (.ptr a) (.ptr type) s'.memory o b' frame' s' ∧
        Allots s.memory s'.memory a (layout.sizeOf type) ∧
        s'.memory.size ≤ s.memory.size + slotRoom b.layout type := by
  unfold slotRoom at hroom ⊢
  obtain ⟨a, m, hallots, hsize, hperform⟩ := @perform_slot image caller frame v type (.ptr type) hv
    s.memory (b.layout.alignOf type) hbase (by omega)
  have hgives : Executes image caller (FunctionBuilder.alloca type) b frame s
      (Gives image (.ptr a) (.ptr type) m) :=
    (executes_value hb eq_void_of_isVoid_ptr hperform).of_run_eq (FunctionBuilder.alloca_run_eq b type)
  refine hgives.imp fun o b' frame' s' _ h => ?_
  obtain rfl := h.memory
  exact ⟨a, h, hallots, by omega⟩

theorem executes_store (hb : b.Standing) (hv : Carries image frame o v type) (hadmits : type.Admits v)
    (ho : image.eval frame o' = .ok (.ptr a)) (hs : layout.sizeOf type < maxU64)
    (ha : memoryBase ≤ a ∧ a + layout.sizeOf type ≤ s.memory.size) :
    Executes image caller (FunctionBuilder.store o o') b frame s fun _ _ _ s' =>
      s.memory.Rewrites s'.memory a (layout.sizeOf type) ∧ s'.memory.load a type = .ok v := by
  obtain ⟨m, hrewrites, hload, hperform⟩ := perform_keep caller .void hv hadmits ho hs ha
  have hpush : Executes image caller (FunctionBuilder.push (.store o o' none false) none) b frame s
      fun _ _ _ s' => s.memory.Rewrites s'.memory a (layout.sizeOf type) ∧
        s'.memory.load a type = .ok v := by
    refine executes_push hb hperform fun s' hs' => ?_
    rw [hs']
    exact ⟨hrewrites, hload⟩
  exact hpush

theorem executes_load (hb : b.Standing) (hvoid : type.isVoid = true → v = .void)
    (ho : image.eval frame o = .ok (.ptr a)) (h : s.memory.load a type = .ok v) :
    Executes image caller (FunctionBuilder.load o type) b frame s (Gives image v type s.memory) := by
  refine executes_pure hb hvoid fun s' hs' => ?_
  rw [← hs'] at h
  exact perform_read caller ho h

/-- A pointer taken to point to something else. -/
theorem executes_view (hb : b.Standing) (ho : Carries image frame o (.ptr a) (.ptr type))
    (target : IrType) :
    Executes image caller (FunctionBuilder.bitcast o (.ptr target)) b frame s
      (Gives image (.ptr a) (.ptr target) s.memory) :=
  executes_pure hb eq_void_of_isVoid_ptr fun s' _ => perform_view caller (.ptr target) ho target s'

theorem executes_fieldPtr {fields : List IrType} {isPacked : Bool} {name : Option String}
    {index offset : Nat} {field : IrType} (hb : b.Standing)
    (ho : Carries image frame o (.ptr a) (.ptr (.struct fields isPacked name))) (hindex : index < 2 ^ 31)
    (hoffset : (layout.fieldOffsets fields isPacked)[index]? = some offset)
    (hfield : fields[index]? = some field) (ha : a + offset ≤ maxU64) (element : IrType) :
    Executes image caller (FunctionBuilder.fieldPtr o index element) b frame s
      (Gives image (.ptr (a + offset)) (.ptr element) s.memory) :=
  executes_pure hb eq_void_of_isVoid_ptr fun _ _ =>
    perform_fieldAddress caller (.ptr element) ho hindex hoffset hfield ha

theorem executes_extract {items : List Value} {index : Nat} (hb : b.Standing)
    (hvoid : type.isVoid = true → v = .void) (ho : image.eval frame o = .ok (.aggregate items))
    (hitem : items[index]? = some v) :
    Executes image caller (FunctionBuilder.push (.extract o [index]) (some type)) b frame s
      (Gives image v type s.memory) :=
  executes_pure hb hvoid fun _ _ => perform_extract caller type ho hitem

theorem executes_wordArith {op : ArithOp} {bits bits' x y z : Nat} (hb : b.Standing)
    (htype : type.isVoid = false) (ho : image.eval frame o = .ok (.int x bits))
    (ho' : image.eval frame o' = .ok (.int y bits')) (h : integerArith op bits x y = .ok z) :
    Executes image caller (FunctionBuilder.push (.arith op o o') (some type)) b frame s
      (Gives image (.int z bits) type s.memory) :=
  executes_pure hb (by simp [htype]) fun _ _ => perform_wordArith caller type ho ho' h

theorem executes_resize {op : ConvertOp} (hop : op = .trunc ∨ op = .zext) {bits target x : Nat}
    (hb : b.Standing) (htype : type.intBits? = some target)
    (ho : image.eval frame o = .ok (.int x bits)) :
    Executes image caller (FunctionBuilder.convert op o type) b frame s
      (Gives image (.int (Word.mask target x) target) type s.memory) := by
  have hvoid : type.isVoid = true → Value.int (Word.mask target x) target = .void := by
    intro h
    cases type <;> simp_all [IrType.isVoid, IrType.intBits?]
  exact executes_pure hb hvoid fun _ _ => perform_resize caller type hop htype ho

end Steps

end Machine
end UnitCompiler
