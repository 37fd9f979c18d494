import UnitCompiler.Proofs.Ir.Code

/-!
# Steps of a builder

What each action of a builder does to the code.  Blocks are numbered in the order they are made, and
registers in the order of their instructions.
-/

namespace UnitCompiler
namespace FunctionBuilder

/-- The code written so far. -/
def code (b : FunctionBuilder) : Code := b.function.code b.entryCount

/-- The two instructions that make a slot with number `id`. -/
def slotCode (id : Nat) (type : IrType) (align : Nat) (init : Operand) : List Instruction :=
  [{ id, operation := .alloca type align, type := some (.ptr type) },
    { id := id + 1, operation := .store init (.register id) none false }]

/-- The slot of a truth value that starts as false. -/
def flagCode (id : Nat) : List Instruction := slotCode id .i1 1 (.constant (.bool false))

/-- The blocks of a builder are numbered in order, and it stands in one of them. -/
structure Numbered (b : FunctionBuilder) : Prop where
  ids : b.function.blocks.map (·.id) = List.range b.nextBlock
  current_lt : b.current < b.nextBlock

/-- Numbers and positions of a builder agree with what it has written. -/
structure Sound (b : FunctionBuilder) : Prop extends b.Numbered where
  entry_le : b.entryCount ≤ (b.function.instructionsOf 0).length
  head_lt : ∀ i ∈ b.code.head, i.id < b.nextValue
  head : ∃ flags : List Nat, b.code.head = flags.flatMap flagCode ∧ flags.Nodup

/-- The current block has not ended. -/
def Open (b : FunctionBuilder) : Prop := b.code.ending b.current = none

theorem isTerminated_eq (b : FunctionBuilder) :
    b.isTerminated = (b.code.ending b.current).isSome := by
  change _ = ((b.function.block? b.current).bind (·.terminator)).isSome
  unfold isTerminated
  cases b.function.block? b.current <;> rfl

theorem Open.isTerminated {b : FunctionBuilder} (h : b.Open) : b.isTerminated = false := by
  rw [isTerminated_eq, h]
  rfl

theorem isTerminated_of_not_open {b : FunctionBuilder} (h : ¬ b.Open) : b.isTerminated = true := by
  rw [isTerminated_eq]
  exact Option.isSome_iff_ne_none.mpr h

namespace Numbered

variable {b : FunctionBuilder}

theorem exists_block (hb : b.Numbered) {id : Nat} (h : id < b.nextBlock) :
    ∃ block, b.function.block? id = some block := by
  have hmem : id ∈ b.function.blocks.map (·.id) := by
    rw [hb.ids]
    exact List.mem_range.mpr h
  obtain ⟨block, hblock, hid⟩ := List.mem_map.mp hmem
  rw [← Option.isSome_iff_exists, IrFunction.block?, List.find?_isSome]
  exact ⟨block, hblock, by simpa using hid⟩

theorem id_lt (hb : b.Numbered) : ∀ block ∈ b.function.blocks, block.id < b.nextBlock := by
  intro block hblock
  have hmem : block.id ∈ b.function.blocks.map (·.id) := List.mem_map_of_mem hblock
  rwa [hb.ids, List.mem_range] at hmem

theorem block?_eq_none (hb : b.Numbered) {id : Nat} (h : b.nextBlock ≤ id) :
    b.function.block? id = none := by
  rw [IrFunction.block?, List.find?_eq_none]
  intro block hblock hid
  have hlt := hb.id_lt block hblock
  simp only [beq_iff_eq] at hid
  omega

theorem body_eq_nil (hb : b.Numbered) {id : Nat} (h : b.nextBlock ≤ id) : b.code.body id = [] := by
  simp [code, IrFunction.code, IrFunction.instructionsOf, hb.block?_eq_none h]

theorem ending_eq_none (hb : b.Numbered) {id : Nat} (h : b.nextBlock ≤ id) :
    b.code.ending id = none := by
  simp [code, IrFunction.code, IrFunction.endingOf, hb.block?_eq_none h]

theorem nextBlock_pos (hb : b.Numbered) : 0 < b.nextBlock := Nat.zero_lt_of_lt hb.current_lt

theorem nodup (hb : b.Numbered) : (b.function.blocks.map (·.id)).Nodup := by
  rw [hb.ids]
  exact List.nodup_range

theorem exists_mem (hb : b.Numbered) {id : Nat} (h : id < b.nextBlock) :
    ∃ block ∈ b.function.blocks, block.id = id := by
  obtain ⟨block, hblock⟩ := hb.exists_block h
  exact ⟨block, List.mem_of_find?_eq_some hblock, IrFunction.id_of_block? hblock⟩

end Numbered

/-- The builder with one more block. -/
def addBlock (b : FunctionBuilder) (label : String) : FunctionBuilder :=
  { b with
    function :=
      { b.function with
        blocks := b.function.blocks ++ [{ id := b.nextBlock, label := some label }] }
    nextBlock := b.nextBlock + 1 }

/-- The builder with an instruction at the end of its current block. -/
def place (b : FunctionBuilder) (operation : Operation) (type : Option IrType) : FunctionBuilder :=
  { b with
    nextValue := b.nextValue + 1
    function := b.function.modifyBlock b.current (append · ⟨b.nextValue, operation, type⟩) }

/-- The builder with its current block ended. -/
def endWith (b : FunctionBuilder) (t : Terminator) : FunctionBuilder :=
  { b with
    function :=
      t.successors.foldl (fun f target => f.modifyBlock target (addPredecessor b.current))
        (b.function.modifyBlock b.current fun block =>
          { block with successors := t.successors, terminator := some t }) }

def moveTo (b : FunctionBuilder) (id : Nat) : FunctionBuilder := { b with current := id }

/-- The builder with a slot at the head of its entry block. -/
def addSlot (b : FunctionBuilder) (type : IrType) (init : Operand) : FunctionBuilder :=
  { b with
    nextValue := b.nextValue + 2
    entryCount := b.entryCount + 2
    function := b.function.modifyBlock 0 fun block =>
      { block with
        instructions := block.instructions.take b.entryCount ++
          (slotCode b.nextValue type (b.layout.alignOf type) init ++
            block.instructions.drop b.entryCount) } }

/-- The builder with a flag at the head of its entry block. -/
def addFlag (b : FunctionBuilder) : FunctionBuilder := b.addSlot .i1 (.constant (.bool false))

section Runs

variable (b : FunctionBuilder)

theorem createBlock_run (label : String) :
    (createBlock label).run b = (b.nextBlock, b.addBlock label) := rfl

theorem switchTo_run (id : Nat) : (switchTo id).run b = ((), b.moveTo id) := rfl

theorem entrySlot_run : (entrySlot .i1 (.constant (.bool false))).run b =
    (.register b.nextValue, b.addFlag) := rfl

variable {b}

/-- What a push gives back. -/
def result (id : Nat) (type : Option IrType) : Operand :=
  if (Instruction.mk id (.neg default) type).hasResult then .register id else .undef .void

theorem push_run (h : b.Open) (operation : Operation) (type : Option IrType) :
    (push operation type).run b = (result b.nextValue type, b.place operation type) := by
  have hopen := h.isTerminated
  unfold push
  simp only [StateT.run_bind, StateT.run_get, pure_bind, hopen]
  rfl

theorem run_bind {α β : Type} (x : BuildM α) (f : α → BuildM β) (b : FunctionBuilder) :
    (x >>= f).run b = (f (x.run b).1).run (x.run b).2 := rfl

theorem alloca_run (h : b.Open) (type : IrType) :
    (alloca type).run b =
      (.register b.nextValue, b.place (.alloca type (b.layout.alignOf type)) (some (.ptr type))) := by
  rw [alloca, run_bind, StateT.run_get]
  simp only [pure]
  rw [push_run h]
  rfl

theorem store_run (h : b.Open) (value address : Operand) :
    (store value address).run b = ((), b.place (.store value address none false) none) := by
  have hrun : (store value address).run b =
      ((), ((push (.store value address none false) none).run b).2) := rfl
  rw [hrun, push_run h]

theorem load_run (h : b.Open) (address : Operand) {type : IrType} (hvoid : type.isVoid = false) :
    (load address type).run b =
      (.register b.nextValue, b.place (.load address none false) (some type)) := by
  rw [load, push_run h]
  simp [result, Instruction.hasResult, hvoid]

theorem forM_modifyBlock_run (g : Block → Block) (targets : List Nat) (b : FunctionBuilder) :
    (targets.forM fun target => modifyBlock target g).run b =
      ((), { b with function := targets.foldl (fun f target => f.modifyBlock target g) b.function }) := by
  induction targets generalizing b with
  | nil => rfl
  | cons target rest ih => exact ih { b with function := b.function.modifyBlock target g }

theorem terminate_run (h : b.Open) (t : Terminator) :
    (terminate t).run b = ((), b.endWith t) := by
  have hopen := h.isTerminated
  unfold terminate
  simp only [StateT.run_bind, StateT.run_get, pure_bind, hopen]
  exact forM_modifyBlock_run _ _ _

/-- A block ends once. -/
theorem terminate_run_of_not_open (h : ¬ b.Open) (t : Terminator) :
    (terminate t).run b = ((), b) := by
  have hclosed := isTerminated_of_not_open h
  unfold terminate
  simp only [StateT.run_bind, StateT.run_get, pure_bind, hclosed]
  rfl

/-- The builder with its current block ended, unless it has ended before. -/
def finishWith (b : FunctionBuilder) (t : Terminator) : FunctionBuilder :=
  if b.isTerminated then b else b.endWith t

theorem finishWith_of_open (h : b.Open) (t : Terminator) : b.finishWith t = b.endWith t := by
  simp [finishWith, h.isTerminated]

theorem finishWith_of_not_open (h : ¬ b.Open) (t : Terminator) : b.finishWith t = b := by
  simp [finishWith, isTerminated_of_not_open h]

theorem terminate_run_eq (b : FunctionBuilder) (t : Terminator) :
    (terminate t).run b = ((), b.finishWith t) := by
  by_cases h : b.Open
  · rw [terminate_run h, finishWith_of_open h]
  · rw [terminate_run_of_not_open h, finishWith_of_not_open h]

end Runs

section Code

variable {b : FunctionBuilder}

@[simp] theorem code_moveTo (b : FunctionBuilder) (id : Nat) : (b.moveTo id).code = b.code := rfl

theorem block?_addBlock (b : FunctionBuilder) (label : String) {id : Nat} (h : id ≠ b.nextBlock) :
    (b.addBlock label).function.block? id = b.function.block? id := by
  have hne : ¬ b.nextBlock = id := fun he => h he.symm
  simp [addBlock, IrFunction.block?, List.find?_append, hne]

theorem block?_addBlock_self (hb : b.Numbered) (label : String) :
    (b.addBlock label).function.block? b.nextBlock = some { id := b.nextBlock, label := some label } := by
  have hnone := hb.block?_eq_none (Nat.le_refl _)
  simp only [addBlock, IrFunction.block?, List.find?_append] at hnone ⊢
  simp [hnone]

/-- A new block is empty, as is every block that is not there. -/
theorem instructionsOf_addBlock (hb : b.Numbered) (label : String) :
    (b.addBlock label).function.instructionsOf = b.function.instructionsOf := by
  funext id
  by_cases h : id = b.nextBlock
  · simp [IrFunction.instructionsOf, h, block?_addBlock_self hb, hb.block?_eq_none]
  · simp [IrFunction.instructionsOf, block?_addBlock b label h]

/-- A new block is open, as is every block that is not there. -/
theorem endingOf_addBlock (hb : b.Numbered) (label : String) :
    (b.addBlock label).function.endingOf = b.function.endingOf := by
  funext id
  by_cases h : id = b.nextBlock
  · simp [IrFunction.endingOf, h, block?_addBlock_self hb, hb.block?_eq_none]
  · simp [IrFunction.endingOf, block?_addBlock b label h]

theorem code_addBlock (hb : b.Sound) (label : String) : (b.addBlock label).code = b.code := by
  simp only [code, IrFunction.code, instructionsOf_addBlock hb.toNumbered,
    endingOf_addBlock hb.toNumbered]
  rfl

theorem instructionsOf_place (hb : b.Numbered) (operation : Operation) (type : Option IrType) :
    (b.place operation type).function.instructionsOf =
      Function.update b.function.instructionsOf b.current
        (b.function.instructionsOf b.current ++ [⟨b.nextValue, operation, type⟩]) := by
  obtain ⟨block, hblock⟩ := hb.exists_block hb.current_lt
  funext id
  rw [place, IrFunction.instructionsOf, IrFunction.block?_modifyBlock _ _ (by intro; rfl)]
  by_cases h : id = b.current
  · subst h
    simp [hblock, IrFunction.instructionsOf, append]
  · simp [h, IrFunction.instructionsOf]

theorem endingOf_place (b : FunctionBuilder) (operation : Operation) (type : Option IrType) :
    (b.place operation type).function.endingOf = b.function.endingOf :=
  IrFunction.endingOf_modifyBlock_of_same _ _ (by intro; rfl) (by intro; rfl)

theorem code_place (hb : b.Sound) (operation : Operation) (type : Option IrType) :
    (b.place operation type).code = b.code.append b.current ⟨b.nextValue, operation, type⟩ := by
  simp only [code, IrFunction.code, instructionsOf_place hb.toNumbered, endingOf_place, Code.append,
    Code.mk.injEq, and_true]
  constructor
  · -- what is put into the entry block goes behind its head
    by_cases h : 0 = b.current
    · rw [← h, Function.update_self]
      exact List.take_append_of_le_length hb.entry_le
    · rw [Function.update_of_ne h]
      rfl
  · funext id
    by_cases h : id = b.current
    · subst h
      rw [Function.update_self, Function.update_self]
      refine List.drop_append_of_le_length ?_
      split_ifs with h0
      · rw [h0]
        exact hb.entry_le
      · exact Nat.zero_le _
    · rw [Function.update_of_ne h, Function.update_of_ne h]
      rfl

theorem instructionsOf_addPredecessors (current : Nat) (targets : List Nat) (f : IrFunction) :
    (targets.foldl (fun f target => f.modifyBlock target (addPredecessor current)) f).instructionsOf =
      f.instructionsOf := by
  induction targets generalizing f with
  | nil => rfl
  | cons target rest ih =>
    rw [List.foldl_cons, ih]
    refine IrFunction.instructionsOf_modifyBlock_of_same _ _ ?_ ?_ <;>
      intro block <;> unfold addPredecessor <;> split <;> rfl

theorem endingOf_addPredecessors (current : Nat) (targets : List Nat) (f : IrFunction) :
    (targets.foldl (fun f target => f.modifyBlock target (addPredecessor current)) f).endingOf =
      f.endingOf := by
  induction targets generalizing f with
  | nil => rfl
  | cons target rest ih =>
    rw [List.foldl_cons, ih]
    refine IrFunction.endingOf_modifyBlock_of_same _ _ ?_ ?_ <;>
      intro block <;> unfold addPredecessor <;> split <;> rfl

theorem ids_addPredecessors (current : Nat) (targets : List Nat) (f : IrFunction) :
    (targets.foldl (fun f target => f.modifyBlock target (addPredecessor current)) f).blocks.map
      (·.id) = f.blocks.map (·.id) := by
  induction targets generalizing f with
  | nil => rfl
  | cons target rest ih =>
    rw [List.foldl_cons, ih]
    refine IrFunction.map_id_modifyBlock _ _ ?_
    intro block
    unfold addPredecessor
    split <;> rfl

theorem addPredecessors_eq (current : Nat) (targets : List Nat) (f : IrFunction) :
    ∃ blocks, targets.foldl (fun f target => f.modifyBlock target (addPredecessor current)) f =
      { f with blocks } := by
  induction targets generalizing f with
  | nil => exact ⟨f.blocks, rfl⟩
  | cons target rest ih =>
    obtain ⟨blocks, h⟩ := ih (f.modifyBlock target (addPredecessor current))
    exact ⟨blocks, h⟩

theorem instructionsOf_endWith (b : FunctionBuilder) (t : Terminator) :
    (b.endWith t).function.instructionsOf = b.function.instructionsOf :=
  (instructionsOf_addPredecessors _ _ _).trans
    (IrFunction.instructionsOf_modifyBlock_of_same _ _ (by intro; rfl) (by intro; rfl))

theorem endingOf_endWith (hb : b.Numbered) (t : Terminator) :
    (b.endWith t).function.endingOf = Function.update b.function.endingOf b.current (some t) := by
  obtain ⟨block, hblock⟩ := hb.exists_block hb.current_lt
  refine (endingOf_addPredecessors _ _ _).trans (funext fun id => ?_)
  rw [IrFunction.endingOf, IrFunction.block?_modifyBlock _ _ (by intro; rfl)]
  by_cases h : id = b.current
  · subst h
    simp [hblock]
  · simp [h, IrFunction.endingOf]

theorem code_endWith (hb : b.Sound) (t : Terminator) :
    (b.endWith t).code = b.code.setEnding b.current t := by
  simp only [code, IrFunction.code, instructionsOf_endWith, endingOf_endWith hb.toNumbered,
    Code.setEnding]
  rfl

theorem instructionsOf_addSlot (hb : b.Numbered) (type : IrType) (init : Operand) :
    (b.addSlot type init).function.instructionsOf =
      Function.update b.function.instructionsOf 0
        ((b.function.instructionsOf 0).take b.entryCount ++
          (slotCode b.nextValue type (b.layout.alignOf type) init ++
            (b.function.instructionsOf 0).drop b.entryCount)) := by
  obtain ⟨block, hblock⟩ := hb.exists_block hb.nextBlock_pos
  funext id
  rw [addSlot, IrFunction.instructionsOf, IrFunction.block?_modifyBlock _ _ (by intro; rfl)]
  by_cases h : id = 0
  · subst h
    simp [hblock, IrFunction.instructionsOf]
  · simp [h, IrFunction.instructionsOf]

theorem endingOf_addSlot (b : FunctionBuilder) (type : IrType) (init : Operand) :
    (b.addSlot type init).function.endingOf = b.function.endingOf :=
  IrFunction.endingOf_modifyBlock_of_same _ _ (by intro; rfl) (by intro; rfl)

theorem code_addSlot (hb : b.Sound) (type : IrType) (init : Operand) :
    (b.addSlot type init).code =
      b.code.addHead (slotCode b.nextValue type (b.layout.alignOf type) init) := by
  have hlen : ((b.function.instructionsOf 0).take b.entryCount).length = b.entryCount := by
    rw [List.length_take, Nat.min_eq_left hb.entry_le]
  have hslot : (slotCode b.nextValue type (b.layout.alignOf type) init).length = 2 := rfl
  have hcount : (b.addSlot type init).entryCount = b.entryCount + 2 := rfl
  simp only [code, IrFunction.code, instructionsOf_addSlot hb.toNumbered, endingOf_addSlot, hcount,
    Code.addHead, Code.mk.injEq, and_true]
  constructor
  · rw [Function.update_self, ← List.append_assoc]
    refine List.take_left' ?_
    rw [List.length_append, hlen, hslot]
  · funext id
    by_cases h : id = 0
    · subst h
      rw [Function.update_self, ← List.append_assoc, if_pos rfl, if_pos rfl]
      refine List.drop_left' ?_
      rw [List.length_append, hlen, hslot]
    · rw [Function.update_of_ne h, if_neg h, if_neg h]

theorem code_addFlag (hb : b.Sound) : b.addFlag.code = b.code.addHead (flagCode b.nextValue) :=
  code_addSlot hb .i1 (.constant (.bool false))

end Code

namespace Numbered

variable {b : FunctionBuilder}

theorem addBlock (hb : b.Numbered) (label : String) : (b.addBlock label).Numbered where
  ids := by
    rw [FunctionBuilder.addBlock, List.map_append, hb.ids, List.range_succ]
    rfl
  current_lt := Nat.lt_succ_of_lt hb.current_lt

theorem place (hb : b.Numbered) (operation : Operation) (type : Option IrType) :
    (b.place operation type).Numbered where
  ids := (IrFunction.map_id_modifyBlock _ _ (by intro; rfl)).trans hb.ids
  current_lt := hb.current_lt

theorem endWith (hb : b.Numbered) (t : Terminator) : (b.endWith t).Numbered where
  ids := (ids_addPredecessors _ _ _).trans
    ((IrFunction.map_id_modifyBlock _ _ (by intro; rfl)).trans hb.ids)
  current_lt := hb.current_lt

theorem moveTo (hb : b.Numbered) {id : Nat} (h : id < b.nextBlock) : (b.moveTo id).Numbered where
  ids := hb.ids
  current_lt := h

theorem addSlot (hb : b.Numbered) (type : IrType) (init : Operand) : (b.addSlot type init).Numbered where
  ids := (IrFunction.map_id_modifyBlock _ _ (by intro; rfl)).trans hb.ids
  current_lt := hb.current_lt

end Numbered

namespace Sound

variable {b : FunctionBuilder}

theorem addBlock (hb : b.Sound) (label : String) : (b.addBlock label).Sound where
  toNumbered := hb.toNumbered.addBlock label
  entry_le := by
    rw [instructionsOf_addBlock hb.toNumbered]
    exact hb.entry_le
  head_lt := by
    rw [code_addBlock hb]
    exact hb.head_lt
  head := by
    rw [code_addBlock hb]
    exact hb.head

theorem place (hb : b.Sound) (operation : Operation) (type : Option IrType) :
    (b.place operation type).Sound where
  toNumbered := hb.toNumbered.place operation type
  entry_le := by
    rw [instructionsOf_place hb.toNumbered]
    by_cases h : 0 = b.current
    · rw [← h, Function.update_self, List.length_append]
      exact Nat.le_add_right_of_le hb.entry_le
    · rw [Function.update_of_ne h]
      exact hb.entry_le
  head_lt := by
    rw [code_place hb]
    exact fun i hi => Nat.lt_succ_of_lt (hb.head_lt i hi)
  head := by
    rw [code_place hb]
    exact hb.head

theorem endWith (hb : b.Sound) (t : Terminator) : (b.endWith t).Sound where
  toNumbered := hb.toNumbered.endWith t
  entry_le := by
    rw [instructionsOf_endWith]
    exact hb.entry_le
  head_lt := by
    rw [code_endWith hb]
    exact hb.head_lt
  head := by
    rw [code_endWith hb]
    exact hb.head

theorem moveTo (hb : b.Sound) {id : Nat} (h : id < b.nextBlock) : (b.moveTo id).Sound where
  toNumbered := hb.toNumbered.moveTo h
  entry_le := hb.entry_le
  head_lt := hb.head_lt
  head := hb.head

theorem addFlag (hb : b.Sound) : b.addFlag.Sound where
  toNumbered := hb.toNumbered.addSlot _ _
  entry_le := by
    have hinstr := congrFun (instructionsOf_addSlot hb.toNumbered .i1 (.constant (.bool false))) 0
    have hlen : (b.addFlag.function.instructionsOf 0).length =
        (b.function.instructionsOf 0).length + 2 := by
      rw [FunctionBuilder.addFlag, hinstr, Function.update_self]
      simp only [List.length_append, List.length_take, List.length_drop, slotCode, List.length_cons,
        List.length_nil]
      omega
    have hle := hb.entry_le
    change b.entryCount + 2 ≤ _
    omega
  head_lt := by
    rw [code_addFlag hb]
    intro i hi
    change i.id < b.nextValue + 2
    rcases List.mem_append.mp hi with hi | hi
    · exact Nat.lt_add_right 2 (hb.head_lt i hi)
    · rcases List.mem_cons.mp hi with rfl | hi
      · exact Nat.lt_add_of_pos_right (by decide)
      · rw [List.mem_singleton.mp hi]
        exact Nat.lt_succ_self _
  head := by
    obtain ⟨flags, hflags, hnodup⟩ := hb.head
    refine ⟨flags ++ [b.nextValue], by simp [code_addFlag hb, Code.addHead, hflags], ?_⟩
    rw [List.nodup_append]
    refine ⟨hnodup, List.nodup_singleton _, fun r hr r' hr' heq => ?_⟩
    -- the number of a flag is that of an instruction at the head
    have hmem : (flagCode r).head (List.cons_ne_nil _ _) ∈ b.code.head := by
      rw [hflags]
      exact List.mem_flatMap.mpr ⟨r, hr, List.mem_cons_self⟩
    have hlt : r < b.nextValue := hb.head_lt _ hmem
    rw [heq, List.mem_singleton.mp hr'] at hlt
    exact lt_irrefl _ hlt

end Sound

/-- The point behind the last instruction of the current block. -/
def here (b : FunctionBuilder) : Point := ⟨b.current, (b.code.body b.current).length⟩

section Here

variable {b : FunctionBuilder}

theorem open_place (hb : b.Sound) (operation : Operation) (type : Option IrType) :
    (b.place operation type).Open ↔ b.Open := by
  rw [Open, code_place hb]
  rfl

theorem open_addBlock (hb : b.Sound) (label : String) : (b.addBlock label).Open ↔ b.Open := by
  rw [Open, code_addBlock hb]
  rfl

theorem here_place (hb : b.Sound) (operation : Operation) (type : Option IrType) :
    (b.place operation type).here = b.here.next := by
  have hbody : (b.place operation type).code.body b.current =
      b.code.body b.current ++ [⟨b.nextValue, operation, type⟩] := by
    rw [code_place hb]
    exact Function.update_self _ _ _
  change Point.mk b.current ((b.place operation type).code.body b.current).length = _
  rw [hbody, List.length_append]
  rfl

theorem here_addBlock (hb : b.Sound) (label : String) : (b.addBlock label).here = b.here := by
  rw [here, code_addBlock hb]
  rfl

/-- The instruction that was placed last stands where the builder was. -/
theorem getElem?_place (hb : b.Sound) (operation : Operation) (type : Option IrType) :
    ((b.place operation type).code.body b.here.block)[b.here.index]? =
      some ⟨b.nextValue, operation, type⟩ := by
  have hbody : (b.place operation type).code.body b.current =
      b.code.body b.current ++ [⟨b.nextValue, operation, type⟩] := by
    rw [code_place hb]
    exact Function.update_self _ _ _
  change ((b.place operation type).code.body b.current)[(b.code.body b.current).length]? = _
  rw [hbody]
  exact List.getElem?_concat_length

end Here

/-- A builder that went on from `b`: it wrote to the blocks `S` and to new ones, and stands in one of
these. -/
structure Continues (S : List Nat) (b b' : FunctionBuilder) : Prop where
  sound : b'.Sound
  value : b.nextValue ≤ b'.nextValue
  block : b.nextBlock ≤ b'.nextBlock
  code : b.code.Extends b.nextValue b'.code
  kept : ∀ id < b.nextBlock, id ∉ S →
    b'.code.body id = b.code.body id ∧ b'.code.ending id = b.code.ending id
  current : b'.current ∈ S ∨ b.nextBlock ≤ b'.current
  signature : b'.function.signature = b.function.signature
  name : b'.function.name = b.function.name

namespace Continues

variable {S S' : List Nat} {b b' b'' : FunctionBuilder}

theorem refl (hb : b.Sound) (h : b.current ∈ S) : Continues S b b :=
  ⟨hb, le_refl _, le_refl _, .refl _ _, fun _ _ _ => ⟨rfl, rfl⟩, Or.inl h, rfl, rfl⟩

theorem trans (h : Continues S b b') (h' : Continues S' b' b'')
    (hS : ∀ x ∈ S', x ∈ S ∨ b.nextBlock ≤ x) : Continues S b b'' where
  sound := h'.sound
  value := h.value.trans h'.value
  block := h.block.trans h'.block
  code := h.code.trans h'.code h.value
  kept id hid hnot := by
    have hnot' : id ∉ S' := fun hmem => by
      rcases hS id hmem with h1 | h1
      · exact hnot h1
      · omega
    obtain ⟨hbody, hend⟩ := h.kept id hid hnot
    obtain ⟨hbody', hend'⟩ := h'.kept id (lt_of_lt_of_le hid h.block) hnot'
    exact ⟨hbody'.trans hbody, hend'.trans hend⟩
  current := by
    rcases h'.current with hc | hc
    · exact hS _ hc
    · exact Or.inr (h.block.trans hc)
  signature := h'.signature.trans h.signature
  name := h'.name.trans h.name

theorem mono (h : Continues S b b') (hS : ∀ x ∈ S, x ∈ S') : Continues S' b b' :=
  ⟨h.sound, h.value, h.block, h.code, fun id hid hnot => h.kept id hid fun hmem => hnot (hS id hmem),
    h.current.imp_left (hS _), h.signature, h.name⟩

/-- What goes on in the current block alone. -/
theorem trans_current (h : Continues S b b') (h' : Continues [b'.current] b' b'') :
    Continues S b b'' :=
  h.trans h' fun x hx => by
    rw [List.mem_singleton.mp hx]
    exact h.current

theorem addBlock (h : Continues S b b') (label : String) : Continues S b (b'.addBlock label) where
  sound := h.sound.addBlock label
  value := h.value
  block := h.block.trans (Nat.le_succ _)
  code := by
    rw [code_addBlock h.sound]
    exact h.code
  kept := by
    rw [code_addBlock h.sound]
    exact h.kept
  current := h.current
  signature := h.signature
  name := h.name

theorem place (h : Continues S b b') (hopen : b'.Open) (operation : Operation)
    (type : Option IrType) : Continues S b (b'.place operation type) where
  sound := h.sound.place operation type
  value := h.value.trans (Nat.le_succ _)
  block := h.block
  code := by
    rw [code_place h.sound]
    exact h.code.trans (Code.Extends.append _ hopen _) (le_refl _)
  kept id hid hnot := by
    have hne : id ≠ b'.current := by
      rintro rfl
      rcases h.current with hc | hc
      · exact hnot hc
      · omega
    rw [code_place h.sound]
    change Function.update b'.code.body b'.current _ id = _ ∧ _
    rw [Function.update_of_ne hne]
    exact h.kept id hid hnot
  current := h.current
  signature := h.signature
  name := h.name

theorem endWith (h : Continues S b b') (hopen : b'.Open) (t : Terminator) :
    Continues S b (b'.endWith t) where
  sound := h.sound.endWith t
  value := h.value
  block := h.block
  code := by
    rw [code_endWith h.sound]
    exact h.code.trans (Code.Extends.setEnding _ hopen _) (le_refl _)
  kept id hid hnot := by
    have hne : id ≠ b'.current := by
      rintro rfl
      rcases h.current with hc | hc
      · exact hnot hc
      · omega
    rw [code_endWith h.sound]
    change _ ∧ Function.update b'.code.ending b'.current _ id = _
    rw [Function.update_of_ne hne]
    exact h.kept id hid hnot
  current := h.current
  signature := by
    obtain ⟨blocks, heq⟩ := addPredecessors_eq b'.current t.successors
      (b'.function.modifyBlock b'.current fun block =>
        { block with successors := t.successors, terminator := some t })
    rw [FunctionBuilder.endWith, heq]
    exact h.signature
  name := by
    obtain ⟨blocks, heq⟩ := addPredecessors_eq b'.current t.successors
      (b'.function.modifyBlock b'.current fun block =>
        { block with successors := t.successors, terminator := some t })
    rw [FunctionBuilder.endWith, heq]
    exact h.name

theorem moveTo (h : Continues S b b') {id : Nat} (hid : id ∈ S ∨ b.nextBlock ≤ id)
    (hlt : id < b'.nextBlock) : Continues S b (b'.moveTo id) where
  sound := h.sound.moveTo hlt
  value := h.value
  block := h.block
  code := h.code
  kept := h.kept
  current := hid
  signature := h.signature
  name := h.name

theorem finishWith (h : Continues S b b') (t : Terminator) : Continues S b (b'.finishWith t) := by
  by_cases hopen : b'.Open
  · rw [finishWith_of_open hopen]
    exact h.endWith hopen t
  · rw [finishWith_of_not_open hopen]
    exact h

/-- Going to another block writes nothing. -/
theorem moved (hb : b.Sound) {id : Nat} (h : id < b.nextBlock) : Continues [id] b (b.moveTo id) :=
  ⟨hb.moveTo h, le_refl _, le_refl _, .refl _ _, fun _ _ _ => ⟨rfl, rfl⟩,
    Or.inl (List.mem_singleton_self _), rfl, rfl⟩

theorem addFlag (h : Continues S b b') : Continues S b b'.addFlag where
  sound := h.sound.addFlag
  value := h.value.trans (Nat.le_add_right _ _)
  block := h.block
  code := by
    rw [code_addFlag h.sound]
    refine h.code.trans (Code.Extends.addHead (n := b'.nextValue) (fun i hi => ?_) _) h.value
    rcases List.mem_cons.mp hi with rfl | hi
    · exact le_refl _
    · rw [List.mem_singleton.mp hi]
      exact Nat.le_succ _
  kept := by
    rw [code_addFlag h.sound]
    exact h.kept
  current := h.current
  signature := h.signature
  name := h.name

end Continues

/-- An open block without instructions. -/
structure Fresh (b : FunctionBuilder) (id : Nat) : Prop where
  lt : id < b.nextBlock
  body : b.code.body id = []
  ending : b.code.ending id = none

namespace Fresh

variable {S : List Nat} {b b' : FunctionBuilder} {id : Nat}

/-- A new block is fresh. -/
theorem new (hb : b.Sound) (label : String) : Fresh (b.addBlock label) b.nextBlock := by
  refine ⟨Nat.lt_succ_self _, ?_, ?_⟩
  · rw [code_addBlock hb]
    exact hb.body_eq_nil (le_refl _)
  · rw [code_addBlock hb]
    exact hb.ending_eq_none (le_refl _)

/-- A block stays fresh while others are written to. -/
theorem continues (h : Fresh b id) (hc : Continues S b b') (hid : id ∉ S) : Fresh b' id := by
  obtain ⟨hbody, hending⟩ := hc.kept id h.lt hid
  exact ⟨h.lt.trans_le hc.block, hbody.trans h.body, hending.trans h.ending⟩

theorem addBlock (h : Fresh b id) (hb : b.Sound) (label : String) : Fresh (b.addBlock label) id := by
  refine ⟨h.lt.trans (Nat.lt_succ_self _), ?_, ?_⟩
  · rw [code_addBlock hb]
    exact h.body
  · rw [code_addBlock hb]
    exact h.ending

theorem moveTo (h : Fresh b id) (other : Nat) : Fresh (b.moveTo other) id := ⟨h.lt, h.body, h.ending⟩

theorem isOpen (h : Fresh b id) : (b.moveTo id).Open := h.ending

theorem here (h : Fresh b id) : (b.moveTo id).here = ⟨id, 0⟩ := by
  have hlength : (b.code.body id).length = 0 := by rw [h.body, List.length_nil]
  exact congrArg (Point.mk id) hlength

end Fresh

section Blocks

variable {b : FunctionBuilder} {labels : List String}

/-- The builder with several new blocks. -/
def addBlocks (b : FunctionBuilder) (labels : List String) : FunctionBuilder :=
  labels.foldl addBlock b

theorem nextBlock_addBlocks (b : FunctionBuilder) (labels : List String) :
    (b.addBlocks labels).nextBlock = b.nextBlock + labels.length := by
  induction labels generalizing b with
  | nil => rfl
  | cons label rest ih =>
    rw [addBlocks, List.foldl_cons, List.length_cons, Nat.add_comm rest.length, ← Nat.add_assoc]
    exact ih _

/-- New blocks change nothing else. -/
theorem continues_addBlocks (hb : b.Sound) (labels : List String) :
    Continues [b.current] b (b.addBlocks labels) ∧ (b.addBlocks labels).code = b.code ∧
      (b.addBlocks labels).current = b.current := by
  induction labels generalizing b with
  | nil => exact ⟨.refl hb (List.mem_singleton_self _), rfl, rfl⟩
  | cons label rest ih =>
    obtain ⟨hc, hcode, hcurrent⟩ := ih (hb.addBlock label)
    have hfirst := (Continues.refl hb (List.mem_singleton_self _)).addBlock label
    exact ⟨hfirst.trans_current hc, hcode.trans (code_addBlock hb label), hcurrent⟩

theorem here_addBlocks (hb : b.Sound) (labels : List String) : (b.addBlocks labels).here = b.here := by
  obtain ⟨-, hcode, hcurrent⟩ := continues_addBlocks hb labels
  simp only [here, hcode, hcurrent]

theorem Open.addBlocks (ho : b.Open) (hb : b.Sound) (labels : List String) :
    (b.addBlocks labels).Open := by
  obtain ⟨-, hcode, hcurrent⟩ := continues_addBlocks hb labels
  simpa only [Open, hcode, hcurrent] using ho

/-- The builder with several new blocks that ends its own one. -/
def leaveFor (b : FunctionBuilder) (labels : List String) (t : Terminator) : FunctionBuilder :=
  (b.addBlocks labels).endWith t

theorem continues_leaveFor (hb : b.Sound) (ho : b.Open) (labels : List String) (t : Terminator) :
    Continues [b.current] b (b.leaveFor labels t) :=
  (continues_addBlocks hb labels).1.endWith (ho.addBlocks hb labels) t

theorem fresh_leaveFor (hb : b.Sound) (ho : b.Open) (t : Terminator) {id : Nat}
    (hle : b.nextBlock ≤ id) (hlt : id < b.nextBlock + labels.length) :
    Fresh (b.leaveFor labels t) id := by
  obtain ⟨hc, hcode, hcurrent⟩ := continues_addBlocks hb labels
  have hnew : Fresh (b.addBlocks labels) id := by
    refine ⟨by rwa [nextBlock_addBlocks], ?_, ?_⟩
    · rw [hcode]
      exact hb.body_eq_nil hle
    · rw [hcode]
      exact hb.ending_eq_none hle
  refine hnew.continues (S := [b.current])
    ((Continues.refl hc.sound (by simp [hcurrent])).endWith (ho.addBlocks hb labels) t) ?_
  simpa using (hb.current_lt.trans_le hle).ne'

end Blocks

section Finish

/-- Among blocks with different numbers, the one with a number is kept or dropped. -/
theorem find?_filter_of_nodup {blocks : List Block} (h : (blocks.map (·.id)).Nodup)
    (p : Block → Bool) (id : Nat) :
    (blocks.filter p).find? (·.id == id) = (blocks.find? (·.id == id)).filter p := by
  induction blocks with
  | nil => rfl
  | cons block rest ih =>
    rw [List.map_cons, List.nodup_cons] at h
    by_cases hid : block.id = id
    · have hrest : rest.find? (·.id == id) = none := by
        rw [List.find?_eq_none]
        intro other hother heq
        exact h.1 (List.mem_map.mpr ⟨other, hother, by rw [hid]; simpa using heq⟩)
      cases hp : p block with
      | true => simp [hp, hid, Option.filter]
      | false =>
        have hdrop := ih h.2
        rw [hrest] at hdrop
        rw [List.filter_cons_of_neg (by simp [hp]), hdrop]
        simp [hid, hp, Option.filter]
    · cases hp : p block with
      | true => simpa [hp, hid] using ih h.2
      | false => simpa [hp, hid] using ih h.2

theorem block?_finish {b : FunctionBuilder} (hb : b.Numbered) (id : Nat) :
    b.finish.block? id = ((b.function.block? id).filter isKept).map close := by
  have hclose : (fun block : Block => block.id == id) ∘ close = fun block => block.id == id := by
    funext block
    simp only [Function.comp, close]
    split <;> rfl
  rw [finish, IrFunction.block?, List.find?_map, hclose, find?_filter_of_nodup hb.nodup]
  rfl

/-- The finished function has the instructions of its builder. -/
theorem instructionsOf_finish {b : FunctionBuilder} (hb : b.Numbered) :
    b.finish.instructionsOf = b.function.instructionsOf := by
  funext id
  rw [IrFunction.instructionsOf, block?_finish hb, IrFunction.instructionsOf]
  cases hblock : b.function.block? id with
  | none => rfl
  | some block =>
    by_cases hk : isKept block = true
    · have hsame : (close block).instructions = block.instructions := by
        unfold close
        split <;> rfl
      simp [hk, hsame, Option.filter]
    · have hempty : block.instructions = [] := by
        simp only [isKept, Bool.or_eq_true, not_or, Bool.not_eq_true] at hk
        simpa using hk.1.2
      simp [hk, hempty, Option.filter]

theorem head_finish {b : FunctionBuilder} (hb : b.Sound) :
    (b.finish.code b.entryCount).head = b.code.head := by
  simp only [code, IrFunction.code, instructionsOf_finish hb.toNumbered]

/-- A block that has ended is kept as it is. -/
theorem endingOf_finish {b : FunctionBuilder} (hb : b.Numbered) {id : Nat} {t : Terminator}
    (h : b.function.endingOf id = some t) : b.finish.endingOf id = some t := by
  obtain ⟨block, hblock, hterm⟩ := Option.bind_eq_some_iff.mp h
  have hk : isKept block = true := by simp [isKept, hterm]
  have hsame : close block = block := by simp [close, hterm]
  rw [IrFunction.endingOf, block?_finish hb, hblock]
  simp [hk, hsame, hterm, Option.filter]

/-- The finished function has all code of its builder. -/
theorem extends_finish {b : FunctionBuilder} (hb : b.Sound) (n : Nat) :
    b.code.Extends n (b.finish.code b.entryCount) := by
  simp only [code, IrFunction.code, instructionsOf_finish hb.toNumbered]
  exact ⟨fun _ => List.prefix_refl _, fun id t h => ⟨endingOf_finish hb.toNumbered h, rfl⟩, [],
    by simp, by simp⟩

/-- The entry block stands first. -/
theorem head?_finish {b : FunctionBuilder} (hb : b.Numbered) :
    ∃ entry, b.finish.blocks.head? = some entry ∧ entry.id = 0 := by
  obtain ⟨n, hn⟩ : ∃ n, b.nextBlock = n + 1 := Nat.exists_eq_succ_of_ne_zero hb.nextBlock_pos.ne'
  have hids := hb.ids
  rw [hn, List.range_succ_eq_map] at hids
  cases hblocks : b.function.blocks with
  | nil =>
    rw [hblocks] at hids
    cases hids
  | cons entry rest =>
    rw [hblocks, List.map_cons, List.cons.injEq] at hids
    have hkept : isKept entry = true := by simp [isKept, hids.1]
    refine ⟨close entry, by simp [finish, hblocks, hkept], ?_⟩
    simp [close, hids.1]

end Finish

end FunctionBuilder
end UnitCompiler
