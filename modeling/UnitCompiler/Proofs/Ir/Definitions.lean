import UnitCompiler.Compile.Passing
import UnitCompiler.Proofs.Ir.Building

/-!
# Definitions of a program

A function is a definition once it has a body.  Actions on a builder write the body only: the function keeps
its name and all its blocks, and so is a definition in the end.
-/

namespace UnitCompiler

namespace Program

/-- The functions of a program that have a body. -/
def definitions (p : Program) : List IrFunction := p.functions.filter fun f => !f.isDeclaration

theorem definitionCount_eq (p : Program) (name : String) :
    p.definitionCount name = (p.definitions.map (·.name)).count name := by
  rw [definitionCount, definitions, List.count_eq_countP, List.countP_map, List.countP_filter,
    List.countP_eq_length_filter]
  rfl

theorem definitions_addFunction (p : Program) (f : IrFunction) :
    (p.addFunction f).definitions = p.definitions ++ if f.isDeclaration then [] else [f] := by
  rw [definitions, addFunction, List.filter_append]
  cases hbody : f.isDeclaration <;> simp [definitions, hbody]

end Program

namespace FunctionBuilder

/-- The function has its name and its blocks still. -/
structure Keeps (b b' : FunctionBuilder) : Prop where
  name : b'.function.name = b.function.name
  blocks : b.function.blocks.map (·.id) ⊆ b'.function.blocks.map (·.id)

namespace Keeps

variable {b b' b'' : FunctionBuilder}

theorem refl (b : FunctionBuilder) : b.Keeps b := ⟨rfl, List.Subset.refl _⟩

theorem trans (h : b.Keeps b') (h' : b'.Keeps b'') : b.Keeps b'' :=
  ⟨h'.name.trans h.name, List.Subset.trans h.blocks h'.blocks⟩

theorem of_eq (h : b'.function = b.function) : b.Keeps b' := by
  refine ⟨by rw [h], ?_⟩
  rw [h]
  exact List.Subset.refl _

theorem addBlock (b : FunctionBuilder) (label : String) : b.Keeps (b.addBlock label) := by
  refine ⟨rfl, ?_⟩
  rw [FunctionBuilder.addBlock, List.map_append]
  exact List.subset_append_left _ _

theorem modifyBlock (b : FunctionBuilder) (id : Nat) {g : Block → Block} (hg : ∀ block, (g block).id = block.id) :
    b.Keeps { b with function := b.function.modifyBlock id g } := by
  have hids : (b.function.modifyBlock id g).blocks.map (·.id) = b.function.blocks.map (·.id) := by
    rw [IrFunction.modifyBlock, List.map_map]
    refine List.map_congr_left fun block _ => ?_
    change (if block.id == id then g block else block).id = block.id
    split
    · exact hg block
    · rfl
  refine ⟨rfl, ?_⟩
  rw [hids]
  exact List.Subset.refl _

/-- A function with an entry block is a definition when it is finished. -/
theorem isDeclaration_finish (h : b.Keeps b') (hentry : 0 ∈ b.function.blocks.map (·.id)) :
    b'.finish.isDeclaration = false := by
  obtain ⟨entry, hmem, hid⟩ := List.mem_map.mp (h.blocks hentry)
  have hkept : entry ∈ b'.function.blocks.filter isKept :=
    List.mem_filter.mpr ⟨hmem, by simp [isKept, hid]⟩
  rw [IrFunction.isDeclaration, finish, List.isEmpty_map, List.isEmpty_eq_false_iff]
  exact List.ne_nil_of_mem hkept

end Keeps

/-- An action that writes the body of a function at most. -/
class InBody {α : Type} (action : BuildM α) : Prop where
  keeps : ∀ b : FunctionBuilder, b.Keeps (action.run b).2

namespace InBody

variable {α β : Type}

instance pure (a : α) : InBody (Pure.pure a) := ⟨Keeps.refl⟩

instance get : InBody (MonadState.get : BuildM FunctionBuilder) := ⟨Keeps.refl⟩

instance bind (x : BuildM α) (f : α → BuildM β) [InBody x] [∀ a, InBody (f a)] : InBody (x >>= f) where
  keeps b := by
    rw [run_bind]
    exact (keeps b).trans (keeps _)

instance map (g : α → β) (x : BuildM α) [h : InBody x] : InBody (g <$> x) where
  keeps b := h.keeps b

instance discard (x : BuildM α) [h : InBody x] : InBody (discard x) where
  keeps b := h.keeps b

instance ite {q : Prop} [Decidable q] (x y : BuildM α) [InBody x] [InBody y] : InBody (if q then x else y) := by
  split <;> infer_instance

instance forM (items : List α) (f : α → BuildM PUnit) [∀ a, InBody (f a)] : InBody (items.forM f) := by
  induction items with
  | nil => exact pure _
  | cons a rest ih => exact bind _ _

instance foldlM (items : List α) (f : β → α → BuildM β) [∀ b a, InBody (f b a)] (start : β) :
    InBody (items.foldlM f start) := by
  induction items generalizing start with
  | nil => exact pure _
  | cons a rest ih => exact bind _ _

instance optionMapM (item : Option α) (f : α → BuildM β) [∀ a, InBody (f a)] : InBody (item.mapM f) := by
  cases item with
  | none => exact pure _
  | some a => exact map _ _

/-! ### Actions of a builder -/

instance createBlock (label : String) : InBody (createBlock label) := ⟨(.addBlock · label)⟩

instance switchTo (id : Nat) : InBody (switchTo id) := ⟨fun _ => .of_eq rfl⟩

instance addLocal (name : LocalName) : InBody (addLocal name) := ⟨fun _ => ⟨rfl, List.Subset.refl _⟩⟩

theorem modifyBlock (id : Nat) {g : Block → Block} (hg : ∀ block, (g block).id = block.id) :
    InBody (modifyBlock id g) := ⟨fun b => .modifyBlock b id hg⟩

instance entrySlot (type : IrType) (init : Operand) : InBody (entrySlot type init) where
  keeps b := by
    have hcounted : b.Keeps { b with nextValue := b.nextValue + 2, entryCount := b.entryCount + 2 } := .of_eq rfl
    refine hcounted.trans (.modifyBlock _ 0 ?_)
    exact fun _ => rfl

instance push (operation : Operation) (type : Option IrType) : InBody (push operation type) where
  keeps b := by
    have hplace (b : FunctionBuilder) : b.Keeps (b.place operation type) := by
      have hcounted : b.Keeps { b with nextValue := b.nextValue + 1 } := .of_eq rfl
      refine hcounted.trans (.modifyBlock _ b.current ?_)
      exact fun _ => rfl
    by_cases h : b.Open
    · rw [push_run h]
      exact hplace b
    · have hclosed := isTerminated_of_not_open h
      have hmoved : b.Keeps ((b.addBlock "dead").moveTo b.nextBlock) := (Keeps.addBlock b "dead").trans (.of_eq rfl)
      unfold FunctionBuilder.push
      simp only [StateT.run_bind, StateT.run_get, pure_bind, hclosed]
      exact hmoved.trans (hplace _)

instance terminate (t : Terminator) : InBody (terminate t) := by
  have hend (id : Nat) : InBody (FunctionBuilder.modifyBlock id fun block =>
      { block with successors := t.successors, terminator := some t }) :=
    modifyBlock id fun _ => rfl
  have hlink (current id : Nat) : InBody (FunctionBuilder.modifyBlock id (addPredecessor current)) := by
    refine modifyBlock id fun block => ?_
    unfold addPredecessor
    split <;> rfl
  unfold FunctionBuilder.terminate
  infer_instance

instance br (target : Nat) : InBody (br target) := terminate _

instance condBr (condition : Operand) (ifTrue ifFalse : Nat) : InBody (condBr condition ifTrue ifFalse) :=
  terminate _

instance ret (value : Option Operand) : InBody (ret value) := terminate _

instance alloca (type : IrType) : InBody (alloca type) := bind _ _

instance load (address : Operand) (type : IrType) : InBody (load address type) := push _ _

instance store (value address : Operand) : InBody (store value address) := discard _

instance elementPtr (base : Operand) (indices : List Operand) (element : IrType) :
    InBody (elementPtr base indices element) := push _ _

instance fieldPtr (base : Operand) (index : Nat) (field : IrType) : InBody (fieldPtr base index field) :=
  elementPtr _ _ _

instance convert (op : ConvertOp) (value : Operand) (type : IrType) : InBody (convert op value type) := push _ _

instance bitcast (value : Operand) (type : IrType) : InBody (bitcast value type) := convert _ _ _

instance call (callee : Operand) (args : List Operand) (convention : CallingConvention) (ret : IrType) :
    InBody (call callee args convention ret) := push _ _

instance receive (cls : PassingClass) (incoming : Operand) (struct register : IrType)
    (packed : List (IrType × Nat)) : InBody (cls.receive incoming struct register packed) := by
  cases cls <;> unfold PassingClass.receive <;> infer_instance

instance send (cls : PassingClass) (value : Operand) (struct register : IrType)
    (packed : List (IrType × Nat)) : InBody (cls.send value struct register packed) := by
  cases cls <;> unfold PassingClass.send <;> infer_instance

end InBody
end FunctionBuilder
end UnitCompiler
