import UnitCompiler.Proofs.Machine.Instructions

/-!
# Calls

From the entry of a function to its value.  The flags at the head of the entry block are made first;
what the body comes to within some number of blocks is what the call comes to, since the budget of a
call is never too small.
-/

namespace UnitCompiler
namespace Machine

open FunctionBuilder (flagCode)

/-- A run comes to a value with the property `Q` or to a fault with the property `X` once enough blocks
may be entered. -/
def Settles (run : Nat → EStateM.Result Fault State Value) (Q : Value → State → Prop)
    (X : Fault → Prop) : Prop :=
  (∃ v s k, Q v s ∧ ∀ n, run (n + k) = .ok v s) ∨ ∃ e s k, X e ∧ ∀ n, run (n + k) = .error e s

namespace Settles

variable {A : Activation} {C : Config} {P : Config → Prop} {Q R : Value → State → Prop}
  {X Y : Fault → Prop} {run : Nat → EStateM.Result Fault State Value}

theorem mono (h : Settles run Q X) (hQ : ∀ v s, Q v s → R v s) (hX : ∀ e, X e → Y e) :
    Settles run R Y := by
  rcases h with ⟨v, s, k, hv, hrun⟩ | ⟨e, s, k, he, hrun⟩
  · exact Or.inl ⟨v, s, k, hQ v s hv, hrun⟩
  · exact Or.inr ⟨e, s, k, hX e he, hrun⟩

theorem of_leads (h : A.Leads 0 C P X)
    (hnext : ∀ C', P C' → Settles (fun n => A.exec n C') Q X) : Settles (fun n => A.exec n C) Q X := by
  rcases h with ⟨C', k, hC', -, hrun⟩ | ⟨e, s, k, he, hrun⟩
  · rcases hnext C' hC' with ⟨v, s, k', hv, hrun'⟩ | ⟨e, s, k', he, hrun'⟩
    · refine Or.inl ⟨v, s, k' + k, hv, fun n => ?_⟩
      rw [← Nat.add_assoc]
      exact (hrun (n + k')).trans (hrun' n)
    · refine Or.inr ⟨e, s, k' + k, he, fun n => ?_⟩
      rw [← Nat.add_assoc]
      exact (hrun (n + k')).trans (hrun' n)
  · exact Or.inr ⟨e, s, k, he, hrun⟩

/-- The end of a function. -/
theorem of_ret {p : Point} {value : Option Operand} {v : Value} {frame : Frame} {s : State}
    (hend : A.code.ending p.block = some (.ret value))
    (hlen : (A.code.body p.block).length = p.index)
    (hvalue : leaveBy A.image frame (.ret value) = .ok (.leave v)) (hQ : Q v s) :
    Settles (fun n => A.exec n ⟨p, frame, s⟩) Q X := by
  refine Or.inl ⟨v, s, 0, hQ, fun n => ?_⟩
  change A.exec n _ = _
  rw [Activation.exec_end hend hlen, hvalue]

/-- What a run comes to is what it comes to within the budget of its function. -/
theorem at_budget {i : Image} {caller : Caller} {f : IrFunction} {id : Nat} {frame : Frame} {s : State}
    (hcaller : ∀ name args, Advances (caller name args))
    (h : Settles (fun n => runBlocks i caller f n id frame s) Q X) :
    (∃ v s', runBlocks i caller f (blockBudget f) id frame s = .ok v s' ∧ Q v s') ∨
      ∃ e s', runBlocks i caller f (blockBudget f) id frame s = .error e s' ∧ X e := by
  have hbudget (k : Nat) := runBlocks_blockBudget (i := i) (f := f) hcaller
    (n := blockBudget f + k) (Nat.le_add_right _ _) id frame s
  rcases h with ⟨v, s', k, hv, hrun⟩ | ⟨e, s', k, he, hrun⟩
  · exact Or.inl ⟨v, s', (hbudget k).trans (hrun _), hv⟩
  · exact Or.inr ⟨e, s', (hbudget k).trans (hrun _), he⟩

end Settles

/-- Behind the head of an entry block: every flag has a cell with a false in it, behind all memory that
was there and apart from the others. -/
structure RaisesFlags (image : Image) (flags : List Nat) (frame : Frame) (m : Memory) (frame' : Frame)
    (m' : Memory) : Prop where
  signature : frame'.signature = frame.signature
  args : frame'.args = frame.args
  memory : Grows m m'
  registers : ∀ r, r ∉ flags → frame'.registers[r]? = frame.registers[r]?
  cell : ∀ flag ∈ flags, ∃ a, image.eval frame' (.register flag) = .ok (.ptr a) ∧ m.size ≤ a ∧
    Holds m' a (.ofBool false)
  apart : ∀ flag ∈ flags, ∀ flag' ∈ flags, flag ≠ flag' → ∀ a a',
    image.eval frame' (.register flag) = .ok (.ptr a) →
    image.eval frame' (.register flag') = .ok (.ptr a') →
    Apart a Scalar.bool.bytes a' Scalar.bool.bytes

section Flags

variable {image : Image} {caller : Caller}

/-- The code of one flag runs into a limit or makes a cell. -/
theorem foldlM_flagCode (flag : Nat) (frame : Frame) (s : State)
    (hbase : memoryBase ≤ s.memory.size) :
    (∃ e s', e.isLimit = true ∧
        (flagCode flag).foldlM (stepInstruction image caller) frame s = .error e s') ∨
      ∃ frame' s', (flagCode flag).foldlM (stepInstruction image caller) frame s = .ok frame' s' ∧
        RaisesFlags image [flag] frame s.memory frame' s'.memory := by
  let make : Instruction := ⟨flag, .alloca .i1 1, some (.ptr .i1)⟩
  let clear : Instruction := ⟨flag + 1, .store (.constant (.bool false)) (.register flag) none false, none⟩
  change (∃ e s', e.isLimit = true ∧ List.foldlM (stepInstruction image caller) frame [make, clear] s =
    .error e s') ∨ ∃ frame' s', List.foldlM (stepInstruction image caller) frame [make, clear] s =
      .ok frame' s' ∧ RaisesFlags image [flag] frame s.memory frame' s'.memory
  simp only [List.foldlM_cons, List.foldlM_nil]
  rw [bind_apply, stepInstruction_eq]
  by_cases hlimit : maxSteps < s.steps + 1
  · rw [if_pos hlimit]
    exact Or.inl ⟨_, _, rfl, rfl⟩
  rw [if_neg hlimit]
  rcases @perform_alloca image caller frame .bool (.ptr .i1)
      { s with steps := s.steps + 1 } rfl 1 (by decide) hbase with
    ⟨s₁, herror⟩ | ⟨a, m, hok, hgrows, hle, hholds⟩
  · have hmake : perform image caller frame (make.type.getD .void) make.operation
        { s with steps := s.steps + 1 } = .error .outOfMemory s₁ := herror
    rw [hmake]
    exact Or.inl ⟨_, _, rfl, rfl⟩
  · have hmake : perform image caller frame (make.type.getD .void) make.operation
        { s with steps := s.steps + 1 } = .ok (.ptr a) ⟨m, s.steps + 1⟩ := hok
    rw [hmake]
    simp only
    rw [bind_apply, stepInstruction_eq]
    by_cases hlimit' : maxSteps < s.steps + 1 + 1
    · rw [if_pos hlimit']
      exact Or.inl ⟨_, _, rfl, rfl⟩
    rw [if_neg hlimit']
    have hreg : image.eval (frame.keep make (.ptr a)) (.register flag) = .ok (.ptr a) := by
      have hkeep := getElem?_keep frame (i := make) rfl rfl (.ptr a)
      simp only [Image.eval, make] at hkeep ⊢
      rw [hkeep]
    obtain ⟨m', hstore, hsize, hcell, hbytes⟩ := perform_store caller .void ⟨m, s.steps + 1 + 1⟩
      (denotes_bool image (frame.keep make (.ptr a)) false) hreg hholds.access
    have hclear : perform image caller (frame.keep make (.ptr a)) (clear.type.getD .void)
        clear.operation ⟨m, s.steps + 1 + 1⟩ = .ok .void ⟨m', s.steps + 1 + 1⟩ := hstore
    rw [hclear]
    have hagrees := agrees_keep frame make (.ptr a)
    refine Or.inr ⟨frame.keep make (.ptr a), ⟨m', s.steps + 1 + 1⟩, rfl, hagrees.signature,
      hagrees.args, ⟨hgrows.size.trans_eq hsize.symm, fun j hj => ?_⟩, fun r hr => ?_,
      fun r hr => ?_, ?_⟩
    · rw [hbytes j (Or.inl (hj.trans_le hle)), hgrows.bytes j hj]
    · have hne : r ≠ flag := by simpa using hr
      exact hagrees.registers r (by change r < flag ∨ flag + 1 ≤ r; omega)
    · rw [List.mem_singleton.mp hr]
      exact ⟨a, hreg, hle, hcell⟩
    · intro r hr r' hr' hne
      rw [List.mem_singleton.mp hr, List.mem_singleton.mp hr'] at hne
      exact absurd rfl hne

/-- The code of all flags, one after the other. -/
theorem foldlM_flags (flags : List Nat) (hnodup : flags.Nodup) (frame : Frame) (s : State)
    (hbase : memoryBase ≤ s.memory.size) :
    (∃ e s', e.isLimit = true ∧
        (flags.flatMap flagCode).foldlM (stepInstruction image caller) frame s = .error e s') ∨
      ∃ frame' s', (flags.flatMap flagCode).foldlM (stepInstruction image caller) frame s =
          .ok frame' s' ∧
        RaisesFlags image flags frame s.memory frame' s'.memory := by
  induction flags generalizing frame s with
  | nil =>
    exact Or.inr ⟨frame, s, rfl, rfl, rfl, .refl _, fun _ _ => rfl, by simp, by simp⟩
  | cons flag rest ih =>
    rw [List.nodup_cons] at hnodup
    simp only [List.flatMap_cons, List.foldlM_append]
    rw [bind_apply]
    rcases foldlM_flagCode flag frame s hbase with
      ⟨e, s', he, hrun⟩ | ⟨frame₁, s₁, hrun, h₁⟩
    · rw [hrun]
      exact Or.inl ⟨e, s', he, rfl⟩
    rw [hrun]
    rcases ih hnodup.2 frame₁ s₁ (hbase.trans h₁.memory.size) with
      ⟨e, s', he, hrun'⟩ | ⟨frame₂, s₂, hrun', h₂⟩
    · exact Or.inl ⟨e, s', he, hrun'⟩
    obtain ⟨a, ha, hle, hholds⟩ := h₁.cell flag (List.mem_singleton_self _)
    have hflag : image.eval frame₂ (.register flag) = .ok (.ptr a) := by
      rw [← ha]
      simp only [Image.eval, h₂.registers flag hnodup.1]
    -- the flags that follow lie behind this one
    have hbehind (flag' : Nat) (hflag' : flag' ∈ rest) (a' : Nat)
        (ha' : image.eval frame₂ (.register flag') = .ok (.ptr a')) : a + Scalar.bool.bytes ≤ a' := by
      obtain ⟨a'', ha'', hle', -⟩ := h₂.cell flag' hflag'
      cases ha''.symm.trans ha'
      exact hholds.access.2.trans hle'
    refine Or.inr ⟨frame₂, s₂, hrun', h₂.signature.trans h₁.signature, h₂.args.trans h₁.args,
      h₁.memory.trans h₂.memory, fun r hr => ?_, fun r hr => ?_, ?_⟩
    · rw [List.mem_cons, not_or] at hr
      rw [h₂.registers r hr.2, h₁.registers r (by simpa using hr.1)]
    · rcases List.mem_cons.mp hr with rfl | hr
      · exact ⟨a, hflag, hle, h₂.memory.holds hholds⟩
      · obtain ⟨a', ha', hle', hholds'⟩ := h₂.cell r hr
        exact ⟨a', ha', h₁.memory.size.trans hle', hholds'⟩
    · intro r hr r' hr' hne a₁ a₂ ha₁ ha₂
      rcases List.mem_cons.mp hr with rfl | hmem
      · rcases List.mem_cons.mp hr' with rfl | hmem'
        · exact absurd rfl hne
        · cases hflag.symm.trans ha₁
          exact Or.inl (hbehind r' hmem' a₂ ha₂)
      · rcases List.mem_cons.mp hr' with rfl | hmem'
        · cases hflag.symm.trans ha₂
          exact Or.inr (hbehind r hmem a₁ ha₁)
        · exact h₂.apart r hmem r' hmem' hne a₁ a₂ ha₁ ha₂

end Flags

/-- A function runs from its entry as its body does behind the flags. -/
theorem Settles.of_entry {A : Activation} {frame frame' : Frame} {s s' : State}
    {Q : Value → State → Prop} {X : Fault → Prop}
    (hhead : A.code.head.foldlM (stepInstruction A.image A.caller) frame s = .ok frame' s')
    (h : Settles (fun n => A.exec n ⟨⟨0, 0⟩, frame', s'⟩) Q X) :
    Settles (fun n => runBlocks A.image A.caller A.function n 0 frame s) Q X := by
  have hentry (n : Nat) : runBlocks A.image A.caller A.function (n + 1) 0 frame s =
      A.exec n ⟨⟨0, 0⟩, frame', s'⟩ := by
    rw [Activation.runBlocks_entry, hhead]
  rcases h with ⟨v, s₁, k, hv, hrun⟩ | ⟨e, s₁, k, he, hrun⟩
  · exact Or.inl ⟨v, s₁, k + 1, hv, fun n => (hentry (n + k)).trans (hrun n)⟩
  · exact Or.inr ⟨e, s₁, k + 1, he, fun n => (hentry (n + k)).trans (hrun n)⟩

end Machine
end UnitCompiler
