import Mathlib.Data.List.Nodup
import UnitCompiler.Ir.Verify

/-!
# What verification guarantees

The rules that hold of a function that passed its check, one for each way a run can depend on them.
-/

namespace UnitCompiler

/-- Whether a call may pass `n` arguments. -/
def FunctionSignature.accepts (s : FunctionSignature) (n : Nat) : Bool :=
  if s.isVariadic then decide (s.params.length ≤ n) else n == s.params.length

theorem FunctionSignature.le_of_accepts {s : FunctionSignature} {n : Nat} (h : s.accepts n) :
    s.params.length ≤ n := by
  unfold accepts at h
  split_ifs at h
  · exact of_decide_eq_true h
  · exact Nat.le_of_eq (beq_iff_eq.mp h).symm

/-- What a terminator refers to. -/
def Terminator.operands : Terminator → List Operand
  | .ret (some value) => [value]
  | .condBr condition _ _ => [condition]
  | .ret none | .br _ | .unreachable => []

/-- The argument numbers among some operands are numbers of parameters. -/
def FunctionSignature.Covers (s : FunctionSignature) (operands : List Operand) : Prop :=
  ∀ index, .argument index ∈ operands → index < s.params.length

/-- A check of every item of a list that passes has passed every item. -/
theorem of_forM_eq_ok {α ε : Type} {check : α → Except ε Unit} {l : List α}
    (h : l.forM check = .ok ()) : ∀ a ∈ l, check a = .ok () := by
  induction l with
  | nil => simp
  | cons a l ih =>
    change check a >>= (fun _ => l.forM check) = .ok () at h
    cases ha : check a with
    | error e =>
      rw [ha] at h
      cases h
    | ok _ =>
      rw [ha] at h
      exact List.forall_mem_cons.mpr ⟨ha, ih h⟩

/-- Of two checks in a row that pass, both pass. -/
theorem of_seq_eq_ok {ε : Type} {first second : Except ε Unit}
    (h : (do first; second) = .ok ()) : first = .ok () ∧ second = .ok () := by
  cases first with
  | error e => cases h
  | ok _ => exact ⟨rfl, h⟩

namespace IrFunction

variable {f : IrFunction} {p : Program} {defs : List Definition} {b : Block}

theorem covers_of_checkOperand {block : Nat} (position : Nat) {operands : List Operand}
    (h : ∀ operand ∈ operands, f.checkOperand defs block position operand = .ok ()) :
    f.signature.Covers operands := by
  intro index hmem
  have hcheck := h _ hmem
  by_contra hle
  rw [checkOperand, if_pos (Nat.not_lt.mp hle)] at hcheck
  cases hcheck

theorem covers_of_checkTerminator {t : Terminator} (h : f.checkTerminator defs b t = .ok ()) :
    f.signature.Covers t.operands := by
  match t with
  | .ret (some value) =>
    rw [checkTerminator] at h
    split_ifs at h
    apply covers_of_checkOperand b.instructions.length
    simpa only [Terminator.operands, List.mem_singleton, forall_eq] using h
  | .condBr condition _ _ =>
    rw [checkTerminator] at h
    apply covers_of_checkOperand b.instructions.length
    simpa only [Terminator.operands, List.mem_singleton, forall_eq] using h
  | .ret none | .br _ | .unreachable => simp [FunctionSignature.Covers, Terminator.operands]

/-- A return carries a value exactly when there is one to return. -/
theorem ret_of_checkTerminator {value : Option Operand}
    (h : f.checkTerminator defs b (.ret value) = .ok ()) :
    value.isSome = !f.signature.ret.isVoid := by
  cases value with
  | none =>
    rw [checkTerminator] at h
    split_ifs at h with hvoid
    simp [hvoid]
  | some value =>
    rw [checkTerminator] at h
    split_ifs at h with hvoid
    simp [hvoid]

/-- A register that passes its check is defined somewhere, and before its use where both are in one block. -/
theorem definition_of_checkOperand {block position id : Nat}
    (h : f.checkOperand defs block position (.register id) = .ok ()) :
    ∃ d, definition? defs id = some d ∧ (d.block = block → d.position < position) := by
  rw [checkOperand] at h
  cases hd : definition? defs id with
  | none =>
    rw [hd] at h
    cases h
  | some d =>
    refine ⟨d, rfl, fun hblock => ?_⟩
    by_contra hle
    simp only [hd, hblock, beq_self_eq_true, Bool.true_and, decide_eq_true (Nat.not_lt.mp hle)] at h
    cases h

/-- A definition stands at an instruction with a result. -/
theorem instruction_of_definition? {id : Nat} {d : Definition} (h : definition? f.definitions id = some d) :
    ∃ b ∈ f.blocks, b.id = d.block ∧ ∃ i, b.instructions[d.position]? = some i ∧ i.hasResult ∧ i.id = id := by
  have hregister : d.register = id := by simpa using List.find?_some h
  have hmem : d ∈ f.definitions := List.mem_reverse.mp (List.mem_of_find?_eq_some h)
  obtain ⟨b, hb, hd⟩ := List.mem_flatMap.mp hmem
  obtain ⟨⟨i, position⟩, hi, hd⟩ := List.mem_filterMap.mp hd
  dsimp only at hd
  split_ifs at hd with hresult
  cases hd
  exact ⟨b, hb, rfl, i, List.mem_zipIdx_iff_getElem?.mp hi, hresult, hregister⟩

theorem target_of_checkTarget {target : Nat} (h : f.checkTarget b target = .ok ()) :
    (f.block? target).isSome := by
  rw [checkTarget] at h
  split_ifs at h with hsome
  exact hsome

section Verified

variable (h : f.verify p = .ok ()) (hb : b ∈ f.blocks)

include h hb

theorem checkInstruction_of_getElem? {i : Instruction} {position : Nat}
    (hi : b.instructions[position]? = some i) :
    f.checkInstruction p f.definitions b.id i position = .ok () := by
  have hblock := (of_seq_eq_ok (of_forM_eq_ok h b hb)).1
  exact of_forM_eq_ok hblock (i, position) (List.mem_zipIdx_iff_getElem?.mpr hi)

theorem checkInstruction_of_verify {i : Instruction} (hi : i ∈ b.instructions) :
    ∃ position, f.checkInstruction p f.definitions b.id i position = .ok () := by
  obtain ⟨position, hpos⟩ := List.mem_iff_getElem?.mp hi
  exact ⟨position, checkInstruction_of_getElem? h hb hpos⟩

/-- The instructions of a verified function name no argument beyond the parameters. -/
theorem covers_of_verify {i : Instruction} (hi : i ∈ b.instructions) :
    f.signature.Covers i.operation.operands := by
  obtain ⟨position, hcheck⟩ := checkInstruction_of_verify h hb hi
  exact covers_of_checkOperand position (of_forM_eq_ok (of_seq_eq_ok hcheck).1)

/-- A direct call in a verified function passes what the function of that name takes. -/
theorem accepts_of_verify (hp : (p.functions.map (·.name)).Nodup) (hf : f ∈ p.functions)
    {i : Instruction} (hi : i ∈ b.instructions) {callee : String} {args : List Operand}
    {convention : CallingConvention} {isTail : Bool}
    (hcall : i.operation = .call (.function callee) args convention isTail) {g : IrFunction}
    (hg : p.function? callee = some g) : g.signature.accepts args.length := by
  obtain ⟨position, hcheck⟩ := checkInstruction_of_verify h hb hi
  have hargs := (of_seq_eq_ok hcheck).2
  rw [hcall, checkCall] at hargs
  have hsignature : (if callee == f.name then some f.signature
      else (p.function? callee).map (·.signature)) = some g.signature := by
    by_cases hname : callee = f.name
    · have hfg : f = g := by
        have hmem := List.mem_of_find?_eq_some hg
        have hgname : g.name = callee := by simpa using List.find?_some hg
        exact List.inj_on_of_nodup_map hp hf hmem (by rw [hgname, hname])
      rw [if_pos (by simpa using hname), hfg]
    · rw [if_neg (by simpa using hname), hg]
      rfl
  rw [hsignature] at hargs
  simp only at hargs
  split_ifs at hargs with hvariadic hfits hfits
  · simpa [FunctionSignature.accepts, hvariadic] using hfits
  · simpa [FunctionSignature.accepts, hvariadic] using hfits

/-- Every block of a verified function ends with a terminator that obeys the rules. -/
theorem terminator_of_verify : ∃ t, b.terminator = some t ∧ f.signature.Covers t.operands ∧
    (∀ value, t = .ret value → value.isSome = !f.signature.ret.isVoid) ∧
    ∀ target ∈ t.successors, (f.block? target).isSome := by
  have hend := (of_seq_eq_ok (of_forM_eq_ok h b hb)).2
  cases hterm : b.terminator with
  | none =>
    rw [hterm] at hend
    cases hend
  | some t =>
    rw [hterm] at hend
    obtain ⟨hcheck, htargets⟩ := of_seq_eq_ok hend
    refine ⟨t, rfl, covers_of_checkTerminator hcheck, ?_, ?_⟩
    · intro value hret
      exact ret_of_checkTerminator (hret ▸ hcheck)
    · intro target htarget
      exact target_of_checkTarget (of_forM_eq_ok htargets target htarget)

/-- A register that an instruction of a verified function uses has a definition, which comes first where
it is in the same block. -/
theorem definition_of_instruction {i : Instruction} {position id : Nat}
    (hi : b.instructions[position]? = some i) (hid : .register id ∈ i.operation.operands) :
    ∃ d, definition? f.definitions id = some d ∧ (d.block = b.id → d.position < position) :=
  definition_of_checkOperand
    (of_forM_eq_ok (of_seq_eq_ok (checkInstruction_of_getElem? h hb hi)).1 _ hid)

/-- The same of a register that a terminator uses, after all instructions of its block. -/
theorem definition_of_terminator {t : Terminator} {id : Nat} (hterm : b.terminator = some t)
    (hid : .register id ∈ t.operands) : ∃ d, definition? f.definitions id = some d ∧
      (d.block = b.id → d.position < b.instructions.length) := by
  have hend := (of_seq_eq_ok (of_forM_eq_ok h b hb)).2
  rw [hterm] at hend
  have hcheck := (of_seq_eq_ok hend).1
  match t with
  | .ret (some value) =>
    obtain rfl := List.mem_singleton.mp hid
    rw [checkTerminator] at hcheck
    split_ifs at hcheck
    exact definition_of_checkOperand (f := f) hcheck
  | .condBr condition _ _ =>
    obtain rfl := List.mem_singleton.mp hid
    exact definition_of_checkOperand (f := f) hcheck
  | .ret none | .br _ | .unreachable => cases hid

end Verified

end IrFunction

/-- A program whose functions have different names and all pass their check. -/
structure Program.Verified (p : Program) : Prop where
  distinct : (p.functions.map (·.name)).Nodup
  passes : ∀ f ∈ p.functions, f.verify p = .ok ()

end UnitCompiler
