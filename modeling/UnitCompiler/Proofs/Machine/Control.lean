import UnitCompiler.Proofs.Ir.Building
import UnitCompiler.Proofs.Machine.Budget
import UnitCompiler.Proofs.Machine.Cells

/-!
# Control

Running a function from any point of its code.  A run leads from one configuration to another when,
with enough blocks left, it goes on from there; on the way it may also run into a fault.  A run lasts
when no value comes out of it within a number of blocks.
-/

namespace UnitCompiler
namespace Machine

/-- The faults that a machine with more steps, memory or depth might not have. -/
def Fault.isLimit : Fault → Bool
  | .stepLimit | .outOfMemory | .callDepth _ => true
  | _ => false

/-- A function of an image under way: `entry` slot instructions stand at the head of its code. -/
structure Activation where
  image : Image
  caller : Caller
  function : IrFunction
  entry : Nat

/-- Where a run is and what it has. -/
structure Config where
  point : Point
  frame : Frame
  state : State

/-- Where a terminator leads. -/
def leaveBy (i : Image) (frame : Frame) : Terminator → Except Fault Exit
  | .ret (some value) => (i.eval frame value).map .leave
  | .ret none => .ok (.leave .void)
  | .br target => .ok (.goto target)
  | .condBr condition ifTrue ifFalse => do
    let value ← i.eval frame condition
    return .goto (if value.unsigned?.getD 0 ≠ 0 then ifTrue else ifFalse)
  | .unreachable => .error .unreachable

theorem leaveBlock_eq {b : Block} {t : Terminator} (h : b.terminator = some t) (i : Image)
    (frame : Frame) : leaveBlock i frame b = leaveBy i frame t := by
  rw [leaveBlock, h]
  cases t with
  | ret value => cases value <;> rfl
  | br target => rfl
  | condBr condition ifTrue ifFalse => rfl
  | unreachable => rfl

namespace Activation

variable (A : Activation)

def code : Code := A.function.code A.entry

/-- Runs from a point of the code on; `n` more blocks may be entered. -/
def exec (n : Nat) (C : Config) : EStateM.Result Fault State Value :=
  match A.function.block? C.point.block with
  | none => .error (.missingBlock C.point.block) C.state
  | some b =>
    match ((A.code.body C.point.block).drop C.point.index).foldlM
        (stepInstruction A.image A.caller) C.frame C.state with
    | .error e s => .error e s
    | .ok frame s =>
      match leaveBlock A.image frame b with
      | .error e => .error e s
      | .ok (.leave value) => .ok value s
      | .ok (.goto target) => runBlocks A.image A.caller A.function n target frame s

variable {A}

theorem exec_step {p : Point} {i : Instruction} (h : (A.code.body p.block)[p.index]? = some i)
    (n : Nat) (frame : Frame) (s : State) :
    A.exec n ⟨p, frame, s⟩ =
      match stepInstruction A.image A.caller frame i s with
      | .ok frame' s' => A.exec n ⟨p.next, frame', s'⟩
      | .error e s' => .error e s' := by
  obtain ⟨hlt, hget⟩ := List.getElem?_eq_some_iff.mp h
  have hdrop : (A.code.body p.block).drop p.index =
      i :: (A.code.body p.block).drop (p.index + 1) := by
    rw [List.drop_eq_getElem_cons hlt, hget]
  cases hblock : A.function.block? p.block with
  | none =>
    have hnil : A.code.body p.block = [] := by
      simp [code, IrFunction.code, IrFunction.instructionsOf, hblock]
    rw [hnil] at hlt
    exact absurd hlt (Nat.not_lt_zero _)
  | some b =>
    simp only [exec, hblock, hdrop, List.foldlM_cons, bind_apply, Point.next]
    cases stepInstruction A.image A.caller frame i s with
    | error e s' => rfl
    | ok frame' s' => rfl

theorem exec_end {p : Point} {t : Terminator} (hend : A.code.ending p.block = some t)
    (hlen : (A.code.body p.block).length = p.index) (n : Nat) (frame : Frame) (s : State) :
    A.exec n ⟨p, frame, s⟩ =
      match leaveBy A.image frame t with
      | .error e => .error e s
      | .ok (.leave value) => .ok value s
      | .ok (.goto target) => runBlocks A.image A.caller A.function n target frame s := by
  obtain ⟨b, hblock, hterm⟩ := Option.bind_eq_some_iff.mp hend
  have hdrop : (A.code.body p.block).drop p.index = [] := List.drop_of_length_le hlen.le
  simp only [exec, hblock, hdrop, List.foldlM_nil, leaveBlock_eq hterm]
  rfl

/-- A block other than the entry block runs from its start. -/
theorem runBlocks_eq_exec {id : Nat} (hid : id ≠ 0) (n : Nat) (frame : Frame) (s : State) :
    runBlocks A.image A.caller A.function (n + 1) id frame s = A.exec n ⟨⟨id, 0⟩, frame, s⟩ := by
  rw [runBlocks_succ, runBlock, exec]
  cases hblock : A.function.block? id with
  | none => rfl
  | some b =>
    have hbody : A.code.body id = b.instructions := by
      simp [code, IrFunction.code, IrFunction.instructionsOf, hblock, hid]
    simp only [hbody, List.drop_zero, bind_apply]
    cases b.instructions.foldlM (stepInstruction A.image A.caller) frame s with
    | error e s' => rfl
    | ok frame' s' =>
      simp only
      cases leaveBlock A.image frame' b with
      | error e => rfl
      | ok exit => cases exit <;> rfl

/-- The entry block runs its head first. -/
theorem runBlocks_entry (n : Nat) (frame : Frame) (s : State) :
    runBlocks A.image A.caller A.function (n + 1) 0 frame s =
      match A.code.head.foldlM (stepInstruction A.image A.caller) frame s with
      | .ok frame' s' => A.exec n ⟨⟨0, 0⟩, frame', s'⟩
      | .error e s' => .error e s' := by
  rw [runBlocks_succ, runBlock]
  cases hblock : A.function.block? 0 with
  | none =>
    have hhead : A.code.head = [] := by
      simp [code, IrFunction.code, IrFunction.instructionsOf, hblock]
    simp only [hhead, List.foldlM_nil]
    change _ = A.exec n ⟨⟨0, 0⟩, frame, s⟩
    simp only [exec, hblock]
    rfl
  | some b =>
    have hparts : b.instructions = A.code.head ++ A.code.body 0 := by
      simp [code, IrFunction.code, IrFunction.instructionsOf, hblock]
    simp only [exec, hblock, hparts, List.foldlM_append, List.drop_zero, bind_apply]
    cases A.code.head.foldlM (stepInstruction A.image A.caller) frame s with
    | error e s' => rfl
    | ok frame' s' =>
      simp only
      cases (A.code.body 0).foldlM (stepInstruction A.image A.caller) frame' s' with
      | error e s'' => rfl
      | ok frame'' s'' =>
        simp only
        cases leaveBlock A.image frame'' b with
        | error e => rfl
        | ok exit => cases exit <;> rfl

variable (A)

/-- The run from `C` goes on from a configuration with the property `Q` after at least `j` blocks, or
ends in a fault with the property `X`. -/
def Leads (j : Nat) (C : Config) (Q : Config → Prop) (X : Fault → Prop) : Prop :=
  (∃ C' k, Q C' ∧ j ≤ k ∧ ∀ n, A.exec (n + k) C = A.exec n C') ∨
    ∃ e s k, X e ∧ ∀ n, A.exec (n + k) C = .error e s

/-- The run from `C` gives no value within `n` blocks. -/
def Lasts (n : Nat) (C : Config) : Prop := ∀ m ≤ n, ∀ v s, A.exec m C ≠ .ok v s

variable {A}

namespace Leads

variable {j j' : Nat} {C C' : Config} {Q R : Config → Prop} {X Y : Fault → Prop}

theorem refl (h : Q C) : A.Leads 0 C Q X := Or.inl ⟨C, 0, h, le_refl _, fun _ => rfl⟩

theorem bind (h : A.Leads j C Q X) (hnext : ∀ C', Q C' → A.Leads j' C' R X) :
    A.Leads (j + j') C R X := by
  rcases h with ⟨C', k, hQ, hj, hrun⟩ | ⟨e, s, k, hX, hrun⟩
  · rcases hnext C' hQ with ⟨C'', k', hR, hj', hrun'⟩ | ⟨e, s, k', hX, hrun'⟩
    · refine Or.inl ⟨C'', k' + k, hR, by omega, fun n => ?_⟩
      rw [← Nat.add_assoc, hrun, hrun']
    · refine Or.inr ⟨e, s, k' + k, hX, fun n => ?_⟩
      rw [← Nat.add_assoc, hrun, hrun']
  · exact Or.inr ⟨e, s, k, hX, hrun⟩

theorem mono (h : A.Leads j C Q X) (hj : j' ≤ j) (hQ : ∀ C', Q C' → R C') (hX : ∀ e, X e → Y e) :
    A.Leads j' C R Y := by
  rcases h with ⟨C', k, hC, hk, hrun⟩ | ⟨e, s, k, he, hrun⟩
  · exact Or.inl ⟨C', k, hQ C' hC, hj.trans hk, hrun⟩
  · exact Or.inr ⟨e, s, k, hX e he, hrun⟩

/-- Two runs in a row when the number of blocks does not matter. -/
theorem andThen (h : A.Leads 0 C Q X) (hnext : ∀ C', Q C' → A.Leads 0 C' R X) :
    A.Leads 0 C R X := h.bind hnext

theorem imp (h : A.Leads j C Q X) (hQ : ∀ C', Q C' → R C') : A.Leads j C R X :=
  h.mono (le_refl _) hQ fun _ => id

end Leads

/-- A value that comes out within some blocks comes out within more. -/
theorem exec_mono {n m : Nat} (h : n ≤ m) {C : Config} {v : Value} {s : State}
    (hok : A.exec n C = .ok v s) : A.exec m C = .ok v s := by
  unfold exec at hok ⊢
  cases hblock : A.function.block? C.point.block with
  | none => simp [hblock] at hok
  | some b =>
    simp only [hblock] at hok ⊢
    cases hfold : ((A.code.body C.point.block).drop C.point.index).foldlM
        (stepInstruction A.image A.caller) C.frame C.state with
    | error e s' => simp [hfold] at hok
    | ok frame s' =>
      simp only [hfold] at hok ⊢
      cases hleave : leaveBlock A.image frame b with
      | error e => simp [hleave] at hok
      | ok exit =>
        cases exit with
        | leave value => simpa [hleave] using hok
        | goto target =>
          simp only [hleave] at hok ⊢
          exact runBlocks_mono h hok

/-- A run that leads to a run that lasts, lasts at least as much longer as it takes to get there. -/
theorem Leads.lasts {j n : Nat} {C : Config} {Q : Config → Prop} {X : Fault → Prop}
    (h : A.Leads j C Q X) (hlasts : ∀ C', Q C' → A.Lasts n C') : A.Lasts (n + j) C := by
  intro m hm v s hok
  rcases h with ⟨C', k, hQ, hj, hrun⟩ | ⟨e, s', k, -, hrun⟩
  · by_cases hk : k ≤ m
    · obtain ⟨m', rfl⟩ : ∃ m', m = m' + k := ⟨m - k, by omega⟩
      rw [hrun] at hok
      exact hlasts C' hQ m' (by omega) v s hok
    · have hlate := exec_mono (m := 0 + k) (by omega) hok
      rw [hrun] at hlate
      exact hlasts C' hQ 0 (Nat.zero_le _) v s hlate
  · have hlate := exec_mono (m := m + k) (by omega) hok
    rw [hrun] at hlate
    cases hlate

/-- A run does not end within a block that leads to another one. -/
theorem lasts_end {p : Point} {t : Terminator} {frame : Frame} {s : State}
    (hend : A.code.ending p.block = some t) (hlen : (A.code.body p.block).length = p.index)
    (ht : t.successors ≠ []) : A.Lasts 0 ⟨p, frame, s⟩ := by
  intro m hm v s' hok
  obtain rfl : m = 0 := Nat.le_zero.mp hm
  rw [exec_end hend hlen] at hok
  cases t with
  | ret value => exact ht rfl
  | unreachable => exact ht rfl
  | br target => cases hok
  | condBr condition yes no =>
    simp only [leaveBy] at hok
    cases hvalue : A.image.eval frame condition with
    | error e =>
      rw [hvalue] at hok
      cases hok
    | ok value =>
      rw [hvalue] at hok
      cases hok

theorem Lasts.mono {n m : Nat} {C : Config} (h : A.Lasts n C) (hm : m ≤ n) : A.Lasts m C :=
  fun k hk => h k (hk.trans hm)

end Activation
end Machine
end UnitCompiler
