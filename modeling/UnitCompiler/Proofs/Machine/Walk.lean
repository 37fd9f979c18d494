import Mathlib.Logic.Relation
import UnitCompiler.Proofs.Ir.Verification
import UnitCompiler.Proofs.Machine.Budget

/-!
# The walk of a run

A call enters activations, one for itself and one for every call below it that is let in; an activation
moves from place to place.  Every fault of a call is the call's refusal or is raised at a place that some
activation reaches, and an activation that returns leaves from a place that it reaches.
-/

namespace UnitCompiler
namespace Machine

open Relation (ReflTransGen)

/-- Where an activation stands: in a block, with the instructions that are left of it. -/
structure Place where
  frame : Frame
  block : Block
  rest : List Instruction
  state : State

/-- The start of a block. -/
def Place.start (frame : Frame) (b : Block) (s : State) : Place := ⟨frame, b, b.instructions, s⟩

def State.tick (s : State) : State := { s with steps := s.steps + 1 }

section Activation

variable (i : Image) (caller : Caller) (f : IrFunction)

/-- One move of an activation: over an instruction or into the next block. -/
inductive Moves : Place → Place → Prop
  | step {frame frame' : Frame} {b : Block} {instruction : Instruction} {rest : List Instruction}
      {s s' : State} (h : stepInstruction i caller frame instruction s = .ok frame' s') :
      Moves ⟨frame, b, instruction :: rest, s⟩ ⟨frame', b, rest, s'⟩
  | jump {frame : Frame} {b b' : Block} {target : Nat} {s : State}
      (h : leaveBlock i frame b = .ok (.goto target)) (hb : f.block? target = some b') :
      Moves ⟨frame, b, [], s⟩ (.start frame b' s)

/-- How an activation ends at a place. -/
inductive Ends : Place → EStateM.Result Fault State Value → Prop
  | leave {frame : Frame} {b : Block} {s : State} {value : Value}
      (h : leaveBlock i frame b = .ok (.leave value)) : Ends ⟨frame, b, [], s⟩ (.ok value s)
  | fault {frame : Frame} {b : Block} {instruction : Instruction} {rest : List Instruction}
      {s s' : State} {e : Fault} (h : stepInstruction i caller frame instruction s = .error e s') :
      Ends ⟨frame, b, instruction :: rest, s⟩ (.error e s')
  | blocked {frame : Frame} {b : Block} {s : State} {e : Fault}
      (h : leaveBlock i frame b = .error e) : Ends ⟨frame, b, [], s⟩ (.error e s)
  | lost {frame : Frame} {b : Block} {s : State} {target : Nat}
      (h : leaveBlock i frame b = .ok (.goto target)) (hb : f.block? target = none) :
      Ends ⟨frame, b, [], s⟩ (.error (.missingBlock target) s)
  | stalled (place : Place) : Ends place (.error .stalled place.state)

/-- A place that an activation reaches. -/
abbrev Reaches : Place → Place → Prop := ReflTransGen (Moves i caller f)

variable {i caller f}

/-- The instructions of a block lead to its end, or one of them faults. -/
theorem walks_instructions (b : Block) (rest : List Instruction) (frame : Frame) (s : State) :
    (∃ frame' s', rest.foldlM (stepInstruction i caller) frame s = .ok frame' s' ∧
        Reaches i caller f ⟨frame, b, rest, s⟩ ⟨frame', b, [], s'⟩) ∨
      ∃ e s' place, rest.foldlM (stepInstruction i caller) frame s = .error e s' ∧
        Reaches i caller f ⟨frame, b, rest, s⟩ place ∧ Ends i caller f place (.error e s') := by
  induction rest generalizing frame s with
  | nil => exact .inl ⟨frame, s, rfl, .refl⟩
  | cons instruction rest ih =>
    rw [List.foldlM_cons, bind_apply]
    cases hstep : stepInstruction i caller frame instruction s with
    | error e s' => exact .inr ⟨e, s', _, rfl, .refl, .fault hstep⟩
    | ok frame' s' =>
      obtain ⟨frame'', s'', hrun, hwalk⟩ | ⟨e, s'', place, hrun, hwalk, hend⟩ := ih frame' s'
      · exact .inl ⟨frame'', s'', hrun, hwalk.head (.step hstep)⟩
      · exact .inr ⟨e, s'', place, hrun, hwalk.head (.step hstep), hend⟩

theorem runBlock_of_foldlM_ok {b : Block} {current : Nat} {frame frame' : Frame} {s s' : State}
    (hb : f.block? current = some b)
    (hrun : b.instructions.foldlM (stepInstruction i caller) frame s = .ok frame' s') :
    runBlock i caller f current frame s =
      match leaveBlock i frame' b with
      | .ok exit => .ok (frame', exit) s'
      | .error e => .error e s' := by
  unfold runBlock
  rw [hb]
  change (b.instructions.foldlM (stepInstruction i caller) frame >>= fun frame =>
    liftFault (leaveBlock i frame b) >>= fun exit => pure (frame, exit) : RunM _) s = _
  rw [bind_apply, hrun]
  change (liftFault (leaveBlock i frame' b) >>= fun exit => pure (frame', exit) : RunM _) s' = _
  cases leaveBlock i frame' b <;> rfl

theorem runBlock_of_foldlM_error {b : Block} {current : Nat} {frame : Frame} {s s' : State} {e : Fault}
    (hb : f.block? current = some b)
    (hrun : b.instructions.foldlM (stepInstruction i caller) frame s = .error e s') :
    runBlock i caller f current frame s = .error e s' := by
  unfold runBlock
  rw [hb]
  change (b.instructions.foldlM (stepInstruction i caller) frame >>= fun frame =>
    liftFault (leaveBlock i frame b) >>= fun exit => pure (frame, exit) : RunM _) s = _
  rw [bind_apply, hrun]

/-- However an activation ends, it ends at a place that it reaches.  The induction is on the blocks it may
still enter. -/
theorem runBlocks_walks {n current : Nat} {b : Block} (hb : f.block? current = some b) (frame : Frame)
    (s : State) : ∃ place, Reaches i caller f (.start frame b s) place ∧
      Ends i caller f place (runBlocks i caller f n current frame s) := by
  induction n generalizing current b frame s with
  | zero => exact ⟨_, .refl, .stalled _⟩
  | succ n ih =>
    rw [runBlocks_succ]
    obtain ⟨frame', s', hrun, hwalk⟩ | ⟨e, s', place, hrun, hwalk, hend⟩ :=
      walks_instructions (f := f) b b.instructions frame s
    · rw [runBlock_of_foldlM_ok hb hrun]
      cases hexit : leaveBlock i frame' b with
      | error e => exact ⟨_, hwalk, .blocked hexit⟩
      | ok exit =>
        cases exit with
        | leave value => exact ⟨_, hwalk, .leave hexit⟩
        | goto target =>
          change ∃ place, _ ∧ Ends i caller f place (runBlocks i caller f n target frame' s')
          cases htarget : f.block? target with
          | none =>
            cases n with
            | zero => exact ⟨_, hwalk, .stalled _⟩
            | succ n =>
              refine ⟨_, hwalk, ?_⟩
              rw [runBlocks, htarget]
              exact .lost hexit htarget
          | some b' =>
            obtain ⟨place, hwalk', hend⟩ := ih htarget frame' s'
            exact ⟨place, (hwalk.tail (.jump hexit htarget)).trans hwalk', hend⟩
    · rw [runBlock_of_foldlM_error hb hrun]
      exact ⟨place, hwalk, hend⟩

end Activation

/-! ### Calls -/

/-- The call that an operation makes: whom it calls, and with what values. -/
inductive Calls (i : Image) (frame : Frame) : Operation → String → List Value → Prop
  | direct {name : String} {args : List Operand} {values : List Value}
      {convention : CallingConvention} {isTail : Bool} (h : args.mapM (i.eval frame) = .ok values) :
      Calls i frame (.call (.function name) args convention isTail) name values
  | indirect {callee : Operand} {address : Nat} {name : String} {args : List Operand}
      {values : List Value} {convention : CallingConvention} {isTail : Bool}
      (hcallee : ∀ g, callee ≠ .function g) (haddress : i.evalPtr frame callee = .ok address)
      (hname : i.functionAt address = .ok name) (h : args.mapM (i.eval frame) = .ok values) :
      Calls i frame (.call callee args convention isTail) name values

/-- A callee that returns at once. -/
def idle : Caller := fun _ _ => pure .void

section Perform

variable {i : Image} {frame : Frame}

theorem liftFault_ok {α : Type} (a : α) : liftFault (.ok a) = pure a := rfl

theorem mapM_liftFault (eval : Operand → Except Fault Value) (args : List Operand) (s : State) :
    args.mapM (fun arg => liftFault (eval arg)) s = liftFault (args.mapM eval) s := by
  induction args with
  | nil => rfl
  | cons arg rest ih =>
    rw [List.mapM_cons, List.mapM_cons]
    cases eval arg with
    | error e => rfl
    | ok value =>
      change ((rest.mapM fun arg => liftFault (eval arg)) >>= fun values =>
        pure (value :: values) : RunM (List Value)) s = _
      rw [bind_apply, ih]
      cases rest.mapM eval <;> rfl

/-- A call whose callee is no name reads the address of the callee first. -/
theorem perform_indirect {caller : Caller} {callee : Operand} (hcallee : ∀ g, callee ≠ .function g)
    (type : IrType) (args : List Operand) (convention : CallingConvention) (isTail : Bool) :
    perform i caller frame type (.call callee args convention isTail) = (do
      let name ← do
        let at_ ← liftFault (i.evalPtr frame callee)
        liftFault (i.functionAt at_)
      let values ← args.mapM fun arg => liftFault (i.eval frame arg)
      caller name values) := by
  cases callee with
  | function name => exact absurd rfl (hcallee name)
  | register _ | constant _ | global _ _ | argument _ | undef _ | null _ => rfl

/-- A fault of an operation is the callee's, or it is there whomever the operation calls. -/
theorem perform_error {caller : Caller} {type : IrType} {operation : Operation} {s s' : State}
    {e : Fault} (h : perform i caller frame type operation s = .error e s') :
    (∃ name values, Calls i frame operation name values ∧ caller name values s = .error e s') ∨
      perform i idle frame type operation s = .error e s' := by
  cases operation with
  | call callee args convention isTail =>
    have hcall : ∀ name, (do
        let values ← args.mapM fun arg => liftFault (i.eval frame arg)
        caller name values) s = .error e s' → (∃ values, args.mapM (i.eval frame) = .ok values ∧
          caller name values s = .error e s') ∨ (do
        let values ← args.mapM fun arg => liftFault (i.eval frame arg)
        idle name values) s = .error e s' := by
      intro name h
      rw [bind_apply, mapM_liftFault] at h ⊢
      cases hvalues : args.mapM (i.eval frame) with
      | error fault =>
        rw [hvalues] at h
        exact .inr h
      | ok values =>
        rw [hvalues] at h
        exact .inl ⟨values, rfl, h⟩
    by_cases hdirect : ∃ name, callee = .function name
    · obtain ⟨name, rfl⟩ := hdirect
      obtain ⟨values, hvalues, hfault⟩ | hidle := hcall name h
      · exact .inl ⟨name, values, .direct hvalues, hfault⟩
      · exact .inr hidle
    · have hcallee : ∀ g, callee ≠ .function g := fun g hg => hdirect ⟨g, hg⟩
      rw [perform_indirect hcallee] at h ⊢
      cases haddress : i.evalPtr frame callee with
      | error fault =>
        rw [haddress] at h
        exact .inr h
      | ok address =>
        cases hname : i.functionAt address with
        | error fault =>
          simp only [haddress, hname, liftFault, pure_bind] at h ⊢
          exact .inr h
        | ok name =>
          simp only [haddress, hname, liftFault_ok, pure_bind] at h ⊢
          obtain ⟨values, hvalues, hfault⟩ | hidle := hcall name h
          · exact .inl ⟨name, values, .indirect hcallee haddress hname hvalues, hfault⟩
          · exact .inr hidle
  | convert op value target => cases op <;> exact .inr h
  | _ => exact .inr h

end Perform

/-- What a caller asks of the machine. -/
structure Request where
  depth : Nat
  name : String
  args : List Value
  state : State

/-- What comes of a request. -/
def Request.run (i : Image) (r : Request) : EStateM.Result Fault State Value :=
  callFunction i r.depth r.name r.args r.state

/-- A function that has been entered: `depth` more calls may be entered from it. -/
structure Entered where
  depth : Nat
  function : IrFunction
  place : Place

/-- Why a request is turned away before any block of the function runs. -/
inductive Refuses (i : Image) (r : Request) : Fault → Prop
  | missing (h : i.program.function? r.name = none) : Refuses i r (.missingFunction r.name)
  | external {f : IrFunction} (h : i.program.function? r.name = some f) (hf : f.isDeclaration) :
      Refuses i r (.externalFunction r.name)
  | count {f : IrFunction} (h : i.program.function? r.name = some f)
      (hargs : f.signature.accepts r.args.length = false) :
      Refuses i r (.argumentCount r.name f.signature.params.length r.args.length)
  | deep (h : r.depth = 0) : Refuses i r (.callDepth r.name)

/-- A request that is let in enters the entry block of its function. -/
structure Admits (i : Image) (r : Request) (e : Entered) : Prop where
  depth : r.depth = e.depth + 1
  function : i.program.function? r.name = some e.function
  accepts : e.function.signature.accepts r.args.length
  place : ∃ b, e.function.blocks.head? = some b ∧
    e.place = .start { signature := e.function.signature, args := r.args } b r.state

/-- The functions entered in the course of a request: its own, and those that the calls made at the
places of an entered function enter. -/
inductive Enters (i : Image) : Request → Entered → Prop
  | own {r : Request} {e : Entered} (h : Admits i r e) : Enters i r e
  | nested {r : Request} {e e' : Entered} {frame : Frame} {b : Block} {instruction : Instruction}
      {rest : List Instruction} {s : State} {name : String} {values : List Value} (h : Enters i r e)
      (hwalk : Reaches i (callFunction i e.depth) e.function e.place ⟨frame, b, instruction :: rest, s⟩)
      (hcall : Calls i frame instruction.operation name values)
      (h' : Enters i ⟨e.depth, name, values, s.tick⟩ e') : Enters i r e'

/-- A fault that an entered function raises at a place itself, not through a call that was let in. -/
inductive Raises (i : Image) (e : Entered) : Place → Fault → Prop
  | limit (frame : Frame) (b : Block) (instruction : Instruction) (rest : List Instruction) (s : State) :
      Raises i e ⟨frame, b, instruction :: rest, s⟩ .stepLimit
  | operation {frame : Frame} {b : Block} {instruction : Instruction} {rest : List Instruction}
      {s s' : State} {fault : Fault}
      (h : perform i idle frame (instruction.type.getD .void) instruction.operation s.tick =
        .error fault s') : Raises i e ⟨frame, b, instruction :: rest, s⟩ fault
  | refused {frame : Frame} {b : Block} {instruction : Instruction} {rest : List Instruction}
      {s : State} {name : String} {values : List Value} {fault : Fault}
      (hcall : Calls i frame instruction.operation name values)
      (h : Refuses i ⟨e.depth, name, values, s.tick⟩ fault) :
      Raises i e ⟨frame, b, instruction :: rest, s⟩ fault
  | blocked {frame : Frame} {b : Block} {s : State} {fault : Fault}
      (h : leaveBlock i frame b = .error fault) : Raises i e ⟨frame, b, [], s⟩ fault
  | lost {frame : Frame} {b : Block} {s : State} {target : Nat}
      (h : leaveBlock i frame b = .ok (.goto target)) (hb : e.function.block? target = none) :
      Raises i e ⟨frame, b, [], s⟩ (.missingBlock target)
  | stalled (place : Place) : Raises i e place .stalled

section Requests

variable {i : Image}

/-- An instruction faults for want of steps, or its operation does. -/
theorem fault_of_stepInstruction {caller : Caller} {frame : Frame} {instruction : Instruction}
    {s s' : State} {fault : Fault} (h : stepInstruction i caller frame instruction s = .error fault s') :
    fault = .stepLimit ∨ ∃ s'', perform i caller frame (instruction.type.getD .void)
      instruction.operation s.tick = .error fault s'' := by
  rw [stepInstruction_eq] at h
  split_ifs at h with hlimit
  · cases h
    exact .inl rfl
  · cases hperform : perform i caller frame (instruction.type.getD .void) instruction.operation
        { s with steps := s.steps + 1 } with
    | ok value s'' =>
      rw [hperform] at h
      cases h
    | error e s'' =>
      rw [hperform] at h
      cases h
      exact .inr ⟨s', hperform⟩

theorem refused_count_iff (s : FunctionSignature) (n : Nat) :
    (n < s.params.length || (s.params.length < n && !s.isVariadic)) = !s.accepts n := by
  unfold FunctionSignature.accepts
  cases s.isVariadic
  · rw [if_neg Bool.false_ne_true, Bool.eq_iff_iff]
    simp
  · rw [if_pos rfl, Bool.eq_iff_iff]
    simp

theorem block?_of_head? {f : IrFunction} {b : Block} (h : f.blocks.head? = some b) :
    f.block? b.id = some b := by
  obtain ⟨rest, hblocks⟩ := List.head?_eq_some_iff.mp h
  simp [IrFunction.block?, hblocks]

theorem of_restoringStack_ok {α : Type} {act : RunM α} {s s' : State} {a : α}
    (h : restoringStack act s = .ok a s') : ∃ s'', act s = .ok a s'' := by
  rw [restoringStack] at h
  cases hact : act s with
  | ok b s'' =>
    rw [hact] at h
    cases h
    exact ⟨s'', rfl⟩
  | error e s'' =>
    rw [hact] at h
    cases h

theorem of_restoringStack_error {α : Type} {act : RunM α} {s s' : State} {e : Fault}
    (h : restoringStack act s = .error e s') : ∃ s'', act s = .error e s'' := by
  rw [restoringStack] at h
  cases hact : act s with
  | ok b s'' =>
    rw [hact] at h
    cases h
  | error e s'' =>
    rw [hact] at h
    cases h
    exact ⟨s'', rfl⟩

theorem restoringStack_error {α : Type} {act : RunM α} {s s' : State} {e : Fault}
    (h : act s = .error e s') : ∃ s'', restoringStack act s = .error e s'' := by
  rw [restoringStack, h]
  exact ⟨_, rfl⟩

/-- A request is refused, or it runs the function it enters. -/
theorem Request.run_cases (r : Request) :
    (∃ fault, Refuses i r fault ∧ r.run i = .error fault r.state) ∨
      ∃ e, Admits i r e ∧ r.run i = restoringStack (runBlocks i (callFunction i e.depth) e.function
        (blockBudget e.function) e.place.block.id e.place.frame) r.state := by
  obtain ⟨depth, name, args, s⟩ := r
  unfold Request.run
  rw [callFunction.eq_def]
  dsimp only
  cases hf : i.program.function? name with
  | none => exact .inl ⟨_, .missing hf, rfl⟩
  | some f =>
    simp only [refused_count_iff]
    by_cases hdecl : f.isDeclaration
    · rw [if_pos hdecl]
      exact .inl ⟨_, .external hf hdecl, rfl⟩
    · rw [if_neg hdecl]
      by_cases hargs : f.signature.accepts args.length
      · rw [if_neg (by simp [hargs])]
        cases depth with
        | zero => exact .inl ⟨_, .deep rfl, rfl⟩
        | succ d =>
          cases hentry : f.blocks.head? with
          | none =>
            have : f.isDeclaration = true := by
              simpa [IrFunction.isDeclaration] using List.head?_eq_none_iff.mp hentry
            exact absurd this hdecl
          | some b =>
            exact .inr ⟨⟨d, f, .start { signature := f.signature, args := args } b s⟩,
              ⟨rfl, hf, hargs, b, hentry, rfl⟩, rfl⟩
      · rw [if_pos (by simpa using hargs)]
        exact .inl ⟨_, .count hf (by simpa using hargs), rfl⟩

/-- An entered function ends at a place that it reaches. -/
theorem Admits.ends {r : Request} {e : Entered} (h : Admits i r e) (n : Nat) :
    ∃ place, Reaches i (callFunction i e.depth) e.function e.place place ∧
      Ends i (callFunction i e.depth) e.function place
        (runBlocks i (callFunction i e.depth) e.function n e.place.block.id e.place.frame r.state) := by
  obtain ⟨b, hentry, hplace⟩ := h.place
  rw [hplace]
  exact runBlocks_walks (block?_of_head? hentry) _ r.state

theorem Admits.unique {r : Request} {e e' : Entered} (h : Admits i r e) (h' : Admits i r e') : e = e' := by
  obtain ⟨d, f, place⟩ := e
  obtain ⟨d', f', place'⟩ := e'
  obtain rfl : d = d' := by simpa [h'.depth] using h.depth.symm
  obtain rfl : f = f' := Option.some.inj (h.function.symm.trans h'.function)
  obtain ⟨b, hentry, hplace⟩ := h.place
  obtain ⟨b', hentry', hplace'⟩ := h'.place
  obtain rfl : b = b' := Option.some.inj (hentry.symm.trans hentry')
  rw [show place = place' from hplace.trans hplace'.symm]

theorem Admits.not_refuses {r : Request} {e : Entered} (h : Admits i r e) {fault : Fault} :
    ¬ Refuses i r fault := by
  intro hrefuse
  obtain ⟨b, hentry, -⟩ := h.place
  cases hrefuse with
  | missing hf =>
    rw [h.function] at hf
    cases hf
  | external hf hdecl =>
    obtain rfl := Option.some.inj (h.function.symm.trans hf)
    rw [List.isEmpty_iff.mp hdecl] at hentry
    cases hentry
  | count hf hargs =>
    obtain rfl := Option.some.inj (h.function.symm.trans hf)
    rw [h.accepts] at hargs
    cases hargs
  | deep hdepth =>
    rw [h.depth] at hdepth
    cases hdepth

/-- A request that is let in runs the blocks of its function. -/
theorem Admits.run_eq {r : Request} {e : Entered} (h : Admits i r e) : r.run i =
    restoringStack (runBlocks i (callFunction i e.depth) e.function (blockBudget e.function)
      e.place.block.id e.place.frame) r.state := by
  obtain ⟨fault, hrefuse, -⟩ | ⟨e', h', hrun⟩ := r.run_cases
  · exact absurd hrefuse h.not_refuses
  · obtain rfl := h.unique h'
    exact hrun

/-- A function whose request comes to a value leaves with that value from a place that it reaches. -/
theorem Admits.leaves_of_ok {r : Request} {e : Entered} (hadmits : Admits i r e) {value : Value} {s : State}
    (h : r.run i = .ok value s) : ∃ frame b s',
      Reaches i (callFunction i e.depth) e.function e.place ⟨frame, b, [], s'⟩ ∧
      leaveBlock i frame b = .ok (.leave value) := by
  obtain ⟨place, hwalk, hend⟩ := hadmits.ends (blockBudget e.function)
  rw [hadmits.run_eq] at h
  obtain ⟨s', hblocks⟩ := of_restoringStack_ok h
  rw [hblocks] at hend
  cases hend with
  | leave hleave => exact ⟨_, _, _, hwalk, hleave⟩

/-- A request that comes to a fault is refused, or an entered function raises the fault at a place that it
reaches.  The induction is on the depth of calls. -/
theorem Request.raised_of_error {r : Request} {fault : Fault} {s : State}
    (h : r.run i = .error fault s) :
    Refuses i r fault ∨ ∃ e place, Enters i r e ∧
      Reaches i (callFunction i e.depth) e.function e.place place ∧ Raises i e place fault := by
  obtain ⟨depth, name, args, start⟩ := r
  induction depth generalizing name args start s with
  | zero =>
    obtain ⟨fault', hrefuse, hrun⟩ | ⟨e, hadmits, hrun⟩ := Request.run_cases (i := i) ⟨0, name, args, start⟩
    · rw [hrun] at h
      cases h
      exact .inl hrefuse
    · cases hadmits.depth
  | succ depth ih =>
    obtain ⟨fault', hrefuse, hrun⟩ | ⟨e, hadmits, hrun⟩ :=
      Request.run_cases (i := i) ⟨depth + 1, name, args, start⟩
    · rw [hrun] at h
      cases h
      exact .inl hrefuse
    · right
      obtain rfl : e.depth = depth := by simpa using hadmits.depth.symm
      obtain ⟨place, hwalk, hend⟩ := hadmits.ends (blockBudget e.function)
      rw [hrun] at h
      obtain ⟨s', hblocks⟩ := of_restoringStack_error h
      rw [hblocks] at hend
      cases hend with
      | blocked hleave => exact ⟨e, _, .own hadmits, hwalk, .blocked hleave⟩
      | lost hleave hb => exact ⟨e, _, .own hadmits, hwalk, .lost hleave hb⟩
      | stalled => exact ⟨e, _, .own hadmits, hwalk, .stalled _⟩
      | @fault frame b instruction rest s₁ s₂ _ hstep =>
        obtain rfl | ⟨s₃, hperform⟩ := fault_of_stepInstruction hstep
        · exact ⟨e, _, .own hadmits, hwalk, .limit ..⟩
        · obtain ⟨name', values, hcall, hfault⟩ | hidle := perform_error hperform
          · obtain hrefuse | ⟨e', place', henters, hwalk', hraises⟩ := ih name' values s₁.tick hfault
            · exact ⟨e, _, .own hadmits, hwalk, .refused hcall hrefuse⟩
            · exact ⟨e', place', .nested (.own hadmits) hwalk hcall henters, hwalk', hraises⟩
          · exact ⟨e, _, .own hadmits, hwalk, .operation hidle⟩

end Requests

end Machine
end UnitCompiler
