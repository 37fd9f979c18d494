import UnitCompiler.Proofs.Machine.Endless

/-!
# The stack of a run

A run step by step, with the activations that wait for a call to end kept on a stack.  Each level knows
where memory ended when it was entered and which regions its slots have been given.  What a request comes
to is what these steps come to, and then the levels below it are the ones there were before.
-/

namespace UnitCompiler
namespace Machine

open Relation (ReflTransGen)

/-- A range of memory that has been handed out. -/
structure Region where
  start : Nat
  count : Nat
deriving DecidableEq

/-- The bytes of a region. -/
def Region.Covers (region : Region) (k : Nat) : Prop := region.start ≤ k ∧ k < region.start + region.count

/-- A region starts behind the end of another one. -/
def Region.Behind (region other : Region) : Prop := other.start + other.count ≤ region.start

/-- An activation on the stack: `depth` more calls may be entered from it, memory ended at `mark` when it
was entered, and its slots have been given the regions `slots`, the latest first. -/
structure Level where
  depth : Nat
  function : IrFunction
  frame : Frame
  block : Block
  rest : List Instruction
  mark : Nat
  slots : List Region := []

/-- A moment of a run: a call about to be made, an activation that runs, or a call that has ended, above
the activations that wait. -/
inductive Moment where
  | calling (r : Request) (below : List Level)
  | running (top : Level) (below : List Level) (s : State)
  | finished (result : EStateM.Result Fault State Value) (below : List Level)

/-- The regions that an operation with a given result has handed out. -/
def allotted : Operation → Value → List Region
  | .alloca slot _, .ptr a => [⟨a, max (layout.sizeOf slot) 1⟩]
  | _, _ => []

/-- The state with everything from an address on given up. -/
def State.backTo (s : State) (mark : Nat) : State := { s with memory := s.memory.truncate mark }

def resultBackTo (mark : Nat) : EStateM.Result Fault State Value → EStateM.Result Fault State Value
  | .ok v s => .ok v (s.backTo mark)
  | .error e s => .error e (s.backTo mark)

namespace Level

/-- The level behind an instruction with a given result. -/
def past (level : Level) (instruction : Instruction) (rest : List Instruction) (v : Value) : Level :=
  { level with
    frame := level.frame.keep instruction v
    rest }

/-- The level behind an instruction that it runs itself. -/
def advance (level : Level) (instruction : Instruction) (rest : List Instruction) (v : Value) : Level :=
  { level.past instruction rest v with slots := allotted instruction.operation v ++ level.slots }

/-- The level at the start of a block. -/
def into (level : Level) (b : Block) : Level := { level with block := b, rest := b.instructions }

end Level

/-- An operation that makes no call. -/
def CallsNone (i : Image) (frame : Frame) (operation : Operation) : Prop :=
  ∀ name values, ¬Calls i frame operation name values

/-- The level of a function that has been entered in a state. -/
def Entered.level (e : Entered) (mark : Nat) : Level :=
  ⟨e.depth, e.function, e.place.frame, e.place.block, e.place.rest, mark, []⟩

/-- One step of a run.  An activation may stall at any moment, as one does that goes round in blocks without
instructions. -/
inductive Step (i : Image) : Moment → Moment → Prop
  | enter {r : Request} {e : Entered} {below : List Level} (h : Admits i r e) :
    Step i (.calling r below) (.running (e.level r.state.memory.size) below r.state)
  | refuse {r : Request} {fault : Fault} {below : List Level} (h : Refuses i r fault) :
    Step i (.calling r below) (.finished (.error fault r.state) below)
  | execute {top : Level} {below : List Level} {s s' : State} {instruction : Instruction}
      {rest : List Instruction} {v : Value} (hrest : top.rest = instruction :: rest)
      (hlimit : s.steps < maxSteps) (hnone : CallsNone i top.frame instruction.operation)
      (h : perform i idle top.frame (instruction.type.getD .void) instruction.operation s.tick = .ok v s') :
    Step i (.running top below s) (.running (top.advance instruction rest v) below s')
  | call {top : Level} {below : List Level} {s : State} {instruction : Instruction}
      {rest : List Instruction} {name : String} {values : List Value} (hrest : top.rest = instruction :: rest)
      (hlimit : s.steps < maxSteps) (h : Calls i top.frame instruction.operation name values) :
    Step i (.running top below s) (.calling ⟨top.depth, name, values, s.tick⟩ (top :: below))
  | resume {level : Level} {below : List Level} {s : State} {instruction : Instruction}
      {rest : List Instruction} {v : Value} (hrest : level.rest = instruction :: rest) :
    Step i (.finished (.ok v s) (level :: below)) (.running (level.past instruction rest v) below s)
  | unwind {level : Level} {below : List Level} {s : State} {e : Fault} :
    Step i (.finished (.error e s) (level :: below)) (.finished (.error e (s.backTo level.mark)) below)
  | limit {top : Level} {below : List Level} {s : State} {instruction : Instruction}
      {rest : List Instruction} (hrest : top.rest = instruction :: rest) (hlimit : ¬s.steps < maxSteps) :
    Step i (.running top below s) (.finished (.error .stepLimit (s.tick.backTo top.mark)) below)
  | fault {top : Level} {below : List Level} {s s' : State} {instruction : Instruction}
      {rest : List Instruction} {e : Fault} (hrest : top.rest = instruction :: rest)
      (hlimit : s.steps < maxSteps) (hnone : CallsNone i top.frame instruction.operation)
      (h : perform i idle top.frame (instruction.type.getD .void) instruction.operation s.tick = .error e s') :
    Step i (.running top below s) (.finished (.error e (s'.backTo top.mark)) below)
  | jump {top : Level} {below : List Level} {s : State} {target : Nat} {b : Block} (hrest : top.rest = [])
      (h : leaveBlock i top.frame top.block = .ok (.goto target))
      (hb : top.function.block? target = some b) :
    Step i (.running top below s) (.running (top.into b) below s)
  | leave {top : Level} {below : List Level} {s : State} {v : Value} (hrest : top.rest = [])
      (h : leaveBlock i top.frame top.block = .ok (.leave v)) :
    Step i (.running top below s) (.finished (.ok v (s.backTo top.mark)) below)
  | blocked {top : Level} {below : List Level} {s : State} {e : Fault} (hrest : top.rest = [])
      (h : leaveBlock i top.frame top.block = .error e) :
    Step i (.running top below s) (.finished (.error e (s.backTo top.mark)) below)
  | lost {top : Level} {below : List Level} {s : State} {target : Nat} (hrest : top.rest = [])
      (h : leaveBlock i top.frame top.block = .ok (.goto target)) (hb : top.function.block? target = none) :
    Step i (.running top below s) (.finished (.error (.missingBlock target) (s.backTo top.mark)) below)
  | stall {top : Level} {below : List Level} {s : State} :
    Step i (.running top below s) (.finished (.error .stalled (s.backTo top.mark)) below)

abbrev Steps (i : Image) : Moment → Moment → Prop := ReflTransGen (Step i)

section Adequacy

variable {i : Image}

theorem restoringStack_eq (act : RunM Value) (s : State) :
    restoringStack act s = resultBackTo s.memory.size (act s) := by
  rw [restoringStack]
  cases act s <;> rfl

/-- An operation calls, or does the same whoever is called. -/
theorem calls_or_callsNone (frame : Frame) (operation : Operation) :
    (∃ name values, Calls i frame operation name values) ∨ CallsNone i frame operation ∧
      ∀ (caller : Caller) (type : IrType) (s : State),
        perform i caller frame type operation s = perform i idle frame type operation s := by
  by_cases hcalls : ∃ name values, Calls i frame operation name values
  · exact Or.inl hcalls
  · refine Or.inr ⟨fun name values h => hcalls ⟨name, values, h⟩, fun caller type s => ?_⟩
    cases operation with
    | call callee args convention isTail =>
      have hargs (name : String)
          (hname : ∀ values, args.mapM (i.eval frame) = .ok values →
            ∃ name values, Calls i frame (.call callee args convention isTail) name values) :
          ((do
            let values ← args.mapM fun arg => liftFault (i.eval frame arg)
            caller name values) : RunM Value) s = (do
              let values ← args.mapM fun arg => liftFault (i.eval frame arg)
              idle name values) s := by
        rw [bind_apply, bind_apply, mapM_liftFault]
        cases hvalues : args.mapM (i.eval frame) with
        | error fault => rfl
        | ok values => exact absurd (hname values hvalues) hcalls
      by_cases hdirect : ∃ name, callee = .function name
      · obtain ⟨name, rfl⟩ := hdirect
        exact hargs name fun values h => ⟨name, values, .direct h⟩
      · have hcallee : ∀ g, callee ≠ .function g := fun g hg => hdirect ⟨g, hg⟩
        rw [perform_indirect hcallee, perform_indirect hcallee]
        cases haddress : i.evalPtr frame callee with
        | error fault => rfl
        | ok address =>
          cases hname : i.functionAt address with
          | error fault =>
            simp only [hname, liftFault, pure_bind]
            rfl
          | ok name =>
            simp only [hname, liftFault_ok, pure_bind]
            exact hargs name fun values h => ⟨name, values, .indirect hcallee haddress hname h⟩
    | convert op value target => cases op <;> rfl
    | _ => rfl

theorem allotted_of_calls {frame : Frame} {operation : Operation} {name : String} {values : List Value}
    (h : Calls i frame operation name values) (v : Value) : allotted operation v = [] := by
  cases h <;> rfl

/-- The level of an activation that stands at a place. -/
def Place.level (place : Place) (depth : Nat) (f : IrFunction) (mark : Nat) (slots : List Region) : Level :=
  ⟨depth, f, place.frame, place.block, place.rest, mark, slots⟩

/-- All calls with so many more below them are steps. -/
def CallsAreSteps (i : Image) (depth : Nat) : Prop :=
  ∀ name values s below, Steps i (.calling ⟨depth, name, values, s⟩ below)
    (.finished (Request.run i ⟨depth, name, values, s⟩) below)

/-- An instruction is a step, or the steps of the call that it makes. -/
theorem steps_of_instruction {top : Level} (hcalls : CallsAreSteps i top.depth) {instruction : Instruction}
    {rest : List Instruction} (hrest : top.rest = instruction :: rest) (below : List Level) (s : State) :
    match stepInstruction i (callFunction i top.depth) top.frame instruction s with
    | .ok frame s' => ∃ v, frame = top.frame.keep instruction v ∧
        Steps i (.running top below s) (.running (top.advance instruction rest v) below s')
    | .error e s' => Steps i (.running top below s) (.finished (.error e (s'.backTo top.mark)) below) := by
  by_cases hlimit : s.steps < maxSteps
  · have hstep : stepInstruction i (callFunction i top.depth) top.frame instruction s =
        match perform i (callFunction i top.depth) top.frame (instruction.type.getD .void)
            instruction.operation s.tick with
        | .ok v s' => .ok (top.frame.keep instruction v) s'
        | .error e s' => .error e s' := by
      rw [stepInstruction_eq, if_neg (by omega)]
      rfl
    rw [hstep]
    obtain ⟨name, values, hcall⟩ | ⟨hnone, hidle⟩ :=
      calls_or_callsNone (i := i) top.frame instruction.operation
    · rw [perform_of_calls hcall]
      have hrun := (hcalls name values s.tick (top :: below)).head (.call hrest hlimit hcall)
      unfold Request.run at hrun
      cases hresult : callFunction i top.depth name values s.tick with
      | ok v s' =>
        rw [hresult] at hrun
        have hpast : top.advance instruction rest v = top.past instruction rest v := by
          rw [Level.advance, allotted_of_calls hcall]
          rfl
        exact ⟨v, rfl, hpast ▸ hrun.tail (.resume hrest)⟩
      | error e s' =>
        rw [hresult] at hrun
        exact hrun.tail .unwind
    · rw [hidle]
      cases hresult : perform i idle top.frame (instruction.type.getD .void) instruction.operation s.tick with
      | ok v s' => exact ⟨v, rfl, .single (.execute hrest hlimit hnone hresult)⟩
      | error e s' => exact .single (.fault hrest hlimit hnone hresult)
  · rw [stepInstruction_eq, if_pos (by omega)]
    exact .single (.limit hrest hlimit)

variable {depth : Nat} {f : IrFunction} {place place' : Place}

theorem steps_of_moves (hcalls : CallsAreSteps i depth) (h : Moves i (callFunction i depth) f place place')
    (mark : Nat) (slots : List Region) (below : List Level) :
    ∃ slots', Steps i (.running (place.level depth f mark slots) below place.state)
      (.running (place'.level depth f mark slots') below place'.state) := by
  cases h with
  | @step frame frame' b instruction rest s s' h =>
    let top : Level := ⟨depth, f, frame, b, instruction :: rest, mark, slots⟩
    have hcalls : CallsAreSteps i top.depth := hcalls
    have hsteps := steps_of_instruction hcalls rfl below s
    dsimp only [top] at hsteps
    rw [h] at hsteps
    obtain ⟨v, rfl, hsteps⟩ := hsteps
    exact ⟨allotted instruction.operation v ++ slots, hsteps⟩
  | jump h hb => exact ⟨slots, .single (.jump rfl h hb)⟩

theorem steps_of_reaches (hcalls : CallsAreSteps i depth)
    (h : Reaches i (callFunction i depth) f place place') (mark : Nat) (slots : List Region)
    (below : List Level) :
    ∃ slots', Steps i (.running (place.level depth f mark slots) below place.state)
      (.running (place'.level depth f mark slots') below place'.state) := by
  induction h with
  | refl => exact ⟨slots, .refl⟩
  | tail _ hmove ih =>
    obtain ⟨slots₁, hsteps⟩ := ih
    obtain ⟨slots₂, hsteps'⟩ := steps_of_moves hcalls hmove mark slots₁ below
    exact ⟨slots₂, hsteps.trans hsteps'⟩

theorem steps_of_ends (hcalls : CallsAreSteps i depth) {result : EStateM.Result Fault State Value}
    (h : Ends i (callFunction i depth) f place result) (mark : Nat) (slots : List Region)
    (below : List Level) : Steps i (.running (place.level depth f mark slots) below place.state)
      (.finished (resultBackTo mark result) below) := by
  cases h with
  | leave h => exact .single (.leave rfl h)
  | blocked h => exact .single (.blocked rfl h)
  | lost h hb => exact .single (.lost rfl h hb)
  | stalled => exact .single .stall
  | @fault frame b instruction rest s s' e h =>
    let top : Level := ⟨depth, f, frame, b, instruction :: rest, mark, slots⟩
    have hcalls : CallsAreSteps i top.depth := hcalls
    have hsteps := steps_of_instruction hcalls rfl below s
    dsimp only [top] at hsteps
    rw [h] at hsteps
    exact hsteps

/-- A call leads, step by step, to what it comes to, with the levels below it as they were.  The induction
is on the depth of calls. -/
theorem callsAreSteps (i : Image) (depth : Nat) : CallsAreSteps i depth := by
  induction depth with
  | zero =>
    intro name values s below
    obtain ⟨fault, hrefuses, hrun⟩ | ⟨e, hadmits, -⟩ := Request.run_cases (i := i) ⟨0, name, values, s⟩
    · rw [hrun]
      exact .single (.refuse hrefuses)
    · cases hadmits.depth
  | succ depth ih =>
    intro name values s below
    obtain ⟨fault, hrefuses, hrun⟩ | ⟨e, hadmits, hrun⟩ :=
      Request.run_cases (i := i) ⟨depth + 1, name, values, s⟩
    · rw [hrun]
      exact .single (.refuse hrefuses)
    · obtain rfl : e.depth = depth := by simpa using hadmits.depth.symm
      obtain ⟨place, hreaches, hends⟩ := hadmits.ends (blockBudget e.function)
      obtain ⟨b, -, hplace⟩ := hadmits.place
      have hstate : e.place.state = s := by
        rw [hplace]
        rfl
      obtain ⟨slots, hsteps⟩ := steps_of_reaches ih hreaches s.memory.size [] below
      rw [hstate] at hsteps
      rw [hrun, restoringStack_eq]
      exact (hsteps.trans (steps_of_ends ih hends s.memory.size slots below)).head (.enter hadmits)

theorem steps_run (r : Request) (below : List Level) :
    Steps i (.calling r below) (.finished (r.run i) below) :=
  callsAreSteps i r.depth r.name r.args r.state below

end Adequacy

end Machine
end UnitCompiler
