import UnitCompiler.Proofs.Machine.Faults

/-!
# Runs of verified programs

What verification checks block by block holds at every place of every function entered in a run.  So a run
of a verified program never loses its way: it finds its blocks, their ends and its arguments, and its direct
calls pass what the callee takes.
-/

namespace UnitCompiler
namespace Machine

open Relation (ReflTransGen)

/-- The faults of a run that lost its way through the blocks or the arguments of a function. -/
def Fault.isStructural : Fault → Bool
  | .missingBlock _ | .notTerminated _ | .noBlocks _ | .missingArgument _ => true
  | _ => false

/-- The faults that an operation on values, registers and memory may have. -/
def Fault.isOperational (e : Fault) : Bool := !e.isStructural && !(e matches .argumentCount ..)

/-! ### Operations on the frame of a verified function -/

/-- The frame holds an argument and a type for every parameter of a signature. -/
structure Frame.Carries (frame : Frame) (s : FunctionSignature) : Prop where
  signature : frame.signature = s
  args : s.params.length ≤ frame.args.length

section Operations

variable {i : Image} {frame : Frame} {s : FunctionSignature}

theorem Fault.isOperational_of_isPlain {e : Fault} (h : e.isPlain) : e.isOperational := by
  cases e <;> first | rfl | cases h

/-- Where the arguments of a signature are there, only a register can be missing. -/
theorem Frame.Carries.isOperational (hframe : frame.Carries s) {operands : List Operand}
    (hcovers : s.Covers operands) {e : Fault} (h : frame.Explains operands e) : e.isOperational := by
  obtain hplain | ⟨operand, hmem, hlacks⟩ := h
  · exact Fault.isOperational_of_isPlain hplain
  · cases hlacks with
    | unset _ | untyped _ => rfl
    | @unpassed index h =>
      have hindex := (hcovers index hmem).trans_le hframe.args
      rw [List.getElem?_eq_getElem hindex] at h
      cases h
    | @undeclared index h =>
      have hindex := hcovers index hmem
      rw [← hframe.signature] at hindex
      rw [List.getElem?_eq_getElem hindex] at h
      cases h

/-- An operation whose operands are there has only the faults of operations, as long as the function it
calls has no fault. -/
theorem operational_perform (hframe : frame.Carries s) {operation : Operation}
    (hcovers : s.Covers operation.operands) (type : IrType) :
    OnlyIn (·.isOperational) (perform i idle frame type operation) := by
  refine (explains_perform operation type).imp fun e => ?_
  rintro (h | ⟨rfl, -⟩ | ⟨rfl, -⟩)
  · exact hframe.isOperational hcovers h
  · rfl
  · rfl

theorem operational_leaveBlock (hframe : frame.Carries s) {b : Block} {t : Terminator}
    (hterm : b.terminator = some t) (hcovers : s.Covers t.operands) :
    Only (·.isOperational) (leaveBlock i frame b) :=
  (explains_leaveBlock hterm).imp fun _ => hframe.isOperational hcovers

/-- A block only leads to the successors of its terminator. -/
theorem target_of_leaveBlock {b : Block} {t : Terminator} (hterm : b.terminator = some t) {target : Nat}
    (h : leaveBlock i frame b = .ok (.goto target)) : target ∈ t.successors := by
  unfold leaveBlock at h
  rw [hterm] at h
  match t with
  | .br target' =>
    cases h
    simp [Terminator.successors]
  | .condBr condition ifTrue ifFalse =>
    dsimp only at h
    cases hcondition : i.eval frame condition with
    | error e =>
      rw [hcondition] at h
      cases h
    | ok v =>
      rw [hcondition] at h
      cases h
      simp only [Terminator.successors, List.mem_cons, List.not_mem_nil, or_false]
      split_ifs
      · exact .inl rfl
      · exact .inr rfl
  | .ret (some value) =>
    dsimp only at h
    cases hvalue : i.eval frame value <;> rw [hvalue] at h <;> cases h
  | .ret none | .unreachable => cases h

/-- A function that leaves with a value does so at a return. -/
theorem ret_of_leaveBlock {b : Block} {value : Value} (h : leaveBlock i frame b = .ok (.leave value)) :
    ∃ result, b.terminator = some (.ret result) := by
  cases hterm : b.terminator with
  | none =>
    rw [leaveBlock, hterm] at h
    cases h
  | some t =>
    rw [leaveBlock, hterm] at h
    match t with
    | .ret result => exact ⟨result, rfl⟩
    | .condBr condition _ _ =>
      dsimp only at h
      cases hcondition : i.eval frame condition <;> rw [hcondition] at h <;> cases h
    | .br _ | .unreachable => cases h

end Operations

/-! ### The invariant of places -/

/-- A place that belongs to a function: its block is the function's, what is left of the block is in the
block, and the frame carries the parameters. -/
structure Place.Fits (f : IrFunction) (place : Place) : Prop where
  frame : place.frame.Carries f.signature
  block : place.block ∈ f.blocks
  rest : ∀ instruction ∈ place.rest, instruction ∈ place.block.instructions

theorem Place.fits_start {f : IrFunction} {frame : Frame} {b : Block} (hframe : frame.Carries f.signature)
    (hb : b ∈ f.blocks) (s : State) : (Place.start frame b s).Fits f :=
  ⟨hframe, hb, fun _ h => h⟩

theorem Frame.Carries.keep {frame : Frame} {s : FunctionSignature} (h : frame.Carries s)
    (instruction : Instruction) (value : Value) : (frame.keep instruction value).Carries s := by
  unfold Frame.keep
  dsimp only
  split_ifs
  · exact h
  · exact ⟨h.signature, h.args⟩

/-- An instruction changes the frame by its result alone. -/
theorem keep_of_stepInstruction {i : Image} {caller : Caller} {frame frame' : Frame}
    {instruction : Instruction} {s s' : State}
    (h : stepInstruction i caller frame instruction s = .ok frame' s') :
    ∃ value, frame' = frame.keep instruction value := by
  rw [stepInstruction_eq] at h
  split_ifs at h
  split at h
  · cases h
    exact ⟨_, rfl⟩
  · cases h

theorem Moves.fits {i : Image} {caller : Caller} {f : IrFunction} {place place' : Place}
    (h : Moves i caller f place place') (hfits : place.Fits f) : place'.Fits f := by
  cases h with
  | @step frame frame' b instruction rest s s' hstep =>
    obtain ⟨value, rfl⟩ := keep_of_stepInstruction hstep
    exact ⟨hfits.frame.keep instruction value, hfits.block, fun j hj => hfits.rest j (.tail _ hj)⟩
  | jump _ hb => exact Place.fits_start hfits.frame (List.mem_of_find?_eq_some hb) _

theorem fits_of_reaches {i : Image} {caller : Caller} {f : IrFunction} {place place' : Place}
    (h : Reaches i caller f place place') (hfits : place.Fits f) : place'.Fits f := by
  induction h with
  | refl => exact hfits
  | tail _ hmove ih => exact hmove.fits ih

theorem Admits.fits {i : Image} {r : Request} {e : Entered} (h : Admits i r e) :
    e.function ∈ i.program.functions ∧ e.place.Fits e.function := by
  obtain ⟨b, hentry, hplace⟩ := h.place
  have hframe : Frame.Carries { signature := e.function.signature, args := r.args }
      e.function.signature := ⟨rfl, FunctionSignature.le_of_accepts h.accepts⟩
  constructor
  · exact List.mem_of_find?_eq_some h.function
  · rw [hplace]
    exact Place.fits_start hframe (List.mem_of_mem_head? hentry) _

theorem Enters.fits {i : Image} {r : Request} {e : Entered} (h : Enters i r e) :
    e.function ∈ i.program.functions ∧ e.place.Fits e.function := by
  induction h with
  | own h => exact h.fits
  | nested _ _ _ _ _ ih => exact ih

/-! ### Runs -/

theorem Fault.not_structural_of_isOperational {e : Fault} (h : e.isOperational) :
    e.isStructural = false := by
  simp only [isOperational, Bool.and_eq_true, Bool.not_eq_true'] at h
  exact h.1

theorem Refuses.not_structural {i : Image} {r : Request} {fault : Fault} (h : Refuses i r fault) :
    fault.isStructural = false := by
  cases h <;> rfl

theorem Refuses.of_argumentCount {i : Image} {r : Request} {callee : String} {expected passed : Nat}
    (h : Refuses i r (.argumentCount callee expected passed)) :
    ∃ f, i.program.function? r.name = some f ∧ f.signature.accepts r.args.length = false ∧
      r.name = callee ∧ r.args.length = passed := by
  cases h with
  | count hf hargs => exact ⟨_, hf, hargs, rfl, rfl⟩

theorem length_of_mapM_eq_ok {α β : Type} {f : α → Except Fault β} {l : List α} {bs : List β}
    (h : l.mapM f = .ok bs) : bs.length = l.length := by
  induction l generalizing bs with
  | nil =>
    cases h
    rfl
  | cons a l ih =>
    rw [List.mapM_cons] at h
    cases ha : f a with
    | error e =>
      rw [ha] at h
      cases h
    | ok b =>
      rw [ha] at h
      cases hl : l.mapM f with
      | error e =>
        rw [hl] at h
        cases h
      | ok bs' =>
        rw [hl] at h
        cases h
        simp [ih hl]

theorem Calls.of_direct {i : Image} {frame : Frame} {name callee : String} {args : List Operand}
    {convention : CallingConvention} {isTail : Bool} {values : List Value}
    (h : Calls i frame (.call (.function name) args convention isTail) callee values) :
    name = callee ∧ values.length = args.length := by
  cases h with
  | direct h => exact ⟨rfl, length_of_mapM_eq_ok h⟩
  | indirect hcallee _ _ _ => exact absurd rfl (hcallee name)

/-- What holds of a run that keeps to the structure of the program. -/
structure Request.Keeps (i : Image) (r : Request) : Prop where
  /-- The run does not lose a block, the end of a block or an argument. -/
  structural : ∀ fault s, r.run i = .error fault s → fault.isStructural = false
  /-- Where a wrong number of arguments ends the run, a call through an address passed them. -/
  count : ∀ callee expected passed s, r.run i = .error (.argumentCount callee expected passed) s →
    ∃ e frame b instruction rest s' values, Enters i r e ∧
      Reaches i (callFunction i e.depth) e.function e.place ⟨frame, b, instruction :: rest, s'⟩ ∧
      Calls i frame instruction.operation callee values ∧ values.length = passed ∧
      ∀ name args convention isTail, instruction.operation ≠ .call (.function name) args convention isTail
  /-- A direct call to a function of the program passes what the function takes. -/
  direct : ∀ e, Enters i r e → ∀ frame b instruction rest s,
    Reaches i (callFunction i e.depth) e.function e.place ⟨frame, b, instruction :: rest, s⟩ →
    ∀ callee args convention isTail, instruction.operation = .call (.function callee) args convention isTail →
    ∀ f, i.program.function? callee = some f → f.signature.accepts args.length
  /-- A function that returns does so at a return that carries a value when there is one to return. -/
  returns : ∀ e, Enters i r e → ∀ r', Admits i r' e → ∀ value s, r'.run i = .ok value s →
    ∃ frame b s' result, Reaches i (callFunction i e.depth) e.function e.place ⟨frame, b, [], s'⟩ ∧
      leaveBlock i frame b = .ok (.leave value) ∧ b.terminator = some (.ret result) ∧
      result.isSome = !e.function.signature.ret.isVoid

section Runs

variable {i : Image} (hp : i.program.Verified)

include hp

theorem accepts_of_reaches {r : Request} {e : Entered} (henters : Enters i r e) {frame : Frame} {b : Block}
    {instruction : Instruction} {rest : List Instruction} {s : State}
    (hwalk : Reaches i (callFunction i e.depth) e.function e.place ⟨frame, b, instruction :: rest, s⟩)
    {callee : String} {args : List Operand} {convention : CallingConvention} {isTail : Bool}
    (hcall : instruction.operation = .call (.function callee) args convention isTail) {f : IrFunction}
    (hf : i.program.function? callee = some f) : f.signature.accepts args.length := by
  obtain ⟨hmem, hstart⟩ := henters.fits
  have hfits := fits_of_reaches hwalk hstart
  have hinstruction := hfits.rest instruction (by simp)
  exact IrFunction.accepts_of_verify (hp.passes _ hmem) hfits.block hp.distinct hmem hinstruction hcall hf

/-- A fault that is raised at a place is one of operations, unless it is a refusal or the run has gone on
for too long. -/
theorem raised_cases {r : Request} {e : Entered} (henters : Enters i r e) {place : Place}
    (hwalk : Reaches i (callFunction i e.depth) e.function e.place place) {fault : Fault}
    (hraises : Raises i e place fault) : fault.isOperational ∨
      ∃ frame b instruction rest s name values, place = ⟨frame, b, instruction :: rest, s⟩ ∧
        Calls i frame instruction.operation name values ∧
        Refuses i ⟨e.depth, name, values, s.tick⟩ fault := by
  obtain ⟨hmem, hstart⟩ := henters.fits
  have hfits := fits_of_reaches hwalk hstart
  obtain ⟨t, hterm, hcovers, -, htargets⟩ :=
    IrFunction.terminator_of_verify (hp.passes _ hmem) hfits.block
  cases hraises with
  | limit | stalled => exact .inl rfl
  | @operation frame b instruction rest s s' _ h =>
    have hinstruction := IrFunction.covers_of_verify (hp.passes _ hmem) hfits.block
      (hfits.rest instruction (by simp))
    exact .inl (operational_perform hfits.frame hinstruction _ _ _ _ h)
  | refused hcall h => exact .inr ⟨_, _, _, _, _, _, _, rfl, hcall, h⟩
  | blocked h => exact .inl (operational_leaveBlock hfits.frame hterm hcovers _ h)
  | @lost frame b s target h hb =>
    have htarget := htargets target (target_of_leaveBlock hterm h)
    rw [hb] at htarget
    cases htarget

/-- The run of a verified program keeps to its structure, whatever is called with as many arguments as it
takes. -/
theorem keeps_of_verified {r : Request}
    (hargs : ∀ f, i.program.function? r.name = some f → f.signature.accepts r.args.length) :
    r.Keeps i := by
  constructor
  · intro fault s h
    obtain hrefuse | ⟨e, place, henters, hwalk, hraises⟩ := r.raised_of_error h
    · exact hrefuse.not_structural
    · obtain hop | ⟨_, _, _, _, _, _, _, -, -, hrefuse⟩ := raised_cases hp henters hwalk hraises
      · exact Fault.not_structural_of_isOperational hop
      · exact hrefuse.not_structural
  · intro callee expected passed s h
    obtain hrefuse | ⟨e, place, henters, hwalk, hraises⟩ := r.raised_of_error h
    · obtain ⟨f, hf, hcount, rfl, -⟩ := hrefuse.of_argumentCount
      rw [hargs f hf] at hcount
      cases hcount
    · obtain hop | ⟨frame, b, instruction, rest, s', name, values, rfl, hcall, hrefuse⟩ :=
        raised_cases hp henters hwalk hraises
      · cases hop
      · obtain ⟨f, hf, hcount, rfl, rfl⟩ := hrefuse.of_argumentCount
        refine ⟨e, frame, b, instruction, rest, s', values, henters, hwalk, hcall, rfl, ?_⟩
        intro name' args convention isTail hdirect
        obtain ⟨rfl, hlength⟩ := Calls.of_direct (hdirect ▸ hcall)
        have haccepts := accepts_of_reaches hp henters hwalk hdirect hf
        rw [← hlength, hcount] at haccepts
        cases haccepts
  · intro e henters frame b instruction rest s hwalk callee args convention isTail hcall f hf
    exact accepts_of_reaches hp henters hwalk hcall hf
  · intro e henters r' hadmits value s h
    obtain ⟨frame, b, s', hwalk, hleave⟩ := hadmits.leaves_of_ok h
    obtain ⟨hmem, hstart⟩ := henters.fits
    obtain ⟨result, hret⟩ := ret_of_leaveBlock hleave
    obtain ⟨t, hterm, -, hcarries, -⟩ :=
      IrFunction.terminator_of_verify (hp.passes _ hmem) (fits_of_reaches hwalk hstart).block
    obtain rfl : t = .ret result := Option.some.inj (hterm.symm.trans hret)
    exact ⟨frame, b, s', result, hwalk, hleave, hret, hcarries result rfl⟩

end Runs

/-- A function that hands its argument to a second one, which counts it down by calling itself. -/
def countdown : Program :=
  { functions :=
    [{ name := "start", signature := ⟨[.i32], .i32, false⟩
       blocks := [{ id := 0, instructions := [⟨0, .call (.function "down") [.argument 0] .c false, some .i32⟩]
                    terminator := some (.ret (some (.register 0))) }] },
     { name := "down", signature := ⟨[.i32], .i32, false⟩
       blocks :=
        [{ id := 0, instructions := [⟨0, .compare .eq (.argument 0) (.constant (.int 0 .i32)), some .i1⟩]
           terminator := some (.condBr (.register 0) 1 2) },
         { id := 1, terminator := some (.ret (some (.argument 0))) },
         { id := 2, instructions := [⟨1, .arith .sub (.argument 0) (.constant (.int 1 .i32)), some .i32⟩,
             ⟨2, .call (.function "down") [.register 1] .c false, some .i32⟩]
           terminator := some (.ret (some (.register 2))) }] }] }

theorem keeps_of_countdown :
    Request.Keeps ⟨countdown, []⟩ ⟨maxCallDepth, "start", [.int 7 32], { memory := .initial }⟩ := by
  apply keeps_of_verified
  · constructor
    · decide
    · intro f hf
      simp only [countdown, List.mem_cons, List.not_mem_nil, or_false] at hf
      obtain rfl | rfl := hf <;> rfl
  · intro f hf
    cases hf
    rfl

end Machine
end UnitCompiler
