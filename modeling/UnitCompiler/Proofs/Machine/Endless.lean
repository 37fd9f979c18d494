import Mathlib.Order.WellFounded
import UnitCompiler.Proofs.Machine.Faults

/-!
# Runs without an end

The limits on steps and on the depth of calls bound everything but jumps between blocks without
instructions.  A run goes on for ever exactly if it comes to a circle of such blocks, and this is when the
budget of blocks runs out.  Any other run ends with a value or a fault.
-/

namespace UnitCompiler
namespace Machine

open Relation (ReflTransGen)

/-! ### The rest of an activation -/

section Resuming

variable {i : Image} {caller : Caller} {f : IrFunction} {frame frame' : Frame} {b b' : Block}
  {instruction : Instruction} {rest : List Instruction} {s s' : State} {target : Nat} {e : Fault}

/-- What an activation comes to from a place on, if it may enter `n` more blocks. -/
def Place.resume (i : Image) (caller : Caller) (f : IrFunction) (n : Nat) (place : Place) :
    EStateM.Result Fault State Value :=
  (do
    let frame ← place.rest.foldlM (stepInstruction i caller) place.frame
    match ← liftFault (leaveBlock i frame place.block) with
    | .leave value => pure value
    | .goto target => runBlocks i caller f n target frame) place.state

theorem resume_start (hb : f.block? b.id = some b) (n : Nat) (frame : Frame) (s : State) :
    (Place.start frame b s).resume i caller f n = runBlocks i caller f (n + 1) b.id frame s := by
  rw [runBlocks, hb]
  rfl

theorem resume_step (h : stepInstruction i caller frame instruction s = .ok frame' s') (n : Nat) :
    Place.resume i caller f n ⟨frame, b, instruction :: rest, s⟩ =
      Place.resume i caller f n ⟨frame', b, rest, s'⟩ := by
  unfold Place.resume
  simp only [List.foldlM_cons, bind_assoc]
  rw [bind_apply, h]

theorem resume_fault (h : stepInstruction i caller frame instruction s = .error e s') (n : Nat) :
    Place.resume i caller f n ⟨frame, b, instruction :: rest, s⟩ = .error e s' := by
  unfold Place.resume
  simp only [List.foldlM_cons, bind_assoc]
  rw [bind_apply, h]

theorem resume_blocked (h : leaveBlock i frame b = .error e) (n : Nat) :
    Place.resume i caller f n ⟨frame, b, [], s⟩ = .error e s := by
  change (liftFault (leaveBlock i frame b) >>= _) s = _
  rw [h]
  rfl

theorem resume_leave {value : Value} (h : leaveBlock i frame b = .ok (.leave value)) (n : Nat) :
    Place.resume i caller f n ⟨frame, b, [], s⟩ = .ok value s := by
  change (liftFault (leaveBlock i frame b) >>= _) s = _
  rw [h]
  rfl

theorem resume_goto (h : leaveBlock i frame b = .ok (.goto target)) (n : Nat) :
    Place.resume i caller f n ⟨frame, b, [], s⟩ = runBlocks i caller f n target frame s := by
  change (liftFault (leaveBlock i frame b) >>= _) s = _
  rw [h]
  rfl

end Resuming

section Requests

variable {i : Image} {r : Request} {e e' : Entered}

/-- The function that a request enters runs out of every budget exactly if the request stalls. -/
def Stalls (i : Image) (e : Entered) : Prop :=
  ∀ n, ∃ s, e.place.resume i (callFunction i e.depth) e.function n = .error .stalled s

theorem Admits.stalls_iff (h : Admits i r e) : Stalls i e ↔ ∃ s, r.run i = .error .stalled s := by
  obtain ⟨b, hentry, hplace⟩ := h.place
  have hb := block?_of_head? hentry
  have hadvances := advances_callFunction i e.depth
  have hresume (n : Nat) : e.place.resume i (callFunction i e.depth) e.function n =
      runBlocks i (callFunction i e.depth) e.function (n + 1) e.place.block.id e.place.frame r.state := by
    rw [hplace]
    exact resume_start hb n _ _
  rw [h.run_eq]
  constructor
  · intro hstalls
    have hpositive : 0 < blockBudget e.function := Nat.mul_pos (Nat.succ_pos _) (Nat.succ_pos _)
    obtain ⟨n, hn⟩ := Nat.exists_eq_add_one_of_ne_zero hpositive.ne'
    obtain ⟨s, hs⟩ := hstalls n
    rw [hresume, ← hn] at hs
    exact restoringStack_error hs
  · rintro ⟨s, hs⟩ n
    obtain ⟨s', hs'⟩ := of_restoringStack_error hs
    rw [hresume]
    by_contra hne
    push Not at hne
    obtain hle | hle := Nat.le_total (blockBudget e.function) (n + 1)
    · rw [← runBlocks_blockBudget hadvances hle] at hne
      exact hne s' hs'
    · rw [runBlocks_of_le hle hne] at hs'
      exact hne s' hs'

/-! ### Walks -/

/-- One move of an entered function, or the entry into a function that it calls. -/
inductive Proceeds (i : Image) : Entered → Entered → Prop
  | move {e : Entered} {place : Place} (h : Moves i (callFunction i e.depth) e.function e.place place) :
      Proceeds i e ⟨e.depth, e.function, place⟩
  | call {e e' : Entered} {frame : Frame} {b : Block} {instruction : Instruction}
      {rest : List Instruction} {s : State} {name : String} {values : List Value}
      (hplace : e.place = ⟨frame, b, instruction :: rest, s⟩) (hlimit : s.steps < maxSteps)
      (hcall : Calls i frame instruction.operation name values)
      (h : Admits i ⟨e.depth, name, values, s.tick⟩ e') : Proceeds i e e'

/-- A run that goes on for ever. -/
def Endless (i : Image) (r : Request) : Prop :=
  ∃ walk : ℕ → Entered, Admits i r (walk 0) ∧ ∀ n, Proceeds i (walk n) (walk (n + 1))

/-- The function stands at the start of a block without instructions that only leads to such blocks. -/
def Entered.Circles (i : Image) (e : Entered) : Prop :=
  ∃ frame b s, e.place = .start frame b s ∧ e.function.block? b.id = some b ∧
    ∀ n ≤ e.function.blocks.length,
      (hop i e.function frame (hops i e.function frame b.id n)).isSome

/-- The run comes to a circle of blocks without instructions. -/
def Request.Circles (i : Image) (r : Request) : Prop :=
  ∃ e e', Admits i r e ∧ ReflTransGen (Proceeds i) e e' ∧ e'.Circles i

/-- An operation that calls does what the callee does. -/
theorem perform_of_calls {caller : Caller} {frame : Frame} {operation : Operation} {name : String}
    {values : List Value} (h : Calls i frame operation name values) (type : IrType) (s : State) :
    perform i caller frame type operation s = caller name values s := by
  cases h with
  | direct h =>
    change ((List.mapM (fun arg => liftFault (i.eval frame arg)) _) >>= _ : RunM Value) s = _
    rw [bind_apply, mapM_liftFault, h]
    rfl
  | indirect hcallee haddress hname h =>
    rw [perform_indirect hcallee]
    simp only [haddress, hname, liftFault_ok, pure_bind]
    rw [bind_apply, mapM_liftFault, h]
    rfl

/-- An instruction that does not run into the limit starts below it. -/
theorem steps_lt_of_ne_stepLimit {caller : Caller} {frame : Frame} {instruction : Instruction} {s : State}
    {result : EStateM.Result Fault State Frame} (h : stepInstruction i caller frame instruction s = result)
    (hne : ∀ s', result ≠ .error .stepLimit s') : s.steps < maxSteps := by
  by_contra hle
  rw [stepInstruction_eq, if_pos (by omega)] at h
  exact hne _ h.symm

/-- An instruction that stalls is a call that stalls. -/
theorem stalls_of_stepInstruction {frame : Frame} {instruction : Instruction} {s s' : State} {depth : Nat}
    (h : stepInstruction i (callFunction i depth) frame instruction s = .error .stalled s') :
    ∃ name values e', Calls i frame instruction.operation name values ∧
      Admits i ⟨depth, name, values, s.tick⟩ e' ∧ Stalls i e' := by
  obtain hlimit | ⟨s'', hperform⟩ := fault_of_stepInstruction h
  · cases hlimit
  obtain ⟨name, values, hcall, hrun⟩ | hidle := perform_error hperform
  · obtain ⟨fault, hrefuse, hrun'⟩ | ⟨e', hadmits, -⟩ :=
      Request.run_cases (i := i) ⟨depth, name, values, s.tick⟩
    · cases hrun'.symm.trans hrun
      cases hrefuse
    · exact ⟨name, values, e', hcall, hadmits, hadmits.stalls_iff.mpr ⟨_, hrun⟩⟩
  · obtain (hplain | ⟨_, -, hlacks⟩) | ⟨hvanishes, -⟩ | ⟨hoverflow, -⟩ := explains_perform _ _ _ _ _ hidle
    · cases hplain
    · cases hlacks
    · cases hvanishes
    · cases hoverflow

theorem leaveBlock_ne_stalled (frame : Frame) (b : Block) : leaveBlock i frame b ≠ .error .stalled := by
  intro h
  cases hterm : b.terminator with
  | none =>
    rw [leaveBlock, hterm] at h
    cases h
  | some t =>
    obtain hplain | ⟨_, -, hlacks⟩ := explains_leaveBlock hterm _ h
    · cases hplain
    · cases hlacks

/-- What stalls goes on to something that stalls. -/
theorem Stalls.proceeds (h : Stalls i e) : ∃ e', Proceeds i e e' ∧ Stalls i e' := by
  obtain ⟨depth, f, frame, b, rest, s⟩ := e
  cases rest with
  | cons instruction rest =>
    cases hstep : stepInstruction i (callFunction i depth) frame instruction s with
    | ok frame' s' =>
      refine ⟨⟨depth, f, frame', b, rest, s'⟩, .move (.step hstep), fun n => ?_⟩
      obtain ⟨s'', hs⟩ := h n
      exact ⟨s'', (resume_step hstep n).symm.trans hs⟩
    | error fault s' =>
      obtain ⟨s'', hs⟩ := h 0
      cases (resume_fault hstep 0).symm.trans hs
      obtain ⟨name, values, e', hcall, hadmits, hstalls⟩ := stalls_of_stepInstruction hstep
      refine ⟨e', .call rfl (steps_lt_of_ne_stepLimit hstep (by simp)) hcall hadmits, hstalls⟩
  | nil =>
    cases hleave : leaveBlock i frame b with
    | error fault =>
      obtain ⟨s', hs⟩ := h 0
      cases (resume_blocked hleave 0).symm.trans hs
      exact absurd hleave (leaveBlock_ne_stalled frame b)
    | ok exit =>
      cases exit with
      | leave value =>
        obtain ⟨s', hs⟩ := h 0
        cases (resume_leave hleave 0).symm.trans hs
      | goto target =>
        cases hb : f.block? target with
        | none =>
          obtain ⟨s', hs⟩ := h 1
          have hlost := (resume_goto hleave 1).symm.trans hs
          rw [runBlocks, hb] at hlost
          cases hlost
        | some b' =>
          obtain rfl : b'.id = target := by simpa using List.find?_some hb
          refine ⟨⟨depth, f, .start frame b' s⟩, .move (.jump hleave hb), fun n => ?_⟩
          obtain ⟨s', hs⟩ := h (n + 1)
          exact ⟨s', (resume_start hb n frame s).trans ((resume_goto hleave (n + 1)).symm.trans hs)⟩

/-- What leads to something that stalls does so itself. -/
theorem Proceeds.stalls (h : Proceeds i e e') (h' : Stalls i e') : Stalls i e := by
  intro n
  cases h with
  | move hmove =>
    obtain ⟨depth, f, place⟩ := e
    cases hmove with
    | step hstep =>
      obtain ⟨s, hs⟩ := h' n
      exact ⟨s, (resume_step hstep n).trans hs⟩
    | @jump _ _ b' target s hleave hb =>
      cases n with
      | zero => exact ⟨s, resume_goto hleave 0⟩
      | succ n =>
        obtain rfl : b'.id = target := by simpa using List.find?_some hb
        obtain ⟨s', hs⟩ := h' n
        exact ⟨s', (resume_goto hleave (n + 1)).trans ((resume_start hb n _ _).symm.trans hs)⟩
  | @call _ frame b instruction rest s name values hplace hlimit hcall hadmits =>
    obtain ⟨s', hrun⟩ := hadmits.stalls_iff.mp h'
    have hperform : perform i (callFunction i e.depth) frame (instruction.type.getD .void)
        instruction.operation { s with steps := s.steps + 1 } = .error .stalled s' :=
      (perform_of_calls hcall _ _).trans hrun
    rw [hplace]
    refine ⟨s', resume_fault ?_ n⟩
    rw [stepInstruction_eq, if_neg (by omega), hperform]

/-! ### Circles -/

/-- What the limits leave for an entered function: calls first, then steps. -/
def Entered.left (e : Entered) : Nat := e.depth * (maxSteps + 1) + (maxSteps - e.place.state.steps)

/-- A jump from the end of a block, which leaves the limits as they are. -/
def Jumps (i : Image) (e e' : Entered) : Prop :=
  ∃ frame b b' target s, e.place = ⟨frame, b, [], s⟩ ∧ leaveBlock i frame b = .ok (.goto target) ∧
    e.function.block? target = some b' ∧ e' = ⟨e.depth, e.function, .start frame b' s⟩

theorem Proceeds.left (h : Proceeds i e e') : e'.left < e.left ∨ e'.left = e.left ∧ Jumps i e e' := by
  unfold Entered.left
  cases h with
  | move hmove =>
    obtain ⟨depth, f, place⟩ := e
    cases hmove with
    | step hstep =>
      have hlimit := steps_lt_of_ne_stepLimit hstep (by simp)
      have hadvances := steps_lt_of_stepInstruction i (advances_callFunction i depth) hstep
      left
      dsimp only
      omega
    | jump hleave hb => exact .inr ⟨rfl, _, _, _, _, _, rfl, hleave, hb, rfl⟩
  | call hplace hlimit hcall hadmits =>
    have hdepth : e.depth = e'.depth + 1 := hadmits.depth
    left
    rw [hdepth, Nat.succ_mul]
    omega

/-- A walk without an end only jumps from some move on. -/
theorem jumps_of_proceeds {walk : ℕ → Entered} (h : ∀ n, Proceeds i (walk n) (walk (n + 1))) :
    ∃ n, ∀ k, Jumps i (walk (n + k)) (walk (n + k + 1)) := by
  -- From where the least is left on, no move leaves less.
  obtain ⟨n, hleast⟩ : ∃ n, ∀ m, (walk n).left ≤ (walk m).left :=
    ⟨Function.argmin fun n => (walk n).left, fun m => Function.argmin_le (fun n => (walk n).left) m⟩
  have hsame (k : ℕ) : (walk (n + k)).left = (walk n).left := by
    induction k with
    | zero => rfl
    | succ k ih =>
      have hle := hleast (n + (k + 1))
      obtain hlt | ⟨heq, -⟩ := (h (n + k)).left
      · rw [ih] at hlt
        exact absurd hlt (not_lt.mpr hle)
      · exact heq.trans ih
  refine ⟨n, fun k => ?_⟩
  obtain hlt | ⟨-, hjumps⟩ := (h (n + k)).left
  · have hle := hleast (n + k + 1)
    rw [hsame k] at hlt
    exact absurd hlt (not_lt.mpr hle)
  · exact hjumps

theorem Jumps.hop {d : Nat} {f : IrFunction} {frame : Frame} {b : Block} {s : State}
    (hb : f.block? b.id = some b) (h : Jumps i ⟨d, f, .start frame b s⟩ e') :
    ∃ b', Machine.hop i f frame b.id = some b'.id ∧ f.block? b'.id = some b' ∧
      e' = ⟨d, f, .start frame b' s⟩ := by
  obtain ⟨frame', b₁, b', target, s', hplace, hleave, hb', rfl⟩ := h
  obtain ⟨rfl, rfl, hempty, rfl⟩ := Place.mk.inj hplace
  obtain rfl : b'.id = target := by simpa using List.find?_some hb'
  exact ⟨b', by simp [Machine.hop, hb, hempty, hleave], hb', rfl⟩

/-- A function that has jumped and only jumps on stands in a circle. -/
theorem circles_of_jumps {walk : ℕ → Entered} (h : ∀ k, Jumps i (walk k) (walk (k + 1))) :
    (walk 1).Circles i := by
  obtain ⟨frame, -, b, target, s, -, -, hb, hfirst⟩ := h 0
  obtain rfl : b.id = target := by simpa using List.find?_some hb
  generalize (walk 0).depth = d at hfirst
  generalize (walk 0).function = f at hb hfirst
  have hwalk (k : ℕ) : ∃ b', walk (k + 1) = ⟨d, f, .start frame b' s⟩ ∧ f.block? b'.id = some b' ∧
      b'.id = hops i f frame b.id k := by
    induction k with
    | zero => exact ⟨b, hfirst, hb, rfl⟩
    | succ k ih =>
      obtain ⟨b', hplace, hb', hid⟩ := ih
      have hjump := h (k + 1)
      rw [hplace] at hjump
      obtain ⟨b'', hhop, hb'', hnext⟩ := hjump.hop hb'
      refine ⟨b'', hnext, hb'', ?_⟩
      rw [hops_succ, ← hid, hhop]
      rfl
  rw [hfirst]
  refine ⟨frame, b, s, rfl, hb, fun n _ => ?_⟩
  obtain ⟨b', hplace, hb', hid⟩ := hwalk n
  have hjump := h (n + 1)
  rw [hplace] at hjump
  obtain ⟨b'', hhop, -⟩ := hjump.hop hb'
  rw [← hid, hhop]
  rfl

theorem Entered.Circles.stalls (h : e.Circles i) : Stalls i e := by
  intro n
  obtain ⟨frame, b, s, hplace, hb, hforever⟩ := h
  rw [hplace, resume_start hb, ← Nat.zero_add (n + 1),
    runBlocks_hops (fun j _ => isSome_hop_of_le hforever j)]
  exact ⟨s, rfl⟩

theorem stalls_of_reflTransGen (h : ReflTransGen (Proceeds i) e e') (h' : Stalls i e') : Stalls i e := by
  induction h using ReflTransGen.head_induction_on with
  | refl => exact h'
  | head hproceeds _ ih => exact hproceeds.stalls ih

theorem Endless.circles (h : Endless i r) : r.Circles i := by
  obtain ⟨walk, hstart, hwalk⟩ := h
  obtain ⟨n, hjumps⟩ := jumps_of_proceeds hwalk
  have hreaches (k : ℕ) : ReflTransGen (Proceeds i) (walk 0) (walk k) := by
    induction k with
    | zero => exact .refl
    | succ k ih => exact ih.tail (hwalk k)
  let rest (k : ℕ) : Entered := walk (n + k)
  have hrest (k : ℕ) : Jumps i (rest k) (rest (k + 1)) := hjumps k
  exact ⟨walk 0, walk (n + 1), hstart, hreaches (n + 1), circles_of_jumps hrest⟩

theorem Request.Circles.stalls (h : r.Circles i) : ∃ s, r.run i = .error .stalled s := by
  obtain ⟨e, e', hadmits, hreaches, hcircles⟩ := h
  exact hadmits.stalls_iff.mp (stalls_of_reflTransGen hreaches hcircles.stalls)

theorem endless_of_stalls (h : ∃ s, r.run i = .error .stalled s) : Endless i r := by
  obtain ⟨s, hrun⟩ := h
  obtain ⟨fault, hrefuse, hrun'⟩ | ⟨e, hadmits, -⟩ := Request.run_cases (i := i) r
  · cases hrun'.symm.trans hrun
    cases hrefuse
  have hstalls : Stalls i e := hadmits.stalls_iff.mpr ⟨s, hrun⟩
  choose! next hproceeds hnext using fun (e : Entered) (h : Stalls i e) => h.proceeds
  have hwalk (n : ℕ) : Stalls i (next^[n] e) := by
    induction n with
    | zero => exact hstalls
    | succ n ih =>
      rw [Function.iterate_succ_apply']
      exact hnext _ ih
  refine ⟨fun n => next^[n] e, hadmits, fun n => ?_⟩
  beta_reduce
  rw [Function.iterate_succ_apply']
  exact hproceeds _ (hwalk n)

/-! ### Ends -/

/-- The run comes to a division whose divisor vanishes in the width of the dividend. -/
def Request.Vanishes (i : Image) (r : Request) : Prop :=
  ∃ e frame b instruction rest s, Enters i r e ∧
    Reaches i (callFunction i e.depth) e.function e.place ⟨frame, b, instruction :: rest, s⟩ ∧
    Machine.Vanishes i frame instruction.operation

theorem mem_functions_of_reflTransGen (h : ReflTransGen (Proceeds i) e e')
    (he : e.function ∈ i.program.functions) : e'.function ∈ i.program.functions := by
  induction h with
  | refl => exact he
  | tail _ hproceeds ih =>
    cases hproceeds with
    | move _ => exact ih
    | call _ _ _ h => exact List.mem_of_find?_eq_some h.function

/-- The limits end every run of a program whose blocks all have instructions. -/
theorem not_endless_of_instructions
    (h : ∀ f ∈ i.program.functions, ∀ b ∈ f.blocks, b.instructions ≠ []) : ¬ Endless i r := by
  intro hendless
  obtain ⟨e, e', hadmits, hreaches, frame, b, s, -, hb, hforever⟩ := hendless.circles
  have hmem := mem_functions_of_reflTransGen hreaches (List.mem_of_find?_eq_some hadmits.function)
  have hne := h _ hmem b (List.mem_of_find?_eq_some hb)
  have hfirst := hforever 0 (Nat.zero_le _)
  simp [hop, hops, hb, hne] at hfirst

/-- A function that jumps from a block without instructions to itself. -/
def spinning : IrFunction :=
  { name := "spinning", signature := ⟨[], .void, false⟩, blocks := [{ id := 0, terminator := some (.br 0) }] }

/-- The limits do not end every run. -/
theorem endless_spinning : Endless ⟨⟨[spinning], [], []⟩, []⟩
    ⟨maxCallDepth, "spinning", [], { memory := .initial }⟩ := by
  let b : Block := { id := 0, terminator := some (.br 0) }
  let e : Entered :=
    ⟨511, spinning, .start { signature := spinning.signature, args := [] } b { memory := .initial }⟩
  have hadmits : Admits ⟨⟨[spinning], [], []⟩, []⟩
      ⟨maxCallDepth, "spinning", [], { memory := .initial }⟩ e := ⟨rfl, rfl, rfl, b, rfl, rfl⟩
  apply endless_of_stalls
  refine Request.Circles.stalls ⟨e, e, hadmits, .refl, _, b, _, rfl, rfl, fun n hn => ?_⟩
  have hcases : n = 0 ∨ n = 1 := Nat.le_one_iff_eq_zero_or_eq_one.mp hn
  obtain rfl | rfl := hcases <;> rfl

end Requests

end Machine
end UnitCompiler
