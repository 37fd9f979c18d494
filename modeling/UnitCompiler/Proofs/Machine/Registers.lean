import UnitCompiler.Proofs.Machine.Instructions
import UnitCompiler.Proofs.Machine.Verified

/-!
# Registers of verified functions

Verification looks for the definition of a register before its use within one block.  Across blocks it only
asks that there is a definition: a run faults for want of a register exactly where the blocks it came
through have passed the definition by.  Where every path to a use goes through a definition no run of verified
functions does.
-/

namespace UnitCompiler

/-- The registers that a block gives values to. -/
def Block.defined (b : Block) : List Nat := (b.instructions.filter (·.hasResult)).map (·.id)

/-- What the instructions and the terminator of a block refer to. -/
def Block.operands (b : Block) : List Operand :=
  b.instructions.flatMap (·.operation.operands) ++ (b.terminator.map Terminator.operands).getD []

namespace IrFunction

variable {f : IrFunction}

/-- The paths from the entry of a function, the last block first. -/
inductive Path (f : IrFunction) : List Block → Prop
  | entry {b : Block} (h : f.blocks.head? = some b) : Path f [b]
  | step {b b' : Block} {t : Terminator} {target : Nat} {path : List Block} (h : Path f (b :: path))
      (hterm : b.terminator = some t) (htarget : target ∈ t.successors) (hb : f.block? target = some b') :
      Path f (b' :: b :: path)

/-- A block uses a register whose definition is in another block. -/
structure Imports (f : IrFunction) (b : Block) (id : Nat) : Prop where
  use : .register id ∈ b.operands
  outside : ∃ d, definition? f.definitions id = some d ∧ d.block ≠ b.id

/-- Every path to a block that uses the register of another block goes through a block that defines it. -/
def DefinesOnPaths (f : IrFunction) : Prop :=
  ∀ b path id, f.Path (b :: path) → f.Imports b id → ∃ b' ∈ path, id ∈ b'.defined

/-- Registers that have their values wherever a block starts: none at the entry, and at a successor only those
that were there or have been defined since. -/
structure Available (f : IrFunction) (available : Nat → List Nat) : Prop where
  entry : ∀ b ∈ f.blocks.head?, available b.id = []
  edge : ∀ b ∈ f.blocks, ∀ t ∈ b.terminator, ∀ target ∈ t.successors,
    available target ⊆ available b.id ++ b.defined

namespace Path

theorem mem {path : List Block} (h : f.Path path) : ∀ b ∈ path, b ∈ f.blocks := by
  induction h with
  | entry h =>
    intro b hb
    obtain rfl := List.mem_singleton.mp hb
    exact List.mem_of_mem_head? h
  | step _ _ _ hb ih => exact List.forall_mem_cons.mpr ⟨List.mem_of_find?_eq_some hb, ih⟩

theorem defined_of_available {available : Nat → List Nat} (ha : f.Available available) {b : Block}
    {path : List Block} (h : f.Path (b :: path)) {id : Nat} (hid : id ∈ available b.id) :
    ∃ b' ∈ path, id ∈ b'.defined := by
  generalize hpath : b :: path = blocks at h
  induction h generalizing b path with
  | entry hentry =>
    cases hpath
    rw [ha.entry _ hentry] at hid
    cases hid
  | @step b₀ b' t target path' h hterm htarget hb ih =>
    cases hpath
    obtain rfl : b'.id = target := by simpa using List.find?_some hb
    obtain hbefore | hhere :=
      List.mem_append.mp (ha.edge b₀ (h.mem b₀ (by simp)) t hterm b'.id htarget hid)
    · obtain ⟨b'', hmem, hdefined⟩ := ih hbefore rfl
      exact ⟨b'', .tail _ hmem, hdefined⟩
    · exact ⟨b₀, .head _, hhere⟩

end Path

/-- Availability over single edges is enough for all paths. -/
theorem definesOnPaths_of_available {available : Nat → List Nat} (ha : f.Available available)
    (himports : ∀ b ∈ f.blocks, ∀ id, f.Imports b id → id ∈ available b.id) : f.DefinesOnPaths := by
  intro b path id hpath hid
  exact hpath.defined_of_available ha (himports b (hpath.mem b (by simp)) id hid)

end IrFunction

namespace Machine

open Relation (ReflTransGen)

/-- The register whose lack a fault reports. -/
inductive Fault.Misses (id : Nat) : Fault → Prop
  | unset : Misses id (.registerUnset id)
  | untyped : Misses id (.registerUntyped id)

section Places

variable {i : Image} {caller : Caller} {f : IrFunction} {frame : Frame} {id : Nat}

theorem unset_of_explains {operands : List Operand} {fault : Fault} (h : frame.Explains operands fault)
    (hfault : fault.Misses id) : .register id ∈ operands ∧ frame.registers[id]? = none := by
  obtain hplain | ⟨operand, hmem, hlacks⟩ := h
  · cases hfault <;> cases hplain
  · cases hfault <;> cases hlacks <;> exact ⟨hmem, ‹_›⟩

/-- Keeping a result only ever sets registers. -/
theorem isSome_keep (instruction : Instruction) (value : Value)
    (h : frame.registers[id]?.isSome ∨ instruction.hasResult ∧ instruction.id = id) :
    (frame.keep instruction value).registers[id]?.isSome := by
  by_cases hresult : instruction.hasResult ∧ instruction.id = id
  · obtain ⟨hresult, rfl⟩ := hresult
    cases htype : instruction.type with
    | none => simp [Instruction.hasResult, htype] at hresult
    | some type =>
      have hvoid : type.isVoid = false := by simpa [Instruction.hasResult, htype] using hresult
      rw [getElem?_keep frame htype hvoid]
      rfl
  · have hset := h.resolve_right hresult
    unfold Frame.keep
    dsimp only
    split_ifs
    · exact hset
    · rw [Std.HashMap.getElem?_insert]
      split_ifs
      · rfl
      · exact hset

/-- How an activation came to a place: the blocks it passed before, the instructions of this block that have
been run, and the registers that these have set. -/
structure Place.Passed (f : IrFunction) (place : Place) (path : List Block) (run : List Instruction) :
    Prop where
  way : f.Path (place.block :: path)
  block : place.block.instructions = run ++ place.rest
  before : ∀ b ∈ path, ∀ id ∈ b.defined, place.frame.registers[id]?.isSome
  here : ∀ instruction ∈ run, instruction.hasResult → place.frame.registers[instruction.id]?.isSome

theorem Place.passed_start {b : Block} (h : f.blocks.head? = some b) (frame : Frame) (s : State) :
    (Place.start frame b s).Passed f [] [] where
  way := .entry h
  block := rfl
  before := by simp
  here := by simp

theorem Moves.passed {place place' : Place} (h : Moves i caller f place place') {path : List Block}
    {run : List Instruction} (hp : place.Passed f path run) :
    ∃ path' run', place'.Passed f path' run' := by
  cases h with
  | @step frame frame' b instruction rest s s' hstep =>
    obtain ⟨value, rfl⟩ := keep_of_stepInstruction hstep
    refine ⟨path, run ++ [instruction], hp.way, by simpa using hp.block, ?_, ?_⟩
    · intro b' hb' id hid
      exact isSome_keep instruction value (.inl (hp.before b' hb' id hid))
    · intro j hj hresult
      obtain hj | hj := List.mem_append.mp hj
      · exact isSome_keep instruction value (.inl (hp.here j hj hresult))
      · obtain rfl := List.mem_singleton.mp hj
        exact isSome_keep j value (.inr ⟨hresult, rfl⟩)
  | @jump frame b b' target s hleave hb =>
    have hrun : b.instructions = run := by simpa using hp.block
    obtain ⟨t, hterm, htarget⟩ : ∃ t, b.terminator = some t ∧ target ∈ t.successors := by
      cases hterm : b.terminator with
      | none =>
        rw [leaveBlock, hterm] at hleave
        cases hleave
      | some t => exact ⟨t, rfl, target_of_leaveBlock hterm hleave⟩
    refine ⟨b :: path, [], hp.way.step hterm htarget hb, rfl, ?_, by simp⟩
    refine List.forall_mem_cons.mpr ⟨fun id hid => ?_, hp.before⟩
    obtain ⟨j, hj, rfl⟩ := List.mem_map.mp hid
    obtain ⟨hj, hresult⟩ := List.mem_filter.mp hj
    exact hp.here j (hrun ▸ hj) hresult

theorem passed_of_reaches {place place' : Place} (h : Reaches i caller f place place') {path : List Block}
    {run : List Instruction} (hp : place.Passed f path run) :
    ∃ path' run', place'.Passed f path' run' := by
  induction h with
  | refl => exact ⟨path, run, hp⟩
  | tail _ hmove ih =>
    obtain ⟨path', run', hp'⟩ := ih
    exact hmove.passed hp'

theorem Enters.passed {r : Request} {e : Entered} (h : Enters i r e) : e.place.Passed e.function [] [] := by
  induction h with
  | own h =>
    obtain ⟨b, hentry, hplace⟩ := h.place
    rw [hplace]
    exact Place.passed_start hentry _ _
  | nested _ _ _ _ _ ih => exact ih

/-- A register that is not set has no definition among the instructions that have been run. -/
theorem Place.Passed.outside {place : Place} {path : List Block} {run : List Instruction}
    (hp : place.Passed f path run) (hids : (f.blocks.map (·.id)).Nodup)
    (hunset : place.frame.registers[id]? = none) {d : Definition}
    (hd : IrFunction.definition? f.definitions id = some d)
    (hfirst : d.block = place.block.id → d.position < run.length) : d.block ≠ place.block.id := by
  intro hblock
  obtain ⟨b, hb, hbid, j, hj, hresult, rfl⟩ := IrFunction.instruction_of_definition? hd
  have hmem : place.block ∈ f.blocks := hp.way.mem _ (by simp)
  obtain rfl : b = place.block := List.inj_on_of_nodup_map hids hb hmem (hbid.trans hblock)
  have hrun : run[d.position]? = some j := by
    rw [hp.block, List.getElem?_append_left (hfirst hblock)] at hj
    exact hj
  have hset := hp.here j (List.mem_of_getElem? hrun) hresult
  rw [hunset] at hset
  cases hset

/-- A verified function that misses a register at a place came there on a path that passes its
definitions by. -/
theorem Raises.passedBy {p : Program} {e : Entered} (hverify : e.function.verify p = .ok ())
    (hids : (e.function.blocks.map (·.id)).Nodup) {place : Place} {path : List Block}
    {run : List Instruction} (hp : place.Passed e.function path run) {fault : Fault}
    (h : Raises i e place fault) (hfault : fault.Misses id) :
    e.function.Imports place.block id ∧ ∀ b ∈ path, id ∉ b.defined := by
  have hmem : place.block ∈ e.function.blocks := hp.way.mem _ (by simp)
  have hpassed (hunset : place.frame.registers[id]? = none) : ∀ b ∈ path, id ∉ b.defined := by
    intro b hb hid
    have hset := hp.before b hb id hid
    rw [hunset] at hset
    cases hset
  cases h with
  | limit | stalled | lost => cases hfault
  | refused _ h => cases hfault <;> cases h
  | @operation frame b instruction rest s s' _ h =>
    have hexplains : frame.Explains instruction.operation.operands fault := by
      obtain hexplains | ⟨rfl, -⟩ | ⟨rfl, -⟩ := explains_perform _ _ _ _ _ h
      · exact hexplains
      · cases hfault
      · cases hfault
    obtain ⟨huse, hunset⟩ := unset_of_explains hexplains hfault
    have hblock : b.instructions = run ++ instruction :: rest := hp.block
    have hposition : b.instructions[run.length]? = some instruction := by simp [hblock]
    obtain ⟨d, hd, hfirst⟩ := IrFunction.definition_of_instruction hverify hmem hposition huse
    refine ⟨⟨?_, d, hd, hp.outside hids hunset hd hfirst⟩, hpassed hunset⟩
    exact List.mem_append_left _ (List.mem_flatMap.mpr ⟨instruction, List.mem_of_getElem? hposition, huse⟩)
  | @blocked frame b s _ h =>
    obtain ⟨t, hterm, -⟩ := IrFunction.terminator_of_verify hverify hmem
    obtain ⟨huse, hunset⟩ := unset_of_explains (explains_leaveBlock hterm _ h) hfault
    have hblock : b.instructions = run ++ [] := hp.block
    have hrun : b.instructions.length = run.length := by simp [hblock]
    obtain ⟨d, hd, hfirst⟩ := IrFunction.definition_of_terminator hverify hmem hterm huse
    rw [hrun] at hfirst
    refine ⟨⟨?_, d, hd, hp.outside hids hunset hd hfirst⟩, hpassed hunset⟩
    refine List.mem_append_right _ ?_
    rw [hterm]
    exact huse

end Places

/-! ### Runs -/

/-- A function that verification accepts, with a name for every block. -/
structure Accepted (f : IrFunction) : Prop where
  passes : ∃ p, f.verify p = .ok ()
  distinct : (f.blocks.map (·.id)).Nodup

variable {i : Image} {r : Request}

/-- A run that enters accepted functions and misses a register does so in a block that takes the register
from another one, at the end of a path through the function that passes the register's definitions by. -/
theorem passedBy_of_misses (haccepted : ∀ e, Enters i r e → Accepted e.function) {fault : Fault} {s : State}
    (h : r.run i = .error fault s) {id : Nat} (hfault : fault.Misses id) :
    ∃ e place path, Enters i r e ∧ Reaches i (callFunction i e.depth) e.function e.place place ∧
      e.function.Path (place.block :: path) ∧ e.function.Imports place.block id ∧
      ∀ b ∈ path, id ∉ b.defined := by
  obtain hrefuse | ⟨e, place, henters, hwalk, hraises⟩ := r.raised_of_error h
  · cases hfault <;> cases hrefuse
  · obtain ⟨path, run, hp⟩ := passed_of_reaches hwalk henters.passed
    obtain ⟨⟨p, hverify⟩, hids⟩ := haccepted e henters
    exact ⟨e, place, path, henters, hwalk, hp.way, hraises.passedBy hverify hids hp hfault⟩

/-- A function whose entry jumps over the block that defines what the last one returns. -/
def skipping : IrFunction :=
  { name := "skipping", signature := ⟨[.i32], .i32, false⟩
    blocks :=
      [{ id := 0, terminator := some (.br 2) },
       { id := 1, instructions := [⟨0, .arith .add (.argument 0) (.argument 0), some .i32⟩]
         terminator := some (.br 2) },
       { id := 2, terminator := some (.ret (some (.register 0))) }] }

theorem runBlocks_skipping (i : Image) (caller : Caller) (n : Nat) (args : List Value) (s : State) :
    runBlocks i caller skipping (n + 2) 0 { signature := skipping.signature, args } s =
      .error (.registerUnset 0) s := by
  have heval : i.eval { signature := skipping.signature, args } (.register 0) =
      .error (.registerUnset 0) := by
    simp [Image.eval]
  change (liftFault ((i.eval { signature := skipping.signature, args } (.register 0)).map Exit.leave) >>= _)
    s = _
  rw [heval]
  rfl

/-- Acceptance alone does not keep a run from missing a register. -/
theorem misses_skipping : Accepted skipping ∧ ∃ s, Request.run ⟨⟨[skipping], [], []⟩, []⟩
    ⟨maxCallDepth, "skipping", [.int 3 32], { memory := .initial }⟩ = .error (.registerUnset 0) s := by
  refine ⟨⟨⟨⟨[skipping], [], []⟩, rfl⟩, by decide⟩, ?_⟩
  let b : Block := { id := 0, terminator := some (.br 2) }
  have hadmits : Admits ⟨⟨[skipping], [], []⟩, []⟩
      ⟨maxCallDepth, "skipping", [.int 3 32], { memory := .initial }⟩
      ⟨511, skipping, .start { signature := skipping.signature, args := [.int 3 32] } b
        { memory := .initial }⟩ := ⟨rfl, rfl, rfl, b, rfl, rfl⟩
  have hbudget : blockBudget skipping = 200000006 + 2 := by decide
  rw [hadmits.run_eq, hbudget]
  exact restoringStack_error (runBlocks_skipping ..)

/-- A run that never ends for want of a register. -/
def Request.FindsRegisters (i : Image) (r : Request) : Prop :=
  ∀ fault s, r.run i = .error fault s → ∀ id, ¬ fault.Misses id

/-- Where every path to the use of another block's register defines it, a run that enters accepted functions
finds its registers. -/
theorem findsRegisters_of_definesOnPaths (haccepted : ∀ e, Enters i r e → Accepted e.function)
    (hpaths : ∀ e, Enters i r e → e.function.DefinesOnPaths) : r.FindsRegisters i := by
  intro fault s h id hfault
  obtain ⟨e, place, path, henters, -, hpath, himports, hpassed⟩ := passedBy_of_misses haccepted h hfault
  obtain ⟨b, hb, hid⟩ := hpaths e henters _ _ _ hpath himports
  exact hpassed b hb hid

/-- A function that counts its argument down in memory: the blocks of the loop use the slot of the entry
block, and the last two the value that the first of them has read. -/
def drain : IrFunction :=
  { name := "drain", signature := ⟨[.i32], .i32, false⟩
    blocks :=
      [{ id := 0, instructions := [⟨0, .alloca .i32 4, some (.ptr .i32)⟩,
           ⟨1, .store (.argument 0) (.register 0) none false, none⟩]
         terminator := some (.br 1) },
       { id := 1, instructions := [⟨2, .load (.register 0) none false, some .i32⟩,
           ⟨3, .compare .gt (.register 2) (.constant (.int 0 .i32)), some .i1⟩]
         terminator := some (.condBr (.register 3) 2 3) },
       { id := 2, instructions := [⟨4, .arith .sub (.register 2) (.constant (.int 1 .i32)), some .i32⟩,
           ⟨5, .store (.register 4) (.register 0) none false, none⟩]
         terminator := some (.br 1) },
       { id := 3, terminator := some (.ret (some (.register 2))) }] }

theorem definesOnPaths_drain : drain.DefinesOnPaths := by
  let available (b : Nat) : List Nat := if b = 0 then [] else if b = 1 then [0] else [0, 2]
  have havailable : drain.Available available := by
    constructor
    · decide
    · decide
  apply IrFunction.definesOnPaths_of_available havailable
  -- A register is used in the block that defines it, or it is available there.
  rintro b hb id ⟨huse, d, hd, houtside⟩
  have hown : (IrFunction.definition? drain.definitions id).map (·.block) = some d.block := by
    rw [hd]
    rfl
  simp only [drain, List.mem_cons, List.not_mem_nil, or_false] at hb
  obtain rfl | rfl | rfl | rfl := hb <;>
    simp only [Block.operands, Operation.operands, Terminator.operands, List.flatMap_cons,
      List.flatMap_nil, List.mem_append, List.mem_cons, List.not_mem_nil, Option.map_some,
      Option.getD_some, Operand.register.injEq, reduceCtorEq, false_or, or_false] at huse
  · subst huse
    exact absurd (Option.some.inj hown).symm houtside
  · obtain (rfl | rfl) | rfl := huse
    · decide
    · exact absurd (Option.some.inj hown).symm houtside
    · exact absurd (Option.some.inj hown).symm houtside
  · obtain rfl | rfl | rfl := huse
    · decide
    · exact absurd (Option.some.inj hown).symm houtside
    · decide
  · subst huse
    decide

theorem findsRegisters_drain : Request.FindsRegisters ⟨⟨[drain], [], []⟩, []⟩
    ⟨maxCallDepth, "drain", [.int 3 32], { memory := .initial }⟩ := by
  have hdrain {e : Entered} (h : Enters ⟨⟨[drain], [], []⟩, []⟩
      ⟨maxCallDepth, "drain", [.int 3 32], { memory := .initial }⟩ e) : e.function = drain :=
    List.mem_singleton.mp h.fits.1
  apply findsRegisters_of_definesOnPaths
  · intro e h
    rw [hdrain h]
    exact ⟨⟨⟨[drain], [], []⟩, rfl⟩, by decide⟩
  · intro e h
    rw [hdrain h]
    exact definesOnPaths_drain

end Machine
end UnitCompiler
