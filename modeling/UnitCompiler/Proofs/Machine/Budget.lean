import Mathlib.Data.Finset.Card
import Mathlib.Data.Finset.Range
import Mathlib.Data.Nat.Find
import Mathlib.Logic.Function.Iterate
import UnitCompiler.Machine.Run

/-!
# The block budget

A run counts every instruction as a step and stops after `maxSteps` of them, so that only blocks
without instructions are free.  Between two steps no block comes twice unless the run goes around for
ever.  Hence the budget of an activation never decides a run: what does not end within it never ends.
-/

namespace UnitCompiler
namespace Machine

/-- The state that a run ends in, however it ends. -/
def endState {α : Type} : EStateM.Result Fault State α → State
  | .ok _ s => s
  | .error _ s => s

/-- A sequence of two actions, by how the first one ends. -/
theorem bind_apply {α β : Type} (act : RunM α) (next : α → RunM β) (s : State) :
    (act >>= next) s = match act s with
      | .ok a s' => next a s'
      | .error e s' => .error e s' := by
  change EStateM.bind act next s = _
  unfold EStateM.bind
  cases act s <;> rfl

/-- A property that sequences of actions take over from the actions. -/
structure Compositional (P : ∀ {α : Type}, RunM α → Prop) : Prop where
  pure : ∀ {α : Type} (a : α), P (Pure.pure a : RunM α)
  throw : ∀ {α : Type} (e : Fault), P (MonadExcept.throw e : RunM α)
  get : P (MonadState.get : RunM State)
  bind : ∀ {α β : Type} {act : RunM α} {next : α → RunM β}, P act → (∀ a, P (next a)) → P (act >>= next)

/-- An operation that may change memory. -/
def touchesMemory : Operation → Bool
  | .store .. | .alloca .. | .convert .bitcast .. => true
  | _ => false

namespace Compositional

variable {α β : Type} {P : ∀ {α : Type}, RunM α → Prop}

theorem liftFault (h : Compositional P) (x : Except Fault α) : P (liftFault x) := by
  cases x with
  | ok a => exact h.pure a
  | error e => exact h.throw e

theorem mapM {γ : Type} (h : Compositional P) {f : γ → RunM β} (hf : ∀ c, P (f c)) (l : List γ) :
    P (l.mapM f) := by
  induction l with
  | nil => exact h.pure []
  | cons c l ih =>
    rw [List.mapM_cons]
    exact h.bind (hf c) fun b => h.bind ih fun bs => h.pure (b :: bs)

theorem foldlM {γ : Type} (h : Compositional P) {f : β → γ → RunM β} (hf : ∀ b c, P (f b c)) (l : List γ)
    (b : β) : P (l.foldlM f b) := by
  induction l generalizing b with
  | nil => exact h.pure b
  | cons c l ih =>
    rw [List.foldlM_cons]
    exact h.bind (hf b c) fun b' => ih b'

/-- Operations have the property when calls and operations on memory do. -/
theorem perform (h : Compositional P) (i : Image) {caller : Caller} (hcaller : ∀ name args, P (caller name args))
    (frame : Frame) (type : IrType) (operation : Operation)
    (hmemory : touchesMemory operation = true → P (perform i caller frame type operation)) :
    P (perform i caller frame type operation) := by
  cases operation with
  | store | alloca => exact hmemory rfl
  | arith op lhs rhs | compare op lhs rhs =>
    exact h.bind (h.liftFault _) fun _ => h.bind (h.liftFault _) fun _ => h.liftFault _
  | neg value | not value =>
    refine h.bind (h.liftFault _) fun v => ?_
    cases v <;> first | exact h.pure _ | exact h.throw _
  | load address align isVolatile =>
    exact h.bind (h.liftFault _) fun _ => h.bind h.get fun _ => h.liftFault _
  | elementPtr base indices inbounds => exact h.liftFault _
  | ptrToInt value | intToPtr value => exact h.bind (h.liftFault _) fun _ => h.pure _
  | convert op value target =>
    cases op with
    | bitcast => exact hmemory rfl
    | trunc | zext | sext | fptrunc | fpext | fptosi | sitofp =>
      exact h.bind (h.liftFault _) fun _ => h.liftFault _
  | extract aggregate indices => exact h.bind (h.liftFault _) fun _ => h.liftFault _
  | insert aggregate element indices =>
    exact h.bind (h.liftFault _) fun _ => h.bind (h.liftFault _) fun _ => h.liftFault _
  | call callee args convention isTail =>
    have hrest (name : String) : P (do
        let values ← args.mapM fun arg => Machine.liftFault (i.eval frame arg)
        caller name values) :=
      h.bind (h.mapM (fun _ => h.liftFault _) _) fun _ => hcaller _ _
    cases callee with
    | function name => exact h.bind (h.pure _) hrest
    | register _ | constant _ | global _ _ | argument _ | undef _ | null _ =>
      exact h.bind (h.liftFault _) fun _ => h.bind (h.liftFault _) hrest

end Compositional

/-- An action that takes no step back. -/
def Advances {α : Type} (act : RunM α) : Prop := ∀ s, s.steps ≤ (endState (act s)).steps

namespace Advances

variable {α β : Type}

theorem pure (a : α) : Advances (Pure.pure a : RunM α) := fun s => le_refl s.steps

theorem throw (e : Fault) : Advances (MonadExcept.throw e : RunM α) := fun s => le_refl s.steps

theorem bind {act : RunM α} {next : α → RunM β} (h : Advances act) (h' : ∀ a, Advances (next a)) :
    Advances (act >>= next) := by
  intro s
  have hs := h s
  rw [bind_apply]
  cases hact : act s with
  | error e s' =>
    rw [hact] at hs
    exact hs
  | ok a s' =>
    rw [hact] at hs
    exact hs.trans (h' a s')

theorem compositional : Compositional @Advances := ⟨pure, throw, fun s => le_refl s.steps, bind⟩

theorem onMemory (act : EStateM Fault Memory α) : Advances (onMemory act) := by
  intro s
  unfold Machine.onMemory
  cases act s.memory <;> exact le_refl _

end Advances

section Steps

variable (i : Image) {caller : Caller}

theorem advances_perform (hcaller : ∀ name args, Advances (caller name args)) (frame : Frame)
    (type : IrType) (operation : Operation) : Advances (perform i caller frame type operation) := by
  have hlift {α : Type} (x : Except Fault α) : Advances (liftFault x) := Advances.compositional.liftFault x
  refine Advances.compositional.perform i hcaller frame type operation fun hmemory => ?_
  cases operation with
  | store value address align isVolatile =>
    exact .bind (hlift _) fun _ => .bind (hlift _) fun _ => .bind (hlift _) fun _ =>
      .bind (.onMemory _) fun _ => .pure _
  | alloca slot align =>
    exact .bind (.onMemory _) fun _ => .bind (.onMemory _) fun _ => .pure _
  | convert op value target =>
    cases op with
    | bitcast => exact .bind (hlift _) fun _ => .bind (hlift _) fun _ => .onMemory _
    | _ => cases hmemory
  | _ => cases hmemory

theorem tick_eq (s : State) :
    tick s = if maxSteps < s.steps + 1 then .error .stepLimit { s with steps := s.steps + 1 }
      else .ok () { s with steps := s.steps + 1 } := by
  have h : tick s = (if maxSteps < s.steps + 1 then throw .stepLimit else pure () : RunM Unit)
      { s with steps := s.steps + 1 } := rfl
  rw [h]
  split_ifs <;> rfl

/-- The frame after an instruction with a given result. -/
def Frame.keep (frame : Frame) (instruction : Instruction) (value : Value) : Frame :=
  let type := instruction.type.getD .void
  if type.isVoid then frame
  else { frame with registers := frame.registers.insert instruction.id ⟨value, type⟩ }

theorem stepInstruction_eq (frame : Frame) (instruction : Instruction) (s : State) :
    stepInstruction i caller frame instruction s =
      if maxSteps < s.steps + 1 then .error .stepLimit { s with steps := s.steps + 1 }
      else
        match perform i caller frame (instruction.type.getD .void) instruction.operation
            { s with steps := s.steps + 1 } with
        | .ok value s' => .ok (frame.keep instruction value) s'
        | .error e s' => .error e s' := by
  unfold stepInstruction
  rw [bind_apply, tick_eq]
  by_cases hlimit : maxSteps < s.steps + 1
  · rw [if_pos hlimit, if_pos hlimit]
  · rw [if_neg hlimit, if_neg hlimit]
    simp only [bind_apply]
    cases perform i caller frame (instruction.type.getD .void) instruction.operation
      { s with steps := s.steps + 1 } with
    | error e s' => rfl
    | ok value s' =>
      simp only [Frame.keep]
      split <;> rfl

theorem advances_stepInstruction (hcaller : ∀ name args, Advances (caller name args))
    (frame : Frame) (instruction : Instruction) :
    Advances (stepInstruction i caller frame instruction) := by
  intro s
  rw [stepInstruction_eq]
  have hperform := advances_perform i hcaller frame (instruction.type.getD .void)
    instruction.operation { s with steps := s.steps + 1 }
  split_ifs
  · exact Nat.le_succ _
  · revert hperform
    cases perform i caller frame (instruction.type.getD .void) instruction.operation
      { s with steps := s.steps + 1 } <;> exact (Nat.le_succ _).trans

/-- Every instruction that does not fault is a step. -/
theorem steps_lt_of_stepInstruction (hcaller : ∀ name args, Advances (caller name args))
    {frame frame' : Frame} {instruction : Instruction} {s s' : State}
    (h : stepInstruction i caller frame instruction s = .ok frame' s') : s.steps < s'.steps := by
  rw [stepInstruction_eq] at h
  have hperform := advances_perform i hcaller frame (instruction.type.getD .void)
    instruction.operation { s with steps := s.steps + 1 }
  split_ifs at h
  revert h hperform
  cases perform i caller frame (instruction.type.getD .void) instruction.operation
    { s with steps := s.steps + 1 } with
  | error e s'' =>
    intro hle h
    cases h
  | ok value s'' =>
    intro hle h
    cases h
    exact hle

end Steps

section Blocks

variable (i : Image) (caller : Caller) (f : IrFunction)

/-- Runs the instructions of a block and finds out where control goes. -/
def runBlock (current : Nat) (frame : Frame) : RunM (Frame × Exit) :=
  match f.block? current with
  | none => throw (.missingBlock current)
  | some b => do
    let frame ← b.instructions.foldlM (stepInstruction i caller) frame
    let exit ← liftFault (leaveBlock i frame b)
    return (frame, exit)

theorem runBlocks_zero (current : Nat) (frame : Frame) (s : State) :
    runBlocks i caller f 0 current frame s = .error .stalled s := rfl

theorem runBlocks_succ (budget current : Nat) (frame : Frame) (s : State) :
    runBlocks i caller f (budget + 1) current frame s =
      match runBlock i caller f current frame s with
      | .ok (_, .leave value) s' => .ok value s'
      | .ok (frame', .goto target) s' => runBlocks i caller f budget target frame' s'
      | .error e s' => .error e s' := by
  conv_lhs => unfold runBlocks
  unfold runBlock
  cases f.block? current with
  | none => rfl
  | some b =>
    simp only [bind_apply]
    cases b.instructions.foldlM (stepInstruction i caller) frame s with
    | error e s' => rfl
    | ok frame' s' =>
      simp only
      cases leaveBlock i frame' b with
      | error e => rfl
      | ok exit => cases exit <;> rfl

variable {i caller f}

/-- A run that ends within a budget ends so within a larger one. -/
theorem runBlocks_of_le {n m current : Nat} {frame : Frame} {s : State} (h : n ≤ m)
    (hends : ∀ s', runBlocks i caller f n current frame s ≠ .error .stalled s') :
    runBlocks i caller f m current frame s = runBlocks i caller f n current frame s := by
  induction n generalizing m current frame s with
  | zero => exact absurd (runBlocks_zero ..) (hends s)
  | succ n ih =>
    obtain ⟨m, rfl⟩ : ∃ m', m = m' + 1 := ⟨m - 1, by omega⟩
    rw [runBlocks_succ] at hends
    rw [runBlocks_succ, runBlocks_succ]
    cases hrun : runBlock i caller f current frame s with
    | error e s'' => rfl
    | ok result s'' =>
      obtain ⟨frame', exit⟩ := result
      cases exit with
      | leave v => rfl
      | goto target =>
        rw [hrun] at hends
        exact ih (by omega) hends

theorem runBlocks_mono {n m current : Nat} {frame : Frame} {s s' : State} {value : Value}
    (h : n ≤ m) (hok : runBlocks i caller f n current frame s = .ok value s') :
    runBlocks i caller f m current frame s = .ok value s' := by
  rw [runBlocks_of_le h (by simp [hok]), hok]

/-- Where control goes from a block without instructions, if it goes on. -/
def hop (i : Image) (f : IrFunction) (frame : Frame) (current : Nat) : Option Nat :=
  match f.block? current with
  | none => none
  | some b =>
    if b.instructions.isEmpty then
      match leaveBlock i frame b with
      | .ok (.goto target) => some target
      | _ => none
    else none

theorem runBlock_of_isEmpty {b : Block} {current : Nat} (hb : f.block? current = some b)
    (hempty : b.instructions.isEmpty = true) (frame : Frame) (s : State) :
    runBlock i caller f current frame s =
      match leaveBlock i frame b with
      | .ok exit => .ok (frame, exit) s
      | .error e => .error e s := by
  rw [List.isEmpty_iff] at hempty
  simp only [runBlock, hb, hempty, List.foldlM_nil, pure_bind]
  cases leaveBlock i frame b <;> rfl

theorem runBlocks_of_hop {frame : Frame} {current target : Nat}
    (h : hop i f frame current = some target) (n : Nat) (s : State) :
    runBlocks i caller f (n + 1) current frame s = runBlocks i caller f n target frame s := by
  unfold hop at h
  cases hb : f.block? current with
  | none => simp [hb] at h
  | some b =>
    simp only [hb] at h
    split_ifs at h with hempty
    rw [runBlocks_succ, runBlock_of_isEmpty hb hempty]
    cases hexit : leaveBlock i frame b with
    | error e => simp [hexit] at h
    | ok exit =>
      cases exit with
      | leave v => simp [hexit] at h
      | goto t =>
        simp only [hexit, Option.some.injEq] at h
        rw [h]

/-- The block reached by `n` hops; it stays where no hop leads on. -/
def hops (i : Image) (f : IrFunction) (frame : Frame) (current n : Nat) : Nat :=
  (fun c => (hop i f frame c).getD c)^[n] current

theorem hops_succ (frame : Frame) (current n : Nat) :
    hops i f frame current (n + 1) =
      (hop i f frame (hops i f frame current n)).getD (hops i f frame current n) :=
  Function.iterate_succ_apply' _ _ _

theorem runBlocks_hops {frame : Frame} {current k : Nat}
    (h : ∀ j < k, (hop i f frame (hops i f frame current j)).isSome) (n : Nat) (s : State) :
    runBlocks i caller f (n + k) current frame s =
      runBlocks i caller f n (hops i f frame current k) frame s := by
  induction k generalizing n with
  | zero => rfl
  | succ k ih =>
    obtain ⟨target, htarget⟩ := Option.isSome_iff_exists.mp (h k (Nat.lt_succ_self k))
    have hk := ih (fun j hj => h j (by omega)) (n + 1)
    rw [show n + (k + 1) = n + 1 + k by omega, hk, runBlocks_of_hop htarget, hops_succ, htarget]
    rfl

/-- A block that is hopped from is a block of the function. -/
theorem mem_ids_of_hop {frame : Frame} {current : Nat} (h : (hop i f frame current).isSome) :
    current ∈ f.blocks.map (·.id) := by
  unfold hop at h
  cases hb : f.block? current with
  | none => simp [hb] at h
  | some b =>
    have hid : b.id = current := by simpa using List.find?_some hb
    exact List.mem_map.mpr ⟨b, List.mem_of_find?_eq_some hb, hid⟩

/-- Once there are more hops than blocks, some block came twice and hopping never ends. -/
theorem isSome_hop_of_le {frame : Frame} {current : Nat}
    (h : ∀ j ≤ f.blocks.length, (hop i f frame (hops i f frame current j)).isSome) (n : Nat) :
    (hop i f frame (hops i f frame current n)).isSome := by
  have hcard : (f.blocks.map (·.id)).toFinset.card < (Finset.range (f.blocks.length + 1)).card := by
    rw [Finset.card_range]
    exact Nat.lt_succ_of_le ((List.toFinset_card_le _).trans (by simp))
  obtain ⟨a, ha, b, hb, hne, heq⟩ := Finset.exists_ne_map_eq_of_card_lt_of_maps_to hcard
    (f := hops i f frame current) (fun j hj =>
      List.mem_toFinset.mpr (mem_ids_of_hop (h j (by
        have := Finset.mem_range.mp hj
        omega))))
  have hperiod (x y r : Nat) (hxy : hops i f frame current x = hops i f frame current y) :
      hops i f frame current (x + r) = hops i f frame current (y + r) := by
    induction r with
    | zero => exact hxy
    | succ r ih => rw [← Nat.add_assoc, ← Nat.add_assoc, hops_succ, hops_succ, ih]
  have hback : ∃ m ≤ f.blocks.length,
      hops i f frame current (f.blocks.length + 1) = hops i f frame current m := by
    have hal := Finset.mem_range.mp ha
    have hbl := Finset.mem_range.mp hb
    rcases Nat.lt_or_gt_of_ne hne with hlt | hlt
    · refine ⟨a + (f.blocks.length + 1 - b), by omega, ?_⟩
      rw [hperiod a b _ heq]
      congr 1
      omega
    · refine ⟨b + (f.blocks.length + 1 - a), by omega, ?_⟩
      rw [hperiod b a _ heq.symm]
      congr 1
      omega
  -- every block on the way is one of the first
  have hfirst : ∃ m ≤ f.blocks.length,
      hops i f frame current n = hops i f frame current m := by
    induction n with
    | zero => exact ⟨0, Nat.zero_le _, rfl⟩
    | succ n ih =>
      obtain ⟨m, hm, hnm⟩ := ih
      rcases Nat.lt_or_ge m f.blocks.length with hlt | hge
      · exact ⟨m + 1, hlt, hperiod n m 1 hnm⟩
      · obtain ⟨m', hm', heq'⟩ := hback
        have hmlen : m = f.blocks.length := by omega
        exact ⟨m', hm', (hperiod n m 1 hnm).trans (hmlen ▸ heq')⟩
  obtain ⟨m, hm, hnm⟩ := hfirst
  rw [hnm]
  exact h m hm

/-- A block that has instructions and does not fault takes a step. -/
theorem steps_lt_of_runBlock (hcaller : ∀ name args, Advances (caller name args)) {b : Block}
    {current : Nat} (hb : f.block? current = some b) (hne : b.instructions.isEmpty = false)
    {frame : Frame} {result : Frame × Exit} {s s' : State}
    (h : runBlock i caller f current frame s = .ok result s') :
    s.steps < maxSteps ∧ s.steps < s'.steps := by
  cases hinstr : b.instructions with
  | nil => simp [hinstr] at hne
  | cons first rest =>
    simp only [runBlock, hb, hinstr, List.foldlM_cons, bind_assoc] at h
    rw [bind_apply] at h
    cases hfirst : stepInstruction i caller frame first s with
    | error e s₁ =>
      rw [hfirst] at h
      cases h
    | ok frame₁ s₁ =>
      rw [hfirst] at h
      simp only at h
      have hlt := steps_lt_of_stepInstruction i hcaller hfirst
      have hrest : Advances (do
          let frame ← rest.foldlM (stepInstruction i caller) frame₁
          let exit ← liftFault (leaveBlock i frame b)
          return (frame, exit)) :=
        .bind (Advances.compositional.foldlM (advances_stepInstruction i hcaller) _ _) fun _ =>
          .bind (Advances.compositional.liftFault _) fun _ => .pure _
      have hle := hrest s₁
      rw [h] at hle
      refine ⟨?_, hlt.trans_le hle⟩
      rw [stepInstruction_eq] at hfirst
      split_ifs at hfirst
      omega

/-- A block from which no hop leads on ends the run or takes a step. -/
theorem runBlocks_of_hop_eq_none (hcaller : ∀ name args, Advances (caller name args))
    {frame : Frame} {current : Nat} (h : hop i f frame current = none) (s : State) :
    (∃ result, ∀ n, runBlocks i caller f (n + 1) current frame s = result) ∨
      ∃ target frame' s', s.steps < maxSteps ∧ s.steps < s'.steps ∧
        ∀ n, runBlocks i caller f (n + 1) current frame s =
          runBlocks i caller f n target frame' s' := by
  cases hrun : runBlock i caller f current frame s with
  | error e s' =>
    refine Or.inl ⟨.error e s', fun n => ?_⟩
    rw [runBlocks_succ, hrun]
  | ok result s' =>
    obtain ⟨frame', exit⟩ := result
    cases exit with
    | leave value =>
      refine Or.inl ⟨.ok value s', fun n => ?_⟩
      rw [runBlocks_succ, hrun]
    | goto target =>
      have hgoes (n : Nat) : runBlocks i caller f (n + 1) current frame s =
          runBlocks i caller f n target frame' s' := by
        rw [runBlocks_succ, hrun]
      cases hb : f.block? current with
      | none =>
        simp only [runBlock, hb] at hrun
        cases hrun
      | some b =>
        cases hempty : b.instructions.isEmpty with
        | false =>
          have hsteps := steps_lt_of_runBlock hcaller hb hempty hrun
          exact Or.inr ⟨target, frame', s', hsteps.1, hsteps.2, hgoes⟩
        | true =>
          rw [runBlock_of_isEmpty hb hempty] at hrun
          cases hexit : leaveBlock i frame b with
          | error e => simp [hexit] at hrun
          | ok exit =>
            obtain rfl : exit = .goto target := by
              simp only [hexit, EStateM.Result.ok.injEq, Prod.mk.injEq] at hrun
              exact hrun.1.2
            simp [hop, hb, hempty, hexit] at h

/-- With `left` steps left, any two budgets of as many rounds through all blocks agree. -/
theorem runBlocks_eq_runBlocks (hcaller : ∀ name args, Advances (caller name args))
    {left current n m : Nat} {frame : Frame} {s : State} (hleft : maxSteps < s.steps + left)
    (hn : (left + 1) * (f.blocks.length + 1) ≤ n) (hm : (left + 1) * (f.blocks.length + 1) ≤ m) :
    runBlocks i caller f n current frame s = runBlocks i caller f m current frame s := by
  induction left using Nat.strong_induction_on generalizing current n m frame s with | _ left ih
  by_cases hforever : ∀ j ≤ f.blocks.length, (hop i f frame (hops i f frame current j)).isSome
  · -- hopping never ends, and no budget is enough
    have hstall (budget : Nat) :
        runBlocks i caller f budget current frame s = .error .stalled s := by
      have h : runBlocks i caller f (0 + budget) current frame s =
          runBlocks i caller f 0 (hops i f frame current budget) frame s :=
        runBlocks_hops (fun j _ => isSome_hop_of_le hforever j) 0 s
      rwa [Nat.zero_add, runBlocks_zero] at h
    rw [hstall, hstall]
  · -- after `k` hops the run ends or takes a step
    push Not at hforever
    classical
    let k := Nat.find hforever
    obtain ⟨hk, hnone⟩ : k ≤ f.blocks.length ∧
        ¬ (hop i f frame (hops i f frame current k)).isSome := Nat.find_spec hforever
    have hsome (j : Nat) (hj : j < k) : (hop i f frame (hops i f frame current j)).isSome := by
      by_contra hne
      exact Nat.find_min hforever hj ⟨by omega, hne⟩
    have hround : f.blocks.length + 1 ≤ (left + 1) * (f.blocks.length + 1) :=
      Nat.le_mul_of_pos_left _ (Nat.succ_pos left)
    obtain ⟨n, rfl⟩ : ∃ n', n = n' + 1 + k := ⟨n - 1 - k, by omega⟩
    obtain ⟨m, rfl⟩ : ∃ m', m = m' + 1 + k := ⟨m - 1 - k, by omega⟩
    rw [runBlocks_hops hsome, runBlocks_hops hsome]
    rcases runBlocks_of_hop_eq_none hcaller (Option.not_isSome_iff_eq_none.mp hnone) s with
      ⟨result, hend⟩ | ⟨target, frame', s', hlimit, hstep, hgoes⟩
    · rw [hend, hend]
    · rw [hgoes, hgoes]
      cases left with
      | zero => omega
      | succ left =>
        rw [Nat.succ_mul] at hn hm
        exact ih left (Nat.lt_succ_self left) (by omega) (by omega) (by omega)

/-- The budget of an activation decides every run: a larger one changes nothing. -/
theorem runBlocks_blockBudget (hcaller : ∀ name args, Advances (caller name args)) {n : Nat}
    (hn : blockBudget f ≤ n) (current : Nat) (frame : Frame) (s : State) :
    runBlocks i caller f (blockBudget f) current frame s = runBlocks i caller f n current frame s :=
  runBlocks_eq_runBlocks hcaller (by omega) (le_refl _) hn

theorem advances_runBlocks (hcaller : ∀ name args, Advances (caller name args))
    (n current : Nat) (frame : Frame) : Advances (runBlocks i caller f n current frame) := by
  induction n generalizing current frame with
  | zero => exact .throw _
  | succ n ih =>
    unfold runBlocks
    cases f.block? current with
    | none => exact .throw _
    | some b =>
      refine .bind (Advances.compositional.foldlM (advances_stepInstruction i hcaller) _ _) fun frame' =>
        .bind (Advances.compositional.liftFault _) fun exit => ?_
      cases exit with
      | leave value => exact .pure value
      | goto target => exact ih target frame'

end Blocks

theorem Advances.restoringStack {α : Type} {act : RunM α} (h : Advances act) :
    Advances (restoringStack act) := by
  intro s
  have hs := h s
  revert hs
  unfold Machine.restoringStack
  cases act s <;> exact id

/-- No call takes a step back. -/
theorem advances_callFunction (i : Image) (depth : Nat) (name : String) (args : List Value) :
    Advances (callFunction i depth name args) := by
  induction depth generalizing name args with
  | zero =>
    unfold callFunction
    split
    · exact .throw _
    · simp only
      split_ifs <;> exact .throw _
  | succ depth ih =>
    unfold callFunction
    split
    · exact .throw _
    · simp only
      split_ifs
      · exact .throw _
      · exact .throw _
      · split
        · exact .throw _
        · exact .restoringStack (advances_runBlocks ih _ _ _)

end Machine
end UnitCompiler
