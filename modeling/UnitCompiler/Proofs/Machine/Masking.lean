import UnitCompiler.Proofs.Machine.Loading
import UnitCompiler.Proofs.Machine.StackDiscipline

/-!
# Masked integers

An integer carries the width it was computed in, and its word stays below two to that width whatever the
program does: no operation asks whether the types that a program gives to its operands and results fit
each other, so none may rely on it.  Comparisons, unsigned divisions and shifts read words as they stand.
-/

namespace UnitCompiler
namespace Machine

attribute [local instance (high)] instPowNat

open Relation (ReflTransGen)

/-- The integers in the value, however deep inside, are below two to their widths. -/
inductive Value.IsMasked : Value → Prop
  | void : IsMasked .void
  | int {word bits : Nat} : word < 2 ^ bits → IsMasked (.int word bits)
  | float (x : Double) : IsMasked (.float x)
  | ptr (address : Nat) : IsMasked (.ptr address)
  | aggregate {items : List Value} : (∀ item ∈ items, IsMasked item) → IsMasked (.aggregate items)

theorem modulus_le (bits : Nat) : Word.modulus bits ≤ 2 ^ bits :=
  Nat.pow_le_pow_right (by decide) (min_le_left _ _)

namespace Value

theorem IsReduced.isMasked {v : Value} (h : v.IsReduced) : v.IsMasked := by
  induction h with
  | void => exact .void
  | int hlt => exact .int (hlt.trans_le (modulus_le _))
  | float x => exact .float x
  | ptr => exact .ptr _
  | aggregate _ ih => exact .aggregate ih

theorem isMasked_mask (bits word : Nat) : IsMasked (.int (Word.mask bits word) bits) :=
  .int ((Word.mask_lt bits word).trans_le (modulus_le bits))

theorem isMasked_ofInt (value : Int) (bits : Nat) : IsMasked (.ofInt value bits) :=
  .int ((Word.ofInt_lt bits value).trans_le (modulus_le bits))

theorem isMasked_ofBool (value : Bool) : IsMasked (.ofBool value) := by
  cases value <;> exact .int (by decide)

end Value

/-! ### Results -/

/-- What the computation comes to, if it comes to anything, has the property. -/
def Yields {α : Type} (p : α → Prop) (x : Except Fault α) : Prop := ∀ a, x = .ok a → p a

namespace Yields

variable {α β : Type} {p : α → Prop} {q : β → Prop}

theorem ok {a : α} (h : p a) : Yields p (.ok a) := by
  rintro _ ⟨⟩
  exact h

theorem error (e : Fault) : Yields p (.error e) := nofun

theorem bind {x : Except Fault α} {next : α → Except Fault β} (h : Yields p x)
    (hnext : ∀ a, p a → Yields q (next a)) : Yields q (x >>= next) := by
  cases x with
  | error e => exact error e
  | ok a => exact hnext a (h a rfl)

/-- Whatever the first computation comes to, the second one comes to what has the property. -/
theorem after {x : Except Fault α} {next : α → Except Fault β} (hnext : ∀ a, Yields q (next a)) :
    Yields q (x >>= next) :=
  bind (p := fun _ => True) (fun _ _ => trivial) fun a _ => hnext a

theorem map {x : Except Fault α} {f : α → β} (h : Yields p x) (hf : ∀ a, p a → q (f a)) :
    Yields q (x.map f) := by
  cases x with
  | error e => exact error e
  | ok a => exact ok (hf a (h a rfl))

end Yields

/-- What the action returns, if it returns, has the property. -/
def Returns {σ α : Type} (p : α → Prop) (act : EStateM Fault σ α) : Prop := ∀ s s' a, act s = .ok a s' → p a

namespace Returns

variable {σ α β : Type} {p : α → Prop} {q : β → Prop}

theorem pure {a : α} (h : p a) : Returns p (Pure.pure a : EStateM Fault σ α) := by
  rintro s s' _ ⟨⟩
  exact h

theorem throw (e : Fault) : Returns p (MonadExcept.throw e : EStateM Fault σ α) := nofun

theorem bind {act : EStateM Fault σ α} {next : α → EStateM Fault σ β} (h : Returns p act)
    (hnext : ∀ a, p a → Returns q (next a)) : Returns q (act >>= next) := by
  intro s s' b hrun
  change EStateM.bind act next s = _ at hrun
  rw [EStateM.bind] at hrun
  cases hact : act s with
  | error e s₁ =>
    rw [hact] at hrun
    cases hrun
  | ok a s₁ =>
    rw [hact] at hrun
    exact hnext a (h s s₁ a hact) s₁ s' b hrun

/-- Whatever the first action returns, the second one returns what has the property. -/
theorem after {act : EStateM Fault σ α} {next : α → EStateM Fault σ β} (hnext : ∀ a, Returns q (next a)) :
    Returns q (act >>= next) :=
  bind (p := fun _ => True) (fun _ _ _ _ => trivial) fun a _ => hnext a

theorem liftFault {x : Except Fault α} (h : Yields p x) : Returns p (Machine.liftFault x) := by
  cases x with
  | error e => exact throw e
  | ok a => exact pure (h a rfl)

theorem onMemory {act : EStateM Fault Memory α} (h : Returns p act) : Returns p (Machine.onMemory act) := by
  intro s s' a hrun
  rw [Machine.onMemory] at hrun
  cases hact : act s.memory with
  | error e m =>
    rw [hact] at hrun
    cases hrun
  | ok b m =>
    rw [hact] at hrun
    cases hrun
    exact h _ m a hact

end Returns

/-! ### Operations on values -/

/-- Whatever the width of the other operand, the result is reduced to that of the left one. -/
theorem integerArith_lt (op : ArithOp) (bits x y : Nat) :
    Yields (fun word => word < 2 ^ bits) (integerArith op bits x y) := by
  have hmask (n : Nat) : Word.mask bits n < 2 ^ bits := (Word.mask_lt bits n).trans_le (modulus_le bits)
  have hofInt (n : Int) : Word.ofInt bits n < 2 ^ bits := (Word.ofInt_lt bits n).trans_le (modulus_le bits)
  cases op with
  | add | mul | and | or | xor | shl | lshr => exact .ok (hmask _)
  | sub | shr => exact .ok (hofInt _)
  | udiv | urem =>
    simp only [integerArith]
    split
    · exact .error _
    · exact .ok (hmask _)
  | div | rem =>
    simp only [integerArith]
    split
    · exact .error _
    split
    · exact .error _
    · exact .ok (hofInt _)

theorem isMasked_arith (op : ArithOp) (lhs rhs : Operand) (a b : Value) (type : IrType) :
    Yields Value.IsMasked (arith op lhs rhs a b type) := by
  unfold arith
  split
  · split
    · exact .ok (.float _)
    · exact .error _
  · exact (integerArith_lt op _ _ _).map fun word hlt => .int hlt
  · exact .error _

theorem isMasked_compareValues (op : CompareOp) (a b : Value) :
    Yields Value.IsMasked (compareValues op a b) := by
  unfold compareValues
  split
  · split <;> exact .ok (Value.isMasked_ofBool _)
  · split_ifs <;> exact .ok (Value.isMasked_ofBool _)
  · exact .ok (Value.isMasked_ofBool _)
  · exact .error _

theorem isMasked_convertValue (op : ConvertOp) {v : Value} (hv : v.IsMasked) (type : IrType) :
    Yields Value.IsMasked (convertValue op v type) := by
  cases op with
  | trunc | zext =>
    simp only [convertValue]
    split
    · exact .ok (Value.isMasked_mask _ _)
    · exact .error _
  | sext | fptosi =>
    simp only [convertValue]
    split
    · exact .ok (Value.isMasked_ofInt _ _)
    · exact .error _
  | fptrunc | fpext | sitofp => exact .ok (.float _)
  | bitcast => exact .ok hv

theorem Value.IsMasked.item {items : List Value} (h : IsMasked (.aggregate items)) {index : Nat} {item : Value}
    (hitem : items[index]? = some item) : item.IsMasked := by
  cases h with
  | aggregate h => exact h item (List.mem_of_getElem? hitem)

theorem isMasked_extractAt {v : Value} (hv : v.IsMasked) (path : List Nat) :
    Yields Value.IsMasked (extractAt v path) := by
  induction path generalizing v with
  | nil => exact .ok hv
  | cons index path ih =>
    unfold extractAt
    split
    · split
      next item hitem => exact ih (hv.item hitem)
      next => exact .error _
    · exact .error _

theorem isMasked_insertAt {v element : Value} (hv : v.IsMasked) (helement : element.IsMasked)
    (path : List Nat) : Yields Value.IsMasked (insertAt v element path) := by
  induction path generalizing v with
  | nil => exact .ok helement
  | cons index path ih =>
    unfold insertAt
    split
    next items =>
      split
      next item hitem =>
        refine (ih (hv.item hitem)).bind fun item' hitem' => .ok (.aggregate fun other hother => ?_)
        cases hv with
        | aggregate hitems =>
          obtain hmem | rfl := List.mem_or_eq_of_mem_set hother
          · exact hitems other hmem
          · exact hitem'
      next => exact .error _
    · exact .error _

/-! ### Memory -/

namespace Memory

theorem isMasked_loadInt (m : Memory) (address bits bytes : Nat) :
    Yields Value.IsMasked (m.loadInt address bits bytes) :=
  .after fun _ => .ok (Value.isMasked_mask _ _)

/-- What is loaded is masked, whatever the bytes are: integers are reduced to the width of the type, piece
by piece. -/
theorem isMasked_load (m : Memory) (address : Nat) (type : IrType) :
    Yields Value.IsMasked (m.load address type) := by
  induction type using IrType.pieces_induction generalizing address with
  | step type ih =>
    cases haggregate : type.isAggregate with
    | true =>
      intro v hv
      obtain ⟨items, rfl, hitems⟩ := (load_eq_ok_iff haggregate).mp hv
      refine .aggregate fun item hitem => ?_
      obtain ⟨n, hn, rfl⟩ := List.getElem_of_mem hitem
      have hpiece : n < type.pieces.length := hitems.length_eq ▸ hn
      exact ih _ (List.getElem_mem hpiece) _ _ ((List.forall₂_iff_get.mp hitems).2 n hpiece hn)
    | false =>
      cases type with
      | i1 | i8 | i16 | i32 | i64 | i128 => exact isMasked_loadInt m address _ _
      | f32 | f64 => exact .after fun _ => .ok (.float _)
      | ptr _ | function _ _ _ => exact .after fun _ => .ok (.ptr _)
      | f16 | bf16 | f128 => exact .error _
      | void => exact .ok .void
      | array _ _ | vector _ _ | struct _ _ _ => cases haggregate

end Memory

/-- A reinterpretation keeps an address or loads the bytes that it has stored. -/
theorem isMasked_bitcast (v : Value) (source target : IrType) :
    Returns Value.IsMasked (bitcast v source target) := by
  unfold bitcast
  dsimp only
  split
  · exact .pure (.ptr _)
  · exact .pure (.ptr _)
  · split
    · exact .bind (p := fun _ => False) (.throw _) nofun
    · refine .after fun _ => .after fun address => .after fun _ => .after fun m => .after fun _ => ?_
      cases hload : m.load address target with
      | ok w => exact .pure (m.isMasked_load address target w hload)
      | error e => exact .throw e

theorem isMasked_elementAddress (i : Image) (frame : Frame) (base : Operand) (indices : List Operand) :
    Yields Value.IsMasked (elementAddress i frame base indices) := by
  refine .after fun baseType => .after fun address => ?_
  split
  · exact .error _
  · cases indices with
    | nil => exact .ok (.ptr _)
    | cons first rest => exact .after fun _ => .after fun _ => .ok (.ptr _)

/-! ### Frames -/

/-- The arguments and the registers of the activation are masked. -/
structure Frame.IsMasked (frame : Frame) : Prop where
  args : ∀ v ∈ frame.args, v.IsMasked
  registers : ∀ (id : Nat) (r : Register), frame.registers[id]? = some r → Value.IsMasked r.value

theorem Frame.IsMasked.keep {frame : Frame} (h : frame.IsMasked) (instruction : Instruction) {v : Value}
    (hv : v.IsMasked) : (frame.keep instruction v).IsMasked := by
  unfold Frame.keep
  dsimp only
  split_ifs
  · exact h
  · refine ⟨h.args, fun id r hr => ?_⟩
    rw [Std.HashMap.getElem?_insert] at hr
    split_ifs at hr
    · cases hr
      exact hv
    · exact h.registers id r hr

section Operands

variable {i : Image} {frame : Frame} (hframe : frame.IsMasked)

include hframe

/-- An operand is an argument, a register, an address, or a constant that is reduced when it is read. -/
theorem isMasked_eval (operand : Operand) : Yields Value.IsMasked (i.eval frame operand) := by
  cases operand with
  | register id =>
    unfold Image.eval
    dsimp only
    split
    next r hr => exact .ok (hframe.registers id r hr)
    next => exact .error _
  | argument index =>
    unfold Image.eval
    dsimp only
    split
    next v hv => exact .ok (hframe.args v (List.mem_of_getElem? hv))
    next => exact .error _
  | constant value => exact fun v hv => (isReduced_constantValue value hv).isMasked
  | global _ _ | function _ =>
    unfold Image.eval
    dsimp only
    split
    · exact .ok (.ptr _)
    · exact .error _
  | undef type => exact .ok (isReduced_zero type).isMasked
  | null _ => exact .ok (.ptr 0)

theorem isMasked_mapM_eval (operands : List Operand) {values : List Value}
    (h : operands.mapM (i.eval frame) = .ok values) : ∀ v ∈ values, v.IsMasked := by
  have hvalues := Memory.mapM_eq_ok_iff.mp h
  intro v hv
  obtain ⟨n, hn, rfl⟩ := List.getElem_of_mem hv
  have hoperand : n < operands.length := hvalues.length_eq ▸ hn
  exact isMasked_eval hframe _ _ ((List.forall₂_iff_get.mp hvalues).2 n hoperand hn)

/-- The result of an operation is masked, whatever type the program gives it. -/
theorem isMasked_perform (type : IrType) (operation : Operation) :
    Returns Value.IsMasked (perform i idle frame type operation) := by
  have heval (operand : Operand) : Returns Value.IsMasked (liftFault (i.eval frame operand)) :=
    .liftFault (isMasked_eval hframe operand)
  cases operation with
  | arith op lhs rhs => exact .after fun a => .after fun b => .liftFault (isMasked_arith op lhs rhs a b type)
  | compare op lhs rhs => exact .after fun a => .after fun b => .liftFault (isMasked_compareValues op a b)
  | neg value =>
    refine .after fun v => ?_
    cases v with
    | int word bits => exact .pure (Value.isMasked_ofInt _ _)
    | float x => exact .pure (.float _)
    | void | ptr _ | aggregate _ => exact .throw _
  | not value =>
    refine .after fun v => ?_
    cases v with
    | int word bits => exact .pure (Value.isMasked_ofInt _ _)
    | void | float _ | ptr _ | aggregate _ => exact .throw _
  | load address align isVolatile =>
    exact .after fun a => .after fun s => .liftFault (s.memory.isMasked_load a type)
  | store value address align isVolatile =>
    exact .after fun _ => .after fun _ => .after fun _ => .after fun _ => .pure .void
  | alloca slot align => exact .after fun a => .after fun _ => .pure (.ptr a)
  | elementPtr base indices inbounds => exact .liftFault (isMasked_elementAddress i frame base indices)
  | ptrToInt value => exact .after fun _ => .pure (Value.isMasked_ofInt _ _)
  | intToPtr value => exact .after fun _ => .pure (.ptr _)
  | convert op value target =>
    cases op with
    | bitcast => exact .after fun source => .after fun v => .onMemory (isMasked_bitcast v source target)
    | trunc | zext | sext | fptrunc | fpext | fptosi | sitofp =>
      exact (heval value).bind fun v hv => .liftFault (isMasked_convertValue _ hv target)
  | extract aggregate indices =>
    exact (heval aggregate).bind fun v hv => .liftFault (isMasked_extractAt hv indices)
  | insert aggregate element indices =>
    exact (heval aggregate).bind fun v hv => (heval element).bind fun e he =>
      .liftFault (isMasked_insertAt hv he indices)
  | call callee args convention isTail =>
    have hidle (name : String) : Returns Value.IsMasked (do
        let values ← args.mapM fun arg => liftFault (i.eval frame arg)
        idle name values) := .after fun _ => .pure .void
    cases callee with
    | function name => exact .after hidle
    | register _ | constant _ | global _ _ | argument _ | undef _ | null _ =>
      exact .after fun _ => .after hidle

theorem isMasked_leaveBlock (b : Block) :
    Yields (fun exit => ∀ v, exit = .leave v → v.IsMasked) (leaveBlock i frame b) := by
  unfold leaveBlock
  match b.terminator with
  | some (.ret (some value)) =>
    refine (isMasked_eval hframe value).map fun v hv w hw => ?_
    cases hw
    exact hv
  | some (.ret none) =>
    refine .ok fun w hw => ?_
    cases hw
    exact .void
  | some (.condBr condition _ _) => exact .after fun _ => .ok nofun
  | some (.br _) => exact .ok nofun
  | some .unreachable | none => exact .error _

end Operands

theorem isMasked_of_calls {i : Image} {frame : Frame} (hframe : frame.IsMasked) {operation : Operation}
    {name : String} {values : List Value} (h : Calls i frame operation name values) :
    ∀ v ∈ values, v.IsMasked := by
  cases h with
  | direct h | indirect _ _ _ h => exact isMasked_mapM_eval hframe _ h

/-! ### Runs -/

/-- The arguments of the call about to be made, those and the registers of all activations, and the value
that a call has returned are masked. -/
structure Moment.IsMasked (c : Moment) : Prop where
  levels : ∀ level ∈ c.levels, level.frame.IsMasked
  calling : ∀ r below, c = .calling r below → ∀ v ∈ r.args, v.IsMasked
  finished : ∀ v s below, c = .finished (.ok v s) below → v.IsMasked

section Steps

variable {i : Image} {c c' : Moment}

theorem Step.isMasked (h : Step i c c') (hc : c.IsMasked) : c'.IsMasked := by
  obtain ⟨hlevels, hcalling, hfinished⟩ := hc
  cases h with
  | @enter r e below hadmits =>
    obtain ⟨b, -, hplace⟩ := hadmits.place
    refine ⟨List.forall_mem_cons.mpr ⟨?_, hlevels⟩, nofun, nofun⟩
    change e.place.frame.IsMasked
    rw [hplace]
    exact ⟨hcalling r below rfl, fun id register hregister => by simp [Place.start] at hregister⟩
  | refuse => exact ⟨hlevels, nofun, nofun⟩
  | @execute top below s s' instruction rest v hrest hlimit hnone h =>
    obtain ⟨htop, hbelow⟩ := List.forall_mem_cons.mp hlevels
    have hv := isMasked_perform htop _ _ _ _ _ h
    exact ⟨List.forall_mem_cons.mpr ⟨htop.keep instruction hv, hbelow⟩, nofun, nofun⟩
  | @call top below s instruction rest name values hrest hlimit h =>
    obtain ⟨htop, -⟩ := List.forall_mem_cons.mp hlevels
    refine ⟨hlevels, fun r below' heq => ?_, nofun⟩
    cases heq
    exact isMasked_of_calls htop h
  | @resume level below s instruction rest v hrest =>
    obtain ⟨htop, hbelow⟩ := List.forall_mem_cons.mp hlevels
    have hv := hfinished v s _ rfl
    exact ⟨List.forall_mem_cons.mpr ⟨htop.keep instruction hv, hbelow⟩, nofun, nofun⟩
  | @leave top below s v hrest h =>
    obtain ⟨htop, hbelow⟩ := List.forall_mem_cons.mp hlevels
    refine ⟨hbelow, nofun, fun w s' below' heq => ?_⟩
    cases heq
    exact isMasked_leaveBlock htop _ _ h _ rfl
  | jump =>
    obtain ⟨htop, hbelow⟩ := List.forall_mem_cons.mp hlevels
    exact ⟨List.forall_mem_cons.mpr ⟨htop, hbelow⟩, nofun, nofun⟩
  | unwind | fault | blocked | lost | stall | limit =>
    exact ⟨(List.forall_mem_cons.mp hlevels).2, nofun, nofun⟩

theorem Moment.IsMasked.steps (hc : c.IsMasked) (h : Steps i c c') : c'.IsMasked := by
  induction h with
  | refl => exact hc
  | tail _ hstep ih => exact hstep.isMasked ih

theorem Request.isMasked {r : Request} (h : ∀ v ∈ r.args, v.IsMasked) :
    (Moment.calling r []).IsMasked := by
  refine ⟨List.forall_mem_nil _, fun r' below heq => ?_, nofun⟩
  cases heq
  exact h

end Steps

namespace Session

/-- A session may hold any bytes, whatever has been run in it and stored before.  When a function is called
with masked arguments, all values are masked at every moment of the run: the arguments and the registers of
all activations, and what they return.  So is the value that comes of the call, and whatever is loaded. -/
theorem run_isMasked (session : Session) (name : String) {args : List Value} (hargs : ∀ v ∈ args, v.IsMasked) :
    (∀ c, Steps session.image (.calling (session.request name args) []) c → c.IsMasked) ∧
    (∀ v, (session.run name args).1 = .ok v → v.IsMasked) ∧
    ∀ address type v, (session.run name args).2.load address type = .ok v → v.IsMasked := by
  have hstart := Request.isMasked (r := session.request name args) hargs
  refine ⟨fun c hsteps => hstart.steps hsteps, fun v hv => ?_, fun address type => ?_⟩
  · have hend := hstart.steps (steps_run (i := session.image) (session.request name args) [])
    obtain ⟨s, hs⟩ : ∃ s, (session.request name args).run session.image = .ok v s := by
      unfold run at hv
      change ∃ s, callFunction session.image maxCallDepth name args session.state = .ok v s
      generalize callFunction session.image maxCallDepth name args session.state = result at hv
      cases result with
      | error e s => cases hv
      | ok w s =>
        cases hv
        exact ⟨s, rfl⟩
    exact hend.finished v s [] (hs ▸ rfl)
  · exact Memory.isMasked_load _ address type

/-- A function that adds a word of 32 bits to its argument, which it takes for one of 64 bits. -/
def widening : IrFunction where
  name := "widen"
  signature := ⟨[.i64], .i64, false⟩
  blocks := [{
    id := 0
    instructions := [⟨0, .arith .add (.argument 0) (.constant (.int 300 .i32)), some .i64⟩]
    terminator := some (.ret (some (.register 0))) }]

/-- A byte stays a byte: the sum is 500, of which 244 is left. -/
theorem run_isMasked_widening : (∀ v ∈ [Value.int 200 8], v.IsMasked) ∧
    ∃ session, boot { functions := [widening] } = .ok session ∧
      (session.run "widen" [.int 200 8]).1 = .ok (.int 244 8) ∧ (Value.int 244 8).IsMasked := by
  have hargs : ∀ v ∈ [Value.int 200 8], v.IsMasked := by
    rintro v hv
    obtain rfl := List.mem_singleton.mp hv
    exact .int (by decide)
  obtain ⟨session, hboot⟩ : ∃ session, boot { functions := [widening] } = .ok session := ⟨_, rfl⟩
  have hrun : (session.run "widen" [.int 200 8]).1 = .ok (.int 244 8) := by
    cases hboot
    cbv
  exact ⟨hargs, session, hboot, hrun, (run_isMasked session "widen" hargs).2.1 _ hrun⟩

end Session

end Machine
end UnitCompiler
