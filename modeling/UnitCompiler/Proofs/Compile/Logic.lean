import UnitCompiler.Proofs.Compile.Values

/-!
# Control flow of logical operators

The left operand of a logical operator is kept in a slot and decides whether the right one is
evaluated and takes its place there; the slot is read at the end.
-/

namespace UnitCompiler
open Machine

namespace FunctionBuilder

/-- The builder behind a left operand that has been put into a slot, with two more blocks. -/
def startLogic (b : FunctionBuilder) (left : Operand) : FunctionBuilder :=
  (((b.place (.alloca .i1 (b.layout.alignOf .i1)) (some (.ptr .i1))).place
    (.store left (.register b.nextValue) none false) none).addBlock "logic.rhs").addBlock "logic.end"

/-- Where the left operand of a logical operator leads: to the right operand or to the end. -/
def decideLogic (op : BinaryOp) (left : Operand) (rhs stop : Nat) : Terminator :=
  if op = .and then .condBr left rhs stop else .condBr left stop rhs

variable {b : FunctionBuilder}

theorem startLogic_run (hb : b.Sound) (ho : b.Open) (op : BinaryOp) (left : Operand) :
    (do
      let result ← alloca .i1
      store left result
      let rhsBlock ← createBlock "logic.rhs"
      let endBlock ← createBlock "logic.end"
      if op = .and then condBr left rhsBlock endBlock
      else condBr left endBlock rhsBlock
      switchTo rhsBlock
      return (result, endBlock) : BuildM (Operand × Nat)).run b =
    ((.register b.nextValue, b.nextBlock + 1),
      ((b.startLogic left).endWith
        (decideLogic op left b.nextBlock (b.nextBlock + 1))).moveTo b.nextBlock) := by
  have ho₁ := (open_place hb (.alloca .i1 (b.layout.alignOf .i1)) (some (.ptr .i1))).mpr ho
  have hb₁ := hb.place (.alloca .i1 (b.layout.alignOf .i1)) (some (.ptr .i1))
  have ho₂ := (open_place hb₁ (.store left (.register b.nextValue) none false) none).mpr ho₁
  have hb₂ := hb₁.place (.store left (.register b.nextValue) none false) none
  have ho₄ : (b.startLogic left).Open :=
    (open_addBlock (hb₂.addBlock _) _).mpr ((open_addBlock hb₂ _).mpr ho₂)
  rw [run_bind, alloca_run ho, run_bind, store_run ho₁, run_bind, createBlock_run, run_bind,
    createBlock_run]
  unfold decideLogic
  by_cases hop : op = .and
  · simp only [hop, if_true]
    rw [run_bind, condBr]
    erw [terminate_run ho₄]
    rfl
  · simp only [hop, if_false]
    rw [run_bind, condBr]
    erw [terminate_run ho₄]
    rfl

/-- What the start of a logical operator leaves behind: the end block is fresh, and so was the block of
the right operand. -/
theorem continues_startLogic (hb : b.Sound) (ho : b.Open) (op : BinaryOp) (left : Operand) :
    let b' := (b.startLogic left).endWith (decideLogic op left b.nextBlock (b.nextBlock + 1))
    Continues [b.current] b b' ∧ Fresh b' b.nextBlock ∧ Fresh b' (b.nextBlock + 1) := by
  intro b'
  have ho₁ := (open_place hb (.alloca .i1 (b.layout.alignOf .i1)) (some (.ptr .i1))).mpr ho
  have h₁ := (Continues.refl hb (List.mem_singleton_self _)).place ho
    (.alloca .i1 (b.layout.alignOf .i1)) (some (.ptr .i1))
  have ho₂ := (open_place h₁.sound (.store left (.register b.nextValue) none false) none).mpr ho₁
  have h₂ := h₁.place ho₁ (.store left (.register b.nextValue) none false) none
  have h₃ := h₂.addBlock "logic.rhs"
  have h₄ : Continues [b.current] b (b.startLogic left) := h₃.addBlock "logic.end"
  have ho₄ : (b.startLogic left).Open := (open_addBlock h₃.sound _).mpr ((open_addBlock h₂.sound _).mpr ho₂)
  have hend : Continues [b.current] (b.startLogic left) b' :=
    (Continues.refl h₄.sound (List.mem_singleton_self _)).endWith ho₄ _
  have hlt : b.current < b.nextBlock := hb.current_lt
  have hrhs : Fresh (b.startLogic left) b.nextBlock :=
    (Fresh.new h₂.sound "logic.rhs").addBlock h₃.sound "logic.end"
  have hstop : Fresh (b.startLogic left) (b.nextBlock + 1) := Fresh.new h₃.sound "logic.end"
  refine ⟨h₄.endWith ho₄ _, hrhs.continues hend ?_, hstop.continues hend ?_⟩
  · simpa using hlt.ne'
  · simpa using (hlt.trans (Nat.lt_succ_self _)).ne'

/-- The builder behind a right operand that has been put into the slot, in the end block. -/
def endLogic (b : FunctionBuilder) (right slot : Operand) (stop : Nat) : FunctionBuilder :=
  ((b.place (.store right slot none false) none).endWith (.br stop)).moveTo stop

theorem endLogic_run (hb : b.Sound) (ho : b.Open) {right slot : Operand} {stop : Nat}
    (hopen : (b.endLogic right slot stop).Open) :
    (do
      store right slot
      br stop
      switchTo stop
      load slot .i1 : BuildM Operand).run b =
    (.register (b.nextValue + 1),
      (b.endLogic right slot stop).place (.load slot none false) (some .i1)) := by
  have ho₁ := (open_place hb (.store right slot none false) none).mpr ho
  rw [run_bind, store_run ho, run_bind, br, terminate_run ho₁, run_bind, switchTo_run]
  exact load_run hopen slot rfl

theorem continues_endLogic (hb : b.Sound) (ho : b.Open) (right slot : Operand) (stop : Nat) :
    Continues [b.current] b ((b.place (.store right slot none false) none).endWith (.br stop)) :=
  ((Continues.refl hb (List.mem_singleton_self _)).place ho _ _).endWith
    ((open_place hb _ _).mpr ho) _

end FunctionBuilder

/-- A truth value is in the slot that was made where `b` stood, and no other memory has changed. -/
structure KeepsTruth (A : Activation) (b : FunctionBuilder) (hi : Nat) (frame : Machine.Frame)
    (m : Memory) (t : Bool) (C : Config) : Prop where
  frame : Agrees b.nextValue hi frame C.frame
  memory : Grows m C.state.memory
  cell : ∃ a, A.image.eval C.frame (.register b.nextValue) = .ok (.ptr a) ∧ m.size ≤ a ∧
    Holds C.state.memory a (.ofBool t)

section Logic

variable {A : Activation} {b : FunctionBuilder} {frame : Machine.Frame} {s : State} {left : Operand}
  {t : Bool}

/-- The left operand is kept in its slot and decides where to go on. -/
theorem leads_startLogic {op : BinaryOp} (hop : op = .and ∨ op = .or) (hb : b.Sound) (ho : b.Open)
    (hA : A.Has ((b.startLogic left).endWith
      (FunctionBuilder.decideLogic op left b.nextBlock (b.nextBlock + 1))))
    (hleft : Denotes A.image frame left (.ofBool t)) (hbelow : left.Below b.nextValue)
    (hbase : memoryBase ≤ s.memory.size) :
    A.Leads 0 ⟨b.here, frame, s⟩
      (fun C => C.point = ⟨if t = (op == .or) then b.nextBlock + 1 else b.nextBlock, 0⟩ ∧
        KeepsTruth A b (b.nextValue + 2) frame s.memory t C)
      (·.isLimit = true) := by
  let b₁ := b.place (.alloca .i1 (b.layout.alignOf .i1)) (some (.ptr .i1))
  let b₂ := b₁.place (.store left (.register b.nextValue) none false) none
  have hb₁ : b₁.Sound := hb.place _ _
  have hb₂ : b₂.Sound := hb₁.place _ _
  have hb₄ : (b.startLogic left).Sound := (hb₂.addBlock _).addBlock _
  have ho₁ : b₁.Open := (FunctionBuilder.open_place hb _ _).mpr ho
  have ho₂ : b₂.Open := (FunctionBuilder.open_place hb₁ _ _).mpr ho₁
  have ho₃ := (FunctionBuilder.open_addBlock hb₂ "logic.rhs").mpr ho₂
  have ho₄ : (b.startLogic left).Open :=
    (FunctionBuilder.open_addBlock (hb₂.addBlock _) _).mpr ho₃
  have hhere : (b.startLogic left).here = b₂.here :=
    (FunctionBuilder.here_addBlock (hb₂.addBlock _) _).trans (FunctionBuilder.here_addBlock hb₂ _)
  have hA₄ : A.Has (b.startLogic left) := hA.of_continues
    ((FunctionBuilder.Continues.refl hb₄ (List.mem_singleton_self _)).endWith ho₄ _)
  have hA₂ : A.Has b₂ := hA₄.of_continues
    (((FunctionBuilder.Continues.refl hb₂ (List.mem_singleton_self _)).addBlock _).addBlock _)
  have hA₁ : A.Has b₁ := hA₂.of_continues
    ((FunctionBuilder.Continues.refl hb₁ (List.mem_singleton_self _)).place ho₁ _ _)
  have halign : b.layout.alignOf .i1 ≤ memoryLimit := alignOf_machineType_le b.layout .bool
  refine (leads_alloca (k := .bool) hb rfl halign hA₁ hbase).andThen fun C₁ h₁ => ?_
  obtain ⟨point₁, frame₁, s₁⟩ := C₁
  obtain rfl : point₁ = b₁.here := h₁.point
  obtain ⟨a, ha, hle, hholds⟩ := h₁.cell
  have hleft₁ := h₁.frame.denotes hleft hbelow
  refine (leads_store (x := .ofBool t) hb₁ hA₂ hleft₁ ha hholds.access).andThen fun C₂ h₂ => ?_
  obtain ⟨point₂, frame₂, s₂⟩ := C₂
  obtain rfl : point₂ = b₂.here := h₂.point
  obtain rfl : frame₂ = frame₁ := h₂.frame
  have hkeeps (p : Point) :
      KeepsTruth A b (b.nextValue + 2) frame s.memory t ⟨p, frame₂, s₂⟩ :=
    ⟨h₁.frame.mono (le_refl _) (Nat.le_succ _), h₂.grows h₁.memory hle, a, ha, hle, h₂.cell⟩
  have hpos := hb.nextBlock_pos
  rw [← hhere]
  unfold FunctionBuilder.decideLogic at hA
  rcases hop with rfl | rfl
  · refine (leads_branch hb₄ hA hpos.ne' (Nat.succ_ne_zero _) hleft₁ ?_).mono (Nat.zero_le _)
      (fun _ => id) fun _ => id
    refine ⟨?_, hkeeps _⟩
    cases t <;> rfl
  · refine (leads_branch hb₄ hA (Nat.succ_ne_zero _) hpos.ne' hleft₁ ?_).mono (Nat.zero_le _)
      (fun _ => id) fun _ => id
    refine ⟨?_, hkeeps _⟩
    cases t <;> rfl

/-- The right operand is kept in the slot of the left one. -/
theorem leads_endLogic {b' : FunctionBuilder} {right : Operand} {t' : Bool} {m : Memory}
    {frame' : Machine.Frame} {p : Point} {stop : Nat} (hb : b'.Sound) (ho : b'.Open)
    (hstop : stop ≠ 0) (hA : A.Has (b'.endLogic right (.register b.nextValue) stop))
    (hright : Denotes A.image frame' right (.ofBool t'))
    (h : KeepsTruth A b b'.nextValue frame m t ⟨p, frame', s⟩) :
    A.Leads 0 ⟨b'.here, frame', s⟩
      (fun C => C.point = ⟨stop, 0⟩ ∧ KeepsTruth A b (b'.nextValue + 1) frame m t' C)
      (·.isLimit = true) := by
  obtain ⟨a, ha, hle, hholds⟩ := h.cell
  have hb₁ := hb.place (.store right (.register b.nextValue) none false) none
  have ho₁ := (FunctionBuilder.open_place hb
    (.store right (.register b.nextValue) none false) none).mpr ho
  have hA₁ := (Activation.Has.of_moveTo hA).of_continues
    ((FunctionBuilder.Continues.refl hb₁ (List.mem_singleton_self _)).endWith ho₁ (.br stop))
  refine (leads_store hb hA₁ hright ha hholds.access).andThen fun C hC => ?_
  obtain ⟨point, frame₁, s₁⟩ := C
  cases hC.point
  cases hC.frame
  refine (leads_jump hb₁ hA hstop ?_).mono (Nat.zero_le _) (fun _ => id) fun _ => id
  exact ⟨rfl, h.frame.mono (le_refl _) (Nat.le_succ _), hC.grows h.memory hle, a, ha, hle, hC.cell⟩

/-- Computing another value leaves the slot alone. -/
theorem KeepsTruth.delivers {b₁ b₂ : FunctionBuilder} {m : Memory} {C C' : Config} {o : Operand}
    {k : Scalar} {x : IntValue} (h : KeepsTruth A b (b.nextValue + 2) frame m t C)
    (hb₁ : b₁.nextValue = b.nextValue + 2) (hle : b.nextValue + 2 ≤ b₂.nextValue)
    (hC : Delivers A b₁ b₂ o k C.frame C.state.memory x C') :
    KeepsTruth A b b₂.nextValue frame m t C' := by
  obtain ⟨a, ha, hsize, hholds⟩ := h.cell
  refine ⟨h.frame.trans hC.frame (by omega) hle, h.memory.trans hC.memory, a, ?_, hsize,
    hC.memory.holds hholds⟩
  refine (hC.frame.eval A.image ?_).trans ha
  rintro r hr
  cases hr
  exact Or.inl (by omega)

/-- A slot that is read where a run has come to. -/
theorem KeepsTruth.computes {b' : FunctionBuilder} {C : Config}
    (h : KeepsTruth A b b'.nextValue frame s.memory t C) (hb : b'.Sound)
    (hpoint : C.point = b'.here) (hle : b.nextValue ≤ b'.nextValue)
    (hA : A.Has (b'.place (.load (.register b.nextValue) none false) (some .i1))) :
    A.Leads 0 C
      (Delivers A b (b'.place (.load (.register b.nextValue) none false) (some .i1))
        (.register b'.nextValue) .bool frame s.memory (.ofBool t))
      (·.isLimit = true) := by
  obtain ⟨a, ha, -, hholds⟩ := h.cell
  obtain ⟨point, frame', s'⟩ := C
  obtain rfl : point = b'.here := hpoint
  have hload := Computes.place (k := .bool) (v := some (.ofBool t)) hb hA
    (by
      rintro x hx
      cases hx
      exact ⟨IntValue.wellFormed_ofBool t, rfl⟩)
    (perform_load A.caller { s' with steps := s'.steps + 1 } ha hholds)
  refine Activation.Leads.imp hload fun C' hC' => ?_
  exact ⟨hC'.point, h.frame.trans hC'.frame hle (Nat.le_succ _), h.memory.trans hC'.memory, rfl,
    hC'.value⟩

end Logic

end UnitCompiler
