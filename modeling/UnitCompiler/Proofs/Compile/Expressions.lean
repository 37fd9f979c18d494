import UnitCompiler.Proofs.Compile.Constants
import UnitCompiler.Proofs.Compile.Logic
import UnitCompiler.Proofs.Compile.Variables

/-!
# Emission of integer expressions

The code that is emitted for an integer expression computes its value from the values of its variables,
wherever in a function it stands.
-/

namespace UnitCompiler
open Machine

/-- The value of an expression where its variables have values. -/
def Means (c : Context) (e : IntExpr) :
    Activation → Machine.Frame → State → Option IntValue → Prop :=
  fun A frame s v => memoryBase ≤ s.memory.size ∧
    ∃ ρ, Provides c A frame s.memory ρ e.vars ∧ v = e.eval ρ

/-- The truth of an expression where its variables have values. -/
def MeansTruth (c : Context) (e : IntExpr) :
    Activation → Machine.Frame → State → Option IntValue → Prop :=
  fun A frame s v => memoryBase ≤ s.memory.size ∧
    ∃ ρ, Provides c A frame s.memory ρ e.vars ∧
      v = (e.eval ρ).map fun x => .ofBool x.truth

/-- What the emission of an expression establishes. -/
def Emitted (c c' : Context) (b : FunctionBuilder) (e : IntExpr) (value : Rvalue) : Prop :=
  ∃ k b', value.type = .scalar k ∧ Emits c c' b b' value.operand k (Means c e)

namespace CompileM

variable {p : Performer} {c c' : Context} {b : FunctionBuilder} {id : NodeId} {location : Location}
  {e : IntExpr}

/-- An expression that is an operand at compile time. -/
theorem emitted_constant (hr : Ready c b) {k : Scalar} (hk : k.isInteger = true) {o : Operand}
    {x : IntValue} (hkind : x.kind = k) (hbelow : o.Below b.nextValue)
    (hx : ∀ i frame, Denotes i frame o x) (heval : ∀ ρ, e.eval ρ = some x) :
    Emitted c c b e ⟨.scalar k, o⟩ := by
  refine ⟨k, b, rfl, .refl hr, hbelow, hk, ?_⟩
  rintro A frame s v - ⟨-, ρ, -, rfl⟩
  rw [heval]
  exact .refl (hx _ _) hkind

theorem isInteger_forLiteral (v : Int) : (Scalar.forLiteral v).isInteger = true := by
  unfold Scalar.forLiteral
  split_ifs <;> rfl

/-- A literal is folded where it stands. -/
theorem emitLiteral_spec {d : Nat} {value : ConstValue} {result : Rvalue} (hat : e.At c.tree id)
    (hclosed : e.vars = []) (hfold : e.fold = .ok (some value))
    (h : (do emitConst (← foldRequired id "a literal")) (performWithin d) c = .ok result c') :
    emitConst value (performWithin d) c = .ok result c' := by
  obtain ⟨v, c₁, hv, hconst⟩ := bind_eq_ok.mp h
  obtain ⟨w, c₂, hrun, hmatch⟩ := bind_eq_ok.mp hv
  obtain ⟨hw, rfl⟩ := fold_spec hat hclosed hrun
  cases hfold.symm.trans hw
  cases hmatch
  exact hconst

/-- The emission of an expression is right wherever the expression stands. -/
def Works (e : IntExpr) : Prop :=
  ∀ {id : NodeId} {d : Nat} {c c' : Context} {b : FunctionBuilder} {value : Rvalue},
    e.At c.tree id → Ready c b → Typed c b e.vars →
    performWithin d (.emitExpr id) c = .ok value c' → Emitted c c' b e value

variable {d : Nat} {value : Rvalue} {o : Operand}

theorem emitCondition_spec (hworks : Works e) (hat : e.At c.tree id) (hr : Ready c b)
    (ht : Typed c b e.vars) (h : emitCondition id (performWithin d) c = .ok o c') :
    ∃ b', Emits c c' b b' o .bool (MeansTruth c e) := by
  obtain ⟨location, c₀, hlocate, h⟩ := bind_eq_ok.mp h
  obtain ⟨⟨type, operand⟩, c₁, hexpr, h⟩ := bind_eq_ok.mp h
  obtain rfl := state_of_locate hlocate
  obtain ⟨k, b₁, rfl, e₁⟩ := hworks hat hr ht hexpr
  obtain ⟨b₂, e₂⟩ := truthValue_spec e₁.follows.ready e₁.kind e₁.below h
  refine ⟨b₂, e₁.andThen e₂ ?_⟩
  rintro A frame s v ⟨hbase, ρ, hρ, rfl⟩
  refine ⟨_, fun x => some (.ofBool x.truth), ⟨hbase, ρ, hρ, rfl⟩, ?_, ?_⟩
  · cases e.eval ρ <;> rfl
  · rintro x C - hC
    exact ⟨x, hC.value, hC.kind, rfl⟩

theorem emitInversion_spec (op : UnaryOp) {f : IntValue → IntValue} (hworks : Works e)
    (hat : e.At c.tree id) (hr : Ready c b) (ht : Typed c b e.vars)
    (hf : ∀ x : IntValue, x.WellFormed → (f x).WellFormed ∧ (f x).kind = x.kind)
    (hperform : ∀ {image : Image} {frame : Machine.Frame} {o : Operand} {x : IntValue}
      (caller : Caller) (type : IrType) (s : State), Denotes image frame o x →
      Machine.perform image caller frame type (if op = .neg then .neg o else .not o) s =
        outcome s (some (f x)))
    (h : emitInversion op id location (performWithin d) c = .ok value c') :
    ∃ k b', value.type = .scalar k ∧ Emits c c' b b' value.operand k fun A frame s v =>
      ∃ w, Means c e A frame s w ∧ v = w.map f := by
  obtain ⟨⟨type, operand⟩, c₁, hexpr, h⟩ := bind_eq_ok.mp h
  obtain ⟨k, b₁, rfl, e₁⟩ := hworks hat hr ht hexpr
  replace h := (guard_passes h).2
  simp only [SourceType.strip] at h
  rw [bind_of_eq_ok (lower_scalar k location)] at h
  obtain ⟨o, c₃, hpush, hpure⟩ := bind_eq_ok.mp h
  cases hpure
  have e₂ : Emits _ _ _ _ _ _ (OnOperand operand k fun x => some (f x)) :=
    emits_push e₁.follows.ready e₁.kind hpush (by
      rintro A frame s v ⟨x, hx, rfl, rfl⟩
      refine ⟨?_, hperform A.caller _ _ hx⟩
      rintro y hy
      cases hy
      exact hf x hx.wellFormed)
  refine ⟨k, _, rfl, e₁.andThen e₂ ?_⟩
  rintro A frame s v ⟨w, hw, rfl⟩
  refine ⟨w, fun x => some (f x), hw, ?_, ?_⟩
  · cases w <;> rfl
  · rintro x C - hC
    exact ⟨x, hC.value, hC.kind, rfl⟩

/-- A binary operation whose left operand is there already. -/
theorem emitAgainst_spec {op : BinaryOp} {r : IntExpr} {left : Operand} {k : Scalar} {rhs : NodeId}
    (hk : k.isInteger = true) (hbelow : left.Below b.nextValue) (hr : Works r)
    (hat : r.At c.tree rhs) (hready : Ready c b) (ht : Typed c b r.vars)
    (h : (do
      let right ← perform (.emitExpr rhs)
      emitOperation op ⟨.scalar k, left⟩ right location) (performWithin d) c = .ok value c') :
    ∃ k' b', value.type = .scalar k' ∧ Emits c c' b b' value.operand k' fun A frame s v =>
      memoryBase ≤ s.memory.size ∧ ∃ ρ x, Denotes A.image frame left x ∧ x.kind = k ∧
        Provides c A frame s.memory ρ r.vars ∧ v = (r.eval ρ).bind (IntValue.binary? op x) := by
  obtain ⟨⟨_, right⟩, c₁, hright, h⟩ := bind_eq_ok.mp h
  obtain ⟨k₁, b₁, rfl, e₁⟩ := hr hat hready ht hright
  have hbelow₁ := hbelow.mono e₁.follows.continues.value
  obtain ⟨htype, b₂, e₂⟩ := emitOperation_spec e₁.follows.ready hk e₁.kind hbelow₁ e₁.below h
  refine ⟨_, b₂, htype, e₁.andThen e₂ ?_⟩
  rintro A frame s v ⟨hbase, ρ, x, hx, hxk, hρ, rfl⟩
  refine ⟨_, _, ⟨hbase, ρ, hρ, rfl⟩, rfl, ?_⟩
  rintro y C - hC
  exact ⟨x, y, hC.frame.denotes hx hbelow, hxk, hC.value, hC.kind, rfl⟩

/-- A binary operation behind its left operand. -/
theorem emitRight_spec {c₁ : Context} {op : BinaryOp} {l r : IntExpr} {left : Rvalue} {rhs : NodeId}
    (hl : Emitted c c₁ b l left) (hr : Works r) (hatr : r.At c.tree rhs)
    (ht : Typed c b (l.vars ++ r.vars))
    (h : (do
      let right ← perform (.emitExpr rhs)
      emitOperation op left right location) (performWithin d) c₁ = .ok value c') :
    ∃ k b', value.type = .scalar k ∧ Emits c c' b b' value.operand k fun A frame s v =>
      memoryBase ≤ s.memory.size ∧ ∃ ρ, Provides c A frame s.memory ρ (l.vars ++ r.vars) ∧
        v = (l.eval ρ).bind fun x => (r.eval ρ).bind (IntValue.binary? op x) := by
  have htr : Typed c b r.vars := ht.subset fun name => List.mem_append_right _
  obtain ⟨_, left⟩ := left
  obtain ⟨k₁, b₁, rfl, e₁⟩ := hl
  rw [← e₁.follows.tree] at hatr
  obtain ⟨k₂, b₂, htype, e₂⟩ := emitAgainst_spec e₁.kind e₁.below hr hatr e₁.follows.ready
    (htr.follows e₁.follows) h
  refine ⟨k₂, b₂, htype, e₁.andThen e₂ ?_⟩
  rintro A frame s v ⟨hbase, ρ, hρ, rfl⟩
  have hρl : Provides c A frame s.memory ρ l.vars :=
    fun name hname => hρ name (List.mem_append_left _ hname)
  refine ⟨_, _, ⟨hbase, ρ, hρl, rfl⟩, rfl, ?_⟩
  rintro x C - hC
  refine ⟨hbase.trans hC.memory.size, ρ, x, hC.value, hC.kind, ?_, rfl⟩
  exact hρ.mono (fun name => List.mem_append_right _) ht e₁.follows hC.frame hC.memory

/-- Reading a variable by its place. -/
theorem emitted_var {name : String} {place : Place} {k : Scalar} (hr : Ready c b)
    (hplace : c.place? name = some place) (hk : k.isInteger = true)
    (htype : place.type.strip = .scalar k) (h : loadPlace place location p c = .ok value c') :
    Emitted c c' b (.var name) value := by
  obtain ⟨hvalue, b', hemits⟩ := loadPlace_spec hr hk htype h
  refine ⟨k, b', hvalue, hemits.of_imp ?_⟩
  rintro A frame s v ⟨-, ρ, hρ, rfl⟩
  obtain ⟨place', hplace', htype', hsees⟩ := hρ name (List.mem_singleton_self _)
  cases hplace.symm.trans hplace'
  cases htype.symm.trans htype'
  exact ⟨ρ name, hsees, rfl, rfl⟩

/-- Code behind actions that emit none, in terms of the context before them. -/
theorem emitted_of_follows {c₁ : Context} (h : Emitted c₁ c' b e value) (hf : Follows c c₁ b b) :
    Emitted c c' b e value := by
  obtain ⟨k, b', htype, hemits⟩ := h
  refine ⟨k, b', htype, (hf.emits hemits).of_imp ?_⟩
  rintro A frame s v ⟨hbase, ρ, hρ, rfl⟩
  exact ⟨hbase, ρ, hρ.follows hf, rfl⟩

section Logical

variable {c₁ c₂ : Context} {r : IntExpr} {rhs : NodeId} {left right result : Operand} {stop : Nat}
  {op : BinaryOp}

/-- A logical operator behind its left operand. -/
theorem emitDecided_spec (hop : op = .and ∨ op = .or) (hr : Works r) (hat : r.At c.tree rhs)
    (hready : Ready c b) (ht : Typed c b r.vars) (hbelow : left.Below b.nextValue)
    (hstart : build (do
      let result ← FunctionBuilder.alloca .i1
      FunctionBuilder.store left result
      let rhsBlock ← FunctionBuilder.createBlock "logic.rhs"
      let endBlock ← FunctionBuilder.createBlock "logic.end"
      if op = .and then FunctionBuilder.condBr left rhsBlock endBlock
      else FunctionBuilder.condBr left endBlock rhsBlock
      FunctionBuilder.switchTo rhsBlock
      return (result, endBlock)) (performWithin d) c = .ok (result, stop) c₁)
    (hright : emitCondition rhs (performWithin d) c₁ = .ok right c₂)
    (hend : build (do
      FunctionBuilder.store right result
      FunctionBuilder.br stop
      FunctionBuilder.switchTo stop
      FunctionBuilder.load result .i1) (performWithin d) c₂ = .ok o c') :
    ∃ b', Emits c c' b b' o .bool fun A frame s v => memoryBase ≤ s.memory.size ∧
      ∃ t ρ, Denotes A.image frame left (.ofBool t) ∧ Provides c A frame s.memory ρ r.vars ∧
        v = if t = (op == .or) then some (.ofBool t)
          else (r.eval ρ).map fun y => .ofBool y.truth := by
  obtain ⟨F, hF, rfl⟩ := hready.function
  obtain ⟨hcontinues, hrhs, hstop⟩ :=
    FunctionBuilder.continues_startLogic hready.sound hready.isOpen op left
  rw [build_apply hF, FunctionBuilder.startLogic_run hready.sound hready.isOpen] at hstart
  cases hstart
  let b := F.builder
  let b₁ := ((b.startLogic left).endWith
    (FunctionBuilder.decideLogic op left b.nextBlock (b.nextBlock + 1))).moveTo b.nextBlock
  have hcontinues₁ : FunctionBuilder.Continues [b.current] b b₁ :=
    hcontinues.moveTo (Or.inr (le_refl _)) hrhs.lt
  have hfollows₁ : Follows c (c.advance b₁ F.scope) b b₁ :=
    ⟨⟨F, F.scope, hF, rfl, rfl, rfl⟩, hcontinues₁, hrhs.isOpen⟩
  obtain ⟨b₂, e₂⟩ := emitCondition_spec (c := c.advance b₁ F.scope) hr hat hfollows₁.ready (ht.follows hfollows₁) hright
  have hstop₁ : b₁.Fresh (b.nextBlock + 1) := ⟨hstop.lt, hstop.body, hstop.ending⟩
  have hstop₂ := hstop₁.continues e₂.follows.continues (by simp [b₁, FunctionBuilder.moveTo])
  obtain ⟨F₁, scope, hF₁, -, rfl, hplaces⟩ := e₂.follows.state
  cases (Context.function_advance hF b₁ F.scope).symm.trans hF₁
  have hF₂ := Context.function_advance hF₁ b₂ scope
  have hsound₂ : b₂.Sound := e₂.follows.continues.sound
  have hopen₂ : b₂.Open := e₂.follows.isOpen
  have hcurrent₂ : b.nextBlock + 1 ∉ [b₂.current] := by
    have hmem := e₂.follows.continues.current
    have hlt := hstop₁.lt
    simp only [List.mem_singleton] at hmem ⊢
    change b₂.current = b.nextBlock ∨ _ ≤ b₂.current at hmem
    omega
  have hcontinues₃ := FunctionBuilder.continues_endLogic hsound₂ hopen₂ right
    (.register b.nextValue) (b.nextBlock + 1)
  have hstop₃ := hstop₂.continues hcontinues₃ hcurrent₂
  let b₃ := b₂.endLogic right (.register b.nextValue) (b.nextBlock + 1)
  have hcontinues₄ : FunctionBuilder.Continues [b.current] b b₃ :=
    ((hcontinues₁.trans_current e₂.follows.continues).trans_current hcontinues₃).moveTo
      (Or.inr (Nat.le_succ _)) hstop₃.lt
  have hopen₃ : b₃.Open := hstop₃.isOpen
  rw [build_apply hF₂, FunctionBuilder.endLogic_run hsound₂ hopen₂ hopen₃] at hend
  cases hend
  refine ⟨b₃.place (.load (.register b.nextValue) none false) (some .i1),
    ⟨⟨F, scope, hF, rfl, ?_, hplaces⟩, hcontinues₄.place hopen₃ _ _, ?_⟩, Nat.lt_succ_self _, rfl, ?_⟩
  · rw [Context.advance_advance, Context.advance_advance]
  · exact (FunctionBuilder.open_place hcontinues₄.sound _ _).mpr hopen₃
  · rintro A frame s v hA ⟨hbase, t, ρ, hleft, hρ, rfl⟩
    have hA₃ : A.Has b₃ := hA.of_continues
      ((FunctionBuilder.Continues.refl hcontinues₄.sound (List.mem_singleton_self _)).place hopen₃ _ _)
    have hA₂ : A.Has b₂ := (Activation.Has.of_moveTo hA₃).of_continues hcontinues₃
    have hle₂ : b.nextValue + 2 ≤ b₂.nextValue := e₂.follows.continues.value
    have hstart := leads_startLogic hop hready.sound hready.isOpen
      (hA₂.of_continues e₂.follows.continues).of_moveTo hleft hbelow hbase
    -- the value in the slot decides what is read at the end
    have hread (t' : Bool) (C : Config) (hpoint : C.point = ⟨b.nextBlock + 1, 0⟩)
        (hC : KeepsTruth A b b₃.nextValue frame s.memory t' C) :=
      hC.computes hcontinues₄.sound (hpoint.trans hstop₃.here.symm) hcontinues₄.value hA
    by_cases hdecides : t = (op == .or)
    · rw [if_pos hdecides]
      refine hstart.andThen fun C hC => ?_
      rw [if_pos hdecides] at hC
      exact hread t C hC.1
        ⟨hC.2.frame.mono (le_refl _) (hle₂.trans (Nat.le_succ _)), hC.2.memory, hC.2.cell⟩
    · rw [if_neg hdecides]
      rw [if_neg hdecides] at hstart
      have hvalue (C : Config) (hC : C.point = ⟨b.nextBlock, 0⟩ ∧
          KeepsTruth A b (b.nextValue + 2) frame s.memory t C) :
          Computes A b₁ b₂ right .bool C.frame C.state
            ((r.eval ρ).map fun y => .ofBool y.truth) := by
        refine e₂.computes A C.frame C.state _ hA₂ ⟨hbase.trans hC.2.memory.size, ρ, ?_, rfl⟩
        exact hρ.mono (fun _ => id) ht hfollows₁ hC.2.frame hC.2.memory
      cases heval : r.eval ρ with
      | none =>
        refine (hstart.mono (le_refl _) (fun _ => id) fun e => Or.inl).andThen fun C hC => ?_
        have hfault := hvalue C hC
        rw [heval, Option.map_none, Computes, hrhs.here, ← hC.1] at hfault
        exact hfault
      | some y =>
        refine hstart.andThen fun C hC => ?_
        have hrun := hvalue C hC
        rw [heval, Option.map_some, Computes, hrhs.here, ← hC.1] at hrun
        refine hrun.andThen fun C₂ hC₂ => ?_
        have hkeeps := hC.2.delivers rfl hle₂ hC₂
        rw [show C₂ = ⟨b₂.here, C₂.frame, C₂.state⟩ by rw [← hC₂.point]]
        refine (leads_endLogic hsound₂ hopen₂ (Nat.succ_ne_zero _) hA₃ hC₂.value hkeeps).andThen
          fun C₃ hC₃ => hread y.truth C₃ hC₃.1 hC₃.2

/-- A logical operator evaluates its right operand only when the left one does not decide. -/
theorem emitLogical_spec {l : IntExpr} {lhs : NodeId} (hop : op = .and ∨ op = .or)
    (hl : Works l) (hr : Works r) (hatl : l.At c.tree lhs) (hatr : r.At c.tree rhs)
    (hready : Ready c b) (ht : Typed c b (l.vars ++ r.vars))
    (h : emitLogical op lhs rhs (performWithin d) c = .ok value c') :
    value.type = .scalar .bool ∧ ∃ b', Emits c c' b b' value.operand .bool fun A frame s v =>
      memoryBase ≤ s.memory.size ∧ ∃ ρ, Provides c A frame s.memory ρ (l.vars ++ r.vars) ∧
        v = (l.eval ρ).bind fun x => if x.truth = (op == .or) then some (.ofBool x.truth)
          else (r.eval ρ).map fun y => .ofBool y.truth := by
  have htl : Typed c b l.vars := ht.subset fun name => List.mem_append_left _
  have htr : Typed c b r.vars := ht.subset fun name => List.mem_append_right _
  obtain ⟨left, c₁, hleft, h⟩ := bind_eq_ok.mp h
  obtain ⟨⟨result, stop⟩, c₂, hstart, h⟩ := bind_eq_ok.mp h
  obtain ⟨right, c₃, hright, h⟩ := bind_eq_ok.mp h
  obtain ⟨o, c₄, hend, hpure⟩ := bind_eq_ok.mp h
  cases hpure
  obtain ⟨b₁, e₁⟩ := emitCondition_spec hl hatl hready htl hleft
  rw [← e₁.follows.tree] at hatr
  obtain ⟨b₂, e₂⟩ := emitDecided_spec hop hr hatr e₁.follows.ready (htr.follows e₁.follows) e₁.below
    hstart hright hend
  refine ⟨rfl, b₂, e₁.andThen e₂ ?_⟩
  rintro A frame s v ⟨hbase, ρ, hρ, rfl⟩
  have hρl : Provides c A frame s.memory ρ l.vars :=
    fun name hname => hρ name (List.mem_append_left _ hname)
  refine ⟨_, fun x => if x.truth = (op == .or) then some (.ofBool x.truth)
    else (r.eval ρ).map fun y => .ofBool y.truth, ⟨hbase, ρ, hρl, rfl⟩, ?_, ?_⟩
  · cases l.eval ρ with
    | none => rfl
    | some x => simp
  · rintro x C hx hC
    obtain ⟨y, -, rfl⟩ := Option.map_eq_some_iff.mp hx
    refine ⟨hbase.trans hC.memory.size, y.truth, ρ, hC.value, ?_, by simp⟩
    exact hρ.mono (fun name => List.mem_append_right _) ht e₁.follows hC.frame hC.memory

end Logical

theorem emitNot_spec (hworks : Works e)
    (hat : e.At c.tree id) (hr : Ready c b) (ht : Typed c b e.vars)
    (h : (do
      let condition ← emitCondition id
      return ⟨.bool, ← build (FunctionBuilder.push (.not condition) (some .i1))⟩ : CompileM Rvalue)
        (performWithin d) c = .ok value c') : Emitted c c' b (.not e) value := by
  obtain ⟨condition, c₁, hcondition, h⟩ := bind_eq_ok.mp h
  obtain ⟨o, c₂, hpush, hpure⟩ := bind_eq_ok.mp h
  cases hpure
  obtain ⟨b₁, e₁⟩ := emitCondition_spec hworks hat hr ht hcondition
  have e₂ : Emits _ _ _ _ _ .bool (OnOperand condition .bool fun x => some x.bitNot) :=
    emits_push e₁.follows.ready rfl hpush (by
      rintro A frame s v ⟨x, hx, hk, rfl⟩
      refine ⟨?_, perform_not A.caller _ _ hx⟩
      rintro y hy
      cases hy
      exact ⟨IntValue.wellFormed_ofInt hx.wellFormed.1 _, hk⟩)
  refine ⟨.bool, _, rfl, e₁.andThen e₂ ?_⟩
  rintro A frame s v ⟨hbase, ρ, hρ, rfl⟩
  refine ⟨_, fun x => some x.bitNot, ⟨hbase, ρ, hρ, rfl⟩, ?_, ?_⟩
  · simp only [IntExpr.eval]
    cases e.eval ρ with
    | none => rfl
    | some x => simp [IntValue.bitNot_ofBool]
  · rintro x C - hC
    exact ⟨x, hC.value, hC.kind, rfl⟩

theorem emitCast_spec {k : Scalar} (hk : k.isInteger = true) (hworks : Works e) (hat : e.At c.tree id)
    (hr : Ready c b) (ht : Typed c b e.vars)
    (h : (do
      let type ← resolveType (.scalar k) location
      castTo (← perform (.emitExpr id)) type location) (performWithin d) c = .ok value c') :
    Emitted c c' b (.cast k e) value := by
  rw [bind_of_eq_ok (resolveType_scalar k location)] at h
  obtain ⟨⟨_, operand⟩, c₁, hexpr, h⟩ := bind_eq_ok.mp h
  obtain ⟨k₁, b₁, rfl, e₁⟩ := hworks hat hr ht hexpr
  obtain ⟨htype, b₂, e₂⟩ := castTo_spec e₁.follows.ready e₁.kind hk e₁.below h
  refine ⟨k, b₂, htype, e₁.andThen e₂ ?_⟩
  rintro A frame s v ⟨hbase, ρ, hρ, rfl⟩
  refine ⟨_, fun x => some (x.convert k), ⟨hbase, ρ, hρ, rfl⟩, ?_, ?_⟩
  · simp only [IntExpr.eval]
    cases e.eval ρ <;> rfl
  · rintro x C - hC
    exact ⟨x, hC.value, hC.kind, rfl⟩

/-- The emission of every expression is right. -/
theorem emitExpr_spec (e : IntExpr) : Works e := by
  induction e with
  | int v =>
    intro id d c c' b value hat hr ht h
    obtain ⟨d, h⟩ := work_of_performWithin h
    obtain ⟨location, hnode⟩ := locate_kindOf hat
    change emitExpr id _ c = _ at h
    unfold emitExpr at h
    rw [hnode] at h
    cases emitLiteral_spec (e := .int v) hat rfl rfl h
    have hk := isInteger_forLiteral v
    exact emitted_constant hr hk (IntValue.kind_ofInt _ v) trivial
      (fun i frame => denotes_constInt i frame hk v) fun ρ => rfl
  | bool v =>
    intro id d c c' b value hat hr ht h
    obtain ⟨d, h⟩ := work_of_performWithin h
    obtain ⟨location, hnode⟩ := locate_kindOf hat
    change emitExpr id _ c = _ at h
    unfold emitExpr at h
    rw [hnode] at h
    cases emitLiteral_spec (e := .bool v) hat rfl rfl h
    exact emitted_constant hr rfl (IntValue.kind_ofBool v) trivial
      (fun i frame => denotes_bool i frame v) fun ρ => rfl
  | char code =>
    intro id d c c' b value hat hr ht h
    obtain ⟨d, h⟩ := work_of_performWithin h
    obtain ⟨location, hnode⟩ := locate_kindOf hat
    change emitExpr id _ c = _ at h
    unfold emitExpr at h
    rw [hnode] at h
    cases emitLiteral_spec (e := .char code) hat rfl rfl h
    exact emitted_constant hr rfl (IntValue.kind_ofInt .char code) trivial
      (fun i frame => denotes_constInt i frame (k := .char) rfl code) fun ρ => rfl
  | var name =>
    intro id d c c' b value hat hr ht h
    obtain ⟨d, h⟩ := work_of_performWithin h
    obtain ⟨location, hnode⟩ := locate_kindOf hat
    change emitExpr id _ c = _ at h
    unfold emitExpr at h
    rw [hnode] at h
    obtain ⟨place, k, hplace, hk, hint, hbelow⟩ := ht name (List.mem_singleton_self _)
    simp only [emitName] at h
    rw [bind_of_eq_ok (get_apply _ c), if_pos (Context.isVariable_of_place? hplace)] at h
    obtain ⟨c₁, hrun, hfollows⟩ := variablePlace_spec (p := performWithin d)
      hr hplace
    rw [bind_of_eq_ok hrun] at h
    rw [← hfollows.place? name] at hplace
    exact emitted_of_follows (emitted_var hfollows.ready hplace hint hk h) hfollows
  | neg e ih =>
    intro id d c c' b value hat hr ht h
    obtain ⟨operand, hkind, hat⟩ := hat
    obtain ⟨d, h⟩ := work_of_performWithin h
    obtain ⟨location, hnode⟩ := locate_kindOf hkind
    change emitExpr id _ c = _ at h
    unfold emitExpr at h
    rw [hnode] at h
    obtain ⟨k, b', htype, hemits⟩ := emitInversion_spec .neg (f := IntValue.neg) ih hat hr ht
      (fun x hx => ⟨IntValue.wellFormed_ofInt hx.1 _, rfl⟩)
      (fun caller type s hx => perform_neg caller type s hx) h
    refine ⟨k, b', htype, hemits.of_imp ?_⟩
    rintro A frame s v ⟨hbase, ρ, hρ, rfl⟩
    exact ⟨_, ⟨hbase, ρ, hρ, rfl⟩, rfl⟩
  | bitNot e ih =>
    intro id d c c' b value hat hr ht h
    obtain ⟨operand, hkind, hat⟩ := hat
    obtain ⟨d, h⟩ := work_of_performWithin h
    obtain ⟨location, hnode⟩ := locate_kindOf hkind
    change emitExpr id _ c = _ at h
    unfold emitExpr at h
    rw [hnode] at h
    obtain ⟨k, b', htype, hemits⟩ := emitInversion_spec .bitNot (f := IntValue.bitNot) ih hat
      hr ht (fun x hx => ⟨IntValue.wellFormed_ofInt hx.1 _, rfl⟩)
      (fun caller type s hx => perform_not caller type s hx) h
    refine ⟨k, b', htype, hemits.of_imp ?_⟩
    rintro A frame s v ⟨hbase, ρ, hρ, rfl⟩
    exact ⟨_, ⟨hbase, ρ, hρ, rfl⟩, rfl⟩
  | not e ih =>
    intro id d c c' b value hat hr ht h
    obtain ⟨operand, hkind, hat⟩ := hat
    obtain ⟨d, h⟩ := work_of_performWithin h
    obtain ⟨location, hnode⟩ := locate_kindOf hkind
    change emitExpr id _ c = _ at h
    unfold emitExpr at h
    rw [hnode] at h
    exact emitNot_spec ih hat hr ht h
  | binary op l r ihl ihr =>
    intro id d c c' b value hat hr ht h
    obtain ⟨hassign, lhs, rhs, hkind, hatl, hatr⟩ := hat
    obtain ⟨d, h⟩ := work_of_performWithin h
    obtain ⟨location, hnode⟩ := locate_kindOf hkind
    change emitExpr id _ c = _ at h
    unfold emitExpr at h
    rw [hnode] at h
    simp only [emitBinary, hassign, Bool.false_eq_true, if_false] at h
    rw [ite_apply] at h
    by_cases hlogical : op.isLogical = true
    · rw [if_pos hlogical] at h
      have hop : op = .and ∨ op = .or := by
        cases op <;> simp_all [BinaryOp.isLogical]
      obtain ⟨htype, b', hemits⟩ := emitLogical_spec hop ihl ihr hatl hatr hr ht h
      refine ⟨.bool, b', htype, hemits.of_imp ?_⟩
      rintro A frame s v ⟨hbase, ρ, hρ, rfl⟩
      exact ⟨hbase, ρ, hρ, by simp only [IntExpr.eval, hlogical, if_true]; rfl⟩
    · rw [if_neg hlogical] at h
      obtain ⟨left, c₁, hleft, h⟩ := bind_eq_ok.mp h
      have hl := ihl hatl hr (ht.subset fun name => List.mem_append_left _) hleft
      obtain ⟨k, b', htype, hemits⟩ := emitRight_spec hl ihr hatr ht h
      refine ⟨k, b', htype, hemits.of_imp ?_⟩
      rintro A frame s v ⟨hbase, ρ, hρ, rfl⟩
      exact ⟨hbase, ρ, hρ, by simp only [IntExpr.eval, hlogical]; rfl⟩
  | cast k e ih =>
    intro id d c c' b value hat hr ht h
    obtain ⟨hk, operand, hkind, hat⟩ := hat
    obtain ⟨d, h⟩ := work_of_performWithin h
    obtain ⟨location, hnode⟩ := locate_kindOf hkind
    change emitExpr id _ c = _ at h
    unfold emitExpr at h
    rw [hnode] at h
    exact emitCast_spec hk ih hat hr ht h

end CompileM
end UnitCompiler
