import UnitCompiler.Proofs.Compile.Expressions

/-!
# Integer expressions are always emitted

No operation on numbers is refused: an integer expression is emitted in every function that finds its
variables, given that jobs may nest as deep as the expression does.
-/

namespace UnitCompiler
open Machine

/-- How deep jobs nest when an expression is emitted; a literal is folded one level below. -/
def IntExpr.height : IntExpr → Nat
  | .int _ | .bool _ | .char _ => 2
  | .var _ => 1
  | .neg e | .bitNot e | .not e | .cast _ e => e.height + 1
  | .binary _ l r => max l.height r.height + 1

theorem IntExpr.At.hasKind {t : Tree} {e : IntExpr} {id : NodeId} (h : e.At t id) :
    ∃ kind, t.HasKind id kind := by
  cases e with
  | int _ | bool _ | char _ | var _ => exact ⟨_, h⟩
  | neg _ | bitNot _ | not _ =>
    obtain ⟨_, hkind, _⟩ := h
    exact ⟨_, hkind⟩
  | binary _ _ _ =>
    obtain ⟨_, _, _, hkind, _⟩ := h
    exact ⟨_, hkind⟩
  | cast _ _ =>
    obtain ⟨_, _, hkind, _⟩ := h
    exact ⟨_, hkind⟩

namespace BinaryOp

variable {op : BinaryOp}

theorem exists_compareOp? (h : op.isComparison = true) (isUnsigned : Bool) :
    ∃ instr, op.compareOp? isUnsigned = some instr := by
  cases op <;> first | exact ⟨_, rfl⟩ | cases h

theorem exists_arithOp? (hassign : op.isAssignment = false) (hlogical : op.isLogical = false)
    (hcompare : op.isComparison = false) {k : Scalar} (hk : k.isInteger = true) :
    ∃ instr, op.arithOp? k = some instr := by
  have hfloat : k.isFloat = false := by
    cases k <;> first | rfl | cases hk
  cases op <;> simp_all [arithOp?, isAssignment, isLogical, isComparison]

end BinaryOp

namespace CompileM

/-- The action goes through. -/
def Succeeds {α : Type} (x : CompileM α) (p : Performer) (c : Context) : Prop :=
  ∃ a c', x p c = .ok a c'

variable {α β : Type} {p : Performer} {c c' : Context} {b : FunctionBuilder} {location : Location}

theorem Succeeds.bind {x : CompileM α} {f : α → CompileM β} (hx : Succeeds x p c)
    (hf : ∀ a c', x p c = .ok a c' → Succeeds (f a) p c') : Succeeds (x >>= f) p c := by
  obtain ⟨a, c', hx⟩ := hx
  obtain ⟨b, c'', hb⟩ := hf a c' hx
  exact ⟨b, c'', (bind_of_eq_ok hx).trans hb⟩

theorem Succeeds.map {x : CompileM α} (hx : Succeeds x p c) (f : α → β) : Succeeds (f <$> x) p c := by
  obtain ⟨a, c', hx⟩ := hx
  exact ⟨f a, c', map_eq_ok.mpr ⟨a, hx, rfl⟩⟩

/-- What a builder does always goes through in a function. -/
theorem succeeds_build (hr : Ready c b) (action : BuildM α) : Succeeds (build action) p c := by
  obtain ⟨F, hF, _⟩ := hr.function
  exact ⟨_, _, build_apply hF action⟩

theorem succeeds_locate {id : NodeId} {kind : NodeKind} (h : c.tree.HasKind id kind) :
    Succeeds (locate id) p c := by
  obtain ⟨span, hnode⟩ := h
  refine ⟨c.tree.locate span, c, ?_⟩
  unfold locate spanOf
  rw [bind_of_eq_ok (bind_of_eq_ok (nodeAt_apply hnode))]
  rfl

/-- A number is read wherever it is stored. -/
theorem loadPlace_succeeds {place : Place} {k : Scalar} (hr : Ready c b)
    (htype : place.type.strip = .scalar k) : Succeeds (loadPlace place location) p c := by
  have hlower : lower place.type location p c = .ok k.machineType c := by
    unfold lower
    rw [bind_of_eq_ok (get_apply p c), SourceType.lower_of_strip htype]
    rfl
  unfold Succeeds
  simp only [loadPlace, htype]
  rw [bind_of_eq_ok hlower]
  exact (succeeds_build hr _).map _

section Operations

variable {source target : Scalar} {o : Operand}

theorem truthValue_succeeds (hr : Ready c b) (hs : source.isInteger = true) :
    Succeeds (truthValue ⟨.scalar source, o⟩ location) p c := by
  by_cases hbool : source = .bool
  · subst hbool
    exact ⟨o, c, rfl⟩
  · unfold Succeeds
    rw [truthValue_apply hs hbool]
    exact succeeds_build hr _

theorem castTo_succeeds (hr : Ready c b) (hs : source.isInteger = true)
    (ht : target.isInteger = true) : Succeeds (castTo ⟨.scalar source, o⟩ (.scalar target) location) p c := by
  unfold Succeeds
  rw [castTo_apply hs ht]
  split_ifs
  · exact (truthValue_succeeds hr hs).map _
  · cases (Conversion.ofScalars source target).op? with
    | none => exact ⟨_, _, rfl⟩
    | some op => exact (succeeds_build hr _).map _

theorem coerce_succeeds {type : SourceType} (hr : Ready c b) (hs : source.isInteger = true)
    (ht : target.isInteger = true) (htype : type.strip = .scalar target) :
    Succeeds (coerce ⟨.scalar source, o⟩ type location) p c := by
  have hscalar (k : Scalar) : (SourceType.scalar k).isScalar = true := rfl
  unfold Succeeds
  simp only [coerce, htype, SourceType.strip, hscalar, Bool.and_self, if_true]
  rw [ite_apply]
  split_ifs
  · exact ⟨_, _, rfl⟩
  · exact castTo_succeeds hr hs ht

theorem emitOperation_succeeds {op : BinaryOp} {left right : Scalar} {l r : Operand} (hr : Ready c b)
    (hassign : op.isAssignment = false) (hlogical : op.isLogical = false)
    (hleft : left.isInteger = true) (hright : right.isInteger = true) (hl : l.Below b.nextValue)
    (hr' : r.Below b.nextValue) :
    Succeeds (emitOperation op ⟨.scalar left, l⟩ ⟨.scalar right, r⟩ location) p c := by
  have hcommon : (left.common right).isInteger = true := Scalar.isInteger_common hleft hright
  change Succeeds (emitNumeric op ⟨.scalar left, l⟩ ⟨.scalar right, r⟩ (left.common right) location) p c
  refine (castTo_succeeds hr hleft hcommon).bind fun x c₁ hx => ?_
  obtain ⟨-, b₁, e₁⟩ := castTo_spec hr hleft hcommon hl hx
  refine (castTo_succeeds e₁.follows.ready hright hcommon).bind fun y c₂ hy => ?_
  obtain ⟨-, b₂, e₂⟩ := castTo_spec e₁.follows.ready hright hcommon
    (hr'.mono e₁.follows.continues.value) hy
  cases hcompare : op.isComparison with
  | true =>
    obtain ⟨instr, hinstr⟩ := BinaryOp.exists_compareOp? hcompare (left.common right).isUnsigned
    simp only [if_true, emitCompare, hinstr]
    exact (succeeds_build e₂.follows.ready _).map _
  | false =>
    obtain ⟨instr, hinstr⟩ := BinaryOp.exists_arithOp? hassign hlogical hcompare hcommon
    simp only [Bool.false_eq_true, if_false, hinstr]
    exact (succeeds_build e₂.follows.ready _).map _

end Operations

/-- The expression is emitted wherever its variables are found. -/
def AlwaysEmitted (e : IntExpr) : Prop :=
  ∀ {id : NodeId} {d : Nat} {c : Context} {b : FunctionBuilder}, e.At c.tree id → Ready c b →
    Typed c b e.vars → e.height ≤ d → Succeeds (perform (.emitExpr id)) (performWithin d) c

section Expressions

variable {e : IntExpr} {id : NodeId} {d : Nat}

theorem emitCondition_succeeds (he : AlwaysEmitted e) (hat : e.At c.tree id) (hr : Ready c b)
    (ht : Typed c b e.vars) (hd : e.height ≤ d) :
    Succeeds (emitCondition id) (performWithin d) c := by
  obtain ⟨kind, hkind⟩ := hat.hasKind
  refine (succeeds_locate hkind).bind fun location c₀ hlocate => ?_
  obtain rfl := state_of_locate hlocate
  refine (he hat hr ht hd).bind fun value c₁ hvalue => ?_
  obtain ⟨_, operand⟩ := value
  obtain ⟨k, b₁, rfl, e₁⟩ := emitExpr_spec e hat hr ht hvalue
  exact truthValue_succeeds e₁.follows.ready e₁.kind

theorem emitInversion_succeeds {op : UnaryOp} (he : AlwaysEmitted e) (hat : e.At c.tree id)
    (hr : Ready c b) (ht : Typed c b e.vars) (hd : e.height ≤ d) :
    Succeeds (emitInversion op id location) (performWithin d) c := by
  refine (he hat hr ht hd).bind fun value c₁ hvalue => ?_
  obtain ⟨_, operand⟩ := value
  obtain ⟨k, b₁, rfl, e₁⟩ := emitExpr_spec e hat hr ht hvalue
  have hint : (SourceType.scalar k).isInteger = true := e₁.kind
  simp only [SourceType.strip, hint, Bool.true_or, Bool.not_true, Bool.false_eq_true, if_false]
  refine Succeeds.bind ⟨_, _, lower_scalar k location⟩ fun machine c₂ hlower => ?_
  cases (lower_scalar k location).symm.trans hlower
  exact (succeeds_build e₁.follows.ready _).map _

/-- Both operands of an operator are emitted, one after the other. -/
theorem operands_succeed {l r : IntExpr} {lhs rhs : NodeId} (hl : AlwaysEmitted l)
    (hr : AlwaysEmitted r) (hatl : l.At c.tree lhs) (hatr : r.At c.tree rhs) (hready : Ready c b)
    (ht : Typed c b (l.vars ++ r.vars)) (hd : max l.height r.height ≤ d) {f : Rvalue → Rvalue → CompileM α}
    (hf : ∀ {left right : Scalar} {x y : Operand} {c' : Context} {b' : FunctionBuilder},
      Ready c' b' → left.isInteger = true → right.isInteger = true → x.Below b'.nextValue →
        y.Below b'.nextValue → Succeeds (f ⟨.scalar left, x⟩ ⟨.scalar right, y⟩) (performWithin d) c') :
    Succeeds (do
      let left ← perform (.emitExpr lhs)
      let right ← perform (.emitExpr rhs)
      f left right) (performWithin d) c := by
  have htl : Typed c b l.vars := ht.subset fun name => List.mem_append_left _
  have htr : Typed c b r.vars := ht.subset fun name => List.mem_append_right _
  refine (hl hatl hready htl ((le_max_left _ _).trans hd)).bind fun left c₁ hleft => ?_
  obtain ⟨_, x⟩ := left
  obtain ⟨k, b₁, rfl, e₁⟩ := emitExpr_spec l hatl hready htl hleft
  rw [← e₁.follows.tree] at hatr
  have htr' := htr.follows e₁.follows
  refine (hr hatr e₁.follows.ready htr' ((le_max_right _ _).trans hd)).bind fun right c₂ hright => ?_
  obtain ⟨_, y⟩ := right
  obtain ⟨k', b₂, rfl, e₂⟩ := emitExpr_spec r hatr e₁.follows.ready htr' hright
  exact hf e₂.follows.ready e₁.kind e₂.kind (e₁.below.mono e₂.follows.continues.value) e₂.below

/-- The start of a logical operator leaves a function in which code goes on. -/
theorem follows_startLogic {op : BinaryOp} {left result : Operand} {stop : Nat} (hr : Ready c b)
    (h : build (do
      let result ← FunctionBuilder.alloca .i1
      FunctionBuilder.store left result
      let rhsBlock ← FunctionBuilder.createBlock "logic.rhs"
      let endBlock ← FunctionBuilder.createBlock "logic.end"
      if op = .and then FunctionBuilder.condBr left rhsBlock endBlock
      else FunctionBuilder.condBr left endBlock rhsBlock
      FunctionBuilder.switchTo rhsBlock
      return (result, endBlock)) p c = .ok (result, stop) c') : ∃ b', Follows c c' b b' := by
  obtain ⟨F, hF, rfl⟩ := hr.function
  obtain ⟨hcontinues, hrhs, -⟩ := FunctionBuilder.continues_startLogic hr.sound hr.isOpen op left
  rw [build_apply hF, FunctionBuilder.startLogic_run hr.sound hr.isOpen] at h
  cases h
  exact ⟨_, ⟨F, F.scope, hF, rfl, rfl, rfl⟩, hcontinues.moveTo (Or.inr (le_refl _)) hrhs.lt, hrhs.isOpen⟩

theorem emitLogical_succeeds {op : BinaryOp} {l r : IntExpr} {lhs rhs : NodeId}
    (hl : AlwaysEmitted l) (hr : AlwaysEmitted r) (hatl : l.At c.tree lhs) (hatr : r.At c.tree rhs)
    (hready : Ready c b) (ht : Typed c b (l.vars ++ r.vars)) (hd : max l.height r.height ≤ d) :
    Succeeds (emitLogical op lhs rhs) (performWithin d) c := by
  have htl : Typed c b l.vars := ht.subset fun name => List.mem_append_left _
  have htr : Typed c b r.vars := ht.subset fun name => List.mem_append_right _
  refine (emitCondition_succeeds hl hatl hready htl ((le_max_left _ _).trans hd)).bind
    fun left c₁ hleft => ?_
  obtain ⟨b₁, e₁⟩ := emitCondition_spec (emitExpr_spec l) hatl hready htl hleft
  refine (succeeds_build e₁.follows.ready _).bind fun start c₂ hstart => ?_
  obtain ⟨result, stop⟩ := start
  obtain ⟨b₂, hfollows⟩ := follows_startLogic e₁.follows.ready hstart
  have htree : c₂.tree = c.tree := hfollows.tree.trans e₁.follows.tree
  rw [← htree] at hatr
  have htr' := (htr.follows e₁.follows).follows hfollows
  refine (emitCondition_succeeds hr hatr hfollows.ready htr' ((le_max_right _ _).trans hd)).bind
    fun right c₃ hright => ?_
  obtain ⟨b₃, e₃⟩ := emitCondition_spec (emitExpr_spec r) hatr hfollows.ready htr' hright
  exact (succeeds_build e₃.follows.ready _).map _

/-- A literal is emitted as the constant that it folds to. -/
theorem emitLiteral_succeeds (value : ConstValue)
    (hfold : foldNode id (performWithin d) c = .ok (some value) c)
    (hconst : Succeeds (emitConst value) (performWithin (d + 1)) c) :
    Succeeds (do emitConst (← foldRequired id "a literal")) (performWithin (d + 1)) c := by
  have hjob : perform (.fold id) (performWithin (d + 1)) c = .ok (some value) c := hfold
  have hrequired : foldRequired id "a literal" (performWithin (d + 1)) c = .ok value c := by
    unfold foldRequired
    rw [bind_of_eq_ok hjob]
    rfl
  obtain ⟨result, c', hresult⟩ := hconst
  exact ⟨result, c', (bind_of_eq_ok hrequired).trans hresult⟩

/-- Every integer expression is emitted, whatever else the function holds. -/
theorem emitExpr_succeeds (e : IntExpr) : AlwaysEmitted e := by
  induction e with
  | int v =>
    intro id d c b hat hr ht hd
    obtain ⟨d, rfl⟩ := Nat.exists_eq_add_of_le' hd
    obtain ⟨location, hnode⟩ := locate_kindOf hat
    change Succeeds (emitExpr id) (performWithin (d + 1)) c
    unfold Succeeds emitExpr
    rw [hnode]
    refine emitLiteral_succeeds (.ofInt v) ?_ ⟨_, _, rfl⟩
    unfold foldNode
    rw [hnode]
    rfl
  | bool v =>
    intro id d c b hat hr ht hd
    obtain ⟨d, rfl⟩ := Nat.exists_eq_add_of_le' hd
    obtain ⟨location, hnode⟩ := locate_kindOf hat
    change Succeeds (emitExpr id) (performWithin (d + 1)) c
    unfold Succeeds emitExpr
    rw [hnode]
    refine emitLiteral_succeeds (.bool v) ?_ ⟨_, _, rfl⟩
    unfold foldNode
    rw [hnode]
    rfl
  | char code =>
    intro id d c b hat hr ht hd
    obtain ⟨d, rfl⟩ := Nat.exists_eq_add_of_le' hd
    obtain ⟨location, hnode⟩ := locate_kindOf hat
    change Succeeds (emitExpr id) (performWithin (d + 1)) c
    unfold Succeeds emitExpr
    rw [hnode]
    refine emitLiteral_succeeds (.int code .char) ?_ ⟨_, _, rfl⟩
    unfold foldNode
    rw [hnode]
    rfl
  | var name =>
    intro id d c b hat hr ht hd
    obtain ⟨d, rfl⟩ := Nat.exists_eq_add_of_le' hd
    obtain ⟨location, hnode⟩ := locate_kindOf hat
    obtain ⟨place, k, hplace, hk, hint, hbelow⟩ := ht name (List.mem_singleton_self _)
    change Succeeds (emitExpr id) (performWithin d) c
    unfold Succeeds emitExpr
    rw [hnode]
    change Succeeds (emitName name location) (performWithin d) c
    unfold Succeeds emitName
    rw [bind_of_eq_ok (get_apply _ c), if_pos (Context.isVariable_of_place? hplace)]
    obtain ⟨c₁, hrun, hfollows⟩ := variablePlace_spec hr hplace
    refine Succeeds.bind ⟨place, c₁, hrun⟩ fun place' c₁' hplace' => ?_
    cases hrun.symm.trans hplace'
    exact loadPlace_succeeds hfollows.ready hk
  | neg e ih | bitNot e ih =>
    intro id d c b hat hr ht hd
    obtain ⟨d, rfl⟩ := Nat.exists_eq_add_of_le' (Nat.le_trans (Nat.le_add_left 1 _) hd)
    obtain ⟨operand, hkind, hat⟩ := hat
    obtain ⟨location, hnode⟩ := locate_kindOf hkind
    change Succeeds (emitExpr id) (performWithin d) c
    unfold Succeeds emitExpr
    rw [hnode]
    exact emitInversion_succeeds ih hat hr ht (Nat.le_of_succ_le_succ hd)
  | not e ih =>
    intro id d c b hat hr ht hd
    obtain ⟨d, rfl⟩ := Nat.exists_eq_add_of_le' (Nat.le_trans (Nat.le_add_left 1 _) hd)
    obtain ⟨operand, hkind, hat⟩ := hat
    obtain ⟨location, hnode⟩ := locate_kindOf hkind
    change Succeeds (emitExpr id) (performWithin d) c
    unfold Succeeds emitExpr
    rw [hnode]
    refine Succeeds.bind (emitCondition_succeeds ih hat hr ht (Nat.le_of_succ_le_succ hd)) fun o c₁ ho => ?_
    obtain ⟨b₁, e₁⟩ := emitCondition_spec (emitExpr_spec e) hat hr ht ho
    exact (succeeds_build e₁.follows.ready _).map _
  | binary op l r ihl ihr =>
    intro id d c b hat hr ht hd
    obtain ⟨d, rfl⟩ := Nat.exists_eq_add_of_le' (Nat.le_trans (Nat.le_add_left 1 _) hd)
    obtain ⟨hassign, lhs, rhs, hkind, hatl, hatr⟩ := hat
    obtain ⟨location, hnode⟩ := locate_kindOf hkind
    change Succeeds (emitExpr id) (performWithin d) c
    unfold Succeeds emitExpr
    rw [hnode]
    simp only [emitBinary, hassign, Bool.false_eq_true, if_false]
    rw [ite_apply]
    cases hlogical : op.isLogical with
    | true => exact emitLogical_succeeds ihl ihr hatl hatr hr ht (Nat.le_of_succ_le_succ hd)
    | false =>
      exact operands_succeed ihl ihr hatl hatr hr ht (Nat.le_of_succ_le_succ hd)
        fun hready hleft hright => emitOperation_succeeds hready hassign hlogical hleft hright
  | cast k e ih =>
    intro id d c b hat hr ht hd
    obtain ⟨d, rfl⟩ := Nat.exists_eq_add_of_le' (Nat.le_trans (Nat.le_add_left 1 _) hd)
    obtain ⟨hk, operand, hkind, hat⟩ := hat
    obtain ⟨location, hnode⟩ := locate_kindOf hkind
    change Succeeds (emitExpr id) (performWithin d) c
    unfold Succeeds emitExpr
    rw [hnode]
    refine Succeeds.bind ⟨_, _, resolveType_scalar k location⟩ fun type c₀ htype => ?_
    cases (resolveType_scalar k location).symm.trans htype
    refine Succeeds.bind (ih hat hr ht (Nat.le_of_succ_le_succ hd)) fun value c₁ hvalue => ?_
    obtain ⟨_, operand⟩ := value
    obtain ⟨k', b₁, rfl, e₁⟩ := emitExpr_spec e hat hr ht hvalue
    exact castTo_succeeds e₁.follows.ready e₁.kind hk

end Expressions

end CompileM
end UnitCompiler
