import UnitCompiler.Proofs.Source.Expression

/-!
# Folding of closed expressions

What folding a node gives when the node is an expression without variables: the value is a function of
the expression alone, and the context stays as it was.
-/

namespace UnitCompiler

namespace IntExpr

/-- Folds a logical operator behind its left operand. -/
def foldLogical (op : BinaryOp) (left : ConstValue) (right : Except Problem (Option ConstValue)) :
    Except Problem (Option ConstValue) :=
  match left.truth? with
  | none => .ok none
  | some truth =>
    if truth == (op == .or) then .ok (some (.bool truth))
    else right.map fun value => (value.bind ConstValue.truth?).map .bool

/-- The value of an expression at compile time; variables have none. -/
def fold : IntExpr → Except Problem (Option ConstValue)
  | .int value => .ok (some (.ofInt value))
  | .bool value => .ok (some (.bool value))
  | .char code => .ok (some (.int code .char))
  | .var _ => .ok none
  | .neg e => e.fold.map (·.bind (ConstValue.foldUnary .neg))
  | .bitNot e => e.fold.map (·.bind (ConstValue.foldUnary .bitNot))
  | .not e => e.fold.map (·.bind (ConstValue.foldUnary .not))
  | .binary op l r =>
    match l.fold with
    | .error problem => .error problem
    | .ok none => .ok none
    | .ok (some left) =>
      if op.isLogical then foldLogical op left r.fold
      else
        match r.fold with
        | .error problem => .error problem
        | .ok none => .ok none
        | .ok (some right) => ConstValue.foldBinary op left right
  | .cast k e => e.fold.map (·.bind (·.convert (.scalar k)))

end IntExpr

namespace CompileM

variable {p : Performer} {c c' : Context} {id : NodeId} {d : Nat} {e : IntExpr}

/-- A number's type is what it says. -/
theorem resolveType_scalar (k : Scalar) (location : Location) :
    resolveType (.scalar k) location p c = .ok (.scalar k) c := by
  unfold resolveType
  rw [bind_of_eq_ok (get_apply p c)]
  rfl

theorem foldLogical_spec {op : BinaryOp} {left : ConstValue} {r : IntExpr} {rhs : NodeId}
    {v : Option ConstValue}
    (hr : ∀ v c', performWithin d (.fold rhs) c = .ok v c' → r.fold = .ok v ∧ c' = c)
    (h : foldLogical op left rhs (performWithin d) c = .ok v c') :
    IntExpr.foldLogical op left r.fold = .ok v ∧ c' = c := by
  unfold foldLogical at h
  unfold IntExpr.foldLogical
  cases htruth : left.truth? with
  | none =>
    rw [htruth] at h
    cases h
    exact ⟨rfl, rfl⟩
  | some truth =>
    rw [htruth] at h
    simp only at h ⊢
    cases hdecides : truth == (op == .or) with
    | true =>
      rw [hdecides] at h
      cases h
      exact ⟨rfl, rfl⟩
    | false =>
      rw [hdecides] at h
      simp only [Bool.false_eq_true, if_false] at h ⊢
      obtain ⟨w, c₁, hw, hpure⟩ := bind_eq_ok.mp h
      cases hpure
      obtain ⟨hfold, rfl⟩ := hr w _ hw
      rw [hfold]
      exact ⟨rfl, rfl⟩

/-- Folding a closed expression gives the expression's value and changes nothing. -/
theorem fold_spec {v : Option ConstValue} (hat : e.At c.tree id) (hclosed : e.vars = [])
    (h : performWithin d (.fold id) c = .ok v c') : e.fold = .ok v ∧ c' = c := by
  induction e generalizing id d v c' with
  | int value | bool value | char code =>
    obtain ⟨d, h⟩ := work_of_performWithin h
    obtain ⟨location, hnode⟩ := locate_kindOf hat
    change foldNode id _ c = _ at h
    unfold foldNode at h
    rw [hnode] at h
    cases h
    exact ⟨rfl, rfl⟩
  | var name => simp [IntExpr.vars] at hclosed
  | neg e ih | bitNot e ih | not e ih =>
    obtain ⟨operand, hkind, hat⟩ := hat
    obtain ⟨d, h⟩ := work_of_performWithin h
    obtain ⟨location, hnode⟩ := locate_kindOf hkind
    change foldNode id _ c = _ at h
    unfold foldNode at h
    rw [hnode] at h
    obtain ⟨w, c₁, hw, hpure⟩ := bind_eq_ok.mp h
    cases hpure
    obtain ⟨hfold, rfl⟩ := ih hat hclosed hw
    rw [IntExpr.fold, hfold]
    exact ⟨rfl, rfl⟩
  | binary op l r ihl ihr =>
    obtain ⟨hassign, lhs, rhs, hkind, hatl, hatr⟩ := hat
    obtain ⟨hl, hr⟩ := List.append_eq_nil_iff.mp hclosed
    obtain ⟨d, h⟩ := work_of_performWithin h
    obtain ⟨location, hnode⟩ := locate_kindOf hkind
    change foldNode id _ c = _ at h
    unfold foldNode at h
    rw [hnode] at h
    simp only [hassign] at h
    obtain ⟨w, c₁, hw, h⟩ := bind_eq_ok.mp h
    obtain ⟨hfold, rfl⟩ := ihl hatl hl hw
    rw [IntExpr.fold, hfold]
    cases w with
    | none =>
      cases h
      exact ⟨rfl, rfl⟩
    | some left =>
      simp only at h ⊢
      rw [ite_apply] at h
      cases hlogical : op.isLogical with
      | true =>
        rw [hlogical] at h
        exact foldLogical_spec (fun v c' hrun => ihr hatr hr hrun) h
      | false =>
        rw [hlogical] at h
        obtain ⟨w, c₂, hw, h⟩ := bind_eq_ok.mp h
        obtain ⟨hfold, rfl⟩ := ihr hatr hr hw
        rw [hfold]
        cases w with
        | none =>
          cases h
          exact ⟨rfl, rfl⟩
        | some right =>
          simp only [Bool.false_eq_true, if_false] at h ⊢
          cases hbinary : ConstValue.foldBinary op left right with
          | error problem =>
            rw [hbinary] at h
            cases h
          | ok value =>
            rw [hbinary] at h
            cases h
            exact ⟨rfl, rfl⟩
  | cast k e ih =>
    obtain ⟨-, operand, hkind, hat⟩ := hat
    obtain ⟨d, h⟩ := work_of_performWithin h
    obtain ⟨location, hnode⟩ := locate_kindOf hkind
    change foldNode id _ c = _ at h
    unfold foldNode at h
    rw [hnode] at h
    obtain ⟨w, c₁, hw, h⟩ := bind_eq_ok.mp h
    obtain ⟨hfold, rfl⟩ := ih hat hclosed hw
    rw [IntExpr.fold, hfold]
    cases w with
    | none =>
      cases h
      exact ⟨rfl, rfl⟩
    | some value =>
      simp only at h
      rw [bind_of_eq_ok (resolveType_scalar k location)] at h
      cases h
      exact ⟨rfl, rfl⟩

end CompileM
end UnitCompiler
