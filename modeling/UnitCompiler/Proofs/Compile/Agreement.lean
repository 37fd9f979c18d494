import Mathlib
import UnitCompiler.Proofs.Compile.Sessions
import UnitCompiler.Proofs.Source.Folding

/-!
# Compile time and run time

A closed expression that is folded and also compiled gives the same number both times, as long as
folding stays in the ranges of the kinds.  Numbers of `ucent` from the upper half of its range are
where it does not.
-/

namespace UnitCompiler

/-- A logical operator is folded to a truth value. -/
theorem IntExpr.type_of_foldLogical {op : BinaryOp} {a folded : ConstValue}
    {right : Except Problem (Option ConstValue)} (h : foldLogical op a right = .ok (some folded)) :
    folded.type = .scalar .bool := by
  unfold foldLogical at h
  cases htruth : a.truth? with
  | none =>
    rw [htruth] at h
    cases h
  | some truth =>
    rw [htruth] at h
    simp only at h
    split at h
    · cases h
      rfl
    · rcases right with _ | _ | b
      · cases h
      · cases h
      · obtain ⟨t, -, rfl⟩ := Option.map_eq_some_iff.mp (Except.ok.inj h)
        rfl

namespace CompileM

variable {c c' : Context} {b : FunctionBuilder} {id : NodeId} {d : Nat} {e : IntExpr} {value : Rvalue}
  {folded : ConstValue}

/-- The emission of an expression without variables. -/
theorem emitted_closed (hat : e.At c.tree id) (hr : Ready c b) (hclosed : e.vars = [])
    (h : performWithin d (.emitExpr id) c = .ok value c') : Emitted c c' b e value := by
  refine emitExpr_spec e hat hr ?_ h
  rw [hclosed]
  intro name hname
  cases hname

/-- An expression is compiled to the kind that it is folded to. -/
theorem type_of_fold (hat : e.At c.tree id) (hr : Ready c b) (hclosed : e.vars = [])
    (hrange : e.FoldsInRange) (hfold : e.fold = .ok (some folded))
    (h : performWithin d (.emitExpr id) c = .ok value c') : value.type = folded.type := by
  let ρ : String → IntValue := fun _ => .ofBool false
  induction e generalizing id d c c' b value folded with
  | int v =>
    obtain ⟨d, h⟩ := work_of_performWithin h
    obtain ⟨location, hnode⟩ := locate_kindOf hat
    change emitExpr id _ c = _ at h
    unfold emitExpr at h
    rw [hnode] at h
    cases emitLiteral_spec (e := .int v) hat rfl rfl h
    cases hfold
    rfl
  | bool v =>
    obtain ⟨d, h⟩ := work_of_performWithin h
    obtain ⟨location, hnode⟩ := locate_kindOf hat
    change emitExpr id _ c = _ at h
    unfold emitExpr at h
    rw [hnode] at h
    cases emitLiteral_spec (e := .bool v) hat rfl rfl h
    cases hfold
    rfl
  | char code =>
    obtain ⟨d, h⟩ := work_of_performWithin h
    obtain ⟨location, hnode⟩ := locate_kindOf hat
    change emitExpr id _ c = _ at h
    unfold emitExpr at h
    rw [hnode] at h
    cases emitLiteral_spec (e := .char code) hat rfl rfl h
    cases hfold
    rfl
  | var name => cases hclosed
  | neg e ih | bitNot e ih =>
    obtain ⟨operand, hkind, hat⟩ := hat
    obtain ⟨a, ha, hop⟩ := IntExpr.fold_of_map hfold
    obtain ⟨d, h⟩ := work_of_performWithin h
    obtain ⟨location, hnode⟩ := locate_kindOf hkind
    change emitExpr id _ c = _ at h
    unfold emitExpr at h
    rw [hnode] at h
    obtain ⟨⟨type, o⟩, c₁, hexpr, h⟩ := bind_eq_ok.mp h
    obtain ⟨k, b₁, rfl, -⟩ := emitted_closed hat hr hclosed hexpr
    have htype := ih hat hr hclosed hrange ha hexpr
    replace h := (guard_passes h).2
    simp only [SourceType.strip] at h
    rw [bind_of_eq_ok (lower_scalar k location)] at h
    obtain ⟨o, c₃, hpush, hpure⟩ := bind_eq_ok.mp h
    cases hpure
    rw [htype]
    cases a <;> cases hop <;> rfl
  | not e ih =>
    obtain ⟨operand, hkind, hat⟩ := hat
    obtain ⟨a, ha, hop⟩ := IntExpr.fold_of_map hfold
    obtain ⟨d, h⟩ := work_of_performWithin h
    obtain ⟨location, hnode⟩ := locate_kindOf hkind
    change emitExpr id _ c = _ at h
    unfold emitExpr at h
    rw [hnode] at h
    obtain ⟨o, c₁, -, h⟩ := bind_eq_ok.mp h
    obtain ⟨o', c₂, -, hpure⟩ := bind_eq_ok.mp h
    cases hpure
    obtain ⟨truth, -, rfl⟩ : ∃ truth, a.truth? = some truth ∧ ConstValue.bool (!truth) = folded := by
      cases a <;> exact Option.map_eq_some_iff.mp hop
    rfl
  | binary op l r ihl ihr =>
    obtain ⟨hassign, lhs, rhs, hkind, hatl, hatr⟩ := hat
    obtain ⟨hrangel, hranger, hmeet⟩ := hrange
    obtain ⟨hl, hr'⟩ := List.append_eq_nil_iff.mp hclosed
    obtain ⟨d, h⟩ := work_of_performWithin h
    obtain ⟨location, hnode⟩ := locate_kindOf hkind
    change emitExpr id _ c = _ at h
    unfold emitExpr at h
    rw [hnode] at h
    simp only [emitBinary, hassign, Bool.false_eq_true, if_false] at h
    rw [ite_apply] at h
    obtain ⟨a, hla, hfold⟩ := IntExpr.fold_of_binary hfold
    obtain ⟨x, -, hx⟩ := IntExpr.eval_of_fold ρ hatl hrangel hla
    obtain ⟨-, hmeet⟩ := hmeet a hla
    cases hlogical : op.isLogical with
    | true =>
      simp only [hlogical, if_true] at h hfold hmeet
      obtain ⟨o₁, c₁, -, h⟩ := bind_eq_ok.mp h
      obtain ⟨o₂, c₂, -, h⟩ := bind_eq_ok.mp h
      obtain ⟨o₃, c₃, -, h⟩ := bind_eq_ok.mp h
      obtain ⟨o₄, c₄, -, hpure⟩ := bind_eq_ok.mp h
      cases hpure
      exact (IntExpr.type_of_foldLogical hfold).symm
    | false =>
      simp only [hlogical, Bool.false_eq_true, if_false] at h hfold hmeet
      obtain ⟨b', hrb, hfold⟩ := hfold
      obtain ⟨y, -, hy⟩ := IntExpr.eval_of_fold ρ hatr hranger hrb
      obtain ⟨⟨type, o⟩, c₁, hleft, h⟩ := bind_eq_ok.mp h
      obtain ⟨⟨type', o'⟩, c₂, hright, h⟩ := bind_eq_ok.mp h
      obtain ⟨k, b₁, rfl, e₁⟩ := emitted_closed hatl hr hl hleft
      have hk := ihl hatl hr hl hrangel hla hleft
      rw [← e₁.follows.tree] at hatr
      obtain ⟨k', b₂, rfl, e₂⟩ := emitted_closed hatr e₁.follows.ready hr' hright
      have hk' := ihr hatr e₁.follows.ready hr' hranger hrb hright
      obtain ⟨htype, -⟩ := emitOperation_spec e₂.follows.ready e₁.kind e₂.kind
        (e₁.below.mono e₂.follows.continues.value) e₂.below h
      obtain ⟨z, hz, hdenotes⟩ := ConstValue.foldBinary_denotes hx hy (hmeet b' hrb) hfold
      rw [hx.type_eq] at hk
      rw [hy.type_eq] at hk'
      cases hk
      cases hk'
      rw [htype, hdenotes.type_eq, IntValue.kind_binary? hz]
  | cast k e ih =>
    obtain ⟨hk, operand, hkind, hat⟩ := hat
    obtain ⟨a, ha, hop⟩ := IntExpr.fold_of_map hfold
    obtain ⟨x, -, hx⟩ := IntExpr.eval_of_fold ρ hat hrange.1 ha
    obtain ⟨d, h⟩ := work_of_performWithin h
    obtain ⟨location, hnode⟩ := locate_kindOf hkind
    change emitExpr id _ c = _ at h
    unfold emitExpr at h
    rw [hnode] at h
    obtain ⟨_, c₁, htype, h⟩ := bind_eq_ok.mp h
    cases (resolveType_scalar k location).symm.trans htype
    obtain ⟨⟨type, o⟩, c₁, hexpr, h⟩ := bind_eq_ok.mp h
    obtain ⟨k', b₁, rfl, e₁⟩ := emitted_closed hat hr hclosed hexpr
    obtain ⟨hvalue, -⟩ := castTo_spec e₁.follows.ready e₁.kind hk e₁.below h
    rw [hvalue, (hx.convert hk (hrange.2 a ha) hop).type_eq, IntValue.kind_convert]

end CompileM

namespace IntUnit

open Machine

variable {t : Tree} {roots : List NodeId} {options : CompileOptions} {unit : CompiledUnit}
  {decl : FunctionDecl}

/-- A closed expression that is folded within the ranges of its kinds is compiled to the kind of the
value, the function that returns it gives the value, and the value is true exactly when the expression
is. -/
theorem run_folded {k : Scalar} {e : IntExpr} {folded : ConstValue} {c c' : Context} {id : NodeId}
    {d : Nat} (hat : (returning [] k e).At t decl roots)
    (hcompile : compileUnit t roots options = .ok unit) (hclosed : e.vars = [])
    (hrange : e.FoldsInRange) (hid : e.At c.tree id)
    (hfold : performWithin d (.fold id) c = .ok (some folded) c') (htype : folded.type = .scalar k) :
    ∃ x, folded.Denotes x ∧ x.kind = k ∧ (folded.InRange → folded.truth? = some x.truth) ∧
      (∀ {d : Nat} {id : NodeId} {c c' : Context} {b : FunctionBuilder} {value : Rvalue},
        e.At c.tree id → Ready c b → performWithin d (.emitExpr id) c = .ok value c' →
        value.type = folded.type) ∧
      ∃ booted, boot unit.program = .ok booted ∧ ∀ session : Session,
        session.image = booted.image → booted.state.memory.size ≤ session.state.memory.size →
        (session.run ((returning [] k e).linkName decl) []).1 = .ok x.word ∨
          ∃ fault, (session.run ((returning [] k e).linkName decl) []).1 = .error fault ∧
            fault.isLimit = true := by
  obtain ⟨hvalue, -⟩ := CompileM.fold_spec hid hclosed hfold
  obtain ⟨x, hx, hdenotes⟩ := IntExpr.eval_of_fold (argument [] []) hid hrange hvalue
  have hkind : x.kind = k := SourceType.scalar.inj (hdenotes.type_eq.symm.trans htype)
  obtain ⟨booted, hboot, hrun⟩ := run_returning hat hcompile
  refine ⟨x, hdenotes, hkind, hdenotes.truth?_eq, ?_, booted, hboot, ?_⟩
  · intro d id c c' b value hat hr h
    exact CompileM.type_of_fold hat hr hclosed hrange hvalue h
  · intro session hsame hsize
    have hsession := hrun session [] hsame hsize .nil
    rw [hx] at hsession
    simp only [← hkind, IntValue.convert_self hdenotes.wellFormed] at hsession
    exact hsession

/-- The function `int quotient() { return -7 / 2; }`. -/
def quotientDecl : FunctionDecl := { name := "quotient", ret := .scalar .int, body := some ⟨5⟩ }

def quotientTree : Tree where
  nodes := #[⟨.int 7, default⟩, ⟨.unary .neg ⟨0⟩, default⟩, ⟨.int 2, default⟩,
    ⟨.binary .div ⟨1⟩ ⟨2⟩, default⟩, ⟨.ret (some ⟨3⟩), default⟩, ⟨.block [⟨4⟩], default⟩,
    ⟨.function quotientDecl, default⟩]

def quotient : IntExpr := .binary .div (.neg (.int 7)) (.int 2)

theorem quotient_at : quotient.At quotientTree ⟨3⟩ :=
  ⟨rfl, ⟨1⟩, ⟨2⟩, ⟨_, rfl⟩, ⟨⟨0⟩, ⟨_, rfl⟩, ⟨_, rfl⟩⟩, ⟨_, rfl⟩⟩

theorem quotient_foldsInRange : quotient.FoldsInRange := by
  refine ⟨trivial, trivial, ?_⟩
  intro a ha
  cases ha
  refine ⟨by decide, ?_⟩
  intro b hb
  cases hb
  refine ⟨by decide, by decide, ?_, nofun⟩
  rintro v w ⟨⟩ ⟨⟩
  decide

theorem run_quotient : ∃ unit booted, compileUnit quotientTree [⟨6⟩] {} = .ok unit ∧
    boot unit.program = .ok booted ∧
    ((booted.run ((returning [] .int quotient).linkName quotientDecl) []).1 =
        .ok (IntValue.mk .int (-3)).word ∨
      ∃ fault, (booted.run ((returning [] .int quotient).linkName quotientDecl) []).1 = .error fault ∧
        fault.isLimit = true) := by
  have hat : (returning [] .int quotient).At quotientTree quotientDecl [⟨6⟩] := by
    refine ⟨⟨rfl, by decide, rfl, by decide, rfl, ⟨5⟩, rfl, [⟨4⟩], ⟨_, rfl⟩, ?_⟩, List.nodup_nil, [], ⟨6⟩,
      [], rfl, ⟨_, rfl⟩, .nil⟩
    exact ⟨⟨4⟩, [], rfl, ⟨some ⟨3⟩, ⟨_, rfl⟩, quotient_at, by decide⟩, rfl⟩
  have hok : (compileUnit quotientTree [⟨6⟩] {}).isOk = true := by decide +kernel
  cases hcompile : compileUnit quotientTree [⟨6⟩] {} with
  | error stop =>
    rw [hcompile] at hok
    cases hok
  | ok unit =>
    have hfold : performWithin 9 (.fold ⟨3⟩) (Context.new quotientTree {}) =
        .ok (some (.int (-3) .int)) (Context.new quotientTree {}) := rfl
    obtain ⟨x, hx, -, -, -, booted, hboot, hrun⟩ := run_folded hat hcompile rfl quotient_foldsInRange
      quotient_at hfold rfl
    obtain ⟨-, -, rfl⟩ := hx
    exact ⟨unit, booted, rfl, hboot, hrun booted rfl (le_refl _)⟩

end IntUnit
end UnitCompiler
