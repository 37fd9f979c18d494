import UnitCompiler.Proofs.Compile.Values

/-!
# Emission of operations on numbers

Truth values, conversions and binary operations: the code that is emitted for them computes what they
mean.
-/

namespace UnitCompiler
open Machine

/-- An action emitted code from `b` to `b'` for a value of a kind: in every frame and state that is
fit for a value, the code computes it. -/
structure Emits (c c' : Context) (b b' : FunctionBuilder) (o : Operand) (k : Scalar)
    (Fit : Activation → Machine.Frame → State → Option IntValue → Prop) : Prop where
  follows : Follows c c' b b'
  below : o.Below b'.nextValue
  kind : k.isInteger = true
  computes : ∀ A frame s v, A.Has b' → Fit A frame s v → Computes A b b' o k frame s v

/-- Two pieces of code in a row. -/
theorem Emits.andThen {c c₁ c₂ : Context} {b b₁ b₂ : FunctionBuilder} {o₁ o₂ : Operand}
    {k₁ k₂ : Scalar} {Fit Fit₁ Fit₂ : Activation → Machine.Frame → State → Option IntValue → Prop}
    (h₁ : Emits c c₁ b b₁ o₁ k₁ Fit₁) (h₂ : Emits c₁ c₂ b₁ b₂ o₂ k₂ Fit₂)
    (hfit : ∀ A frame s v, Fit A frame s v → ∃ v₁ f, Fit₁ A frame s v₁ ∧ v = v₁.bind f ∧
      ∀ x C, v₁ = some x → Delivers A b b₁ o₁ k₁ frame s.memory x C →
        Fit₂ A C.frame C.state (f x)) :
    Emits c c₂ b b₂ o₂ k₂ Fit := by
  refine ⟨h₁.follows.trans h₂.follows, h₂.below, h₂.kind, fun A frame s v hA hv => ?_⟩
  obtain ⟨v₁, f, hv₁, rfl, hnext⟩ := hfit A frame s v hv
  have hA₁ := hA.of_continues h₂.follows.continues
  refine (h₁.computes A frame s v₁ hA₁ hv₁).bind h₁.follows.continues.value
    h₂.follows.continues.value fun x C hx hC => ?_
  exact h₂.computes A C.frame C.state (f x) hA (hnext x C hx hC)

theorem Emits.of_imp {c c' : Context} {b b' : FunctionBuilder} {o : Operand} {k : Scalar}
    {Fit Fit' : Activation → Machine.Frame → State → Option IntValue → Prop}
    (h : Emits c c' b b' o k Fit) (himp : ∀ A frame s v, Fit' A frame s v → Fit A frame s v) :
    Emits c c' b b' o k Fit' :=
  ⟨h.follows, h.below, h.kind, fun A frame s v hA hv => h.computes A frame s v hA (himp A frame s v hv)⟩

/-- A number that an operand stands for is mapped. -/
def OnOperand (o : Operand) (k : Scalar) (f : IntValue → Option IntValue) :
    Activation → Machine.Frame → State → Option IntValue → Prop :=
  fun A frame _ v => ∃ x, Denotes A.image frame o x ∧ x.kind = k ∧ v = f x

/-- Two numbers that operands stand for are combined. -/
def OnOperands (o₁ : Operand) (k₁ : Scalar) (o₂ : Operand) (k₂ : Scalar)
    (f : IntValue → IntValue → Option IntValue) :
    Activation → Machine.Frame → State → Option IntValue → Prop :=
  fun A frame _ v => ∃ x y, Denotes A.image frame o₁ x ∧ x.kind = k₁ ∧
    Denotes A.image frame o₂ y ∧ y.kind = k₂ ∧ v = f x y

namespace CompileM

variable {p : Performer} {c c' : Context} {b : FunctionBuilder} {k : Scalar} {location : Location}
  {o : Operand}

/-- One more instruction. -/
theorem build_push (hr : Ready c b) (operation : Operation) {type : IrType}
    (hvoid : type.isVoid = false) :
    ∃ c', build (FunctionBuilder.push operation (some type)) p c = .ok (.register b.nextValue) c' ∧
      Follows c c' b (b.place operation (some type)) := by
  obtain ⟨F, hF, rfl⟩ := hr.function
  have hrun := build_apply (p := p) hF (FunctionBuilder.push operation (some type))
  have hresult : FunctionBuilder.result F.builder.nextValue (some type) =
      .register F.builder.nextValue := by
    simp [FunctionBuilder.result, Instruction.hasResult, hvoid]
  rw [FunctionBuilder.push_run hr.isOpen, hresult] at hrun
  refine ⟨_, hrun, ⟨F, F.scope, hF, rfl, rfl, rfl⟩, ?_, ?_⟩
  · exact (FunctionBuilder.Continues.refl hr.sound (List.mem_singleton_self _)).place hr.isOpen _ _
  · exact (FunctionBuilder.open_place hr.sound _ _).mpr hr.isOpen

/-- One more instruction that maps a number to a number. -/
theorem emits_push (hr : Ready c b) {operation : Operation} (hk : k.isInteger = true)
    {Fit : Activation → Machine.Frame → State → Option IntValue → Prop}
    (h : build (FunctionBuilder.push operation (some k.machineType)) p c = .ok o c')
    (hfit : ∀ A frame s v, Fit A frame s v →
      (∀ x, v = some x → x.WellFormed ∧ x.kind = k) ∧
        Machine.perform A.image A.caller frame k.machineType operation
          { s with steps := s.steps + 1 } = outcome { s with steps := s.steps + 1 } v) :
    Emits c c' b (b.place operation (some k.machineType)) o k Fit := by
  obtain ⟨c₁, hrun, hfollows⟩ := build_push (p := p) hr operation (isVoid_machineType k)
  cases hrun.symm.trans h
  refine ⟨hfollows, Nat.lt_succ_self _, hk, fun A frame s v hA hv => ?_⟩
  exact .place hr.sound hA (hfit A frame s v hv).1 (hfit A frame s v hv).2

theorem truthValue_apply (hk : k.isInteger = true) (hbool : k ≠ .bool) (o : Operand) :
    truthValue ⟨.scalar k, o⟩ location p c =
      build (FunctionBuilder.push (.compare .ne o (constInt 0 k.machineType))
        (some Scalar.bool.machineType)) p c := by
  cases k <;> first | rfl | simp_all [Scalar.isInteger, Scalar.isFloat]

theorem truthValue_spec {value : Operand} (hr : Ready c b) (hk : k.isInteger = true)
    (hbelow : value.Below b.nextValue)
    (h : truthValue ⟨.scalar k, value⟩ location p c = .ok o c') :
    ∃ b', Emits c c' b b' o .bool (OnOperand value k fun x => some (.ofBool x.truth)) := by
  by_cases hbool : k = .bool
  · subst hbool
    cases h
    refine ⟨b, .refl hr, hbelow, rfl, ?_⟩
    rintro A frame s v - ⟨x, hx, hkind, rfl⟩
    have hself : IntValue.ofBool x.truth = x := by
      have hconvert := IntValue.convert_self hx.wellFormed
      rwa [hkind, IntValue.convert, if_pos rfl] at hconvert
    simp only [hself]
    exact .refl hx hkind
  · rw [truthValue_apply hk hbool] at h
    refine ⟨_, emits_push hr rfl h ?_⟩
    rintro A frame s v ⟨⟨kind, n⟩, hx, rfl, rfl⟩
    refine ⟨?_, ?_⟩
    · rintro y hy
      cases hy
      exact ⟨IntValue.wellFormed_ofBool _, rfl⟩
    · have hzero := denotes_constInt A.image frame hk 0
      rw [IntValue.ofInt, kind.inRange_zero] at hzero
      exact perform_compare A.caller _ _ hx hzero
        (show BinaryOp.ne.compareOp? kind.isUnsigned = some .ne from rfl)

/-- The operand of a number that is converted by an instruction or stays as it is. -/
theorem castTo_apply {source target : Scalar} (hs : source.isInteger = true)
    (ht : target.isInteger = true) (o : Operand) :
    castTo ⟨.scalar source, o⟩ (.scalar target) location p c =
      if target = .bool ∧ source ≠ .bool then
        ((fun o => ⟨.scalar .bool, o⟩) <$> truthValue ⟨.scalar source, o⟩ location) p c
      else
        match (Conversion.ofScalars source target).op? with
        | none => .ok ⟨.scalar target, o⟩ c
        | some op =>
          ((fun o => ⟨.scalar target, o⟩) <$>
            build (FunctionBuilder.convert op o target.machineType)) p c := by
  cases source <;> cases target <;> first | rfl | simp_all [Scalar.isInteger, Scalar.isFloat]

theorem castTo_spec {source target : Scalar} {value : Operand} {result : Rvalue} (hr : Ready c b)
    (hs : source.isInteger = true) (ht : target.isInteger = true) (hbelow : value.Below b.nextValue)
    (h : castTo ⟨.scalar source, value⟩ (.scalar target) location p c = .ok result c') :
    result.type = .scalar target ∧ ∃ b', Emits c c' b b' result.operand target
      (OnOperand value source fun x => some (x.convert target)) := by
  rw [castTo_apply hs ht] at h
  split_ifs at h with hbool
  · obtain ⟨rfl, -⟩ := hbool
    obtain ⟨o, htruth, rfl⟩ := map_eq_ok.mp h
    exact ⟨rfl, truthValue_spec hr hs hbelow htruth⟩
  · have hboth : target = .bool → source = .bool := fun hb => by
      by_contra hne
      exact hbool ⟨hb, hne⟩
    cases hop : (Conversion.ofScalars source target).op? with
    | none =>
      rw [hop] at h
      cases h
      refine ⟨rfl, b, .refl hr, hbelow, ht, ?_⟩
      rintro A frame s v - ⟨x, hx, rfl, rfl⟩
      refine .refl ⟨IntValue.wellFormed_convert x ht, ?_, ?_⟩ (IntValue.kind_convert x target)
      · rw [word_convert_of_noop hx.wellFormed ht hboth hop]
        exact hx.eval
      · rw [IntValue.kind_convert, ← machineType_eq_of_noop hs ht hop]
        exact hx.type
    | some op =>
      rw [hop] at h
      obtain ⟨o, hpush, rfl⟩ := map_eq_ok.mp h
      refine ⟨rfl, _, emits_push hr ht hpush ?_⟩
      rintro A frame s v ⟨x, hx, rfl, rfl⟩
      refine ⟨?_, ?_⟩
      · rintro y hy
        cases hy
        exact ⟨IntValue.wellFormed_convert x ht, IntValue.kind_convert x target⟩
      · have hne : target ≠ .bool := by
          rintro rfl
          rw [hboth rfl] at hop
          cases hop
        exact perform_convert A.caller _ _ hx ht hne hop

theorem sameAs_scalar {a b : Scalar} :
    (SourceType.scalar a).sameAs (.scalar b) = true ↔ a = b := by
  constructor
  · intro h
    have hname : a.name = b.name := by simpa [SourceType.sameAs, SourceType.canonical] using h
    have hsome := Scalar.ofName?_name a
    rw [hname, Scalar.ofName?_name] at hsome
    exact (Option.some.inj hsome).symm
  · rintro rfl
    simp [SourceType.sameAs]

/-- A number in a place of some kind. -/
theorem coerce_spec {source target : Scalar} {type : SourceType} {value : Operand} {result : Rvalue}
    (hr : Ready c b) (hs : source.isInteger = true) (ht : target.isInteger = true)
    (htype : type.strip = .scalar target) (hbelow : value.Below b.nextValue)
    (h : coerce ⟨.scalar source, value⟩ type location p c = .ok result c') :
    result.type = .scalar target ∧ ∃ b', Emits c c' b b' result.operand target
      (OnOperand value source fun x => some (x.convert target)) := by
  simp only [coerce, htype] at h
  rw [ite_apply, ite_apply] at h
  by_cases hsame : source = target
  · subst hsame
    have htrue : (SourceType.scalar source).sameAs (.scalar source) = true := sameAs_scalar.mpr rfl
    simp only [SourceType.strip, htrue, if_true] at h
    cases h
    refine ⟨rfl, b, .refl hr, hbelow, ht, ?_⟩
    rintro A frame s v - ⟨x, hx, rfl, rfl⟩
    simp only [IntValue.convert_self hx.wellFormed]
    exact .refl hx rfl
  · have hfalse : (SourceType.scalar source).sameAs (.scalar target) = false := by
      rw [← Bool.not_eq_true, sameAs_scalar]
      exact hsame
    simp only [SourceType.strip, hfalse] at h
    exact castTo_spec hr hs ht hbelow h

/-- The kind of the result of a binary operation whose operands have a common kind. -/
def resultKind (op : BinaryOp) (common : Scalar) : Scalar :=
  if op.isComparison then .bool else common

/-- The instruction on two numbers of one kind. -/
theorem emitKind_spec {op : BinaryOp} {l r : Operand} {left right : SourceType} {result : Rvalue}
    (hr : Ready c b) (hk : k.isInteger = true)
    (h : (if op.isComparison then emitCompare op l r k.isUnsigned
      else
        match op.arithOp? k with
        | some op =>
          return ⟨.scalar k, ← build (FunctionBuilder.push (.arith op l r) (some k.machineType))⟩
        | none => bail location (.invalidOperands op left.strip.canonical right.strip.canonical) :
        CompileM Rvalue) p c = .ok result c') :
    result.type = .scalar (resultKind op k) ∧ ∃ b', Emits c c' b b' result.operand (resultKind op k)
      (OnOperands l k r k fun x y =>
        if op.isComparison then some (.ofBool (IntValue.compares op x.value y.value))
        else (IntValue.arith? op k x.value y.value).map (IntValue.ofInt k)) := by
  rw [ite_apply] at h
  unfold resultKind
  cases hop : op.isComparison with
  | true =>
    rw [hop] at h
    simp only [if_true, emitCompare] at h ⊢
    cases hinstr : op.compareOp? k.isUnsigned with
    | none =>
      rw [hinstr] at h
      cases h
    | some instr =>
      rw [hinstr] at h
      obtain ⟨o, c₁, hpush, hpure⟩ := bind_eq_ok.mp h
      cases hpure
      refine ⟨rfl, _, emits_push (k := .bool) hr rfl hpush ?_⟩
      rintro A frame s v ⟨⟨_, x⟩, ⟨_, y⟩, hx, rfl, hy, rfl, rfl⟩
      refine ⟨?_, perform_compare A.caller _ _ hx hy hinstr⟩
      rintro z hz
      cases hz
      exact ⟨IntValue.wellFormed_ofBool _, rfl⟩
  | false =>
    rw [hop] at h
    simp only [Bool.false_eq_true, if_false] at h ⊢
    cases hinstr : op.arithOp? k with
    | none =>
      rw [hinstr] at h
      cases h
    | some instr =>
      rw [hinstr] at h
      obtain ⟨o, c₁, hpush, hpure⟩ := bind_eq_ok.mp h
      cases hpure
      refine ⟨rfl, _, emits_push hr hk hpush ?_⟩
      rintro A frame s v ⟨⟨_, x⟩, ⟨_, y⟩, hx, rfl, hy, rfl, rfl⟩
      refine ⟨?_, perform_arith A.caller _ _ hx hy hinstr⟩
      rintro z hz
      obtain ⟨n, -, rfl⟩ := Option.map_eq_some_iff.mp hz
      exact ⟨IntValue.wellFormed_ofInt hk n, rfl⟩

theorem emitOperation_spec {op : BinaryOp} {left right : Scalar} {l r : Operand} {result : Rvalue}
    (hr : Ready c b) (hleft : left.isInteger = true) (hright : right.isInteger = true)
    (hl : l.Below b.nextValue) (hr' : r.Below b.nextValue)
    (h : emitOperation op ⟨.scalar left, l⟩ ⟨.scalar right, r⟩ location p c = .ok result c') :
    result.type = .scalar (resultKind op (left.common right)) ∧
      ∃ b', Emits c c' b b' result.operand (resultKind op (left.common right))
        (OnOperands l left r right (IntValue.binary? op)) := by
  have hcommon : (left.common right).isInteger = true := Scalar.isInteger_common hleft hright
  change emitNumeric op ⟨.scalar left, l⟩ ⟨.scalar right, r⟩ (left.common right) location p c =
    .ok result c' at h
  obtain ⟨x', c₁, hx', h⟩ := bind_eq_ok.mp h
  obtain ⟨y', c₂, hy', h⟩ := bind_eq_ok.mp h
  obtain ⟨-, b₁, e₁⟩ := castTo_spec hr hleft hcommon hl hx'
  have hmono := e₁.follows.continues.value
  obtain ⟨-, b₂, e₂⟩ := castTo_spec e₁.follows.ready hright hcommon (hr'.mono hmono) hy'
  obtain ⟨htype, b₃, e₃⟩ := emitKind_spec e₂.follows.ready hcommon h
  have e₂₃ : Emits _ _ _ _ _ _ (OnOperands x'.operand (left.common right) r right fun x y =>
      if op.isComparison then
        some (.ofBool (IntValue.compares op x.value (y.convert (left.common right)).value))
      else (IntValue.arith? op (left.common right) x.value
        (y.convert (left.common right)).value).map (IntValue.ofInt (left.common right))) :=
      e₂.andThen e₃ (by
    rintro A frame s v ⟨x, y, hx, hxk, hy, hyk, rfl⟩
    refine ⟨_, fun _ => _, ⟨y, hy, hyk, rfl⟩, rfl, ?_⟩
    rintro z C hz hC
    cases hz
    exact ⟨x, _, hC.frame.denotes hx e₁.below, hxk, hC.value, hC.kind, rfl⟩)
  refine ⟨htype, b₃, e₁.andThen e₂₃ ?_⟩
  rintro A frame s v ⟨x, y, hx, hxk, hy, hyk, rfl⟩
  refine ⟨_, fun _ => IntValue.binary? op x y, ⟨x, hx, hxk, rfl⟩, rfl, ?_⟩
  rintro z C hz hC
  cases hz
  refine ⟨_, y, hC.value, hC.kind, hC.frame.denotes hy hr', hyk, ?_⟩
  simp only [IntValue.binary?, hxk, hyk]

end CompileM

/-- What an operator computes has the kind of its result. -/
theorem IntValue.kind_binary? {op : BinaryOp} {x y z : IntValue} (h : binary? op x y = some z) :
    z.kind = CompileM.resultKind op (x.kind.common y.kind) := by
  unfold binary? at h
  unfold CompileM.resultKind
  cases hop : op.isComparison with
  | true =>
    simp only [hop, if_true] at h
    cases h
    rfl
  | false =>
    simp only [hop, Bool.false_eq_true, if_false] at h
    obtain ⟨v, -, rfl⟩ := Option.map_eq_some_iff.mp h
    rfl

end UnitCompiler
