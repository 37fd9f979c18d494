import UnitCompiler.Proofs.Compile.Actions
import UnitCompiler.Proofs.Machine.Walk
import UnitCompiler.Proofs.Types.Cycles

/-!
# Calls through function values

A call through a value passes every argument unchanged and uses the convention of C, whatever function the
value is.  For a function whose parameters all travel unchanged this is the call of the function itself: the
same code for the same arguments, up to the callee of the last instruction, and a machine does the same in
both.
-/

namespace UnitCompiler

/-! ### Functions in memory -/

namespace Machine

variable {i : Image}

/-- The address of a function leads back to its name. -/
theorem Image.functionAt_functionAddress? {name : String} {address : Nat}
    (h : i.functionAddress? name = some address) : i.functionAt address = .ok name := by
  obtain ⟨index, hindex, rfl⟩ := Option.map_eq_some_iff.mp h
  obtain ⟨hlt, hname, -⟩ := List.findIdx?_eq_some_iff_getElem.mp hindex
  unfold Image.functionAt
  rw [if_neg (by omega), Nat.add_sub_cancel_left, List.getElem?_eq_getElem hlt]
  simpa using hname

theorem Image.eval_function_eq_ok {frame : Frame} {name : String} {v : Value}
    (h : i.eval frame (.function name) = .ok v) :
    ∃ address, v = .ptr address ∧ i.functionAt address = .ok name := by
  rw [Image.eval] at h
  cases haddress : i.functionAddress? name with
  | none =>
    rw [haddress] at h
    cases h
  | some address =>
    rw [haddress] at h
    cases h
    exact ⟨address, rfl, Image.functionAt_functionAddress? haddress⟩

/-- Calling a value that is a function does what calling the function by its name does. -/
theorem perform_call_value {frame : Frame} {name : String} {callee : Operand} {v : Value}
    (hname : i.eval frame (.function name) = .ok v) (hcallee : i.eval frame callee = .ok v) (caller : Caller)
    (args : List Operand) (convention convention' : CallingConvention) (isTail : Bool) (type type' : IrType) :
    perform i caller frame type (.call callee args convention isTail) =
      perform i caller frame type' (.call (.function name) args convention' isTail) := by
  obtain ⟨address, rfl, hat⟩ := Image.eval_function_eq_ok hname
  by_cases hfunction : ∃ other, callee = .function other
  · obtain ⟨other, rfl⟩ := hfunction
    obtain ⟨address', heq, hat'⟩ := Image.eval_function_eq_ok hcallee
    cases heq
    cases hat.symm.trans hat'
    rfl
  · rw [perform_indirect fun other heq => hfunction ⟨other, heq⟩]
    have hptr : i.evalPtr frame callee = .ok address := by
      unfold Image.evalPtr
      rw [hcallee]
      rfl
    rw [hptr]
    simp only [liftFault, pure_bind, hat]
    rfl

end Machine

/-! ### The two code paths -/

theorem SourceType.lower_of_isVoid {s : SymbolTables} {type : SourceType} (h : type.isVoid = true) :
    s.lower type = .ok .void := by
  unfold SymbolTables.lower
  rw [← lowerWith_strip]
  unfold SourceType.isVoid at h
  split at h
  · rename_i hstrip
    rw [hstrip, SourceType.lowerWith]
  · cases h

/-- Every parameter travels unchanged: the convention does not sort parameters by shape, or there is no
aggregate among them. -/
def FunctionSymbol.PassesUnchanged (f : FunctionSymbol) : Prop :=
  f.convention = .sysV → ∀ type ∈ f.params, type.aggregateName? = none

namespace CompileM

variable {p : Performer} {c c' : Context} {f : FunctionSymbol} {location : Location}

theorem classifyParams_of_passesUnchanged (h : f.PassesUnchanged) :
    classifyParams f location p c = .ok (f.params.map fun _ => .direct) c := by
  refine mapM_apply fun type htype => ?_
  rw [ite_apply]
  split_ifs with hconvention
  · unfold classify
    rw [h hconvention type htype]
    rfl
  · rfl

theorem callableType_of_function {type : SourceType} (h : type.strip = f.type) :
    callableType location type p c = .ok f.functionType c := by
  unfold callableType
  rw [h]
  rfl

theorem build_eq_ok {α : Type} {action : BuildM α} {a : α} (h : build action p c = .ok a c') :
    ∃ F, c.function = some F ∧ a = (action.run F.builder).1 ∧
      c' = c.advance (action.run F.builder).2 F.scope := by
  cases hF : c.function with
  | none =>
    unfold build functionState at h
    obtain ⟨F, c₁, hstate, -⟩ := bind_eq_ok.mp h
    rw [bind_of_eq_ok (get_apply p c), hF] at hstate
    cases hstate
  | some F =>
    rw [build_apply hF] at h
    cases h
    exact ⟨F, rfl, rfl, rfl⟩

theorem checkArity_eq_ok {name : String} {expected got : Nat} {isVariadic : Bool}
    (h : checkArity name expected got isVariadic location p c = .ok () c') :
    c' = c ∧ ∀ name', checkArity name' expected got isVariadic location p c = .ok () c := by
  unfold checkArity at h ⊢
  split_ifs at h ⊢
  · cases h
  · cases h
    exact ⟨rfl, fun _ => rfl⟩

theorem lower_apply {type : SourceType} {machine : IrType} (h : c.symbols.lower type = .ok machine)
    (location : Location) : lower type location p c = .ok machine c := by
  unfold lower
  rw [bind_of_eq_ok (get_apply p c), h]
  rfl

/-- The result of a call is known before its callee is. -/
theorem call_run_fst (callee callee' : Operand) (args : List Operand)
    (convention convention' : CallingConvention) (ret : IrType) (b : FunctionBuilder) :
    ((FunctionBuilder.call callee args convention ret).run b).1 =
      ((FunctionBuilder.call callee' args convention' ret).run b).1 := by
  unfold FunctionBuilder.call FunctionBuilder.push
  simp only [StateT.run_bind, StateT.run_get, pure_bind]
  split <;> rfl

/-- Let all parameters of a function travel unchanged, and let a call of the function compile.  The call of a
value of the function's type compiles for the same arguments, with the same result: the arguments are passed
by the same code, behind which stands one call instruction that differs in the callee and, for a `main`
without a result, in the type of the result.  Where the value is the function, a machine does the same in
both. -/
theorem callIndirect_of_callFunction {key : String} {target : Rvalue} {args : List Argument} {r : Rvalue}
    (hf : c.symbols.functions.get? key = some f) (hunchanged : f.PassesUnchanged)
    (htarget : target.type.strip = f.type) (h : callFunction key args location p c = .ok r c') :
    ∃ (operands : List Operand) (c₁ : Context) (F : FunctionState) (ret ret' : IrType),
      passArguments location args (f.params.map (·, .direct)) p c = .ok operands c₁ ∧
      c₁.function = some F ∧
      c' = c₁.advance
        ((FunctionBuilder.call (.function f.linkName) operands f.convention ret).run F.builder).2 F.scope ∧
      callIndirect target args location p c = .ok r (c₁.advance
        ((FunctionBuilder.call target.operand operands .c ret').run F.builder).2 F.scope) ∧
      (ret' = ret ∨ f.returnsZero = true) ∧
      ∀ (i : Machine.Image) (frame : Machine.Frame) (v : Machine.Value),
        i.eval frame (.function f.linkName) = .ok v → i.eval frame target.operand = .ok v →
        ∀ caller type type', Machine.perform i caller frame type (.call target.operand operands .c false) =
          Machine.perform i caller frame type' (.call (.function f.linkName) operands f.convention false) := by
  have hclasses : f.params.zip (f.params.map fun _ => PassingClass.direct) = f.params.map (·, .direct) := by
    simpa using List.zip_map' (f := id) (g := fun _ => PassingClass.direct) (l := f.params)
  unfold callFunction at h
  rw [bind_of_eq_ok (get_apply p c), hf] at h
  obtain ⟨⟨⟩, c₀, harity, hrun⟩ := bind_eq_ok.mp h
  obtain ⟨hsame, harity⟩ := checkArity_eq_ok harity
  rw [hsame, bind_of_eq_ok (classifyParams_of_passesUnchanged hunchanged), hclasses] at hrun
  obtain ⟨operands, c₁, hoperands, hrun⟩ := bind_eq_ok.mp hrun
  obtain ⟨ret, ret', hlower, hret, F, hF, hr, hc'⟩ : ∃ ret ret', c₁.symbols.lower f.ret = .ok ret' ∧
      (ret' = ret ∨ f.returnsZero = true) ∧ ∃ F, c₁.function = some F ∧
        r = callResult f.ret
          ((FunctionBuilder.call (.function f.linkName) operands f.convention ret).run F.builder).1 ∧
        c' = c₁.advance
          ((FunctionBuilder.call (.function f.linkName) operands f.convention ret).run F.builder).2 F.scope := by
    cases hzero : f.returnsZero with
    | true =>
      have hvoid : f.ret.isVoid = true := by
        simp only [FunctionSymbol.returnsZero, Bool.and_eq_true] at hzero
        exact hzero.2
      rw [hzero, if_pos rfl] at hrun
      obtain ⟨ret, c₂, hpure, hrun⟩ := bind_eq_ok.mp hrun
      cases hpure
      obtain ⟨result, c₃, hbuild, hrun⟩ := bind_eq_ok.mp hrun
      cases hrun
      obtain ⟨F, hF, rfl, rfl⟩ := build_eq_ok hbuild
      exact ⟨_, _, SourceType.lower_of_isVoid hvoid, .inr rfl, F, hF, rfl, rfl⟩
    | false =>
      rw [hzero, if_neg Bool.false_ne_true] at hrun
      obtain ⟨ret, c₂, hret, hrun'⟩ := bind_eq_ok.mp hrun
      obtain ⟨rfl, hlower⟩ := lower_eq_ok hret
      obtain ⟨result, c₃, hbuild, hreturn⟩ := bind_eq_ok.mp hrun'
      cases hreturn
      obtain ⟨F, hF, rfl, rfl⟩ := build_eq_ok hbuild
      exact ⟨_, _, hlower, .inl rfl, F, hF, rfl, rfl⟩
  refine ⟨operands, c₁, F, ret, ret', hoperands, hF, hc', ?_, hret, fun i frame v hname hcallee caller type type' =>
    Machine.perform_call_value hname hcallee caller operands _ _ _ type type'⟩
  have hresult : r = callResult f.ret
      ((FunctionBuilder.call target.operand operands .c ret').run F.builder).1 := by
    rcases hret with rfl | hzero
    · rw [hr, call_run_fst]
    · simp only [FunctionSymbol.returnsZero, Bool.and_eq_true] at hzero
      rw [hr, callResult, callResult, if_pos hzero.2, if_pos hzero.2]
  unfold callIndirect
  rw [bind_of_eq_ok (callableType_of_function htarget)]
  simp only [FunctionSymbol.functionType]
  rw [bind_of_eq_ok (harity _), bind_of_eq_ok hoperands, bind_of_eq_ok (lower_apply hlower location),
    bind_of_eq_ok (build_apply hF _), hresult]
  rfl

end CompileM

/-- A function of two numbers with a convention of its own. -/
def FunctionSymbol.sum : FunctionSymbol where
  decl := ⟨0⟩
  name := "sum"
  key := "sum"
  linkName := "sum"
  params := [.int, .int]
  paramNames := ["a", "b"]
  ret := .int
  isVariadic := false
  convention := .fast
  owner := none
  constructorOf := none
  space := []
  isInstance := false
  isExternal := false
  subst := {}

/-- Another function is under emission. -/
def Context.callingSum : Context where
  tree := { nodes := #[] }
  symbols := { functions := ⟨[("sum", .sum)]⟩ }
  function := some
    { builder := .new { name := "caller", signature := { params := [], ret := .i32 } } {}
      ret := .int
      exit := 0
      exitTail := 0 }

/-- Both calls compile, with the same result. -/
theorem callIndirect_of_sum : ∃ r c' c'',
    CompileM.callFunction "sum" [⟨⟨.int, constI32 1⟩, none⟩, ⟨⟨.int, constI32 2⟩, none⟩] default
      (performWithin 0) .callingSum = .ok r c' ∧
    CompileM.callIndirect ⟨FunctionSymbol.sum.type, .argument 0⟩
      [⟨⟨.int, constI32 1⟩, none⟩, ⟨⟨.int, constI32 2⟩, none⟩] default
      (performWithin 0) .callingSum = .ok r c'' := by
  have hcall : ∃ r c', CompileM.callFunction "sum" [⟨⟨.int, constI32 1⟩, none⟩, ⟨⟨.int, constI32 2⟩, none⟩]
      default (performWithin 0) .callingSum = .ok r c' := ⟨_, _, rfl⟩
  obtain ⟨r, c', h⟩ := hcall
  have hvalue : (⟨FunctionSymbol.sum.type, .argument 0⟩ : Rvalue).type.strip = FunctionSymbol.sum.type := rfl
  obtain ⟨operands, c₁, F, ret, ret', -, -, -, hindirect, -⟩ :=
    CompileM.callIndirect_of_callFunction (f := .sum) rfl nofun hvalue h
  exact ⟨r, c', _, h, hindirect⟩

end UnitCompiler
