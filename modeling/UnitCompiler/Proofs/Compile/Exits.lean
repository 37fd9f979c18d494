import UnitCompiler.Proofs.Compile.Switches

/-!
# Jumps and returns

Statements that leave the block they stand in: control goes to a target of the innermost loop, or to
the exit of the function with the result in its slot.
-/

namespace UnitCompiler
open Machine

section Jumps

variable {c : Context} {F : FunctionState} {E : Env} {L : Layout}

/-- A jump with a signal that leads to its target. -/
theorem Site.jump (h : Site c F E L) (ho : F.builder.Open) {target : Nat} (htarget : target ≠ 0)
    (signal : Signal)
    (hends : ∀ A L₁ s r frame st, Models A.image L₁ E.names s r ⟨⟨target, 0⟩, frame, st⟩ →
      ∀ Next, Ends A L₁ F E.names r Next signal s ⟨⟨target, 0⟩, frame, st⟩) :
    Compiles c (c.advance (F.builder.finishWith (.br target)) F.scope) F
      { F with builder := F.builder.finishWith (.br target) } E E L L (fun _ => .done signal) [] := by
  have hend : F.builder.Continues [F.builder.current] (F.builder.finishWith (.br target)) :=
    (FunctionBuilder.Continues.refl h.sound (List.mem_singleton_self _)).finishWith _
  obtain ⟨hsite, hw⟩ := h.advance hend h.tail_not_mem
  refine ⟨hsite, rfl, ⟨[], List.Sublist.refl _, hw.mono _ (by simp)⟩, ?_⟩
  intro A L₁ hlater fuel frame st s r hmodels
  have hhas := hlater.has
  rw [FunctionBuilder.finishWith_of_open ho] at hhas
  exact (leads_jump h.sound hhas htarget (hends A L₁ s r frame st (hmodels.moved _) _)).mono
    (Nat.zero_le _) (fun _ => id) fun _ => id

end Jumps

namespace CompileM

variable {c c' : Context} {F : FunctionState} {d : Nat} {location : Location}

theorem emitJump_apply {word : String} {target : LoopTargets → Nat} (hF : c.function = some F)
    (h : emitJump word target location (performWithin d) c = .ok () c') :
    ∃ t, F.loops.head? = some t ∧
      c' = c.advance (F.builder.finishWith (.br (target t))) F.scope := by
  unfold emitJump at h
  rw [bind_of_eq_ok (functionState_apply hF)] at h
  cases hloops : F.loops with
  | nil =>
    rw [hloops] at h
    cases h
  | cons t rest =>
    rw [hloops] at h
    obtain ⟨-, rfl⟩ := eq_advance_of_build hF (FunctionBuilder.terminate_run_eq _ _) h
    exact ⟨t, rfl, rfl⟩

theorem stmtWorks_leave : StmtWorks .leave := by
  intro id d c c' F E L hat hsite ho _ h
  obtain ⟨d, h⟩ := work_of_performWithin h
  obtain ⟨location, hpeel⟩ := locate_kindOf (show c.tree.HasKind id .breakLoop from hat)
  change emitStmt id _ c = _ at h
  unfold emitStmt at h
  rw [hpeel] at h
  obtain ⟨t, ht, rfl⟩ := emitJump_apply hsite.function h
  have hpos := hsite.loops t (List.mem_of_mem_head? (by simp [ht]))
  exact ⟨_, L, hsite.jump ho hpos.1 .leave fun A L₁ s r frame st hmodels Next =>
    ⟨t, ht, rfl, hmodels⟩⟩

theorem stmtWorks_again : StmtWorks .again := by
  intro id d c c' F E L hat hsite ho _ h
  obtain ⟨d, h⟩ := work_of_performWithin h
  obtain ⟨location, hpeel⟩ := locate_kindOf (show c.tree.HasKind id .continueLoop from hat)
  change emitStmt id _ c = _ at h
  unfold emitStmt at h
  rw [hpeel] at h
  obtain ⟨t, ht, rfl⟩ := emitJump_apply hsite.function h
  have hpos := hsite.loops t (List.mem_of_mem_head? (by simp [ht]))
  exact ⟨_, L, hsite.jump ho hpos.2 .again fun A L₁ s r frame st hmodels Next =>
    ⟨t, ht, rfl, hmodels⟩⟩

end CompileM

/-- Another result, where the slots have it. -/
theorem Models.result {i : Image} {L : Layout} {names : List (String × Nat)} {s : Store}
    {r r' : IntValue} {C C' : Config} (h : Models i L names s r C)
    (hr : Represents i L.slots C'.frame C'.state.memory (s.cells r')) : Models i L names s r' C' :=
  ⟨hr, h.defined, h.deferred, h.supported⟩

namespace CompileM

variable {c c' : Context} {F : FunctionState} {E : Env} {L : Layout} {d : Nat} {location : Location}

/-- A return with a value stores it and leaves. -/
theorem emitReturned_spec {e : IntExpr} {slot : Slot} {source : Scalar} {o : Operand} {c₁ : Context}
    {b₁ : FunctionBuilder} (hsite : Site c F E L)
    (hvars : ∀ name ∈ e.vars, (numberOf E.names name).isSome)
    (e₁ : Emits c c₁ F.builder b₁ o source (Means c e)) (hslot : slot ∈ L.slots)
    (hcell : slot.cell = .result) (hret : F.ret.strip = .scalar slot.kind)
    (h : (do
      let value ← coerce ⟨.scalar source, o⟩ F.ret location
      build (FunctionBuilder.store value.operand slot.operand)
      build (FunctionBuilder.br F.exit)) (performWithin d) c₁ = .ok () c') :
    ∃ F', Compiles c c' F F' E E L L
      (fun _ s => (s.eval E.names e).elim .fault fun x => .done (.ret (some x)) s) [] := by
  obtain ⟨⟨_, value⟩, c₂, hcoerce, h⟩ := bind_eq_ok.mp h
  obtain ⟨⟨⟩, c₃, hstore, h⟩ := bind_eq_ok.mp h
  have hint := (hsite.slots slot hslot).1
  obtain ⟨-, b₂, e₂⟩ := coerce_spec e₁.follows.ready e₁.kind hint hret e₁.below hcoerce
  obtain ⟨c₃', hrun, hfollows⟩ :=
    build_store (p := performWithin d) e₂.follows.ready value slot.operand
  cases hrun.symm.trans hstore
  have hall := (e₁.follows.trans e₂.follows).trans hfollows
  obtain ⟨F₃, hF₃, hplaces, hsite₃, hw₃⟩ := hsite.follows hall
  obtain ⟨-, rfl⟩ := eq_advance_of_build hsite₃.function (FunctionBuilder.terminate_run_eq _ _) h
  have hend : F₃.builder.Continues [F₃.builder.current] (F₃.builder.finishWith (.br F.exit)) :=
    (FunctionBuilder.Continues.refl hsite₃.sound (List.mem_singleton_self _)).finishWith _
  obtain ⟨hsite₄, hw₄⟩ := hsite₃.advance hend hsite₃.tail_not_mem
  have hw := hw₃.trans_here hw₄
  refine ⟨_, hsite₄, congrArg _ hplaces, ⟨[], List.Sublist.refl _, hw.mono _ (by simp)⟩, ?_⟩
  intro A L₁ hlater fuel frame st s r hmodels
  have hlater₃ := hlater.of_written hw₄
  rw [hF₃] at hlater₃
  have hlater₂ := hlater₃.of_continues hfollows.continues
  have hlater₁ := hlater₂.of_continues e₂.follows.continues
  refine Realizes.value (e₁.computes A frame st _ hlater₁.has ⟨hmodels.represents.base, _,
    hmodels.provides hsite hlater₁ hvars, rfl⟩) fun x C hx hC => ?_
  obtain ⟨point, frame₁, st₁⟩ := C
  obtain rfl : point = b₁.here := hC.point
  refine Activation.Leads.andThen (e₂.computes A frame₁ st₁ (some (x.convert slot.kind))
    hlater₂.has ⟨x, hC.value, hC.kind, rfl⟩) fun C₂ hC₂ => ?_
  obtain ⟨point, frame₂, st₂⟩ := C₂
  obtain rfl : point = b₂.here := hC₂.point
  have hframe := hC.frame.trans hC₂.frame e₁.follows.continues.value e₂.follows.continues.value
  have hmodels₂ : Models A.image L₁ E.names s r ⟨b₂.here, frame₂, st₂⟩ :=
    hmodels.keep hframe (hC.memory.trans hC₂.memory) (hlater₂.outside hsite)
  refine (leads_storeSlot e₂.follows.continues.sound hlater₃.has hmodels₂.represents hlater.nodup
    (hlater₂.mem hslot) (by rw [hcell]; rfl) hC₂.value hC₂.kind).andThen fun C₃ hC₃ => ?_
  obtain ⟨point, frame₃, st₃⟩ := C₃
  obtain ⟨rfl, -, hrep⟩ := hC₃
  rw [hcell, ← Store.cells_result] at hrep
  have hhas := hlater.has
  rw [FunctionBuilder.finishWith_of_open (hF₃ ▸ hfollows.isOpen)] at hhas
  rw [← hF₃]
  refine (leads_jump hsite₃.sound hhas hsite.exit_pos ?_).mono (Nat.zero_le _) (fun _ => id)
    fun _ => id
  have hreturned : F.returned (some x) r = x.convert slot.kind := by
    simp only [FunctionState.returned, hret]
  exact ⟨rfl, hreturned ▸ hmodels₂.result hrep⟩

theorem stmtWorks_ret {value : Option IntExpr} : StmtWorks (.ret value) := by
  intro id d c c' F E L hat hsite ho hdefer h
  obtain ⟨node, hkind, hat⟩ := hat
  obtain ⟨d, h⟩ := work_of_performWithin h
  obtain ⟨location, hpeel⟩ := locate_kindOf hkind
  change emitStmt id _ c = _ at h
  unfold emitStmt at h
  rw [hpeel] at h
  simp only [emitReturn] at h
  rw [bind_of_eq_ok (functionState_apply hsite.function)] at h
  replace h := (guard_passes h).2
  rw [hsite.plain] at h
  simp only [Bool.false_eq_true, if_false] at h
  cases value with
  | none =>
    cases node with
    | some id => exact hat.elim
    | none =>
      cases hslot : F.resultSlot with
      | some slot =>
        rw [hslot] at h
        cases h
      | none =>
        rw [hslot] at h
        simp only at h
        obtain ⟨-, rfl⟩ := eq_advance_of_build hsite.function
          (FunctionBuilder.terminate_run_eq _ _) h
        exact ⟨_, L, hsite.jump ho hsite.exit_pos (.ret none) fun A L₁ s r frame st hmodels Next =>
          ⟨rfl, hmodels⟩⟩
  | some e =>
    cases node with
    | none => exact hat.elim
    | some id =>
      cases hresult : F.resultSlot with
      | none =>
        rw [hresult] at h
        cases h
      | some o =>
        rw [hresult] at h
        obtain ⟨slot, hslot, hcell, rfl, hret⟩ := hsite.result.1 o hresult
        obtain ⟨⟨_, value⟩, c₁, hexpr, h⟩ := bind_eq_ok.mp h
        obtain ⟨source, b₁, rfl, e₁⟩ :=
          emitExpr_spec e hat.1 (hsite.ready ho) (hsite.typed hat.2) hexpr
        obtain ⟨F', h'⟩ := emitReturned_spec hsite hat.2 e₁ hslot hcell hret h
        exact ⟨F', L, h'⟩

end CompileM
end UnitCompiler
