import UnitCompiler.Proofs.Compile.Loops

/-!
# Switches

The value of a switch is computed once and compared with the values of the cases one after the other;
the body of the first equal one runs, and control goes behind the switch.
-/

namespace UnitCompiler
open Machine

namespace FunctionBuilder

variable {b : FunctionBuilder}

theorem enterCase_run (hb : b.Sound) (ho : b.Open) (o : Operand) :
    (do
      let bodyBlock ← createBlock "switch.case"
      let nextBlock ← createBlock "switch.next"
      condBr o bodyBlock nextBlock
      switchTo bodyBlock
      return nextBlock : BuildM Nat).run b =
    (b.nextBlock + 1,
      (b.leaveFor ["switch.case", "switch.next"] (.condBr o b.nextBlock (b.nextBlock + 1))).moveTo
        b.nextBlock) := by
  rw [leaveFor, ← finishWith_of_open (ho.addBlocks hb _)]
  simp only [run_bind, createBlock_run, condBr, terminate_run_eq, switchTo_run]
  rfl

end FunctionBuilder

/-- The equality of the value of a switch with the value of a case. -/
def Store.matches? (s : Store) (names : List (String × Nat)) (x : IntValue) (value : IntExpr) :
    Option Bool :=
  (s.eval names value).bind fun y => (IntValue.binary? .eq x y).map (·.truth)

/-- What the emission of the cases of a switch establishes; `o` is the value of the switch, of the kind
`k`, and `stop` the block behind the switch. -/
structure EmitsCases (o : Operand) (k : Scalar) (stop : Nat) (c c' : Context) (F F' : FunctionState)
    (E E' : Env) (L L' : Layout) (run : Nat → IntValue → Store → Outcome) (defers : List Deferred) :
    Prop where
  site : Site c' F' E' L'
  scope : F'.scope.places.tail = F.scope.places.tail
  written : ∃ new, new.Sublist defers ∧
    Written [F.builder.current, F.exitTail, stop] c c' F F' L L' new
  isOpen : F'.builder.Open
  here : F'.builder.here = ⟨stop, 0⟩
  runs : ∀ A L₁, Later A L₁ F'.builder L' → ∀ fuel frame st s r x,
    Models A.image L₁ E.names s r ⟨F.builder.here, frame, st⟩ → Denotes A.image frame o x →
    x.kind = k →
    Realizes A fuel ⟨F.builder.here, frame, st⟩ (Ends A L₁ F E.names r (Enters A L₁ E.names r stop))
      (run fuel x s)

section Cases

variable {c c' c₁ c₂ : Context} {F F₁ F₂ : FunctionState} {E E₁ E₂ : Env} {L L₁ L₂ : Layout}
  {o : Operand} {k : Scalar} {stop : Nat}

/-- A last statement of a switch leads behind the switch. -/
theorem Compiles.toEmitsCases {run : Nat → Store → Outcome} {defers : List Deferred}
    (h : Compiles c c₁ F F₁ E E₁ L L₁ run defers) (hnames : E₁.names = E.names)
    (hstop : F₁.builder.Fresh stop) (hne : F₁.builder.current ≠ stop) (hpos : stop ≠ 0)
    (htail : F₁.exitTail ≠ stop) :
    EmitsCases o k stop c (c₁.advance ((F₁.builder.finishWith (.br stop)).moveTo stop) F₁.scope) F
      { F₁ with builder := (F₁.builder.finishWith (.br stop)).moveTo stop } E E₁ L L₁
      (fun fuel _ => run fuel) defers := by
  obtain ⟨new, hnew, hw⟩ := h.written
  have hend : F₁.builder.Continues [F₁.builder.current] (F₁.builder.finishWith (.br stop)) :=
    (FunctionBuilder.Continues.refl h.site.sound (List.mem_singleton_self _)).finishWith _
  obtain ⟨hsite₂, hw₂⟩ := h.site.advance hend h.site.tail_not_mem
  have hstop₂ := hstop.continues hend (by simpa using hne.symm)
  obtain ⟨hsite₃, hw₃⟩ := hsite₂.land hstop₂ htail
  rw [Context.advance_advance] at hsite₃ hw₃
  have hwritten := ((hw.mono [F.builder.current, F.exitTail, stop] (by simp_all)).trans_here
    hw₂).trans hw₃ (by simp)
  rw [List.append_nil, List.append_nil] at hwritten
  refine ⟨hsite₃, h.scope, ⟨new, hnew, hwritten⟩, hstop₂.isOpen, hstop₂.here, ?_⟩
  intro A L₁ hlater fuel frame st s r x hmodels _ _
  have hrun := h.runs.toward h.site.sound hpos (hlater.of_written hw₃) fuel _ _ _ _ hmodels
  rwa [hnames] at hrun

/-- One case in front of others. -/
theorem EmitsCases.cons {lo next : Nat} {c₃ c₄ : Context} {F₃ F₄ : FunctionState} {L₄ : Layout}
    {value : IntExpr} {run : Nat → Store → Outcome} {run' : Nat → IntValue → Store → Outcome}
    {count count' : Nat} {defers defers' : List Deferred} (hlo : next = lo + 1)
    (h₁ : Splits c c₁ F F₁ E L lo 2 lo next fun A frame s v => ∃ x, Denotes A.image frame o x ∧
      x.kind = k ∧ v = s.matches? E.names x value)
    (h₂ : Branches F₁.loops lo stop c₁ c₂ F₁ F₂ E (E.skip count) L L₂ run defers)
    (h₃ : Site c₃ F₃ (E.skip count) L₂ ∧ Written [next] c₂ c₃ F₂ F₃ L₂ L₂ [])
    (hcurrent : F₃.builder.current = next) (hscope : F₃.scope.places = F₂.scope.places)
    (hhere : F₃.builder.here = ⟨next, 0⟩)
    (h₄ : EmitsCases o k stop c₃ c₄ F₃ F₄ (E.skip count) (E.skip (count + count')) L₂ L₄ run' defers')
    (hbelow : o.Below F.builder.nextValue) :
    EmitsCases o k stop c c₄ F F₄ E (E.skip (count + count')) L L₄
      (fun fuel x s => .branch (s.matches? E.names x value) (run fuel s) (run' fuel x s))
      (defers ++ defers') := by
  subst hlo
  obtain ⟨new, hnew, hw₂⟩ := h₂.written
  obtain ⟨hsite₃, hw₃⟩ := h₃
  obtain ⟨new', hnew', hw₄⟩ := h₄.written
  have hw := ((h₁.written.mono [F.builder.current, F.exitTail, stop] (by simp)).trans_branch
    (by simp) h₁.first hw₂).trans_block (h₁.first.trans (Nat.le_succ _)) hw₃
  rw [List.nil_append, List.append_nil] at hw
  have hwritten := hw.trans hw₄ (by
    intro x hx
    rcases List.mem_cons.mp hx with rfl | hx
    · exact Or.inr (hcurrent ▸ h₁.first.trans (Nat.le_succ _))
    rcases List.mem_cons.mp hx with rfl | hx
    · rcases hw.tail with htail | htail
      · exact Or.inl (by simp [htail])
      · exact Or.inr htail
    · exact Or.inl (by simp_all))
  refine ⟨h₄.site, h₄.scope.trans ((congrArg _ hscope).trans (h₂.scope.trans (congrArg _ h₁.scope))),
    ⟨new ++ new', hnew.append hnew', hwritten⟩, h₄.isOpen, h₄.here, ?_⟩
  intro A L₀ hlater fuel frame st s r x hmodels hx hk
  have hlater₂ := (hlater.of_written hw₄).of_written hw₃
  refine (h₁.runs A L₀ (hlater₂.of_written hw₂) fuel frame st s r _ _ _ hmodels ⟨x, hx, hk, rfl⟩
    ?_).mono (Nat.le_succ _)
  intro t frame' st' _ hframe hmodels'
  cases t with
  | true =>
    exact (h₂.runs A L₀ hlater₂ fuel frame' st' s r hmodels').ends h₁.written.fixed (fun _ hq => hq)
      fun s' C hC => .refl hC
  | false =>
    have hrun := h₄.runs A L₀ hlater fuel frame' st' s r x
    rw [hhere] at hrun
    refine (hrun hmodels' (hframe.denotes hx hbelow) hk).ends hw.fixed (fun _ hq => hq)
      fun s' C hC => .refl hC

end Cases
namespace CompileM

/-- What is emitted for the cases of a switch, a default behind them and the way out. -/
def emitCases (scrutinee : Rvalue) (stop : Nat) (cases : List SwitchCase) (default : Option NodeId) :
    CompileM Unit := do
  cases.forM (emitCase scrutinee stop)
  emitOptional default
  build do
    FunctionBuilder.br stop
    FunctionBuilder.switchTo stop

theorem emitCases_cons (scrutinee : Rvalue) (stop : Nat) (case : SwitchCase) (cases : List SwitchCase)
    (default : Option NodeId) :
    emitCases scrutinee stop (case :: cases) default = (do
      emitCase scrutinee stop case
      emitCases scrutinee stop cases default) := by
  simp [emitCases]

theorem emitSwitch_eq (value : NodeId) (cases : List SwitchCase) (default : Option NodeId)
    (location : Location) :
    emitSwitch value cases default location = (do
      if cases.isEmpty then bail location .emptySwitch
      let scrutinee ← perform (.emitExpr value)
      let endBlock ← build (FunctionBuilder.createBlock "switch.end")
      emitCases scrutinee endBlock cases default) := by
  unfold emitSwitch emitCases
  cases default <;> simp [emitOptional]

/-- The emission of the cases of a switch is right wherever the switch stands. -/
def CasesWork (cases : Cases) : Prop :=
  ∀ {nodes : List SwitchCase} {default : Option NodeId} {d : Nat} {c c' : Context}
    {F : FunctionState} {E : Env} {L : Layout} {o : Operand} {k : Scalar} {stop : Nat},
    cases.At c.tree E nodes default → Site c F E L → F.builder.Open → F.inDefer = false →
    k.isInteger = true → o.Below F.builder.nextValue → F.builder.Fresh stop →
    F.builder.current ≠ stop → F.exitTail ≠ stop → stop ≠ 0 →
    emitCases ⟨.scalar k, o⟩ stop nodes default (performWithin d) c = .ok () c' →
    ∃ F' L', EmitsCases o k stop c c' F F' E (E.skip cases.count) L L'
      (fun fuel => cases.exec fuel E) (cases.defers E)

theorem casesWork_nil : CasesWork .nil := by
  intro nodes default d c c' F E L o k stop hat hsite ho _ _ _ hstop hne htail hpos h
  obtain ⟨rfl, rfl⟩ := hat
  obtain ⟨-, rfl⟩ := eq_advance_of_build hsite.function (FunctionBuilder.jumpTo_run _ _) h
  exact ⟨_, L, (Compiles.refl hsite ho).toEmitsCases rfl hstop hne hpos htail⟩

theorem casesWork_default {body : Body} (hbody : BlockWorks body) : CasesWork (.default body) := by
  intro nodes default d c c' F E L o k stop hat hsite ho hdefer _ _ hstop hne htail hpos h
  obtain ⟨rfl, id, rfl, hblock⟩ := hat
  change (emitOptional (some id) >>= _) _ c = _ at h
  obtain ⟨⟨⟩, c₁, hemit, h⟩ := bind_eq_ok.mp h
  obtain ⟨F₁, L₁, h₁⟩ := hbody hblock hsite ho hdefer hemit
  obtain ⟨new, -, hw⟩ := h₁.written
  obtain ⟨-, rfl⟩ := eq_advance_of_build h₁.site.function (FunctionBuilder.jumpTo_run _ _) h
  have hstop₁ := hstop.continues hw.continues (by simp [hne.symm, htail.symm])
  have hne₁ : F₁.builder.current ≠ stop := by
    rcases hw.continues.current with hmem | hle
    · rintro rfl
      simp [hne.symm, htail.symm] at hmem
    · exact (hstop.lt.trans_le hle).ne'
  exact ⟨_, L₁, h₁.toEmitsCases rfl hstop₁ hne₁ hpos (hw.tail_ne hstop.lt htail)⟩

/-- The comparison of the value of a switch with the value of a case. -/
theorem emitMatch_spec {c c' : Context} {F : FunctionState} {E : Env} {L : Layout} {o o' : Operand}
    {k : Scalar} {value : IntExpr} {id : NodeId} {d : Nat} {location : Location}
    (hsite : Site c F E L) (ho : F.builder.Open) (hk : k.isInteger = true)
    (hbelow : o.Below F.builder.nextValue) (hat : ExprAt c.tree E.names value id)
    (h : (do
      let candidate ← perform (.emitExpr id)
      let equal ← emitOperation .eq ⟨.scalar k, o⟩ candidate location
      truthValue equal location) (performWithin d) c = .ok o' c') :
    ∃ F', F'.builder.Open ∧ Site c' F' E L ∧ ∀ labels yes no, yes ≠ 0 → no ≠ 0 →
      Splits c (c'.advance (F'.builder.leaveFor labels (.condBr o' yes no)) F'.scope) F
        { F' with builder := F'.builder.leaveFor labels (.condBr o' yes no) } E L F'.builder.nextBlock
        labels.length yes no fun A frame s v => ∃ x, Denotes A.image frame o x ∧ x.kind = k ∧
          v = s.matches? E.names x value := by
  obtain ⟨candidate, c₁, hexpr, h⟩ := bind_eq_ok.mp h
  obtain ⟨⟨_, equal⟩, c₂, hequal, h⟩ := bind_eq_ok.mp h
  obtain ⟨k₂, b₂, rfl, e₂⟩ := emitAgainst_spec hk hbelow (emitExpr_spec value) hat.1 (hsite.ready ho)
    (hsite.typed hat.2) (bind_eq_ok.mpr ⟨candidate, c₁, hexpr, hequal⟩)
  obtain ⟨b₃, e₃⟩ := truthValue_spec e₂.follows.ready e₂.kind e₂.below h
  have e : Emits _ _ _ _ _ _ fun A frame s v => memoryBase ≤ s.memory.size ∧
      ∃ ρ x, Denotes A.image frame o x ∧ x.kind = k ∧ Provides c A frame s.memory ρ value.vars ∧
        v = ((value.eval ρ).bind (IntValue.binary? .eq x)).bind fun y => some (.ofBool y.truth) :=
      e₂.andThen e₃ (by
    rintro A frame s v ⟨hbase, ρ, x, hx, hxk, hρ, rfl⟩
    refine ⟨_, _, ⟨hbase, ρ, x, hx, hxk, hρ, rfl⟩, rfl, ?_⟩
    rintro y C - hC
    exact ⟨y, hC.value, hC.kind, rfl⟩)
  obtain ⟨F', rfl, hplaces, hsite', hw⟩ := hsite.follows e.follows
  refine ⟨F', e.follows.isOpen, hsite', fun labels yes no hyes hno => ?_⟩
  refine e.toSplits hsite hsite' hplaces hw labels hyes hno ?_
  rintro A L₁ frame st s r test hlater hmodels ⟨x, hx, hxk, rfl⟩
  refine ⟨hmodels.represents.base, s.get E.names, x, hx, hxk, hmodels.provides hsite hlater hat.2, ?_⟩
  change Option.map _ (((value.eval (s.get E.names)).bind fun y => _)) = _
  cases value.eval (s.get E.names) with
  | none => rfl
  | some y =>
    simp only [Option.bind_some]
    cases IntValue.binary? .eq x y <;> rfl

theorem casesWork_case {value : IntExpr} {body : Body} {rest : Cases} (hbody : BlockWorks body)
    (hrest : CasesWork rest) : CasesWork (.case value body rest) := by
  intro nodes default d c c' F E L o k stop hat hsite ho hdefer hk hbelow hstop hne htail hpos h
  obtain ⟨case, cases, rfl, hvalue, hblock, hcases⟩ := hat
  rw [emitCases_cons] at h
  obtain ⟨⟨⟩, c₃, hcase, h⟩ := bind_eq_ok.mp h
  obtain ⟨location, c₀, hlocate, hcase⟩ := bind_eq_ok.mp hcase
  rw [state_of_locate hlocate] at hcase
  obtain ⟨candidate, c₁, hexpr, hcase⟩ := bind_eq_ok.mp hcase
  obtain ⟨equal, c₂, hequal, hcase⟩ := bind_eq_ok.mp hcase
  obtain ⟨o', c₂', htruth, hcase⟩ := bind_eq_ok.mp hcase
  obtain ⟨F₁, ho₁, hsite₁, hsplits⟩ := emitMatch_spec hsite ho hk hbelow hvalue
    (bind_eq_ok.mpr ⟨candidate, c₁, hexpr, bind_eq_ok.mpr ⟨equal, c₂, hequal, htruth⟩⟩)
  obtain ⟨next, c₄, hbuild, hcase⟩ := bind_eq_ok.mp hcase
  have hrun := FunctionBuilder.enterCase_run hsite₁.sound ho₁ o'
  obtain ⟨rfl, rfl⟩ := eq_advance_of_build hsite₁.function hrun hbuild
  have h₂ := hsplits ["switch.case", "switch.next"] F₁.builder.nextBlock (F₁.builder.nextBlock + 1)
    hsite₁.sound.nextBlock_pos.ne' (Nat.succ_ne_zero _)
  obtain ⟨hstart, htail₂⟩ := h₂.fresh F₁.builder.nextBlock (le_refl _) (by simp)
  obtain ⟨hnext, htail₂'⟩ := h₂.fresh (F₁.builder.nextBlock + 1) (Nat.le_succ _) (by simp)
  have hstop₂ := hstop.continues h₂.written.continues (by simpa using hne.symm)
  have htail₂'' := h₂.written.tail_ne hstop.lt htail
  have hlt := hstop.lt.trans_le h₂.first
  -- the body of the case
  obtain ⟨⟨⟩, c₅, hemit, hend⟩ := bind_eq_ok.mp hcase
  rw [← Context.advance_advance c₂' (F₁.builder.leaveFor _ _) _ F₁.scope] at hemit
  rw [← Context.tree_of_core h₂.written.core] at hblock hcases
  obtain ⟨F₅, L₅, hF₅, h₅⟩ := hbody.branch hblock h₂.site (h₂.written.inDefer hdefer)
    hstart htail₂ hpos hemit
  obtain ⟨new, -, hw₅⟩ := h₅.written
  have hnext₅ := hnext.continues hw₅.continues (by simpa using htail₂'.symm)
  have hstop₅ := hstop₂.continues hw₅.continues (by simpa using ⟨hlt.ne, htail₂''.symm⟩)
  obtain ⟨-, rfl⟩ := eq_advance_of_build hF₅ (FunctionBuilder.jumpTo_run _ _) hend
  have h₆ := h₅.site.land hnext₅ (hw₅.tail_ne hnext.lt htail₂')
  rw [← Context.advance_advance c₅ (F₅.builder.finishWith _) _ F₅.scope] at h
  rw [← Context.tree_of_core hw₅.core] at hcases
  -- the other cases
  have hbelow₅ := hbelow.mono (h₂.written.continues.value.trans hw₅.continues.value)
  have hne' : stop ≠ F₁.builder.nextBlock + 1 := by omega
  obtain ⟨F₇, L₇, h₇⟩ := hrest (by exact hcases) h₆.1 hnext₅.isOpen
    (hw₅.inDefer (h₂.written.inDefer hdefer)) hk hbelow₅
    (hstop₅.continues h₆.2.continues (by simpa using hne')) hne'.symm (hw₅.tail_ne hstop₂.lt htail₂'') hpos h
  rw [Env.skip_skip] at h₇
  exact ⟨F₇, L₇, h₇.cons rfl h₂ h₅ h₆ rfl rfl hnext₅.here hbelow⟩

theorem stmtWorks_switch {value : IntExpr} {cases : Cases} (hcases : CasesWork cases) :
    StmtWorks (.switch value cases) := by
  intro id d c c' F E L hat hsite ho hdefer h
  obtain ⟨v, nodes, default, hkind, hvalue, hat⟩ := hat
  obtain ⟨d, h⟩ := work_of_performWithin h
  obtain ⟨location, hpeel⟩ := locate_kindOf hkind
  change emitStmt id _ c = _ at h
  unfold emitStmt at h
  rw [hpeel] at h
  simp only [emitSwitch_eq] at h
  replace h := (guard_passes h).2
  obtain ⟨⟨_, o⟩, c₁, hexpr, h⟩ := bind_eq_ok.mp h
  obtain ⟨k, b₁, rfl, e₁⟩ :=
    emitExpr_spec value hvalue.1 (hsite.ready ho) (hsite.typed hvalue.2) hexpr
  obtain ⟨F₁, rfl, hplaces, hsite₁, hw₁⟩ := hsite.follows e₁.follows
  -- the block behind the switch
  obtain ⟨stop, c₂, hbuild, h⟩ := bind_eq_ok.mp h
  obtain ⟨rfl, rfl⟩ := eq_advance_of_build hsite₁.function (FunctionBuilder.createBlock_run _ _) hbuild
  obtain ⟨hsite₂, hw₂⟩ := hsite₁.advance ((FunctionBuilder.Continues.refl hsite₁.sound
    (List.mem_singleton_self _)).addBlock "switch.end") hsite₁.tail_not_mem
  have hstop := FunctionBuilder.Fresh.new hsite₁.sound "switch.end"
  have hw := hw₁.trans_here hw₂
  rw [← Context.tree_of_core hw.core] at hat
  obtain ⟨F₃, L₃, h₃⟩ := hcases hat hsite₂
    ((FunctionBuilder.open_addBlock hsite₁.sound _).mpr e₁.follows.isOpen) (hw.inDefer hdefer) e₁.kind
    e₁.below hstop hsite₁.sound.current_lt.ne hsite₁.tail.lt.ne hsite₁.sound.nextBlock_pos.ne' h
  obtain ⟨new, hnew, hw₃⟩ := h₃.written
  have hall := (hw.mono [F.builder.current, F.exitTail] (by simp)).trans hw₃ (by
    intro x hx
    rcases List.mem_cons.mp hx with rfl | hx
    · exact hw₁.continues.current.imp_left fun hmem =>
        List.mem_cons.mpr (Or.inl (List.mem_singleton.mp hmem))
    rcases List.mem_cons.mp hx with rfl | hx
    · rcases hw.tail with htail | htail
      · exact Or.inl (htail ▸ List.mem_cons_of_mem _ List.mem_cons_self)
      · exact Or.inr htail
    · rw [List.mem_singleton.mp hx]
      exact Or.inr hw₁.continues.block)
  simp only [List.nil_append] at hall
  refine ⟨F₃, L₃, h₃.site, h₃.scope.trans (congrArg _ hplaces), ⟨new, hnew, hall⟩, ?_⟩
  intro A L₀ hlater fuel frame st s r hmodels
  have hlater₁ := (hlater.of_written hw₃).of_written hw₂
  refine Realizes.value (e₁.computes A frame st _ hlater₁.has ⟨hmodels.represents.base, _,
    hmodels.provides hsite hlater₁ hvalue.2, rfl⟩) fun x C hx hC => ?_
  obtain ⟨point, frame₁, st₁⟩ := C
  obtain rfl : point = F₁.builder.here := hC.point
  have hmodels₁ : Models A.image L₀ E.names s r ⟨F₁.builder.here, frame₁, st₁⟩ :=
    hmodels.keep hC.frame hC.memory (hlater₁.outside hsite)
  rw [← FunctionBuilder.here_addBlock hsite₁.sound "switch.end"] at hmodels₁ ⊢
  refine (h₃.runs A L₀ hlater fuel frame₁ st₁ s r x hmodels₁ hC.value hC.kind).ends hw.fixed
    (fun _ hq => hq) fun s' C' hC' => .refl ⟨h₃.isOpen, hC'.1.trans h₃.here.symm, hC'.2⟩

end CompileM
end UnitCompiler
