import UnitCompiler.Proofs.Compile.Branches

/-!
# Loops

A loop comes back to the block of its condition as long as the condition holds.  Each round enters at
least one block, so a loop that has not ended after some rounds has not ended after as many blocks.
-/

namespace UnitCompiler
open Machine

section Rounds

variable {A : Activation} {fuel : Nat} {R : Signal → Store → Config → Prop}

/-- Where the signals of the body of a loop lead: to the next round, behind the loop, or further out. -/
def LoopEnds (Back After : Store → Config → Prop) (R : Signal → Store → Config → Prop) :
    Signal → Store → Config → Prop
  | .next, s, C | .again, s, C => Back s C
  | .leave, s, C => After s C
  | .ret value, s, C => R (.ret value) s C

/-- The rounds of a loop; `Start`, `Inside`, `Back` and `After` say that control is at the condition,
the body, the step and behind the loop. -/
theorem Realizes.loop {condition : Store → Option Bool} {body step : Store → Outcome}
    {Start Inside Back After : Store → Config → Prop}
    (hstart : ∀ s C, Start s C → A.Lasts 0 C)
    (hcond : ∀ n s C f, Start s C →
      (∀ t C', condition s = some t → (if t then Inside s C' else After s C') →
        Realizes A n C' R (f t)) →
      Realizes A (n + 1) C R ((condition s).elim .fault f))
    (hbody : ∀ s C, Inside s C → Realizes A fuel C (LoopEnds Back After R) (body s))
    (hstep : ∀ s C, Back s C →
      Realizes A fuel C (fun signal s' C' => signal = .next ∧ Start s' C') (step s))
    (hafter : ∀ s C, After s C → R .next s C) {n : Nat} (hn : n ≤ fuel) {s : Store} {C : Config}
    (h : Start s C) : Realizes A n C R (Outcome.loop condition body step n s) := by
  -- the rounds that are left
  induction n generalizing s C with
  | zero => exact hstart s C h
  | succ n ih =>
    have hle : n ≤ fuel := (Nat.le_succ n).trans hn
    have hround (s : Store) (C : Config) (hback : Back s C) :
        Realizes A n C R ((step s).andThen (Outcome.loop condition body step n)) := by
      refine ((hstep s C hback).mono hle).bind ?_
      rintro signal s' C' ⟨rfl, hstart'⟩
      exact ih hle hstart'
    refine hcond n s C _ h fun t C' _ hC' => ?_
    cases t with
    | false => exact .refl (hafter s C' hC')
    | true =>
      refine ((hbody s C' hC').mono hle).bind fun signal s' C'' hends => ?_
      cases signal with
      | next => exact hround s' C'' hends
      | again => exact hround s' C'' hends
      | leave => exact .refl (hafter s' C'' hends)
      | ret value => exact .refl hends

/-- The signals of the body of a loop, seen from outside. -/
theorem Ends.inLoop {L : Layout} {F F₁ : FunctionState} {names : List (String × Nat)} {r : IntValue}
    {Next : Store → Config → Prop} {stop again : Nat} {loops : List LoopTargets}
    (hfixed : F₁.fixed = F.fixed) {signal : Signal} {s : Store} {C : Config}
    (h : Ends A L { F₁ with loops := ⟨stop, again⟩ :: loops } names r (Enters A L names r again)
      signal s C) :
    LoopEnds (Enters A L names r again) (Enters A L names r stop) (Ends A L F names r Next) signal s
      C := by
  cases signal with
  | next => exact h
  | leave =>
    obtain ⟨t, ht, hpoint, hmodels⟩ := h
    cases ht
    exact ⟨hpoint, hmodels⟩
  | again =>
    obtain ⟨t, ht, hpoint, hmodels⟩ := h
    cases ht
    exact ⟨hpoint, hmodels⟩
  | ret value =>
    obtain ⟨hret, -, hexit, -⟩ := FunctionState.of_fixed hfixed
    obtain ⟨hpoint, hmodels⟩ := h
    have hreturned : F₁.returned value r = F.returned value r := by
      simp only [FunctionState.returned, hret]
    exact ⟨hexit ▸ hpoint, hreturned ▸ hmodels⟩

end Rounds

/-- A jump to the first of several new blocks, where the condition of a loop is. -/
structure EntersLoop (c c' : Context) (F F' : FunctionState) (E : Env) (L : Layout) (count : Nat) :
    Prop where
  site : Site c' F' E L
  written : Written [F.builder.current] c c' F F' L L []
  isOpen : F'.builder.Open
  here : F'.builder.here = ⟨F.builder.nextBlock, 0⟩
  fresh : ∀ id, F.builder.nextBlock < id → id < F.builder.nextBlock + count →
    F'.builder.Fresh id ∧ F'.exitTail ≠ id
  runs : ∀ {A : Activation} {L₁ : Layout}, Later A L₁ F'.builder L → ∀ {fuel frame st s r Q o},
    Models A.image L₁ E.names s r ⟨F.builder.here, frame, st⟩ →
    (Models A.image L₁ E.names s r ⟨F'.builder.here, frame, st⟩ →
      Realizes A fuel ⟨F'.builder.here, frame, st⟩ Q o) →
    Realizes A fuel ⟨F.builder.here, frame, st⟩ Q o

section Entering

variable {c c' : Context} {F F' : FunctionState} {E : Env} {L L₁ : Layout}

theorem Site.entersLoop (h : Site c F E L) (ho : F.builder.Open) (labels : List String)
    (hlabels : 0 < labels.length) :
    EntersLoop c
      (c.advance ((F.builder.leaveFor labels (.br F.builder.nextBlock)).moveTo F.builder.nextBlock)
        F.scope) F
      { F with
        builder := (F.builder.leaveFor labels (.br F.builder.nextBlock)).moveTo F.builder.nextBlock }
      E L labels.length := by
  have hblocks := (FunctionBuilder.continues_addBlocks h.sound labels).1
  have hfresh := FunctionBuilder.fresh_leaveFor h.sound ho
    (.br F.builder.nextBlock) (le_refl _) (Nat.lt_add_of_pos_right hlabels)
  have htail := h.tail.lt
  obtain ⟨hsite₁, hw₁⟩ := h.advance (FunctionBuilder.continues_leaveFor h.sound ho labels
    (.br F.builder.nextBlock)) h.tail_not_mem
  obtain ⟨hsite₂, hw₂⟩ := hsite₁.land hfresh htail.ne
  rw [Context.advance_advance] at hsite₂ hw₂
  have hw := hw₁.trans_block (le_refl _) hw₂
  refine ⟨hsite₂, hw, hfresh.isOpen, hfresh.here, fun id hlo hhi => ⟨?_, ?_⟩, ?_⟩
  · exact (FunctionBuilder.fresh_leaveFor h.sound ho _ hlo.le hhi).continues hw₂.continues
      (by simpa using hlo.ne')
  · exact (htail.trans hlo).ne
  · intro A L₁ hlater fuel frame st s r Q o hmodels hnext
    rw [← FunctionBuilder.here_addBlocks h.sound labels] at hmodels ⊢
    let P : Config → Prop := fun C => C = ⟨⟨F.builder.nextBlock, 0⟩, frame, st⟩
    refine Realizes.step (P := P)
      ((leads_jump (Q := P) hblocks.sound hlater.has.of_moveTo h.sound.nextBlock_pos.ne' rfl).mono
        (Nat.zero_le _) (fun _ => id) fun _ => id) ?_
    rintro C rfl
    rw [hfresh.here] at hnext
    exact hnext (hmodels.moved _)

/-- The rounds of an emitted loop. -/
theorem Splits.loop {G : FunctionState} {A : Activation} {lo count start body again stop : Nat}
    {condition : Store → Option Bool} {run step : Store → Outcome} {r : IntValue} {fuel : Nat}
    {Next : Store → Config → Prop}
    (h : Splits c c' F F' E L lo count body stop fun _ _ s v => v = condition s)
    (hhere : F.builder.here = ⟨start, 0⟩) (hlater : Later A L₁ F'.builder L)
    (hfixed : F'.fixed = G.fixed)
    (hbody : ∀ frame st s, Models A.image L₁ E.names s r ⟨⟨body, 0⟩, frame, st⟩ →
      Realizes A fuel ⟨⟨body, 0⟩, frame, st⟩
        (Ends A L₁ { F' with loops := ⟨stop, again⟩ :: F'.loops } E.names r
          (Enters A L₁ E.names r again)) (run s))
    (hstep : ∀ s C, Enters A L₁ E.names r again s C → Realizes A fuel C
      (fun signal s' C' => signal = .next ∧ Enters A L₁ E.names r start s' C') (step s))
    (hafter : ∀ s C, Enters A L₁ E.names r stop s C → Next s C) {frame : Machine.Frame} {st : State}
    {s : Store} (hmodels : Models A.image L₁ E.names s r ⟨F.builder.here, frame, st⟩) :
    Realizes A fuel ⟨F.builder.here, frame, st⟩ (Ends A L₁ G E.names r Next)
      (Outcome.loop condition run step fuel s) := by
  have hstart (s : Store) (C : Config) (hC : Enters A L₁ E.names r start s C) :
      ∃ frame st, C = ⟨F.builder.here, frame, st⟩ ∧
        Models A.image L₁ E.names s r ⟨F.builder.here, frame, st⟩ := by
    obtain ⟨point, frame, st⟩ := C
    obtain ⟨hpoint, hmodels⟩ := hC
    cases hpoint
    exact ⟨frame, st, by rw [hhere], hmodels.moved _⟩
  refine Realizes.loop ?_ ?_ (fun s C (hC : Enters A L₁ E.names r body s C) => ?_) hstep (fun s C hC => hafter s C hC) (le_refl _) ⟨hhere, hmodels⟩
  · intro s C hC
    obtain ⟨frame, st, rfl, hmodels⟩ := hstart s C hC
    exact h.lasts A L₁ hlater frame st s r _ hmodels rfl
  · intro n s C f hC hnext
    obtain ⟨frame, st, rfl, hmodels⟩ := hstart s C hC
    refine h.runs A L₁ hlater n frame st s r _ f _ hmodels rfl fun t frame' st' ht _ hmodels' => ?_
    refine hnext t _ ht ?_
    cases t with
    | false => exact ⟨rfl, hmodels'⟩
    | true => exact ⟨rfl, hmodels'⟩
  · obtain ⟨point, frame, st⟩ := C
    obtain ⟨hpoint, hmodels⟩ := hC
    cases hpoint
    exact (hbody frame st s hmodels).imp fun signal s' C' hends => Ends.inLoop hfixed hends

end Entering

namespace CompileM

variable {id : NodeId} {d : Nat} {c c' : Context} {F : FunctionState} {E : Env} {L : Layout}

/-- The body of a loop in a fresh block. -/
theorem emitLoopBody_spec {body : Body} {start next breakTo continueTo : Nat}
    (hworks : BlockWorks body) (hat : BlockOf c.tree (body.At c.tree E) id) (hsite : Site c F E L)
    (hdefer : F.inDefer = false) (hstart : F.builder.Fresh start) (hne : F.exitTail ≠ start)
    (hnext : next ≠ 0) (hbreak : breakTo ≠ 0) (hcontinue : continueTo ≠ 0)
    (h : emitLoopBody id breakTo continueTo (performWithin d)
      (c.advance (F.builder.moveTo start) F.scope) = .ok () c') :
    ∃ F' L', c'.function = some F' ∧
      Branches (⟨breakTo, continueTo⟩ :: F.loops) start next c
        (c'.advance (F'.builder.finishWith (.br next)) F'.scope) F
        { F' with builder := F'.builder.finishWith (.br next) } E (E.skip body.count) L L'
        (fun fuel => body.exec fuel E) (body.defers E) := by
  unfold emitLoopBody at h
  have hF := Context.function_advance hsite.function (F.builder.moveTo start) F.scope
  rw [bind_of_eq_ok (modifyFunction_apply hF _)] at h
  obtain ⟨⟨⟩, c₂, hemit, h⟩ := bind_eq_ok.mp h
  obtain ⟨hsite₁, -⟩ := hsite.land hstart hne
  have hloops : ∀ t ∈ (⟨breakTo, continueTo⟩ : LoopTargets) :: F.loops,
      t.breakTo ≠ 0 ∧ t.continueTo ≠ 0 := by
    intro t ht
    rcases List.mem_cons.mp ht with rfl | ht
    · exact ⟨hbreak, hcontinue⟩
    · exact hsite.loops t ht
  have hin : Site { (c.advance (F.builder.moveTo start) F.scope) with
      function := some { F with builder := F.builder.moveTo start,
                                loops := ⟨breakTo, continueTo⟩ :: F.loops } } _ E L :=
    hsite₁.withLoops rfl rfl hloops
  obtain ⟨F₂, L₂, h₂⟩ := hworks (by exact hat) hin hstart.isOpen hdefer hemit
  have hpopped : F₂.loops.tail = F.loops :=
    congrArg List.tail (FunctionState.of_fixed h₂.fixed).2.2.2.1
  have hpop := modifyFunction_apply (p := performWithin d) h₂.site.function
    fun f => { f with loops := f.loops.tail }
  simp only [hpopped] at hpop
  cases hpop.symm.trans h
  have hcore : Context.core { c₂ with function := some { F₂ with loops := F.loops } } = c₂.core := rfl
  have hbranch := Compiles.toBranch hsite hstart hne hnext h₂ rfl hcore rfl
  exact ⟨_, L₂, rfl, hbranch⟩

end CompileM

namespace FunctionBuilder

variable {b : FunctionBuilder}

theorem enterWhile_run (hb : b.Sound) (ho : b.Open) :
    (do
      let condBlock ← createBlock "while.cond"
      let bodyBlock ← createBlock "while.body"
      let endBlock ← createBlock "while.end"
      br condBlock
      switchTo condBlock
      return (condBlock, bodyBlock, endBlock) : BuildM (Nat × Nat × Nat)).run b =
    ((b.nextBlock, b.nextBlock + 1, b.nextBlock + 2),
      (b.leaveFor ["while.cond", "while.body", "while.end"] (.br b.nextBlock)).moveTo b.nextBlock) := by
  rw [leaveFor, ← finishWith_of_open (ho.addBlocks hb _)]
  simp only [run_bind, createBlock_run, br, terminate_run_eq, switchTo_run]
  rfl

theorem enterFor_run (hb : b.Sound) (ho : b.Open) :
    (do
      let condBlock ← createBlock "for.cond"
      let bodyBlock ← createBlock "for.body"
      let stepBlock ← createBlock "for.step"
      let endBlock ← createBlock "for.end"
      br condBlock
      switchTo condBlock
      return (condBlock, bodyBlock, stepBlock, endBlock) : BuildM (Nat × Nat × Nat × Nat)).run b =
    ((b.nextBlock, b.nextBlock + 1, b.nextBlock + 2, b.nextBlock + 3),
      (b.leaveFor ["for.cond", "for.body", "for.step", "for.end"] (.br b.nextBlock)).moveTo
        b.nextBlock) := by
  rw [leaveFor, ← finishWith_of_open (ho.addBlocks hb _)]
  simp only [run_bind, createBlock_run, br, terminate_run_eq, switchTo_run]
  rfl

theorem leave_run (ho : b.Open) (t : Terminator) : (terminate t).run b = ((), b.leaveFor [] t) :=
  terminate_run ho t

theorem decideWhile_run (ho : b.Open) (o : Operand) (yes no : Nat) :
    (do
      condBr o yes no
      switchTo yes : BuildM Unit).run b =
    ((), (b.leaveFor [] (.condBr o yes no)).moveTo yes) := by
  rw [leaveFor, addBlocks, List.foldl_nil, ← finishWith_of_open ho]
  simp only [run_bind, condBr, terminate_run_eq, switchTo_run]

theorem jumpTo_run (target next : Nat) :
    (do
      br target
      switchTo next : BuildM Unit).run b = ((), (b.finishWith (.br target)).moveTo next) := by
  simp only [run_bind, br, terminate_run_eq, switchTo_run]

end FunctionBuilder

namespace CompileM

theorem stmtWorks_while {condition : IntExpr} {body : Body} (hbody : BlockWorks body) :
    StmtWorks (.whileLoop condition body) := by
  intro id d c c' F E L hat hsite ho hdefer h
  obtain ⟨cond, node, hkind, hcond, hblock⟩ := hat
  obtain ⟨d, h⟩ := work_of_performWithin h
  obtain ⟨location, hpeel⟩ := locate_kindOf hkind
  change emitStmt id _ c = _ at h
  unfold emitStmt at h
  rw [hpeel] at h
  simp only [emitWhile] at h
  -- the block of the condition
  obtain ⟨⟨start, inside, stop⟩, c₁, hbuild, h⟩ := bind_eq_ok.mp h
  have hrun := FunctionBuilder.enterWhile_run hsite.sound ho
  obtain ⟨heq, rfl⟩ := eq_advance_of_build hsite.function hrun hbuild
  cases heq
  have h₁ := hsite.entersLoop ho ["while.cond", "while.body", "while.end"] (by simp)
  obtain ⟨o, c₂, htest, h⟩ := bind_eq_ok.mp h
  obtain ⟨F₂, ho₂, hsite₂, hsplits⟩ := emitTest_spec h₁.site h₁.isOpen hcond htest
  have h₂ := hsplits [] (F.builder.nextBlock + 1) (F.builder.nextBlock + 2) (Nat.succ_ne_zero _)
    (Nat.succ_ne_zero _)
  obtain ⟨⟨⟩, c₃, hbuild, h⟩ := bind_eq_ok.mp h
  obtain ⟨-, rfl⟩ := eq_advance_of_build hsite₂.function
    (FunctionBuilder.decideWhile_run ho₂ o _ _) hbuild
  obtain ⟨hinside, htail⟩ := h₁.fresh (F.builder.nextBlock + 1) (by simp) (by simp)
  obtain ⟨hstop, htail'⟩ := h₁.fresh (F.builder.nextBlock + 2) (by simp) (by simp)
  have hinside₂ := hinside.continues h₂.written.continues (by simp [FunctionBuilder.moveTo])
  have hstop₂ := hstop.continues h₂.written.continues (by simp [FunctionBuilder.moveTo])
  -- the body
  obtain ⟨⟨⟩, c₄, hloop, h⟩ := bind_eq_ok.mp h
  have hw₂ := h₁.written.trans_here h₂.written
  rw [← Context.tree_of_core hw₂.core] at hblock
  rw [← Context.advance_advance c₂ (F₂.builder.leaveFor [] _) _ F₂.scope] at hloop
  obtain ⟨F₄, L₄, hF₄, h₄⟩ := emitLoopBody_spec hbody hblock h₂.site
    (hw₂.inDefer hdefer) hinside₂ (h₂.written.tail_ne hinside.lt htail)
    hsite.sound.nextBlock_pos.ne' (Nat.succ_ne_zero _) hsite.sound.nextBlock_pos.ne' hloop
  obtain ⟨new, hnew, hw₄⟩ := h₄.written
  have htail₂ := h₂.written.tail_ne hstop.lt htail'
  have hstop₄ := hstop₂.continues hw₄.continues (by simpa using htail₂.symm)
  obtain ⟨-, rfl⟩ := eq_advance_of_build hF₄ (FunctionBuilder.jumpTo_run _ _) h
  obtain ⟨hsite₅, hw₅⟩ := h₄.site.land hstop₄ (hw₄.tail_ne hstop₂.lt htail₂)
  rw [Context.advance_advance] at hsite₅ hw₅
  have hw := ((hw₂.mono [F.builder.current, F.exitTail] (by simp)).trans_branch (by simp)
    (Nat.le_succ _) hw₄).trans_block (Nat.le_add_right _ _) hw₅
  simp only [List.nil_append, List.append_nil] at hw
  refine ⟨_, L₄, hsite₅, h₄.scope.trans (congrArg _ h₂.scope), ⟨new, hnew, hw⟩, ?_⟩
  intro A L₀ hlater fuel frame st s r hmodels
  have hlater₄ := hlater.of_written hw₅
  have hlater₂ := hlater₄.of_written hw₄
  refine h₁.runs (hlater₂.of_written h₂.written) hmodels fun hmodels₁ => ?_
  have hback (s : Store) (C : Config) (hC : Enters A L₀ E.names r F.builder.nextBlock s C) :
      Realizes A fuel C
        (fun signal s' C' => signal = .next ∧ Enters A L₀ E.names r F.builder.nextBlock s' C')
        (Outcome.done .next s) :=
    .refl ⟨rfl, hC⟩
  exact h₂.loop h₁.here hlater₂ hw₂.fixed
    (fun frame st s hmodels => h₄.runs A L₀ hlater₄ fuel frame st s r hmodels)
    hback (fun s C hC => hC.stands hstop₄) hmodels₁

/-- The part of a loop that decides whether there is another round. -/
def emitForTest (cond : Option NodeId) (bodyBlock endBlock : Nat) : CompileM Unit :=
  match cond with
  | some cond => do
    let condition ← emitCondition cond
    build (FunctionBuilder.condBr condition bodyBlock endBlock)
  | none => build (FunctionBuilder.br bodyBlock)

/-- What is emitted in the step block of a loop. -/
def emitForStep (step : Option NodeId) : CompileM Unit :=
  match step with
  | some step => discard (perform (.emitExpr step))
  | none => return

/-- A loop behind its first statement. -/
def emitRounds (cond step : Option NodeId) (body : NodeId) : CompileM Unit := do
  let (condBlock, bodyBlock, stepBlock, endBlock) ← build do
    let condBlock ← FunctionBuilder.createBlock "for.cond"
    let bodyBlock ← FunctionBuilder.createBlock "for.body"
    let stepBlock ← FunctionBuilder.createBlock "for.step"
    let endBlock ← FunctionBuilder.createBlock "for.end"
    FunctionBuilder.br condBlock
    FunctionBuilder.switchTo condBlock
    return (condBlock, bodyBlock, stepBlock, endBlock)
  emitForTest cond bodyBlock endBlock
  build (FunctionBuilder.switchTo bodyBlock)
  emitLoopBody body endBlock stepBlock
  build do
    FunctionBuilder.br stepBlock
    FunctionBuilder.switchTo stepBlock
  emitForStep step
  build do
    FunctionBuilder.br condBlock
    FunctionBuilder.switchTo endBlock

theorem emitFor_eq (init cond step : Option NodeId) (body : NodeId) :
    emitFor init cond step body = (do
      openScope
      emitOptional init
      emitRounds cond step body
      closeScope) := by
  unfold emitFor emitRounds
  cases init <;> cases cond <;> cases step <;> simp [emitOptional, emitForTest, emitForStep]

variable {id : NodeId} {d : Nat} {c c' : Context} {F : FunctionState} {E : Env} {L : Layout}

/-- A loop without a condition always has another round. -/
theorem splits_forever (hsite : Site c F E L) (ho : F.builder.Open) {yes no : Nat} (hyes : yes ≠ 0) :
    Splits c (c.advance (F.builder.leaveFor [] (.br yes)) F.scope) F
      { F with builder := F.builder.leaveFor [] (.br yes) } E L F.builder.nextBlock 0 yes no
      fun _ _ _ v => v = some true := by
  obtain ⟨hsite₁, hw₁⟩ := hsite.advance
    (FunctionBuilder.continues_leaveFor hsite.sound ho [] (.br yes)) hsite.tail_not_mem
  refine ⟨hsite₁, rfl, hw₁, le_refl _, fun id hlo hhi => absurd hhi (by omega), ?_, ?_⟩
  · rintro A L₁ hlater fuel frame st s r _ f Q hmodels rfl hnext
    let P : Config → Prop := fun C => C = ⟨⟨yes, 0⟩, frame, st⟩
    refine Realizes.jump (leads_jump (Q := P) hsite.sound hlater.has hyes rfl) ?_
    rintro C rfl
    exact hnext true frame st rfl (.refl _ _ _) (hmodels.moved _)
  · rintro A L₁ hlater frame st s r test - -
    have hend := Activation.Has.ending (A := A) (b := F.builder) (t := .br yes) hlater.has hsite.sound
    exact Activation.lasts_end hend.1 hend.2 (List.cons_ne_nil _ _)

theorem emitForTest_spec {condition : Option IntExpr} {cond : Option NodeId} {yes no : Nat}
    (hsite : Site c F E L) (ho : F.builder.Open)
    (hat : MaybeAt (ExprAt c.tree E.names) condition cond) (hyes : yes ≠ 0) (hno : no ≠ 0)
    (h : emitForTest cond yes no (performWithin d) c = .ok () c') :
    ∃ F' lo, Splits c c' F F' E L lo 0 yes no
      fun _ _ s v => v = condition.elim (some true) (s.test E.names) := by
  cases condition with
  | none =>
    cases cond with
    | some id => exact hat.elim
    | none =>
      obtain ⟨-, rfl⟩ := eq_advance_of_build hsite.function (FunctionBuilder.leave_run ho (.br yes)) h
      exact ⟨_, _, splits_forever hsite ho hyes⟩
  | some e =>
    cases cond with
    | none => exact hat.elim
    | some id =>
      obtain ⟨o, c₁, htest, h⟩ := bind_eq_ok.mp h
      obtain ⟨F₁, ho₁, hsite₁, hsplits⟩ := emitTest_spec hsite ho hat htest
      obtain ⟨-, rfl⟩ := eq_advance_of_build hsite₁.function
        (FunctionBuilder.leave_run ho₁ (.condBr o yes no)) h
      exact ⟨_, _, hsplits [] yes no hyes hno⟩

theorem emitForStep_spec {step : Option Assignment} {node : Option NodeId} (hsite : Site c F E L)
    (ho : F.builder.Open) (hat : MaybeAt (Assignment.At c.tree E.names) step node)
    (h : emitForStep node (performWithin d) c = .ok () c') :
    ∃ F', Compiles c c' F F' E E L L
      (fun _ s => .ofStore (step.elim (some s) (·.run E.names s))) [] := by
  cases step with
  | none =>
    cases node with
    | some id => exact hat.elim
    | none =>
      cases h
      exact ⟨F, .refl hsite ho⟩
  | some a =>
    cases node with
    | none => exact hat.elim
    | some id =>
      obtain ⟨value, hexpr, -⟩ := map_eq_ok.mp h
      obtain ⟨F', hplaces, hemits⟩ := emitAssignment_spec hsite ho hat hexpr
      exact ⟨F', .of_simple hemits (congrArg _ hplaces)⟩

end CompileM

/-- A statement that does not jump. -/
theorem Realizes.ofStore {A : Activation} {fuel : Nat} {C : Config}
    {Q R : Signal → Store → Config → Prop} {o : Option Store}
    (h : Realizes A fuel C Q (.ofStore o)) (himp : ∀ s C', Q .next s C' → R .next s C') :
    Realizes A fuel C R (.ofStore o) := by
  cases o with
  | none => exact h
  | some s => exact Activation.Leads.imp h (himp s)

namespace CompileM

variable {d : Nat} {c c' : Context} {F : FunctionState} {E : Env} {L : Layout}

theorem emitRounds_spec {condition : Option IntExpr} {step : Option Assignment} {body : Body}
    {cond stepNode : Option NodeId} {node : NodeId} (hbody : BlockWorks body)
    (hcond : MaybeAt (ExprAt c.tree E.names) condition cond)
    (hstep : MaybeAt (Assignment.At c.tree E.names) step stepNode)
    (hblock : BlockOf c.tree (body.At c.tree E) node) (hsite : Site c F E L) (ho : F.builder.Open)
    (hdefer : F.inDefer = false)
    (h : emitRounds cond stepNode node (performWithin d) c = .ok () c') :
    ∃ F' L', Compiles c c' F F' E (E.skip body.count) L L'
      (fun fuel => .loop (fun s => condition.elim (some true) (s.test E.names)) (body.exec fuel E)
        (fun s => .ofStore (step.elim (some s) (·.run E.names s))) fuel) (body.defers E) := by
  unfold emitRounds at h
  -- the block of the condition
  obtain ⟨⟨start, inside, next, stop⟩, c₁, hbuild, h⟩ := bind_eq_ok.mp h
  have hrun := FunctionBuilder.enterFor_run hsite.sound ho
  obtain ⟨heq, rfl⟩ := eq_advance_of_build hsite.function hrun hbuild
  cases heq
  have h₁ := hsite.entersLoop ho ["for.cond", "for.body", "for.step", "for.end"] (by simp)
  obtain ⟨⟨⟩, c₂, htest, h⟩ := bind_eq_ok.mp h
  obtain ⟨F₂, lo, h₂⟩ := emitForTest_spec h₁.site h₁.isOpen hcond (Nat.succ_ne_zero _)
    (Nat.succ_ne_zero _) htest
  obtain ⟨⟨⟩, c₃, hbuild, h⟩ := bind_eq_ok.mp h
  obtain ⟨-, rfl⟩ := eq_advance_of_build h₂.site.function (FunctionBuilder.switchTo_run _ _) hbuild
  obtain ⟨hinside, htail⟩ := h₁.fresh (F.builder.nextBlock + 1) (by simp) (by simp)
  obtain ⟨hnext, htail'⟩ := h₁.fresh (F.builder.nextBlock + 2) (by simp) (by simp)
  obtain ⟨hstop, htail''⟩ := h₁.fresh (F.builder.nextBlock + 3) (by simp) (by simp)
  have hinside₂ := hinside.continues h₂.written.continues (by simp [FunctionBuilder.moveTo])
  have hnext₂ := hnext.continues h₂.written.continues (by simp [FunctionBuilder.moveTo])
  have hstop₂ := hstop.continues h₂.written.continues (by simp [FunctionBuilder.moveTo])
  have htail₂ := h₂.written.tail_ne hnext.lt htail'
  have htail₂' := h₂.written.tail_ne hstop.lt htail''
  -- the body
  obtain ⟨⟨⟩, c₄, hloop, h⟩ := bind_eq_ok.mp h
  have hw₂ := h₁.written.trans_here h₂.written
  rw [← Context.tree_of_core hw₂.core] at hblock hstep
  obtain ⟨F₄, L₄, hF₄, h₄⟩ := emitLoopBody_spec hbody hblock h₂.site
    (hw₂.inDefer hdefer) hinside₂ (h₂.written.tail_ne hinside.lt htail) (Nat.succ_ne_zero _)
    (Nat.succ_ne_zero _) (Nat.succ_ne_zero _) hloop
  obtain ⟨new, hnew, hw₄⟩ := h₄.written
  have hnext₄ := hnext₂.continues hw₄.continues (by simpa using htail₂.symm)
  have hstop₄ := hstop₂.continues hw₄.continues (by simpa using htail₂'.symm)
  have htail₄ := hw₄.tail_ne hnext₂.lt htail₂
  have htail₄' := hw₄.tail_ne hstop₂.lt htail₂'
  obtain ⟨⟨⟩, c₅, hbuild, h⟩ := bind_eq_ok.mp h
  obtain ⟨-, rfl⟩ := eq_advance_of_build hF₄ (FunctionBuilder.jumpTo_run _ _) hbuild
  rw [← Context.advance_advance c₄ (F₄.builder.finishWith _) _ F₄.scope] at h
  -- the step
  obtain ⟨hsite₅, -⟩ := h₄.site.land hnext₄ htail₄
  obtain ⟨⟨⟩, c₆, hemit, h⟩ := bind_eq_ok.mp h
  rw [← Context.tree_of_core hw₄.core] at hstep
  obtain ⟨F₆, h₆⟩ := emitForStep_spec hsite₅ hnext₄.isOpen hstep hemit
  have hloops := (FunctionState.of_fixed h₆.fixed).2.2.2.1
  have h₇ := Compiles.toBranch h₄.site hnext₄ htail₄
    hsite.sound.nextBlock_pos.ne' h₆ rfl rfl (by rw [h₆.site.function, ← hloops])
  obtain ⟨new', hnew', hw₇⟩ := h₇.written
  obtain rfl := List.sublist_nil.mp hnew'
  have hstop₇ := hstop₄.continues hw₇.continues (by simpa using htail₄'.symm)
  obtain ⟨-, rfl⟩ := eq_advance_of_build h₆.site.function (FunctionBuilder.jumpTo_run _ _) h
  obtain ⟨hsite₈, hw₈⟩ := h₇.site.land hstop₇ (hw₇.tail_ne hstop₄.lt htail₄')
  rw [Context.advance_advance] at hsite₈ hw₈
  have hw := (((hw₂.mono [F.builder.current, F.exitTail] (by simp)).trans_branch (by simp)
    (Nat.le_succ _) hw₄).trans_branch (by simp) (Nat.le_add_right _ _) hw₇).trans_block
    (Nat.le_add_right _ _) hw₈
  simp only [List.nil_append, List.append_nil] at hw
  refine ⟨_, L₄, hsite₈, h₇.scope.trans (h₄.scope.trans (congrArg _ h₂.scope)),
    ⟨new, hnew, hw⟩, ?_⟩
  intro A L₀ hlater fuel frame st s r hmodels
  have hlater₇ := hlater.of_written hw₈
  have hlater₄ := hlater₇.of_written hw₇
  have hlater₂ := hlater₄.of_written hw₄
  refine h₁.runs (hlater₂.of_written h₂.written) hmodels fun hmodels₁ => ?_
  refine h₂.loop h₁.here hlater₂ hw₂.fixed
    (fun frame st s hmodels => h₄.runs A L₀ hlater₄ fuel frame st s r hmodels) ?_
    (fun s C hC => hC.stands hstop₇) hmodels₁
  rintro s ⟨point, frame, st⟩ ⟨hpoint, hmodels⟩
  cases hpoint
  exact (h₇.runs A L₀ hlater₇ fuel frame st s r hmodels).ofStore fun s' C' hC' => ⟨rfl, hC'⟩

theorem emitInitial_spec {init : Option Simple} {node : Option NodeId} (hsite : Site c F E L)
    (ho : F.builder.Open) (hat : MaybeAt (Simple.At c.tree E) init node)
    (h : emitOptional node (performWithin d) c = .ok () c') :
    ∃ F' L', F'.builder.Open ∧ Compiles c c' F F' E (Simple.afterAll E init) L L'
      (fun _ s => .ofStore (init.elim (some s) (·.run E s))) [] := by
  cases init with
  | none =>
    cases node with
    | some id => exact hat.elim
    | none =>
      cases h
      exact ⟨F, L, ho, .refl hsite ho⟩
  | some simple =>
    cases node with
    | none => exact hat.elim
    | some id =>
      obtain ⟨F', L', hscope, hemits⟩ := emitSimple_spec hsite ho hat h
      exact ⟨F', L', hemits.isOpen, .of_simple hemits hscope⟩

theorem stmtWorks_for {init : Option Simple} {condition : Option IntExpr} {step : Option Assignment}
    {body : Body} (hbody : BlockWorks body) : StmtWorks (.forLoop init condition step body) := by
  intro id d c c' F E L hat hsite ho hdefer h
  obtain ⟨i, cond, stepNode, node, hkind, hinit, hcond, hstep, hblock⟩ := hat
  obtain ⟨d, h⟩ := work_of_performWithin h
  obtain ⟨location, hpeel⟩ := locate_kindOf hkind
  change emitStmt id _ c = _ at h
  unfold emitStmt at h
  rw [hpeel] at h
  simp only [emitFor_eq] at h
  rw [bind_of_eq_ok (openScope_apply hsite.function)] at h
  obtain ⟨⟨⟩, c₁, hfirst, h⟩ := bind_eq_ok.mp h
  obtain ⟨⟨⟩, c₂, hrounds, hclose⟩ := bind_eq_ok.mp h
  obtain ⟨F₁, L₁, ho₁, h₁⟩ := emitInitial_spec hsite.openScope ho (by exact hinit) hfirst
  obtain ⟨new, hnew, hw₁⟩ := h₁.written
  have htree : c₁.tree = c.tree := Context.tree_of_core hw₁.core
  rw [← htree] at hcond hstep hblock
  obtain ⟨F₂, L₂, h₂⟩ := emitRounds_spec hbody hcond hstep hblock h₁.site ho₁ (hw₁.inDefer hdefer)
    hrounds
  obtain ⟨hcore, hF'⟩ := closeScope_apply h₂.site.function hclose
  have hnames : ∀ q ∈ E.names, q ∈ (Simple.afterAll E init).names := by
    cases init with
    | none => exact fun _ hq => hq
    | some simple => exact (Stmt.simple simple).names_after E
  have hplaces : F₂.scope.pop.2.places = F.scope.places := by
    rw [Scope.places_pop, h₂.scope, h₁.scope]
    rfl
  have hall := Compiles.inScope hsite (h₁.andThen h₂ hnames) rfl hcore hF' hplaces hnames
  have hnext : ((Simple.afterAll E init).skip body.count).next =
      E.next + (Stmt.forLoop init condition step body).count := by
    rcases init with _ | decl | a
    · rfl
    · exact Nat.add_assoc _ _ _
    · rfl
  rw [hnext] at hall
  exact ⟨_, L₂, hall⟩

end CompileM
end UnitCompiler
