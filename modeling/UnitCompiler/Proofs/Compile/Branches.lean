import UnitCompiler.Proofs.Compile.Flow

/-!
# Blocks and conditionals

The statements of a block are emitted up to the first one that ends it.  A branch of a conditional
starts in a fresh block and leads to the block behind the conditional.
-/

namespace UnitCompiler
open Machine

theorem Stmt.next_after (s : Stmt) (E : Env) : (s.after E).next = E.next + s.count := by
  cases s with
  | simple simple => cases simple <;> rfl
  | _ => rfl

theorem Stmt.names_after (s : Stmt) (E : Env) : ∀ q ∈ E.names, q ∈ (s.after E).names := by
  cases s with
  | simple simple =>
    cases simple with
    | declare decl => exact fun q hq => List.mem_cons_of_mem _ hq
    | assign a => exact fun q hq => hq
  | _ => exact fun q hq => hq

theorem Env.skip_skip (E : Env) (m n : Nat) : (E.skip m).skip n = E.skip (m + n) := by
  simp only [Env.skip, Nat.add_assoc]

/-- A statement leaves deferred code as it entered it. -/
theorem Written.inDefer {S : List Nat} {c c' : Context} {F F' : FunctionState} {L L' : Layout}
    {new : List Deferred} (h : Written S c c' F F' L L' new) {value : Bool}
    (hdefer : F.inDefer = value) : F'.inDefer = value :=
  (FunctionState.of_fixed h.fixed).2.2.2.2.2.trans hdefer

namespace CompileM

/-- Emits a statement if there is one. -/
def emitOptional : Option NodeId → CompileM Unit
  | some id => perform (.emitStmt id)
  | none => return

/-- The emission of a statement is right wherever the statement stands. -/
def StmtWorks (s : Stmt) : Prop :=
  ∀ {id : NodeId} {d : Nat} {c c' : Context} {F : FunctionState} {E : Env} {L : Layout},
    s.At c.tree E id → Site c F E L → F.builder.Open → F.inDefer = false →
    performWithin d (.emitStmt id) c = .ok () c' →
    ∃ F' L', Compiles c c' F F' E (s.after E) L L' (fun fuel => s.exec fuel E) (s.defers E)

/-- The emission of a body is right when it is a block. -/
def BlockWorks (body : Body) : Prop :=
  ∀ {id : NodeId} {d : Nat} {c c' : Context} {F : FunctionState} {E : Env} {L : Layout},
    BlockOf c.tree (body.At c.tree E) id → Site c F E L → F.builder.Open → F.inDefer = false →
    performWithin d (.emitStmt id) c = .ok () c' →
    ∃ F' L', Compiles c c' F F' E (E.skip body.count) L L' (fun fuel => body.exec fuel E)
      (body.defers E)

/-- The emission of the statements of a body is right in any scope. -/
def ItemsWork (body : Body) : Prop :=
  ∀ {items : List NodeId} {d : Nat} {c c' : Context} {F : FunctionState} {E : Env} {L : Layout},
    body.At c.tree E items → Site c F E L → F.builder.Open → F.inDefer = false →
    emitItems items (performWithin d) c = .ok () c' →
    ∃ F' L' E', Compiles c c' F F' E E' L L' (fun fuel => body.exec fuel E) (body.defers E) ∧
      E'.next = E.next + body.count ∧ ∀ q ∈ E.names, q ∈ E'.names

theorem itemsWork_nil : ItemsWork .nil := by
  intro items d c c' F E L hat hsite ho _ h
  cases (show items = [] from hat)
  cases h
  exact ⟨F, L, E, .refl hsite ho, rfl, fun _ => id⟩

/-- Nothing is emitted in a block that has ended. -/
theorem emitItems_of_not_open {items : List NodeId} {p : Performer} {c c' : Context}
    {F : FunctionState} (hF : c.function = some F) (ho : ¬ F.builder.Open)
    (h : emitItems items p c = .ok () c') : c' = c := by
  cases items with
  | nil =>
    cases h
    rfl
  | cons item rest =>
    unfold emitItems at h
    rw [bind_of_eq_ok (functionState_apply hF),
      if_pos (FunctionBuilder.isTerminated_of_not_open ho)] at h
    cases h
    rfl

theorem itemsWork_cons {first : Stmt} {rest : Body} (hfirst : StmtWorks first)
    (hrest : ItemsWork rest) : ItemsWork (.cons first rest) := by
  intro items d c c' F E L hat hsite ho hdefer h
  obtain ⟨id, ids, rfl, hatfirst, hatrest⟩ := hat
  unfold emitItems at h
  rw [bind_of_eq_ok (functionState_apply hsite.function),
    if_neg (by rw [ho.isTerminated]; exact Bool.false_ne_true)] at h
  obtain ⟨⟨⟩, c₁, hemit, h⟩ := bind_eq_ok.mp h
  obtain ⟨F₁, L₁, h₁⟩ := hfirst hatfirst hsite ho hdefer hemit
  obtain ⟨new, hnew, hw⟩ := h₁.written
  have hnext := first.next_after E
  have hnames := first.names_after E
  by_cases ho₁ : F₁.builder.Open
  · rw [← Context.tree_of_core hw.core] at hatrest
    obtain ⟨F₂, L₂, E₂, h₂, hnext₂, hnames₂⟩ :=
      hrest hatrest h₁.site ho₁ (hw.inDefer hdefer) h
    refine ⟨F₂, L₂, E₂, h₁.andThen h₂ hnames, ?_, fun q hq => hnames₂ q (hnames q hq)⟩
    rw [hnext₂, hnext, Nat.add_assoc]
    rfl
  · cases emitItems_of_not_open h₁.site.function ho₁ h
    refine ⟨F₁, L₁, _, h₁.andThen_nothing ho₁ rest.count _ _, ?_, hnames⟩
    change (first.after E).next + rest.count = _
    rw [hnext, Nat.add_assoc]
    rfl

/-- A block is a scope of its own. -/
theorem blockWorks_of_itemsWork {body : Body} (hitems : ItemsWork body) : BlockWorks body := by
  intro id d c c' F E L hat hsite ho hdefer h
  obtain ⟨items, hkind, hat⟩ := hat
  obtain ⟨d, h⟩ := work_of_performWithin h
  obtain ⟨location, hpeel⟩ := locate_kindOf hkind
  change emitStmt id _ c = _ at h
  unfold emitStmt at h
  rw [hpeel] at h
  simp only [emitBlock] at h
  rw [bind_of_eq_ok (get_apply _ c)] at h
  obtain ⟨-, h⟩ := guard_passes h
  rw [bind_of_eq_ok (set_apply _ _ c)] at h
  have hopen := openScope_apply (p := performWithin d)
    (c := { c with nestingDepth := c.nestingDepth + 1 }) hsite.function
  rw [bind_of_eq_ok hopen] at h
  obtain ⟨⟨⟩, c₁, hemit, h⟩ := bind_eq_ok.mp h
  obtain ⟨⟨⟩, c₂, hclose, h⟩ := bind_eq_ok.mp h
  cases h
  obtain ⟨F₁, L₁, E₁, h₁, hnext, hnames⟩ := hitems (by exact hat) hsite.openScope ho hdefer hemit
  obtain ⟨hcore, hF₂⟩ := closeScope_apply h₁.site.function hclose
  have hplaces : F₁.scope.pop.2.places = F.scope.places := by
    rw [Scope.places_pop, h₁.scope]
    rfl
  have hcore' : ({ c₂ with nestingDepth := c₂.nestingDepth - 1 } : Context).core = c₁.core := hcore
  have hblock := Compiles.inScope hsite h₁ rfl hcore' hF₂ hplaces hnames
  rw [hnext] at hblock
  exact ⟨_, L₁, hblock⟩

end CompileM

/-- A branch: what is emitted from the fresh block `start` on, with some loops around it, until
control goes to the block `next`. -/
structure Branches (loops : List LoopTargets) (start next : Nat) (c c' : Context)
    (F F' : FunctionState) (E E' : Env) (L L' : Layout) (run : Nat → Store → Outcome)
    (defers : List Deferred) : Prop where
  site : Site c' F' E' L'
  scope : F'.scope.places.tail = F.scope.places.tail
  written : ∃ new, new.Sublist defers ∧ Written [start, F.exitTail] c c' F F' L L' new
  runs : ∀ A L₁, Later A L₁ F'.builder L' → ∀ fuel frame st s r,
    Models A.image L₁ E.names s r ⟨⟨start, 0⟩, frame, st⟩ →
    Realizes A fuel ⟨⟨start, 0⟩, frame, st⟩
      (Ends A L₁ { F with loops } E.names r (Enters A L₁ E'.names r next)) (run fuel s)

/-- A jump behind a statement. -/
theorem Runs.toward {F F' : FunctionState} {E E' : Env} {L L₁ : Layout} {run : Nat → Store → Outcome}
    (h : Runs F F' E E' L run) (hb : F'.builder.Sound) {next : Nat} (hnext : next ≠ 0)
    {A : Activation} (hlater : Later A L₁ (F'.builder.finishWith (.br next)) L) (fuel : Nat)
    (frame : Machine.Frame) (st : State) (s : Store) (r : IntValue)
    (hmodels : Models A.image L₁ E.names s r ⟨F.builder.here, frame, st⟩) :
    Realizes A fuel ⟨F.builder.here, frame, st⟩
      (Ends A L₁ F E.names r (Enters A L₁ E'.names r next)) (run fuel s) := by
  have hend : F'.builder.Continues [F'.builder.current] (F'.builder.finishWith (.br next)) :=
    (FunctionBuilder.Continues.refl hb (List.mem_singleton_self _)).finishWith _
  refine (h A L₁ (hlater.of_continues hend) fuel frame st s r hmodels).ends rfl (fun _ => id) ?_
  rintro s' ⟨point, frame', st'⟩ ⟨ho, hpoint, hmodels'⟩
  cases hpoint
  have hhas := hlater.has
  rw [FunctionBuilder.finishWith_of_open ho] at hhas
  exact (leads_jump hb hhas hnext ⟨rfl, hmodels'.moved _⟩).mono (Nat.zero_le _) (fun _ => id)
    fun _ => id

/-- A statement in a fresh block, and a jump behind it. -/
theorem Compiles.toBranch {c c₁ c₂ c₃ : Context} {F F₂ : FunctionState} {E E₂ : Env} {L L₂ : Layout}
    {run : Nat → Store → Outcome} {defers : List Deferred} {loops : List LoopTargets}
    {start next : Nat} (hsite : Site c F E L) (hstart : F.builder.Fresh start)
    (hne : F.exitTail ≠ start) (hnext : next ≠ 0)
    (h : Compiles c₁ c₂ { F with builder := F.builder.moveTo start, loops } F₂ E E₂ L L₂ run defers)
    (hcore₁ : c₁.core = c.core) (hcore₃ : c₃.core = c₂.core) (hF₃ : c₃.function = some { F₂ with loops := F.loops }) :
    Branches loops start next c (c₃.advance (F₂.builder.finishWith (.br next)) F₂.scope) F
      { F₂ with builder := F₂.builder.finishWith (.br next), loops := F.loops } E E₂ L L₂ run
      defers := by
  obtain ⟨new, hnew, hw⟩ := h.written
  have hend : F₂.builder.Continues [F₂.builder.current] (F₂.builder.finishWith (.br next)) :=
    (FunctionBuilder.Continues.refl h.site.sound (List.mem_singleton_self _)).finishWith _
  obtain ⟨-, hw₁⟩ := hsite.land hstart hne
  have hfixed : ({ F₂ with loops := F.loops } : FunctionState).fixed = F.fixed :=
    congrArg (fun G : FunctionState => { G with loops := F.loops }) hw.fixed
  -- the code of the statement with the loops as they are outside
  have hw₂ : Written [start, F.exitTail] (c.advance (F.builder.moveTo start) F.scope) c₃
      { F with builder := F.builder.moveTo start } { F₂ with loops := F.loops } L L₂ new :=
    hw.transfer hcore₁ hcore₃ rfl rfl rfl rfl hfixed
  obtain ⟨hsite₃, hw₃⟩ := (h.site.withLoops hcore₃ hF₃ hsite.loops).advance hend h.site.tail_not_mem
  have hwritten := ((hw₁.mono [start, F.exitTail] (by simp)).trans_current (by simp) hw₂).trans_here hw₃
  rw [List.nil_append, List.append_nil] at hwritten
  refine ⟨hsite₃, h.scope, ⟨new, hnew, hwritten⟩, ?_⟩
  intro A L₁ hlater fuel frame st s r hmodels
  have hrun := h.runs.toward h.site.sound hnext hlater fuel frame st s r
  simp only [hstart.here] at hrun
  exact hrun hmodels

namespace FunctionBuilder

variable {b : FunctionBuilder}

theorem ifThen_run (hb : b.Sound) (ho : b.Open) (o : Operand) :
    (do
      let yesBlock ← createBlock "if.then"
      let noBlock ← (none : Option NodeId).mapM fun _ => createBlock "if.else"
      let endBlock ← createBlock "if.end"
      condBr o yesBlock (noBlock.getD endBlock)
      return (yesBlock, noBlock, endBlock) : BuildM (Nat × Option Nat × Nat)).run b =
    ((b.nextBlock, none, b.nextBlock + 1),
      b.leaveFor ["if.then", "if.end"] (.condBr o b.nextBlock (b.nextBlock + 1))) := by
  rw [leaveFor, ← finishWith_of_open (ho.addBlocks hb _)]
  simp only [Option.mapM_none, run_bind, createBlock_run, condBr, terminate_run_eq]
  rfl

theorem ifElse_run (hb : b.Sound) (ho : b.Open) (o : Operand) (no : NodeId) :
    (do
      let yesBlock ← createBlock "if.then"
      let noBlock ← (some no).mapM fun _ => createBlock "if.else"
      let endBlock ← createBlock "if.end"
      condBr o yesBlock (noBlock.getD endBlock)
      return (yesBlock, noBlock, endBlock) : BuildM (Nat × Option Nat × Nat)).run b =
    ((b.nextBlock, some (b.nextBlock + 1), b.nextBlock + 2),
      b.leaveFor ["if.then", "if.else", "if.end"] (.condBr o b.nextBlock (b.nextBlock + 1))) := by
  rw [leaveFor, ← finishWith_of_open (ho.addBlocks hb _)]
  simp only [Option.mapM_some, run_bind, createBlock_run, condBr, terminate_run_eq]
  rfl

end FunctionBuilder

section Conditions

variable {c c' : Context} {F : FunctionState} {E : Env} {L L₁ : Layout} {A : Activation}
  {b b' : FunctionBuilder} {o : Operand} {frame : Machine.Frame} {st : State} {s : Store}
  {r : IntValue} {fuel : Nat} {Q : Signal → Store → Config → Prop}
  {Fit : Activation → Machine.Frame → State → Option IntValue → Prop}

/-- Code that decides where to go on. -/
theorem Emits.splits {yes no : Nat} {test : Option Bool} {f : Bool → Outcome}
    (e : Emits c c' F.builder b' o .bool Fit) (hsite : Site c F E L) (hlater : Later A L₁ b' L)
    (hb : b.Sound) (hhere : b.here = b'.here) (hhas : A.Has (b.endWith (.condBr o yes no)))
    (hyes : yes ≠ 0) (hno : no ≠ 0) (hfit : Fit A frame st (test.map .ofBool))
    (hmodels : Models A.image L₁ E.names s r ⟨F.builder.here, frame, st⟩)
    (hnext : ∀ t frame' st', test = some t →
      Agrees F.builder.nextValue b'.nextValue frame frame' →
      Models A.image L₁ E.names s r ⟨⟨if t then yes else no, 0⟩, frame', st'⟩ →
      Realizes A fuel ⟨⟨if t then yes else no, 0⟩, frame', st'⟩ Q (f t)) :
    Realizes A (fuel + 1) ⟨F.builder.here, frame, st⟩ Q (test.elim .fault f) := by
  have hcomputes := e.computes A frame st _ hlater.has hfit
  cases test with
  | none => exact hcomputes
  | some t =>
    refine Realizes.step hcomputes fun C hC => ?_
    obtain ⟨point, frame', st'⟩ := C
    obtain rfl : point = b'.here := hC.point
    have hkept : Models A.image L₁ E.names s r ⟨b'.here, frame', st'⟩ :=
      hmodels.keep hC.frame hC.memory (hlater.outside hsite)
    rw [← hhere]
    refine Realizes.jump (leads_branch (Q := fun C => C = ⟨⟨if t then yes else no, 0⟩, frame', st'⟩)
      hb hhas hyes hno hC.value rfl) ?_
    rintro C rfl
    exact hnext t frame' st' rfl hC.frame (hkept.moved _)

/-- A run does not end within the block in which it decides where to go on. -/
theorem Emits.lasts {yes no : Nat} {test : Option Bool} (e : Emits c c' F.builder b' o .bool Fit)
    (hA : A.Has b') (hb : b.Sound) (hhere : b.here = b'.here)
    (hhas : A.Has (b.endWith (.condBr o yes no))) (hfit : Fit A frame st (test.map .ofBool)) :
    A.Lasts 0 ⟨F.builder.here, frame, st⟩ := by
  have hcomputes := e.computes A frame st _ hA hfit
  cases test with
  | none => exact Activation.Leads.lasts (j := 0) hcomputes fun _ => False.elim
  | some t =>
    refine Activation.Leads.lasts (j := 0) hcomputes fun C hC => ?_
    obtain ⟨point, frame', st'⟩ := C
    obtain rfl : point = b.here := hC.point.trans hhere.symm
    exact Activation.lasts_end (hhas.ending hb).1 (hhas.ending hb).2 (List.cons_ne_nil _ _)

theorem Enters.stands {names : List (String × Nat)} {id : Nat} {C : Config}
    (h : Enters A L names r id s C) (hid : F.builder.Fresh id) :
    Stands A L names r { F with builder := F.builder.moveTo id } s C :=
  ⟨hid.isOpen, h.1.trans hid.here.symm, h.2⟩

/-- Code that ends its block with a decision between the blocks `yes` and `no`, behind `count` fresh
blocks from `lo` on.  `Test` says what is decided. -/
structure Splits (c c' : Context) (F F' : FunctionState) (E : Env) (L : Layout) (lo count yes no : Nat)
    (Test : Activation → Machine.Frame → Store → Option Bool → Prop) : Prop where
  site : Site c' F' E L
  scope : F'.scope.places = F.scope.places
  written : Written [F.builder.current] c c' F F' L L []
  first : F.builder.nextBlock ≤ lo
  fresh : ∀ id, lo ≤ id → id < lo + count → F'.builder.Fresh id ∧ F'.exitTail ≠ id
  runs : ∀ A L₁, Later A L₁ F'.builder L → ∀ fuel frame st s r test f Q,
    Models A.image L₁ E.names s r ⟨F.builder.here, frame, st⟩ → Test A frame s test →
    (∀ t frame' st', test = some t → Agrees F.builder.nextValue F'.builder.nextValue frame frame' →
      Models A.image L₁ E.names s r ⟨⟨if t then yes else no, 0⟩, frame', st'⟩ →
      Realizes A fuel ⟨⟨if t then yes else no, 0⟩, frame', st'⟩ Q (f t)) →
    Realizes A (fuel + 1) ⟨F.builder.here, frame, st⟩ Q (test.elim .fault f)
  lasts : ∀ A L₁, Later A L₁ F'.builder L → ∀ frame st s r test,
    Models A.image L₁ E.names s r ⟨F.builder.here, frame, st⟩ → Test A frame s test →
    A.Lasts 0 ⟨F.builder.here, frame, st⟩

theorem Emits.toSplits {F₁ : FunctionState}
    {Test : Activation → Machine.Frame → Store → Option Bool → Prop} {yes no : Nat}
    (e : Emits c c' F.builder F₁.builder o .bool Fit) (hsite : Site c F E L)
    (hsite₁ : Site c' F₁ E L) (hscope : F₁.scope.places = F.scope.places)
    (hw : Written [F.builder.current] c c' F F₁ L L []) (labels : List String) (hyes : yes ≠ 0)
    (hno : no ≠ 0)
    (hfit : ∀ A L₁ frame st s r test, Later A L₁ F₁.builder L →
      Models A.image L₁ E.names s r ⟨F.builder.here, frame, st⟩ → Test A frame s test →
      Fit A frame st (test.map .ofBool)) :
    Splits c (c'.advance (F₁.builder.leaveFor labels (.condBr o yes no)) F₁.scope) F
      { F₁ with builder := F₁.builder.leaveFor labels (.condBr o yes no) } E L F₁.builder.nextBlock
      labels.length yes no Test := by
  have ho := e.follows.isOpen
  have hblocks := (FunctionBuilder.continues_addBlocks hsite₁.sound labels).1
  have hhere := FunctionBuilder.here_addBlocks hsite₁.sound labels
  obtain ⟨hsite₂, hw₂⟩ := hsite₁.advance
    (FunctionBuilder.continues_leaveFor hsite₁.sound ho labels _) hsite₁.tail_not_mem
  have hwritten := hw.trans_here hw₂
  rw [List.nil_append] at hwritten
  refine ⟨hsite₂, hscope, hwritten, hw.continues.block, fun id hlo hhi => ⟨?_, ?_⟩, ?_, ?_⟩
  · exact FunctionBuilder.fresh_leaveFor hsite₁.sound ho _ hlo hhi
  · exact (hsite₁.tail.lt.trans_le hlo).ne
  · intro A L₁ hlater fuel frame st s r test f Q hmodels htest hnext
    have hlater₁ := hlater.of_written hw₂
    refine e.splits hsite hlater₁ hblocks.sound hhere hlater.has hyes hno
      (hfit A L₁ frame st s r test hlater₁ hmodels htest) hmodels fun t frame' st' ht hframe => ?_
    exact hnext t frame' st' ht (hframe.mono (le_refl _) hw₂.continues.value)
  · intro A L₁ hlater frame st s r test hmodels htest
    have hlater₁ := hlater.of_written hw₂
    exact e.lasts hlater₁.has hblocks.sound hhere hlater.has
      (hfit A L₁ frame st s r test hlater₁ hmodels htest)

namespace CompileM

variable {id : NodeId} {d : Nat} {e : IntExpr}

/-- A condition that decides where to go on. -/
theorem emitTest_spec (hsite : Site c F E L) (ho : F.builder.Open) (hat : ExprAt c.tree E.names e id)
    (h : emitCondition id (performWithin d) c = .ok o c') :
    ∃ F', F'.builder.Open ∧ Site c' F' E L ∧ ∀ labels yes no, yes ≠ 0 → no ≠ 0 →
      Splits c (c'.advance (F'.builder.leaveFor labels (.condBr o yes no)) F'.scope) F
        { F' with builder := F'.builder.leaveFor labels (.condBr o yes no) } E L F'.builder.nextBlock
        labels.length yes no fun _ _ s v => v = s.test E.names e := by
  obtain ⟨b', he⟩ :=
    emitCondition_spec (emitExpr_spec e) hat.1 (hsite.ready ho) (hsite.typed hat.2) h
  obtain ⟨F', rfl, hplaces, hsite', hw⟩ := hsite.follows he.follows
  refine ⟨F', he.follows.isOpen, hsite', fun labels yes no hyes hno => ?_⟩
  refine he.toSplits hsite hsite' hplaces hw labels hyes hno ?_
  rintro A L₁ frame st s r test hlater hmodels rfl
  refine ⟨hmodels.represents.base, s.get E.names, hmodels.provides hsite hlater hat.2, ?_⟩
  rw [Store.test, Option.map_map]
  rfl

/-- A block in a fresh block of the function, and a jump behind it. -/
theorem BlockWorks.branch {body : Body} {start next : Nat} (hworks : BlockWorks body)
    (hat : BlockOf c.tree (body.At c.tree E) id) (hsite : Site c F E L) (hdefer : F.inDefer = false)
    (hstart : F.builder.Fresh start) (hne : F.exitTail ≠ start) (hnext : next ≠ 0)
    (h : performWithin d (.emitStmt id) (c.advance (F.builder.moveTo start) F.scope) = .ok () c') :
    ∃ F' L', c'.function = some F' ∧
      Branches F.loops start next c (c'.advance (F'.builder.finishWith (.br next)) F'.scope) F
        { F' with builder := F'.builder.finishWith (.br next) } E (E.skip body.count) L L'
        (fun fuel => body.exec fuel E) (body.defers E) := by
  obtain ⟨hsite₁, -⟩ := hsite.land hstart hne
  obtain ⟨F₂, L₂, h₂⟩ := hworks (by exact hat) hsite₁ hstart.isOpen hdefer h
  have hloops : F₂.loops = F.loops := (FunctionState.of_fixed h₂.fixed).2.2.2.1
  have hbranch := Compiles.toBranch hsite hstart hne hnext h₂ rfl rfl
    (by rw [h₂.site.function, ← hloops])
  rw [← hloops] at hbranch
  rw [← hloops]
  exact ⟨_, L₂, h₂.site.function, hbranch⟩

/-- A branch of a conditional. -/
theorem emitBranch_spec {body : Body} {start next : Nat} (hworks : BlockWorks body)
    (hat : BlockOf c.tree (body.At c.tree E) id) (hsite : Site c F E L) (hdefer : F.inDefer = false)
    (hstart : F.builder.Fresh start) (hne : F.exitTail ≠ start) (hnext : next ≠ 0)
    (h : emitBranch start id next (performWithin d) c = .ok () c') :
    ∃ F' L', Branches F.loops start next c c' F F' E (E.skip body.count) L L'
      (fun fuel => body.exec fuel E) (body.defers E) := by
  obtain ⟨⟨⟩, c₁, hmove, h⟩ := bind_eq_ok.mp h
  obtain ⟨⟨⟩, c₂, hemit, hend⟩ := bind_eq_ok.mp h
  obtain ⟨-, rfl⟩ := eq_advance_of_build hsite.function (FunctionBuilder.switchTo_run _ start) hmove
  obtain ⟨F₂, L₂, hF₂, h₂⟩ := hworks.branch hat hsite hdefer hstart hne hnext hemit
  obtain ⟨-, rfl⟩ := eq_advance_of_build hF₂ (FunctionBuilder.terminate_run_eq _ (.br next)) hend
  exact ⟨_, L₂, h₂⟩

/-- A conditional with one branch. -/
theorem stmtWorks_ifThen {condition : IntExpr} {yes : Body} (hyes : BlockWorks yes) :
    StmtWorks (.ifThen condition yes) := by
  intro id d c c' F E L hat hsite ho hdefer h
  obtain ⟨cond, y, hkind, hcond, hbody⟩ := hat
  obtain ⟨d, h⟩ := work_of_performWithin h
  obtain ⟨location, hpeel⟩ := locate_kindOf hkind
  change emitStmt id _ c = _ at h
  unfold emitStmt at h
  rw [hpeel] at h
  simp only [emitIf] at h
  obtain ⟨o, c₁, htest, h⟩ := bind_eq_ok.mp h
  obtain ⟨F₁, ho₁, hsite₁, hsplits⟩ := emitTest_spec hsite ho hcond htest
  obtain ⟨⟨start, other, stop⟩, c₂, hbuild, h⟩ := bind_eq_ok.mp h
  have hrun := FunctionBuilder.ifThen_run hsite₁.sound ho₁ o
  obtain ⟨heq, rfl⟩ := eq_advance_of_build hsite₁.function hrun hbuild
  cases heq
  have h₂ := hsplits ["if.then", "if.end"] F₁.builder.nextBlock (F₁.builder.nextBlock + 1)
    hsite₁.sound.nextBlock_pos.ne' (Nat.succ_ne_zero _)
  obtain ⟨hstart, htail⟩ := h₂.fresh F₁.builder.nextBlock (le_refl _) (by simp)
  obtain ⟨hstop, htail'⟩ := h₂.fresh (F₁.builder.nextBlock + 1) (Nat.le_succ _) (by simp)
  -- the branch
  obtain ⟨⟨⟩, c₃, hbranch, h⟩ := bind_eq_ok.mp h
  rw [← Context.tree_of_core h₂.written.core] at hbody
  obtain ⟨F₃, L₃, h₃⟩ := emitBranch_spec hyes hbody h₂.site (h₂.written.inDefer hdefer) hstart htail
    (Nat.succ_ne_zero _) hbranch
  obtain ⟨new, hnew, hw₃⟩ := h₃.written
  have hstop₃ := hstop.continues hw₃.continues (by simpa using htail'.symm)
  obtain ⟨-, rfl⟩ := eq_advance_of_build h₃.site.function (FunctionBuilder.switchTo_run _ _) h
  obtain ⟨hsite₄, hw₄⟩ := h₃.site.land hstop₃ (hw₃.tail_ne hstop.lt htail')
  have hw := ((h₂.written.mono [F.builder.current, F.exitTail] (by simp)).trans_branch (by simp)
    h₂.first hw₃).trans_block (h₂.first.trans (Nat.le_succ _)) hw₄
  simp only [List.nil_append, List.append_nil] at hw
  refine ⟨_, L₃, hsite₄, h₃.scope.trans (congrArg _ h₂.scope), ⟨new, hnew, hw⟩, ?_⟩
  intro A L₀ hlater fuel frame st s r hmodels
  have hlater₃ := hlater.of_written hw₄
  refine (h₂.runs A L₀ (hlater₃.of_written hw₃) fuel frame st s r _ _ _ hmodels rfl ?_).mono
    (Nat.le_succ _)
  intro t frame' st' _ _ hmodels'
  cases t with
  | false => exact .refl (Enters.stands ⟨rfl, hmodels'⟩ hstop₃)
  | true =>
    exact (h₃.runs A L₀ hlater₃ fuel frame' st' s r hmodels').ends h₂.written.fixed (fun _ hq => hq)
      fun s' C hC => .refl (hC.stands hstop₃)

/-- A conditional with two branches. -/
theorem stmtWorks_ifElse {condition : IntExpr} {yes no : Body} (hyes : BlockWorks yes)
    (hno : BlockWorks no) : StmtWorks (.ifElse condition yes no) := by
  intro id d c c' F E L hat hsite ho hdefer h
  obtain ⟨cond, y, z, hkind, hcond, hbody, hbody'⟩ := hat
  obtain ⟨d, h⟩ := work_of_performWithin h
  obtain ⟨location, hpeel⟩ := locate_kindOf hkind
  change emitStmt id _ c = _ at h
  unfold emitStmt at h
  rw [hpeel] at h
  simp only [emitIf] at h
  obtain ⟨o, c₁, htest, h⟩ := bind_eq_ok.mp h
  obtain ⟨F₁, ho₁, hsite₁, hsplits⟩ := emitTest_spec hsite ho hcond htest
  obtain ⟨⟨start, other, stop⟩, c₂, hbuild, h⟩ := bind_eq_ok.mp h
  have hrun := FunctionBuilder.ifElse_run hsite₁.sound ho₁ o z
  obtain ⟨heq, rfl⟩ := eq_advance_of_build hsite₁.function hrun hbuild
  cases heq
  have h₂ := hsplits ["if.then", "if.else", "if.end"] F₁.builder.nextBlock (F₁.builder.nextBlock + 1)
    hsite₁.sound.nextBlock_pos.ne' (Nat.succ_ne_zero _)
  obtain ⟨hstart, htail⟩ := h₂.fresh F₁.builder.nextBlock (le_refl _) (by simp)
  obtain ⟨hother, htail'⟩ := h₂.fresh (F₁.builder.nextBlock + 1) (by simp) (by simp)
  obtain ⟨hstop, htail''⟩ := h₂.fresh (F₁.builder.nextBlock + 2) (by simp) (by simp)
  -- the two branches
  obtain ⟨⟨⟩, c₃, hbranch, h⟩ := bind_eq_ok.mp h
  obtain ⟨⟨⟩, c₄, hbranch', h⟩ := bind_eq_ok.mp h
  rw [← Context.tree_of_core h₂.written.core] at hbody hbody'
  obtain ⟨F₃, L₃, h₃⟩ := emitBranch_spec hyes hbody h₂.site (h₂.written.inDefer hdefer) hstart htail
    (Nat.succ_ne_zero _) hbranch
  obtain ⟨new, hnew, hw₃⟩ := h₃.written
  have hother₃ := hother.continues hw₃.continues (by simpa using htail'.symm)
  have hstop₃ := hstop.continues hw₃.continues (by simpa using htail''.symm)
  have htail₃ := hw₃.tail_ne hstop.lt htail''
  rw [← Context.tree_of_core hw₃.core] at hbody'
  obtain ⟨F₄, L₄, h₄⟩ := emitBranch_spec hno hbody' h₃.site
    (hw₃.inDefer (h₂.written.inDefer hdefer)) hother₃ (hw₃.tail_ne hother.lt htail')
    (Nat.succ_ne_zero _) hbranch'
  obtain ⟨new', hnew', hw₄⟩ := h₄.written
  have hstop₄ := hstop₃.continues hw₄.continues (by simpa using htail₃.symm)
  obtain ⟨-, rfl⟩ := eq_advance_of_build h₄.site.function (FunctionBuilder.switchTo_run _ _) h
  obtain ⟨hsite₅, hw₅⟩ := h₄.site.land hstop₄ (hw₄.tail_ne hstop₃.lt htail₃)
  have hw := (((h₂.written.mono [F.builder.current, F.exitTail] (by simp)).trans_branch (by simp)
    h₂.first hw₃).trans_branch (by simp) (h₂.first.trans (by simp)) hw₄).trans_block
    (h₂.first.trans (by simp)) hw₅
  simp only [List.nil_append, List.append_nil] at hw
  rw [Env.skip_skip] at hsite₅
  refine ⟨_, L₄, hsite₅, h₄.scope.trans (h₃.scope.trans (congrArg _ h₂.scope)),
    ⟨new ++ new', hnew.append hnew', hw⟩, ?_⟩
  intro A L₀ hlater fuel frame st s r hmodels
  have hlater₄ := hlater.of_written hw₅
  have hlater₃ := hlater₄.of_written hw₄
  refine (h₂.runs A L₀ (hlater₃.of_written hw₃) fuel frame st s r _ _ _ hmodels rfl ?_).mono
    (Nat.le_succ _)
  intro t frame' st' _ _ hmodels'
  cases t with
  | false =>
    exact (h₄.runs A L₀ hlater₄ fuel frame' st' s r hmodels').ends (hw₃.fixed.trans h₂.written.fixed)
      (fun _ hq => hq) fun s' C hC => .refl (hC.stands hstop₄)
  | true =>
    exact (h₃.runs A L₀ hlater₃ fuel frame' st' s r hmodels').ends h₂.written.fixed (fun _ hq => hq)
      fun s' C hC => .refl (hC.stands hstop₄)

end CompileM
end Conditions

end UnitCompiler
