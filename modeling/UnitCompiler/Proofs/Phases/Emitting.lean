import UnitCompiler.Proofs.Disciplines.Confinement
import UnitCompiler.Proofs.Phases.Settling

/-!
# Emitting a unit again

Each declaration is emitted once.  A condition around declarations is folded on every emission; where it
asks for no type it takes the same branch as before.
-/

namespace UnitCompiler

/-! ### The function under emission -/

/-- An action that returns to the function under emission that it found. -/
def KeepsFunction (p : Performer) {α : Type} (x : CompileM α) : Prop :=
  ∀ c a c', x p c = .ok a c' → c'.function = c.function

theorem KeepsFunction.of_confined {p q : Performer} {α : Type} {x : CompileM α}
    (h : (confinement true p q).Holds x) : KeepsFunction p x := by
  intro c a c' hrun
  have hkeeps := (h c).1.function rfl
  rwa [hrun] at hkeeps

/-! ### Emitting once -/

theorem Context.Later.emitted {c c' : Context} {id : NodeId} (h : c.Later c')
    (hid : c.stateOf id = .emitted) : c'.stateOf id = .emitted := by
  have hrank := h.states id
  rw [hid] at hrank
  revert hrank
  cases c'.stateOf id <;> decide

/-- A context of emission that keeps a function and holds a tree. -/
structure Context.Emitting (t : Tree) (F : Option FunctionState) (c : Context) : Prop where
  phase : c.phase = .emit
  sound : c.Sound
  function : c.function = F
  tree : t.Begins c.tree

theorem Context.Emitting.later {t : Tree} {F : Option FunctionState} {c c' : Context}
    (h : c.Emitting t F) (hlater : c.Later c') (hfunction : c'.function = c.function) :
    c'.Emitting t F :=
  ⟨hlater.phase.trans h.phase, hlater.sound h.sound, hfunction.trans h.function,
    h.tree.trans hlater.tree⟩

/-- Behind the work on a declaration that is emitted once it has been emitted. -/
theorem Leads.emitted {p : Performer} {x : CompileM PUnit} {id : NodeId} {c c' : Context}
    (hx : Leads p x) (h : (do
      if ← CompileM.beginEmit id then x) p c = .ok ⟨⟩ c') : c'.stateOf id = .emitted := by
  by_cases hid : c.stateOf id = .emitted
  · rw [CompileM.bind_of_eq_ok (CompileM.beginEmit_of_emitted hid)] at h
    cases h
    exact hid
  · rw [CompileM.bind_of_eq_ok (CompileM.beginEmit_apply hid)] at h
    refine ((hx _).of_ok h).emitted ?_
    rw [Context.Later.stateOf_insert, if_pos rfl]

namespace DoneOnce

variable {t : Tree} {F : Option FunctionState} {p q : Performer} {x : CompileM PUnit}

/-- A declaration that was emitted is left alone. -/
theorem emitOnce (id : NodeId) (hx : Leads p x) (hkeeps : (confinement true p q).Holds x) :
    DoneOnce (·.Emitting t F) p (do
      if ← CompileM.beginEmit id then x) := by
  intro c c' hc hrun
  have hlater : c.Later c' := EndsIn.of_ok
    (Leads.run (.bind (.beginEmit id) fun isNew => .ite (q := isNew = true) hx (.pure _)) c) hrun
  have hfunction : c'.function = c.function := KeepsFunction.of_confined
    (.bind (.beginEmit id) fun isNew => .ite (q := isNew = true) hkeeps (.pure _)) c _ c' hrun
  refine ⟨hlater, hc.later hlater hfunction, fun e _ hlater' => ?_⟩
  rw [CompileM.bind_of_eq_ok (CompileM.beginEmit_of_emitted (hlater'.emitted (hx.emitted hrun)))]
  rfl

section Jobs

variable [p.Leads] (q) [p.Confines q]
include q

theorem emitFunction (key : String) : DoneOnce (·.Emitting t F) p (CompileM.emitFunction key) := by
  refine lookup (g := fun c => c.symbols.functions.get? key) (f := fun f => do
    if ← CompileM.beginEmit f.decl then CompileM.within f.subst f.space (CompileM.emitSymbol f))
    (fun c c' h hrun => ?_) (fun c f h => ?_) (fun c e f _ hlater h => hlater.symbols.functions h)
    fun f => emitOnce (q := q) f.decl (.within_opens (Discipline.opens_emitSymbol f))
      (ConfinedAt.within (confinedAt_of_opens (Discipline.opens_emitSymbol f)) _ _)
  · unfold CompileM.emitFunction at hrun
    rw [CompileM.bind_of_eq_ok (CompileM.get_apply p c), h] at hrun
    cases hrun
  · unfold CompileM.emitFunction
    rw [CompileM.bind_of_eq_ok (CompileM.get_apply p c), h]

/-- The aggregate of a name may have got operators and methods since, but it is the same declaration. -/
theorem emitAggregate (name : String) :
    DoneOnce (·.Emitting t F) p (CompileM.emitAggregate name) := by
  intro c c' hc hrun
  have hlater := EndsIn.of_ok (Leads.run (.emitAggregate name) c) hrun
  have hkeeps : (confinement true p q).Holds (CompileM.emitAggregate name) := .emitAggregate name
  refine ⟨hlater, hc.later hlater (KeepsFunction.of_confined hkeeps c _ c' hrun), fun e _ hlater' => ?_⟩
  unfold CompileM.emitAggregate at hrun ⊢
  rw [CompileM.bind_of_eq_ok (CompileM.get_apply p c)] at hrun
  rw [CompileM.bind_of_eq_ok (CompileM.get_apply p e)]
  cases ha : c.symbols.aggregates.get? name with
  | none =>
    rw [ha] at hrun
    cases hrun
  | some symbol =>
    rw [ha] at hrun
    obtain ⟨symbol', ha', hdecl⟩ := (hlater.trans hlater').symbols.aggregates ha
    have hemitted : e.stateOf symbol'.decl = .emitted := by
      rw [hdecl]
      refine hlater'.emitted (Leads.emitted ?_ hrun)
      exact .bind (.locate _) fun _ => .bind (.lower _ _) fun _ => .bind (Discipline.Defines.addType _) fun _ =>
        .forM fun key => .job (.emitFunction key) rfl
    rw [ha']
    exact CompileM.bind_of_eq_ok (CompileM.beginEmit_of_emitted hemitted)

end Jobs

theorem performWithin_emitFunction (depth : Nat) (key : String) :
    DoneOnce (·.Emitting t F) (performWithin depth) (CompileM.perform (.emitFunction key)) := by
  cases depth with
  | zero => exact of_ne_ok fun _ _ h => by cases h
  | succ depth =>
    have := Leads.performWithin depth
    exact emitFunction (p := performWithin depth) (watched (performWithin 0) depth) key

theorem performWithin_emitAggregate (depth : Nat) (name : String) :
    DoneOnce (·.Emitting t F) (performWithin depth) (CompileM.perform (.emitAggregate name)) := by
  cases depth with
  | zero => exact of_ne_ok fun _ _ h => by cases h
  | succ depth =>
    have := Leads.performWithin depth
    exact emitAggregate (p := performWithin depth) (watched (performWithin 0) depth) name

end DoneOnce

/-! ### Conditions that ask for no type -/

namespace NodeKind

/-- Literals and names. -/
def isAtom : NodeKind → Bool
  | .int _ | .float _ | .bool _ | .char _ | .str _ | .null | .ident .. => true
  | _ => false

/-- Declarations that hold others, and the choice between two. -/
def isGroup : NodeKind → Bool
  | .block _ | .space .. | .staticIf .. => true
  | _ => false

end NodeKind

namespace Tree

/-- An expression of literals, names and operators, whose value depends on no type. -/
inductive TypeFree (t : Tree) : NodeId → Prop where
  | atom {id kind} (hkind : t.HasKind id kind) (hatom : kind.isAtom = true) : t.TypeFree id
  | unary {id op operand} (hkind : t.HasKind id (.unary op operand)) (h : t.TypeFree operand) :
    t.TypeFree id
  | binary {id op lhs rhs} (hkind : t.HasKind id (.binary op lhs rhs)) (hl : t.TypeFree lhs)
    (hr : t.TypeFree rhs) : t.TypeFree id

/-- A name in an expression of literals, names and operators. -/
inductive Mentions (t : Tree) : NodeId → String → Prop where
  | ident {id name} (hkind : t.HasKind id (.ident name [])) : t.Mentions id name
  | unary {id op operand name} (hkind : t.HasKind id (.unary op operand)) (h : t.Mentions operand name) :
    t.Mentions id name
  | left {id op lhs rhs name} (hkind : t.HasKind id (.binary op lhs rhs)) (h : t.Mentions lhs name) :
    t.Mentions id name
  | right {id op lhs rhs name} (hkind : t.HasKind id (.binary op lhs rhs)) (h : t.Mentions rhs name) :
    t.Mentions id name

/-- Declarations in which no condition outside of functions asks for a type. -/
inductive Steady (t : Tree) : NodeId → Prop where
  | single {id kind} (hkind : t.HasKind id kind) (hsingle : kind.isGroup = false) : t.Steady id
  | block {id items} (hkind : t.HasKind id (.block items)) (h : ∀ item ∈ items, t.Steady item) :
    t.Steady id
  | space {id name items} (hkind : t.HasKind id (.space name items))
    (h : ∀ item ∈ items, t.Steady item) : t.Steady id
  | staticIf {id cond yes no} (hkind : t.HasKind id (.staticIf cond yes no)) (hcond : t.TypeFree cond)
    (hyes : t.Steady yes) (hno : ∀ branch ∈ no, t.Steady branch) : t.Steady id

end Tree

namespace Context

variable {c e : Context}

/-- The same aliases and globals are entered under the spellings of a name. -/
def Retains (c e : Context) (name : String) : Prop :=
  ∀ candidate ∈ c.candidates name,
    e.symbols.aliases.get? candidate = c.symbols.aliases.get? candidate ∧
      e.symbols.globals.get? candidate = c.symbols.globals.get? candidate

/-- What a name is bound to depends on the bindings, and on what is entered under its spellings. -/
theorem Retains.constant? {name : String} (h : c.Retains e name) (hfunction : e.function = c.function)
    (hsubst : e.subst = c.subst) (hspace : e.space = c.space) :
    e.constant? name = c.constant? name := by
  have hconst (candidates : List String) (h : ∀ candidate ∈ candidates,
      e.symbols.aliases.get? candidate = c.symbols.aliases.get? candidate ∧
        e.symbols.globals.get? candidate = c.symbols.globals.get? candidate) :
      e.globalConst? candidates = c.globalConst? candidates := by
    induction candidates with
    | nil => rfl
    | cons candidate rest ih =>
      obtain ⟨⟨haliases, hglobals⟩, hrest⟩ := List.forall_mem_cons.mp h
      rw [globalConst?, globalConst?, haliases, hglobals, ih hrest]
  have hcandidates : e.candidates name = c.candidates name := by
    unfold candidates
    rw [hspace]
  unfold Context.constant? localVar? localAlias?
  rw [hfunction, hsubst, hcandidates, hconst _ h]

/-- Contexts that hold the nodes of a tree, and in which the names of a condition are bound to the same. -/
structure Alike (t : Tree) (cond : NodeId) (c e : Context) : Prop where
  tree : t.Begins c.tree
  later : c.tree.Begins e.tree
  constants : ∀ name, t.Mentions cond name → e.constant? name = c.constant? name

instance (t : Tree) (cond : NodeId) : Carries (Alike t cond) := ⟨fun h => h.later⟩

/-- A part of a condition mentions no other names. -/
theorem Alike.part {t : Tree} {cond part : NodeId} (h : Alike t cond c e)
    (hpart : ∀ name, t.Mentions part name → t.Mentions cond name) : Alike t part c e :=
  ⟨h.tree, h.later, fun name hname => h.constants name (hpart name hname)⟩

/-- While emitting, every name stays bound to the same. -/
theorem LaterIn.alike {t : Tree} {F : Option FunctionState} (cond : NodeId)
    (h : LaterIn (·.Emitting t F) c e) : Alike t cond c e where
  tree := h.first.tree
  later := h.later.tree
  constants name _ := by
    have hkeeps : c.Retains e name := by
      intro candidate _
      rw [h.later.aliases h.first.phase, h.later.globals h.first.phase]
      exact ⟨rfl, rfl⟩
    exact hkeeps.constant? (h.second.function.trans h.first.function.symm) h.later.subst h.later.space

end Context

namespace Reads

variable {t : Tree} {p : Performer} {α β : Type} {x : CompileM α} {R R' : Context → Context → Prop}

theorem weaken (h : Reads R p x) (hR : ∀ c e, R' c e → R c e) : Reads R' p x :=
  fun c e a c' hce => h c e a c' (hR c e hce)

theorem of_part {cond part : NodeId} (hpart : ∀ name, t.Mentions part name → t.Mentions cond name)
    (h : Reads (Context.Alike t part) p x) : Reads (Context.Alike t cond) p x :=
  h.weaken fun _ _ hR => hR.part hpart

/-- A node of the tree is read. -/
theorem kindOf_bind {f : NodeKind → CompileM α} {id cond : NodeId} {kind : NodeKind}
    (hkind : t.HasKind id kind) (h : Reads (Context.Alike t cond) p (f kind)) :
    Reads (Context.Alike t cond) p (CompileM.kindOf id >>= f) := by
  intro c e a c' hR hrun
  rw [CompileM.bind_of_eq_ok (CompileM.kindOf_apply (hR.tree.hasKind hkind))] at hrun
  rw [CompileM.bind_of_eq_ok (CompileM.kindOf_apply ((hR.tree.trans hR.later).hasKind hkind))]
  exact h c e a c' hR hrun

theorem constant? {cond : NodeId} {name : String} (h : t.Mentions cond name) :
    Reads (Context.Alike t cond) p (do
      return (← get).constant? name) := by
  rintro c e _ _ hR ⟨⟩
  refine ⟨rfl, ?_⟩
  rw [CompileM.bind_of_eq_ok (CompileM.get_apply p e), hR.constants name h]
  rfl

/-- Where the names of a condition are bound to the same, its value is the same. -/
theorem fold {cond : NodeId} (h : t.TypeFree cond) (depth : Nat) :
    Reads (Context.Alike t cond) (performWithin depth) (CompileM.perform (.fold cond)) := by
  induction h generalizing depth with
  | atom hkind hatom =>
    cases depth with
    | zero => exact fun _ _ _ _ _ h => by cases h
    | succ depth =>
      refine bind (p := performWithin depth) (locate _) fun location => kindOf_bind hkind ?_
      rename_i kind
      cases kind with
      | int _ | float _ | bool _ | char _ | str _ | null => exact pure _
      | ident name args =>
        cases args with
        | nil => exact constant? (.ident hkind)
        | cons arg rest => exact pure _
      | _ => cases hatom
  | unary hkind _ ih =>
    cases depth with
    | zero => exact fun _ _ _ _ _ h => by cases h
    | succ depth =>
      have hoperand := of_part (fun _ => .unary hkind) (ih depth)
      refine bind (p := performWithin depth) (locate _) fun location => kindOf_bind hkind ?_
      exact hoperand.bind fun _ => pure _
  | binary hkind _ _ ihl ihr =>
    cases depth with
    | zero => exact fun _ _ _ _ _ h => by cases h
    | succ depth =>
      have hleft := of_part (fun _ => .left hkind) (ihl depth)
      have hright := of_part (fun _ => .right hkind) (ihr depth)
      refine bind (p := performWithin depth) (locate _) fun location => kindOf_bind hkind ?_
      refine ite (pure _) (hleft.bind fun left => ?_)
      cases left with
      | none => exact pure _
      | some left =>
        refine ite ?_ (hright.bind fun right => ?_)
        · unfold CompileM.foldLogical
          cases left.truth? with
          | none => exact pure _
          | some truth => exact ite (pure _) (hright.bind fun _ => pure _)
        · cases right with
          | none => exact pure _
          | some right => exact orBail _ _

/-- It takes the same branch as well. -/
theorem staticBranch {cond : NodeId} (h : t.TypeFree cond) (depth : Nat) (yes : NodeId)
    (no : Option NodeId) :
    Reads (Context.Alike t cond) (performWithin depth) (CompileM.staticBranch cond yes no) := by
  refine bind ((fold h depth).bind fun value => ?_) fun value => ?_
  · cases value with
    | none => exact (locate _).bind fun _ => bail
    | some value => exact pure _
  · cases value.truth? with
    | none => exact (locate _).bind fun _ => bail
    | some taken => exact pure _

end Reads

theorem CompileM.branch_of_staticBranch {p : Performer} {c c' : Context} {cond yes branch : NodeId}
    {no : Option NodeId} (h : CompileM.staticBranch cond yes no p c = .ok (some branch) c') :
    branch = yes ∨ branch ∈ no := by
  obtain ⟨value, c₁, -, h⟩ := CompileM.bind_eq_ok.mp h
  cases htruth : value.truth? with
  | none =>
    rw [htruth] at h
    obtain ⟨location, c₂, -, h⟩ := CompileM.bind_eq_ok.mp h
    cases h
  | some taken =>
    rw [htruth] at h
    cases taken with
    | false =>
      cases h
      exact .inr rfl
    | true =>
      cases h
      exact .inl rfl

namespace DoneOnce

variable {t : Tree} {F : Option FunctionState}

/-- What a declaration is entered under stays, so that the same is emitted again. -/
theorem emitEntered {p : Performer} {g : Context → Option String} {job : String → CompileM PUnit}
    {location : Location} {problem : Problem}
    (hg : ∀ c e name, c.Emitting t F → c.Later e → g c = some name → g e = some name)
    (hjob : ∀ name, DoneOnce (·.Emitting t F) p (job name)) : DoneOnce (·.Emitting t F) p (do
      match g (← get) with
      | some name => job name
      | none => CompileM.bail location problem) := by
  refine lookup (fun c c' h hrun => ?_) (fun c name h => ?_) hg hjob
  · rw [CompileM.bind_of_eq_ok (CompileM.get_apply p c), h] at hrun
    cases hrun
  · rw [CompileM.bind_of_eq_ok (CompileM.get_apply p c), h]

theorem emitDeclaration {id : NodeId} (h : t.Steady id) (depth : Nat) :
    DoneOnce (·.Emitting t F) (performWithin depth) (CompileM.perform (.emitDeclaration id)) := by
  induction depth generalizing id with
  | zero => exact of_ne_ok fun _ _ h => by cases h
  | succ depth ih =>
    have hjobs := Leads.performWithin depth
    suffices h : DoneOnce (·.Emitting t F) (performWithin depth) (CompileM.emitDeclaration id) from h
    refine read_any (.locate id) fun location => ?_
    cases h with
    | block hkind h =>
      exact kindOf_bind (fun c hc => hc.tree.hasKind hkind) (forM fun item hitem => ih (h item hitem))
    | space hkind h =>
      refine kindOf_bind (fun c hc => hc.tree.hasKind hkind) (inSpace (fun c space hc => ?_)
        (forM fun item hitem => ih (h item hitem)))
      exact ⟨hc.phase, ⟨hc.sound.keys, hc.sound.names⟩, hc.function, hc.tree⟩
    | staticIf hkind hcond hyes hno =>
      rename_i cond yes no
      have hreads : Reads (Context.LaterIn (·.Emitting t F)) (performWithin depth)
          (CompileM.staticBranch cond yes no) :=
        (Reads.staticBranch hcond depth yes no).weaken fun _ _ h => h.alike cond
      refine kindOf_bind (fun c hc => hc.tree.hasKind hkind) (read hreads fun branch => ?_)
      cases branch with
      | none => exact pure
      | some branch =>
        refine of_forall fun c hc => restrict ?_ fun c c' hc hc' hlater =>
          hreads.again hc.1 hc.2 hc' hlater
        rcases CompileM.branch_of_staticBranch hc.2 with rfl | hbranch
        · exact ih hyes
        · exact ih (hno branch hbranch)
    | single hkind hsingle =>
      rename_i kind
      refine kindOf_bind (fun c hc => hc.tree.hasKind hkind) ?_
      cases kind with
      | function decl =>
        dsimp only
        split
        · exact pure
        · exact emitEntered (fun c e key hc hlater h => (hlater.keys (hc.sound.keys h)).trans h)
            (performWithin_emitFunction depth)
      | aggregate decl =>
        dsimp only
        split
        · exact pure
        · exact emitEntered (fun c e name hc hlater h => (hlater.names (hc.sound.names h)).trans h)
            (performWithin_emitAggregate depth)
      | «variable» decl =>
        exact emitOnce (q := watched (performWithin 0) depth) id (.emitGlobal id location)
          (.emitGlobal id location)
      | «alias» _ | builtin _ _ => exact pure
      | block _ | space _ _ | staticIf _ _ _ => cases hsingle
      | _ => exact of_ne_ok fun _ _ => CompileM.bail_ne_ok _ _

/-- While emitting no instance is left to wait. -/
theorem emitPending (depth : Nat) :
    DoneOnce (·.Emitting t F) (performWithin depth) (CompileM.perform .emitPending) := by
  cases depth with
  | zero => exact of_ne_ok fun _ _ h => by cases h
  | succ depth =>
    have hjobs := Leads.performWithin depth
    have hstep (e : Context) : CompileM.emitPending (performWithin depth) e = (do
        e.pending.forM CompileM.emitItem
        if !(← get).pending.isEmpty then CompileM.perform .emitPending : CompileM Unit)
          (performWithin depth) { e with pending := [] } := by
      rw [CompileM.emitPending_eq]
      rfl
    have hitem (item : Pending) : DoneOnce (·.Emitting t F) (performWithin depth) (CompileM.emitItem item) := by
      cases item with
      | function key => exact performWithin_emitFunction depth key
      | aggregate name => exact performWithin_emitAggregate depth name
    suffices h : DoneOnce (·.Emitting t F) (performWithin depth) CompileM.emitPending from h
    have hempty (e : Context) (he : e.pending = []) :
        CompileM.emitPending (performWithin depth) e = .ok () e := by
      have hsame : { e with pending := [] } = e := by
        rw [← he]
      rw [hstep, hsame, he]
      change (if !e.pending.isEmpty then CompileM.perform .emitPending else Pure.pure () :
        CompileM Unit) (performWithin depth) e = _
      rw [he]
      rfl
    intro c c' hc hrun
    rw [hstep] at hrun
    have hdrained : { c with pending := [] }.Emitting t F :=
      hc.later (.drain c) rfl
    obtain ⟨_, c₂, hitems, hrun⟩ := CompileM.bind_eq_ok.mp hrun
    obtain ⟨hlater, hc₂, -⟩ := forM (fun item _ => hitem item) _ c₂ hdrained hitems
    have hnone : c₂.pending = [] := hlater.pending hdrained.phase rfl
    rw [CompileM.bind_of_eq_ok (CompileM.get_apply _ c₂), hnone] at hrun
    cases hrun
    exact ⟨.trans (.drain c) hlater, hc₂, fun e _ hlater' => hempty e (hlater'.pending hc₂.phase hnone)⟩

end DoneOnce

namespace Context

variable {c c₁ : Context} {roots : List NodeId} {t : Tree}

/-- Emitting changes nothing when it is repeated. -/
theorem settles_emit (hc : c.Sound) (ht : t.Begins c.tree) (hroots : ∀ root ∈ roots, t.Steady root)
    (h : c.emit roots = .ok () c₁) : c₁.emit roots = .ok () c₁ := by
  obtain ⟨hlater, hc₁, hagain⟩ := DoneOnce.seq (Q := (·.Emitting t c.function))
    (.emitPending c.jobDepth) (.seq (.forM fun root hroot => .emitDeclaration (hroots root hroot) c.jobDepth)
      (.emitPending c.jobDepth)) { c with phase := .emit } c₁
    ⟨rfl, ⟨hc.keys, hc.names⟩, rfl, ht⟩ h
  have hsame : { c₁ with phase := .emit } = c₁ := by
    rw [← hc₁.phase]
  unfold emit run
  rw [hsame, hlater.jobDepth]
  exact hagain c₁ hc₁ (.refl c₁)

/-- Both phases change nothing when they are repeated, where no condition outside of functions asks for
a type. -/
theorem settles (hc : c.Sound) (hroots : ∀ root ∈ roots, c.tree.Steady root)
    (h : c.check roots = .ok () c₁) : c₁.check roots = .ok () c₁ ∧
      ∀ c₂, c₁.emit roots = .ok () c₂ → c₂.emit roots = .ok () c₂ := by
  obtain ⟨hlater, hagain⟩ := settles_check h
  exact ⟨hagain, fun c₂ => settles_emit (hlater.sound ⟨hc.keys, hc.names⟩) hlater.tree hroots⟩

/-- Nothing was looked at before the first phase. -/
theorem sound_new (tree : Tree) (options : CompileOptions) : (new tree options).Sound :=
  ⟨nofun, nofun⟩

end Context

/-- A namespace with a constant and a function under a condition on it, a function template, and a
function that calls its instance. -/
def Tree.underCondition : Tree where
  nodes := #[⟨.int 3, ⟨0, 1⟩⟩, ⟨.variable ⟨"limit", some (.scalar .int), some ⟨0⟩, true⟩, ⟨0, 1⟩⟩,
    ⟨.ident "limit" [], ⟨0, 2⟩⟩, ⟨.int 2, ⟨0, 2⟩⟩, ⟨.binary .gt ⟨2⟩ ⟨3⟩, ⟨0, 2⟩⟩,
    ⟨.block [], ⟨0, 2⟩⟩, ⟨.function ⟨"f", [], .void, some ⟨5⟩, [], [], none⟩, ⟨0, 2⟩⟩,
    ⟨.staticIf ⟨4⟩ ⟨6⟩ none, ⟨0, 2⟩⟩, ⟨.space "N" [⟨1⟩, ⟨7⟩], ⟨0, 1⟩⟩,
    ⟨.int 1, ⟨0, 3⟩⟩, ⟨.ret (some ⟨9⟩), ⟨0, 3⟩⟩, ⟨.block [⟨10⟩], ⟨0, 3⟩⟩,
    ⟨.function ⟨"one", [], .scalar .int, some ⟨11⟩, [], [⟨"T", .type⟩], none⟩, ⟨0, 3⟩⟩,
    ⟨.ident "one" [.type (.scalar .int)], ⟨0, 4⟩⟩, ⟨.call ⟨13⟩ [], ⟨0, 4⟩⟩,
    ⟨.ret (some ⟨14⟩), ⟨0, 4⟩⟩, ⟨.block [⟨15⟩], ⟨0, 4⟩⟩,
    ⟨.function ⟨"main", [], .scalar .int, some ⟨16⟩, [], [], none⟩, ⟨0, 4⟩⟩]
  files := ⟨["unit"]⟩

theorem Tree.steady_underCondition :
    ∀ root ∈ [⟨8⟩, ⟨12⟩, ⟨17⟩], Tree.underCondition.Steady root := by
  have hcond : underCondition.TypeFree ⟨4⟩ :=
    .binary ⟨_, rfl⟩ (.atom ⟨_, rfl⟩ rfl) (.atom ⟨_, rfl⟩ rfl)
  simp only [List.forall_mem_cons, List.not_mem_nil, false_implies, implies_true, and_true]
  refine ⟨.space ⟨_, rfl⟩ ?_, .single ⟨_, rfl⟩ rfl, .single ⟨_, rfl⟩ rfl⟩
  simp only [List.forall_mem_cons, List.not_mem_nil, false_implies, implies_true, and_true]
  exact ⟨.single ⟨_, rfl⟩ rfl, .staticIf ⟨_, rfl⟩ hcond (.single ⟨_, rfl⟩ rfl) nofun⟩

/-- The function under the condition, the instance and its caller are emitted once. -/
theorem Context.settles_underCondition :
    ∃ c₁ c₂, (new .underCondition {}).check [⟨8⟩, ⟨12⟩, ⟨17⟩] = .ok () c₁ ∧
      c₁.check [⟨8⟩, ⟨12⟩, ⟨17⟩] = .ok () c₁ ∧ c₁.emit [⟨8⟩, ⟨12⟩, ⟨17⟩] = .ok () c₂ ∧
      c₂.program.functions.length = 3 ∧ c₂.emit [⟨8⟩, ⟨12⟩, ⟨17⟩] = .ok () c₂ := by
  have hruns : (match (new .underCondition {}).check [⟨8⟩, ⟨12⟩, ⟨17⟩] with
      | .ok () c₁ =>
        match c₁.emit [⟨8⟩, ⟨12⟩, ⟨17⟩] with
        | .ok () c₂ => c₂.program.functions.length == 3
        | .error .. => false
      | .error .. => false) = true := by
    decide +kernel
  cases hcheck : (new .underCondition {}).check [⟨8⟩, ⟨12⟩, ⟨17⟩] with
  | error e c₁ =>
    rw [hcheck] at hruns
    cases hruns
  | ok _ c₁ =>
    rw [hcheck] at hruns
    obtain ⟨hagain, hemit⟩ := settles (sound_new _ _) Tree.steady_underCondition hcheck
    cases hemitted : c₁.emit [⟨8⟩, ⟨12⟩, ⟨17⟩] with
    | error e c₂ =>
      simp only [hemitted] at hruns
      cases hruns
    | ok _ c₂ =>
      simp only [hemitted, beq_iff_eq] at hruns
      exact ⟨c₁, c₂, rfl, hagain, hemitted, hruns, hemit c₂ hemitted⟩

end UnitCompiler
