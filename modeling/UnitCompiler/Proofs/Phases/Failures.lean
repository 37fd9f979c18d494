import UnitCompiler.Proofs.Disciplines.Confinement
import UnitCompiler.Proofs.Phases.Settling

/-!
# Failed registrations

A declaration is marked before it is registered.  A function or an aggregate whose registration failed is
therefore never registered later, and every emission that comes to it fails.
-/

namespace UnitCompiler

/-! ### Calls that end with an error -/

/-- The context that a call leaves to later ones, whether it succeeds or finds an error in the unit. -/
def EndsAt {α : Type} (r : EStateM.Result Stop Context α) (c : Context) : Prop :=
  match r with
  | .ok _ c' | .error (.failed _) c' => c' = c
  | .error _ _ => False

theorem EndsIn.of_endsAt {α : Type} {Q : Context → Prop} {r : EStateM.Result Stop Context α} {c : Context}
    (h : EndsIn Q r) (hr : EndsAt r c) : Q c := by
  match r with
  | .ok _ c' | .error (.failed _) c' =>
    cases hr
    exact h
  | .error .missingNode _ | .error .exhausted _ => cases hr

/-- What holds of an error in the unit and of the context that it leaves. -/
def FailsIn {α : Type} (Q : CompileError → Context → Prop) : EStateM.Result Stop Context α → Prop
  | .error (.failed error) c => Q error c
  | _ => True

namespace FailsIn

variable {Q Q' : CompileError → Context → Prop} {p : Performer} {α β : Type} {x : CompileM α}
  {f : α → CompileM β} {c : Context}

theorem bind (hx : FailsIn Q (x p c)) (hf : ∀ a c', x p c = .ok a c' → FailsIn Q (f a p c')) :
    FailsIn Q ((x >>= f) p c) := by
  cases hrun : x p c with
  | ok a c' =>
    rw [CompileM.bind_of_eq_ok hrun]
    exact hf a c' hrun
  | error stop c' =>
    rw [CompileM.bind_of_eq_error hrun]
    rw [hrun] at hx
    cases stop <;> exact hx

theorem of_endsIn {P : Context → Prop} {r : EStateM.Result Stop Context α} (h : EndsIn P r)
    (hQ : ∀ error c, P c → Q error c) : FailsIn Q r := by
  match r with
  | .error (.failed error) c => exact hQ error c h
  | .ok _ _ | .error .missingNode _ | .error .exhausted _ => trivial

theorem imp {r : EStateM.Result Stop Context α} (h : FailsIn Q r)
    (hQ : ∀ error c, Q error c → Q' error c) : FailsIn Q' r := by
  match r with
  | .error (.failed error) c => exact hQ error c h
  | .ok _ _ | .error .missingNode _ | .error .exhausted _ => trivial

/-- A declaration that was looked at before is left alone. -/
theorem beginCheck_bind {f : Bool → CompileM β} {id : NodeId} (hold : FailsIn Q (f false p c))
    (hnew : c.stateOf id = .unchecked →
      FailsIn Q (f true p { c with states := c.states.insert id .checked })) :
    FailsIn Q ((CompileM.beginCheck id >>= f) p c) := by
  by_cases hid : c.stateOf id = .unchecked
  · rw [CompileM.bind_of_eq_ok (CompileM.beginCheck_apply hid)]
    exact hnew hid
  · rw [CompileM.bind_of_eq_ok (CompileM.beginCheck_of_visited hid)]
    exact hold

theorem map (hx : FailsIn Q (x p c)) (g : α → β) : FailsIn Q ((g <$> x) p c) := by
  rw [map_eq_pure_bind]
  exact hx.bind fun _ _ _ => trivial

theorem inSpace {name : String} (hx : FailsIn Q (x p { c with space := c.space ++ [name] }))
    (h : ∀ error c', Q error c' → Q' error { c' with space := c'.space.dropLast }) :
    FailsIn Q' (CompileM.inSpace name x p c) := by
  change FailsIn Q' (CompileM.restoring x _ p { c with space := c.space ++ [name] })
  unfold CompileM.restoring
  match x p { c with space := c.space ++ [name] }, hx with
  | .error (.failed error) c', hx => exact h error c' hx
  | .ok _ _, _ | .error .missingNode _, _ | .error .exhausted _, _ => trivial

/-- The first item that fails does so behind successful runs of the others. -/
theorem forM {P : Context → Prop} {g : α → CompileM PUnit} {items : List α} (hc : P c)
    (hstep : ∀ item ∈ items, ∀ c c', P c → g item p c = .ok ⟨⟩ c' → P c')
    (hfail : ∀ item ∈ items, ∀ c, P c → FailsIn Q (g item p c)) : FailsIn Q (items.forM g p c) := by
  induction items generalizing c with
  | nil => trivial
  | cons item rest ih =>
    refine bind (hfail item List.mem_cons_self c hc) fun _ c' hrun => ?_
    exact ih (hstep item List.mem_cons_self c c' hc hrun)
      (fun other hother => hstep other (List.mem_cons_of_mem _ hother))
      fun other hother => hfail other (List.mem_cons_of_mem _ hother)

end FailsIn

/-! ### Declarations that are not registered -/

/-- A function or an aggregate that was looked at and has no key or no name.  Templates need none. -/
inductive Context.Unregistered (c : Context) (id : NodeId) : Prop
  | function {decl : FunctionDecl} (hkind : c.tree.HasKind id (.function decl))
    (hsingle : decl.isTemplate = false) (hvisited : c.stateOf id ≠ .unchecked)
    (hkey : c.symbols.declaredKeys.get? id = none)
  | aggregate {decl : AggregateDecl} (hkind : c.tree.HasKind id (.aggregate decl))
    (hsingle : decl.isTemplate = false) (hvisited : c.stateOf id ≠ .unchecked)
    (hname : c.symbols.declaredNames.get? id = none)

/-- What is not registered when it is looked at stays so. -/
theorem Context.Later.unregistered {c c' : Context} {id : NodeId} (h : c.Later c')
    (hid : c.Unregistered id) : c'.Unregistered id := by
  cases hid with
  | function hkind hsingle hvisited hkey =>
    exact .function (h.tree.hasKind hkind) hsingle (h.ne_unchecked hvisited) ((h.keys hvisited).trans hkey)
  | aggregate hkind hsingle hvisited hname =>
    exact .aggregate (h.tree.hasKind hkind) hsingle (h.ne_unchecked hvisited)
      ((h.names hvisited).trans hname)

theorem Context.Unregistered.of_eq {c c' : Context} {id : NodeId} (hid : c.Unregistered id)
    (htree : c'.tree = c.tree) (hstates : c'.states = c.states) (hsymbols : c'.symbols = c.symbols) :
    c'.Unregistered id := by
  have hstate : c'.stateOf id = c.stateOf id := by
    rw [stateOf, hstates, stateOf]
  cases hid with
  | function hkind hsingle hvisited hkey =>
    exact .function (htree ▸ hkind) hsingle (hstate ▸ hvisited) (hsymbols ▸ hkey)
  | aggregate hkind hsingle hvisited hname =>
    exact .aggregate (htree ▸ hkind) hsingle (hstate ▸ hvisited) (hsymbols ▸ hname)

namespace Tree

/-- A node stands in the blocks and the namespaces of another one, or is that one. -/
inductive Encloses (t : Tree) : NodeId → NodeId → Prop
  | self (id : NodeId) : t.Encloses id id
  | block {id item inner : NodeId} {items : List NodeId} (hkind : t.HasKind id (.block items))
    (hitem : item ∈ items) (h : t.Encloses item inner) : t.Encloses id inner
  | space {id item inner : NodeId} {name : String} {items : List NodeId}
    (hkind : t.HasKind id (.space name items)) (hitem : item ∈ items) (h : t.Encloses item inner) :
    t.Encloses id inner

/-- Functions, and aggregates that have fields only, in blocks and namespaces. -/
inductive IsPlain (t : Tree) : NodeId → Prop
  | function {id : NodeId} {decl : FunctionDecl} (hkind : t.HasKind id (.function decl))
    (hsingle : decl.isTemplate = false) : t.IsPlain id
  | aggregate {id : NodeId} {decl : AggregateDecl} (hkind : t.HasKind id (.aggregate decl))
    (hsingle : decl.isTemplate = false) (hbase : decl.base = none) (hmethods : decl.methods = []) :
    t.IsPlain id
  | block {id : NodeId} {items : List NodeId} (hkind : t.HasKind id (.block items))
    (h : ∀ item ∈ items, t.IsPlain item) : t.IsPlain id
  | space {id : NodeId} {name : String} {items : List NodeId} (hkind : t.HasKind id (.space name items))
    (h : ∀ item ∈ items, t.IsPlain item) : t.IsPlain id

end Tree

/-! ### Emission of what is not registered -/

/-- A loop over items of which one is never done. -/
theorem forM_ne_ok {α : Type} {P : Context → Prop} {p : Performer} {g : α → CompileM PUnit}
    {items : List α} {item : α} (hitem : item ∈ items)
    (hstep : ∀ other c c', P c → g other p c = .ok ⟨⟩ c' → P c')
    (hnever : ∀ c c', P c → g item p c ≠ .ok ⟨⟩ c') {c : Context} (hc : P c) (c' : Context) :
    items.forM g p c ≠ .ok ⟨⟩ c' := by
  induction items generalizing c with
  | nil => cases hitem
  | cons first rest ih =>
    intro h
    obtain ⟨_, c₁, hfirst, hrest⟩ := CompileM.bind_eq_ok.mp h
    rcases List.mem_cons.mp hitem with rfl | hitem
    · exact hnever c c₁ hc hfirst
    · exact ih hitem (hstep first c c₁ hc hfirst) hrest

/-- Emission never gets past a declaration that is not registered. -/
theorem emitDeclaration_ne_ok {t : Tree} {root id : NodeId} (h : t.Encloses root id) (depth : Nat)
    {c : Context} (ht : t.Begins c.tree) (hid : c.Unregistered id) (c' : Context) :
    performWithin depth (.emitDeclaration root) c ≠ .ok ⟨⟩ c' := by
  induction h generalizing depth c c' with
  | self id =>
    intro hrun
    obtain ⟨depth, hrun⟩ := work_of_performWithin hrun
    change CompileM.emitDeclaration id (performWithin depth) c = _ at hrun
    unfold CompileM.emitDeclaration at hrun
    cases hid with
    | function hkind hsingle _ hkey =>
      obtain ⟨location, hread⟩ := CompileM.locate_kindOf hkind
      rw [hread] at hrun
      dsimp only at hrun
      rw [hsingle, if_neg (by decide), CompileM.bind_of_eq_ok (CompileM.get_apply _ c), hkey] at hrun
      cases hrun
    | aggregate hkind hsingle _ hname =>
      obtain ⟨location, hread⟩ := CompileM.locate_kindOf hkind
      rw [hread] at hrun
      dsimp only at hrun
      rw [hsingle, if_neg (by decide), CompileM.bind_of_eq_ok (CompileM.get_apply _ c), hname] at hrun
      cases hrun
  | @block root item inner items hkind hitem _ ih =>
    intro hrun
    obtain ⟨depth, hrun⟩ := work_of_performWithin hrun
    have := Leads.performWithin depth
    obtain ⟨location, hread⟩ := CompileM.locate_kindOf (ht.hasKind hkind)
    change CompileM.emitDeclaration root (performWithin depth) c = _ at hrun
    unfold CompileM.emitDeclaration at hrun
    rw [hread] at hrun
    refine forM_ne_ok (P := fun c => t.Begins c.tree ∧ c.Unregistered inner) hitem
      (fun other c c' hc hrun => ?_) (fun c c' hc => ih depth hc.1 hc.2 c') ⟨ht, hid⟩ c' hrun
    have hlater := EndsIn.of_ok (Leads.run (.job (.emitDeclaration other) rfl) c) hrun
    exact ⟨hc.1.trans hlater.tree, hlater.unregistered hc.2⟩
  | @space root item inner name items hkind hitem _ ih =>
    intro hrun
    obtain ⟨depth, hrun⟩ := work_of_performWithin hrun
    have := Leads.performWithin depth
    obtain ⟨location, hread⟩ := CompileM.locate_kindOf (ht.hasKind hkind)
    change CompileM.emitDeclaration root (performWithin depth) c = _ at hrun
    unfold CompileM.emitDeclaration at hrun
    rw [hread] at hrun
    obtain ⟨c₁, hrun, -⟩ := CompileM.inSpace_eq_ok.mp hrun
    refine forM_ne_ok (P := fun c => t.Begins c.tree ∧ c.Unregistered inner) hitem
      (fun other c c' hc hrun => ?_) (fun c c' hc => ih depth hc.1 hc.2 c')
      (c := { c with space := c.space ++ [name] }) ⟨ht, hid.of_eq rfl rfl rfl⟩ c₁ hrun
    have hlater := EndsIn.of_ok (Leads.run (.job (.emitDeclaration other) rfl) c) hrun
    exact ⟨hc.1.trans hlater.tree, hlater.unregistered hc.2⟩

/-! ### Registrations that fail -/

namespace Context

variable {c : Context} {id : NodeId}

theorem Sound.key_eq_none (hc : c.Sound) (hid : c.stateOf id = .unchecked) :
    c.symbols.declaredKeys.get? id = none := by
  by_contra hkey
  obtain ⟨key, hkey⟩ := Option.ne_none_iff_exists'.mp hkey
  exact hc.keys hkey hid

theorem Sound.name_eq_none (hc : c.Sound) (hid : c.stateOf id = .unchecked) :
    c.symbols.declaredNames.get? id = none := by
  by_contra hname
  obtain ⟨name, hname⟩ := Option.ne_none_iff_exists'.mp hname
  exact hc.names hname hid

theorem stateOf_checked (c : Context) (id : NodeId) :
    { c with states := c.states.insert id .checked }.stateOf id ≠ .unchecked := by
  rw [Later.stateOf_insert, if_pos rfl]
  decide

end Context

section Registration

variable {p : Performer} [p.Leads] {c : Context} {id : NodeId}

/-- A function whose check fails is not registered. -/
theorem unregistered_of_checkFunction {decl : FunctionDecl} (hc : c.Sound)
    (hkind : c.tree.HasKind id (.function decl)) (hsingle : decl.isTemplate = false) :
    FailsIn (fun _ c' => c'.Unregistered id) (CompileM.checkFunction id none false p c) := by
  obtain ⟨location, hread⟩ := CompileM.locate_kindOf hkind
  unfold CompileM.checkFunction
  rw [hread]
  refine FailsIn.beginCheck_bind trivial fun hid => ?_
  rw [if_neg (by decide), if_neg (by simp [hsingle])]
  set c₁ : Context := { c with states := c.states.insert id .checked }
  have hmissing (c' : Context) (h : c₁.Later c') : c'.Unregistered id :=
    h.unregistered (.function hkind hsingle (Context.stateOf_checked c id) (hc.key_eq_none hid))
  -- Behind the symbol only a function of the same key is an error; entering a new one is none.
  have hsymbol := Leads.run (Discipline.Holds.functionSymbol (D := laterRuns p) id decl none false location) c₁
  refine FailsIn.bind (.of_endsIn hsymbol fun _ => hmissing) fun f c₂ hf => ?_
  have hlater := hsymbol.of_ok hf
  rw [CompileM.bind_of_eq_ok (CompileM.get_apply p c₂)]
  cases c₂.symbols.functions.get? f.key with
  | some existing =>
    refine .of_endsIn (Leads.endsIn (.bind (.locate existing.decl) fun _ => ?_) hlater) fun _ => hmissing
    exact Discipline.Holds.bail _ _
  | none =>
    refine FailsIn.bind ?_ fun _ _ _ => trivial
    unfold CompileM.register
    cases f.owner <;> trivial

/-- An aggregate without methods whose check fails is not registered. -/
theorem unregistered_of_checkAggregate {decl : AggregateDecl} (hc : c.Sound)
    (hkind : c.tree.HasKind id (.aggregate decl)) (hsingle : decl.isTemplate = false)
    (hbase : decl.base = none) (hmethods : decl.methods = []) :
    FailsIn (fun _ c' => c'.Unregistered id) (CompileM.checkAggregate id none p c) := by
  obtain ⟨location, hread⟩ := CompileM.locate_kindOf hkind
  unfold CompileM.checkAggregate
  rw [hread]
  refine FailsIn.beginCheck_bind trivial fun hid => ?_
  rw [if_neg (by decide), if_neg (by simp [hsingle])]
  set c₁ : Context := { c with states := c.states.insert id .checked }
  have hmissing (c' : Context) (h : c₁.Later c') : c'.Unregistered id :=
    h.unregistered (.aggregate hkind hsingle (Context.stateOf_checked c id) (hc.name_eq_none hid))
  rw [CompileM.bind_of_eq_ok (CompileM.get_apply p c₁)]
  refine FailsIn.bind ?_ fun _ _ _ => trivial
  unfold CompileM.registerAggregate
  rw [CompileM.bind_of_eq_ok (CompileM.get_apply p c₁)]
  cases c₁.symbols.aggregates.get? (Option.getD none (c₁.qualify decl.name)) with
  | some existing =>
    refine .of_endsIn (Leads.endsIn (.bind (.locate existing.decl) fun _ => ?_) (.refl c₁)) fun _ => hmissing
    exact Discipline.Holds.bail _ _
  | none =>
    unfold CompileM.resolveBase
    rw [hbase, hmethods]
    refine FailsIn.bind trivial fun base c₂ hrun => ?_
    cases hrun
    -- Once the fields are known nothing is left that could fail.
    have hfields := Leads.run (Discipline.Holds.collectFields (D := laterRuns p) (c₁.qualify decl.name) decl
      none location) c₁
    refine FailsIn.bind (.of_endsIn hfields fun _ => hmissing) fun fields c₃ _ => ?_
    refine FailsIn.bind trivial fun _ c₄ _ => FailsIn.bind trivial fun _ c₅ _ => ?_
    refine FailsIn.bind trivial fun own c₆ _ => FailsIn.bind trivial fun inherited c₇ _ => ?_
    refine FailsIn.bind trivial fun tables c₈ _ => ?_
    cases tables.symbols.aggregates.get? (Option.getD none (c₁.qualify decl.name)) <;> trivial

end Registration

/-- Collecting the names of aggregates finds no errors. -/
theorem not_fails_collect (depth : Nat) (id : NodeId) (space : List String) (c : Context) :
    FailsIn (fun _ _ => False) (performWithin depth (.collect id space) c) := by
  induction depth generalizing id space c with
  | zero => trivial
  | succ depth ih =>
    change FailsIn _ (CompileM.collect id space (performWithin depth) c)
    have hkind : FailsIn (fun _ _ => False) (CompileM.kindOf id (performWithin depth) c) := by
      unfold CompileM.kindOf CompileM.nodeAt
      refine FailsIn.bind ?_ fun _ _ _ => trivial
      rw [CompileM.bind_of_eq_ok (CompileM.get_apply _ c)]
      cases c.tree.node? id <;> trivial
    refine FailsIn.bind hkind fun kind c₁ _ => ?_
    cases kind with
    | aggregate decl =>
      exact FailsIn.bind trivial fun tables c₂ _ => by split <;> trivial
    | space name items =>
      exact FailsIn.forM (P := fun _ => True) trivial (fun _ _ _ _ _ _ => trivial) fun item _ c _ => ih item _ c
    | _ => trivial

/-- Where the checks of a unit begin: sound contexts whose trees begin with the given one. -/
structure Context.Checking (t : Tree) (c : Context) : Prop where
  phase : c.phase = .check
  sound : c.Sound
  tree : t.Begins c.tree

theorem Context.Checking.later {t : Tree} {c c' : Context} (h : c.Checking t) (hlater : c.Later c') :
    c'.Checking t :=
  ⟨hlater.phase.trans h.phase, hlater.sound h.sound, h.tree.trans hlater.tree⟩

/-- Checking plain declarations fails at one that is not registered then, or at the limit on nested
namespaces. -/
theorem unregistered_of_checkNode {t : Tree} {root : NodeId} (h : t.IsPlain root) (depth : Nat) {c : Context}
    (hc : c.Checking t) :
    FailsIn (fun error c' => (∃ id, t.Encloses root id ∧ c'.Unregistered id) ∨
      ∃ location name, error = .semantic location (.namespaceTooDeep name))
      (performWithin depth (.checkNode root) c) := by
  induction h generalizing depth c with
  | @function id decl hkind hsingle =>
    cases depth with
    | zero => trivial
    | succ depth =>
      have := Leads.performWithin depth
      have hkind := hc.tree.hasKind hkind
      obtain ⟨location, hread⟩ := CompileM.locate_kindOf hkind
      change FailsIn _ (CompileM.checkNode id (performWithin depth) c)
      unfold CompileM.checkNode
      rw [hread]
      refine FailsIn.map ((unregistered_of_checkFunction hc.sound hkind hsingle).imp fun _ c' hid => ?_) _
      exact .inl ⟨id, .self id, hid⟩
  | @aggregate id decl hkind hsingle hbase hmethods =>
    cases depth with
    | zero => trivial
    | succ depth =>
      have := Leads.performWithin depth
      have hkind := hc.tree.hasKind hkind
      obtain ⟨location, hread⟩ := CompileM.locate_kindOf hkind
      change FailsIn _ (CompileM.checkNode id (performWithin depth) c)
      unfold CompileM.checkNode
      rw [hread]
      refine FailsIn.map
        ((unregistered_of_checkAggregate hc.sound hkind hsingle hbase hmethods).imp fun _ c' hid => ?_) _
      exact .inl ⟨id, .self id, hid⟩
  | @block id items hkind _ ih =>
    cases depth with
    | zero => trivial
    | succ depth =>
      obtain ⟨location, hread⟩ := CompileM.locate_kindOf (hc.tree.hasKind hkind)
      change FailsIn _ (CompileM.checkNode id (performWithin depth) c)
      unfold CompileM.checkNode
      rw [hread]
      refine FailsIn.forM hc (fun item _ c c' hc hrun => hc.later ?_) fun item hitem c hc => ?_
      · exact (Checks.performWithin depth item c hc.phase).of_ok hrun
      · refine (ih item hitem depth hc).imp fun error c' h => h.imp_left ?_
        rintro ⟨inner, hinner, hid⟩
        exact ⟨inner, .block hkind hitem hinner, hid⟩
  | @space id name items hkind _ ih =>
    cases depth with
    | zero => trivial
    | succ depth =>
      obtain ⟨location, hread⟩ := CompileM.locate_kindOf (hc.tree.hasKind hkind)
      change FailsIn _ (CompileM.checkNode id (performWithin depth) c)
      unfold CompileM.checkNode
      rw [hread]
      refine FailsIn.beginCheck_bind trivial fun hid => ?_
      set c₁ : Context := { c with states := c.states.insert id .checked }
      have hc₁ : c₁.Checking t := hc.later (.setState (by rw [hid]; exact Nat.zero_le _))
      rw [if_pos rfl]
      unfold CompileM.checkSpace
      rw [CompileM.bind_of_eq_ok (CompileM.get_apply _ c₁)]
      dsimp only
      split_ifs
      · exact .inr ⟨location, name, rfl⟩
      refine FailsIn.inSpace (Q := fun error c' => (∃ inner, t.Encloses id inner ∧ c'.Unregistered inner) ∨
        ∃ location name, error = .semantic location (.namespaceTooDeep name))
        (FailsIn.forM (P := (·.Checking t)) ⟨hc₁.phase, ⟨hc₁.sound.keys, hc₁.sound.names⟩, hc₁.tree⟩
          (fun item _ c c' hc hrun => hc.later ?_) fun item hitem c hc => ?_)
        fun error c' h => h.imp_left fun ⟨inner, hinner, hid⟩ => ⟨inner, hinner, hid.of_eq rfl rfl rfl⟩
      · exact (Checks.performWithin depth item c hc.phase).of_ok hrun
      · refine (ih item hitem depth hc).imp fun error c' h => h.imp_left ?_
        rintro ⟨inner, hinner, hid⟩
        exact ⟨inner, .space hkind hitem hinner, hid⟩

/-! ### Repeated phases -/

namespace Context

/-- Contexts that checking and emitting the roots again and again leads to, in any order and whether the
calls succeed or find errors. -/
inductive Repeats (c : Context) (roots : List NodeId) : Context → Prop
  | refl : c.Repeats roots c
  | check {c₁ c₂ : Context} : c.Repeats roots c₁ → EndsAt (c₁.check roots) c₂ → c.Repeats roots c₂
  | emit {c₁ c₂ : Context} : c.Repeats roots c₁ → EndsAt (c₁.emit roots) c₂ → c.Repeats roots c₂

variable {c c₁ : Context} {roots : List NodeId}

theorem endsIn_check (c : Context) (roots : List NodeId) :
    EndsIn { c with phase := .check }.Later (c.check roots) := by
  have hleads := Leads.performWithin c.jobDepth
  have hcheck : Checks (performWithin c.jobDepth) (checking roots) :=
    .bind (.forM fun root => .of_leads (.job (.collect root []) rfl)) fun _ =>
      .forM fun root => .performWithin c.jobDepth root
  exact hcheck _ rfl

theorem endsIn_emit (c : Context) (roots : List NodeId) :
    EndsIn { c with phase := .emit }.Later (c.emit roots) := by
  have hleads := Leads.performWithin c.jobDepth
  exact Leads.run (Discipline.Holds.emitting (D := laterRuns _) roots) _

/-- What repeated phases keep is what later contexts keep, whatever the phase. -/
theorem Repeats.keeps {P : Context → Prop} (h : c.Repeats roots c₁)
    (hphase : ∀ c phase, P c → P { c with phase }) (hlater : ∀ c c', P c → c.Later c' → P c') (hc : P c) :
    P c₁ := by
  induction h with
  | refl => exact hc
  | @check c₁ c₂ _ hcall ih =>
    exact hlater _ _ (hphase c₁ .check ih) ((endsIn_check c₁ roots).of_endsAt hcall)
  | @emit c₁ c₂ _ hcall ih =>
    exact hlater _ _ (hphase c₁ .emit ih) ((endsIn_emit c₁ roots).of_endsAt hcall)

/-- Emission fails as long as it comes to a declaration that is not registered. -/
theorem emit_ne_ok {t : Tree} {root id : NodeId} (hroot : root ∈ roots) (hencloses : t.Encloses root id)
    (ht : t.Begins c.tree) (hid : c.Unregistered id) (c' : Context) : c.emit roots ≠ .ok () c' := by
  intro hrun
  have hleads := Leads.performWithin c.jobDepth
  obtain ⟨_, c₁, hrun₁, hrun⟩ := CompileM.bind_eq_ok.mp hrun
  obtain ⟨_, c₂, hrun₂, -⟩ := CompileM.bind_eq_ok.mp hrun
  have hlater := EndsIn.of_ok (Leads.run (.job .emitPending rfl) { c with phase := .emit }) hrun₁
  refine forM_ne_ok (P := fun c => t.Begins c.tree ∧ c.Unregistered id) hroot (fun other c c' hc hrun => ?_)
    (fun c₃ c₄ hc => emitDeclaration_ne_ok hencloses c.jobDepth hc.1 hc.2 c₄)
    ⟨ht.trans hlater.tree, hlater.unregistered (hid.of_eq rfl rfl rfl)⟩ c₂ hrun₂
  have hlater' := EndsIn.of_ok (Leads.run (.job (.emitDeclaration other) rfl) c) hrun
  exact ⟨hc.1.trans hlater'.tree, hlater'.unregistered hc.2⟩

end Context

/-- From a new context on, through any calls for the two phases: once a function or an aggregate of the
unit was looked at without being registered, no emission of the unit succeeds any more.  In a unit of plain
declarations every error of a check leaves such a declaration behind, but for a namespace beyond the nesting
limit; so no later call for a phase makes its emission succeed. -/
theorem registration_failures_last (tree : Tree) (options : CompileOptions) (roots : List NodeId)
    (c : Context) (hc : (Context.new tree options).Repeats roots c) :
    (∀ root ∈ roots, ∀ id, tree.Encloses root id → c.Unregistered id →
      ∀ c₁, c.Repeats roots c₁ → ∀ c₂, c₁.emit roots ≠ .ok () c₂) ∧
    ((∀ root ∈ roots, tree.IsPlain root) → ∀ error c₁, c.check roots = .error (.failed error) c₁ →
      (∀ location name, error ≠ .semantic location (.namespaceTooDeep name)) →
      ∀ c₂, c₁.Repeats roots c₂ → ∀ c₃, c₂.emit roots ≠ .ok () c₃) := by
  obtain ⟨ht, hsound⟩ : tree.Begins c.tree ∧ c.Sound := by
    refine hc.keeps (P := fun c => tree.Begins c.tree ∧ c.Sound) (fun c phase h => ⟨h.1, h.2.keys, h.2.names⟩)
      (fun c c' h hlater => ⟨h.1.trans hlater.tree, hlater.sound h.2⟩) ⟨.refl _, nofun, nofun⟩
  have hlast (c : Context) (ht : tree.Begins c.tree) (root : NodeId) (hroot : root ∈ roots) (id : NodeId)
      (hencloses : tree.Encloses root id) (hid : c.Unregistered id) (c₁ : Context)
      (hc₁ : c.Repeats roots c₁) (c₂ : Context) : c₁.emit roots ≠ .ok () c₂ := by
    obtain ⟨ht₁, hid₁⟩ := hc₁.keeps (P := fun c => tree.Begins c.tree ∧ c.Unregistered id)
      (fun c phase h => ⟨h.1, h.2.of_eq rfl rfl rfl⟩)
      (fun c c' h hlater => ⟨h.1.trans hlater.tree, hlater.unregistered h.2⟩) ⟨ht, hid⟩
    exact Context.emit_ne_ok hroot hencloses ht₁ hid₁ c₂
  refine ⟨hlast c ht, fun hplain error c₁ hcheck hlimit => ?_⟩
  have hleads := Leads.performWithin c.jobDepth
  have hstart : { c with phase := .check }.Checking tree := ⟨rfl, ⟨hsound.keys, hsound.names⟩, ht⟩
  -- Collecting names finds no errors; the check of some root fails.
  have hfails : FailsIn (fun error c' => (∃ root ∈ roots, ∃ id, tree.Encloses root id ∧ c'.Unregistered id) ∨
      ∃ location name, error = .semantic location (.namespaceTooDeep name)) (c.check roots) := by
    have hcollect (root : NodeId) : Leads (performWithin c.jobDepth) (CompileM.perform (.collect root [])) :=
      .job _ rfl
    refine FailsIn.bind ((FailsIn.forM (P := fun _ => True) trivial (fun _ _ _ _ _ _ => trivial)
      fun root _ c _ => not_fails_collect _ root [] c).imp fun _ _ => False.elim) fun _ c₀ hrun => ?_
    have hlater := EndsIn.of_ok (Leads.run (.forM fun root => hcollect root) _) hrun
    refine FailsIn.forM (hstart.later hlater) (fun root _ c c' hc hrun => hc.later ?_) fun root hroot c' hc => ?_
    · exact (Checks.performWithin _ root c hc.phase).of_ok hrun
    · refine (unregistered_of_checkNode (hplain root hroot) c.jobDepth hc).imp fun error c' h => h.imp_left ?_
      exact fun hinner => ⟨root, hroot, hinner⟩
  rw [hcheck] at hfails
  obtain ⟨root, hroot, id, hencloses, hid⟩ := hfails.resolve_right (by simpa using hlimit)
  have ht₁ := (Context.endsIn_check c roots).of_endsAt (show EndsAt (c.check roots) c₁ by rw [hcheck]; rfl)
  exact hlast c₁ (ht.trans ht₁.tree) root hroot id hencloses hid

/-- A function with a parameter of an unknown type. -/
def Tree.unknownParameter : Tree where
  nodes := #[⟨.function { name := "f", params := [⟨"x", .aggregate "Missing" []⟩], ret := .void }, ⟨0, 1⟩⟩]
  files := ⟨["unit"]⟩

/-- The error of its check is final. -/
theorem registration_failures_last_of_unknownParameter :
    ∃ error c, (Context.new .unknownParameter {}).check [⟨0⟩] = .error (.failed error) c ∧
      c.Unregistered ⟨0⟩ ∧ ∀ c₁, c.Repeats [⟨0⟩] c₁ → ∀ c₂, c₁.emit [⟨0⟩] ≠ .ok () c₂ := by
  have hplain : Tree.unknownParameter.IsPlain ⟨0⟩ := .function ⟨_, rfl⟩ rfl
  obtain ⟨c, hrun, hstate, hkey⟩ : ∃ c, (Context.new .unknownParameter {}).check [⟨0⟩] =
      .error (.failed (.semantic ⟨"unit", 1⟩ (.unknownType "Missing"))) c ∧
      c.stateOf ⟨0⟩ = .checked ∧ c.symbols.declaredKeys.get? ⟨0⟩ = none :=
    ⟨_, rfl, rfl, rfl⟩
  have hlater := (Context.endsIn_check (Context.new .unknownParameter {}) [⟨0⟩]).of_endsAt
    (show EndsAt _ c by rw [hrun]; rfl)
  refine ⟨_, c, hrun, .function (hlater.tree.hasKind ⟨_, rfl⟩) rfl ?_ hkey, ?_⟩
  · rw [hstate]
    decide
  · exact (registration_failures_last .unknownParameter {} [⟨0⟩] _ .refl).2
      (fun root hroot => List.mem_singleton.mp hroot ▸ hplain) _ c hrun fun _ _ heq => by simp at heq

end UnitCompiler
