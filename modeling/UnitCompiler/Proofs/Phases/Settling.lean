import UnitCompiler.Proofs.Phases.Declarations

/-!
# Repeating a phase

A unit that was checked successfully is checked again without any change, and one that was emitted is
emitted again without any change unless a condition outside of functions asks for a type.
-/

namespace UnitCompiler

theorem CompileM.inSpace_eq_ok {p : Performer} {α : Type} {x : CompileM α} {name : String} {a : α}
    {c c' : Context} : CompileM.inSpace name x p c = .ok a c' ↔
      ∃ c₁, x p { c with space := c.space ++ [name] } = .ok a c₁ ∧
        c' = { c₁ with space := c₁.space.dropLast } := by
  change CompileM.restoring x _ p { c with space := c.space ++ [name] } = _ ↔ _
  unfold CompileM.restoring
  cases x p { c with space := c.space ++ [name] } with
  | ok b c₁ => simp [eq_comm]
  | error e c₁ => simp

/-! ### Actions that change nothing -/

/-- Related contexts: the second still has the nodes of the first. -/
class Context.Carries (R : Context → Context → Prop) : Prop where
  tree : ∀ {c e}, R c e → c.tree.Begins e.tree

/-- Two contexts of a kind, of which the second is later. -/
structure Context.LaterIn (Q : Context → Prop) (c e : Context) : Prop where
  first : Q c
  second : Q e
  later : c.Later e

instance (Q : Context → Prop) : Context.Carries (Context.LaterIn Q) := ⟨fun h => h.later.tree⟩

/-- Where a context is related to another one, an action changes nothing and finds the same there. -/
def Reads (R : Context → Context → Prop) (p : Performer) {α : Type} (x : CompileM α) : Prop :=
  ∀ c e a c', R c e → x p c = .ok a c' → c' = c ∧ x p e = .ok a e

namespace Reads

variable {R : Context → Context → Prop} {p : Performer} {α β : Type} {x : CompileM α}
  {f : α → CompileM β}

theorem pure (a : α) : Reads R p (Pure.pure a) := by
  rintro c e _ _ _ ⟨⟩
  exact ⟨rfl, rfl⟩

theorem bind (hx : Reads R p x) (hf : ∀ a, Reads R p (f a)) : Reads R p (x >>= f) := by
  intro c e b c' hR hrun
  obtain ⟨a, c₁, hrun₁, hrun₂⟩ := CompileM.bind_eq_ok.mp hrun
  obtain ⟨rfl, hagain₁⟩ := hx c e a c₁ hR hrun₁
  obtain ⟨rfl, hagain₂⟩ := hf a c₁ e b c' hR hrun₂
  refine ⟨rfl, ?_⟩
  rw [CompileM.bind_of_eq_ok hagain₁]
  exact hagain₂

theorem ite {q : Prop} [Decidable q] {y : CompileM α} (hx : Reads R p x) (hy : Reads R p y) :
    Reads R p (if q then x else y) := by
  split
  · exact hx
  · exact hy

theorem bail {location : Location} {problem : Problem} :
    Reads R p (CompileM.bail location problem : CompileM α) :=
  fun _ _ _ _ _ hrun => absurd hrun (CompileM.bail_ne_ok _ _)

theorem orBail (location : Location) (result : Except Problem α) :
    Reads R p (CompileM.orBail location result) := by
  cases result with
  | ok a => exact pure a
  | error problem => exact bail

variable [Context.Carries R]

theorem nodeAt (id : NodeId) : Reads R p (CompileM.nodeAt id) := by
  intro c e node c' hR hrun
  have hrun' := hrun
  unfold CompileM.nodeAt at hrun'
  rw [CompileM.bind_of_eq_ok (CompileM.get_apply p c)] at hrun'
  cases hid : c.tree.node? id with
  | none =>
    rw [hid] at hrun'
    cases hrun'
  | some found =>
    rw [hid] at hrun'
    cases hrun'
    exact ⟨rfl, CompileM.nodeAt_apply ((Context.Carries.tree hR).node?_eq_some hid)⟩

theorem kindOf (id : NodeId) : Reads R p (CompileM.kindOf id) := (nodeAt id).bind fun _ => pure _

theorem locate (id : NodeId) : Reads R p (CompileM.locate id) := by
  refine ((nodeAt id).bind fun node => pure node.span).bind fun span => ?_
  rintro c e _ _ hR ⟨⟩
  refine ⟨rfl, ?_⟩
  change EStateM.Result.ok (e.tree.files.locate span) e = _
  rw [(Context.Carries.tree hR).files]
  rfl

end Reads

namespace Reads

variable {Q : Context → Prop} {p : Performer} {α : Type} {x : CompileM α} {a : α} {c c' : Context}

theorem context_eq (hx : Reads (Context.LaterIn Q) p x) (hc : Q c) (hrun : x p c = .ok a c') : c' = c :=
  (hx c c a c' ⟨hc, hc, .refl c⟩ hrun).1

/-- What was found is found in later contexts. -/
theorem again (hx : Reads (Context.LaterIn Q) p x) (hc : Q c) (hrun : x p c = .ok a c) (hc' : Q c')
    (hlater : c.Later c') : x p c' = .ok a c' :=
  (hx c c' a c ⟨hc, hc', hlater⟩ hrun).2

theorem later (hx : Reads (Context.LaterIn Q) p x) (hQ : ∀ c c', Q c → c.Later c' → Q c')
    (c c' : Context) (h : Q c ∧ x p c = .ok a c) (hlater : c.Later c') : Q c' ∧ x p c' = .ok a c' :=
  have hc' := hQ c c' h.1 hlater
  ⟨hc', hx.again h.1 h.2 hc' hlater⟩

end Reads

/-! ### Actions that are done once -/

/-- Among the contexts of a kind a successful run leads to a later one, and in contexts later than that
the action changes nothing any more. -/
def DoneOnce (Q : Context → Prop) (p : Performer) (x : CompileM PUnit) : Prop :=
  ∀ c c', Q c → x p c = .ok ⟨⟩ c' →
    c.Later c' ∧ Q c' ∧ ∀ e, Q e → c'.Later e → x p e = .ok ⟨⟩ e

namespace DoneOnce

variable {Q : Context → Prop} {p : Performer} {α : Type} {x y : CompileM PUnit}

theorem pure : DoneOnce Q p (Pure.pure ⟨⟩) := by
  rintro c _ hc ⟨⟩
  exact ⟨.refl c, hc, fun _ _ _ => rfl⟩

theorem of_ne_ok (h : ∀ c c', x p c ≠ .ok ⟨⟩ c') : DoneOnce Q p x :=
  fun c c' _ hrun => absurd hrun (h c c')

theorem of_forall (h : ∀ c, Q c → DoneOnce Q p x) : DoneOnce Q p x :=
  fun c c' hc => h c hc c c' hc

theorem seq (hx : DoneOnce Q p x) (hy : DoneOnce Q p y) : DoneOnce Q p (do
    x
    y) := by
  intro c c' hc hrun
  obtain ⟨_, c₁, hrun₁, hrun₂⟩ := CompileM.bind_eq_ok.mp hrun
  obtain ⟨hlater₁, hc₁, hagain₁⟩ := hx c c₁ hc hrun₁
  obtain ⟨hlater₂, hc', hagain₂⟩ := hy c₁ c' hc₁ hrun₂
  refine ⟨hlater₁.trans hlater₂, hc', fun e he hlater => ?_⟩
  rw [CompileM.bind_of_eq_ok (hagain₁ e he (hlater₂.trans hlater))]
  exact hagain₂ e he hlater

theorem forM {g : α → CompileM PUnit} {items : List α} (h : ∀ item ∈ items, DoneOnce Q p (g item)) :
    DoneOnce Q p (items.forM g) := by
  induction items with
  | nil => exact pure
  | cons item rest ih =>
    exact (h item List.mem_cons_self).seq (ih fun other hother => h other (List.mem_cons_of_mem _ hother))

/-- What was read before is read again. -/
theorem read {g : CompileM α} {f : α → CompileM PUnit} (hg : Reads (Context.LaterIn Q) p g)
    (h : ∀ a, DoneOnce (fun c => Q c ∧ g p c = .ok a c) p (f a)) : DoneOnce Q p (g >>= f) := by
  intro c c' hc hrun
  obtain ⟨a, c₁, hrun₁, hrun₂⟩ := CompileM.bind_eq_ok.mp hrun
  obtain rfl := hg.context_eq hc hrun₁
  obtain ⟨hlater, ⟨hc', -⟩, hagain⟩ := h a c₁ c' ⟨hc, hrun₁⟩ hrun₂
  refine ⟨hlater, hc', fun e he hlater' => ?_⟩
  have he' := hg.again hc hrun₁ he (hlater.trans hlater')
  rw [CompileM.bind_of_eq_ok he']
  exact hagain e ⟨he, he'⟩ hlater'

theorem restrict {R : Context → Prop} (h : DoneOnce Q p x)
    (hR : ∀ c c', Q c ∧ R c → Q c' → c.Later c' → R c') : DoneOnce (fun c => Q c ∧ R c) p x := by
  intro c c' hc hrun
  obtain ⟨hlater, hc', hagain⟩ := h c c' hc.1 hrun
  exact ⟨hlater, ⟨hc', hR c c' hc hc' hlater⟩, fun e he => hagain e he.1⟩

/-- What was found is read again, whatever it was. -/
theorem read_any {g : CompileM α} {f : α → CompileM PUnit} (hg : Reads (Context.LaterIn Q) p g)
    (h : ∀ a, DoneOnce Q p (f a)) : DoneOnce Q p (g >>= f) :=
  read hg fun a => (h a).restrict fun _ _ hc hc' hlater => hg.again hc.1 hc.2 hc' hlater

/-- What was looked up and stays is found again. -/
theorem lookup {g : Context → Option α} {f : α → CompileM PUnit}
    (hnone : ∀ c c', g c = none → x p c ≠ .ok ⟨⟩ c') (hsome : ∀ c a, g c = some a → x p c = f a p c)
    (hg : ∀ c e a, Q c → c.Later e → g c = some a → g e = some a) (h : ∀ a, DoneOnce Q p (f a)) :
    DoneOnce Q p x := by
  intro c c' hc hrun
  cases ha : g c with
  | none => exact absurd hrun (hnone c c' ha)
  | some a =>
    rw [hsome c a ha] at hrun
    obtain ⟨hlater, hc', hagain⟩ := h a c c' hc hrun
    refine ⟨hlater, hc', fun e he hlater' => ?_⟩
    rw [hsome e a (hg c e a hc (hlater.trans hlater') ha)]
    exact hagain e he hlater'

/-- A node whose kind is known is read. -/
theorem kindOf_bind {f : NodeKind → CompileM PUnit} {id : NodeId} {kind : NodeKind}
    (hkind : ∀ c, Q c → c.tree.HasKind id kind) (h : DoneOnce Q p (f kind)) :
    DoneOnce Q p (CompileM.kindOf id >>= f) := by
  intro c c' hc hrun
  rw [CompileM.bind_of_eq_ok (CompileM.kindOf_apply (hkind c hc))] at hrun
  obtain ⟨hlater, hc', hagain⟩ := h c c' hc hrun
  refine ⟨hlater, hc', fun e he hlater' => ?_⟩
  rw [CompileM.bind_of_eq_ok (CompileM.kindOf_apply (hkind e he))]
  exact hagain e he hlater'

/-- Work one namespace deeper. -/
theorem inSpace (hQ : ∀ c space, Q c → Q { c with space }) {name : String} (h : DoneOnce Q p x) :
    DoneOnce Q p (CompileM.inSpace name x) := by
  intro c c' hc hrun
  obtain ⟨c₁, hrun₁, rfl⟩ := CompileM.inSpace_eq_ok.mp hrun
  obtain ⟨hlater, hc₁, hagain⟩ := h _ c₁ (hQ c _ hc) hrun₁
  have hspace : c₁.space.dropLast = c.space := by
    rw [hlater.space, List.dropLast_concat]
  refine ⟨hlater.leaveSpace, hQ _ _ hc₁, fun e he hlater' => ?_⟩
  have hsame : e.space = c.space := hlater'.space.trans hspace
  have hdeeper := hagain { e with space := e.space ++ [name] } (hQ _ _ he)
    (hlater'.rebind hlater'.subst (by rw [hsame, hlater.space]) hlater'.outside)
  refine CompileM.inSpace_eq_ok.mpr ⟨_, hdeeper, ?_⟩
  rw [List.dropLast_concat]

/-- Work on a declaration that is left out when it was looked at before. -/
theorem of_visited (id : NodeId) (hQ : ∀ c c', Q c → c.Later c' → Q c')
    (hvisit : ∀ c, Q c → EndsIn (c.Visited id) (x p c))
    (hagain : ∀ e, Q e → e.stateOf id ≠ .unchecked → x p e = .ok ⟨⟩ e) : DoneOnce Q p x := by
  intro c c' hc hrun
  have hvisited := (hvisit c hc).of_ok hrun
  exact ⟨hvisited.later, hQ c c' hc hvisited.later, fun e he hlater =>
    hagain e he (hlater.ne_unchecked hvisited.now)⟩

/-! ### Checking -/

/-- An aggregate that is known by name is not collected again. -/
theorem collectAggregate (hQ : ∀ c c', Q c → c.Later c' → Q c') (name : String)
    (isTemplate : Bool) (site : DeclarationSite) : DoneOnce Q p (do
      if isTemplate || (← get).symbols.declaredAggregates.contains name then return
      CompileM.modifySymbols fun s =>
        { s with declaredAggregates := s.declaredAggregates.insert name site }) := by
  intro c c' hc hrun
  rw [CompileM.bind_of_eq_ok (CompileM.get_apply p c)] at hrun
  have hknown (e : Context) (h : isTemplate = true ∨ e.symbols.declaredAggregates.contains name = true) :
      (do
        if isTemplate || (← get).symbols.declaredAggregates.contains name then return
        CompileM.modifySymbols fun s =>
          { s with declaredAggregates := s.declaredAggregates.insert name site } :
        CompileM PUnit) p e = .ok ⟨⟩ e := by
    rw [CompileM.bind_of_eq_ok (CompileM.get_apply p e), if_pos (by simpa using h)]
    rfl
  split at hrun
  · rename_i h
    cases hrun
    refine ⟨.refl c, hc, fun e _ hlater => hknown e ?_⟩
    exact (Bool.or_eq_true _ _ ▸ h).imp_right hlater.symbols.declared
  · cases hrun
    have hlater : c.Later { c with
        symbols := { c.symbols with declaredAggregates := c.symbols.declaredAggregates.insert name site } } :=
      .grow (.insertDeclared (.refl _)) rfl rfl rfl rfl
    refine ⟨hlater, hQ _ _ hc hlater, fun e _ hlater' => hknown e (.inr (hlater'.symbols.declared ?_))⟩
    simp [Table.contains, Table.get?_insert_self]

theorem collect (hQ : ∀ c c', Q c → c.Later c' → Q c') (depth : Nat) (id : NodeId)
    (space : List String) :
    DoneOnce Q (performWithin depth) (CompileM.perform (.collect id space)) := by
  induction depth generalizing Q id space with
  | zero => exact of_ne_ok fun _ _ h => by cases h
  | succ depth ih =>
    suffices h : DoneOnce Q (performWithin depth) (CompileM.collect id space) from h
    refine read (.kindOf id) fun kind => ?_
    have hQ' := Reads.later (.kindOf id) hQ (a := kind) (p := performWithin depth)
    cases kind with
    | aggregate decl => exact collectAggregate hQ' _ _ _
    | space name items => exact forM fun item _ => ih hQ' item _
    | _ => exact pure

/-- A declaration that was looked at is left alone. -/
theorem once (hQ : ∀ c c', Q c → c.Later c' → Q c') (hcheck : ∀ c, Q c → c.phase = .check)
    (id : NodeId) (hx : Checks p x) : DoneOnce Q p (do
      if ← CompileM.beginCheck id then x) := by
  refine of_visited id hQ (fun c hc => hx.visited id (hcheck c hc)) fun e _ he => ?_
  rw [CompileM.bind_of_eq_ok (CompileM.beginCheck_of_visited he)]
  rfl

theorem checkFunction [p.Leads] (hQ : ∀ c c', Q c → c.Later c' → Q c') {id : NodeId}
    {decl : FunctionDecl} (hkind : ∀ c, Q c → c.tree.HasKind id (.function decl)) :
    DoneOnce Q p (discard (CompileM.checkFunction id none false)) := by
  refine of_visited id hQ (fun c hc => ?_) fun e he hid => ?_
  · exact EndsIn.map (Leads.visited_of_checkFunction (hkind c hc) none false) _
  · obtain ⟨_, hread⟩ := CompileM.locate_kindOf (hkind e he)
    refine CompileM.map_eq_ok.mpr ⟨e.symbols.declaredKeys.get? id, ?_, rfl⟩
    unfold CompileM.checkFunction
    rw [hread]
    exact CompileM.bind_of_eq_ok (CompileM.beginCheck_of_visited hid)

theorem checkAggregate [p.Leads] (hQ : ∀ c c', Q c → c.Later c' → Q c') {id : NodeId}
    {decl : AggregateDecl} (hkind : ∀ c, Q c → c.tree.HasKind id (.aggregate decl)) :
    DoneOnce Q p (discard (CompileM.checkAggregate id none)) := by
  refine of_visited id hQ (fun c hc => ?_) fun e he hid => ?_
  · exact EndsIn.map (Leads.visited_of_checkAggregate (hkind c hc) none) _
  · obtain ⟨_, hread⟩ := CompileM.locate_kindOf (hkind e he)
    refine CompileM.map_eq_ok.mpr ⟨e.symbols.declaredNames.get? id, ?_, rfl⟩
    unfold CompileM.checkAggregate
    rw [hread]
    exact CompileM.bind_of_eq_ok (CompileM.beginCheck_of_visited hid)

theorem checkNode (hQ : ∀ c c', Q c → c.Later c' → Q c') (hcheck : ∀ c, Q c → c.phase = .check)
    (depth : Nat) (id : NodeId) :
    DoneOnce Q (performWithin depth) (CompileM.perform (.checkNode id)) := by
  induction depth generalizing Q id with
  | zero => exact of_ne_ok fun _ _ h => by cases h
  | succ depth ih =>
    have hjobs := Leads.performWithin depth
    have hnodes := Checks.performWithin depth
    suffices h : DoneOnce Q (performWithin depth) (CompileM.checkNode id) from h
    refine read (.locate id) fun location => read (.kindOf id) fun kind => ?_
    have hlocated := Reads.later (.locate id) hQ (a := location) (p := performWithin depth)
    have hQ' := Reads.later (.kindOf id) hlocated (a := kind) (p := performWithin depth)
    have hcheck' : ∀ c, (Q c ∧ CompileM.locate id (performWithin depth) c = .ok location c) ∧
        CompileM.kindOf id (performWithin depth) c = .ok kind c → c.phase = .check :=
      fun c hc => hcheck c hc.1.1
    cases kind with
    | function decl => exact checkFunction hQ' fun c hc => (CompileM.kindOf_eq_ok hc.2).2
    | aggregate decl => exact checkAggregate hQ' fun c hc => (CompileM.kindOf_eq_ok hc.2).2
    | «variable» decl => exact once hQ' hcheck' id (.checkGlobal id decl location)
    | «alias» decl => exact once hQ' hcheck' id (.checkAlias decl location)
    | space name items => exact once hQ' hcheck' id (.checkSpace hnodes name items location)
    | staticIf cond yes no => exact once hQ' hcheck' id (.checkBranch hnodes cond yes no)
    | block items => exact forM fun item _ => ih hQ' hcheck' item
    | builtin name args => exact once hQ' hcheck' id (.of_leads (.map (.evalBuiltin id name args) _))
    | _ => exact of_ne_ok fun _ _ => CompileM.bail_ne_ok _ _

end DoneOnce

namespace Context

variable {c c₁ : Context} {roots : List NodeId}

/-- Checking leads to a later context and changes nothing when it is repeated. -/
theorem settles_check (h : c.check roots = .ok () c₁) :
    { c with phase := .check }.Later c₁ ∧ c₁.check roots = .ok () c₁ := by
  have hphase : ∀ c c' : Context, c.phase = .check → c.Later c' → c'.phase = .check :=
    fun c c' hc hlater => hlater.phase.trans hc
  obtain ⟨hlater, hc₁, hagain⟩ := DoneOnce.seq (Q := fun c => c.phase = .check)
    (.forM fun root _ => .collect hphase c.jobDepth root [])
    (.forM fun root _ => .checkNode hphase (fun _ => id) c.jobDepth root) _ _ rfl h
  have hsame : { c₁ with phase := .check } = c₁ := by
    rw [← hc₁]
  refine ⟨hlater, ?_⟩
  unfold check run
  rw [hsame, hlater.jobDepth]
  exact hagain c₁ hc₁ (.refl c₁)

end Context
end UnitCompiler
