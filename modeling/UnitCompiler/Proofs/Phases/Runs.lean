import UnitCompiler.Proofs.Disciplines.Declarations

/-!
# Runs and later contexts

Sequences, loops and branches lead to later contexts when their parts do.
-/

namespace UnitCompiler

namespace CompileM

variable {p : Performer} {c : Context} {id : NodeId}

theorem locate_of_none (h : c.tree.node? id = none) : locate id p c = .error .missingNode c := by
  unfold locate spanOf nodeAt
  refine bind_of_eq_error (bind_of_eq_error ?_)
  rw [bind_of_eq_ok (get_apply p c), h]
  rfl

/-- Work that begins with a look at a node succeeds only where the node exists. -/
theorem hasKind_of_ok {α : Type} {f : Location → NodeKind → CompileM α} {a : α} {c' : Context}
    (h : (do
      let location ← locate id
      f location (← kindOf id)) p c = .ok a c') : ∃ kind, c.tree.HasKind id kind := by
  cases hid : c.tree.node? id with
  | some node => exact ⟨node.kind, node.span, hid⟩
  | none =>
    rw [bind_of_eq_error (locate_of_none hid)] at h
    cases h

end CompileM

/-- What holds of the context that a run leaves to later calls.  A run that is cut off leaves none. -/
def EndsIn {α : Type} (Q : Context → Prop) : EStateM.Result Stop Context α → Prop
  | .ok _ c | .error (.failed _) c => Q c
  | .error _ _ => True

namespace EndsIn

variable {Q Q' : Context → Prop} {p : Performer} {α β : Type} {x : CompileM α}
  {f : α → CompileM β} {c : Context}

theorem of_ok {a : α} {c' : Context} (h : EndsIn Q (x p c)) (hrun : x p c = .ok a c') : Q c' := by
  rwa [hrun] at h

theorem imp {r : EStateM.Result Stop Context α} (h : EndsIn Q r) (hQ : ∀ c, Q c → Q' c) :
    EndsIn Q' r := by
  match r with
  | .ok _ c | .error (.failed _) c => exact hQ c h
  | .error .missingNode _ | .error .exhausted _ => trivial

/-- Behind a run whose contexts have a property the rest of a sequence goes on. -/
theorem bind (hx : EndsIn Q (x p c))
    (hf : ∀ a c', x p c = .ok a c' → Q c' → EndsIn Q (f a p c')) : EndsIn Q ((x >>= f) p c) := by
  cases hrun : x p c with
  | ok a c' =>
    rw [CompileM.bind_of_eq_ok hrun]
    rw [hrun] at hx
    exact hf a c' hrun hx
  | error e c' =>
    rw [CompileM.bind_of_eq_error hrun]
    rw [hrun] at hx
    cases e with
    | failed error => exact hx
    | missingNode | exhausted => trivial

theorem map (hx : EndsIn Q (x p c)) (g : α → β) : EndsIn Q ((g <$> x) p c) := by
  rw [map_eq_pure_bind]
  exact hx.bind fun _ _ _ h => h

/-- An action behind a check that may fail. -/
theorem guard {q : Prop} [Decidable q] {location : Location} {problem : Problem} {y : CompileM β}
    (hc : Q c) (hy : EndsIn Q (y p c)) : EndsIn Q ((do
      if q then CompileM.bail location problem
      y : CompileM β) p c) := by
  split
  · exact hc
  · exact hy

/-- What is restored behind an action is restored however it ends. -/
theorem restoring {restore : Context → Context} (hx : EndsIn Q (x p c))
    (h : ∀ c', Q c' → Q' (restore c')) : EndsIn Q' (CompileM.restoring x restore p c) := by
  unfold CompileM.restoring
  match x p c, hx with
  | .ok a c', hx | .error (.failed error) c', hx => exact h c' hx
  | .error .missingNode c', _ | .error .exhausted c', _ => trivial

/-- A node is read before anything else is done. -/
theorem locate_kindOf {id : NodeId} {f : Location → NodeKind → CompileM β}
    (h : ∀ location kind, c.tree.HasKind id kind → (do
      let location ← CompileM.locate id
      f location (← CompileM.kindOf id)) p c = f location kind p c → EndsIn Q (f location kind p c)) :
    EndsIn Q ((do
      let location ← CompileM.locate id
      f location (← CompileM.kindOf id)) p c) := by
  cases hid : c.tree.node? id with
  | none =>
    rw [CompileM.bind_of_eq_error (CompileM.locate_of_none hid)]
    trivial
  | some node =>
    have hkind : c.tree.HasKind id node.kind := ⟨node.span, hid⟩
    obtain ⟨location, hread⟩ := CompileM.locate_kindOf hkind
    rw [hread]
    exact h location node.kind hkind (hread f p)

/-- A subtree is copied, or the run is cut off. -/
theorem copySubtree_bind_of_eq {id : NodeId} {f : NodeId → CompileM β} (hf : ∀ copy t,
      c.tree.copySubtree id = .ok (copy, t) → EndsIn Q (f copy p { c with tree := t })) :
    EndsIn Q ((CompileM.copySubtree id >>= f) p c) := by
  rcases hrun : c.tree.copySubtree id with (_ | _) | ⟨copy, tree⟩
  · have hcopy : CompileM.copySubtree id p c = .error .missingNode c := by
      unfold CompileM.copySubtree
      rw [CompileM.bind_of_eq_ok (CompileM.get_apply p c), hrun]
      rfl
    rw [CompileM.bind_of_eq_error hcopy]
    trivial
  · have hcopy : CompileM.copySubtree id p c = .error .exhausted c := by
      unfold CompileM.copySubtree
      rw [CompileM.bind_of_eq_ok (CompileM.get_apply p c), hrun]
      rfl
    rw [CompileM.bind_of_eq_error hcopy]
    trivial
  · have hcopy : CompileM.copySubtree id p c = .ok copy { c with tree } := by
      unfold CompileM.copySubtree
      rw [CompileM.bind_of_eq_ok (CompileM.get_apply p c), hrun]
      rfl
    rw [CompileM.bind_of_eq_ok hcopy]
    exact hf copy tree hrun

/-- A copy stands behind the nodes that were there. -/
theorem copySubtree_bind {id : NodeId} {f : NodeId → CompileM β} (hf : ∀ copy t, c.tree.Begins t →
      c.tree.size ≤ copy.index → EndsIn Q (f copy p { c with tree := t })) :
    EndsIn Q ((CompileM.copySubtree id >>= f) p c) := by
  refine copySubtree_bind_of_eq fun copy t hcopy => ?_
  obtain ⟨hbegins, hle⟩ := Tree.begins_of_copySubtree hcopy
  exact hf copy t hbegins hle

/-- Work in the environment of another declaration. -/
theorem within (hx : ∀ c, EndsIn c.Later (x p c)) (subst : Substitution) (space : List String)
    (c : Context) : EndsIn c.Later (CompileM.within subst space x p c) :=
  EndsIn.restoring (hx _) fun _ h => h.rebind rfl rfl id

end EndsIn

/-! ### The discipline -/

/-- Runs under a performer that lead to later contexts. -/
def laterRuns (p : Performer) : Discipline where
  At x c := EndsIn c.Later (x p c)
  pure _ c := .refl c
  throw stop c := by
    cases stop with
    | failed error => exact .refl c
    | missingNode | exhausted => trivial
  bind hx hf := EndsIn.bind hx fun a c' _ hlater => (hf a c').imp fun _ => hlater.trans
  get_bind h := h
  write h _ := .wrote h.toWrote
  postpone item _ hphase := .postpone item hphase
  declareAggregate _ := .grow (.insertDeclared (.refl _)) rfl rfl rfl rfl
  copySubtree_modifyKind _ g _ hf _ := EndsIn.copySubtree_bind fun copy _ htree hcopy =>
    (hf copy _).imp fun _ => (Context.Later.setTree (htree.modifyKind hcopy g)).trans
  within subst space hx := EndsIn.within hx subst space
  instantiating subst space location hx c := by
    unfold CompileM.instantiating
    rw [CompileM.bind_of_eq_ok (CompileM.get_apply p c)]
    dsimp only
    split_ifs
    · exact .refl c
    · exact EndsIn.restoring (EndsIn.within hx subst space _) fun _ h => h.rebind h.subst h.space h.outside
  inSpace _ hx _ := EndsIn.restoring (hx _) fun _ h => h.leaveSpace

/-- Every run of an action leads to a later context. -/
def Leads (p : Performer) {α : Type} (x : CompileM α) : Prop :=
  (laterRuns p).Holds x

/-- Only checking registers the declarations of a unit. -/
def Job.isCheckNode : Job → Bool
  | .checkNode _ => true
  | _ => false

/-- A way to do every other job that leads to later contexts. -/
class Performer.Leads (p : Performer) : Prop where
  job : ∀ job : Job, job.isCheckNode = false → UnitCompiler.Leads p (CompileM.perform job)

instance {p : Performer} : (laterRuns p).Defines where
  markEmitted id c := show c.Later _ from .setState (by cases c.stateOf id <;> decide)
  addType _ c := show c.Later _ from .wrote ⟨rfl, id⟩

instance {p : Performer} [p.Leads] : (laterRuns p).Makes where
  job job hjob := Performer.Leads.job job (by cases job <;> first | rfl | cases hjob)
  checkInstance _ _ := Performer.Leads.job _ rfl
  declareInstance _ _ c := show c.Later _ from .grow (.insertDeclared (.refl _)) rfl rfl rfl rfl

instance {p : Performer} : (laterRuns p).Writes where
  write h := .wrote h

instance {p : Performer} [p.Leads] : (laterRuns p).Emits where
  inFunction job hjob := Performer.Leads.job job (by cases job <;> first | rfl | cases hjob)
  instantiateFunction :=
    Discipline.Holds.instantiateFunction_of_enterInstance fun name key c =>
      show c.Later { c with
        symbols := { c.symbols with instances := c.symbols.instances.insert name key } } from
      .grow (.of_eq rfl rfl rfl) rfl rfl rfl rfl
  setNesting _ c := show c.Later _ from { Context.Later.refl c with sound := fun hc => ⟨hc.keys, hc.names⟩ }

namespace Leads

variable {p : Performer} {α β γ : Type} {x y : CompileM α} {f : α → CompileM β} {c c' : Context}

theorem run (hx : Leads p x) (c : Context) : EndsIn c.Later (x p c) := hx c

/-- Runs in later contexts lead to later contexts. -/
theorem endsIn (hx : Leads p x) (h : c.Later c') : EndsIn c.Later (x p c') :=
  (hx.run c').imp fun _ => h.trans

theorem job [p.Leads] (job : Job) (h : job.isCheckNode = false) : Leads p (CompileM.perform job) :=
  Performer.Leads.job job h

/-- A change of the tables that only adds to what is kept track of. -/
theorem modifySymbols {g : SymbolTables → SymbolTables} (h : ∀ s : SymbolTables, s.Grows (g s))
    (hkeys : ∀ s, (g s).declaredKeys = s.declaredKeys)
    (hnames : ∀ s, (g s).declaredNames = s.declaredNames) (haliases : ∀ s, (g s).aliases = s.aliases)
    (hglobals : ∀ s, (g s).globals = s.globals) : Leads p (CompileM.modifySymbols g) :=
  fun _ => Context.Later.grow (h _) (hkeys _) (hnames _) (haliases _) (hglobals _)

/-- An action in the environment of another declaration may begin a function. -/
theorem within_opens {subst : Substitution} {space : List String} (hx : (laterRuns p).Opens x) :
    Leads p (CompileM.within subst space x) := by
  have hapart (c : Context) : EndsIn (fun c' => c.Later { c' with function := c.function }) (x p c) := by
    induction hx generalizing c with
    | before hx => exact (Leads.run hx c).imp fun _ h => h.withFunction id
    | bind hx _ ih =>
      refine EndsIn.bind ((Leads.run hx c).imp fun _ h => h.withFunction id) fun a c₁ hrun _ => ?_
      have hlater := (Leads.run hx c).of_ok hrun
      exact (ih a c₁).imp fun _ h => (hlater.trans h).withFunction id
    | start f hx =>
      rw [CompileM.bind_of_eq_ok (CompileM.setFunctionState_apply f p c)]
      exact (Leads.run hx _).imp fun _ h => h.rebind h.subst h.space id
  exact fun _ => EndsIn.restoring (hapart _) fun _ h => h.rebind rfl rfl id

theorem emitFunction [p.Leads] (key : String) : Leads p (CompileM.emitFunction key) :=
  Discipline.Holds.emitFunction (fun f => within_opens (Discipline.opens_emitSymbol f)) key

end Leads
end UnitCompiler
