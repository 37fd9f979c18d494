import UnitCompiler.Proofs.Phases.Declarations

/-!
# Instances stay and get emitted

An instance that was made stays known, whatever work is done.  A function instance is entered together with
the request to emit it: while checking it waits, while emitting its emission begins at once.  So a run that
ends well leaves no instance that neither waits nor is emitted.
-/

namespace UnitCompiler
namespace Context

/-- A context in which every instance of another one is still known. -/
structure Recalls (c c' : Context) : Prop where
  instances : ∀ {name key}, c.symbols.instances.get? name = some key →
    c'.symbols.instances.get? name = some key
  knows : ∀ {name}, c.symbols.knowsAggregate name = true → c'.symbols.knowsAggregate name = true

/-- The emission of the function with the key has begun. -/
def IsEmitted (c : Context) (key : String) : Prop :=
  ∃ f, c.symbols.functions.get? key = some f ∧ c.stateOf f.decl = .emitted

/-- The function with the key waits for emission, or its emission has begun. -/
def IsScheduled (c : Context) (key : String) : Prop :=
  Pending.function key ∈ c.pending ∨ c.IsEmitted key

/-- What a run that ends well does about instances: it forgets none, and those that it makes are scheduled
in the end like those that were so before. -/
structure Schedules (c c' : Context) : Prop extends c.Recalls c' where
  made : ∀ {name key}, c'.symbols.instances.get? name = some key →
    c.symbols.instances.get? name = some key ∨ c'.IsScheduled key
  scheduled : ∀ {key}, c.IsScheduled key → c'.IsScheduled key
  emitted : ∀ {key}, c.IsEmitted key → c'.IsEmitted key

variable {c c' c'' : Context}

namespace Recalls

theorem refl (c : Context) : c.Recalls c := ⟨id, id⟩

theorem trans (h : c.Recalls c') (h' : c'.Recalls c'') : c.Recalls c'' :=
  ⟨fun hname => h'.instances (h.instances hname), fun hname => h'.knows (h.knows hname)⟩

end Recalls

theorem IsEmitted.grow {key : String} (h : c.IsEmitted key)
    (hfunctions : ∀ {f}, c.symbols.functions.get? key = some f → c'.symbols.functions.get? key = some f)
    (hstates : ∀ {id}, c.stateOf id = .emitted → c'.stateOf id = .emitted) : c'.IsEmitted key := by
  obtain ⟨f, hf, hstate⟩ := h
  exact ⟨f, hfunctions hf, hstates hstate⟩

namespace Schedules

/-- A run that makes no instances. -/
theorem of_grows
    (hfunctions : ∀ {key f}, c.symbols.functions.get? key = some f → c'.symbols.functions.get? key = some f)
    (hinstances : c'.symbols.instances = c.symbols.instances)
    (hknows : ∀ {name}, c.symbols.knowsAggregate name = true → c'.symbols.knowsAggregate name = true)
    (hstates : ∀ {id}, c.stateOf id = .emitted → c'.stateOf id = .emitted)
    (hpending : c.pending ⊆ c'.pending) : c.Schedules c' where
  instances h := hinstances ▸ h
  knows := hknows
  made h := .inl (hinstances ▸ h)
  scheduled
    | .inl h => .inl (hpending h)
    | .inr h => .inr (h.grow hfunctions hstates)
  emitted h := h.grow hfunctions hstates

/-- A run that leaves everything about instances as it was. -/
theorem of_eq (hsymbols : c'.symbols = c.symbols) (hstates : c'.states = c.states)
    (hpending : c'.pending = c.pending) : c.Schedules c' :=
  .of_grows (by simp [hsymbols]) (by rw [hsymbols]) (by simp [hsymbols])
    (by simp [stateOf, hstates]) (by simp [hpending])

theorem refl (c : Context) : c.Schedules c := of_eq rfl rfl rfl

/-- What waited is emitted. -/
theorem of_drained (h : { c with pending := [] }.Schedules c')
    (hemitted : ∀ {key}, Pending.function key ∈ c.pending → c'.IsEmitted key) : c.Schedules c' where
  instances hname := h.instances hname
  knows hname := h.knows hname
  made hname := h.made hname
  scheduled
    | .inl hkey => .inr (hemitted hkey)
    | .inr hkey => .inr (h.emitted hkey)
  emitted hkey := h.emitted hkey

theorem trans (h : c.Schedules c') (h' : c'.Schedules c'') : c.Schedules c'' where
  toRecalls := h.toRecalls.trans h'.toRecalls
  made hname := (h'.made hname).elim (fun hname => (h.made hname).imp_right h'.scheduled) .inr
  scheduled hkey := h'.scheduled (h.scheduled hkey)
  emitted hkey := h'.emitted (h.emitted hkey)

theorem wrote (h : c.Wrote c') : c.Schedules c' := by
  rw [h.same]
  exact of_eq rfl rfl rfl

theorem besides {s : SymbolTables} (h : c.symbols.Besides s) : c.Schedules { c with symbols := s } :=
  .of_grows (fun hf => h.functions ▸ hf) h.instances h.knows id (List.Subset.refl _)

theorem setState {id : NodeId} {state : NodeState} (h : c.stateOf id = .emitted → state = .emitted) :
    c.Schedules { c with states := c.states.insert id state } := by
  refine .of_grows (fun hf => hf) rfl (fun hname => hname) (fun {id'} hid' => ?_) (List.Subset.refl _)
  rw [Later.stateOf_insert]
  split_ifs with heq
  · subst heq
    exact h hid'
  · exact hid'

end Schedules
end Context

/-! ### The discipline -/

/-- What is known about instances where a run ends.  A run that is cut off leaves no context to later
calls. -/
def Tracks (c : Context) {α : Type} : EStateM.Result Stop Context α → Prop
  | .ok _ c' => c.Schedules c'
  | .error (.failed _) c' => c.Recalls c'
  | .error _ _ => True

namespace Tracks

variable {p : Performer} {α β : Type} {x : CompileM α} {f : α → CompileM β} {c c₀ : Context}

theorem after {r : EStateM.Result Stop Context α} (h : c.Schedules c₀) (hr : Tracks c₀ r) : Tracks c r := by
  match r with
  | .ok _ _ => exact h.trans hr
  | .error (.failed _) _ => exact h.toRecalls.trans hr
  | .error .missingNode _ | .error .exhausted _ => trivial

theorem of_ok {a : α} {c' : Context} (h : Tracks c (x p c)) (hrun : x p c = .ok a c') : c.Schedules c' := by
  rwa [hrun] at h

theorem endsIn {r : EStateM.Result Stop Context α} (h : Tracks c r) : EndsIn c.Recalls r := by
  match r with
  | .ok _ _ => exact Context.Schedules.toRecalls h
  | .error (.failed _) _ => exact h
  | .error .missingNode _ | .error .exhausted _ => trivial

/-- A sequence tracks a context when its rest does. -/
theorem bind (hx : Tracks c (x p c₀))
    (hf : ∀ a c', x p c₀ = .ok a c' → c.Schedules c' → Tracks c (f a p c')) :
    Tracks c ((x >>= f) p c₀) := by
  cases hrun : x p c₀ with
  | ok a c' =>
    rw [CompileM.bind_of_eq_ok hrun]
    rw [hrun] at hx
    exact hf a c' hrun hx
  | error stop c' =>
    rw [CompileM.bind_of_eq_error hrun]
    rw [hrun] at hx
    cases stop with
    | failed error => exact hx
    | missingNode | exhausted => trivial

/-- A sequence tracks a context when its rest tracks the one where it starts. -/
theorem andThen (hx : Tracks c (x p c₀)) (hf : ∀ a c', x p c₀ = .ok a c' → Tracks c' (f a p c')) :
    Tracks c ((x >>= f) p c₀) :=
  bind hx fun a c' hrun h => (hf a c' hrun).after h

theorem fails (location : Location) (problem : Problem) :
    Tracks c (CompileM.bail location problem p c : EStateM.Result Stop Context α) := .refl c

theorem throw (stop : Stop) (c : Context) : Tracks c ((MonadExcept.throw stop : CompileM α) p c) := by
  cases stop with
  | failed error => exact .refl c
  | missingNode | exhausted => trivial

/-- What is restored around a run is of no importance to instances. -/
theorem restoring {restore : Context → Context} (hx : Tracks c₀ (x p c₀))
    (hsymbols : c₀.symbols = c.symbols) (hstates : c₀.states = c.states)
    (hpending : c₀.pending = c.pending) (hrestore : ∀ c' : Context, (restore c').symbols = c'.symbols ∧
      (restore c').states = c'.states ∧ (restore c').pending = c'.pending) :
    Tracks c (CompileM.restoring x restore p c₀) := by
  have hstart : c.Schedules c₀ := .of_eq hsymbols hstates hpending
  have hend (c' : Context) : c'.Schedules (restore c') :=
    .of_eq (hrestore c').1 (hrestore c').2.1 (hrestore c').2.2
  unfold CompileM.restoring
  match x p c₀, hx with
  | .ok _ c', hx => exact hstart.trans (Context.Schedules.trans hx (hend c'))
  | .error (.failed _) c', hx =>
    exact hstart.toRecalls.trans (Context.Recalls.trans hx (hend c').toRecalls)
  | .error .missingNode _, _ | .error .exhausted _, _ => trivial

theorem within (subst : Substitution) (space : List String)
    (hx : Tracks { c with subst, space, function := none } (x p { c with subst, space, function := none })) :
    Tracks c (CompileM.within subst space x p c) :=
  restoring hx rfl rfl rfl fun _ => ⟨rfl, rfl, rfl⟩

theorem instantiating (subst : Substitution) (space : List String) (location : Location)
    (hx : ∀ c₁ : Context, c₁.symbols = c.symbols → Tracks c₁ (x p c₁)) :
    Tracks c (CompileM.instantiating subst space location x p c) := by
  unfold CompileM.instantiating
  rw [CompileM.bind_of_eq_ok (CompileM.get_apply p c)]
  dsimp only
  split_ifs
  · exact fails (p := p) _ _
  · exact restoring (within subst space (hx _ rfl)) rfl rfl rfl fun _ => ⟨rfl, rfl, rfl⟩

/-- Nothing about instances depends on the nodes of the tree. -/
theorem copySubtree_bind (id : NodeId) {f : NodeId → CompileM β}
    (hf : ∀ copy tree, Tracks { c with tree } (f copy p { c with tree })) :
    Tracks c ((CompileM.copySubtree id >>= f) p c) := by
  unfold CompileM.copySubtree
  rw [bind_assoc, CompileM.bind_of_eq_ok (CompileM.get_apply p c)]
  rcases c.tree.copySubtree id with (_ | _) | ⟨copy, tree⟩
  · trivial
  · trivial
  · have hcopied : c.Schedules { c with tree } := .of_eq rfl rfl rfl
    exact (hf copy tree).after hcopied

end Tracks

/-- The runs under a performer that forget no instance and leave none unscheduled. -/
def schedulingRuns (p : Performer) : Discipline where
  At x c := Tracks c (x p c)
  pure _ c := .refl c
  throw := .throw
  bind hx hf := .andThen hx fun a c' _ => hf a c'
  get_bind h := h
  write h _ := Context.Schedules.wrote h.toWrote
  postpone _ _ _ := Context.Schedules.of_grows id rfl id id (List.subset_append_left _ _)
  declareAggregate _ := Context.Schedules.besides (.insertDeclared _ _ _)
  copySubtree_modifyKind id _ _ hf _ := .copySubtree_bind id fun copy _ =>
    .andThen (Context.Schedules.of_eq rfl rfl rfl) fun _ c _ => hf copy c
  within subst space hx _ := .within subst space (hx _)
  instantiating subst space location hx _ := .instantiating subst space location fun c₁ _ => hx c₁
  inSpace _ hx _ := .restoring (hx _) rfl rfl rfl fun _ => ⟨rfl, rfl, rfl⟩

/-- A way to do every job that forgets no instance, leaves none unscheduled, and begins the emission of a
function when it is asked for. -/
class Performer.Schedules (p : Performer) : Prop where
  job : ∀ (job : Job) (c : Context), Tracks c (p job c)
  emitted : ∀ {key c c'}, p (.emitFunction key) c = .ok () c' → c'.IsEmitted key

namespace Tracks

open Discipline.Holds

variable {p : Performer} {c : Context}

theorem modifySymbols {g : SymbolTables → SymbolTables} (h : ∀ s : SymbolTables, s.Besides (g s)) :
    (schedulingRuns p).Holds (CompileM.modifySymbols g) :=
  fun _ => Context.Schedules.besides (h _)

/-- A new function is entered under its key. -/
theorem register (decl : FunctionDecl) (owner : Option String) {f : FunctionSymbol} (location : Location)
    (hnew : c.symbols.functions.get? f.key = none) :
    Tracks c (CompileM.register decl owner f location p c) := by
  have hadd {c : Context} (hnew : c.symbols.functions.get? f.key = none) :
      Tracks c (CompileM.modifySymbols (·.addFunction f) p c) :=
    Context.Schedules.of_grows (SymbolTables.Grows.insertFunction (.refl c.symbols) hnew).functions rfl
      id id (List.Subset.refl _)
  have hmethod (owner : String) : Tracks c ((do
      CompileM.modifySymbols (·.addMethod owner decl.name f.key)
      CompileM.modifySymbols (·.addFunction f)) p c) :=
    andThen (modifySymbols (p := p) (g := (·.addMethod owner decl.name f.key))
      (fun _ => .of_eq rfl rfl rfl rfl) c) fun _ _ hrun => hadd (by cases hrun; exact hnew)
  unfold CompileM.register
  cases owner with
  | none =>
    cases f.owner with
    | none => exact hadd hnew
    | some owner => exact hmethod owner
  | some owner =>
    cases decl.operator with
    | some tag =>
      refine andThen (enterOperator_of_modifySymbols
        (fun _ => modifySymbols (.insertAggregate · _ _)) c) fun _ _ hrun => hadd ?_
      rw [Leads.functions_of_enterOperator hrun, hnew]
    | none =>
      cases f.owner with
      | none => exact hadd hnew
      | some owner => exact hmethod owner

/-- An action that may begin a function. -/
theorem of_opens {x : CompileM α} (hx : (schedulingRuns p).Opens x) : (schedulingRuns p).Holds x := by
  intro c
  induction hx generalizing c with
  | before hx => exact hx c
  | bind hx _ ih => exact andThen (hx c) fun a c' _ => ih a c'
  | start f hx => exact andThen (Context.Schedules.of_eq rfl rfl rfl) fun _ c' _ => hx c'

/-- What waited in the beginning is emitted in the end. -/
theorem drained {x : CompileM α} (hx : Tracks { c with pending := [] } (x p { c with pending := [] }))
    (hemitted : ∀ a c', x p { c with pending := [] } = .ok a c' →
      ∀ {key}, Pending.function key ∈ c.pending → c'.IsEmitted key) :
    Tracks c (x p { c with pending := [] }) := by
  cases hrun : x p { c with pending := [] } with
  | ok a c' =>
    rw [hrun] at hx
    exact .of_drained hx (hemitted a c' hrun)
  | error stop c' =>
    rw [hrun] at hx
    cases stop with
    | failed error => exact ⟨hx.instances, hx.knows⟩
    | missingNode | exhausted => trivial

/-! ### Work -/

instance : (schedulingRuns p).Defines where
  markEmitted _ _ := Context.Schedules.setState fun _ => rfl
  addType _ _ := Context.Schedules.of_eq rfl rfl rfl

variable [p.Schedules]

instance : (schedulingRuns p).Makes where
  job job _ c := Performer.Schedules.job job c
  checkInstance _ _ c := Performer.Schedules.job _ c
  declareInstance _ _ := modifySymbols (.insertDeclared · _ _)

instance : (schedulingRuns p).Registers where
  markChecked hid := Context.Schedules.setState fun h => by simp [hid] at h
  copySubtree id c := by
    rw [← bind_pure (CompileM.copySubtree id)]
    exact copySubtree_bind id fun _ _ => Context.Schedules.refl _
  declareKey _ _ := modifySymbols fun _ => .of_eq rfl rfl rfl rfl
  enterTemplate _ _ := modifySymbols fun _ => .of_eq rfl rfl rfl rfl
  enterAggregateTemplate _ _ := modifySymbols fun _ => .of_eq rfl rfl rfl rfl
  register decl owner _ location _ := register decl owner location
  modifySymbols := modifySymbols
  checkNode _ c := Performer.Schedules.job _ c

/-- What is scheduled begins its emission or waits for it. -/
theorem isScheduled_of_scheduleFunction {key : String} {c' : Context}
    (hrun : CompileM.scheduleFunction key p c = .ok () c') : c'.IsScheduled key := by
  unfold CompileM.scheduleFunction at hrun
  rw [CompileM.bind_of_eq_ok (CompileM.get_apply p c)] at hrun
  cases hphase : c.phase with
  | emit =>
    rw [hphase] at hrun
    exact .inr (Performer.Schedules.emitted hrun)
  | check =>
    rw [hphase] at hrun
    cases hrun
    exact .inl (List.mem_append_right _ List.mem_cons_self)

/-- A new instance is entered and scheduled. -/
theorem enterInstance {name : String} {c' : Context} (hnew : c.symbols.instances.get? name = none)
    (h : c.Schedules c') (key : String) : Tracks c ((do
      CompileM.modifySymbols fun s => { s with instances := s.instances.insert name key }
      CompileM.scheduleFunction key
      return key) p c') := by
  let entered : Context :=
    { c' with symbols := { c'.symbols with instances := c'.symbols.instances.insert name key } }
  have hrecalls : c.Recalls entered := by
    refine ⟨fun {name' key'} hname => ?_, h.knows⟩
    rw [Table.get?_insert_of_ne]
    · exact h.instances hname
    · rintro rfl
      rw [hnew] at hname
      cases hname
  change Tracks c ((do
    CompileM.scheduleFunction key
    return key) p entered)
  have htracks : Tracks entered (CompileM.scheduleFunction key p entered) :=
    scheduleFunction (D := schedulingRuns p) key entered
  cases hrun : CompileM.scheduleFunction key p entered with
  | error stop c'' =>
    rw [CompileM.bind_of_eq_error hrun]
    rw [hrun] at htracks
    cases stop with
    | failed error => exact hrecalls.trans htracks
    | missingNode | exhausted => trivial
  | ok done c'' =>
    rw [CompileM.bind_of_eq_ok hrun]
    rw [hrun] at htracks
    have hscheduled : ∀ {key'}, c'.IsScheduled key' → c''.IsScheduled key' := htracks.scheduled
    refine ⟨hrecalls.trans htracks.toRecalls, fun {name' key'} hname => ?_,
      fun hkey => hscheduled (h.scheduled hkey), fun hkey => htracks.emitted (h.emitted hkey)⟩
    refine (htracks.made hname).elim (fun hentered => ?_) .inr
    rw [Table.get?_insert] at hentered
    split_ifs at hentered with heq
    · cases hentered
      exact .inr (isScheduled_of_scheduleFunction hrun)
    · exact (h.made hentered).imp_right hscheduled

/-- An instance is made where there is none of the name. -/
theorem makeFunction {name : String} (hnew : c.symbols.instances.get? name = none) (site : DeclarationSite)
    (location : Location) : Tracks c (CompileM.makeFunction name site location p c) := by
  refine copySubtree_bind site.decl fun copy tree => ?_
  refine andThen (Context.Schedules.of_eq rfl rfl rfl) fun _ c₁ hrun₁ => ?_
  replace hnew : c₁.symbols.instances.get? name = none := by
    cases hrun₁
    exact hnew
  refine bind (Performer.Schedules.job (.checkFunction copy none true) c₁) fun key c₂ _ h₂ => ?_
  cases key with
  | none => exact h₂.toRecalls
  | some key => exact enterInstance hnew h₂ key

theorem instantiateFunction (name : String) (args : List TemplateArg) (location : Location) (c : Context) :
    Tracks c (CompileM.instantiateFunction name args location p c) := by
  unfold CompileM.instantiateFunction
  rw [CompileM.bind_of_eq_ok (CompileM.get_apply p c)]
  cases htemplate : c.functionTemplate? name with
  | none =>
    dsimp only
    split_ifs
    · exact fails (p := p) _ _
    · exact fails (p := p) _ _
  | some found =>
    refine andThen (resolveArgs (D := schedulingRuns p) location args 0 c) fun args c₁ _ => ?_
    rw [CompileM.bind_of_eq_ok (CompileM.get_apply p c₁)]
    generalize found.1 ++ "<" ++ String.intercalate "," (args.map (·.text)) ++ ">" = instanceName
    cases hnew : c₁.symbols.instances.get? instanceName with
    | some key => exact Context.Schedules.refl c₁
    | none =>
      refine andThen (kindOf (D := schedulingRuns p) _ c₁) fun kind c₂ hkind => ?_
      obtain ⟨rfl, -⟩ := CompileM.kindOf_eq_ok hkind
      cases kind with
      | function decl =>
        refine andThen (orBail (D := schedulingRuns p) _ _ c₂) fun subst c₃ hsubst => ?_
        obtain ⟨rfl, -⟩ := CompileM.orBail_eq_ok hsubst
        exact .instantiating _ _ _ fun c₄ hsymbols => makeFunction (by rw [hsymbols, hnew]) _ _
      | _ => exact fails (p := p) _ _

instance : (schedulingRuns p).Writes where
  write := Context.Schedules.wrote

instance : (schedulingRuns p).Emits where
  inFunction job _ c := Performer.Schedules.job job c
  instantiateFunction := instantiateFunction
  setNesting _ _ := Context.Schedules.of_eq rfl rfl rfl

theorem emitSymbol (f : FunctionSymbol) :
    (schedulingRuns p).Holds (CompileM.within f.subst f.space (CompileM.emitSymbol f)) :=
  fun _ => within _ _ (of_opens (Discipline.opens_emitSymbol f) _)

theorem emitFunction (key : String) : (schedulingRuns p).Holds (CompileM.emitFunction key) :=
  Discipline.Holds.emitFunction emitSymbol key

/-- A function that was asked for has begun its emission. -/
theorem isEmitted_of_emitFunction {key : String} {c' : Context}
    (hrun : CompileM.emitFunction key p c = .ok () c') : c'.IsEmitted key := by
  unfold CompileM.emitFunction at hrun
  rw [CompileM.bind_of_eq_ok (CompileM.get_apply p c)] at hrun
  cases hf : c.symbols.functions.get? key with
  | none =>
    rw [hf] at hrun
    cases hrun
  | some f =>
    rw [hf] at hrun
    obtain ⟨isNew, c₁, hbegin, hrun⟩ := CompileM.bind_eq_ok.mp hrun
    by_cases hstate : c.stateOf f.decl = .emitted
    · cases (CompileM.beginEmit_of_emitted hstate).symm.trans hbegin
      cases hrun
      exact ⟨f, hf, hstate⟩
    · cases (CompileM.beginEmit_apply hstate).symm.trans hbegin
      have htracks := emitSymbol (p := p) f { c with states := c.states.insert f.decl .emitted }
      rw [if_pos rfl] at hrun
      refine (of_ok htracks hrun).emitted ⟨f, hf, ?_⟩
      rw [Context.Later.stateOf_insert, if_pos rfl]

/-- The functions that wait are emitted one after the other. -/
theorem emitItems (items : List Pending) (c : Context) :
    Tracks c (items.forM CompileM.emitItem p c) ∧ ∀ c', items.forM CompileM.emitItem p c = .ok ⟨⟩ c' →
      ∀ {key}, Pending.function key ∈ items → c'.IsEmitted key := by
  induction items generalizing c with
  | nil => exact ⟨.refl c, fun _ _ _ => nofun⟩
  | cons item rest ih =>
    refine ⟨andThen (emitItem (D := schedulingRuns p) item c) fun _ c₁ _ => (ih c₁).1, fun c' hrun key hkey => ?_⟩
    obtain ⟨⟨⟩, c₁, hfirst, hrest⟩ := CompileM.bind_eq_ok.mp hrun
    rcases List.mem_cons.mp hkey with rfl | hkey
    · have hemitted : c₁.IsEmitted key := Performer.Schedules.emitted (p := p) hfirst
      exact (of_ok (ih c₁).1 hrest).emitted hemitted
    · exact (ih c₁).2 c' hrest hkey

theorem drainPending (c : Context) : Tracks c (CompileM.drainPending c.pending p c) := by
  obtain ⟨htracks, hemitted⟩ := emitItems (p := p) c.pending { c with pending := [] }
  exact drained htracks fun _ c' hrun => hemitted c' hrun

theorem work (job : Job) : (schedulingRuns p).Holds job.work := by
  cases job with
  | collect id space => exact collect id space
  | fold id => exact foldNode id
  | checkNode id => exact checkNode id
  | checkFunction id owner isInstance => exact checkFunction id owner isInstance
  | checkAggregate id instanceName => exact checkAggregate id instanceName
  | complete type location => exact complete type location
  | needsDefaults type location => exact needsDefaults type location
  | applyDefaults type slot skipped location => exact applyDefaults type slot skipped location
  | emitDeclaration id => exact emitDeclaration id
  | emitFunction key => exact emitFunction key
  | emitAggregate name => exact emitAggregate name
  | emitPending => exact emitPending_of_drains drainPending
  | emitExpr id => exact emitExpr id
  | emitPlace id => exact emitPlace id
  | emitStmt id => exact emitStmt id

end Tracks

/-- Whatever work is done, instances are tracked. -/
instance (depth : Nat) : (performWithin depth).Schedules := by
  induction depth with
  | zero => exact ⟨fun _ _ => trivial, nofun⟩
  | succ depth ih => exact ⟨fun job c => Tracks.work job c, Tracks.isEmitted_of_emitFunction⟩

end UnitCompiler
