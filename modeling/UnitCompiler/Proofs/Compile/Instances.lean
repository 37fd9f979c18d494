import UnitCompiler.Proofs.Compile.Reading
import UnitCompiler.Proofs.Disciplines.Delivery
import UnitCompiler.Proofs.Disciplines.Scheduling
import UnitCompiler.Proofs.Phases.Consistency
import UnitCompiler.Proofs.Types.Canonical

/-!
# Instances are made once

The first request for an instance makes it, and what it leaves in the tables answers every further request,
also those that are made while the instance itself is checked and emitted.  In a unit that was checked and
emitted no function instance is left out: every key that stands for an instance is that of a function which
was emitted, and which is not emitted again.  So the code has one definition for it, and one type for each
aggregate instance, where names do not clash.
-/

namespace UnitCompiler

/-- The name of an aggregate instance depends on the texts of its arguments. -/
theorem SourceType.canonical_aggregate_congr (name : String) {args args' : List TemplateArg}
    (h : args'.map (·.text) = args.map (·.text)) :
    (SourceType.aggregate name args').canonical = (SourceType.aggregate name args).canonical := by
  have htexts : argTexts args' = argTexts args := by
    rw [argTexts_eq_map, argTexts_eq_map]
    exact h
  have hempty : args'.isEmpty = args.isEmpty := by
    rw [← List.isEmpty_map (f := TemplateArg.text), h, List.isEmpty_map]
  rw [canonical, canonical, htexts, hempty]

/-- The function of the key is the one that the declaration gives, unless there was one of that key before,
which is taken for it then. -/
def Context.EntersFor (before : Context) (id : NodeId) (key : String) (entered : Context) : Prop :=
  ∃ (reached : Context) (f : FunctionSymbol), before.Later reached ∧
    entered.symbols.functions.get? key = some f ∧
    (reached.symbols.functions.get? key = none ∧ f.decl = id ∨ reached.symbols.functions.get? key = some f)

open CompileM in
/-- Once it is entered, the function instance answers every request for its template and arguments of the same
texts, and answering changes nothing besides what resolving the arguments does.  Where the written arguments stand
for known ones, as resolved arguments do for themselves, nothing changes at all. -/
def Context.AnswersFunction (entered : Context) (template : String) (texts : List String) (key : String) :
    Prop :=
  ∀ {later : Context}, entered.Recalls later →
    ∀ {d : Nat} {name : String} {args resolved : List TemplateArg} {location : Location} {site : DeclarationSite},
      later.functionTemplate? name = some (template, site) → resolved.map (·.text) = texts →
      (∀ {c : Context}, resolveArgs location args 0 (performWithin d) later = .ok resolved c →
        instantiateFunction name args location (performWithin d) later = .ok key c) ∧
      (later.ArgsStandFor 0 args resolved →
        instantiateFunction name args location (performWithin d) later = .ok key later)

open CompileM in
/-- Once it is entered, the aggregate instance answers every request for its template and arguments of the same
texts, and answering changes nothing. -/
def Context.AnswersAggregate (entered : Context) (template : String) (texts : List String) : Prop :=
  ∀ {later : Context}, entered.Recalls later →
    ∀ {d : Nat} {name : String} {args : List TemplateArg} {location : Location} {site : DeclarationSite},
      later.aggregateTemplate? name = some (template, site) → args.map (·.text) = texts →
      ensureInstance name args location (performWithin d) later = .ok template later

namespace CompileM

variable {p : Performer} {c c' c₁ : Context} {name template key : String} {args resolved : List TemplateArg}
  {location : Location} {site : DeclarationSite}

/-! ### Function instances -/

/-- A function instance that is known is found, and nothing else is done. -/
theorem instantiateFunction_of_known (htemplate : c.functionTemplate? name = some (template, site))
    (hresolve : resolveArgs location args 0 p c = .ok resolved c₁)
    (hknown : c₁.symbols.instances.get?
      (template ++ "<" ++ String.intercalate "," (resolved.map (·.text)) ++ ">") = some key) :
    instantiateFunction name args location p c = .ok key c₁ := by
  unfold instantiateFunction
  rw [bind_of_eq_ok (get_apply p c), htemplate]
  refine (bind_of_eq_ok hresolve).trans ?_
  rw [bind_of_eq_ok (get_apply p c₁), hknown]
  rfl

theorem function_of_register {decl : FunctionDecl} {f : FunctionSymbol}
    (h : register decl none f location p c = .ok () c') : c'.symbols.functions.get? f.key = some f := by
  unfold register at h
  cases hf : f.owner with
  | none =>
    rw [hf] at h
    cases h
    exact Table.get?_insert_self _ _ _
  | some owner =>
    rw [hf] at h
    cases h
    exact Table.get?_insert_self _ _ _

/-- What is entered for the copy of a template is its own function, or one of the same key. -/
theorem entersFor_of_checkFunction [p.Leads] {copy : NodeId} (hcopy : c.stateOf copy = .unchecked)
    (h : checkFunction copy none true p c = .ok (some key) c') : c.EntersFor copy key c' := by
  unfold checkFunction at h
  obtain ⟨location, c₁, hlocate, hkinds⟩ := bind_eq_ok.mp h
  obtain rfl := state_of_locate hlocate
  obtain ⟨kind, c₂, hkind, hbody⟩ := bind_eq_ok.mp hkinds
  obtain ⟨rfl, -⟩ := kindOf_eq_ok hkind
  cases kind with
  | function decl =>
    obtain ⟨isNew, c₃, hbegin, hchecked⟩ := bind_eq_ok.mp hbody
    cases (beginCheck_apply hcopy).symm.trans hbegin
    rw [if_neg (by decide)] at hchecked
    by_cases htemplate : decl.isTemplate = true
    · rw [if_pos htemplate] at hchecked
      obtain ⟨⟨⟩, c₄, -, hnone⟩ := bind_eq_ok.mp hchecked
      cases hnone
    rw [if_neg htemplate] at hchecked
    obtain ⟨f, reached, hf, hregister⟩ := bind_eq_ok.mp hchecked
    have hlater : c₂.Later reached := by
      refine .trans (.setState ?_) (EndsIn.of_ok (Discipline.Holds.functionSymbol
        (D := laterRuns p) copy decl none true location _) hf)
      rw [hcopy]
      exact Nat.zero_le _
    obtain ⟨hdecl, -⟩ := Yields.functionSymbol copy decl none true location _ _ _ hf
    rw [bind_of_eq_ok (get_apply p reached)] at hregister
    cases hexisting : reached.symbols.functions.get? f.key with
    | none =>
      rw [hexisting] at hregister
      obtain ⟨⟨⟩, c₄, hentered, hkey⟩ := bind_eq_ok.mp hregister
      cases hkey
      exact ⟨reached, f, hlater, function_of_register hentered, .inl ⟨hexisting, hdecl⟩⟩
    | some existing =>
      rw [hexisting] at hregister
      cases hregister
      exact ⟨reached, existing, hlater, hexisting, .inr hexisting⟩
  | _ => cases hbody

theorem entersFor_of_performWithin {d : Nat} {copy : NodeId} (hcopy : c.stateOf copy = .unchecked)
    (h : performWithin d (.checkFunction copy none true) c = .ok (some key) c') :
    c.EntersFor copy key c' := by
  cases d with
  | zero => cases h
  | succ d =>
    have hjobs := Leads.performWithin d
    exact entersFor_of_checkFunction hcopy h

/-- A new function instance is entered before its emission is asked for. -/
theorem entered_of_makeFunction (h : makeFunction name site location p c = .ok key c') :
    ∃ copy, ∃ before made : Context, p (.checkFunction copy none true) before = .ok (some key) made ∧
      scheduleFunction key p { made with
        symbols := { made.symbols with instances := made.symbols.instances.insert name key } } = .ok () c' := by
  unfold makeFunction at h
  obtain ⟨copy, c₁, -, h⟩ := bind_eq_ok.mp h
  obtain ⟨⟨⟩, before, -, h⟩ := bind_eq_ok.mp h
  obtain ⟨found, made, hcheck, h⟩ := bind_eq_ok.mp h
  cases found with
  | none => cases h
  | some key =>
    obtain ⟨⟨⟩, entered, henter, h⟩ := bind_eq_ok.mp h
    obtain ⟨⟨⟩, ended, hschedule, h⟩ := bind_eq_ok.mp h
    cases h
    cases henter
    exact ⟨copy, before, made, hcheck, hschedule⟩

/-- A request for a function instance finds it, or makes it and asks for its emission. -/
theorem instantiateFunction_cases (h : instantiateFunction name args location p c = .ok key c') :
    ∃ template site resolved c₁, c.functionTemplate? name = some (template, site) ∧
      resolveArgs location args 0 p c = .ok resolved c₁ ∧ ∃ entered : Context,
        entered.symbols.instances.get?
          (template ++ "<" ++ String.intercalate "," (resolved.map (·.text)) ++ ">") = some key ∧
        (entered = c₁ ∧ c' = c₁ ∨ ∃ (copy : NodeId) (before made ended : Context),
          p (.checkFunction copy none true) before = .ok (some key) made ∧
          entered.symbols.functions = made.symbols.functions ∧
          scheduleFunction key p entered = .ok () ended ∧ c' = c₁.afterInstance ended) := by
  unfold instantiateFunction at h
  rw [bind_of_eq_ok (get_apply p c)] at h
  cases htemplate : c.functionTemplate? name with
  | none =>
    rw [htemplate] at h
    exact absurd (guard_passes (y := bail _ _) h).2 (bail_ne_ok _ _)
  | some found =>
    obtain ⟨template, site⟩ := found
    rw [htemplate] at h
    obtain ⟨resolved, c₁, hresolve, h⟩ := bind_eq_ok.mp h
    refine ⟨template, site, resolved, c₁, rfl, hresolve, ?_⟩
    rw [bind_of_eq_ok (get_apply p c₁)] at h
    cases hknown : c₁.symbols.instances.get?
      (template ++ "<" ++ String.intercalate "," (resolved.map (·.text)) ++ ">") with
    | some known =>
      rw [hknown] at h
      cases h
      exact ⟨_, hknown, .inl ⟨rfl, rfl⟩⟩
    | none =>
      rw [hknown] at h
      obtain ⟨kind, c₂, hkind, hrest⟩ := bind_eq_ok.mp h
      obtain ⟨rfl, -⟩ := kindOf_eq_ok hkind
      cases kind with
      | function decl =>
        obtain ⟨subst, c₃, hsubst, hinstance⟩ := bind_eq_ok.mp hrest
        obtain ⟨rfl, -⟩ := orBail_eq_ok hsubst
        obtain ⟨ended, hmake, rfl⟩ := instantiating_eq_ok hinstance
        obtain ⟨copy, before, made, hcheck, hschedule⟩ := entered_of_makeFunction hmake
        exact ⟨{ made with
            symbols := { made.symbols with
              instances := made.symbols.instances.insert
                (template ++ "<" ++ String.intercalate "," (resolved.map (·.text)) ++ ">") key } },
          Table.get?_insert_self _ _ _, .inr ⟨copy, before, made, ended, hcheck, rfl, hschedule, rfl⟩⟩
      | _ => cases hrest

/-! ### Aggregate instances -/

/-- An aggregate instance that is known is left alone. -/
theorem ensureInstance_of_known (htemplate : c.aggregateTemplate? name = some (template, site))
    (hknown : c.symbols.knowsAggregate (SourceType.aggregate template args).canonical = true) :
    ensureInstance name args location p c = .ok template c := by
  unfold ensureInstance
  rw [bind_of_eq_ok (get_apply p c), htemplate]
  dsimp only
  rw [if_pos hknown]
  rfl

/-- The work on a new aggregate instance once it is known by name. -/
def finishAggregate (copy : NodeId) (name : String) : CompileM Unit := do
  discard (perform (.checkAggregate copy (some name)))
  scheduleAggregate name

/-- A new aggregate instance is known by name before it is checked. -/
theorem entered_of_makeAggregate (h : makeAggregate name site p c = .ok () c') :
    ∃ copy, ∃ entered : Context, entered.symbols.knowsAggregate name = true ∧
      finishAggregate copy name p entered = .ok () c' := by
  unfold makeAggregate at h
  obtain ⟨copy, c₁, -, h⟩ := bind_eq_ok.mp h
  obtain ⟨⟨⟩, c₂, -, h⟩ := bind_eq_ok.mp h
  obtain ⟨⟨⟩, entered, henter, h⟩ := bind_eq_ok.mp h
  cases henter
  refine ⟨copy, _, ?_, h⟩
  simp [SymbolTables.knowsAggregate, Table.contains, Table.get?_insert_self]

/-- A request for an aggregate instance finds it, or enters its name and then does the rest. -/
theorem ensureInstance_cases (h : ensureInstance name args location p c = .ok template c') :
    ∃ site, c.aggregateTemplate? name = some (template, site) ∧ ∃ entered : Context,
      entered.symbols.knowsAggregate (SourceType.aggregate template args).canonical = true ∧
      (entered = c ∧ c' = c ∨ ∃ copy ended,
        finishAggregate copy (SourceType.aggregate template args).canonical p entered = .ok () ended ∧
        c' = c.afterInstance ended) := by
  unfold ensureInstance at h
  rw [bind_of_eq_ok (get_apply p c)] at h
  cases htemplate : c.aggregateTemplate? name with
  | none =>
    rw [htemplate] at h
    cases h
  | some found =>
    obtain ⟨found, site⟩ := found
    rw [htemplate] at h
    by_cases hknown : c.symbols.knowsAggregate (SourceType.aggregate found args).canonical = true
    · dsimp only at h
      rw [if_pos hknown] at h
      cases h
      exact ⟨site, rfl, c, hknown, .inl ⟨rfl, rfl⟩⟩
    · dsimp only at h
      rw [if_neg hknown] at h
      obtain ⟨-, h⟩ := guard_passes h
      obtain ⟨kind, c₁, hkind, hrest⟩ := bind_eq_ok.mp h
      obtain ⟨rfl, -⟩ := kindOf_eq_ok hkind
      cases kind with
      | aggregate decl =>
        obtain ⟨subst, c₂, hsubst, hinstance⟩ := bind_eq_ok.mp hrest
        obtain ⟨rfl, -⟩ := orBail_eq_ok hsubst
        obtain ⟨⟨⟩, c₃, hinside, hdone⟩ := bind_eq_ok.mp hinstance
        cases hdone
        obtain ⟨ended, hmake, rfl⟩ := instantiating_eq_ok hinside
        obtain ⟨copy, entered, hentered, hfinish⟩ := entered_of_makeAggregate hmake
        exact ⟨site, rfl, entered, hentered, .inr ⟨copy, ended, hfinish, rfl⟩⟩
      | _ => cases hrest

/-! ### Answers -/

theorem answersFunction_of_known {entered : Context} {texts : List String} (hentered :
    entered.symbols.instances.get? (template ++ "<" ++ String.intercalate "," texts ++ ">") = some key) :
    entered.AnswersFunction template texts key := by
  intro later hlater d name args resolved location site htemplate htexts
  have hfound {c : Context} (hresolve : resolveArgs location args 0 (performWithin d) later = .ok resolved c) :
      instantiateFunction name args location (performWithin d) later = .ok key c := by
    have htracks := Tracks.of_ok (Discipline.Holds.resolveArgs
      (D := schedulingRuns (performWithin d)) location args 0 later) hresolve
    refine instantiateFunction_of_known htemplate hresolve ?_
    rw [htexts]
    exact htracks.instances (hlater.instances hentered)
  exact ⟨hfound, fun hargs => hfound (resolveArgs_apply (.refl later) location hargs)⟩

theorem answersAggregate_of_known {entered : Context}
    (hentered : entered.symbols.knowsAggregate (SourceType.aggregate template args).canonical = true) :
    entered.AnswersAggregate template (args.map (·.text)) := by
  intro later hlater d name args' location site htemplate htexts
  refine ensureInstance_of_known htemplate ?_
  rw [SourceType.canonical_aggregate_congr template htexts]
  exact hlater.knows hentered

/-! ### Whole units -/

/-- Asking for a function again does nothing. -/
theorem emitFunction_of_isEmitted (h : c.IsEmitted key) : emitFunction key p c = .ok () c := by
  obtain ⟨f, hf, hstate⟩ := h
  unfold emitFunction
  rw [bind_of_eq_ok (get_apply p c), hf]
  exact bind_of_eq_ok (beginEmit_of_emitted hstate)

open Discipline.Holds in
theorem tracks_finishAggregate [p.Schedules] (copy : NodeId) (name : String) (c : Context) :
    Tracks c (finishAggregate copy name p c) :=
  bind (D := schedulingRuns p) (map (Discipline.Makes.checkInstance copy name) _)
    (fun _ => schedule (fun c _ => job (.emitAggregate name) rfl c) _) c

open Discipline.Holds in
/-- Whatever waits is emitted, and while emitting nothing comes to wait. -/
theorem pending_of_emitPending {d : Nat} (hphase : c.phase = .emit)
    (h : performWithin d .emitPending c = .ok () c') : c'.pending = [] := by
  cases d with
  | zero => cases h
  | succ d =>
    have hjobs := Leads.performWithin d
    change emitPending (performWithin d) c = .ok () c' at h
    rw [emitPending_eq, bind_of_eq_ok (get_apply _ c)] at h
    obtain ⟨⟨⟩, c₁, hdrain, h⟩ := bind_eq_ok.mp h
    obtain ⟨⟨⟩, c₂, hempty, hitems⟩ := bind_eq_ok.mp hdrain
    cases hempty
    have hdrained : { c with pending := [] }.Later c₁ :=
      EndsIn.of_ok (forM (D := laterRuns (performWithin d)) Discipline.Holds.emitItem _) hitems
    have hrest := EndsIn.of_ok (get_bind (D := laterRuns (performWithin d))
      (fun _ => ite (job .emitPending rfl) (pure _)) c₁) h
    have hleads := hdrained.trans hrest
    exact hleads.pending hphase rfl

/-- Emitting a unit leaves nothing that waits. -/
theorem pending_of_emitting {d : Nat} {roots : List NodeId} (hphase : c.phase = .emit)
    (h : emitting roots (performWithin d) c = .ok () c') : c'.pending = [] := by
  have hjobs := Leads.performWithin d
  obtain ⟨⟨⟩, c₁, hfirst, h⟩ := bind_eq_ok.mp h
  obtain ⟨⟨⟩, c₂, hroots, hlast⟩ := bind_eq_ok.mp h
  have hlater : c.Later c₂ :=
    (EndsIn.of_ok (Leads.job .emitPending rfl c) hfirst).trans
      (EndsIn.of_ok (Discipline.Holds.forM (fun root => Leads.job (.emitDeclaration root) rfl) c₁) hroots)
  exact pending_of_emitPending (hlater.phase.trans hphase) hlast

/-- Where every function instance is scheduled, checking and emitting a unit leaves them all emitted. -/
theorem isEmitted_of_emit {checked emitted : Context} {roots : List NodeId}
    (hc : ∀ {name key}, c.symbols.instances.get? name = some key → c.IsScheduled key)
    (hcheck : c.check roots = .ok () checked) (hemit : checked.emit roots = .ok () emitted)
    (hname : emitted.symbols.instances.get? name = some key) : emitted.IsEmitted key := by
  have hchecked : Context.Schedules { c with phase := .check } checked :=
    Tracks.of_ok (Discipline.Holds.checking (D := schedulingRuns _) roots _) hcheck
  have hemitted : Context.Schedules { checked with phase := .emit } emitted :=
    Tracks.of_ok (Discipline.Holds.emitting (D := schedulingRuns _) roots _) hemit
  have hscheduled : emitted.IsScheduled key := by
    refine (hemitted.made hname).elim (fun hname => hemitted.scheduled ?_) id
    exact (hchecked.made hname).elim (fun hname => hchecked.scheduled (hc hname)) id
  refine hscheduled.resolve_left ?_
  rw [pending_of_emitting rfl hemit]
  exact List.not_mem_nil

theorem isScheduled_of_new {tree : Tree} {options : CompileOptions} {name key : String}
    (h : (Context.new tree options).symbols.instances.get? name = some key) :
    (Context.new tree options).IsScheduled key := by
  cases (Table.get?_empty name).symm.trans h

/-- What a unit that was checked and emitted has in its code. -/
theorem delivers_of_emit {tree : Tree} {options : CompileOptions} {checked emitted : Context} {roots : List NodeId}
    (hcheck : (Context.new tree options).check roots = .ok () checked)
    (hemit : checked.emit roots = .ok () emitted) : (Context.new tree options).Delivers none emitted := by
  have hchecks := Delivering.performWithin (Context.new tree options).jobDepth
  have hemits := Delivering.performWithin checked.jobDepth
  have hchecked : (Context.new tree options).Delivers none checked :=
    (Discipline.Holds.checking (D := deliveringRuns _) roots _ (Context.labelled_new tree options) _ _ hcheck).1
  have hphase : checked.Delivers none { checked with phase := .emit } :=
    .of_eq hchecked.labelled rfl rfl (.refl _) (List.Subset.refl _) rfl rfl
  have hemitted : { checked with phase := .emit }.Delivers none emitted :=
    (Discipline.Holds.emitting (D := deliveringRuns _) roots _ hphase.labelled _ _ hemit).1
  exact hchecked.trans (hphase.trans hemitted)

/-- Every aggregate instance of a unit that was checked and emitted is emitted. -/
theorem isTypeEmitted_of_emit {tree : Tree} {options : CompileOptions} {checked emitted : Context}
    {roots : List NodeId} (hcheck : (Context.new tree options).check roots = .ok () checked)
    (hemit : checked.emit roots = .ok () emitted) (hname : emitted.HasInstance name) :
    emitted.IsTypeEmitted name := by
  rcases (delivers_of_emit hcheck hemit).instances hname with hnew | hscheduled | hnone
  · obtain ⟨a, ha, -⟩ := hnew
    cases (Table.get?_empty name).symm.trans ha
  · refine hscheduled.resolve_left ?_
    rw [pending_of_emitting rfl hemit]
    exact List.not_mem_nil
  · cases hnone

theorem consistent_of_emit {tree : Tree} {options : CompileOptions} {checked emitted : Context}
    {roots : List NodeId} (hcheck : (Context.new tree options).check roots = .ok () checked)
    (hemit : checked.emit roots = .ok () emitted) : emitted.symbols.Consistent := by
  have hreached : emitted.IsReached tree options :=
    .emit roots (.check roots .new (by rw [hcheck]; rfl)) (by rw [hemit]; rfl)
  exact hreached.consistent.tables

end CompileM

open CompileM

/-- Whatever work is done, no instance is forgotten.  A request that ends well for an instance of a function
template, or of an aggregate, leads through a context that has the instance entered: from there on only its own
emission or checking is done, and every further request is answered.  The key of a function instance is that of
the copy of the template (which no one has checked before), unless there was a function of that key already,
which is taken for the instance then.  In a unit that is checked and emitted the function of every instance is
emitted, and asking for its emission again changes nothing.  The code of a unit has exactly one definition of an
instance with a body, unless another function is linked by its name, and exactly one type of an aggregate
instance, unless two declarations were registered under its name. -/
theorem instances_made_once (c : Context) (d : Nat) (name : String) (args : List TemplateArg)
    (location : Location) :
    (∀ job : Job, EndsIn c.Recalls (performWithin d job c)) ∧
    (∀ {key c'}, instantiateFunction name args location (performWithin d) c = .ok key c' →
      ∃ template site resolved c₁ entered, c.functionTemplate? name = some (template, site) ∧
        resolveArgs location args 0 (performWithin d) c = .ok resolved c₁ ∧
        (entered = c₁ ∧ c' = c₁ ∨ ∃ (copy : NodeId) (before ended : Context),
          (before.stateOf copy = .unchecked → before.EntersFor copy key entered) ∧
          scheduleFunction key (performWithin d) entered = .ok () ended ∧ c' = c₁.afterInstance ended) ∧
        entered.Recalls c' ∧ entered.AnswersFunction template (resolved.map (·.text)) key) ∧
    (∀ {template c'}, ensureInstance name args location (performWithin d) c = .ok template c' →
      ∃ site entered, c.aggregateTemplate? name = some (template, site) ∧
        (entered = c ∧ c' = c ∨ ∃ copy ended,
          finishAggregate copy (SourceType.aggregate template args).canonical (performWithin d) entered =
            .ok () ended ∧ c' = c.afterInstance ended) ∧
        entered.Recalls c' ∧ entered.AnswersAggregate template (args.map (·.text))) ∧
    ((∀ {name key}, c.symbols.instances.get? name = some key → c.IsScheduled key) →
      ∀ {roots checked emitted}, c.check roots = .ok () checked → checked.emit roots = .ok () emitted →
      ∀ {name key}, emitted.symbols.instances.get? name = some key → emitted.IsEmitted key ∧
        ∀ d', performWithin (d' + 1) (.emitFunction key) emitted = .ok () emitted) ∧
    (∀ {tree options roots checked emitted}, (Context.new tree options).check roots = .ok () checked →
      checked.emit roots = .ok () emitted →
      (∀ {name key f decl}, emitted.symbols.instances.get? name = some key →
        emitted.symbols.functions.get? key = some f → emitted.tree.HasKind f.decl (.function decl) →
        decl.body.isSome = true →
        (∀ {key' f'}, emitted.symbols.functions.get? key' = some f' → f'.linkName = f.linkName → key' = key) →
        emitted.program.definitionCount f.linkName = 1) ∧
      (∀ {name a}, emitted.symbols.aggregates.get? name = some a → a.isInstance = true →
        emitted.symbols.IsSingle name → (emitted.program.types.map (·.name)).count name = 1)) := by
  refine ⟨fun job => (Performer.Schedules.job job c).endsIn, fun {key c'} h => ?_,
    fun {template c'} h => ?_, fun hc roots checked emitted hcheck hemit name key hname => ?_,
    fun {tree options roots checked emitted} hcheck hemit =>
      ⟨fun {name key f decl} hname hf hkind hbody halone => ?_, fun {name a} ha hinstance hsingle => ?_⟩⟩
  · obtain ⟨template, site, resolved, c₁, htemplate, hresolve, entered, hentered, hend⟩ :=
      instantiateFunction_cases h
    refine ⟨template, site, resolved, c₁, entered, htemplate, hresolve, ?_, ?_,
      answersFunction_of_known hentered⟩
    · refine hend.imp_right ?_
      rintro ⟨copy, before, made, ended, hcheck, hfunctions, hschedule, rfl⟩
      refine ⟨copy, before, ended, fun hcopy => ?_, hschedule, rfl⟩
      obtain ⟨reached, f, hlater, hf, hkey⟩ := entersFor_of_performWithin hcopy hcheck
      exact ⟨reached, f, hlater, hfunctions ▸ hf, hkey⟩
    · rcases hend with ⟨rfl, rfl⟩ | ⟨copy, before, made, ended, -, -, hschedule, rfl⟩
      · exact .refl _
      · have htracks := Tracks.of_ok (Discipline.Holds.scheduleFunction
          (D := schedulingRuns (performWithin d)) key entered) hschedule
        exact ⟨htracks.instances, htracks.knows⟩
  · obtain ⟨site, htemplate, entered, hentered, hend⟩ := ensureInstance_cases h
    refine ⟨site, entered, htemplate, hend, ?_, answersAggregate_of_known hentered⟩
    rcases hend with ⟨rfl, rfl⟩ | ⟨copy, ended, hfinish, rfl⟩
    · exact .refl _
    · have htracks := Tracks.of_ok (tracks_finishAggregate copy _ entered) hfinish
      exact ⟨htracks.instances, htracks.knows⟩
  · have hemitted := isEmitted_of_emit hc hcheck hemit hname
    exact ⟨hemitted, fun d' => emitFunction_of_isEmitted hemitted⟩
  · obtain ⟨f', hf', hemitted⟩ := isEmitted_of_emit isScheduled_of_new hcheck hemit hname
    cases hf.symm.trans hf'
    exact (delivers_of_emit hcheck hemit).definitionCount_eq_one (consistent_of_emit hcheck hemit).keys hf hemitted
      hkind hbody halone
  · exact (delivers_of_emit hcheck hemit).typeCount_eq_one (isTypeEmitted_of_emit hcheck hemit ⟨a, ha, hinstance⟩)
      (hsingle _ _)

/-- A function template that calls its own instance, an aggregate template, and a function that needs the instances
of both for `int`. -/
def Tree.twoTemplates : Tree where
  nodes := #[⟨.ident "loop" [.type (.aggregate "T" [])], default⟩, ⟨.call ⟨0⟩ [], default⟩,
    ⟨.block [⟨1⟩], default⟩,
    ⟨.function { name := "loop", ret := .void, body := some ⟨2⟩, templateParams := [⟨"T", .type⟩] }, default⟩,
    ⟨.ident "loop" [.type (.scalar .int)], default⟩, ⟨.call ⟨4⟩ [], default⟩, ⟨.block [⟨5⟩], default⟩,
    ⟨.function { name := "start", params := [⟨"box", .aggregate "Box" [.type (.scalar .int)]⟩], ret := .void,
                 body := some ⟨6⟩ }, default⟩,
    ⟨.aggregate ⟨"Box", [⟨"T", .type⟩], none, [⟨"value", .aggregate "T" [], none⟩], []⟩, default⟩]
  files := ⟨["unit"]⟩

/-- Where both templates are known. -/
def Context.twoTemplates : Context := finalContext ((Context.new .twoTemplates {}).check [⟨3⟩, ⟨8⟩])

/-- Where the whole unit is emitted. -/
def Context.twoInstances : Context :=
  finalContext ((finalContext ((Context.new .twoTemplates {}).check [⟨3⟩, ⟨8⟩, ⟨7⟩])).emit [⟨3⟩, ⟨8⟩, ⟨7⟩])

theorem CompileM.exists_of_run' {α : Type} {x : CompileM α} {p : Performer} {c : Context} {a : α}
    (h : (x p).run' c = some a) : ∃ c', x p c = .ok a c' ∧ finalContext (x p c) = c' := by
  unfold EStateM.run' EStateM.run at h
  cases hrun : x p c with
  | ok b c' =>
    rw [hrun] at h
    cases h
    exact ⟨c', rfl, rfl⟩
  | error stop c' =>
    rw [hrun] at h
    cases h

/-- Both are made once, and what the function template asks for in its own body is there already. -/
theorem instances_made_once_of_twoTemplates :
    (∃ c, instantiateFunction "loop" [.type (.scalar .int)] default (performWithin 3) .twoTemplates =
        .ok "loop<int>[]" c ∧
      instantiateFunction "loop" [.type (.alias "number" (.scalar .int))] default (performWithin 1) c =
        .ok "loop<int>[]" c) ∧
    (∃ c, ensureInstance "Box" [.type (.scalar .int)] default (performWithin 3) .twoTemplates =
        .ok "Box" c ∧
      ensureInstance "Box" [.type (.alias "number" (.scalar .int))] default (performWithin 1) c =
        .ok "Box" c) ∧
    ∃ checked emitted, (Context.new .twoTemplates {}).check [⟨3⟩, ⟨8⟩, ⟨7⟩] = .ok () checked ∧
      checked.emit [⟨3⟩, ⟨8⟩, ⟨7⟩] = .ok () emitted ∧ emitted.IsEmitted "loop<int>[]" ∧
      emitted.program.definitionCount "_EmF11loop<int>[]" = 1 ∧
      (emitted.program.types.map (·.name)).count "Box<int>" = 1 := by
  refine ⟨?_, ?_, ?_⟩
  · obtain ⟨c, hrun, hc⟩ := exists_of_run' (x := instantiateFunction "loop" [.type (.scalar .int)] default)
      (p := performWithin 3) (c := .twoTemplates) (a := "loop<int>[]") (by decide +kernel)
    have hstart : (Context.twoTemplates.functionTemplate? "loop").map Prod.fst = some "loop" := by
      decide +kernel
    have hend : (c.functionTemplate? "loop").map Prod.fst = some "loop" := by
      rw [← hc]
      decide +kernel
    obtain ⟨template, site, resolved, c₁, entered, htemplate, hresolve, -, hrecalls, hagain⟩ :=
      (instances_made_once .twoTemplates 3 "loop" [.type (.scalar .int)] default).2.1 hrun
    rw [htemplate] at hstart
    cases hstart
    cases hresolve
    obtain ⟨⟨_, site'⟩, htemplate', rfl⟩ := Option.map_eq_some_iff.mp hend
    have hnumber :
        c.ArgsStandFor 0 [.type (.alias "number" (.scalar .int))] [.type (.alias "number" (.scalar .int))] :=
      .cons (.type rfl (.alias "number" (by decide) (.scalar .int (by decide)))) .nil
    have htexts : [TemplateArg.type (.alias "number" (.scalar .int))].map (·.text) =
        [TemplateArg.type (.scalar .int)].map (·.text) := rfl
    exact ⟨c, hrun, (hagain hrecalls htemplate' htexts).2 hnumber⟩
  · obtain ⟨c, hrun, hc⟩ := exists_of_run' (x := ensureInstance "Box" [.type (.scalar .int)] default)
      (p := performWithin 3) (c := .twoTemplates) (a := "Box") (by decide +kernel)
    have hend : (c.aggregateTemplate? "Box").map Prod.fst = some "Box" := by
      rw [← hc]
      decide +kernel
    obtain ⟨site, entered, -, -, hrecalls, hagain⟩ :=
      (instances_made_once .twoTemplates 3 "Box" [.type (.scalar .int)] default).2.2.1 hrun
    obtain ⟨⟨_, site'⟩, htemplate', rfl⟩ := Option.map_eq_some_iff.mp hend
    exact ⟨c, hrun, hagain hrecalls htemplate' rfl⟩
  · obtain ⟨checked, emitted, hcheck, hemit⟩ := exists_of_compileUnit
      (show (compileUnit .twoTemplates [⟨3⟩, ⟨8⟩, ⟨7⟩] {}).isOk = true by decide +kernel)
    obtain rfl : Context.twoInstances = emitted := by
      rw [Context.twoInstances, hcheck]
      exact congrArg finalContext hemit
    have hinstance : Context.twoInstances.symbols.instances.get? "loop<int>" = some "loop<int>[]" := by
      decide +kernel
    have hloop : (Context.twoInstances.symbols.functions.get? "loop<int>[]").any (fun f =>
        f.linkName = "_EmF11loop<int>[]" && (Context.twoInstances.tree.node? f.decl).any (·.kind.isDefinition)) =
        true := by decide +kernel
    have halone : ∀ e ∈ Context.twoInstances.symbols.functions.entries,
        e.2.linkName = "_EmF11loop<int>[]" → e.1 = "loop<int>[]" := by decide +kernel
    have hbox : (Context.twoInstances.symbols.aggregates.get? "Box<int>").any (·.isInstance) = true := by
      decide +kernel
    have hsingle : ∀ e ∈ Context.twoInstances.symbols.declaredNames.entries, e.2 = "Box<int>" → e.1 = ⟨9⟩ := by
      decide +kernel
    obtain ⟨-, -, -, hdone, honce⟩ := instances_made_once (.new .twoTemplates {}) 0 "" [] default
    obtain ⟨hfunctions, htypes⟩ := honce hcheck hemit
    obtain ⟨f, hf, hfacts⟩ := (Option.any_eq_true _ _).mp hloop
    obtain ⟨hlink, hnode⟩ := (Bool.and_eq_true _ _).mp hfacts
    obtain ⟨⟨kind, span⟩, hnode, hdefinition⟩ := (Option.any_eq_true _ _).mp hnode
    obtain ⟨a, ha, htype⟩ := (Option.any_eq_true _ _).mp hbox
    obtain ⟨decl, rfl, hbody⟩ := NodeKind.isDefinition_eq_true.mp hdefinition
    replace hlink := of_decide_eq_true hlink
    refine ⟨checked, _, hcheck, hemit, (hdone isScheduled_of_new hcheck hemit hinstance).1, ?_, ?_⟩
    · rw [← hlink]
      refine hfunctions hinstance hf ⟨span, hnode⟩ hbody fun hf' hsame => ?_
      exact halone _ (Table.mem_of_get? hf') (hsame.trans hlink)
    · refine htypes ha htype fun id id' hid hid' => ?_
      exact (hsingle _ (Table.mem_of_get? hid) rfl).trans (hsingle _ (Table.mem_of_get? hid') rfl).symm

end UnitCompiler
