import UnitCompiler.Compile.Unit
import UnitCompiler.Proofs.Ir.Building

/-!
# Actions of the compiler

Taking successful runs of compiler actions apart, and the contexts in which only the function under
emission has gone on.
-/

namespace UnitCompiler

/-- Where the work on an instance ended, with the surroundings of before around it again. -/
def Context.afterInstance (outer ended : Context) : Context :=
  { ended with
    subst := outer.subst, space := outer.space, function := outer.function
    instantiationDepth := ended.instantiationDepth - 1 }

namespace CompileM

section Results

variable {α β : Type} {x : CompileM α} {f : α → CompileM β} {p : Performer} {c c' c'' : Context}
  {a : α} {b : β}

/-- A sequence succeeds when both actions do. -/
theorem bind_eq_ok : (x >>= f) p c = .ok b c'' ↔
    ∃ a c', x p c = .ok a c' ∧ f a p c' = .ok b c'' := by
  change EStateM.bind (x p) (fun a => f a p) c = _ ↔ _
  unfold EStateM.bind
  cases x p c with
  | ok a c' => simp
  | error e c' => simp

/-- Behind an action that succeeds the sequence goes on. -/
theorem bind_of_eq_ok (h : x p c = .ok a c') : (x >>= f) p c = f a p c' := by
  change EStateM.bind (x p) (fun a => f a p) c = _
  unfold EStateM.bind
  rw [h]

/-- Behind an action that stops the sequence does not go on. -/
theorem bind_of_eq_error {e : Stop} (h : x p c = .error e c') : (x >>= f) p c = .error e c' := by
  change EStateM.bind (x p) (fun a => f a p) c = _
  unfold EStateM.bind
  rw [h]

theorem map_eq_ok {g : α → β} : (g <$> x) p c = .ok b c'' ↔ ∃ a, x p c = .ok a c'' ∧ g a = b := by
  change EStateM.map g (x p) c = _ ↔ _
  unfold EStateM.map
  cases x p c with
  | ok a c' => simp [and_comm]
  | error e c' => simp

theorem ite_apply (q : Prop) [Decidable q] (x y : CompileM α) (p : Performer) (c : Context) :
    (if q then x else y) p c = if q then x p c else y p c := by
  split <;> rfl

@[simp] theorem pure_apply (a : α) (p : Performer) (c : Context) :
    (pure a : CompileM α) p c = .ok a c := rfl

@[simp] theorem get_apply (p : Performer) (c : Context) : (get : CompileM Context) p c = .ok c c := rfl

@[simp] theorem set_apply (c₁ : Context) (p : Performer) (c : Context) :
    (set c₁ : CompileM PUnit) p c = .ok ⟨⟩ c₁ := rfl

@[simp] theorem modify_apply (g : Context → Context) (p : Performer) (c : Context) :
    (modify g : CompileM PUnit) p c = .ok ⟨⟩ (g c) := rfl

@[simp] theorem perform_apply (job : Job) (p : Performer) (c : Context) :
    CompileM.perform job p c = p job c := rfl

@[simp] theorem bail_ne_ok (location : Location) (problem : Problem) :
    (bail location problem : CompileM α) p c ≠ .ok a c' := by
  intro h
  cases h

@[simp] theorem orBail_ok (location : Location) (a : α) :
    orBail location (.ok a) p c = .ok a c := rfl

@[simp] theorem orBail_error_ne_ok (location : Location) (problem : Problem) :
    (orBail location (.error problem) : CompileM α) p c ≠ .ok a c' := by
  intro h
  cases h

theorem orBail_eq_ok {location : Location} {result : Except Problem α}
    (h : orBail location result p c = .ok a c') : c' = c ∧ result = .ok a := by
  cases result with
  | ok b =>
    cases h
    exact ⟨rfl, rfl⟩
  | error problem => cases h

/-- An action behind a check goes on only when the check passes. -/
theorem guard_passes {q : Prop} [Decidable q] {location : Location} {problem : Problem}
    {y : CompileM β}
    (h : (do
      if q then bail location problem
      y : CompileM β) p c = .ok b c') : ¬ q ∧ y p c = .ok b c' := by
  split at h
  · cases h
  · exact ⟨‹_›, h⟩

/-- Actions on a list that only give values. -/
theorem mapM_apply {f : α → CompileM β} {g : α → β} {l : List α}
    (h : ∀ a ∈ l, f a p c = .ok (g a) c) : l.mapM f p c = .ok (l.map g) c := by
  induction l with
  | nil => rfl
  | cons a rest ih =>
    have hrest := ih fun b hb => h b (List.mem_cons_of_mem _ hb)
    rw [List.mapM_cons, bind_of_eq_ok (h a List.mem_cons_self), bind_of_eq_ok hrest]
    rfl

theorem restoring_eq_ok {restore : Context → Context} :
    restoring x restore p c = .ok a c' ↔ ∃ c₁, x p c = .ok a c₁ ∧ c' = restore c₁ := by
  unfold restoring
  cases x p c with
  | ok b c₁ =>
    refine ⟨fun h => ?_, ?_⟩
    · cases h
      exact ⟨c₁, rfl, rfl⟩
    · rintro ⟨c₂, h, rfl⟩
      cases h
      rfl
  | error stop c₁ => exact ⟨nofun, fun ⟨_, h, _⟩ => nomatch h⟩

/-- An action in another environment. -/
theorem within_eq_ok {subst : Substitution} {space : List String} :
    within subst space x p c = .ok a c' ↔ ∃ c₁,
      x p { c with subst, space, function := none } = .ok a c₁ ∧
        c' = { c₁ with subst := c.subst, space := c.space, function := c.function } := by
  unfold within
  rw [bind_of_eq_ok (get_apply p c), bind_of_eq_ok (set_apply _ p c)]
  exact restoring_eq_ok

theorem instantiating_eq_ok {subst : Substitution} {space : List String} {location : Location}
    (h : instantiating subst space location x p c = .ok a c') : ∃ ended : Context,
      x p { c with
        subst, space, function := none, instantiationDepth := c.instantiationDepth + 1 } = .ok a ended ∧
      c' = c.afterInstance ended := by
  unfold instantiating at h
  rw [bind_of_eq_ok (get_apply p c)] at h
  obtain ⟨-, h⟩ := guard_passes h
  rw [bind_of_eq_ok (set_apply _ p c)] at h
  obtain ⟨c₁, hwithin, rfl⟩ := restoring_eq_ok.mp h
  obtain ⟨ended, hrun, rfl⟩ := within_eq_ok.mp hwithin
  exact ⟨ended, hrun, rfl⟩

theorem mapM_of_forall₂ {f : α → CompileM β} {l : List α} {l' : List β}
    (h : List.Forall₂ (fun a b => f a p c = .ok b c) l l') : l.mapM f p c = .ok l' c := by
  induction h with
  | nil => rfl
  | cons hfirst _ ih =>
    rw [List.mapM_cons, bind_of_eq_ok hfirst, bind_of_eq_ok ih]
    rfl

theorem filterMapM_apply {f : α → CompileM (Option β)} {g : α → Option β} {l : List α}
    (h : ∀ a ∈ l, f a p c = .ok (g a) c) : l.filterMapM f p c = .ok (l.filterMap g) c := by
  induction l with
  | nil => rfl
  | cons a rest ih =>
    have hrest := ih fun b hb => h b (List.mem_cons_of_mem _ hb)
    rw [List.filterMapM_cons, bind_of_eq_ok (h a List.mem_cons_self)]
    cases hga : g a with
    | none => simpa [hga] using hrest
    | some b =>
      simp only [List.filterMap_cons, hga]
      rw [bind_of_eq_ok hrest]
      rfl

end Results
end CompileM

/-- A job that succeeds has been worked on. -/
theorem work_of_performWithin {d : Nat} {job : Job} {c c' : Context} {r : job.Result}
    (h : performWithin d job c = .ok r c') :
    ∃ d', job.work (performWithin d') c = .ok r c' := by
  cases d with
  | zero => cases h
  | succ d => exact ⟨d, h⟩

/-- The node with a number is of a kind. -/
def Tree.HasKind (t : Tree) (id : NodeId) (kind : NodeKind) : Prop :=
  ∃ span, t.node? id = some ⟨kind, span⟩

namespace CompileM

variable {p : Performer} {c : Context} {id : NodeId} {kind : NodeKind}

theorem nodeAt_apply {node : Node} (h : c.tree.node? id = some node) :
    nodeAt id p c = .ok node c := by
  unfold nodeAt
  rw [bind_of_eq_ok (get_apply p c), h]
  rfl

/-- Reading the place and the kind of a node. -/
theorem locate_kindOf (h : c.tree.HasKind id kind) : ∃ location, ∀ {α : Type}
    (f : Location → NodeKind → CompileM α) (p : Performer),
    (do
      let location ← locate id
      f location (← kindOf id)) p c = f location kind p c := by
  obtain ⟨span, hnode⟩ := h
  refine ⟨c.tree.locate span, fun f p => ?_⟩
  have hspan : spanOf id p c = .ok span c := by
    unfold spanOf
    rw [bind_of_eq_ok (nodeAt_apply hnode)]
    rfl
  have hlocate : locate id p c = .ok (c.tree.locate span) c := by
    unfold locate
    rw [bind_of_eq_ok hspan]
    rfl
  have hkind : kindOf id p c = .ok kind c := by
    unfold kindOf
    rw [bind_of_eq_ok (nodeAt_apply hnode)]
    rfl
  rw [bind_of_eq_ok hlocate, bind_of_eq_ok hkind]

theorem kindOf_apply (h : c.tree.HasKind id kind) : kindOf id p c = .ok kind c := by
  obtain ⟨span, hnode⟩ := h
  unfold kindOf
  rw [bind_of_eq_ok (nodeAt_apply hnode)]
  rfl

theorem kindOf_eq_ok {c' : Context} (h : kindOf id p c = .ok kind c') :
    c' = c ∧ c.tree.HasKind id kind := by
  unfold kindOf nodeAt at h
  obtain ⟨node, c₁, hnode, h⟩ := bind_eq_ok.mp h
  rw [bind_of_eq_ok (get_apply p c)] at hnode
  cases hid : c.tree.node? id with
  | none =>
    rw [hid] at hnode
    cases hnode
  | some n =>
    rw [hid] at hnode
    cases hnode
    cases h
    exact ⟨rfl, _, hid⟩

theorem beginCheck_apply (h : c.stateOf id = .unchecked) :
    beginCheck id p c = .ok true { c with states := c.states.insert id .checked } := by
  unfold beginCheck
  rw [bind_of_eq_ok (get_apply p c), h]
  rfl

theorem beginEmit_apply (h : c.stateOf id ≠ .emitted) :
    beginEmit id p c = .ok true { c with states := c.states.insert id .emitted } := by
  unfold beginEmit
  rw [bind_of_eq_ok (get_apply p c), if_neg h]
  rfl

theorem beginEmit_of_emitted (h : c.stateOf id = .emitted) : beginEmit id p c = .ok false c := by
  unfold beginEmit
  rw [bind_of_eq_ok (get_apply p c), if_pos h]
  rfl

theorem state_of_nodeAt {node : Node} {c' : Context} (h : nodeAt id p c = .ok node c') : c' = c := by
  unfold nodeAt at h
  rw [bind_of_eq_ok (get_apply p c)] at h
  cases hnode : c.tree.node? id with
  | none =>
    rw [hnode] at h
    cases h
  | some n =>
    rw [hnode] at h
    cases h
    rfl

/-- Reading the place of a node changes nothing. -/
theorem state_of_locate {location : Location} {c' : Context} (h : locate id p c = .ok location c') :
    c' = c := by
  unfold locate spanOf at h
  obtain ⟨span, c₁, hspan, h⟩ := bind_eq_ok.mp h
  cases h
  obtain ⟨node, c₂, hnode, h⟩ := bind_eq_ok.mp hspan
  cases h
  exact state_of_nodeAt hnode

end CompileM

/-- The context with the function under emission gone on to a builder and a scope. -/
def Context.advance (c : Context) (b : FunctionBuilder) (scope : Scope) : Context :=
  { c with function := c.function.map fun f => { f with builder := b, scope } }

namespace Context

variable {c : Context} {F : FunctionState}

@[simp] theorem advance_advance (c : Context) (b b' : FunctionBuilder) (s s' : Scope) :
    (c.advance b s).advance b' s' = c.advance b' s' := by
  simp [advance, Option.map_map, Function.comp_def]

theorem advance_self (h : c.function = some F) : c.advance F.builder F.scope = c := by
  cases c
  simp_all [advance]

theorem function_advance (h : c.function = some F) (b : FunctionBuilder) (s : Scope) :
    (c.advance b s).function = some { F with builder := b, scope := s } := by
  simp [advance, h]

@[simp] theorem tree_advance (c : Context) (b : FunctionBuilder) (s : Scope) :
    (c.advance b s).tree = c.tree := rfl

end Context

namespace CompileM

variable {p : Performer} {c : Context} {F : FunctionState}

theorem functionState_apply (h : c.function = some F) : functionState p c = .ok F c := by
  unfold functionState
  rw [bind_of_eq_ok (get_apply p c), h]
  rfl

theorem functionState_eq_ok {c' : Context} (h : functionState p c = .ok F c') :
    c' = c ∧ c.function = some F := by
  unfold functionState at h
  rw [bind_of_eq_ok (get_apply p c)] at h
  cases hF : c.function with
  | none =>
    rw [hF] at h
    cases h
  | some G =>
    rw [hF] at h
    cases h
    exact ⟨rfl, rfl⟩

theorem setFunctionState_apply (f : FunctionState) (p : Performer) (c : Context) :
    setFunctionState f p c = .ok () { c with function := some f } := rfl

theorem build_apply (h : c.function = some F) {α : Type} (action : BuildM α) :
    build action p c = .ok (action.run F.builder).1 (c.advance (action.run F.builder).2 F.scope) := by
  unfold build
  rw [bind_of_eq_ok (functionState_apply h)]
  rcases hrun : action.run F.builder with ⟨a, builder⟩
  simp only
  rw [bind_of_eq_ok (setFunctionState_apply _ p c)]
  simp [Context.advance, h]

/-- The machine type of a number. -/
theorem lower_scalar (k : Scalar) (location : Location) :
    lower (.scalar k) location p c = .ok k.machineType c := by
  unfold lower
  rw [bind_of_eq_ok (get_apply p c)]
  rfl

/-- The function under emission goes to the end of the program. -/
theorem finishFunction_spec {F : FunctionState} {c' : Context} (hF : c.function = some F)
    (h : finishFunction p c = .ok () c') :
    c' = { c with function := none, program := c.program.addFunction F.builder.finish } := by
  unfold finishFunction at h
  rw [bind_of_eq_ok (functionState_apply hF), bind_of_eq_ok (modify_apply _ p c),
    bind_of_eq_ok (get_apply p _)] at h
  cases hverify : F.builder.finish.verify c.program with
  | ok _ =>
    rw [hverify] at h
    cases h
    rfl
  | error defect =>
    rw [hverify] at h
    cases h

theorem lower_eq_ok {type : SourceType} {machine : IrType} {location : Location} {c' : Context}
    (h : lower type location p c = .ok machine c') : c' = c ∧ c.symbols.lower type = .ok machine :=
  orBail_eq_ok h

end CompileM
end UnitCompiler
