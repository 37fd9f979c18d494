import Mathlib.Logic.Relation
import UnitCompiler.Proofs.Phases.Emitting

/-!
# The declarations that the phases come to

Both phases walk from the roots through namespaces, blocks and the branches of conditions, and both fold
the conditions that they meet.  Between the two a name may get another meaning, and then they part.  They
come to the same declarations where each name of a condition keeps what is entered under its spellings.
-/

namespace UnitCompiler

namespace Phase

/-- What a phase does with a declaration. -/
def visit : Phase → NodeId → CompileM Unit
  | .check, id => CompileM.perform (.checkNode id)
  | .emit, id => CompileM.perform (.emitDeclaration id)

def visitAll (phase : Phase) (items : List NodeId) : CompileM Unit := items.forM phase.visit

/-- Whether a phase goes into a namespace or a condition.  Checking does so once. -/
def enter : Phase → NodeId → CompileM Bool
  | .check, id => CompileM.beginCheck id
  | .emit, _ => pure true

/-- What a phase does before it comes to the roots. -/
def prepare (roots : List NodeId) : Phase → CompileM Unit
  | .check => roots.forM fun root => CompileM.perform (.collect root [])
  | .emit => CompileM.perform .emitPending

end Phase

/-- A declaration that a phase comes to, and how deep its jobs may nest there. -/
structure Visit where
  depth : Nat
  id : NodeId
  context : Context

namespace Visit

/-- The work on the declaration succeeds. -/
def Ends (phase : Phase) (v : Visit) (c : Context) : Prop :=
  phase.visit v.id (performWithin v.depth) v.context = .ok () c

/-- The branch of a condition that a phase takes. -/
def Takes (phase : Phase) (v : Visit) (branch : Option NodeId) (c : Context) : Prop :=
  ∃ depth cond yes no c₀, v.depth = depth + 1 ∧ v.context.tree.HasKind v.id (.staticIf cond yes no) ∧
    phase.enter v.id (performWithin depth) v.context = .ok true c₀ ∧
    CompileM.staticBranch cond yes no (performWithin depth) c₀ = .ok branch c

/-- From a declaration a phase comes to one inside, behind those before it. -/
inductive Steps (phase : Phase) : Visit → Visit → Prop
  | block {depth id c items before item after c₁} (hkind : c.tree.HasKind id (.block items))
      (hitems : items = before ++ item :: after)
      (hbefore : phase.visitAll before (performWithin depth) c = .ok () c₁) :
      Steps phase ⟨depth + 1, id, c⟩ ⟨depth, item, c₁⟩
  | space {depth id c name items c₀ before item after c₁} (hkind : c.tree.HasKind id (.space name items))
      (henter : phase.enter id (performWithin depth) c = .ok true c₀)
      (hitems : items = before ++ item :: after)
      (hbefore : phase.visitAll before (performWithin depth) { c₀ with space := c₀.space ++ [name] } =
        .ok () c₁) :
      Steps phase ⟨depth + 1, id, c⟩ ⟨depth, item, c₁⟩
  | branch {depth id c branch c₁} (htakes : Takes phase ⟨depth + 1, id, c⟩ (some branch) c₁) :
      Steps phase ⟨depth + 1, id, c⟩ ⟨depth, branch, c₁⟩

/-- The same declaration, equally deep and in the same namespace. -/
structure Matches (v w : Visit) : Prop where
  depth : v.depth = w.depth
  id : v.id = w.id
  space : v.context.space = w.context.space

end Visit

namespace Context

/-- A phase comes to a root. -/
def Starts (c : Context) (phase : Phase) (roots : List NodeId) (v : Visit) : Prop :=
  ∃ before after c₀, roots = before ++ v.id :: after ∧ v.depth = c.jobDepth ∧
    phase.prepare roots (performWithin c.jobDepth) { c with phase } = .ok () c₀ ∧
    phase.visitAll before (performWithin c.jobDepth) c₀ = .ok () v.context

/-- A phase comes to a declaration. -/
def Visits (c : Context) (phase : Phase) (roots : List NodeId) (v : Visit) : Prop :=
  ∃ root, c.Starts phase roots root ∧ Relation.ReflTransGen (Visit.Steps phase) root v

/-- A phase comes to all the roots and succeeds there. -/
def Walks (c : Context) (phase : Phase) (roots : List NodeId) (c₁ : Context) : Prop :=
  ∃ c₀, phase.prepare roots (performWithin c.jobDepth) { c with phase } = .ok () c₀ ∧
    phase.visitAll roots (performWithin c.jobDepth) c₀ = .ok () c₁

end Context

/-! ### Later contexts -/

namespace Context.Later

variable {c c' : Context}

theorem atSpace (h : c.Later c') : { c with space := c'.space }.Later c' := by
  have hsame : { c with space := c'.space } = c := by
    rw [h.space]
  rwa [hsame]

theorem inSpace (h : c.Later c') (space : List String) : { c with space }.Later { c' with space } :=
  { h with
    space := rfl
    sound := fun hc =>
      have hc' := h.sound ⟨hc.keys, hc.names⟩
      ⟨hc'.keys, hc'.names⟩ }

end Context.Later

namespace Phase

variable {phase : Phase} {p : Performer} {depth : Nat} {id : NodeId} {items : List NodeId}
  {c c' c₀ : Context}

theorem later_of_visit (hc : c.phase = phase) (h : phase.visit id (performWithin depth) c = .ok () c') :
    c.Later c' := by
  cases phase with
  | check => exact (Checks.performWithin depth id c hc).of_ok h
  | emit => exact ((Leads.performWithin depth).job (.emitDeclaration id) rfl c).of_ok h

theorem later_of_visitAll (hc : c.phase = phase)
    (h : phase.visitAll items (performWithin depth) c = .ok () c') : c.Later c' := by
  induction items generalizing c with
  | nil =>
    cases h
    exact .refl _
  | cons item rest ih =>
    obtain ⟨_, c₁, hitem, hrest⟩ := CompileM.bind_eq_ok.mp h
    have hlater := later_of_visit hc hitem
    exact hlater.trans (ih (hlater.phase.trans hc) hrest)

theorem later_of_enter (h : phase.enter id p c = .ok true c₀) :
    c.Later c₀ ∧ ∃ states, c₀ = { c with states } := by
  cases phase with
  | check =>
    change CompileM.beginCheck id p c = _ at h
    unfold CompileM.beginCheck at h
    rw [CompileM.bind_of_eq_ok (CompileM.get_apply p c)] at h
    split at h
    · cases h
    · rename_i hnew
      cases h
      refine ⟨.setState ?_, _, rfl⟩
      rw [not_not.mp hnew]
      exact Nat.zero_le _
  | emit =>
    cases h
    exact ⟨.refl _, _, rfl⟩

theorem enter_check_ne (h : c.stateOf id = .unchecked) : check.enter id p c ≠ .ok false c' := by
  intro hrun
  change CompileM.beginCheck id p c = _ at hrun
  unfold CompileM.beginCheck at hrun
  rw [CompileM.bind_of_eq_ok (CompileM.get_apply p c), if_neg (not_not_intro h)] at hrun
  cases hrun

theorem later_of_prepare {roots : List NodeId}
    (h : phase.prepare roots (performWithin depth) c = .ok () c') : c.Later c' := by
  have := Leads.performWithin depth
  cases phase with
  | check => exact EndsIn.of_ok (Leads.run (.forM fun root => .job (.collect root []) rfl) c) h
  | emit => exact (Leads.job (p := performWithin depth) .emitPending rfl c).of_ok h

/-- A list of declarations is visited one after another. -/
theorem visitAll_append {before after : List NodeId} {item : NodeId} :
    phase.visitAll (before ++ item :: after) p c = .ok () c' ↔ ∃ c₁ c₂,
      phase.visitAll before p c = .ok () c₁ ∧ phase.visit item p c₁ = .ok () c₂ ∧
        phase.visitAll after p c₂ = .ok () c' := by
  induction before generalizing c with
  | nil =>
    constructor
    · intro h
      obtain ⟨_, c₁, hitem, hafter⟩ := CompileM.bind_eq_ok.mp h
      exact ⟨c, c₁, rfl, hitem, hafter⟩
    · rintro ⟨c₁, c₂, ⟨⟩, hitem, hafter⟩
      exact CompileM.bind_eq_ok.mpr ⟨(), c₂, hitem, hafter⟩
  | cons first before ih =>
    constructor
    · intro h
      obtain ⟨_, c₀, hfirst, hrest⟩ := CompileM.bind_eq_ok.mp h
      obtain ⟨c₁, c₂, hbefore, hitem, hafter⟩ := ih.mp hrest
      exact ⟨c₁, c₂, CompileM.bind_eq_ok.mpr ⟨(), c₀, hfirst, hbefore⟩, hitem, hafter⟩
    · rintro ⟨c₁, c₂, hfirst, hitem, hafter⟩
      obtain ⟨_, c₀, hfirst, hbefore⟩ := CompileM.bind_eq_ok.mp hfirst
      exact CompileM.bind_eq_ok.mpr ⟨(), c₀, hfirst, ih.mpr ⟨c₁, c₂, hbefore, hitem, hafter⟩⟩

theorem ends_of_visitAll {before after : List NodeId} {item : NodeId} {c₁ : Context}
    (hc : c.phase = phase) (hbefore : phase.visitAll before (performWithin depth) c = .ok () c₁)
    (hall : phase.visitAll (before ++ item :: after) (performWithin depth) c = .ok () c') :
    ∃ c₂, phase.visit item (performWithin depth) c₁ = .ok () c₂ ∧ c₂.tree.Begins c'.tree := by
  obtain ⟨c₁', c₂, hbefore', hitem, hafter⟩ := visitAll_append.mp hall
  cases hbefore.symm.trans hbefore'
  have hlater := (later_of_visitAll hc hbefore).trans
    (later_of_visit ((later_of_visitAll hc hbefore).phase.trans hc) hitem)
  exact ⟨c₂, hitem, (later_of_visitAll (hlater.phase.trans hc) hafter).tree⟩

/-- Where one phase comes to an item of a list, the other does so too, in the same namespace. -/
theorem follow_visitAll {phase' : Phase} {before after : List NodeId} {item : NodeId}
    {c₁ e e' : Context} (hc : c.phase = phase) (he : e.phase = phase') (hspace : c.space = e.space)
    (hbefore : phase.visitAll before (performWithin depth) c = .ok () c₁)
    (hall : phase'.visitAll (before ++ item :: after) (performWithin depth) e = .ok () e') :
    ∃ e₁, phase'.visitAll before (performWithin depth) e = .ok () e₁ ∧ c₁.space = e₁.space := by
  obtain ⟨e₁, e₂, hbefore', -, -⟩ := visitAll_append.mp hall
  refine ⟨e₁, hbefore', ?_⟩
  rw [(later_of_visitAll hc hbefore).space, hspace, (later_of_visitAll he hbefore').space]

end Phase

/-! ### The work on a declaration -/

namespace Visit

variable {phase : Phase} {depth : Nat} {id : NodeId} {c c' : Context}

theorem hasKind_of_ends {v : Visit} (h : v.Ends phase c') :
    ∃ kind, v.context.tree.HasKind v.id kind := by
  obtain ⟨depth, id, c⟩ := v
  cases depth with
  | zero => cases phase <;> cases h
  | succ depth =>
    cases phase with
    | check =>
      change CompileM.checkNode id _ c = _ at h
      unfold CompileM.checkNode at h
      exact CompileM.hasKind_of_ok h
    | emit =>
      change CompileM.emitDeclaration id _ c = _ at h
      unfold CompileM.emitDeclaration at h
      exact CompileM.hasKind_of_ok h

theorem ends_block {items : List NodeId} (hkind : c.tree.HasKind id (.block items))
    (h : Ends phase ⟨depth + 1, id, c⟩ c') :
    phase.visitAll items (performWithin depth) c = .ok () c' := by
  obtain ⟨location, hread⟩ := CompileM.locate_kindOf hkind
  cases phase with
  | check =>
    change CompileM.checkNode id _ c = _ at h
    unfold CompileM.checkNode at h
    rw [hread] at h
    exact h
  | emit =>
    change CompileM.emitDeclaration id _ c = _ at h
    unfold CompileM.emitDeclaration at h
    rw [hread] at h
    exact h

/-- A namespace is gone into unless it is left out. -/
theorem ends_space {name : String} {items : List NodeId} (hkind : c.tree.HasKind id (.space name items))
    (h : Ends phase ⟨depth + 1, id, c⟩ c') :
    ∃ isNew c₀, phase.enter id (performWithin depth) c = .ok isNew c₀ ∧ (isNew = true →
      CompileM.inSpace name (phase.visitAll items) (performWithin depth) c₀ = .ok () c') := by
  obtain ⟨location, hread⟩ := CompileM.locate_kindOf hkind
  cases phase with
  | check =>
    change CompileM.checkNode id _ c = _ at h
    unfold CompileM.checkNode at h
    rw [hread] at h
    obtain ⟨isNew, c₀, henter, h⟩ := CompileM.bind_eq_ok.mp h
    refine ⟨isNew, c₀, henter, ?_⟩
    rintro rfl
    rw [if_pos rfl] at h
    unfold CompileM.checkSpace at h
    rw [CompileM.bind_of_eq_ok (CompileM.get_apply _ c₀)] at h
    dsimp only at h
    split at h
    · cases h
    · exact h
  | emit =>
    change CompileM.emitDeclaration id _ c = _ at h
    unfold CompileM.emitDeclaration at h
    rw [hread] at h
    exact ⟨true, c, rfl, fun _ => h⟩

/-- The condition is folded and its branch is visited, unless it is left out. -/
theorem ends_staticIf {cond yes : NodeId} {no : Option NodeId}
    (hkind : c.tree.HasKind id (.staticIf cond yes no)) (h : Ends phase ⟨depth + 1, id, c⟩ c') :
    ∃ isNew c₀, phase.enter id (performWithin depth) c = .ok isNew c₀ ∧ (isNew = true →
      ∃ branch c₁, CompileM.staticBranch cond yes no (performWithin depth) c₀ = .ok branch c₁ ∧
        ∀ b ∈ branch, phase.visit b (performWithin depth) c₁ = .ok () c') := by
  obtain ⟨location, hread⟩ := CompileM.locate_kindOf hkind
  cases phase with
  | check =>
    change CompileM.checkNode id _ c = _ at h
    unfold CompileM.checkNode at h
    rw [hread] at h
    obtain ⟨isNew, c₀, henter, h⟩ := CompileM.bind_eq_ok.mp h
    refine ⟨isNew, c₀, henter, ?_⟩
    rintro rfl
    rw [if_pos rfl] at h
    obtain ⟨branch, c₁, hbranch, h⟩ := CompileM.bind_eq_ok.mp h
    refine ⟨branch, c₁, hbranch, ?_⟩
    rintro b ⟨⟩
    exact h
  | emit =>
    change CompileM.emitDeclaration id _ c = _ at h
    unfold CompileM.emitDeclaration at h
    rw [hread] at h
    obtain ⟨branch, c₁, hbranch, h⟩ := CompileM.bind_eq_ok.mp h
    refine ⟨true, c, rfl, fun _ => ⟨branch, c₁, hbranch, ?_⟩⟩
    rintro b ⟨⟩
    exact h

/-! ### Steps of a walk -/

theorem Takes.later {v : Visit} {branch : Option NodeId} (h : v.Takes phase branch c) :
    v.context.Later c := by
  obtain ⟨depth, cond, yes, no, c₀, -, -, henter, hbranch⟩ := h
  have := Leads.performWithin depth
  obtain ⟨hlater, -⟩ := Phase.later_of_enter henter
  exact hlater.trans (EndsIn.of_ok (Leads.run (.staticBranch cond yes no) c₀) hbranch)

/-- A step leads to a later context but for the namespace. -/
theorem Steps.later {v v' : Visit} (h : Steps phase v v') (hv : v.context.phase = phase) :
    { v.context with space := v'.context.space }.Later v'.context := by
  cases h with
  | block hkind hitems hbefore => exact (Phase.later_of_visitAll hv hbefore).atSpace
  | @space depth id c name items c₀ before item after c₁ hkind henter hitems hbefore =>
    obtain ⟨hlater, -⟩ := Phase.later_of_enter henter
    have hafter := Phase.later_of_visitAll (by exact hlater.phase.trans hv) hbefore
    exact (hlater.inSpace c₁.space).trans hafter.atSpace
  | branch htakes => exact htakes.later.atSpace

/-- Where the work on a declaration succeeds, it succeeds on the ones inside. -/
theorem Steps.ends {v v' : Visit} (h : Steps phase v v') (hv : v.context.phase = phase)
    (hends : v.Ends phase c) : ∃ c', v'.Ends phase c' ∧ c'.tree.Begins c.tree := by
  cases h with
  | block hkind hitems hbefore =>
    have hall := ends_block hkind hends
    rw [hitems] at hall
    exact Phase.ends_of_visitAll hv hbefore hall
  | space hkind henter hitems hbefore =>
    obtain ⟨isNew, c₀, henter', hspace⟩ := ends_space hkind hends
    cases henter.symm.trans henter'
    obtain ⟨c₃, hall, rfl⟩ := CompileM.inSpace_eq_ok.mp (hspace rfl)
    rw [hitems] at hall
    obtain ⟨hlater, -⟩ := Phase.later_of_enter henter
    obtain ⟨c', hitem, htree⟩ :=
      Phase.ends_of_visitAll (by exact hlater.phase.trans hv) hbefore hall
    exact ⟨c', hitem, htree⟩
  | branch htakes =>
    obtain ⟨depth, cond, yes, no, c₀, hdepth, hkind, henter, hbranch⟩ := htakes
    cases hdepth
    obtain ⟨isNew, c₀', henter', htaken⟩ := ends_staticIf hkind hends
    cases henter.symm.trans henter'
    obtain ⟨branch, c₁, hbranch', hvisit⟩ := htaken rfl
    cases hbranch.symm.trans hbranch'
    exact ⟨c, hvisit _ rfl, .refl _⟩

/-- A step of one phase is one of the other too, where this succeeds, goes in and takes the same
branch. -/
theorem Steps.follow {phase' : Phase} {v v' w : Visit} (h : Steps phase v v')
    (hv : v.context.phase = phase) (hw : w.context.phase = phase') (hmatches : v.Matches w)
    (hkinds : ∀ kind, v.context.tree.HasKind v.id kind → w.context.tree.HasKind w.id kind)
    (hnew : ∀ kind, w.context.tree.HasKind w.id kind → kind.isGroup = true →
      ∀ p c, phase'.enter w.id p w.context ≠ .ok false c)
    (hbranches : ∀ b b' x y, v.Takes phase b x → w.Takes phase' b' y → b' = b)
    (hends : w.Ends phase' c) : ∃ w', Steps phase' w w' ∧ v'.Matches w' := by
  obtain ⟨depth, id, e⟩ := w
  obtain ⟨hdepth, hid, hspace⟩ := hmatches
  cases h with
  | @block depth id c₀ items before item after c₁ hkind hitems hbefore =>
    cases hdepth
    cases hid
    have hall := ends_block (hkinds _ hkind) hends
    rw [hitems] at hall
    obtain ⟨e₁, hbefore', hspace'⟩ := Phase.follow_visitAll hv hw hspace hbefore hall
    exact ⟨⟨depth, item, e₁⟩, .block (hkinds _ hkind) hitems hbefore', rfl, rfl, hspace'⟩
  | @space depth id c name items c₀ before item after c₁ hkind henter hitems hbefore =>
    cases hdepth
    cases hid
    have hkind' := hkinds _ hkind
    obtain ⟨isNew, e₀, henter', hrest⟩ := ends_space hkind' hends
    cases isNew with
    | false => exact absurd henter' (hnew _ hkind' rfl _ _)
    | true =>
      obtain ⟨e₃, hall, rfl⟩ := CompileM.inSpace_eq_ok.mp (hrest rfl)
      rw [hitems] at hall
      obtain ⟨hlater, -⟩ := Phase.later_of_enter henter
      obtain ⟨hlater', -⟩ := Phase.later_of_enter henter'
      have hinner : c₀.space ++ [name] = e₀.space ++ [name] := by
        rw [hlater.space, hlater'.space]
        exact congrArg (· ++ [name]) hspace
      obtain ⟨e₁, hbefore', hspace'⟩ := Phase.follow_visitAll (by exact hlater.phase.trans hv)
        (by exact hlater'.phase.trans hw) hinner hbefore hall
      exact ⟨⟨depth, item, e₁⟩, .space hkind' henter' hitems hbefore', rfl, rfl, hspace'⟩
  | @branch depth id c branch c₁ htakes =>
    cases hdepth
    cases hid
    have ⟨depth', cond, yes, no, c₀, hdepth, hkind, _⟩ := htakes
    cases hdepth
    have hkind' := hkinds _ hkind
    obtain ⟨isNew, e₀, henter', hrest⟩ := ends_staticIf hkind' hends
    cases isNew with
    | false => exact absurd henter' (hnew _ hkind' rfl _ _)
    | true =>
      obtain ⟨branch', e₁, hbranch', -⟩ := hrest rfl
      have htakes' : Takes phase' ⟨depth + 1, id, e⟩ branch' e₁ :=
        ⟨depth, cond, yes, no, e₀, rfl, hkind', henter', hbranch'⟩
      cases hbranches _ _ _ _ htakes htakes'
      refine ⟨⟨depth, branch, e₁⟩, .branch htakes', rfl, rfl, ?_⟩
      exact (htakes.later.space.trans hspace).trans htakes'.later.space.symm

/-- Only groups hold other declarations. -/
theorem not_steps_of_single {v v' : Visit} {kind : NodeKind} (hkind : v.context.tree.HasKind v.id kind)
    (hsingle : kind.isGroup = false) : ¬ Steps phase v v' := by
  intro h
  cases h with
  | block hkind' =>
    cases hkind.eq hkind'
    cases hsingle
  | space hkind' =>
    cases hkind.eq hkind'
    cases hsingle
  | branch htakes =>
    obtain ⟨depth, cond, yes, no, c₀, hdepth, hkind', -⟩ := htakes
    cases hkind.eq hkind'
    cases hsingle

theorem Matches.symm {v w : Visit} (h : v.Matches w) : w.Matches v :=
  ⟨h.depth.symm, h.id.symm, h.space.symm⟩

/-- A declaration that checking comes to: a namespace or a condition for the first time, and a condition
that asks for no type, and for no name under whose spellings anything is entered until `later`. -/
structure Foreseen (v : Visit) (later : Context) : Prop where
  new : ∀ kind, v.context.tree.HasKind v.id kind → kind.isGroup = true →
    v.context.stateOf v.id = .unchecked
  steady : ∀ cond yes no, v.context.tree.HasKind v.id (.staticIf cond yes no) →
    v.context.tree.TypeFree cond ∧
      ∀ name, v.context.tree.Mentions cond name → v.context.Retains later name

theorem Foreseen.of_single {v : Visit} {later : Context} {kind : NodeKind}
    (hkind : v.context.tree.HasKind v.id kind) (hsingle : kind.isGroup = false) : v.Foreseen later where
  new kind' hkind' hgroup := by
    rw [hkind'.eq hkind, hsingle] at hgroup
    cases hgroup
  steady cond yes no hcond := by
    cases hkind.eq hcond
    cases hsingle

end Visit

/-! ### Whole walks -/

namespace Context

variable {phase : Phase} {roots : List NodeId} {c c₁ : Context} {v w : Visit}

theorem later_of_starts (h : c.Starts phase roots v) : { c with phase }.Later v.context := by
  obtain ⟨before, after, c₀, -, -, hprepare, hbefore⟩ := h
  have hlater := Phase.later_of_prepare hprepare
  exact hlater.trans (Phase.later_of_visitAll hlater.phase hbefore)

/-- What a phase comes to, it comes to in a later context but for the namespace. -/
theorem later_of_visits (h : c.Visits phase roots v) :
    { c with phase, space := v.context.space }.Later v.context := by
  obtain ⟨root, hroot, hsteps⟩ := h
  induction hsteps with
  | refl => exact (later_of_starts hroot).atSpace
  | tail _ hstep ih => exact (ih.inSpace _).trans (hstep.later ih.phase)

theorem hasKind_of_visits (h : c.Visits phase roots v) {id : NodeId} {kind : NodeKind} (hid : v.id = id)
    (hkind : c.tree.HasKind id kind) : v.context.tree.HasKind v.id kind :=
  hid ▸ (later_of_visits h).tree.hasKind hkind

theorem later_of_walks (h : c.Walks phase roots c₁) : { c with phase }.Later c₁ := by
  obtain ⟨c₀, hprepare, hall⟩ := h
  have hlater := Phase.later_of_prepare hprepare
  exact hlater.trans (Phase.later_of_visitAll hlater.phase hall)

/-- Where a walk succeeds, the work succeeds on everything that it comes to. -/
theorem ends_of_visits (hwalk : c.Walks phase roots c₁) (h : c.Visits phase roots v) :
    ∃ c', v.Ends phase c' ∧ c'.tree.Begins c₁.tree := by
  obtain ⟨root, hroot, hsteps⟩ := h
  induction hsteps with
  | refl =>
    obtain ⟨before, after, c₀, rfl, hdepth, hprepare, hbefore⟩ := hroot
    obtain ⟨c₀', hprepare', hall⟩ := hwalk
    cases hprepare.symm.trans hprepare'
    have hlater := Phase.later_of_prepare hprepare
    obtain ⟨c', hends, htree⟩ := Phase.ends_of_visitAll hlater.phase hbefore hall
    refine ⟨c', ?_, htree⟩
    rw [← hdepth] at hends
    exact hends
  | tail hsteps hstep ih =>
    obtain ⟨c', hends, htree⟩ := ih
    obtain ⟨c'', hends', htree'⟩ := hstep.ends (later_of_visits ⟨root, hroot, hsteps⟩).phase hends
    exact ⟨c'', hends', htree'.trans htree⟩

theorem walks_of_check (h : c.check roots = .ok () c₁) : c.Walks .check roots c₁ := by
  obtain ⟨_, c₀, hprepare, hall⟩ := CompileM.bind_eq_ok.mp h
  exact ⟨c₀, hprepare, hall⟩

theorem walks_of_emit {c₂ : Context} (h : c₁.emit roots = .ok () c₂) :
    ∃ c₂', c₁.Walks .emit roots c₂' := by
  obtain ⟨_, c₀, hprepare, h⟩ := CompileM.bind_eq_ok.mp h
  obtain ⟨_, c₂', hall, -⟩ := CompileM.bind_eq_ok.mp h
  exact ⟨c₂', c₀, hprepare, hall⟩

/-- A phase that succeeds comes to the roots that the other one comes to. -/
theorem exists_starts {phase' : Phase} {e e₁ : Context} (hspace : c.space = e.space)
    (hdepth : c.jobDepth = e.jobDepth) (hwalk : e.Walks phase' roots e₁)
    (h : c.Starts phase roots v) : ∃ w, e.Starts phase' roots w ∧ v.Matches w := by
  obtain ⟨before, after, c₀, rfl, hv, hprepare, hbefore⟩ := h
  obtain ⟨e₀, hprepare', hall⟩ := hwalk
  have hlater := Phase.later_of_prepare hprepare
  have hlater' := Phase.later_of_prepare hprepare'
  have hspace₀ : c₀.space = e₀.space := by
    rw [hlater.space, hlater'.space]
    exact hspace
  rw [hdepth] at hbefore
  obtain ⟨w, hbefore', hspace'⟩ :=
    Phase.follow_visitAll hlater.phase hlater'.phase hspace₀ hbefore hall
  exact ⟨⟨e.jobDepth, v.id, w⟩, ⟨before, after, e₀, rfl, rfl, hprepare', hbefore'⟩,
    hv.trans hdepth, rfl, hspace'⟩

section Agreement

variable (hfunction : c.function = none) (hcheck : c.check roots = .ok () c₁)

include hcheck

/-- What emission comes to has the nodes that checking found. -/
theorem begins_of_visits (hv : c.Visits .check roots v) (hw : c₁.Visits .emit roots w) :
    v.context.tree.Begins w.context.tree := by
  obtain ⟨c', hends, htree⟩ := ends_of_visits (walks_of_check hcheck) hv
  have hlater := Phase.later_of_visit (later_of_visits hv).phase hends
  exact (hlater.tree.trans htree).trans (later_of_visits hw).tree

include hfunction

/-- A condition that keeps its meaning takes the same branch in both phases. -/
theorem branch_eq (hv : c.Visits .check roots v) (hw : c₁.Visits .emit roots w) (hmatches : v.Matches w)
    (hforeseen : v.Foreseen c₁) {b b' : Option NodeId} {x y : Context} (htakes : v.Takes .check b x)
    (htakes' : w.Takes .emit b' y) : b' = b := by
  obtain ⟨depth, cond, yes, no, c₀, hdepth, hkind, henter, hbranch⟩ := htakes
  obtain ⟨depth', cond', yes', no', e₀, hdepth', hkind', henter', hbranch'⟩ := htakes'
  cases henter'
  obtain ⟨rfl⟩ : depth = depth' := by
    have := hmatches.depth
    omega
  have hbegins := begins_of_visits hcheck hv hw
  have hlater := later_of_walks (walks_of_check hcheck)
  have hlater₁ := later_of_visits hv
  have hlater₂ := later_of_visits hw
  cases (hmatches.id ▸ hbegins.hasKind hkind).eq hkind'
  obtain ⟨-, states, rfl⟩ := Phase.later_of_enter henter
  obtain ⟨hfree, hkeeps⟩ := hforeseen.steady cond yes no hkind
  have halike : Alike v.context.tree cond { v.context with states } w.context := by
    refine ⟨.refl _, hbegins, fun name hname => ?_⟩
    have hspelled : Retains { v.context with states } w.context name := by
      intro candidate hcandidate
      rw [hlater₂.aliases rfl, hlater₂.globals rfl]
      exact hkeeps name hname candidate hcandidate
    apply hspelled.constant?
    · exact (hlater₂.outside (hlater.outside hfunction)).trans (hlater₁.outside hfunction).symm
    · exact hlater₂.subst.trans (hlater.subst.trans hlater₁.subst.symm)
    · exact hmatches.space.symm
  obtain ⟨-, hagain⟩ := Reads.staticBranch hfree depth yes no _ _ b x halike hbranch
  cases hagain.symm.trans hbranch'
  rfl

/-- Emission comes to nothing but what checking came to. -/
theorem exists_checked (hforeseen : ∀ v, c.Visits .check roots v → v.Foreseen c₁)
    (h : c₁.Visits .emit roots w) : ∃ v, c.Visits .check roots v ∧ v.Matches w := by
  have hlater := later_of_walks (walks_of_check hcheck)
  obtain ⟨root, hroot, hsteps⟩ := h
  induction hsteps with
  | refl =>
    obtain ⟨v, hv, hmatches⟩ :=
      exists_starts hlater.space hlater.jobDepth (walks_of_check hcheck) hroot
    exact ⟨v, ⟨v, hv, .refl⟩, hmatches.symm⟩
  | @tail w w' hsteps hstep ih =>
    have hw : c₁.Visits .emit roots w := ⟨root, hroot, hsteps⟩
    obtain ⟨v, hv, hmatches⟩ := ih
    obtain ⟨c', hends, -⟩ := ends_of_visits (walks_of_check hcheck) hv
    have hkinds (kind : NodeKind) (hkind : w.context.tree.HasKind w.id kind) :
        v.context.tree.HasKind v.id kind := by
      obtain ⟨kind', hkind'⟩ := Visit.hasKind_of_ends hends
      cases (hmatches.id ▸ (begins_of_visits hcheck hv hw).hasKind hkind').eq hkind
      exact hkind'
    have hnew (kind : NodeKind) (hkind : v.context.tree.HasKind v.id kind) (hgroup : kind.isGroup = true)
        (p : Performer) (c' : Context) : Phase.check.enter v.id p v.context ≠ .ok false c' :=
      Phase.enter_check_ne ((hforeseen v hv).new kind hkind hgroup)
    obtain ⟨v', hstep', hmatches'⟩ := hstep.follow (later_of_visits hw).phase (later_of_visits hv).phase
      hmatches.symm hkinds hnew
      (fun b b' x y hb hb' => (branch_eq hfunction hcheck hv hw hmatches (hforeseen v hv) hb' hb).symm)
      hends
    obtain ⟨root', hroot', hsteps'⟩ := hv
    exact ⟨v', ⟨root', hroot', hsteps'.tail hstep'⟩, hmatches'.symm⟩

/-- Emission that succeeds comes to all that checking came to. -/
theorem exists_emitted {c₂ : Context} (hemit : c₁.emit roots = .ok () c₂)
    (hforeseen : ∀ v, c.Visits .check roots v → v.Foreseen c₁) (h : c.Visits .check roots v) :
    ∃ w, c₁.Visits .emit roots w ∧ v.Matches w := by
  have hlater := later_of_walks (walks_of_check hcheck)
  obtain ⟨c₂', hwalk⟩ := walks_of_emit hemit
  obtain ⟨root, hroot, hsteps⟩ := h
  induction hsteps with
  | refl =>
    obtain ⟨w, hw, hmatches⟩ := exists_starts hlater.space.symm hlater.jobDepth.symm hwalk hroot
    exact ⟨w, ⟨w, hw, .refl⟩, hmatches⟩
  | @tail v v' hsteps hstep ih =>
    have hv : c.Visits .check roots v := ⟨root, hroot, hsteps⟩
    obtain ⟨w, hw, hmatches⟩ := ih
    obtain ⟨c', hends, -⟩ := ends_of_visits hwalk hw
    have hkinds (kind : NodeKind) (hkind : v.context.tree.HasKind v.id kind) :
        w.context.tree.HasKind w.id kind :=
      hmatches.id ▸ (begins_of_visits hcheck hv hw).hasKind hkind
    obtain ⟨w', hstep', hmatches'⟩ := hstep.follow (later_of_visits hv).phase (later_of_visits hw).phase
      hmatches hkinds (fun _ _ _ _ _ => nofun)
      (fun b b' x y hb hb' => branch_eq hfunction hcheck hv hw hmatches (hforeseen v hv) hb hb') hends
    obtain ⟨root', hroot', hsteps'⟩ := hw
    exact ⟨w', ⟨root', hroot', hsteps'.tail hstep'⟩, hmatches'⟩

end Agreement

/-- Emission comes to nothing but what checking came to, and to all of it where it succeeds, and a
condition takes the same branch in both phases. -/
structure Agree (c c₁ : Context) (roots : List NodeId) : Prop where
  checked : ∀ w, c₁.Visits .emit roots w → ∃ v, c.Visits .check roots v ∧ v.Matches w
  emitted : ∀ c₂, c₁.emit roots = .ok () c₂ → ∀ v, c.Visits .check roots v →
    ∃ w, c₁.Visits .emit roots w ∧ v.Matches w
  branches : ∀ v w, c.Visits .check roots v → c₁.Visits .emit roots w → v.Matches w →
    ∀ b b' x y, v.Takes .check b x → w.Takes .emit b' y → b' = b

/-- Outside of functions both phases come to the same declarations, where no condition asks for a type
and nothing is entered later under a spelling of a name in a condition. -/
theorem agree_of_foreseen (hfunction : c.function = none) (hcheck : c.check roots = .ok () c₁)
    (hforeseen : ∀ v, c.Visits .check roots v → v.Foreseen c₁) : c.Agree c₁ roots where
  checked _ := exists_checked hfunction hcheck hforeseen
  emitted _ hemit _ := exists_emitted hfunction hcheck hemit hforeseen
  branches v _ hv hw hmatches _ _ _ _ := branch_eq hfunction hcheck hv hw hmatches (hforeseen v hv)

end Context

/-- Checking comes to the condition when it has entered the constant. -/
def Context.atCondition : Context :=
  { new .underCondition {} with
    symbols := { globals := ⟨[("N::limit",
      { decl := ⟨1⟩, name := "N::limit", linkName := LinkName.global "N::limit", type := .scalar .int
        isConst := true, value := some (.int 3 .int) })]⟩ }
    states := (Table.insert {} ⟨8⟩ .checked).insert ⟨1⟩ .checked
    space := ["N"] }

theorem Context.starts_underCondition {v : Visit}
    (h : (new .underCondition {}).Starts .check [⟨8⟩] v) :
    ∃ depth, v = ⟨depth + 5, ⟨8⟩, new .underCondition {}⟩ := by
  obtain ⟨before, after, c₀, hroots, hdepth, hprepare, hbefore⟩ := h
  obtain ⟨depth, id, c⟩ := v
  cases before with
  | nil =>
    cases hroots
    cases hprepare
    cases hbefore
    exact ⟨_, congrArg (Visit.mk · _ _) (hdepth.trans rfl)⟩
  | cons first before => cases before <;> cases hroots

/-- Inside the namespace checking comes to the constant, and then to the condition. -/
theorem Context.steps_underCondition {depth : Nat} {v : Visit}
    (h : Visit.Steps .check ⟨depth + 5, ⟨8⟩, new .underCondition {}⟩ v) :
    v.id = ⟨1⟩ ∨ v.id = ⟨7⟩ ∧ v.context = atCondition := by
  have hspace : Tree.underCondition.HasKind ⟨8⟩ (.space "N" [⟨1⟩, ⟨7⟩]) := ⟨_, rfl⟩
  cases h with
  | block hkind => cases hspace.eq hkind
  | @space _ _ _ _ _ c₀ before item after c₁ hkind henter hitems hbefore =>
    cases hspace.eq hkind
    cases (rfl : Phase.check.enter ⟨8⟩ (performWithin (depth + 4)) (new .underCondition {}) =
      .ok true { new .underCondition {} with states := Table.insert {} ⟨8⟩ .checked }).symm.trans henter
    cases before with
    | nil =>
      cases hitems
      exact .inl rfl
    | cons first before =>
      cases before with
      | nil =>
        cases hitems
        cases hbefore
        exact .inr ⟨rfl, rfl⟩
      | cons second before => cases before <;> cases hitems
  | branch htakes =>
    obtain ⟨depth, cond, yes, no, c₀, -, hkind, -⟩ := htakes
    cases hspace.eq hkind

theorem Context.visits_underCondition {v : Visit}
    (h : (new .underCondition {}).Visits .check [⟨8⟩] v) :
    (∃ depth, v = ⟨depth + 5, ⟨8⟩, new .underCondition {}⟩) ∨ v.id = ⟨1⟩ ∨ v.id = ⟨6⟩ ∨
      v.id = ⟨7⟩ ∧ v.context = atCondition := by
  have hbranch : Tree.underCondition.HasKind ⟨7⟩ (.staticIf ⟨4⟩ ⟨6⟩ none) := ⟨_, rfl⟩
  obtain ⟨root, hroot, hsteps⟩ := h
  induction hsteps with
  | refl => exact .inl (starts_underCondition hroot)
  | @tail v v' hsteps hstep ih =>
    have hv : (new .underCondition {}).Visits .check [⟨8⟩] v := ⟨root, hroot, hsteps⟩
    right
    rcases ih with ⟨depth, rfl⟩ | hid | hid | ⟨hid, hcontext⟩
    · exact (steps_underCondition hstep).imp_right .inr
    · exact absurd hstep (Visit.not_steps_of_single (hasKind_of_visits hv hid ⟨_, rfl⟩) rfl)
    · exact absurd hstep (Visit.not_steps_of_single (hasKind_of_visits hv hid ⟨_, rfl⟩) rfl)
    · right
      left
      obtain ⟨depth, id, c⟩ := v
      cases hid
      cases hcontext
      cases hstep with
      | block hkind => cases hbranch.eq hkind
      | space hkind => cases hbranch.eq hkind
      | branch htakes =>
        obtain ⟨depth, cond, yes, no, c₀, -, hkind, -, htaken⟩ := htakes
        cases hbranch.eq hkind
        rcases CompileM.branch_of_staticBranch htaken with rfl | hnone
        · rfl
        · cases hnone

/-- In the namespace the phases come to the constant, and to the function under the condition on it. -/
theorem Context.agree_underCondition : ∃ c₁, (new .underCondition {}).check [⟨8⟩] = .ok () c₁ ∧
    (∃ v x, (new .underCondition {}).Visits .check [⟨8⟩] v ∧ v.Takes .check (some ⟨6⟩) x) ∧
    (new .underCondition {}).Agree c₁ [⟨8⟩] := by
  obtain ⟨c₁, hcheck, haliases, hglobals⟩ : ∃ c₁, (new .underCondition {}).check [⟨8⟩] = .ok () c₁ ∧
      c₁.symbols.aliases = atCondition.symbols.aliases ∧
      c₁.symbols.globals = atCondition.symbols.globals := ⟨_, rfl, rfl, rfl⟩
  have hspace : Tree.underCondition.HasKind ⟨8⟩ (.space "N" [⟨1⟩, ⟨7⟩]) := ⟨_, rfl⟩
  have hbranch : Tree.underCondition.HasKind ⟨7⟩ (.staticIf ⟨4⟩ ⟨6⟩ none) := ⟨_, rfl⟩
  have hcond : Tree.underCondition.TypeFree ⟨4⟩ :=
    .binary ⟨_, rfl⟩ (.atom ⟨_, rfl⟩ rfl) (.atom ⟨_, rfl⟩ rfl)
  refine ⟨c₁, hcheck, ?_, agree_of_foreseen rfl hcheck fun v hv => ?_⟩
  · obtain ⟨depth, hdepth⟩ : ∃ depth, depth + 5 = (new .underCondition {}).jobDepth := ⟨_, rfl⟩
    have hstep : Visit.Steps .check ⟨depth + 5, ⟨8⟩, new .underCondition {}⟩
        ⟨depth + 4, ⟨7⟩, atCondition⟩ :=
      .space hspace rfl (show ([⟨1⟩, ⟨7⟩] : List NodeId) = [⟨1⟩] ++ ⟨7⟩ :: [] from rfl) rfl
    have htakes : Visit.Takes .check ⟨depth + 4, ⟨7⟩, atCondition⟩ (some ⟨6⟩)
        { atCondition with states := atCondition.states.insert ⟨7⟩ .checked } :=
      ⟨depth + 3, _, _, _, _, rfl, hbranch, rfl, rfl⟩
    exact ⟨_, _, ⟨_, ⟨[], [], _, rfl, hdepth, rfl, rfl⟩, .single hstep⟩, htakes⟩
  · rcases visits_underCondition hv with ⟨depth, rfl⟩ | hid | hid | ⟨hid, hcontext⟩
    · exact ⟨fun _ _ _ => rfl, fun cond yes no hkind => by cases hspace.eq hkind⟩
    · exact .of_single (hasKind_of_visits hv hid ⟨_, rfl⟩) rfl
    · exact .of_single (hasKind_of_visits hv hid ⟨_, rfl⟩) rfl
    · obtain ⟨depth, id, c⟩ := v
      cases hid
      cases hcontext
      constructor
      · intro kind hkind hgroup
        rfl
      · intro cond yes no hkind
        cases hbranch.eq hkind
        refine ⟨hcond, fun name _ candidate _ => ?_⟩
        rw [haliases, hglobals]
        exact ⟨rfl, rfl⟩

end UnitCompiler
