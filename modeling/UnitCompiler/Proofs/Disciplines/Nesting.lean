import UnitCompiler.Proofs.Disciplines.Confinement

/-!
# Nested blocks

Every block counts as long as its statements are emitted, and an instance is emitted in the middle of the
blocks of the function that asks for it.  So much room as the functions of a unit need for their own blocks
is needed once more on every level of instances, and no more than that.
-/

namespace UnitCompiler

/-! ### Blocks in a tree -/

namespace Tree

/-- No path from the node downwards has more than `depth` blocks. -/
inductive NestsAt (t : Tree) : Nat → NodeId → Prop
  | block {depth : Nat} {id : NodeId} {items : List NodeId} : t.HasKind id (.block items) →
    (∀ item ∈ items, NestsAt t depth item) → NestsAt t (depth + 1) id
  | other {depth : Nat} {id : NodeId} {kind : NodeKind} : t.HasKind id kind →
    (∀ items, kind ≠ .block items) → (∀ child ∈ kind.children, NestsAt t depth child) →
    NestsAt t depth id

/-- No function of the tree nests its blocks deeper than `k`. -/
def NestsWithin (t : Tree) (k : Nat) : Prop :=
  ∀ id decl, t.HasKind id (.function decl) → t.NestsAt k id

variable {t t' : Tree} {k depth : Nat} {id : NodeId}

theorem NestsAt.begins (h : t.NestsAt depth id) (hbegins : t.Begins t') : t'.NestsAt depth id := by
  induction h with
  | block hkind _ ih => exact .block (hbegins.hasKind hkind) ih
  | other hkind hother _ ih => exact .other (hbegins.hasKind hkind) hother ih

theorem NestsWithin.body (h : t.NestsWithin k) {decl : FunctionDecl} (hkind : t.HasKind id (.function decl))
    {body : NodeId} (hbody : decl.body = some body) : t.NestsAt k body := by
  cases h id decl hkind with
  | block hkind' _ => cases hkind.eq hkind'
  | other hkind' _ hchildren =>
    cases hkind.eq hkind'
    exact hchildren body (by simp [NodeKind.children, hbody])

/-! ### Changed and copied nodes -/

theorem HasKind.modifyKind {kind : NodeKind} (h : t.HasKind id kind) (x : NodeId)
    (g : NodeKind → NodeKind) : (t.modifyKind x g).HasKind id (if x = id then g kind else kind) := by
  obtain ⟨span, hnode⟩ := h
  refine ⟨span, ?_⟩
  rw [node?_modifyKind, hnode]
  split_ifs <;> rfl

theorem HasKind.of_modifyKind {kind : NodeKind} {x : NodeId} {g : NodeKind → NodeKind}
    (h : (t.modifyKind x g).HasKind id kind) :
    ∃ old, t.HasKind id old ∧ kind = if x = id then g old else old := by
  obtain ⟨span, hnode⟩ := h
  rw [node?_modifyKind] at hnode
  split_ifs at hnode ⊢
  · obtain ⟨⟨old, span'⟩, hold, heq⟩ := Option.map_eq_some_iff.mp hnode
    cases heq
    exact ⟨old, ⟨span', hold⟩, rfl⟩
  · exact ⟨kind, ⟨span, hnode⟩, rfl⟩

section Relabelled

variable {g : NodeKind → NodeKind} (hg : NodeKind.Relabels g) (x : NodeId)
include hg

theorem NestsAt.modifyKind (h : t.NestsAt depth id) : (t.modifyKind x g).NestsAt depth id := by
  induction h with
  | @block _ id items hkind _ ih =>
    have hkind' := hkind.modifyKind x g
    rw [hg.block.mpr rfl, ite_self] at hkind'
    exact .block hkind' ih
  | @other _ id kind hkind hother _ ih =>
    refine .other (hkind.modifyKind x g) (fun items => ?_) ?_
    · split_ifs
      · exact mt hg.block.mp (hother items)
      · exact hother items
    · split_ifs
      · rwa [hg.children]
      · exact ih

theorem NestsWithin.modifyKind (h : t.NestsWithin k) : (t.modifyKind x g).NestsWithin k := by
  intro id decl hkind
  obtain ⟨old, hold, heq⟩ := hkind.of_modifyKind
  split_ifs at heq
  · obtain ⟨decl', rfl⟩ := hg.function heq.symm
    exact (h id decl' hold).modifyKind hg x
  · subst heq
    exact (h id decl hold).modifyKind hg x

end Relabelled

/-- A node that is of the same kind as another one, with children that are nested alike. -/
theorem NestsAt.of_blank {kind kind' : NodeKind} {copy : NodeId} (h : t.NestsAt depth id)
    (hkind : t.HasKind id kind) (hcopy : t'.HasKind copy kind') (hblank : kind'.blank = kind.blank)
    (hchildren : ∀ {depth}, (∀ child ∈ kind.children, t.NestsAt depth child) →
      ∀ child ∈ kind'.children, t'.NestsAt depth child) : t'.NestsAt depth copy := by
  cases h with
  | block hkind' hitems =>
    cases hkind.eq hkind'
    obtain ⟨items, rfl⟩ := NodeKind.of_blank_block hblank
    exact .block hcopy (hchildren hitems)
  | other hkind' hother hbelow =>
    cases hkind.eq hkind'
    refine .other hcopy (fun items heq => ?_) (hchildren hbelow)
    subst heq
    obtain ⟨items', heq⟩ := NodeKind.of_blank_block hblank.symm
    exact hother items' heq

theorem NestsWithin.push (h : t.NestsWithin k) {kind : NodeKind} {span : Span}
    (hnew : ∀ decl, kind = .function decl → (t.push kind span).2.NestsAt k ⟨t.size⟩) :
    (t.push kind span).2.NestsWithin k := by
  rintro id decl ⟨span', hnode⟩
  rw [node?_push] at hnode
  split_ifs at hnode with hid
  · cases hnode
    rw [show id = ⟨t.size⟩ from congrArg NodeId.mk hid]
    exact hnew decl rfl
  · exact (h id decl ⟨span', hnode⟩).begins (.push t kind span)

/-- A copier that adds functions only like the ones that are there, and copies nested as deep as what they
are copies of. -/
def CopiesNested (k : Nat) (f : NodeId → StateT Tree (Except CopyError) NodeId) : Prop :=
  ∀ {t t' id copy}, t.NestsWithin k → (f id).run t = .ok (copy, t') →
    t'.NestsWithin k ∧ ∀ {depth}, t.NestsAt depth id → t'.NestsAt depth copy

theorem CopiesNested.mapM {f : NodeId → StateT Tree (Except CopyError) NodeId} (hf : CopiesNested k f)
    (hadds : ∀ id, Adds (f id)) {ids copies : List NodeId} (hk : t.NestsWithin k)
    (h : (ids.mapM f).run t = .ok (copies, t')) :
    t'.NestsWithin k ∧
      ∀ {depth}, (∀ id ∈ ids, t.NestsAt depth id) → ∀ copy ∈ copies, t'.NestsAt depth copy := by
  induction ids generalizing t copies with
  | nil =>
    cases h
    exact ⟨hk, fun _ => nofun⟩
  | cons id rest ih =>
    rw [List.mapM_cons] at h
    obtain ⟨copy, t₁, hfirst, h⟩ := run_bind_eq_ok.mp h
    obtain ⟨others, t₂, hrest, h⟩ := run_bind_eq_ok.mp h
    cases h
    obtain ⟨hk₁, hcopy⟩ := hf hk hfirst
    obtain ⟨hk₂, hothers⟩ := ih hk₁ hrest
    have hbegins₁ : t.Begins t₁ := hadds id _ _ _ hfirst
    have hbegins₂ : t₁.Begins t' := Adds.mapM hadds _ _ _ hrest
    refine ⟨hk₂, fun {depth} hids => ?_⟩
    obtain ⟨hid, hrest⟩ := List.forall_mem_cons.mp hids
    exact List.forall_mem_cons.mpr
      ⟨(hcopy hid).begins hbegins₂, hothers fun other hother => (hrest other hother).begins hbegins₁⟩

theorem copiesNested_copyWithin (k fuel : Nat) : CopiesNested k (copyWithin fuel) := by
  induction fuel with
  | zero => nofun
  | succ fuel ih =>
    intro t t' id copy hk h
    cases hnode : t.node? id with
    | none =>
      rw [copyWithin_of_none hnode] at h
      cases h
    | some node =>
      rw [copyWithin_of_some hnode] at h
      obtain ⟨kind, t₁, hrun, h⟩ := run_bind_eq_ok.mp h
      obtain ⟨hchildren, hblank⟩ := run_children hrun
      obtain ⟨hk₁, hnests⟩ := ih.mapM (Adds.copyWithin fuel) hk hchildren
      have hkind : t.HasKind id node.kind := ⟨node.span, hnode⟩
      have hcopied : (t₁.push kind node.span).2.HasKind ⟨t₁.size⟩ kind :=
        ⟨node.span, by rw [node?_push, if_pos rfl]⟩
      have hcopy {depth : Nat} (hid : t.NestsAt depth id) :
          (t₁.push kind node.span).2.NestsAt depth ⟨t₁.size⟩ :=
        hid.of_blank hkind hcopied hblank fun hbelow child hchild =>
          (hnests hbelow child hchild).begins (.push t₁ kind node.span)
      have hpushed : (t₁.push kind node.span).2.NestsWithin k := by
        refine hk₁.push fun decl hdecl => hcopy ?_
        subst hdecl
        obtain ⟨decl', hdecl⟩ := NodeKind.of_blank_function hblank.symm
        rw [hdecl] at hkind
        exact hk id decl' hkind
      cases h
      exact ⟨hpushed, hcopy⟩

theorem NestsWithin.copySubtree (h : t.NestsWithin k) {copy : NodeId}
    (hcopy : t.copySubtree id = .ok (copy, t')) : t'.NestsWithin k :=
  (copiesNested_copyWithin k _ h hcopy).1

end Tree

/-! ### Room for blocks -/

namespace Context

/-- What work leaves alone, however it ends. -/
structure KeptIn (k : Nat) (c c' : Context) : Prop where
  options : c'.options = c.options
  phase : c'.phase = c.phase
  instances : c'.instantiationDepth = c.instantiationDepth
  begins : c.tree.Begins c'.tree
  nests : c'.tree.NestsWithin k

/-- There is room for `room` blocks, and for `k` more on every further level of instances up to the `n`-th. -/
def Affords (k n room : Nat) (c : Context) : Prop :=
  c.instantiationDepth ≤ n →
    c.nestingDepth + room + k * (n - c.instantiationDepth) ≤ c.options.maxNestingDepth

variable {k n room : Nat} {c c' c'' : Context}

theorem KeptIn.refl (h : c.tree.NestsWithin k) : c.KeptIn k c := ⟨rfl, rfl, rfl, .refl _, h⟩

theorem KeptIn.trans (h : c.KeptIn k c') (h' : c'.KeptIn k c'') : c.KeptIn k c'' where
  options := h'.options.trans h.options
  phase := h'.phase.trans h.phase
  instances := h'.instances.trans h.instances
  begins := h.begins.trans h'.begins
  nests := h'.nests

theorem Affords.mono {room' : Nat} (h : c.Affords k n room) (hle : room' ≤ room) : c.Affords k n room' :=
  fun hn => (Nat.add_le_add_right (Nat.add_le_add_left hle _) _).trans (h hn)

theorem Affords.of_kept (h : c.Affords k n room) (hkept : c.KeptIn k c')
    (hnesting : c'.nestingDepth = c.nestingDepth) : c'.Affords k n room := by
  unfold Affords at h ⊢
  rwa [hkept.options, hkept.instances, hnesting]

/-- On the next level of instances there is the room of that level besides. -/
theorem Affords.nextLevel (h : c.Affords k n room) {room' : Nat} (hle : room' ≤ room + k) :
    Affords k n room' { c with instantiationDepth := c.instantiationDepth + 1 } := by
  intro hn
  have hn' : c.instantiationDepth + 1 ≤ n := hn
  have hroom := h (Nat.le_of_succ_le hn')
  have hlevels : n - c.instantiationDepth = n - (c.instantiationDepth + 1) + 1 := by omega
  rw [hlevels, Nat.mul_succ] at hroom
  change c.nestingDepth + room' + k * (n - (c.instantiationDepth + 1)) ≤ c.options.maxNestingDepth
  omega

end Context

/-- A run that ends well has closed the blocks that it opened.  While checking it opens none. -/
def ClosesBlocks (c : Context) {α : Type} : EStateM.Result Stop Context α → Prop
  | .ok _ c' => c'.nestingDepth = c.nestingDepth
  | .error _ c' => c.phase = .check → c'.nestingDepth = c.nestingDepth

/-- In one phase, and where functions nest their blocks within `k`: a run closes its blocks, and with enough
room it does not depend on how the second performer does jobs for which there is none. -/
def NestedAt (phase : Phase) (k n : Nat) (p q : Performer) (t : Tree) (room : Nat) {α : Type}
    (x : CompileM α) (c : Context) : Prop :=
  c.phase = phase → t.Begins c.tree → c.tree.NestsWithin k →
    c.KeptIn k (finalContext (x p c)) ∧ ClosesBlocks c (x p c) ∧ (c.Affords k n room → x p c = x q c)

namespace NestedAt

variable {phase : Phase} {k n room room' : Nat} {p q : Performer} {t : Tree} {α β : Type} {x : CompileM α}
  {f : α → CompileM β} {c c₁ : Context}

/-- Steps that do not call for jobs. -/
theorem of_eq {r : EStateM.Result Stop Context α} (h : ∀ p, x p c = r)
    (hkept : c.tree.NestsWithin k → c.KeptIn k (finalContext r)) (hcloses : ClosesBlocks c r) :
    NestedAt phase k n p q t room x c := by
  intro _ _ hk
  rw [h p, h q]
  exact ⟨hkept hk, hcloses, fun _ => rfl⟩

theorem bind (hx : NestedAt phase k n p q t room x c) (hf : ∀ a c', NestedAt phase k n p q t room (f a) c') :
    NestedAt phase k n p q t room (x >>= f) c := by
  intro hphase ht hk
  obtain ⟨hkept, hcloses, heq⟩ := hx hphase ht hk
  cases hrun : x p c with
  | ok a c' =>
    rw [hrun] at hkept hcloses heq
    rw [CompileM.bind_of_eq_ok hrun]
    obtain ⟨hkept', hcloses', heq'⟩ :=
      hf a c' (hkept.phase.trans hphase) (ht.trans hkept.begins) hkept.nests
    refine ⟨hkept.trans hkept', ?_, fun hroom => ?_⟩
    · cases hend : f a p c' with
      | ok b c'' =>
        rw [hend] at hcloses'
        exact Eq.trans hcloses' hcloses
      | error e c'' =>
        rw [hend] at hcloses'
        exact fun hcheck => (hcloses' (hkept.phase.trans hcheck)).trans hcloses
    · rw [CompileM.bind_of_eq_ok (heq hroom).symm]
      exact heq' (hroom.of_kept hkept hcloses)
  | error e c' =>
    rw [hrun] at hkept hcloses heq
    rw [CompileM.bind_of_eq_error hrun]
    refine ⟨hkept, hcloses, fun hroom => ?_⟩
    rw [CompileM.bind_of_eq_error (heq hroom).symm]

theorem write (h : c.Wrote c₁) : NestedAt phase k n p q t room (set c₁ : CompileM PUnit) c := by
  rw [h.same]
  exact of_eq (fun _ => rfl) (fun hk => ⟨rfl, rfl, rfl, .refl _, hk⟩) rfl

theorem mono (hx : NestedAt phase k n p q t room' x c) (hle : room' ≤ room) :
    NestedAt phase k n p q t room x c := by
  intro hphase ht hk
  obtain ⟨hkept, hcloses, heq⟩ := hx hphase ht hk
  exact ⟨hkept, hcloses, fun hroom => heq (hroom.mono hle)⟩

/-- Work that does not look at the nodes which are known. -/
theorem rebase (hx : NestedAt phase k n p q c.tree room x c) : NestedAt phase k n p q t room x c :=
  fun hphase _ hk => hx hphase (.refl _) hk

/-- Work in another environment, which is taken back. -/
theorem restoring {restore : Context → Context} (hx : NestedAt phase k n p q t room' x c₁)
    (hphase : c₁.phase = c.phase) (htree : c₁.tree = c.tree)
    (hnesting : c₁.nestingDepth = c.nestingDepth)
    (hroom : c.Affords k n room → c₁.Affords k n room')
    (hkept : ∀ c', c₁.KeptIn k c' → c.KeptIn k (restore c'))
    (hrestore : ∀ c', (restore c').nestingDepth = c'.nestingDepth) :
    c.phase = phase → t.Begins c.tree → c.tree.NestsWithin k →
      c.KeptIn k (finalContext (CompileM.restoring x restore p c₁)) ∧
      ClosesBlocks c (CompileM.restoring x restore p c₁) ∧
      (c.Affords k n room → CompileM.restoring x restore p c₁ = CompileM.restoring x restore q c₁) := by
  intro hc ht hk
  obtain ⟨hkept₁, hcloses, heq⟩ := hx (hphase.trans hc) (htree ▸ ht) (htree ▸ hk)
  unfold CompileM.restoring
  refine ⟨?_, ?_, fun h => by rw [heq (hroom h)]⟩
  · cases hrun : x p c₁ <;>
    · rw [hrun] at hkept₁
      exact hkept _ hkept₁
  · cases hrun : x p c₁ with
    | ok a c' =>
      rw [hrun] at hcloses
      exact (hrestore c').trans (Eq.trans hcloses hnesting)
    | error e c' =>
      rw [hrun] at hcloses
      exact fun hcheck => (hrestore c').trans ((hcloses (hphase.trans hcheck)).trans hnesting)

theorem within {subst : Substitution} {space : List String}
    (hx : NestedAt phase k n p q t room x { c with subst, space, function := none }) :
    NestedAt phase k n p q t room (CompileM.within subst space x) c :=
  restoring hx rfl rfl rfl id
    (fun _ h => ⟨h.options, h.phase, h.instances, h.begins, h.nests⟩) fun _ => rfl

theorem inSpace (hx : ∀ c, NestedAt phase k n p q t room x c) (name : String) :
    NestedAt phase k n p q t room (CompileM.inSpace name x) c :=
  restoring (hx { c with space := c.space ++ [name] }) rfl rfl rfl id
    (fun _ h => ⟨h.options, h.phase, h.instances, h.begins, h.nests⟩) fun _ => rfl

theorem instantiating (hx : ∀ c, NestedAt phase k n p q t room' x c) (subst : Substitution)
    (space : List String) (location : Location) (hle : room' ≤ room + k) (c : Context) :
    NestedAt phase k n p q t room (CompileM.instantiating subst space location x) c := by
  by_cases hlimit : c.options.maxInstantiationDepth ≤ c.instantiationDepth
  · exact of_eq (CompileM.instantiating_of_le hlimit) .refl fun _ => rfl
  · have hrun := CompileM.instantiating_of_lt subst space location x (Nat.lt_of_not_le hlimit)
    unfold NestedAt
    rw [hrun, hrun]
    refine restoring (within (hx _)) rfl rfl rfl (·.nextLevel hle) (fun c' h => ?_) fun _ => rfl
    refine ⟨h.options, h.phase, ?_, h.begins, h.nests⟩
    simp only [h.instances, Nat.add_sub_cancel]

theorem copySubtree (id : NodeId) (c : Context) :
    NestedAt phase k n p q t room (CompileM.copySubtree id) c := by
  obtain ⟨copy, tree, hcopy, hrun⟩ | ⟨stop, hrun⟩ := CompileM.copySubtree_cases id c
  · refine of_eq hrun (fun hk => ?_) rfl
    exact ⟨rfl, rfl, rfl, (Tree.begins_of_copySubtree hcopy).1, hk.copySubtree hcopy⟩
  · exact of_eq hrun .refl fun _ => rfl

/-- A copy that is relabelled at once. -/
theorem copySubtree_modifyKind (id : NodeId) {g : NodeKind → NodeKind} (hg : NodeKind.Relabels g)
    {f : NodeId → CompileM α} (hf : ∀ copy c, NestedAt phase k n p q t room (f copy) c) (c : Context) :
    NestedAt phase k n p q t room (do
      let copy ← CompileM.copySubtree id
      CompileM.modifyKind copy g
      f copy) c := by
  have hcopied : NestedAt phase k n p q t room (do
      let copy ← CompileM.copySubtree id
      CompileM.modifyKind copy g
      return copy) c := by
    obtain ⟨copy, tree, hcopy, hrun⟩ | ⟨stop, hrun⟩ := CompileM.copySubtree_cases id c
    · obtain ⟨hbegins, hbehind⟩ := Tree.begins_of_copySubtree hcopy
      exact of_eq (fun p => CompileM.bind_of_eq_ok (hrun p)) (fun hk => ⟨rfl, rfl, rfl,
        hbegins.modifyKind hbehind g, (hk.copySubtree hcopy).modifyKind hg copy⟩) rfl
    · exact of_eq (fun p => CompileM.bind_of_eq_error (hrun p)) .refl fun _ => rfl
  have hrest := hcopied.bind hf
  simpa only [bind_assoc, pure_bind] using hrest

/-- The statements of a block have the room of one block less. -/
theorem openBlock {x : CompileM PUnit} (hx : ∀ c, NestedAt .emit k n p q t room x c) :
    NestedAt .emit k n p q t (room + 1) (do
      set { c with nestingDepth := c.nestingDepth + 1 }
      x
      modify fun c => { c with nestingDepth := c.nestingDepth - 1 }) c := by
  intro hphase ht hk
  let opened : Context := { c with nestingDepth := c.nestingDepth + 1 }
  let block : CompileM PUnit := do
    set opened
    x
    modify fun c => { c with nestingDepth := c.nestingDepth - 1 }
  have hok {p : Performer} {c' : Context} (h : x p opened = .ok ⟨⟩ c') :
      block p c = .ok ⟨⟩ { c' with nestingDepth := c'.nestingDepth - 1 } :=
    CompileM.bind_of_eq_ok (x := x) h
  have herror {p : Performer} {stop : Stop} {c' : Context} (h : x p opened = .error stop c') :
      block p c = .error stop c' :=
    CompileM.bind_of_eq_error (x := x) h
  have hroom (h : c.Affords k n (room + 1)) : opened.Affords k n room := by
    intro hn
    have hle := h hn
    change c.nestingDepth + 1 + room + k * (n - c.instantiationDepth) ≤ c.options.maxNestingDepth
    change c.instantiationDepth ≤ n at hn
    omega
  obtain ⟨hkept, hcloses, heq⟩ := hx opened hphase ht hk
  change c.KeptIn k (finalContext (block p c)) ∧ ClosesBlocks c (block p c) ∧
    (_ → block p c = block q c)
  cases hrun : x p opened with
  | ok a c' =>
    rw [hrun] at hkept hcloses heq
    rw [hok hrun]
    refine ⟨⟨hkept.options, hkept.phase, hkept.instances, hkept.begins, hkept.nests⟩, ?_, fun h => ?_⟩
    · have hnesting : c'.nestingDepth = c.nestingDepth + 1 := hcloses
      exact Nat.sub_eq_of_eq_add hnesting
    · exact (hok (heq (hroom h)).symm).symm
  | error e c' =>
    rw [hrun] at hkept hcloses heq
    rw [herror hrun]
    refine ⟨⟨hkept.options, hkept.phase, hkept.instances, hkept.begins, hkept.nests⟩, fun hcheck => ?_,
      fun h => ?_⟩
    · cases hphase.symm.trans hcheck
    · exact (herror (heq (hroom h)).symm).symm

end NestedAt

/-- The runs in one phase that close their blocks and stay within the room that there is. -/
def nesting (phase : Phase) (k n : Nat) (p q : Performer) (t : Tree) (room : Nat) : Discipline where
  At x c := NestedAt phase k n p q t room x c
  pure _ _ := .of_eq (fun _ => rfl) .refl rfl
  throw _ _ := .of_eq (fun _ => rfl) .refl fun _ => rfl
  bind := .bind
  get_bind h := h
  write h _ := .write h.toWrote
  postpone _ _ _ := .of_eq (fun _ => rfl) (fun hk => ⟨rfl, rfl, rfl, .refl _, hk⟩) rfl
  declareAggregate _ := .of_eq (fun _ => rfl) (fun hk => ⟨rfl, rfl, rfl, .refl _, hk⟩) rfl
  copySubtree_modifyKind id _ hg hf c := .copySubtree_modifyKind id hg hf c
  within _ _ hx _ := .within (hx _)
  instantiating subst space location hx := .instantiating hx subst space location (Nat.le_add_right _ _)
  inSpace name hx _ := .inSpace hx name

/-! ### Jobs -/

/-- The job can be done in the phase, and has the room that it needs at least. -/
def Job.Fits (phase : Phase) (k : Nat) (t : Tree) (room : Nat) : Job → Prop
  | .emitStmt id => phase = .emit ∧ t.NestsAt room id
  | .emitDeclaration _ | .emitFunction _ | .emitAggregate _ | .emitPending => phase = .emit ∧ k ≤ room
  | .applyDefaults .. | .emitExpr _ | .emitPlace _ => phase = .emit
  | _ => True

/-- A way to do jobs that closes blocks, and does the jobs that fit without regard to the second performer. -/
class Performer.Nests (k n : Nat) (p q : Performer) : Prop where
  job : ∀ {phase t room} {job : Job}, job.Fits phase k t room →
    ∀ c, NestedAt phase k n p q t room (CompileM.perform job) c

section Jobs

open Discipline.Holds

variable {phase : Phase} {k n room : Nat} {p q : Performer} {t : Tree}

theorem nesting_modifySymbols (g : SymbolTables → SymbolTables) :
    (nesting phase k n p q t room).Holds (CompileM.modifySymbols g) :=
  fun _ => .of_eq (fun _ => rfl) (fun hk => ⟨rfl, rfl, rfl, .refl _, hk⟩) rfl

/-- An action that may begin a function. -/
theorem nesting_of_opens {α : Type} {x : CompileM α} (h : (nesting phase k n p q t room).Opens x) :
    (nesting phase k n p q t room).Holds x := by
  intro c
  induction h generalizing c with
  | before hx => exact hx c
  | bind hx _ ih => exact .bind (hx c) fun a c' => ih a c'
  | start f hx =>
    exact .bind (.of_eq (fun _ => rfl) (fun hk => ⟨rfl, rfl, rfl, .refl _, hk⟩) rfl) fun _ => hx

instance : (nesting phase k n p q t room).Defines where
  markEmitted _ _ := .of_eq (fun _ => rfl) (fun hk => ⟨rfl, rfl, rfl, .refl _, hk⟩) rfl
  addType _ _ := .of_eq (fun _ => rfl) (fun hk => ⟨rfl, rfl, rfl, .refl _, hk⟩) rfl

variable [Performer.Nests k n p q]

theorem nesting_job {job : Job} (h : job.Fits phase k t room) :
    (nesting phase k n p q t room).Holds (CompileM.perform job) :=
  Performer.Nests.job h

/-- An aggregate that is needed while emitting is emitted on a level of its own. -/
theorem nesting_ensureInstance (name : String) (args : List TemplateArg) (location : Location) :
    (nesting phase k n p q t room).Holds (CompileM.ensureInstance name args location) := by
  refine ensureInstance_of_makeAggregate fun subst space name site => ?_
  have hmake : (nesting phase k n p q t k).Holds (CompileM.makeAggregate name site) := by
    refine makeAggregate_of_jobs (fun _ => nesting_modifySymbols _) (fun copy => nesting_job trivial) (fun c hemit hphase => ?_) site
    cases hemit.symm.trans hphase
    have hfits : (Job.emitAggregate name).Fits .emit k t k := ⟨rfl, le_refl k⟩
    exact Performer.Nests.job hfits c hphase
  exact NestedAt.instantiating hmake subst space location (Nat.le_add_left _ _)

instance : (nesting phase k n p q t room).Resolves where
  resolve job hjob := nesting_job (by cases job <;> trivial)
  ensureInstance := nesting_ensureInstance

instance : (nesting phase k n p q t room).Registers where
  markChecked _ := .of_eq (fun _ => rfl) (fun hk => ⟨rfl, rfl, rfl, .refl _, hk⟩) rfl
  copySubtree id c := .copySubtree id c
  declareKey _ _ := nesting_modifySymbols _
  enterTemplate _ _ := nesting_modifySymbols _
  enterAggregateTemplate _ _ := nesting_modifySymbols _
  register _ _ _ _ c _ := register_of_addFunction
    (fun _ _ => enterOperator_of_modifySymbols fun _ => nesting_modifySymbols _)
    (fun _ _ => nesting_modifySymbols _) (nesting_modifySymbols _) c
  modifySymbols _ := nesting_modifySymbols _
  checkNode _ := nesting_job trivial

/-- Where there is the room of a function, every common job fits. -/
instance : (nesting .emit k n p q t k).Calls where
  job job hjob := nesting_job (by cases job <;> trivial)

instance : (nesting .emit k n p q t room).Writes where
  write h := .write h

instance : (nesting .emit k n p q t room).Evaluates where
  evaluate job hjob := nesting_job (by cases job <;> first | rfl | cases hjob)
  instantiateFunction name args location := by
    refine instantiateFunction_of_makeFunction (D := nesting .emit k n p q t room)
      fun subst space name site => ?_
    have hmake : (nesting .emit k n p q t k).Holds (CompileM.makeFunction name site location) :=
      makeFunction_of_enterInstance (fun _ _ => nesting_modifySymbols _) name site location
    exact NestedAt.instantiating hmake subst space location (Nat.le_add_left _ _)

omit [Performer.Nests k n p q] in
theorem nesting_emitBlock {items : List NodeId}
    (h : ∀ item ∈ items, (nesting .emit k n p q t room).Holds (CompileM.perform (.emitStmt item)))
    (location : Location) :
    (nesting .emit k n p q t (room + 1)).Holds (CompileM.emitBlock items location) := by
  refine fun c => (nesting .emit k n p q t (room + 1)).get_bind ?_
  split_ifs
  · exact bail location .blocksTooDeep c
  · have hitems : (nesting .emit k n p q t room).Holds (do
        CompileM.openScope
        CompileM.emitItems items
        CompileM.closeScope) :=
      openScope.bind fun _ => (emitItems h).bind fun _ => closeScope
    have hblock := NestedAt.openBlock (c := c) hitems
    simp only [bind_assoc] at hblock
    exact hblock

/-- A statement fits where there is room for the blocks below it. -/
theorem nesting_emitStmt {id : NodeId} (h : t.NestsAt room id) :
    (nesting .emit k n p q t room).Holds (CompileM.emitStmt id) := by
  intro c hphase ht hk
  have hstmt : (nesting .emit k n p q t room).At (CompileM.emitStmt id) c := by
    cases h with
    | block hkind hitems =>
      refine at_emitStmt (fun items hkind' location => ?_) fun kind hkind' hother => ?_
      · cases (ht.hasKind hkind).eq hkind'
        exact nesting_emitBlock (fun item hitem => nesting_job ⟨rfl, hitems item hitem⟩) location c
      · exact absurd (hkind'.eq (ht.hasKind hkind)) (hother _)
    | other hkind hother hchildren =>
      refine at_emitStmt (fun items hkind' => ?_) fun kind hkind' _ child hchild => ?_
      · exact absurd ((ht.hasKind hkind).eq hkind') (hother items)
      · cases (ht.hasKind hkind).eq hkind'
        exact nesting_job ⟨rfl, hchildren child hchild⟩
  exact hstmt hphase ht hk

/-- A function that is in the tree fits where there is room for its blocks. -/
theorem nesting_emitSymbol (f : FunctionSymbol) (c : Context) (hk : c.tree.NestsWithin k) :
    NestedAt .emit k n p q c.tree k (CompileM.emitSymbol f) c := by
  have hsymbol : (nesting .emit k n p q c.tree k).At (CompileM.emitSymbol f) c := by
    rw [CompileM.emitSymbol_eq]
    refine at_locate_kindOf fun location kind hkind => ?_
    cases kind with
    | function decl =>
      refine nesting_of_opens (Discipline.opens_emitDefinition (fun body hbody => ?_) location) c
      exact nesting_job ⟨rfl, hk.body hkind hbody⟩
    | _ => exact bail _ _ c
  exact hsymbol

theorem nesting_emitFunction (key : String) (hroom : k ≤ room) :
    (nesting .emit k n p q t room).Holds (CompileM.emitFunction key) := by
  refine Discipline.Holds.emitFunction (fun f c => ?_) key
  refine NestedAt.mono (.rebase fun hphase ht hk => ?_) hroom
  have hsymbol := nesting_emitSymbol (n := n) (p := p) (q := q) f
    { c with subst := f.subst, space := f.space, function := none } hk
  exact NestedAt.within hsymbol hphase ht hk

/-- Every job that fits stays within its room when the jobs that it calls for do. -/
theorem nesting_work {job : Job} (h : job.Fits phase k t room) :
    (nesting phase k n p q t room).Holds job.work := by
  cases job with
  | collect id space => exact collect id space
  | fold id => exact foldNode id
  | checkNode id => exact checkNode id
  | checkFunction id owner isInstance => exact checkFunction id owner isInstance
  | checkAggregate id instanceName => exact checkAggregate id instanceName
  | complete type location => exact complete type location
  | needsDefaults type location => exact needsDefaults type location
  | applyDefaults type slot skipped location =>
    obtain rfl : phase = .emit := h
    exact applyDefaults type slot skipped location
  | emitExpr id =>
    obtain rfl : phase = .emit := h
    exact emitExpr id
  | emitPlace id =>
    obtain rfl : phase = .emit := h
    exact emitPlace id
  | emitStmt id =>
    obtain ⟨rfl, hid⟩ := h
    exact nesting_emitStmt hid
  | emitFunction key =>
    obtain ⟨rfl, hroom⟩ := h
    exact nesting_emitFunction key hroom
  | emitDeclaration id =>
    obtain ⟨rfl, hroom⟩ := h
    exact fun c => .mono (emitDeclaration (D := nesting .emit k n p q t k) id c) hroom
  | emitAggregate name =>
    obtain ⟨rfl, hroom⟩ := h
    exact fun c => .mono (emitAggregate (D := nesting .emit k n p q t k) name c) hroom
  | emitPending =>
    obtain ⟨rfl, hroom⟩ := h
    exact fun c => .mono (emitPending_of_drain (D := nesting .emit k n p q t k)
      (fun _ => .of_eq (fun _ => rfl) (fun hk => ⟨rfl, rfl, rfl, .refl _, hk⟩) rfl) c) hroom

end Jobs

/-! ### Refused blocks -/

/-- The job is to emit a block, and no block may be emitted any more. -/
def Context.refuses (c : Context) : Job → Bool
  | .emitStmt id =>
    match c.tree.node? id with
    | some ⟨.block _, _⟩ => c.options.maxNestingDepth ≤ c.nestingDepth
    | _ => false
  | _ => false

theorem Context.not_refuses_of_fits {c : Context} {phase : Phase} {k n room : Nat} {t : Tree} {job : Job}
    (h : job.Fits phase k t room) (ht : t.Begins c.tree) (hroom : c.Affords k n room)
    (hn : c.instantiationDepth ≤ n) : c.refuses job = false := by
  cases job with
  | emitStmt id =>
    unfold refuses
    dsimp only
    split
    · rename_i items span hnode
      refine decide_eq_false fun hle => ?_
      have hle' := hroom hn
      cases h.2 with
      | block hkind hitems => omega
      | other hkind hother hchildren => exact hother items ((ht.hasKind hkind).eq ⟨span, hnode⟩)
    · rfl
  | _ => rfl

/-- Jobs done as usual, except that `alarm` takes over where a block is refused at most `n` levels of
instances deep. -/
def alarmed (n : Nat) (alarm : Performer) : Nat → Performer
  | 0, _ => throw .exhausted
  | depth + 1, job => fun c =>
    if c.instantiationDepth ≤ n ∧ c.refuses job = true then alarm job c
    else job.work (alarmed n alarm depth) c

theorem alarmed_succ (n : Nat) (alarm : Performer) (depth : Nat) (job : Job) (c : Context) :
    alarmed n alarm (depth + 1) job c =
      if c.instantiationDepth ≤ n ∧ c.refuses job = true then alarm job c
      else job.work (alarmed n alarm depth) c := rfl

instance (k n : Nat) (alarm : Performer) (depth : Nat) :
    Performer.Nests k n (performWithin depth) (alarmed n alarm depth) := by
  induction depth with
  | zero => exact ⟨fun _ _ _ _ hk => ⟨.refl hk, fun _ => rfl, fun _ => rfl⟩⟩
  | succ depth ih =>
    refine ⟨fun {phase t room job} hfits c hphase ht hk => ?_⟩
    obtain ⟨hkept, hcloses, heq⟩ :=
      nesting_work (n := n) (p := performWithin depth) (q := alarmed n alarm depth) hfits c hphase ht hk
    refine ⟨hkept, hcloses, fun hroom => (heq hroom).trans ?_⟩
    refine ((alarmed_succ n alarm depth job c).trans (if_neg fun halarm => ?_)).symm
    rw [Context.not_refuses_of_fits hfits ht hroom halarm.1] at halarm
    exact absurd halarm.2 Bool.false_ne_true

/-! ### Sessions -/

namespace Context

/-- The contexts of a session in which no emission has failed since the last reset, and whose functions nest
their blocks within `k`. -/
inductive IsSteady (k : Nat) : Context → Prop
  | new (tree : Tree) (options : CompileOptions) : tree.NestsWithin k → IsSteady k (new tree options)
  | reset {c : Context} : c.IsSession → c.tree.NestsWithin k → IsSteady k c.reset
  | edit {c : Context} (tree : Tree) : IsSteady k c → tree.NestsWithin k → IsSteady k { c with tree }
  | check {c : Context} (roots : List NodeId) : IsSteady k c → IsSteady k (finalContext (c.check roots))
  | emit {c c' : Context} (roots : List NodeId) : IsSteady k c → c.emit roots = .ok ⟨⟩ c' → IsSteady k c'

variable {k n : Nat} {c : Context}

open Discipline.Holds in
theorem nestedAt_check (k n : Nat) (c : Context) (roots : List NodeId) (alarm : Performer) :
    NestedAt .check k n (performWithin c.jobDepth) (alarmed n alarm c.jobDepth) c.tree 0 (checking roots)
      { c with phase := .check } :=
  bind (D := nesting .check k n (performWithin c.jobDepth) (alarmed n alarm c.jobDepth) c.tree 0)
    (forM fun root => resolve (.collect root []) rfl) (fun _ => forM checkNodeJob) _

open Discipline.Holds in
theorem nestedAt_emit (k n : Nat) (c : Context) (roots : List NodeId) (alarm : Performer) :
    NestedAt .emit k n (performWithin c.jobDepth) (alarmed n alarm c.jobDepth) c.tree k (emitting roots)
      { c with phase := .emit } :=
  bind (D := nesting .emit k n (performWithin c.jobDepth) (alarmed n alarm c.jobDepth) c.tree k)
    (job .emitPending rfl)
    (fun _ => bind (forM fun root => job (.emitDeclaration root) rfl) fun _ => job .emitPending rfl) _

theorem IsSteady.isSession (h : c.IsSteady k) : c.IsSession := by
  induction h with
  | new tree options _ => exact .new tree options
  | reset hc _ => exact .reset hc
  | edit tree _ _ ih => exact .edit tree ih
  | check roots _ ih => exact .check roots ih
  | @emit c c' roots _ hrun ih =>
    have hsession := ih.emit roots
    rwa [hrun] at hsession

theorem IsSteady.nests (h : c.IsSteady k) : c.nestingDepth = 0 ∧ c.tree.NestsWithin k := by
  induction h with
  | new tree options htree => exact ⟨rfl, htree⟩
  | reset _ htree => exact ⟨rfl, htree⟩
  | edit tree _ htree ih => exact ⟨ih.1, htree⟩
  | @check c roots _ ih =>
    obtain ⟨hkept, hcloses, -⟩ := nestedAt_check k 0 c roots (performWithin 0) rfl (.refl _) ih.2
    have hrun : c.check roots = checking roots (performWithin c.jobDepth) { c with phase := .check } := rfl
    rw [← hrun] at hkept hcloses
    refine ⟨?_, hkept.nests⟩
    cases hend : c.check roots with
    | ok done c' =>
      rw [hend] at hcloses
      exact Eq.trans hcloses ih.1
    | error stop c' =>
      rw [hend] at hcloses
      exact (hcloses rfl).trans ih.1
  | @emit c c' roots _ hrun ih =>
    obtain ⟨hkept, hcloses, -⟩ := nestedAt_emit k 0 c roots (performWithin 0) rfl (.refl _) ih.2
    rw [show emitting roots (performWithin c.jobDepth) { c with phase := .emit } = .ok ⟨⟩ c' from hrun]
      at hkept hcloses
    exact ⟨Eq.trans hcloses ih.1, hkept.nests⟩

end Context

/-- As long as no emission has failed, no block stays open between the calls of a session.  When functions
nest their blocks at most `k` deep, and the limit leaves room for one function on each of the first `n` levels of
instances and on the level of the unit, then no block is refused there: an alarm that would be raised makes no
difference. -/
theorem emission_has_room {k : Nat} {c : Context} (hc : c.IsSteady k) :
    c.nestingDepth = 0 ∧ c.tree.NestsWithin k ∧
      ∀ n, k * (n + 1) ≤ c.options.maxNestingDepth → ∀ roots alarm,
        emitting roots (alarmed n alarm c.jobDepth) { c with phase := .emit } = c.emit roots := by
  obtain ⟨hnesting, hk⟩ := hc.nests
  refine ⟨hnesting, hk, fun n hlimit roots alarm => ?_⟩
  obtain ⟨-, -, heq⟩ := Context.nestedAt_emit k n c roots alarm rfl (.refl _) hk
  refine (heq fun hn => ?_).symm
  have hdepth : c.instantiationDepth = 0 := hc.isSession.isIdle.depth
  change c.nestingDepth + k + k * (n - c.instantiationDepth) ≤ c.options.maxNestingDepth
  rw [hnesting, hdepth, Nat.zero_add, Nat.sub_zero, Nat.add_comm, ← Nat.mul_succ]
  exact hlimit

/-- A function template, and a function that calls its instance for `int` from its block. -/
def Tree.nestedInstance : Tree where
  nodes := #[⟨.int 1, ⟨0, 1⟩⟩, ⟨.ret (some ⟨0⟩), ⟨0, 1⟩⟩, ⟨.block [⟨1⟩], ⟨0, 1⟩⟩,
    ⟨.function { name := "one", ret := .scalar .int, body := some ⟨2⟩, templateParams := [⟨"T", .type⟩] },
      ⟨0, 1⟩⟩,
    ⟨.ident "one" [.type (.scalar .int)], ⟨0, 2⟩⟩, ⟨.call ⟨4⟩ [], ⟨0, 2⟩⟩, ⟨.ret (some ⟨5⟩), ⟨0, 2⟩⟩,
    ⟨.block [⟨6⟩], ⟨0, 2⟩⟩,
    ⟨.function { name := "start", ret := .scalar .int, body := some ⟨7⟩ }, ⟨0, 2⟩⟩]
  files := ⟨["unit"]⟩

theorem Tree.nestsWithin_nestedInstance : nestedInstance.NestsWithin 1 := by
  have hinner (depth : Nat) : nestedInstance.NestsAt depth ⟨1⟩ := by
    refine .other ⟨⟨0, 1⟩, rfl⟩ nofun fun child hchild => ?_
    obtain rfl := List.mem_singleton.mp hchild
    exact .other ⟨⟨0, 1⟩, rfl⟩ nofun nofun
  have houter (depth : Nat) : nestedInstance.NestsAt depth ⟨6⟩ := by
    refine .other ⟨⟨0, 2⟩, rfl⟩ nofun fun child hchild => ?_
    obtain rfl := List.mem_singleton.mp hchild
    refine .other ⟨⟨0, 2⟩, rfl⟩ nofun fun child hchild => ?_
    obtain rfl := List.mem_singleton.mp hchild
    exact .other ⟨⟨0, 2⟩, rfl⟩ nofun nofun
  rintro ⟨index⟩ decl ⟨span, hnode⟩
  have hindex : index < 9 := index_lt_of_node? hnode
  interval_cases index <;> cases hnode
  · refine .other ⟨⟨0, 1⟩, rfl⟩ nofun fun child hchild => ?_
    obtain rfl := List.mem_singleton.mp hchild
    refine .block ⟨⟨0, 1⟩, rfl⟩ fun item hitem => ?_
    obtain rfl := List.mem_singleton.mp hitem
    exact hinner 0
  · refine .other ⟨⟨0, 2⟩, rfl⟩ nofun fun child hchild => ?_
    obtain rfl := List.mem_singleton.mp hchild
    refine .block ⟨⟨0, 2⟩, rfl⟩ fun item hitem => ?_
    obtain rfl := List.mem_singleton.mp hitem
    exact houter 0

def Context.nestedInstance (limit : Nat) : Context :=
  finalContext ((Context.new .nestedInstance { maxNestingDepth := limit }).check [⟨3⟩, ⟨8⟩])

/-- Two blocks are room enough, one block is not. -/
theorem emission_has_room_of_nestedInstance :
    (∀ alarm, emitting [⟨3⟩, ⟨8⟩] (alarmed 1 alarm (Context.nestedInstance 2).jobDepth)
        { Context.nestedInstance 2 with phase := .emit } = (Context.nestedInstance 2).emit [⟨3⟩, ⟨8⟩]) ∧
    (match (Context.nestedInstance 2).emit [⟨3⟩, ⟨8⟩] with
      | .ok _ _ => true
      | _ => false) = true ∧
    (match (Context.nestedInstance 1).emit [⟨3⟩, ⟨8⟩] with
      | .error (.failed (.semantic _ .blocksTooDeep)) _ => true
      | _ => false) = true := by
  have hsteady : (Context.nestedInstance 2).IsSteady 1 := .check _ (.new _ _ Tree.nestsWithin_nestedInstance)
  refine ⟨fun alarm => ?_, by decide +kernel, by decide +kernel⟩
  exact (emission_has_room hsteady).2.2 1 (by decide +kernel) _ alarm

end UnitCompiler
