import Mathlib.Data.List.Nodup
import UnitCompiler.Proofs.Order.Declarations

/-!
# The order of declarations

A unit whose declarations can each be checked without the others is checked in any order.  The check succeeds
in all orders or in none, and the symbol tables hold the same in the end.
-/

namespace UnitCompiler

/-- The outline is that of the unit, whose declarations have names and nodes of their own. -/
structure Outline.Covers (o : Outline) (roots : List NodeId) : Prop where
  declares : ∀ root ∈ roots, o.Declares root
  nodes : (roots.flatMap o.tree.declaredNodes).Nodup
  names : (roots.filterMap o.tree.aggregateName?).Nodup
  aggregates : ∀ name, name ∈ o.aggregates ↔ name ∈ roots.filterMap o.tree.aggregateName?

variable {o : Outline} {roots roots' : List NodeId}

namespace Outline.Covers

theorem perm (h : o.Covers roots) (hperm : roots.Perm roots') : o.Covers roots' where
  declares root hroot := h.declares root (hperm.mem_iff.mpr hroot)
  nodes := (hperm.flatMap_right _).nodup_iff.mp h.nodes
  names := (hperm.filterMap _).nodup_iff.mp h.names
  aggregates name := (h.aggregates name).trans (hperm.filterMap _).mem_iff

theorem name_mem (h : o.Covers roots) {root : NodeId} (hroot : root ∈ roots) :
    ∀ name ∈ o.tree.aggregateName? root, name ∈ o.aggregates := fun name hname =>
  (h.aggregates name).mpr (List.mem_filterMap.mpr ⟨root, hroot, hname⟩)

/-- What different declarations enter is apart. -/
theorem apart (h : o.Covers roots) {x y : NodeId} (hx : x ∈ roots) (hy : y ∈ roots) (hne : x ≠ y)
    {r r' : Registration} (hr : r.Fits o (o.tree.declaredNodes x) (o.tree.aggregateName? x).toList)
    (hr' : r'.Fits o (o.tree.declaredNodes y) (o.tree.aggregateName? y).toList) : r.Apart r' where
  owner owner howner howner' := by
    have : Std.Symm fun x y : NodeId => ∀ name, o.tree.aggregateName? x = some name →
        ∀ name', o.tree.aggregateName? y = some name' → name ≠ name' :=
      ⟨fun x y h name hname name' hname' => (h name' hname' name hname).symm⟩
    have hfirst := Option.mem_toList.mp (hr.owner owner howner)
    have hsecond := Option.mem_toList.mp (hr'.owner owner howner')
    exact (List.pairwise_filterMap.mp h.names).forall hx hy hne owner hfirst owner hsecond rfl
  decl id hid hid' := by
    have : Std.Symm (Function.onFun List.Disjoint o.tree.declaredNodes) :=
      ⟨fun _ _ h => List.Disjoint.symm h⟩
    exact (List.nodup_flatMap.mp h.nodes).2.forall hx hy hne (hr.decl id hid) (hr'.decl id hid')

end Outline.Covers

/-! ### The names of the aggregates -/

namespace CompileM

/-- A declaration with a new name enters it. -/
theorem collect_run {id : NodeId} (h : o.Declares id) (p : Performer) {c : Context} (htree : c.tree = o.tree)
    (hnew : ∀ name ∈ o.tree.aggregateName? id, c.symbols.declaredAggregates.get? name = none) :
    ∃ t : Table String DeclarationSite,
      collect id [] p c = .ok ⟨⟩ { c with symbols := { c.symbols with declaredAggregates := t } } ∧
        ∀ name, t.get? name = if o.tree.aggregateName? id = some name then some ⟨id, []⟩
          else c.symbols.declaredAggregates.get? name := by
  have hkinds : ∃ kind, o.tree.HasKind id kind ∧ ∀ name items, kind ≠ .space name items := by
    cases h with
    | function hkind | aggregateTemplate hkind | aggregate hkind | global hkind | typeAlias hkind
    | valueAlias hkind => exact ⟨_, hkind, fun _ _ => NodeKind.noConfusion⟩
  obtain ⟨kind, hkind, hspace⟩ := hkinds
  rw [hkind.aggregateName?] at hnew ⊢
  rw [← htree] at hkind
  unfold collect
  rw [bind_of_eq_ok (kindOf_apply hkind)]
  cases kind with
  | aggregate decl =>
    dsimp only
    rw [bind_of_eq_ok (get_apply p c), qualifyIn_nil]
    cases htemplate : decl.isTemplate with
    | true =>
      refine ⟨_, rfl, fun name => (if_neg fun hname => ?_).symm⟩
      rw [NodeKind.aggregateName?, htemplate] at hname
      cases hname
    | false =>
      have hname : (NodeKind.aggregate decl).aggregateName? = some decl.name := by
        rw [NodeKind.aggregateName?, htemplate, if_neg Bool.false_ne_true]
      have hfree : c.symbols.declaredAggregates.contains decl.name = false := by
        rw [Table.contains, hnew _ hname]
        rfl
      refine ⟨c.symbols.declaredAggregates.insert decl.name ⟨id, []⟩, ?_, fun name => ?_⟩
      · rw [hfree]
        rfl
      · rw [hname, Table.get?_insert]
        simp only [Option.some.injEq]
  | space name items => exact absurd rfl (hspace name items)
  | _ => exact ⟨_, rfl, fun name => (if_neg (by rintro ⟨⟩)).symm⟩

/-- Every declaration enters its name. -/
theorem collect_roots_run (hdeclares : ∀ root ∈ roots, o.Declares root)
    (hnames : (roots.filterMap o.tree.aggregateName?).Nodup) (depth : Nat) {c : Context}
    (htree : c.tree = o.tree)
    (hnew : ∀ name ∈ roots.filterMap o.tree.aggregateName?, c.symbols.declaredAggregates.get? name = none) :
    ∃ t : Table String DeclarationSite,
      (roots.forM fun root => perform (.collect root [])) (performWithin (depth + 1)) c =
        .ok ⟨⟩ { c with symbols := { c.symbols with declaredAggregates := t } } ∧
      ∀ name site, t.get? name = some site ↔ c.symbols.declaredAggregates.get? name = some site ∨
        ∃ root ∈ roots, o.tree.aggregateName? root = some name ∧ site = ⟨root, []⟩ := by
  induction roots generalizing c with
  | nil => exact ⟨_, rfl, fun name site => by simp⟩
  | cons root rest ih =>
    obtain ⟨hroot, hrest⟩ := List.forall_mem_cons.mp hdeclares
    have hmem {name : String} (h : name ∈ rest.filterMap o.tree.aggregateName?) :
        name ∈ (root :: rest).filterMap o.tree.aggregateName? :=
      ((List.sublist_cons_self root rest).filterMap _).subset h
    have hapart : ∀ name ∈ rest.filterMap o.tree.aggregateName?, o.tree.aggregateName? root ≠ some name := by
      intro name hname hroot
      rw [List.filterMap_cons_some hroot] at hnames
      exact (List.nodup_cons.mp hnames).1 hname
    have hfree : ∀ name ∈ o.tree.aggregateName? root, c.symbols.declaredAggregates.get? name = none :=
      fun name hname => hnew name (List.mem_filterMap.mpr ⟨root, List.mem_cons_self, hname⟩)
    obtain ⟨t₁, hrun₁, ht₁⟩ := collect_run hroot (performWithin depth) htree hfree
    obtain ⟨t, hrun, ht⟩ := ih hrest (hnames.sublist ((List.sublist_cons_self root rest).filterMap _))
      (c := { c with symbols := { c.symbols with declaredAggregates := t₁ } }) htree fun name hname => by
        rw [ht₁, if_neg (hapart name hname)]
        exact hnew name (hmem hname)
    have hperform : perform (.collect root []) (performWithin (depth + 1)) c = _ := hrun₁
    refine ⟨t, (bind_of_eq_ok hperform).trans hrun, fun name site => ?_⟩
    rw [ht, ht₁]
    simp only [List.mem_cons, or_and_right, exists_or, exists_eq_left]
    by_cases hname : o.tree.aggregateName? root = some name
    · rw [if_pos hname, hfree name hname]
      simp [hname, eq_comm]
    · rw [if_neg hname]
      simp [hname]

end CompileM

/-! ### The check of a unit -/

theorem Context.jobDepthOf_eq_succ (t : Tree) (options : CompileOptions) :
    ∃ depth, Context.jobDepthOf t options = depth + 1 :=
  Nat.exists_eq_succ_of_ne_zero (Nat.mul_ne_zero (Nat.succ_ne_zero _) (Nat.succ_ne_zero _))

/-- The table gives every aggregate of the unit by name. -/
def Tree.Lists (t : Tree) (roots : List NodeId) (sites : Table String DeclarationSite) : Prop :=
  ∀ name site, sites.get? name = some site ↔
    ∃ root ∈ roots, t.aggregateName? root = some name ∧ site = ⟨root, []⟩

/-- The context of a new unit in which the aggregates are known by name. -/
def Context.named (t : Tree) (options : CompileOptions) (sites : Table String DeclarationSite) : Context :=
  { Context.new t options with symbols := { declaredAggregates := sites } }

theorem Tree.Lists.sameEntries {t : Tree} {sites sites' : Table String DeclarationSite}
    (h : t.Lists roots sites) (h' : t.Lists roots' sites') (hperm : roots.Perm roots') :
    SymbolTables.SameEntries { declaredAggregates := sites } { declaredAggregates := sites' } := by
  intro slot
  cases slot with
  | declared name =>
    refine Option.ext fun site => (h name site).trans (Iff.trans ?_ (h' name site).symm)
    simp only [hperm.mem_iff]
  | _ => rfl

namespace Outline.Covers

theorem isMatch (h : o.Covers roots) (options : CompileOptions) {sites : Table String DeclarationSite}
    (hsites : o.tree.Lists roots sites) : o.Matches (Context.named o.tree options sites) where
  tree := rfl
  subst := rfl
  space := rfl
  function := rfl
  declared name := by
    rw [h.aggregates, List.mem_filterMap, Option.isSome_iff_exists]
    constructor
    · rintro ⟨site, hsite⟩
      obtain ⟨root, hroot, hname, -⟩ := (hsites name site).mp hsite
      exact ⟨root, hroot, hname⟩
    · rintro ⟨root, hroot, hname⟩
      exact ⟨⟨root, []⟩, (hsites name _).mpr ⟨root, hroot, hname, rfl⟩⟩
  aggregates _ h := by cases h
  aliases _ _ h := by cases h

/-- The first pass lists the aggregates. -/
theorem check_eq (h : o.Covers roots) (options : CompileOptions) : ∃ sites, o.tree.Lists roots sites ∧
    (Context.new o.tree options).check roots =
      (roots.forM fun root => CompileM.perform (.checkNode root))
        (performWithin (Context.jobDepthOf o.tree options)) (Context.named o.tree options sites) := by
  obtain ⟨depth, hdepth⟩ := Context.jobDepthOf_eq_succ o.tree options
  obtain ⟨sites, hrun, hsites⟩ := CompileM.collect_roots_run h.declares h.names depth
    (c := Context.new o.tree options) rfl fun _ _ => rfl
  refine ⟨sites, fun name site => (hsites name site).trans (or_iff_right (by rintro ⟨⟩)), ?_⟩
  rw [← hdepth] at hrun
  exact CompileM.bind_of_eq_ok hrun

/-- Every declaration enters its registrations, or fails wherever it stands. -/
theorem recordsEach (h : o.Covers roots) (options : CompileOptions) : ∃ outcome,
    RecordsEach o (performWithin (Context.jobDepthOf o.tree options)) o.tree.declaredNodes
      (fun root => (o.tree.aggregateName? root).toList) (fun root => CompileM.perform (.checkNode root))
      outcome roots := by
  obtain ⟨depth, hdepth⟩ := Context.jobDepthOf_eq_succ o.tree options
  have hrecords (root : NodeId) (hroot : root ∈ roots) :
      Records o (performWithin depth) (o.tree.declaredNodes root) (o.tree.aggregateName? root).toList
        (o.tree.declaredNodes root) (CompileM.checkNode root) :=
    .checkNode (h.declares root hroot) ((List.nodup_flatMap.mp h.nodes).1 root hroot) (h.name_mem hroot)
  choose! outcome houtcome using hrecords
  refine ⟨outcome, fun root hroot => ?_, fun root hroot name hname => ?_, h.nodes⟩
  · rw [hdepth]
    exact ⟨(houtcome root hroot).fits, (houtcome root hroot).entered, (houtcome root hroot).succeeds⟩
  · exact h.name_mem hroot name (Option.mem_toList.mp hname)

/-- The declarations of a checked unit may be checked in another order. -/
theorem check_of_perm (h : o.Covers roots) (hperm : roots.Perm roots') (options : CompileOptions)
    {c : Context} (hrun : (Context.new o.tree options).check roots = .ok ⟨⟩ c) :
    ∃ c', (Context.new o.tree options).check roots' = .ok ⟨⟩ c' ∧ c.symbols.SameEntries c'.symbols := by
  obtain ⟨sites, hsites, hcheck⟩ := h.check_eq options
  have h' := h.perm hperm
  obtain ⟨sites', hsites', hcheck'⟩ := h'.check_eq options
  obtain ⟨outcome, heach⟩ := h.recordsEach options
  have heach' := heach.perm hperm
  obtain ⟨hsome, hentered⟩ := heach.entered (h.isMatch options hsites) (fun _ _ => rfl) (hcheck ▸ hrun)
  have hblocks (slot : TableSlot) (v : slot.Value) :
      writeAll (roots.flatMap fun root => blockOf (outcome root)) slot v =
        writeAll (roots'.flatMap fun root => blockOf (outcome root)) slot v := by
    refine writeAll_flatMap_perm hperm (fun x hx y hy hne r hr r' hr' => ?_) slot v
    exact h.apart hx hy hne (heach.fits hx hr) (heach.fits hy hr')
  have hwrites (slot : TableSlot) : writeAll (roots'.flatMap fun root => blockOf (outcome root)) slot
      ((Context.named o.tree options sites').symbols.entry slot) = some (c.symbols.entry slot) := by
    rw [← hblocks, ← hentered.writes]
    exact congrArg _ (hsites.sameEntries hsites' hperm slot).symm
  obtain ⟨c', hrun'⟩ := heach'.succeeds (h'.isMatch options hsites') (fun _ _ => rfl)
    (fun root hroot => hsome root (hperm.mem_iff.mpr hroot)) fun slot => by
      rw [hwrites]
      rfl
  refine ⟨c', hcheck'.trans hrun', fun slot => ?_⟩
  obtain ⟨-, hentered'⟩ := heach'.entered (h'.isMatch options hsites') (fun _ _ => rfl) hrun'
  exact Option.some_injective _ ((hwrites slot).symm.trans (hentered'.writes slot))

/-- Declarations that do without each other are checked in any order: the check succeeds in all orders or in
none, and the tables hold the same in the end. -/
theorem check_perm (h : o.Covers roots) (hperm : roots.Perm roots') (options : CompileOptions) :
    ((∃ c, (Context.new o.tree options).check roots = .ok ⟨⟩ c) ↔
      ∃ c, (Context.new o.tree options).check roots' = .ok ⟨⟩ c) ∧
    ∀ c c', (Context.new o.tree options).check roots = .ok ⟨⟩ c →
      (Context.new o.tree options).check roots' = .ok ⟨⟩ c' → c.symbols.SameEntries c'.symbols := by
  refine ⟨⟨?_, ?_⟩, fun c c' hrun hrun' => ?_⟩
  · rintro ⟨c, hrun⟩
    obtain ⟨c', hrun', -⟩ := h.check_of_perm hperm options hrun
    exact ⟨c', hrun'⟩
  · rintro ⟨c, hrun⟩
    obtain ⟨c', hrun', -⟩ := (h.perm hperm).check_of_perm hperm.symm options hrun
    exact ⟨c', hrun'⟩
  · obtain ⟨c'', hrun'', hsame⟩ := h.check_of_perm hperm options hrun
    rw [hrun'] at hrun''
    cases hrun''
    exact hsame

end Outline.Covers

/-- Two aggregates that mention each other, one of them with a method, and a function over both. -/
def Outline.mutual : Outline where
  tree := {
    nodes := #[
      ⟨.aggregate ⟨"Plant", [], none, [⟨"leaf", .aggregate "Leaf" [], none⟩], [⟨1⟩]⟩, ⟨0, 1⟩⟩,
      ⟨.function { name := "height", ret := .scalar .int }, ⟨0, 2⟩⟩,
      ⟨.aggregate ⟨"Leaf", [], none, [⟨"plant", .pointer (.aggregate "Plant" []), none⟩], []⟩, ⟨0, 3⟩⟩,
      ⟨.function { name := "plantOf", params := [⟨"leaf", .aggregate "Leaf" []⟩]
                   ret := .pointer (.aggregate "Plant" []) }, ⟨0, 4⟩⟩]
    files := ⟨["unit"]⟩ }
  aggregates := ["Plant", "Leaf"]
  aliases := []

theorem Outline.covers_mutual : Outline.mutual.Covers [⟨0⟩, ⟨2⟩, ⟨3⟩] where
  declares := by
    have hnamed (name : String) : Outline.mutual.Plain (.aggregate name []) := .named List.not_mem_nil
    simp only [List.forall_mem_cons, List.not_mem_nil, false_implies, implies_true, and_true]
    refine ⟨.aggregate ⟨_, rfl⟩ rfl rfl ?_ ?_, .aggregate ⟨_, rfl⟩ rfl rfl ?_ ?_, .function ⟨_, rfl⟩ ⟨?_, ?_⟩⟩
    · exact List.forall_mem_singleton.mpr (hnamed _)
    · refine List.forall_mem_singleton.mpr ⟨_, ⟨_, rfl⟩, fun _ _ h => ?_, fun _ => .scalar _⟩
      exact absurd h List.not_mem_nil
    · exact List.forall_mem_singleton.mpr (.pointer (hnamed _))
    · exact fun _ h => absurd h List.not_mem_nil
    · exact fun _ => List.forall_mem_singleton.mpr (hnamed _)
    · exact fun _ => .pointer (hnamed _)
  nodes := by decide
  names := by decide
  aggregates _ := Iff.rfl

/-- The unit is checked from either end. -/
theorem check_perm_of_mutual : ∃ c c',
    (Context.new Outline.mutual.tree {}).check [⟨0⟩, ⟨2⟩, ⟨3⟩] = .ok ⟨⟩ c ∧
      (Context.new Outline.mutual.tree {}).check [⟨3⟩, ⟨2⟩, ⟨0⟩] = .ok ⟨⟩ c' ∧
      c.symbols.SameEntries c'.symbols := by
  have hperm : List.Perm [⟨0⟩, ⟨2⟩, ⟨3⟩] ([⟨3⟩, ⟨2⟩, ⟨0⟩] : List NodeId) := by decide
  have hruns : (match (Context.new Outline.mutual.tree {}).check [⟨0⟩, ⟨2⟩, ⟨3⟩] with
      | .ok _ c => c.symbols.functions.size == 2
      | .error .. => false) = true := by
    decide +kernel
  obtain ⟨hchecks, hsame⟩ := Outline.covers_mutual.check_perm hperm {}
  cases hcheck : (Context.new Outline.mutual.tree {}).check [⟨0⟩, ⟨2⟩, ⟨3⟩] with
  | error e c =>
    rw [hcheck] at hruns
    cases hruns
  | ok _ c =>
    obtain ⟨c', hcheck'⟩ := hchecks.mp ⟨c, hcheck⟩
    exact ⟨c, c', rfl, hcheck', hsame c c' hcheck hcheck'⟩

end UnitCompiler
