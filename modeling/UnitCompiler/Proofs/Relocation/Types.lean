import Mathlib
import UnitCompiler.Compile.Evaluation
import UnitCompiler.Compile.Instances
import UnitCompiler.Compile.Passing
import UnitCompiler.Proofs.Relocation.Actions

/-!
# Types and constants in two runs

Resolving a written type gives the same type in both runs, one whose lengths are known nodes if they are
so in the written one.
-/

namespace UnitCompiler

/-! ### Known types -/

section Bounded

variable {base : Nat}

theorem TemplateArg.allBounded_iff {args : List TemplateArg} :
    TemplateArg.AllBounded base args ↔ ∀ arg ∈ args, arg.Bounded base := by
  induction args with
  | nil => simp [AllBounded]
  | cons arg rest ih => simp [AllBounded, ih]

theorem bounded_bindParam {template : String} {s s' : Substitution} {param : TemplateParam}
    {arg : TemplateArg} (harg : arg.Bounded base) (hs : s.Bounded base)
    (h : bindParam template s param arg = .ok s') : s'.Bounded base := by
  simp only [bindParam] at h
  split at h
  · cases h
    exact hs.insert _ harg
  · split at h
    · cases h
      exact hs
    · cases h
  · cases h
  · cases h

theorem bounded_foldlM_bindParam {template : String} (pairs : List (TemplateParam × TemplateArg))
    {s s' : Substitution} (hpairs : ∀ pair ∈ pairs, pair.2.Bounded base) (hs : s.Bounded base)
    (h : pairs.foldlM (fun s (param, arg) => bindParam template s param arg) s = .ok s') :
    s'.Bounded base := by
  induction pairs generalizing s with
  | nil =>
    cases h
    exact hs
  | cons pair rest ih =>
    obtain ⟨param, arg⟩ := pair
    rw [List.foldlM_cons] at h
    simp only at h
    cases hbind : bindParam template s param arg with
    | error problem =>
      rw [hbind] at h
      cases h
    | ok s₁ =>
      rw [hbind] at h
      have hs₁ := bounded_bindParam (hpairs (param, arg) List.mem_cons_self) hs hbind
      exact ih (fun pair hpair => hpairs pair (List.mem_cons_of_mem _ hpair)) hs₁ h

/-- The environment of an instance knows the types that its arguments know. -/
theorem bounded_bindParams {template : String} {params : List TemplateParam} {args : List TemplateArg}
    {s : Substitution} (hargs : TemplateArg.AllBounded base args)
    (h : bindParams template params args = .ok s) : s.Bounded base := by
  rw [bindParams] at h
  split_ifs at h
  refine bounded_foldlM_bindParam _ (fun pair hpair => ?_) Substitution.bounded_empty h
  exact TemplateArg.allBounded_iff.mp hargs pair.2 (List.of_mem_zip hpair).2

/-- A name stands for a type that the context knows. -/
theorem Context.Bounded.resolveNamed {c : Context} (h : c.Bounded base) {name : String}
    {type : SourceType} (hname : c.resolveNamed name = .ok type) : type.Bounded base := by
  have hnamed : ∀ candidate, c.namedAt name candidate = some (.ok type) → type.Bounded base := by
    intro candidate hcandidate
    simp only [Context.namedAt] at hcandidate
    split at hcandidate
    · cases hcandidate
      exact h.symbols.aliases _ _ ‹_›
    · split_ifs at hcandidate
      · cases hcandidate
        trivial
      · cases hcandidate
  simp only [Context.resolveNamed] at hname
  split at hname
  · cases hname
    exact h.subst _ _ ‹_›
  · cases hname
    obtain ⟨f, hf, halias⟩ := Option.bind_eq_some_iff.mp ‹c.localAlias? name = _›
    exact (h.scope f hf).alias? halias
  · cases hfind : (c.candidates name).findSome? (c.namedAt name) with
    | none =>
      rw [hfind] at hname
      cases hname
    | some result =>
      rw [hfind] at hname
      obtain ⟨candidate, -, hcandidate⟩ := List.exists_of_findSome?_eq_some hfind
      exact hnamed candidate (hcandidate.trans (congrArg some hname))

end Bounded

namespace Rerun

variable {ρ : Rerun}

/-! ### Machine types -/

theorem lower (type : SourceType) (location : Location) : ρ.Stable (CompileM.lower type location) := by
  refine .get_bind fun c u _ => ?_
  rw [Context.symbols_relocate, SymbolTables.lower_relocate]
  exact .orBail _ _

theorem foldRequired (id : NodeId) (what : String) :
    ρ.Mirrors Eq (CompileM.foldRequired id what) (CompileM.foldRequired (ρ.node id) what) := by
  refine (Mirrors.fold id).bind fun value => ?_
  cases value with
  | none => exact (locate id).bind fun _ => .bail _ _
  | some value => exact .pure rfl

/-! ### Aggregates -/

theorem ensureChecked (name : String) (location : Location) :
    ρ.Stable (CompileM.ensureChecked name location) := by
  refine .get_bind fun c u _ => ?_
  rw [Context.symbols_relocate, SymbolTables.contains_aggregates_relocate,
    SymbolTables.get?_declaredAggregates_relocate]
  refine .ite (fun _ => .pure rfl) fun _ => ?_
  cases c.symbols.declaredAggregates.get? name with
  | none => exact .bail _ _
  | some site =>
    change ρ.Mirrors Eq _ (do
      if (ρ.context c u).stateOf (ρ.node site.decl) ≠ .unchecked then
        CompileM.bail location (.dependsOnItself name)
      CompileM.within {} site.space do
        discard (CompileM.perform (.checkAggregate (ρ.node site.decl) none)))
    rw [Context.stateOf_relocate]
    refine .ite (fun _ => .bail _ _) fun _ => ?_
    exact within Substitution.bounded_empty _ (Mirrors.checkAggregate _ _).map

theorem schedule {job : CompileM Unit} (h : ρ.Stable job) (item : Pending) :
    ρ.Stable (do
      match (← get).phase with
      | .emit => job
      | .check => modify fun c => { c with pending := c.pending ++ [item] }) := by
  refine .get_bind fun c u _ => ?_
  rw [Context.phase_relocate]
  cases c.phase with
  | emit => exact h
  | check => exact .modifyRest (fun _ _ => rfl) fun _ => ⟨rfl, rfl, rfl, rfl, rfl, rfl⟩

theorem makeAggregate (name : String) (site : DeclarationSite) :
    ρ.Mirrors Eq (CompileM.makeAggregate name site) (CompileM.makeAggregate name (ρ.site site)) := by
  refine (copySubtree site.decl).bindMoved fun copy hbase => ?_
  refine .bind (modifyKind hbase ?_ ?_ ?_) fun _ => ?_
  · intro kind
    cases kind <;> rfl
  · intro kind
    cases kind <;> rfl
  · intro kind
    cases kind <;> rfl
  refine .bind (modifySymbols fun s hs => ⟨?_, hs.functions, hs.aggregates, hs.aliases⟩) fun _ => ?_
  · simp only [Relocation.symbols, Table.mapValues_insert]
    rfl
  exact (Mirrors.checkAggregate _ _).map.bind fun _ => schedule (Mirrors.emitAggregate _) _

theorem ensureInstance (name : String) {args : List TemplateArg}
    (hargs : TemplateArg.AllBounded ρ.base args) (location : Location) :
    ρ.Stable (CompileM.ensureInstance name args location) := by
  refine .get_bind fun c u _ => ?_
  rw [Context.aggregateTemplate?_relocate, Context.symbols_relocate]
  cases c.aggregateTemplate? name with
  | none => exact .bail _ _
  | some found =>
    obtain ⟨qualified, site⟩ := found
    simp only [Option.map_some, Prod.map_apply, id_eq, SymbolTables.knowsAggregate_relocate]
    refine .ite (fun _ => .pure rfl) fun _ => .ite (fun _ => .bail _ _) fun _ => ?_
    refine (kindOf site.decl).bindMoved fun kind _ => ?_
    cases kind with
    | aggregate decl =>
      refine .orBail_bind fun subst hsubst => ?_
      exact (instantiating (bounded_bindParams hargs hsubst) _ _ (makeAggregate _ site)).bind
        fun _ => .pure rfl
    | _ => exact .bail _ _

/-! ### Types -/

theorem lengthOfValue (location : Location) (value : ConstValue) :
    ρ.Stable (CompileM.resolveLength.ofValue location value) := by
  rw [CompileM.resolveLength.ofValue]
  cases value.toInt? with
  | none => exact .bail _ _
  | some length => exact .ite (fun _ => .pure rfl) fun _ => .bail _ _

theorem resolveLength (location : Location) {length : ArrayLength} (h : length.Bounded ρ.base) :
    ρ.Stable (CompileM.resolveLength location length) := by
  cases length with
  | fixed length => exact .pure rfl
  | param name =>
    refine .get_bind fun c u _ => ?_
    rw [Context.subst_relocate]
    cases c.subst.values.get? name with
    | none => exact .bail _ _
    | some value => exact lengthOfValue location value
  | expr node =>
    have hfold : ρ.Mirrors Eq (CompileM.foldRequired node "an array length")
        (CompileM.foldRequired (ρ.node node) "an array length") := foldRequired node _
    rw [Relocation.node_of_lt h] at hfold
    exact hfold.bind fun value => lengthOfValue location value

theorem resolveNamed (name : String) (location : Location) :
    ρ.Yields (SourceType.Bounded ρ.base) (CompileM.resolveNamed name location) := by
  refine .get_bind fun c u hm => ?_
  rw [Context.resolveNamed_relocate]
  cases hname : c.resolveNamed name with
  | error problem => exact .bail _ _
  | ok type => exact .pure ⟨rfl, hm.bounded.resolveNamed hname⟩

theorem checkDepth (location : Location) (depth : Nat) :
    ρ.Stable (CompileM.checkDepth location depth) :=
  .ite (fun _ => .bail _ _) fun _ => .pure rfl

mutual

/-- Resolving a known type gives a known one. -/
theorem resolveAt (location : Location) (type : SourceType) (depth : Nat)
    (h : type.Bounded ρ.base) :
    ρ.Yields (SourceType.Bounded ρ.base) (CompileM.resolveAt location type depth) := by
  match type with
  | .void =>
    rw [CompileM.resolveAt]
    exact (checkDepth _ _).bind fun _ => .pure ⟨rfl, h⟩
  | .scalar kind =>
    rw [CompileM.resolveAt]
    exact (checkDepth _ _).bind fun _ => .pure ⟨rfl, h⟩
  | .pointer inner =>
    rw [CompileM.resolveAt]
    exact (checkDepth _ _).bind fun _ => (resolveAt location inner _ h).bindSame
      fun _ hinner => .pure ⟨rfl, hinner⟩
  | .const inner =>
    rw [CompileM.resolveAt]
    exact (checkDepth _ _).bind fun _ => (resolveAt location inner _ h).bindSame
      fun _ hinner => .pure ⟨rfl, hinner⟩
  | .array inner length =>
    rw [CompileM.resolveAt]
    refine (checkDepth _ _).bind fun _ => (resolveAt location inner _ h.1).bindSame
      fun inner' hinner => ?_
    exact (resolveLength location h.2).bind fun length' => .pure ⟨rfl, hinner, trivial⟩
  | .function ret params isVariadic =>
    rw [CompileM.resolveAt]
    refine (checkDepth _ _).bind fun _ => (resolveAt location ret _ h.1).bindSame
      fun ret' hret => ?_
    exact (resolveAll location params _ h.2).bindSame fun _ hparams => .pure ⟨rfl, hret, hparams⟩
  | .templateParam name =>
    rw [CompileM.resolveAt]
    exact (checkDepth _ _).bind fun _ => .bail _ _
  | .alias name target =>
    rw [CompileM.resolveAt]
    exact (checkDepth _ _).bind fun _ => (resolveAt location target _ h).bindSame
      fun _ htarget => .pure ⟨rfl, htarget⟩
  | .aggregate name args =>
    rw [CompileM.resolveAt]
    refine (checkDepth _ _).bind fun _ => .ite (fun _ => resolveNamed name location) fun _ => ?_
    refine (resolveArgs location args _ h).bindSame fun args' hargs => ?_
    exact (ensureInstance name hargs location).bind fun qualified => .pure ⟨rfl, hargs⟩

theorem resolveArg (location : Location) (arg : TemplateArg) (depth : Nat)
    (h : arg.Bounded ρ.base) :
    ρ.Yields (TemplateArg.Bounded ρ.base) (CompileM.resolveArg location arg depth) := by
  match arg with
  | .value value =>
    rw [CompileM.resolveArg]
    exact .pure ⟨rfl, h⟩
  | .type type =>
    rw [CompileM.resolveArg]
    cases type.bareName? with
    | none =>
      exact (resolveAt location type _ h).bindSame
        fun _ htype => .pure ⟨rfl, htype⟩
    | some name =>
      refine .get_bind fun c u _ => ?_
      rw [Context.valueAlias?_relocate]
      cases c.valueAlias? name with
      | some value => exact .pure ⟨rfl, trivial⟩
      | none =>
        exact (resolveNamed name location).bindSame
          fun _ htype => .pure ⟨rfl, htype⟩

theorem resolveArgs (location : Location) (args : List TemplateArg) (depth : Nat)
    (h : TemplateArg.AllBounded ρ.base args) :
    ρ.Yields (TemplateArg.AllBounded ρ.base) (CompileM.resolveArgs location args depth) := by
  match args with
  | [] =>
    rw [CompileM.resolveArgs]
    exact .pure ⟨rfl, h⟩
  | arg :: rest =>
    rw [CompileM.resolveArgs]
    refine (resolveArg location arg _ h.1).bindSame fun arg' harg => ?_
    exact (resolveArgs location rest _ h.2).bindSame fun _ hrest => .pure ⟨rfl, harg, hrest⟩

theorem resolveAll (location : Location) (types : List SourceType) (depth : Nat)
    (h : SourceType.AllBounded ρ.base types) :
    ρ.Yields (SourceType.AllBounded ρ.base) (CompileM.resolveAll location types depth) := by
  match types with
  | [] =>
    rw [CompileM.resolveAll]
    exact .pure ⟨rfl, h⟩
  | type :: rest =>
    rw [CompileM.resolveAll]
    refine (resolveAt location type _ h.1).bindSame fun type' htype => ?_
    exact (resolveAll location rest _ h.2).bindSame fun _ hrest => .pure ⟨rfl, htype, hrest⟩

end

theorem resolveType {type : SourceType} (h : type.Bounded ρ.base) (location : Location) :
    ρ.Yields (SourceType.Bounded ρ.base) (CompileM.resolveType type location) :=
  .get_bind fun _ _ hm => resolveAt location _ 0 (h.substitute hm.bounded.subst)

theorem complete (type : SourceType) (location : Location) :
    ρ.Stable (CompileM.complete type location) := by
  rw [CompileM.complete]
  cases type.strip with
  | array inner length => exact Mirrors.complete inner location
  | aggregate name args =>
    refine (ensureChecked _ _).bind fun _ => .get_bind fun c u _ => ?_
    rw [Context.symbols_relocate, SymbolTables.fieldTypes?_relocate]
    exact .forM_self _ fun field _ => Mirrors.complete field location
  | _ => exact .pure rfl

/-! ### Constants -/

theorem constSizeOf {type : SourceType} (h : type.Bounded ρ.base) (location : Location) :
    ρ.Stable (CompileM.constSizeOf type location) := by
  refine (resolveType h location).bindSame fun type' _ => ?_
  refine (Mirrors.complete _ _).bind fun _ => .get_bind fun c u _ => ?_
  rw [Context.sizeOf?_relocate]
  cases c.sizeOf? type' with
  | none => exact .bail _ _
  | some bytes => exact .ite (fun _ => .pure rfl) fun _ => .bail _ _

end Rerun

/-- The type of an argument, if it is one, is known. -/
def BuiltinArg.Bounded (base : Nat) : BuiltinArg → Prop
  | .type written => written.Bounded base
  | .expr _ => True

theorem NodeKind.Bounded.builtinArgs {base : Nat} {name : String} {args : List BuiltinArg}
    (h : (NodeKind.builtin name args).Bounded base) : ∀ arg ∈ args, arg.Bounded base := by
  intro arg harg
  cases arg with
  | type written => exact h written (List.mem_filterMap.mpr ⟨_, harg, rfl⟩)
  | expr id => trivial

namespace Rerun

variable {ρ : Rerun}

theorem builtinType (location : Location) {arg : BuiltinArg} (h : arg.Bounded ρ.base) :
    ρ.Mirrors (Same (SourceType.Bounded ρ.base)) (CompileM.builtinType location arg)
      (CompileM.builtinType location (ρ.builtinArg arg)) := by
  cases arg with
  | type written => exact resolveType h location
  | expr id =>
    refine (kindOf id).bindMoved fun kind _ => ?_
    cases kind with
    | ident name args => exact resolveType (SourceType.bounded_named _ name) location
    | _ => exact .bail _ _

theorem builtinTypes (name : String) {args : List BuiltinArg} (h : ∀ arg ∈ args, arg.Bounded ρ.base)
    (count : Nat) (location : Location) :
    ρ.Mirrors (Same fun types => ∀ type ∈ types, type.Bounded ρ.base)
      (CompileM.builtinTypes name args count location)
      (CompileM.builtinTypes name (args.map ρ.builtinArg) count location) := by
  rw [CompileM.builtinTypes, CompileM.builtinTypes, List.length_map]
  refine .ite (fun _ => .bail _ _) fun _ => ?_
  refine (Mirrors.mapM args fun arg harg => builtinType location (h arg harg)).imp
    fun types types' htypes => ?_
  induction htypes with
  | nil => exact ⟨rfl, nofun⟩
  | cons hab _ ih =>
    obtain ⟨rfl, ha⟩ := hab
    obtain ⟨rfl, hrest⟩ := ih
    exact ⟨rfl, List.forall_mem_cons.mpr ⟨ha, hrest⟩⟩

theorem onlyType (name : String) {args : List BuiltinArg} (h : ∀ arg ∈ args, arg.Bounded ρ.base)
    (location : Location) :
    ρ.Mirrors (Same (SourceType.Bounded ρ.base)) (CompileM.onlyType name args location)
      (CompileM.onlyType name (args.map ρ.builtinArg) location) := by
  refine (builtinTypes name h 1 location).bindSame fun types htypes => ?_
  cases types with
  | nil => exact .pure ⟨rfl, trivial⟩
  | cons type rest => exact .pure ⟨rfl, htypes type List.mem_cons_self⟩

theorem sameTypes (name : String) {args : List BuiltinArg} (h : ∀ arg ∈ args, arg.Bounded ρ.base)
    (location : Location) :
    ρ.Mirrors Eq (CompileM.sameTypes name args location)
      (CompileM.sameTypes name (args.map ρ.builtinArg) location) := by
  refine (builtinTypes name h 2 location).bindSame fun types _ => ?_
  split
  · exact .pure rfl
  · exact .pure rfl

theorem builtinMessage (name : String) (args : List BuiltinArg) (location : Location) :
    ρ.Mirrors Eq (CompileM.builtinMessage name args location)
      (CompileM.builtinMessage name (args.map ρ.builtinArg) location) := by
  refine (Mirrors.mapM_eq args fun arg _ => ?_).bind fun parts => .pure rfl
  cases arg with
  | type written => exact .bail _ _
  | expr id =>
    refine (foldRequired id "a message").bind fun value => ?_
    cases value with
    | str text => exact .pure rfl
    | _ => exact .pure rfl

theorem aliasQuery (location : Location) (args : List BuiltinArg) :
    ρ.Mirrors Eq (CompileM.aliasQuery location args)
      (CompileM.aliasQuery location (args.map ρ.builtinArg)) := by
  rcases args with _ | ⟨arg, _ | ⟨arg', rest⟩⟩
  · exact .bail _ _
  · cases arg with
    | type written =>
      change ρ.Stable (CompileM.aliasQuery location [.type written])
      rw [CompileM.aliasQuery]
      cases written.bareName? with
      | none => exact .bail _ _
      | some name => exact .pure rfl
    | expr id =>
      refine (kindOf id).bindMoved fun kind _ => ?_
      cases kind with
      | ident name args => exact .pure rfl
      | _ => exact .bail _ _
  · cases arg <;>
    · simp only [List.map_cons, Relocation.builtinArg, CompileM.aliasQuery, List.length_cons,
        List.length_map]
      exact .bail _ _

theorem evalBuiltin (id : NodeId) (name : String) {args : List BuiltinArg}
    (h : ∀ arg ∈ args, arg.Bounded ρ.base) :
    ρ.Mirrors Eq (CompileM.evalBuiltin id name args)
      (CompileM.evalBuiltin (ρ.node id) name (args.map ρ.builtinArg)) := by
  refine (locate id).bind fun location => ?_
  cases CompileM.typePredicate? name with
  | some holds =>
    exact (onlyType name h location).bindSame fun _ _ => .pure rfl
  | none =>
    simp only
    split
    · refine (onlyType _ h location).bindSame fun type htype => ?_
      exact (constSizeOf htype location).map
    · exact (sameTypes _ h location).bind fun _ => .pure rfl
    · exact (sameTypes _ h location).bind fun _ => .pure rfl
    · exact (onlyType _ h location).bindSame fun _ _ => .pure rfl
    · refine (aliasQuery location args).bind fun name => .get_bind fun c u _ => ?_
      rw [Context.aliasExists_relocate]
      exact .pure rfl
    · exact (builtinMessage _ args location).bind fun text => (warn _ _ _).bind fun _ => .pure rfl
    · exact (builtinMessage _ args location).bind fun text => .bail _ _
    · exact .bail _ _

theorem foldLogical (op : BinaryOp) (left : ConstValue) (rhs : NodeId) :
    ρ.Mirrors Eq (CompileM.foldLogical op left rhs) (CompileM.foldLogical op left (ρ.node rhs)) := by
  rw [CompileM.foldLogical, CompileM.foldLogical]
  cases left.truth? with
  | none => exact .pure rfl
  | some truth => exact .ite (fun _ => .pure rfl) fun _ => (Mirrors.fold rhs).bind fun _ => .pure rfl

theorem foldBinaryNode (op : BinaryOp) (lhs rhs : NodeId) (location : Location) :
    ρ.Mirrors Eq (CompileM.foldBinaryNode op lhs rhs location)
      (CompileM.foldBinaryNode op (ρ.node lhs) (ρ.node rhs) location) := by
  refine (Mirrors.fold lhs).bind fun left => ?_
  cases left with
  | none => exact .pure rfl
  | some left =>
    refine .ite (fun _ => foldLogical op left rhs) fun _ => (Mirrors.fold rhs).bind fun right => ?_
    cases right with
    | none => exact .pure rfl
    | some right => exact .orBail _ _

theorem foldNode (id : NodeId) :
    ρ.Mirrors Eq (CompileM.foldNode id) (CompileM.foldNode (ρ.node id)) := by
  refine (locate id).bind fun location => (kindOf id).bindMoved fun kind htypes => ?_
  cases kind with
  | int _ | float _ | bool _ | char _ | str _ | null => exact .pure rfl
  | ident name args =>
    cases args with
    | nil =>
      refine .get_bind fun c u _ => ?_
      rw [Context.constant?_relocate]
      exact .pure rfl
    | cons arg rest => exact .pure rfl
  | unary op operand => exact (Mirrors.fold operand).bind fun _ => .pure rfl
  | binary op lhs rhs => exact .ite (fun _ => .pure rfl) fun _ => foldBinaryNode op lhs rhs location
  | cast type value =>
    refine (Mirrors.fold value).bind fun value => ?_
    cases value with
    | none => exact .pure rfl
    | some value =>
      exact (resolveType (htypes type List.mem_cons_self) location).bindSame
        fun _ _ => .pure rfl
  | sizeOf type => exact (constSizeOf (htypes type List.mem_cons_self) location).map
  | builtin name args => exact evalBuiltin id name htypes.builtinArgs
  | _ => exact .pure rfl

theorem staticBranch (cond yes : NodeId) (no : Option NodeId) :
    ρ.Mirrors (fun branch branch' => branch' = branch.map ρ.node) (CompileM.staticBranch cond yes no)
      (CompileM.staticBranch (ρ.node cond) (ρ.node yes) (no.map ρ.node)) := by
  refine (foldRequired cond "an @if condition").bind fun value => ?_
  cases value.truth? with
  | none => exact (locate cond).bind fun _ => .bail _ _
  | some taken => cases taken <;> exact .pure rfl

/-! ### Function instances -/

theorem scheduleFunction (key : String) : ρ.Stable (CompileM.scheduleFunction key) :=
  schedule (Mirrors.emitFunction key) _

theorem makeFunction (name : String) (site : DeclarationSite) (location : Location) :
    ρ.Mirrors Eq (CompileM.makeFunction name site location)
      (CompileM.makeFunction name (ρ.site site) location) := by
  refine (copySubtree site.decl).bindMoved fun copy hbase => ?_
  refine .bind (modifyKind hbase ?_ ?_ ?_) fun _ => ?_
  · intro kind
    cases kind <;> rfl
  · intro kind
    cases kind <;> rfl
  · intro kind
    cases kind <;> rfl
  refine (Mirrors.checkFunction copy none true).bind fun key => ?_
  cases key with
  | none => exact .bail _ _
  | some key =>
    refine .bind (modifySymbols fun s hs => ⟨rfl, hs.functions, hs.aggregates, hs.aliases⟩) fun _ => ?_
    exact (scheduleFunction key).bind fun _ => .pure rfl

theorem instantiateFunction (name : String) {args : List TemplateArg}
    (h : TemplateArg.AllBounded ρ.base args) (location : Location) :
    ρ.Stable (CompileM.instantiateFunction name args location) := by
  refine .get_bind fun c u _ => ?_
  rw [Context.functionTemplate?_relocate, Context.overloads?_relocate]
  cases c.functionTemplate? name with
  | none => exact .ite (fun _ => .bail _ _) fun _ => .bail _ _
  | some found =>
    obtain ⟨qualified, site⟩ := found
    simp only [Option.map_some, Prod.map_apply, id_eq]
    refine (resolveArgs location args 0 h).bindSame fun args' hargs => ?_
    refine .get_bind fun c u _ => ?_
    rw [Context.symbols_relocate, SymbolTables.instances_relocate]
    cases c.symbols.instances.get? _ with
    | some key => exact .pure rfl
    | none =>
      refine (kindOf site.decl).bindMoved fun kind _ => ?_
      cases kind with
      | function decl =>
        refine .orBail_bind fun subst hsubst => ?_
        exact instantiating (bounded_bindParams hargs hsubst) _ _ (makeFunction _ site location)
      | _ => exact .bail _ _

theorem constructedInstance (name : String) {args : List TemplateArg}
    (h : TemplateArg.AllBounded ρ.base args) (location : Location) :
    ρ.Stable (CompileM.constructedInstance name args location) := by
  refine .get_bind fun c u _ => ?_
  rw [Context.functionTemplate?_relocate, Context.aggregateTemplate?_relocate, Option.isSome_map,
    Option.isNone_map]
  refine .ite (fun _ => .pure rfl) fun _ => ?_
  have htype : (SourceType.aggregate name args).Bounded ρ.base := h
  exact (resolveType htype location).bindSame fun _ _ => .pure rfl

/-! ### Parameters -/

theorem classify (type : SourceType) (location : Location) :
    ρ.Stable (CompileM.classify type location) := by
  rw [CompileM.classify]
  cases type.aggregateName? with
  | none => exact .pure rfl
  | some name =>
    refine (Mirrors.complete _ _).bind fun _ => .get_bind fun c u _ => ?_
    rw [Context.symbols_relocate, SymbolTables.fieldTypes?_relocate, Context.sizeOf?_relocate]
    cases c.symbols.fieldTypes? name with
    | none => exact .bail _ _
    | some fields =>
      cases c.sizeOf? type with
      | none => exact .bail _ _
      | some bytes => exact .ite (fun _ => .pure rfl) fun _ => .orBail _ _

theorem classifyParams (f : FunctionSymbol) (location : Location) :
    ρ.Stable (CompileM.classifyParams f location) :=
  .mapM_self _ fun type _ => .ite (fun _ => classify type location) fun _ => .pure rfl

theorem machineType_relocate (s : SymbolTables) (cls : PassingClass) (type : SourceType) :
    cls.machineType (ρ.symbols s) type = cls.machineType s type := by
  cases cls <;> simp only [PassingClass.machineType, SymbolTables.lower_relocate]

theorem packed_relocate (s : SymbolTables) (cls : PassingClass) (type : SourceType) :
    cls.packed (ρ.symbols s) type = cls.packed s type := by
  cases cls <;>
    simp only [PassingClass.packed, PassingClass.packedFields, SymbolTables.fieldTypes?_relocate]

theorem passingType (type : SourceType) (cls : PassingClass) (location : Location) :
    ρ.Stable (CompileM.passingType type cls location) := by
  refine .get_bind fun c u _ => ?_
  rw [Context.symbols_relocate, machineType_relocate]
  exact .orBail _ _

theorem packed_bind {α : Type} {f : List (IrType × Nat) → CompileM α} (cls : PassingClass)
    (type : SourceType) (location : Location) (h : ∀ packed, ρ.Stable (f packed)) :
    ρ.Stable (do f (← CompileM.orBail location (cls.packed (← get).symbols type))) := by
  refine .get_bind fun c u _ => ?_
  rw [Context.symbols_relocate, packed_relocate]
  exact (Mirrors.orBail _ _).bind h

theorem bindParam (index : Nat) (type : SourceType) (cls : PassingClass) (location : Location) :
    ρ.Stable (CompileM.bindParam index type cls location) :=
  (lower _ _).bind fun _ => (passingType _ _ _).bind fun _ => packed_bind cls type location
    fun _ => build _

theorem passArgument (value : Operand) (type : SourceType) (cls : PassingClass)
    (location : Location) : ρ.Stable (CompileM.passArgument value type cls location) :=
  (lower _ _).bind fun _ => (passingType _ _ _).bind fun _ => packed_bind cls type location
    fun _ => build _

end Rerun
end UnitCompiler
