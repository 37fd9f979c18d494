import UnitCompiler.Proofs.Compile.Functions
import UnitCompiler.Proofs.Compile.Constants
import UnitCompiler.Proofs.Machine.Boot

/-!
# Compilation of units

A unit of integer variables and one function that compiles is a program with these variables and that
function: checking enters each of them into the tables, emission adds each to the program.
-/

namespace UnitCompiler
open Machine

/-- A new key comes last. -/
theorem Table.insert_eq_append {κ α : Type} [DecidableEq κ] {t : Table κ α} {k : κ}
    (h : t.get? k = none) (a : α) : t.insert k a = ⟨t.entries ++ [(k, a)]⟩ := by
  obtain ⟨entries⟩ := t
  refine congrArg Table.mk ?_
  change Table.insertEntry k a entries = entries ++ [(k, a)]
  have hnone : entries.find? (fun e => decide (e.1 = k)) = none := Option.map_eq_none_iff.mp h
  clear h
  induction entries with
  | nil => rfl
  | cons e rest ih =>
    rw [List.find?_cons] at hnone
    split at hnone
    · cases hnone
    · rename_i hne
      rw [Table.insertEntry, if_neg (by simpa using hne), ih hnone]
      rfl

/-- Every item of a list has a partner in the list beside it. -/
theorem exists_of_forall₂ {α β : Type} {R : α → β → Prop} {l : List α} {l' : List β}
    (h : List.Forall₂ R l l') {a : α} (ha : a ∈ l) : ∃ b ∈ l', R a b := by
  induction h with
  | nil => cases ha
  | @cons a' b l l' hfirst _ ih =>
    rcases List.mem_cons.mp ha with rfl | hrest
    · exact ⟨b, List.mem_cons_self, hfirst⟩
    · obtain ⟨b', hb', hR⟩ := ih hrest
      exact ⟨b', List.mem_cons_of_mem _ hb', hR⟩

/-- The symbol of a variable of the unit. -/
structure Symbolizes (g : String × Scalar) (id : NodeId) (symbol : GlobalSymbol) : Prop where
  decl : symbol.decl = id
  type : symbol.type = .scalar g.2
  linkName : symbol.linkName = LinkName.global g.1

/-- The value is what the initial value of the variable at a node is folded to. -/
def Initializes (t : Tree) (id : NodeId) (value : Option ConstValue) : Prop :=
  ∀ (decl : VariableDecl) (node : NodeId) (e : IntExpr), t.HasKind id (.variable decl) →
    decl.init = some node → e.vars = [] → e.At t node →
    ∃ folded, value = some folded ∧ e.fold = .ok (some folded)

namespace CompileM

variable {p : Performer} {c c' : Context} {id : NodeId} {d : Nat}

/-- Actions on one list, then on another. -/
theorem forM_append {α : Type} {l l' : List α} {f : α → CompileM PUnit}
    (h : (l ++ l').forM f p c = .ok ⟨⟩ c') :
    ∃ c₁, l.forM f p c = .ok ⟨⟩ c₁ ∧ l'.forM f p c₁ = .ok ⟨⟩ c' := by
  induction l generalizing c with
  | nil => exact ⟨c, rfl, h⟩
  | cons a rest ih =>
    obtain ⟨⟨⟩, c₁, hfirst, h⟩ := bind_eq_ok.mp h
    obtain ⟨c₂, hrest, h⟩ := ih h
    exact ⟨c₂, bind_eq_ok.mpr ⟨⟨⟩, c₁, hfirst, hrest⟩, h⟩

/-- The initial value of a variable of the unit is folded without a change. -/
theorem mapM_foldRequired {init : Option NodeId} {what : String} {value : Option ConstValue}
    (hinit : ∀ node, init = some node → ∃ e : IntExpr, e.vars = [] ∧ e.At c.tree node)
    (h : init.mapM (foldRequired · what) (performWithin d) c = .ok value c') :
    c' = c ∧ ∀ (node : NodeId) (e : IntExpr), init = some node → e.vars = [] → e.At c.tree node →
      ∃ folded, value = some folded ∧ e.fold = .ok (some folded) := by
  cases init with
  | none =>
    cases h
    exact ⟨rfl, nofun⟩
  | some node =>
    obtain ⟨e, hclosed, hat⟩ := hinit node rfl
    obtain ⟨v, hv, hvalue⟩ := map_eq_ok.mp h
    unfold foldRequired at hv
    obtain ⟨folded, c₁, hfold, hv⟩ := bind_eq_ok.mp hv
    obtain ⟨-, rfl⟩ := fold_spec hat hclosed hfold
    cases folded with
    | some folded =>
      cases hv
      refine ⟨rfl, ?_⟩
      rintro _ e' ⟨⟩ hclosed' hat'
      exact ⟨_, hvalue.symm, (fold_spec hat' hclosed' hfold).1⟩
    | none =>
      obtain ⟨location, c₂, -, hbail⟩ := bind_eq_ok.mp hv
      cases hbail

/-- Checking a variable of the unit enters it behind the others. -/
theorem checkVariable_spec {g : String × Scalar} (hat : GlobalAt c.tree g id)
    (hnew : c.stateOf id = .unchecked) (hspace : c.space = [])
    (h : performWithin d (.checkNode id) c = .ok () c') :
    ∃ symbol, Symbolizes g id symbol ∧ Initializes c.tree id symbol.value ∧ c' = { c with
      symbols := { c.symbols with globals := ⟨c.symbols.globals.entries ++ [(g.1, symbol)]⟩ }
      states := c.states.insert id .checked } := by
  obtain ⟨-, init, isConst, hkind, hinit⟩ := hat
  obtain ⟨d, h⟩ := work_of_performWithin h
  obtain ⟨location, hpeel⟩ := locate_kindOf hkind
  change checkNode id _ c = _ at h
  unfold checkNode at h
  rw [hpeel] at h
  simp only at h
  rw [bind_of_eq_ok (beginCheck_apply hnew)] at h
  simp only [if_true] at h
  let c₁ : Context := { c with states := c.states.insert id .checked }
  change checkGlobal id ⟨g.1, some (.scalar g.2), init, isConst⟩ location _ c₁ = _ at h
  have hname : c₁.qualify g.1 = g.1 := by
    change qualifyIn c.space g.1 = _
    rw [hspace, qualifyIn_nil]
  unfold checkGlobal at h
  rw [bind_of_eq_ok (get_apply _ c₁)] at h
  simp only [hname] at h
  rw [bind_of_eq_ok (get_apply _ c₁)] at h
  cases hget : c₁.symbols.globals.get? g.1 with
  | some existing =>
    rw [hget] at h
    obtain ⟨location', c₂, -, h⟩ := bind_eq_ok.mp h
    obtain ⟨⟨⟩, c₃, hbail, -⟩ := bind_eq_ok.mp h
    cases hbail
  | none =>
    rw [hget] at h
    obtain ⟨value, c₂, hvalue, h⟩ := bind_eq_ok.mp h
    obtain ⟨rfl, hfold⟩ := mapM_foldRequired (c := c₁) hinit hvalue
    rw [bind_of_eq_ok (resolveType_scalar g.2 location)] at h
    obtain ⟨-, h⟩ := guard_passes h
    obtain ⟨-, h⟩ := guard_passes h
    cases h
    let symbol : GlobalSymbol := ⟨id, g.1, LinkName.global g.1, .scalar g.2, isConst, value⟩
    have htable := Table.insert_eq_append hget symbol
    refine ⟨symbol, ⟨rfl, rfl, rfl⟩, fun decl node e hkind' hinit' hclosed hat => ?_, congrArg
      (fun globals => ({ c₁ with symbols := { c.symbols with globals } } : Context)) htable⟩
    obtain ⟨span, hnode⟩ := hkind
    obtain ⟨span', hnode'⟩ := hkind'
    cases hnode.symm.trans hnode'
    exact hfold node e hinit' hclosed hat

end CompileM

namespace IntUnit

variable {u : IntUnit} {decl : FunctionDecl} {c c' : Context} {id : NodeId} {d : Nat}
  {p : Performer} {location : Location}

/-- The symbol of the unit's function. -/
structure Enters (u : IntUnit) (decl : FunctionDecl) (id : NodeId) (f : FunctionSymbol) : Prop where
  describes : u.Describes f
  node : f.decl = id
  space : f.space = []
  linkName : f.linkName = u.linkName decl

theorem resolveParams_apply (hparams : decl.params = u.params.map fun q => ⟨q.1, .scalar q.2⟩) :
    CompileM.resolveParams decl location p c = .ok (u.params.map fun q => .scalar q.2) c := by
  have hparam (param : Param) (hmem : param ∈ decl.params) : (do
      let type ← CompileM.resolveType param.type location
      if type.isVoid then CompileM.bail location (.voidParameter param.name decl.name)
      return type) p c = .ok param.type c := by
    rw [hparams] at hmem
    obtain ⟨q, -, rfl⟩ := List.mem_map.mp hmem
    rw [CompileM.bind_of_eq_ok (CompileM.resolveType_scalar q.2 location)]
    rfl
  refine (CompileM.mapM_apply hparam).trans ?_
  rw [hparams, List.map_map]
  rfl

theorem resolveType_ret (hret : decl.ret = u.retType) :
    CompileM.resolveType decl.ret location p c = .ok u.retType c := by
  rw [hret, retType]
  cases u.ret with
  | none => 
    unfold CompileM.resolveType
    rw [CompileM.bind_of_eq_ok (CompileM.get_apply p c)]
    rfl
  | some k => exact CompileM.resolveType_scalar k location

theorem functionSymbol_spec (hdecl : u.Declares c.tree decl) (hspace : c.space = [])
    {f : FunctionSymbol}
    (h : CompileM.functionSymbol id decl none false location p c = .ok f c') :
    u.Enters decl id f ∧ c' = c := by
  unfold CompileM.functionSymbol at h
  have hconstructor : (if decl.isConstructor = true then none else none : Option String) = none := by
    split <;> rfl
  have hthis : (if (decl.operator.isNone && (none : Option String).isNone) = true then
      (none : Option String).toList.map fun name => SourceType.pointer (SourceType.named name)
      else []) = [] := by
    split <;> rfl
  simp only [hconstructor, hthis, List.nil_append, List.map_nil] at h
  rw [CompileM.bind_of_eq_ok (resolveParams_apply hdecl.params),
    CompileM.bind_of_eq_ok (resolveType_ret hdecl.ret), CompileM.bind_of_eq_ok (CompileM.get_apply p c)] at h
  obtain ⟨-, h⟩ := CompileM.guard_passes h
  cases h
  have hname : c.qualify decl.name = decl.name := by
    change qualifyIn c.space decl.name = _
    rw [hspace, qualifyIn_nil]
  refine ⟨⟨⟨rfl, ?_, rfl, rfl, rfl⟩, rfl, hspace, ?_⟩, rfl⟩
  · rw [hdecl.params, List.map_map]
    rfl
  · simp only [hname, hspace]
    rfl

/-- Checking the unit's function enters its symbol. -/
theorem checkFunction_spec (hdecl : u.Declares c.tree decl)
    (hkind : c.tree.HasKind id (.function decl)) (hnew : c.stateOf id = .unchecked)
    (hspace : c.space = []) (h : performWithin d (.checkNode id) c = .ok () c') :
    ∃ f, u.Enters decl id f ∧ c' = { c with
      symbols := c.symbols.addFunction f
      states := c.states.insert id .checked } := by
  obtain ⟨d, h⟩ := work_of_performWithin h
  obtain ⟨location, hpeel⟩ := CompileM.locate_kindOf hkind
  change CompileM.checkNode id _ c = _ at h
  unfold CompileM.checkNode at h
  rw [hpeel] at h
  obtain ⟨key, hcheck, -⟩ := CompileM.map_eq_ok.mp h
  unfold CompileM.checkFunction at hcheck
  rw [hpeel] at hcheck
  simp only at hcheck
  rw [CompileM.bind_of_eq_ok (CompileM.beginCheck_apply hnew)] at hcheck
  simp only [hdecl.plain, Bool.not_true, Bool.not_false, Bool.false_eq_true, if_false, if_true]
    at hcheck
  let c₁ : Context := { c with states := c.states.insert id .checked }
  obtain ⟨f, c₂, hsymbol, hcheck⟩ := CompileM.bind_eq_ok.mp hcheck
  obtain ⟨hf, rfl⟩ := functionSymbol_spec (c := c₁) hdecl hspace hsymbol
  rw [CompileM.bind_of_eq_ok (CompileM.get_apply _ c₁)] at hcheck
  cases hget : c₁.symbols.functions.get? f.key with
  | some existing =>
    rw [hget] at hcheck
    obtain ⟨location', c₂, -, hcheck⟩ := CompileM.bind_eq_ok.mp hcheck
    obtain ⟨⟨⟩, c₃, hbail, -⟩ := CompileM.bind_eq_ok.mp hcheck
    cases hbail
  | none =>
    rw [hget] at hcheck
    have hregister : CompileM.register decl none f location (performWithin d) c₁ =
        .ok () { c₁ with symbols := c.symbols.addFunction f } := by
      unfold CompileM.register
      rw [hf.describes.owner]
      rfl
    change (CompileM.register decl none f location >>= fun _ => pure (some f.key)) _ c₁ = _ at hcheck
    rw [CompileM.bind_of_eq_ok hregister] at hcheck
    cases hcheck
    exact ⟨f, hf, rfl⟩

/-- The entry of a variable of the unit in the table of variables. -/
def Entry (q : (String × Scalar) × NodeId) (e : String × GlobalSymbol) : Prop :=
  e.1 = q.1.1 ∧ Symbolizes q.1 q.2 e.2

/-- Checking variables of the unit enters them in their order. -/
theorem checkVariables_spec {t : Tree} {gs : List (String × Scalar)} {ids : List NodeId}
    (hat : List.Forall₂ (GlobalAt t) gs ids) (htree : c.tree = t) (hnodup : ids.Nodup)
    (hnew : ∀ id ∈ ids, c.stateOf id = .unchecked) (hspace : c.space = [])
    (h : (ids.forM fun id => CompileM.perform (.checkNode id)) (performWithin d) c = .ok () c') :
    ∃ entries states, List.Forall₂ Entry (gs.zip ids) entries ∧
      (∀ entry ∈ entries, Initializes t entry.2.decl entry.2.value) ∧
      (∀ id, states.get? id = if id ∈ ids then some .checked else c.states.get? id) ∧
      c' = { c with
        symbols := { c.symbols with globals := ⟨c.symbols.globals.entries ++ entries⟩ }
        states } := by
  induction hat generalizing c with
  | nil =>
    cases h
    refine ⟨[], c'.states, .nil, by simp, fun _ => rfl, ?_⟩
    rw [List.append_nil]
  | @cons g id gs ids hfirst _ ih =>
    obtain ⟨⟨⟩, c₁, hcheck, h⟩ := CompileM.bind_eq_ok.mp h
    obtain ⟨symbol, hsymbol, hvalue, hc₁⟩ := CompileM.checkVariable_spec (htree ▸ hfirst)
      (hnew id List.mem_cons_self) hspace hcheck
    obtain ⟨hid, hnodup⟩ := List.nodup_cons.mp hnodup
    have hnew₁ (other : NodeId) (hother : other ∈ ids) : c₁.stateOf other = .unchecked := by
      have hne : id ≠ other := fun heq => hid (heq ▸ hother)
      rw [hc₁, Context.stateOf, Table.get?_insert_of_ne _ _ hne]
      exact hnew other (List.mem_cons_of_mem _ hother)
    obtain ⟨entries, states, hentries, hvalues, hstates, hc'⟩ := ih (by rw [hc₁]; exact htree) hnodup
      hnew₁ (by rw [hc₁]; exact hspace) h
    rw [htree, ← hsymbol.decl] at hvalue
    refine ⟨(g.1, symbol) :: entries, states, .cons ⟨rfl, hsymbol⟩ hentries,
      List.forall_mem_cons.mpr ⟨hvalue, hvalues⟩, fun other => ?_, ?_⟩
    · rw [hstates other, hc₁, Table.get?_insert]
      by_cases hother : other ∈ ids
      · simp [hother]
      · by_cases heq : other = id
        · simp [heq]
        · have hne : id ≠ other := fun h => heq h.symm
          simp [hother, heq, hne]
    · rw [hc', hc₁]
      simp only [List.append_assoc, List.singleton_append]

/-- Functions and variables are not recorded before they are checked. -/
theorem collect_spec {roots : List NodeId}
    (hroots : ∀ root ∈ roots, (∃ decl, c.tree.HasKind root (.function decl)) ∨
      ∃ decl, c.tree.HasKind root (.variable decl))
    (h : (roots.forM fun root => CompileM.perform (.collect root [])) (performWithin d) c =
      .ok () c') : c' = c := by
  induction roots with
  | nil =>
    cases h
    rfl
  | cons root rest ih =>
    obtain ⟨⟨⟩, c₁, hcollect, h⟩ := CompileM.bind_eq_ok.mp h
    obtain ⟨d', hcollect⟩ := @work_of_performWithin _ (.collect root []) _ _ _ hcollect
    change CompileM.collect root [] _ c = _ at hcollect
    unfold CompileM.collect at hcollect
    have hsame : c₁ = c := by
      rcases hroots root List.mem_cons_self with ⟨decl, hkind⟩ | ⟨decl, hkind⟩
      · rw [CompileM.bind_of_eq_ok (CompileM.kindOf_apply hkind)] at hcollect
        cases hcollect
        rfl
      · rw [CompileM.bind_of_eq_ok (CompileM.kindOf_apply hkind)] at hcollect
        cases hcollect
        rfl
    rw [hsame] at h
    exact ih (fun root hroot => hroots root (List.mem_cons_of_mem _ hroot)) h

/-- A context behind the check of the unit: its variables are at the nodes `ids` and its function is at
`id`. -/
structure Checked (u : IntUnit) (t : Tree) (decl : FunctionDecl) (ids : List NodeId) (id : NodeId)
    (c : Context) : Prop where
  tree : c.tree = t
  pending : c.pending = []
  program : c.program = {}
  globals : List.Forall₂ Entry (u.globals.zip ids) c.symbols.globals.entries
  symbol : ∃ f, u.Enters decl id f ∧ c.symbols.functions.get? f.key = some f ∧
    c.symbols.declaredKeys.get? id = some f.key
  states : ∀ id, c.stateOf id ≠ .emitted

theorem check_spec {t : Tree} {options : CompileOptions} {before after : List NodeId}
    (hdecl : u.Declares t decl) (hkind : t.HasKind id (.function decl))
    (hglobals : List.Forall₂ (GlobalAt t) u.globals (before ++ after))
    (hnodup : (before ++ id :: after).Nodup)
    (h : (Context.new t options).check (before ++ id :: after) = .ok () c') :
    u.Checked t decl (before ++ after) id c' ∧
      ∀ entry ∈ c'.symbols.globals.entries, Initializes t entry.2.decl entry.2.value := by
  unfold Context.check Context.run at h
  obtain ⟨⟨⟩, c₀, hcollect, h⟩ := CompileM.bind_eq_ok.mp h
  let c : Context := { Context.new t options with phase := .check }
  have hvariable (root : NodeId) (hroot : root ∈ before ++ after) : ∃ g ∈ u.globals, GlobalAt t g root :=
    exists_of_forall₂ hglobals.flip hroot
  have hroots (root : NodeId) (hroot : root ∈ before ++ id :: after) :
      (∃ decl, c.tree.HasKind root (.function decl)) ∨
        ∃ decl, c.tree.HasKind root (.variable decl) := by
    by_cases hid : root = id
    · exact Or.inl ⟨decl, hid ▸ hkind⟩
    · obtain ⟨g, -, -, init, isConst, hvar, -⟩ := hvariable root (by simp_all)
      exact Or.inr ⟨_, hvar⟩
  have hc₀ : c₀ = c := collect_spec hroots hcollect
  rw [hc₀] at h
  obtain ⟨c₁, hbefore, h⟩ := CompileM.forM_append h
  obtain ⟨⟨⟩, c₂, hfunction, hafter⟩ := CompileM.bind_eq_ok.mp h
  have htake := List.forall₂_take_append _ _ _ hglobals
  have hdrop := List.forall₂_drop_append _ _ _ hglobals
  obtain ⟨hnodup₁, hnodup', hdisjoint⟩ := List.nodup_append.mp hnodup
  obtain ⟨hid, hnodup₂⟩ := List.nodup_cons.mp hnodup'
  -- the variables before the function
  obtain ⟨entries₁, states₁, hentries₁, hvalues₁, hstates₁, hc₁⟩ := checkVariables_spec htake rfl hnodup₁
    (fun _ _ => rfl) rfl hbefore
  have hnone (other : NodeId) : c.states.get? other = none := rfl
  have hout : id ∉ before := fun hmem => hdisjoint id hmem id List.mem_cons_self rfl
  -- the function
  obtain ⟨f, hf, hc₂⟩ := u.checkFunction_spec (c := c₁) (by rw [hc₁]; exact hdecl) (by rw [hc₁]; exact hkind)
    (by rw [hc₁, Context.stateOf, hstates₁, if_neg hout, hnone]; rfl) (by rw [hc₁]; rfl) hfunction
  -- the variables behind it
  have hnew (other : NodeId) (hother : other ∈ after) : c₂.stateOf other = .unchecked := by
    have hne : id ≠ other := fun heq => hid (heq ▸ hother)
    have hout : other ∉ before := fun hmem =>
      hdisjoint other hmem other (List.mem_cons_of_mem _ hother) rfl
    rw [hc₂, hc₁, Context.stateOf, Table.get?_insert_of_ne _ _ hne, hstates₁, if_neg hout, hnone]
    rfl
  obtain ⟨entries₂, states₂, hentries₂, hvalues₂, hstates₂, hc'⟩ := checkVariables_spec (c := c₂) hdrop
    (by rw [hc₂, hc₁]; rfl) hnodup₂ hnew (by rw [hc₂, hc₁]; rfl) hafter
  have hzip : u.globals.zip (before ++ after) = (u.globals.take before.length).zip before ++
      (u.globals.drop before.length).zip after := by
    rw [← List.zip_append htake.length_eq, List.take_append_drop]
  rw [hc₂, hc₁] at hc'
  have hentries : c'.symbols.globals.entries = entries₁ ++ entries₂ := by
    rw [hc']
    rfl
  refine ⟨⟨by rw [hc']; rfl, by rw [hc']; rfl, by rw [hc']; rfl, ?_, ⟨f, hf, ?_, ?_⟩, fun other => ?_⟩, ?_⟩
  · rw [hentries, hzip]
    exact List.rel_append hentries₁ hentries₂
  · rw [hc']
    exact Table.get?_insert_self _ _ _
  · rw [hc', ← hf.node]
    exact Table.get?_insert_self _ _ _
  · rw [hc', Context.stateOf, hstates₂, hc₂, Table.get?_insert, hc₁, hstates₁, hnone]
    split_ifs <;> simp
  · rw [hentries]
    exact List.forall_mem_append.mpr ⟨hvalues₁, hvalues₂⟩

end IntUnit

/-- The variable of the program for a variable of the unit. -/
structure IsGlobal (g : String × Scalar) (v : GlobalVariable) : Prop where
  name : v.name = LinkName.global g.1
  value : ∃ x, x.kind = g.2 ∧ StartsWith v x

/-- The variable of the program for a symbol with a value starts with the number of its kind that is
congruent to the value. -/
structure StartsAs (symbol : GlobalSymbol) (g : String × Scalar) (v : GlobalVariable) : Prop where
  isGlobal : IsGlobal g v
  value : ∀ value, symbol.value = some value →
    ∃ n, value.toInt? = some n ∧ StartsWith v (.ofInt g.2 n)

/-- What emission of the declarations at the nodes `ids` adds to the program. -/
structure Adds (ids : List NodeId) (vars : List GlobalVariable) (fns : List IrFunction)
    (c c' : Context) : Prop where
  tree : c'.tree = c.tree
  symbols : c'.symbols = c.symbols
  pending : c'.pending = c.pending
  globals : c'.program.globals = c.program.globals ++ vars
  functions : c'.program.functions = c.program.functions ++ fns
  states : ∀ id, id ∉ ids → c'.stateOf id = c.stateOf id

namespace Adds

variable {ids ids' : List NodeId} {vars vars' : List GlobalVariable} {fns fns' : List IrFunction}
  {c c₁ c₂ : Context}

theorem refl (c : Context) : Adds [] [] [] c c :=
  ⟨rfl, rfl, rfl, (List.append_nil _).symm, (List.append_nil _).symm, fun _ _ => rfl⟩

theorem trans (h : Adds ids vars fns c c₁) (h' : Adds ids' vars' fns' c₁ c₂) :
    Adds (ids ++ ids') (vars ++ vars') (fns ++ fns') c c₂ := by
  refine ⟨h'.tree.trans h.tree, h'.symbols.trans h.symbols, h'.pending.trans h.pending, ?_, ?_, ?_⟩
  · rw [h'.globals, h.globals, List.append_assoc]
  · rw [h'.functions, h.functions, List.append_assoc]
  · intro id hid
    rw [List.mem_append, not_or] at hid
    rw [h'.states id hid.2, h.states id hid.1]

end Adds

theorem IntValue.ofInt_bool (b : Bool) : IntValue.ofInt .bool (if b then 1 else 0) = .ofBool b := by
  cases b <;> rfl

/-- A constant that initializes an integer variable is the number of its kind that is congruent to the
value. -/
theorem constantValue_initializer {k : Scalar} (hk : k.isInteger = true) {value : ConstValue}
    {constant : IrConstant} (h : initializer value k.machineType = .ok constant) :
    ∃ n, value.toInt? = some n ∧ constantValue constant = .ok (IntValue.ofInt k n).word := by
  have hfloat : k.machineType.isFloat = false := by
    cases k <;> first | rfl | simp [Scalar.isInteger, Scalar.isFloat] at hk
  have hinteger : k.machineType.isInteger = true := by
    cases k <;> first | rfl | simp [Scalar.isInteger, Scalar.isFloat] at hk
  have hnumber (value : ConstValue) (h : initializer.number value k.machineType = .ok constant) :
      ∃ n, value.toInt? = some n ∧ constantValue constant = .ok (IntValue.ofInt k n).word := by
    unfold initializer.number at h
    simp only [hfloat, hinteger, Bool.false_eq_true, if_false, if_true] at h
    cases hint : value.toInt? with
    | none =>
      rw [hint] at h
      cases h
    | some v =>
      rw [hint] at h
      cases h
      refine ⟨v, rfl, ?_⟩
      rw [constantValue, intBits?_machineType hk, IntValue.word_ofInt]
      rfl
  unfold initializer at h
  split at h
  · split at h
    · rename_i b _ htype
      cases h
      obtain rfl : k = .bool := by
        cases k <;> first | rfl | cases htype
      exact ⟨_, rfl, by rw [IntValue.ofInt_bool, IntValue.word_ofBool]; rfl⟩
    · exact hnumber _ h
  · exact hnumber _ h

namespace IntUnit

variable {u : IntUnit} {decl : FunctionDecl} {c c' : Context} {id : NodeId} {d : Nat}

/-- The variable of a symbol of the unit. -/
theorem emitVariable_spec {g : String × Scalar} (hat : GlobalAt c.tree g id) {symbol : GlobalSymbol}
    (hfind : c.symbols.globals.values.find? (·.decl == id) = some symbol)
    (hsymbol : Symbolizes g id symbol) (hnew : c.stateOf id ≠ .emitted)
    (h : performWithin d (.emitDeclaration id) c = .ok () c') :
    ∃ v, StartsAs symbol g v ∧ Adds [id] [v] [] c c' := by
  obtain ⟨hk, init, isConst, hkind, -⟩ := hat
  obtain ⟨d, h⟩ := work_of_performWithin h
  obtain ⟨location, hpeel⟩ := CompileM.locate_kindOf hkind
  change CompileM.emitDeclaration id _ c = _ at h
  unfold CompileM.emitDeclaration at h
  rw [hpeel] at h
  simp only at h
  rw [CompileM.bind_of_eq_ok (CompileM.beginEmit_apply hnew)] at h
  simp only [if_true] at h
  let c₁ : Context := { c with states := c.states.insert id .emitted }
  change CompileM.emitGlobal id location _ c₁ = _ at h
  unfold CompileM.emitGlobal at h
  rw [CompileM.bind_of_eq_ok (CompileM.get_apply _ c₁)] at h
  have hfind₁ : c₁.symbols.globals.values.find? (·.decl == id) = some symbol := hfind
  rw [hfind₁] at h
  simp only [hsymbol.type] at h
  rw [CompileM.bind_of_eq_ok (CompileM.lower_scalar g.2 location)] at h
  let made (constant : IrConstant) : GlobalVariable :=
    { name := symbol.linkName, type := g.2.machineType, initializer := some constant
      isConst := symbol.isConst }
  have hstarts (constant : IrConstant) {x : IntValue} (hx : x.kind = g.2 ∧ x.WellFormed ∧
      constantValue constant = .ok x.word) : StartsWith (made constant) x :=
    ⟨hx.2.1, by rw [hx.1], hx.2.2⟩
  have hadds (constant : IrConstant)
      (hc' : c' = { c₁ with program := c₁.program.addGlobal (made constant) }) :
      Adds [id] [made constant] [] c c' := by
    rw [hc']
    refine ⟨rfl, rfl, rfl, rfl, (List.append_nil _).symm, fun other hother => ?_⟩
    have hne : id ≠ other := fun heq => hother (List.mem_singleton.mpr heq.symm)
    rw [Context.stateOf, Table.get?_insert_of_ne _ _ hne]
    rfl
  cases hvalue : symbol.value with
  | none =>
    rw [hvalue] at h
    have hzero : constantValue (.zero g.2.machineType) = .ok (IntValue.mk g.2 0).word := by
      rw [constantValue, zero_machineType hk]
    refine ⟨made (.zero g.2.machineType), ⟨⟨hsymbol.linkName, ⟨g.2, 0⟩, rfl, ?_⟩, by simp [hvalue]⟩,
      hadds _ (by cases h; rfl)⟩
    exact hstarts _ ⟨rfl, ⟨hk, g.2.inRange_zero⟩, hzero⟩
  | some value =>
    rw [hvalue] at h
    obtain ⟨constant, c₂, hinit, h⟩ := CompileM.bind_eq_ok.mp h
    cases hconstant : initializer value g.2.machineType with
    | error problem =>
      rw [hconstant] at hinit
      cases hinit
    | ok made =>
      rw [hconstant] at hinit
      cases hinit
      obtain ⟨n, hint, hn⟩ := constantValue_initializer hk hconstant
      have hv := hstarts constant ⟨rfl, IntValue.wellFormed_ofInt hk n, hn⟩
      refine ⟨made constant, ⟨⟨hsymbol.linkName, .ofInt g.2 n, rfl, hv⟩, ?_⟩, hadds _ (by cases h; rfl)⟩
      intro value' hvalue'
      cases hvalue.symm.trans hvalue'
      exact ⟨n, hint, hv⟩

/-- A variable is found by its node. -/
theorem find?_entry {qs : List ((String × Scalar) × NodeId)} {entries : List (String × GlobalSymbol)}
    (h : List.Forall₂ Entry qs entries) (hnodup : (qs.map (·.2)).Nodup)
    {q : (String × Scalar) × NodeId} (hq : q ∈ qs) :
    ∃ symbol, (entries.map (·.2)).find? (·.decl == q.2) = some symbol ∧ Symbolizes q.1 q.2 symbol := by
  induction h with
  | nil => cases hq
  | @cons first e rest entries hfirst _ ih =>
    obtain ⟨hnew, hnodup⟩ := List.nodup_cons.mp hnodup
    rcases List.mem_cons.mp hq with rfl | hrest
    · exact ⟨e.2, by simp [hfirst.2.decl], hfirst.2⟩
    · have hne : e.2.decl ≠ q.2 := by
        rw [hfirst.2.decl]
        exact fun heq => hnew (List.mem_map.mpr ⟨q, hrest, heq.symm⟩)
      obtain ⟨symbol, hfind, hsymbol⟩ := ih hnodup hrest
      exact ⟨symbol, by simpa [hne] using hfind, hsymbol⟩

/-- A variable is found by its name. -/
theorem get?_entry {qs : List ((String × Scalar) × NodeId)} {entries : List (String × GlobalSymbol)}
    (h : List.Forall₂ Entry qs entries) (hnodup : (qs.map (·.1.1)).Nodup)
    {q : (String × Scalar) × NodeId} (hq : q ∈ qs) :
    ∃ symbol, (Table.mk entries).get? q.1.1 = some symbol ∧ Symbolizes q.1 q.2 symbol := by
  induction h with
  | nil => cases hq
  | @cons first e rest entries hfirst _ ih =>
    obtain ⟨hnew, hnodup⟩ := List.nodup_cons.mp hnodup
    rcases List.mem_cons.mp hq with rfl | hrest
    · exact ⟨e.2, by simp [Table.get?, hfirst.1], hfirst.2⟩
    · have hne : e.1 ≠ q.1.1 := by
        rw [hfirst.1]
        exact fun heq => hnew (List.mem_map.mpr ⟨q, hrest, heq.symm⟩)
      obtain ⟨symbol, hfind, hsymbol⟩ := ih hnodup hrest
      exact ⟨symbol, by simpa [Table.get?, hne] using hfind, hsymbol⟩

/-- Emission of variables of the unit adds them in their order. -/
theorem emitVariables_spec {t : Tree} {gs : List (String × Scalar)} {ids : List NodeId}
    (hat : List.Forall₂ (GlobalAt t) gs ids) (htree : c.tree = t) (hnodup : ids.Nodup)
    (hnew : ∀ id ∈ ids, c.stateOf id ≠ .emitted)
    (hfind : ∀ q ∈ gs.zip ids, ∃ symbol,
      c.symbols.globals.values.find? (·.decl == q.2) = some symbol ∧ Symbolizes q.1 q.2 symbol)
    (h : (ids.forM fun id => CompileM.perform (.emitDeclaration id)) (performWithin d) c =
      .ok () c') :
    ∃ vars, List.Forall₂ IsGlobal gs vars ∧
      (∀ q ∈ gs.zip ids, ∃ symbol, c.symbols.globals.values.find? (·.decl == q.2) = some symbol ∧
        ∃ v ∈ vars, StartsAs symbol q.1 v) ∧ Adds ids vars [] c c' := by
  induction hat generalizing c with
  | nil =>
    cases h
    exact ⟨[], .nil, by simp, .refl _⟩
  | @cons g id gs ids hfirst _ ih =>
    obtain ⟨⟨⟩, c₁, hemit, h⟩ := CompileM.bind_eq_ok.mp h
    obtain ⟨symbol, hsymbol, hg⟩ := hfind (g, id) List.mem_cons_self
    obtain ⟨v, hv, hadds⟩ := emitVariable_spec (htree ▸ hfirst) hsymbol hg
      (hnew id List.mem_cons_self) hemit
    obtain ⟨hid, hnodup⟩ := List.nodup_cons.mp hnodup
    have hnew₁ (other : NodeId) (hother : other ∈ ids) : c₁.stateOf other ≠ .emitted := by
      have hout : other ∉ [id] := fun hmem => hid (List.mem_singleton.mp hmem ▸ hother)
      rw [hadds.states other hout]
      exact hnew other (List.mem_cons_of_mem _ hother)
    obtain ⟨vars, hvars, hvalues, hrest⟩ := ih (hadds.tree.trans htree) hnodup hnew₁
      (fun q hq => by rw [hadds.symbols]; exact hfind q (List.mem_cons_of_mem _ hq)) h
    refine ⟨v :: vars, .cons hv.isGlobal hvars, List.forall_mem_cons.mpr ⟨?_, fun q hq => ?_⟩,
      hadds.trans hrest⟩
    · exact ⟨symbol, hsymbol, v, List.mem_cons_self, hv⟩
    · obtain ⟨symbol', hsymbol', v', hv', hstarts⟩ := hvalues q hq
      exact ⟨symbol', hadds.symbols ▸ hsymbol', v', List.mem_cons_of_mem _ hv', hstarts⟩

/-- Numbers are passed as they are in every convention. -/
theorem classifyParams_apply {f : FunctionSymbol} (hf : u.Describes f) {location : Location}
    {p : Performer} :
    CompileM.classifyParams f location p c = .ok (u.params.map fun _ => .direct) c := by
  have hdirect (type : SourceType) (hmem : type ∈ f.params) :
      (if f.convention = .sysV then CompileM.classify type location else pure .direct) p c =
        .ok .direct c := by
    rw [hf.params] at hmem
    obtain ⟨q, -, rfl⟩ := List.mem_map.mp hmem
    rw [CompileM.ite_apply]
    split <;> rfl
  refine (CompileM.mapM_apply hdirect).trans ?_
  rw [hf.params, List.map_map]
  rfl

theorem machineSignature_spec {f : FunctionSymbol} (hf : u.Describes f) {location : Location}
    {p : Performer} {signature : FunctionSignature}
    (h : CompileM.machineSignature f (u.params.map fun _ => .direct) location p c =
      .ok signature c') :
    signature.params = u.params.map (·.2.machineType) ∧ c' = c := by
  have hparams : (f.params.zip (u.params.map fun _ => PassingClass.direct)).mapM
      (fun q : SourceType × PassingClass => CompileM.passingType q.1 q.2 location) p c =
      .ok (u.params.map (·.2.machineType)) c := by
    have hzip : f.params.zip (u.params.map fun _ => PassingClass.direct) =
        u.params.map fun q => (.scalar q.2, .direct) := by
      rw [hf.params, List.zip_map']
    have hpassing (q : SourceType × PassingClass)
        (hq : q ∈ u.params.map fun q => (SourceType.scalar q.2, PassingClass.direct)) :
        CompileM.passingType q.1 q.2 location p c =
          .ok ((q.1.scalar?.map Scalar.machineType).getD .void) c := by
      obtain ⟨k, -, rfl⟩ := List.mem_map.mp hq
      rfl
    rw [hzip]
    refine (CompileM.mapM_apply hpassing).trans ?_
    rw [List.map_map]
    rfl
  unfold CompileM.machineSignature at h
  rw [CompileM.bind_of_eq_ok hparams] at h
  by_cases hzero : f.returnsZero = true
  · rw [if_pos hzero] at h
    cases h
    exact ⟨rfl, rfl⟩
  · rw [if_neg hzero] at h
    obtain ⟨machine, hlower, -⟩ := lower_ret hf c p location
    rw [CompileM.bind_of_eq_ok hlower] at h
    cases h
    exact ⟨rfl, rfl⟩

/-- Emission of the unit's function adds a function that does what it does. -/
theorem emitFunction_spec {f : FunctionSymbol} (hf : u.Enters decl id f)
    (hdecl : u.Declares c.tree decl) (hkind : c.tree.HasKind id (.function decl))
    (hkey : c.symbols.declaredKeys.get? id = some f.key)
    (hget : c.symbols.functions.get? f.key = some f) (hnew : c.stateOf id ≠ .emitted)
    (hints : ∀ g ∈ u.globals, g.2.isInteger = true) (hnodup : (u.globals.map (·.1)).Nodup)
    (hknown : ∀ g ∈ u.globals, ∃ symbol node, c.symbols.globals.get? g.1 = some symbol ∧
      Symbolizes g node symbol)
    (h : performWithin d (.emitDeclaration id) c = .ok () c') :
    ∃ fn, u.Emitted f fn ∧ Adds [id] [] [fn] c c' := by
  obtain ⟨d, h⟩ := work_of_performWithin h
  obtain ⟨location, hpeel⟩ := CompileM.locate_kindOf hkind
  change CompileM.emitDeclaration id _ c = _ at h
  unfold CompileM.emitDeclaration at h
  rw [hpeel] at h
  simp only [hdecl.plain, Bool.false_eq_true, if_false] at h
  rw [CompileM.bind_of_eq_ok (CompileM.get_apply _ c), hkey] at h
  obtain ⟨d, h⟩ := @work_of_performWithin _ (.emitFunction f.key) _ _ _ h
  change CompileM.emitFunction f.key _ c = _ at h
  unfold CompileM.emitFunction at h
  rw [CompileM.bind_of_eq_ok (CompileM.get_apply _ c), hget] at h
  simp only [hf.node] at h
  rw [CompileM.bind_of_eq_ok (CompileM.beginEmit_apply hnew)] at h
  simp only [if_true] at h
  obtain ⟨c₁, hsymbol, hc'⟩ := CompileM.within_eq_ok.mp h
  let c₀ : Context :=
    { c with states := c.states.insert id .emitted, subst := f.subst, space := f.space, function := none }
  change CompileM.emitSymbol f _ c₀ = _ at hsymbol
  obtain ⟨location₀, hpeel₀⟩ := CompileM.locate_kindOf (c := c₀) hkind
  unfold CompileM.emitSymbol at hsymbol
  rw [hf.node, hpeel₀] at hsymbol
  obtain ⟨body, hbody, hblock⟩ := hdecl.body
  simp only [hbody] at hsymbol
  rw [CompileM.bind_of_eq_ok (classifyParams_apply hf.describes)] at hsymbol
  obtain ⟨signature, c₂, hsignature, hsymbol⟩ := CompileM.bind_eq_ok.mp hsymbol
  obtain ⟨hparams, rfl⟩ := machineSignature_spec hf.describes hsignature
  have hknown₀ : u.Known c₀ := by
    intro g hg
    obtain ⟨symbol, node, hfound, hsymbol⟩ := hknown g hg
    refine ⟨symbol, ?_, hsymbol.type, hsymbol.linkName⟩
    have hcandidates : c₀.candidates g.1 = [g.1] := by
      unfold Context.candidates
      rw [show c₀.space = [] from hf.space]
      rfl
    rw [Context.global?, hcandidates, List.findSome?_singleton]
    exact hfound
  obtain ⟨fn, hfn, hcore, -⟩ := emitBody_spec hf.describes hdecl.kinds hdecl.retKind hints hnodup hknown₀
    (c := c₀) hblock rfl rfl hparams hsymbol
  have htree := congrArg Context.tree hcore
  have hsymbols := congrArg Context.symbols hcore
  have hpending := congrArg Context.pending hcore
  have hprogram : c₁.program = c.program.addFunction fn := congrArg Context.program hcore
  have hstates : c₁.states = c.states.insert id .emitted := congrArg Context.states hcore
  refine ⟨fn, hfn, ?_⟩
  rw [hc']
  refine ⟨htree, hsymbols, hpending, ?_, congrArg Program.functions hprogram, fun other hother => ?_⟩
  · rw [List.append_nil]
    exact (congrArg Program.globals hprogram).trans rfl
  · have hne : id ≠ other := fun heq => hother (List.mem_singleton.mpr heq.symm)
    rw [Context.stateOf, hstates, Table.get?_insert_of_ne _ _ hne]
    rfl

/-- The variables of a unit are at different nodes, which are not those of functions. -/
theorem nodup_roots {t : Tree} {before after : List NodeId} (hkind : t.HasKind id (.function decl))
    (hglobals : List.Forall₂ (GlobalAt t) u.globals (before ++ after))
    (hnodup : (u.globals.map (·.1)).Nodup) : (before ++ id :: after).Nodup := by
  have hids (gs : List (String × Scalar)) (ids : List NodeId)
      (hat : List.Forall₂ (GlobalAt t) gs ids) (hnames : (gs.map (·.1)).Nodup) : ids.Nodup := by
    induction hat with
    | nil => exact List.nodup_nil
    | @cons g node gs ids hfirst hrest ih =>
      obtain ⟨hnew, hnames⟩ := List.nodup_cons.mp hnames
      refine List.nodup_cons.mpr ⟨fun hmem => ?_, ih hnames⟩
      obtain ⟨g', hg', -, init', isConst', ⟨span', hnode'⟩, -⟩ := exists_of_forall₂ hrest.flip hmem
      obtain ⟨-, init, isConst, ⟨span, hnode⟩, -⟩ := hfirst
      have hname : g.1 = g'.1 := by
        have hsame := hnode.symm.trans hnode'
        simp only [Option.some.injEq, Node.mk.injEq, NodeKind.variable.injEq,
          VariableDecl.mk.injEq] at hsame
        exact hsame.1.1
      exact hnew (List.mem_map.mpr ⟨g', hg', hname.symm⟩)
  have hout : id ∉ before ++ after := by
    intro hmem
    obtain ⟨g, -, -, init, isConst, ⟨span, hnode⟩, -⟩ := exists_of_forall₂ hglobals.flip hmem
    obtain ⟨span', hnode'⟩ := hkind
    cases hnode.symm.trans hnode'
  exact List.nodup_middle.mpr (List.nodup_cons.mpr ⟨hout, hids _ _ hglobals hnodup⟩)

theorem emitPending_apply (hpending : c.pending = [])
    (h : performWithin d .emitPending c = .ok () c') : c' = c := by
  obtain ⟨d, h⟩ := work_of_performWithin h
  change CompileM.emitPending _ c = _ at h
  unfold CompileM.emitPending at h
  rw [CompileM.bind_of_eq_ok (CompileM.get_apply _ c), hpending] at h
  rw [CompileM.bind_of_eq_ok (CompileM.modify_apply _ _ c)] at h
  cases h
  rw [← hpending]

/-- The program of a unit: its variables and a function that does what its function does. -/
structure Program (u : IntUnit) (decl : FunctionDecl) (program : UnitCompiler.Program) : Prop where
  globals : List.Forall₂ IsGlobal u.globals program.globals
  function : ∃ f fn, u.Describes f ∧ f.linkName = u.linkName decl ∧ u.Emitted f fn ∧
    program.functions = [fn]

theorem emit_spec {t : Tree} {before after : List NodeId} (hdecl : u.Declares t decl)
    (hkind : t.HasKind id (.function decl))
    (hglobals : List.Forall₂ (GlobalAt t) u.globals (before ++ after))
    (hnodup : (u.globals.map (·.1)).Nodup) (hc : u.Checked t decl (before ++ after) id c)
    (h : c.emit (before ++ id :: after) = .ok () c') : u.Program decl c'.program ∧
      ∀ q ∈ u.globals.zip (before ++ after), ∃ symbol,
        c.symbols.globals.values.find? (·.decl == q.2) = some symbol ∧
        ∃ v ∈ c'.program.globals, StartsAs symbol q.1 v := by
  let c₀ : Context := { c with phase := .emit }
  have hroots := nodup_roots hkind hglobals hnodup
  have hlength : u.globals.length = (before ++ after).length := hglobals.length_eq
  have hids : ((u.globals.zip (before ++ after)).map (·.2)).Nodup := by
    rw [List.map_snd_zip hlength.ge]
    exact (List.nodup_cons.mp (List.nodup_middle.mp hroots)).2
  have hnames : ((u.globals.zip (before ++ after)).map (·.1.1)).Nodup := by
    have hfst : ((u.globals.zip (before ++ after)).map (·.1)).map (·.1) = u.globals.map (·.1) := by
      rw [List.map_fst_zip hlength.le]
    rw [← hfst, List.map_map] at hnodup
    exact hnodup
  have hfind (q : (String × Scalar) × NodeId) (hq : q ∈ u.globals.zip (before ++ after)) :
      ∃ symbol, c₀.symbols.globals.values.find? (·.decl == q.2) = some symbol ∧
        Symbolizes q.1 q.2 symbol := find?_entry hc.globals hids hq
  have hzip : u.globals.zip (before ++ after) = (u.globals.take before.length).zip before ++
      (u.globals.drop before.length).zip after := by
    rw [← List.zip_append (List.forall₂_take_append _ _ _ hglobals).length_eq,
      List.take_append_drop]
  have hknown (g : String × Scalar) (hg : g ∈ u.globals) : ∃ symbol node,
      c₀.symbols.globals.get? g.1 = some symbol ∧ Symbolizes g node symbol := by
    rw [← List.map_fst_zip hlength.le] at hg
    obtain ⟨q, hq, rfl⟩ := List.mem_map.mp hg
    obtain ⟨symbol, hget, hsymbol⟩ := get?_entry hc.globals hnames hq
    exact ⟨symbol, q.2, hget, hsymbol⟩
  have hints (g : String × Scalar) (hg : g ∈ u.globals) : g.2.isInteger = true := by
    obtain ⟨node, -, hat⟩ := exists_of_forall₂ hglobals hg
    exact hat.1
  unfold Context.emit Context.run at h
  obtain ⟨⟨⟩, c₁, hpending, h⟩ := CompileM.bind_eq_ok.mp h
  have hc₁ : c₁ = c₀ := emitPending_apply hc.pending hpending
  rw [hc₁] at h
  obtain ⟨⟨⟩, c₄, hdeclarations, hlast⟩ := CompileM.bind_eq_ok.mp h
  obtain ⟨c₂, hbefore, hrest⟩ := CompileM.forM_append hdeclarations
  obtain ⟨⟨⟩, c₃, hfunction, hafter⟩ := CompileM.bind_eq_ok.mp hrest
  obtain ⟨hnodup₁, hnodup', hdisjoint⟩ := List.nodup_append.mp hroots
  obtain ⟨hid, hnodup₂⟩ := List.nodup_cons.mp hnodup'
  -- the variables before the function
  obtain ⟨vars₁, hvars₁, hvalues₁, hadds₁⟩ := emitVariables_spec (List.forall₂_take_append _ _ _ hglobals)
    (c := c₀) hc.tree hnodup₁ (fun other _ => hc.states other)
    (fun q hq => hfind q (hzip ▸ List.mem_append_left _ hq)) hbefore
  -- the function
  obtain ⟨f, hf, hget, hkey⟩ := hc.symbol
  have hout : id ∉ before := fun hmem => hdisjoint id hmem id List.mem_cons_self rfl
  have htree₂ : c₂.tree = t := hadds₁.tree.trans hc.tree
  have hsymbols₂ : c₂.symbols = c.symbols := hadds₁.symbols
  obtain ⟨fn, hfn, hadds₂⟩ := emitFunction_spec (c := c₂) hf (htree₂ ▸ hdecl) (htree₂ ▸ hkind)
    (hsymbols₂ ▸ hkey) (hsymbols₂ ▸ hget) (by rw [hadds₁.states id hout]; exact hc.states id) hints
    hnodup (hsymbols₂ ▸ hknown) hfunction
  -- the variables behind it
  have hadds := hadds₁.trans hadds₂
  have hnew (other : NodeId) (hother : other ∈ after) : c₃.stateOf other ≠ .emitted := by
    have hnot : other ∉ before ++ [id] := by
      intro hmem
      rcases List.mem_append.mp hmem with hmem | hmem
      · exact hdisjoint other hmem other (List.mem_cons_of_mem _ hother) rfl
      · exact hid (List.mem_singleton.mp hmem ▸ hother)
    rw [hadds.states other hnot]
    exact hc.states other
  obtain ⟨vars₂, hvars₂, hvalues₂, hadds₃⟩ := emitVariables_spec (List.forall₂_drop_append _ _ _ hglobals)
    (c := c₃) (hadds.tree.trans hc.tree) hnodup₂ hnew
    (fun q hq => by rw [hadds.symbols]; exact hfind q (hzip ▸ List.mem_append_right _ hq)) hafter
  have hall := hadds.trans hadds₃
  have hc' : c' = c₄ := emitPending_apply (hall.pending.trans hc.pending) hlast
  have hprogram : c₀.program = {} := hc.program
  have hvars : c'.program.globals = vars₁ ++ vars₂ := by
    rw [hc', hall.globals, hprogram, List.append_nil]
    rfl
  refine ⟨⟨?_, f, fn, hf.describes, hf.linkName, hfn, ?_⟩, fun q hq => ?_⟩
  · rw [hvars, ← List.take_append_drop before.length u.globals]
    exact List.rel_append hvars₁ hvars₂
  · rw [hc', hall.functions, hprogram]
    rfl
  · rw [hvars]
    rcases List.mem_append.mp (hzip ▸ hq) with hq | hq
    · obtain ⟨symbol, hsymbol, v, hv, hstarts⟩ := hvalues₁ q hq
      exact ⟨symbol, hsymbol, v, List.mem_append_left _ hv, hstarts⟩
    · obtain ⟨symbol, hsymbol, v, hv, hstarts⟩ := hvalues₂ q hq
      rw [hadds.symbols] at hsymbol
      exact ⟨symbol, hsymbol, v, List.mem_append_right _ hv, hstarts⟩

/-- What compiles is the unit's program, whose variables start with their initial values. -/
theorem compileUnit_begins {t : Tree} {roots : List NodeId} {options : CompileOptions}
    {unit : CompiledUnit} (hat : u.At t decl roots) (h : compileUnit t roots options = .ok unit) :
    u.Program decl unit.program ∧ ∀ id ∈ roots, ∀ (g : String × Scalar) (init : Option NodeId)
      (isConst : Bool), t.HasKind id (.variable ⟨g.1, some (.scalar g.2), init, isConst⟩) →
      ∃ symbol v, Initializes t id symbol.value ∧ v ∈ unit.program.globals ∧ StartsAs symbol g v := by
  obtain ⟨hdecl, hnodup, before, id, after, rfl, hkind, hglobals⟩ := hat
  unfold compileUnit at h
  cases hcheck : (Context.new t options).check (before ++ id :: after) with
  | error stop c =>
    rw [hcheck] at h
    cases h
  | ok done checked =>
    cases done
    rw [hcheck] at h
    obtain ⟨hchecked, hvalues⟩ :=
      check_spec hdecl hkind hglobals (nodup_roots hkind hglobals hnodup) hcheck
    simp only at h
    cases hemit : checked.emit (before ++ id :: after) with
    | error stop c =>
      rw [hemit] at h
      cases h
    | ok done emitted =>
      cases done
      rw [hemit] at h
      cases h
      obtain ⟨hprogram, hstarts⟩ := emit_spec hdecl hkind hglobals hnodup hchecked hemit
      refine ⟨hprogram, fun id' hid' g init isConst hvariable => ?_⟩
      obtain ⟨span', hnode'⟩ := hvariable
      have hmem : id' ∈ before ++ after := by
        have hne : id' ≠ id := by
          rintro rfl
          obtain ⟨span, hnode⟩ := hkind
          cases hnode.symm.trans hnode'
        simpa [hne] using hid'
      obtain ⟨hlength, hat⟩ := List.forall₂_iff_zip.mp hglobals
      have hsecond : id' ∈ (u.globals.zip (before ++ after)).map (·.2) := by
        rwa [List.map_snd_zip hlength.ge]
      obtain ⟨⟨g', root⟩, hzip, rfl⟩ := List.mem_map.mp hsecond
      obtain ⟨-, init', isConst', ⟨span, hnode⟩, -⟩ := hat hzip
      have hsame := hnode.symm.trans hnode'
      simp only [Option.some.injEq, Node.mk.injEq, NodeKind.variable.injEq, VariableDecl.mk.injEq,
        SourceType.scalar.injEq] at hsame
      obtain rfl : g' = g := Prod.ext hsame.1.1 hsame.1.2.1
      obtain ⟨symbol, hsymbol, v, hv, hv'⟩ := hstarts _ hzip
      obtain ⟨entry, hentry, rfl⟩ := List.mem_map.mp (List.mem_of_find?_eq_some hsymbol)
      have hroot : entry.2.decl = root := by simpa using List.find?_some hsymbol
      exact ⟨entry.2, v, hroot ▸ hvalues entry hentry, hv, hv'⟩

/-- What compiles is the unit's program. -/
theorem compileUnit_spec {t : Tree} {roots : List NodeId} {options : CompileOptions}
    {unit : CompiledUnit} (hat : u.At t decl roots) (h : compileUnit t roots options = .ok unit) :
    u.Program decl unit.program :=
  (compileUnit_begins hat h).1

end IntUnit
end UnitCompiler
