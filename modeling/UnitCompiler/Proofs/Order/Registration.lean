import Mathlib.Data.Multiset.ZeroCons
import Mathlib.Tactic.SplitIfs
import UnitCompiler.Compile.Symbols

/-!
# Registrations

What a declaration enters into the symbol tables, as a list of registrations.  Each of them reads and
writes single slots of the tables, and may be refused there.  Lists that belong to different declarations
may be carried out in any order: the tables get the same entries, or are refused all the same.
-/

namespace UnitCompiler

/-- A place in the symbol tables. -/
inductive TableSlot where
  | function (key : String)
  | overloads (name : String)
  | template (name : String)
  | instanceKey (name : String)
  | aggregate (name : String)
  | aggregateTemplate (name : String)
  | declared (name : String)
  | methods (owner name : String)
  | field (owner name : String)
  | global (name : String)
  | alias (name : String)
  | keyOf (id : NodeId)
  | nameOf (id : NodeId)

/-- What stands in a slot.  The functions that share a name come in no order. -/
@[reducible] def TableSlot.Value : TableSlot → Type
  | .function _ => Option FunctionSymbol
  | .overloads _ => Multiset String
  | .template _ | .aggregateTemplate _ | .declared _ => Option DeclarationSite
  | .instanceKey _ | .keyOf _ | .nameOf _ => Option String
  | .aggregate _ => Option AggregateSymbol
  | .methods _ _ => List String
  | .field _ _ => Option FieldSymbol
  | .global _ => Option GlobalSymbol
  | .alias _ => Option AliasEntry

namespace TableSlot

/-- The aggregate that a slot belongs to. -/
def owner? : TableSlot → Option String
  | .aggregate name => some name
  | .methods owner _ | .field owner _ => some owner
  | _ => none

/-- The declaration that a slot belongs to. -/
def decl? : TableSlot → Option NodeId
  | .keyOf id | .nameOf id => some id
  | _ => none

end TableSlot

namespace SymbolTables

def entry (s : SymbolTables) : (slot : TableSlot) → slot.Value
  | .function key => s.functions.get? key
  | .overloads name => s.overloadsOf name
  | .template name => s.templates.get? name
  | .instanceKey name => s.instances.get? name
  | .aggregate name => s.aggregates.get? name
  | .aggregateTemplate name => s.aggregateTemplates.get? name
  | .declared name => s.declaredAggregates.get? name
  | .methods owner name => s.methodsOf owner name
  | .field owner name => s.field? owner name
  | .global name => s.globals.get? name
  | .alias name => s.aliases.get? name
  | .keyOf id => s.declaredKeys.get? id
  | .nameOf id => s.declaredNames.get? id

/-- The tables hold the same, in whatever order it was entered. -/
def SameEntries (s s' : SymbolTables) : Prop := ∀ slot, s.entry slot = s'.entry slot

end SymbolTables

/-- One step of entering a declaration. -/
inductive Registration where
  | function (f : FunctionSymbol)
  | aggregate (a : AggregateSymbol)
  /-- A change of an aggregate, which may ask for it. -/
  | amend (owner : String) (change : Option AggregateSymbol → Option (Option AggregateSymbol))
  | method (owner name key : String)
  | template (name : String) (site : DeclarationSite)
  | aggregateTemplate (name : String) (site : DeclarationSite)
  | global (symbol : GlobalSymbol)
  | alias (name : String) (entry : AliasEntry)

namespace Registration

/-- A slot that is meant has to be empty. -/
def claim {α : Type} (meant : Bool) (a : α) (v : Option α) : Option (Option α) :=
  if meant then
    if v.isSome then none else some (some a)
  else some v

/-- What a registration makes of the value in a slot, unless it is refused. -/
def write : Registration → (slot : TableSlot) → slot.Value → Option slot.Value
  | .function f, .function key, v => claim (f.key == key) f v
  | .function f, .overloads name, v => some (if f.name = name then f.key ::ₘ v else v)
  | .function f, .keyOf id, v => some (if f.decl = id then some f.key else v)
  | .aggregate a, .aggregate name, v => claim (a.name == name) a v
  | .aggregate a, .field owner name, v => some <|
    if a.name = owner then
      a.fields.foldl (fun v field => if field.name = name then some field else v) v
    else v
  | .aggregate a, .nameOf id, v => some (if a.decl = id then some a.name else v)
  | .amend owner change, .aggregate name, v => if owner = name then change v else some v
  | .method owner name key, .methods owner' name', v =>
    some (if owner = owner' ∧ name = name' then v ++ [key] else v)
  | .template name site, .template name', v => claim (name == name') site v
  | .aggregateTemplate name site, .aggregateTemplate name', v => claim (name == name') site v
  | .global symbol, .global name, v => claim (symbol.name == name) symbol v
  | .alias name entry, .alias name', v => claim (name == name') entry v
  | _, _, v => some v

/-- The aggregate that a registration is about. -/
def owner? : Registration → Option String
  | .aggregate a => some a.name
  | .amend owner _ | .method owner _ _ => some owner
  | _ => none

/-- The declaration that a symbol comes from. -/
def decl? : Registration → Option NodeId
  | .function f => some f.decl
  | .aggregate a => some a.decl
  | _ => none

/-- Registrations of different declarations. -/
structure Apart (r r' : Registration) : Prop where
  owner : ∀ owner ∈ r.owner?, owner ∉ r'.owner?
  decl : ∀ id ∈ r.decl?, id ∉ r'.decl?

/-- A claim on a slot is refused where something stands. -/
theorem claim_of_some {α : Type} {key : String} {v : Option α} (h : v.isSome = true) (a : α) :
    claim (key == key) a v = none := by
  rw [claim, if_pos (beq_self_eq_true key), if_pos h]

theorem claim_claim {α : Type} (b b' : Bool) (a a' : α) (v : Option α) :
    (claim b a v).bind (claim b' a') = (claim b' a' v).bind (claim b a) := by
  unfold claim
  cases b <;> cases b' <;> cases v <;> rfl

/-- A registration leaves the slots of other aggregates alone. -/
theorem write_of_owner {r : Registration} {slot : TableSlot} {owner : String}
    (hslot : slot.owner? = some owner) (hr : r.owner? ≠ some owner) (v : slot.Value) :
    r.write slot v = some v := by
  cases slot with
  | aggregate name =>
    cases hslot
    cases r with
    | aggregate a => exact if_neg (by simpa [owner?] using hr)
    | amend owner change => exact if_neg (by simpa [owner?] using hr)
    | _ => rfl
  | methods owner name =>
    cases hslot
    cases r with
    | method owner' name' key => exact congrArg some (if_neg fun h => hr (congrArg some h.1))
    | _ => rfl
  | field owner name =>
    cases hslot
    cases r with
    | aggregate a => exact congrArg some (if_neg fun h => hr (congrArg some h))
    | _ => rfl
  | _ => cases hslot

/-- A registration leaves the slots of other declarations alone. -/
theorem write_of_decl {r : Registration} {slot : TableSlot} {id : NodeId} (hslot : slot.decl? = some id)
    (hr : r.decl? ≠ some id) (v : slot.Value) : r.write slot v = some v := by
  cases slot with
  | keyOf id =>
    cases hslot
    cases r with
    | function f => exact congrArg some (if_neg fun h => hr (congrArg some h))
    | _ => rfl
  | nameOf id =>
    cases hslot
    cases r with
    | aggregate a => exact congrArg some (if_neg fun h => hr (congrArg some h))
    | _ => rfl
  | _ => cases hslot

theorem bind_comm_of_eq_some {α : Type} {f : α → Option α} (hf : ∀ v, f v = some v)
    (g : α → Option α) (v : α) : (f v).bind g = (g v).bind f := by
  rw [funext hf, Option.bind_some, Option.bind_fun_some]

/-- Slots that belong to no aggregate and no declaration take registrations in any order. -/
theorem write_write_of_shared {slot : TableSlot} (howner : slot.owner? = none) (hdecl : slot.decl? = none)
    (r r' : Registration) (v : slot.Value) :
    (r.write slot v).bind (r'.write slot) = (r'.write slot v).bind (r.write slot) := by
  cases slot with
  | function _ | template _ | aggregateTemplate _ | global _ | «alias» _ =>
    cases r <;> cases r' <;> first
      | exact claim_claim _ _ _ _ v
      | exact bind_comm_of_eq_some (fun _ => rfl) _ v
      | exact (bind_comm_of_eq_some (fun _ => rfl) _ v).symm
  | overloads name =>
    cases r with
    | function f =>
      cases r' with
      | function f' =>
        dsimp only [write, Option.bind_some]
        split_ifs
        · rw [Multiset.cons_swap]
        all_goals rfl
      | _ => exact (bind_comm_of_eq_some (fun _ => rfl) _ v).symm
    | _ => exact bind_comm_of_eq_some (fun _ => rfl) _ v
  | instanceKey _ | declared _ => exact bind_comm_of_eq_some (fun _ => by cases r <;> rfl) _ v
  | aggregate _ | methods _ _ | field _ _ => cases howner
  | keyOf _ | nameOf _ => cases hdecl

/-- Registrations of different declarations may change places: neither sees what the other wrote. -/
theorem Apart.write_write {r r' : Registration} (h : r.Apart r') (slot : TableSlot) (v : slot.Value) :
    (r.write slot v).bind (r'.write slot) = (r'.write slot v).bind (r.write slot) := by
  cases howner : slot.owner? with
  | some owner =>
    by_cases hr : r.owner? = some owner
    · exact (bind_comm_of_eq_some (write_of_owner howner (h.owner owner hr)) _ v).symm
    · exact bind_comm_of_eq_some (write_of_owner howner hr) _ v
  | none =>
    cases hdecl : slot.decl? with
    | some id =>
      by_cases hr : r.decl? = some id
      · exact (bind_comm_of_eq_some (write_of_decl hdecl (h.decl id hr)) _ v).symm
      · exact bind_comm_of_eq_some (write_of_decl hdecl hr) _ v
    | none => exact write_write_of_shared howner hdecl r r' v

end Registration

/-! ### Lists of registrations -/

/-- What a list of registrations makes of the value in a slot, unless one of them is refused. -/
def writeAll (l : List Registration) (slot : TableSlot) (v : slot.Value) : Option slot.Value :=
  l.foldlM (fun v r => r.write slot v) v

section Lists

variable {l l' : List Registration} {slot : TableSlot}

theorem writeAll_cons (r : Registration) (v : slot.Value) :
    writeAll (r :: l) slot v = (r.write slot v).bind (writeAll l slot) := rfl

theorem writeAll_append (v : slot.Value) :
    writeAll (l ++ l') slot v = (writeAll l slot v).bind (writeAll l' slot) :=
  List.foldlM_append

/-- What every registration keeps of a slot the list keeps. -/
theorem writeAll_induction {P : slot.Value → Prop}
    (h : ∀ r ∈ l, ∀ v v', P v → r.write slot v = some v' → P v') {v v' : slot.Value} (hv : P v)
    (hwrite : writeAll l slot v = some v') : P v' := by
  induction l generalizing v with
  | nil =>
    cases hwrite
    exact hv
  | cons r rest ih =>
    obtain ⟨v₁, hfirst, hrest⟩ := Option.bind_eq_some_iff.mp hwrite
    exact ih (fun r hr => h r (List.mem_cons_of_mem _ hr)) (h r List.mem_cons_self _ _ hv hfirst) hrest

theorem write_writeAll {r : Registration} (h : ∀ r' ∈ l, r.Apart r') (v : slot.Value) :
    (r.write slot v).bind (writeAll l slot) = (writeAll l slot v).bind (r.write slot) := by
  induction l generalizing v with
  | nil => exact Option.bind_fun_some _
  | cons r' rest ih =>
    have hcomm (v : slot.Value) := (h r' List.mem_cons_self).write_write slot v
    have hrest := ih fun r' hr' => h r' (List.mem_cons_of_mem _ hr')
    calc (r.write slot v).bind (writeAll (r' :: rest) slot)
        = ((r.write slot v).bind (r'.write slot)).bind (writeAll rest slot) := by
          rw [Option.bind_assoc]
          rfl
      _ = (r'.write slot v).bind fun v => (r.write slot v).bind (writeAll rest slot) := by
          rw [hcomm, Option.bind_assoc]
      _ = (r'.write slot v).bind fun v => (writeAll rest slot v).bind (r.write slot) := by
          rw [funext hrest]
      _ = (writeAll (r' :: rest) slot v).bind (r.write slot) := by
          rw [writeAll_cons, Option.bind_assoc]

/-- Lists of different declarations may change places. -/
theorem writeAll_writeAll (h : ∀ r ∈ l, ∀ r' ∈ l', r.Apart r') (v : slot.Value) :
    (writeAll l slot v).bind (writeAll l' slot) = (writeAll l' slot v).bind (writeAll l slot) := by
  induction l generalizing v with
  | nil => exact (Option.bind_fun_some _).symm
  | cons r rest ih =>
    have hrest := ih fun r hr => h r (List.mem_cons_of_mem _ hr)
    rw [writeAll_cons, Option.bind_assoc, funext hrest, ← Option.bind_assoc,
      write_writeAll (h r List.mem_cons_self), Option.bind_assoc]
    rfl

end Lists

/-- Declarations whose registrations are apart may be entered in any order. -/
theorem writeAll_flatMap_perm {α : Type} {items items' : List α} {b : α → List Registration}
    (hperm : items.Perm items')
    (h : ∀ x ∈ items, ∀ y ∈ items, x ≠ y → ∀ r ∈ b x, ∀ r' ∈ b y, r.Apart r') (slot : TableSlot)
    (v : slot.Value) : writeAll (items.flatMap b) slot v = writeAll (items'.flatMap b) slot v := by
  have hfold (items : List α) (v : Option slot.Value) :
      v.bind (writeAll (items.flatMap b) slot) =
        items.foldl (fun v item => v.bind (writeAll (b item) slot)) v := by
    induction items generalizing v with
    | nil => exact Option.bind_fun_some v
    | cons item rest ih =>
      rw [List.flatMap_cons, List.foldl_cons, ← ih, Option.bind_assoc]
      exact congrArg (v.bind ·) (funext fun v => writeAll_append v)
  rw [← Option.bind_some v (writeAll (items.flatMap b) slot), hfold,
    ← Option.bind_some v (writeAll (items'.flatMap b) slot), hfold]
  refine hperm.foldl_eq' (fun x hx y hy v => ?_) _
  by_cases hxy : x = y
  · rw [hxy]
  · rw [Option.bind_assoc, Option.bind_assoc]
    exact congrArg (v.bind ·) (funext (writeAll_writeAll (h x hx y hy hxy)))

/-! ### Registrations in the tables -/

namespace SymbolTables

open Registration

variable {s : SymbolTables}

theorem claim_of_none {α : Type} {t : Table String α} {key : String} (h : t.get? key = none) (a : α)
    (key' : String) : claim (key == key') a (t.get? key') = some ((t.insert key a).get? key') := by
  rw [Table.get?_insert, claim]
  by_cases hkey : key = key'
  · subst hkey
    rw [if_pos (beq_self_eq_true key), if_pos rfl, h]
    rfl
  · rw [if_neg (by simpa using hkey), if_neg hkey]

theorem write_function {f : FunctionSymbol} (h : s.functions.get? f.key = none) (slot : TableSlot) :
    (function f).write slot (s.entry slot) = some ((s.addFunction f).entry slot) := by
  cases slot with
  | function key => exact claim_of_none h f key
  | overloads name =>
    refine congrArg some ?_
    change _ = (((s.overloads.update f.name [] (· ++ [f.key])).get? name).getD [] : Multiset String)
    rw [Table.update, Table.get?_insert]
    split_ifs with hname
    · subst hname
      exact (Multiset.coe_eq_coe.mpr (List.perm_append_singleton _ _)).symm
    · rfl
  | keyOf id => exact congrArg some (Table.get?_insert _ _ _ _).symm
  | _ => rfl

theorem write_method (owner name key : String) (slot : TableSlot) :
    (method owner name key).write slot (s.entry slot) = some ((s.addMethod owner name key).entry slot) := by
  cases slot with
  | methods owner' name' =>
    refine congrArg some ?_
    change _ = ((s.methods.update (owner, name) [] (· ++ [key])).get? (owner', name')).getD []
    rw [Table.update, Table.get?_insert]
    by_cases h : owner = owner' ∧ name = name'
    · obtain ⟨rfl, rfl⟩ := h
      rw [if_pos ⟨rfl, rfl⟩, if_pos rfl]
      rfl
    · rw [if_neg h, if_neg (by simpa using h)]
      rfl
  | _ => rfl

theorem get?_foldl_insert (fields : List FieldSymbol) (t : Table (String × String) FieldSymbol)
    (owner owner' name : String) :
    (fields.foldl (fun t field => t.insert (owner, field.name) field) t).get? (owner', name) =
      if owner = owner' then
        fields.foldl (fun v field => if field.name = name then some field else v) (t.get? (owner', name))
      else t.get? (owner', name) := by
  induction fields generalizing t with
  | nil => exact (ite_self _).symm
  | cons field rest ih =>
    rw [List.foldl_cons, ih, List.foldl_cons, Table.get?_insert]
    by_cases howner : owner = owner'
    · simp only [howner, Prod.mk.injEq, true_and, if_true]
    · simp only [howner, Prod.mk.injEq, false_and, if_false]

theorem write_aggregate {a : AggregateSymbol} (h : s.aggregates.get? a.name = none) (slot : TableSlot) :
    (aggregate a).write slot (s.entry slot) = some ((s.addAggregate a).entry slot) := by
  rw [addAggregate_eq]
  cases slot with
  | aggregate name => exact claim_of_none h a name
  | nameOf id => exact congrArg some (Table.get?_insert _ _ _ _).symm
  | field owner name => exact congrArg some (get?_foldl_insert _ _ _ _ _).symm
  | _ => rfl

/-- An aggregate is put in the place of what stood under its name. -/
theorem write_amend {owner : String} {change : Option AggregateSymbol → Option (Option AggregateSymbol)}
    {a : AggregateSymbol} (h : change (s.aggregates.get? owner) = some (some a)) (slot : TableSlot) :
    (amend owner change).write slot (s.entry slot) =
      some (({ s with aggregates := s.aggregates.insert owner a } : SymbolTables).entry slot) := by
  cases slot with
  | aggregate name =>
    change (if owner = name then change (s.aggregates.get? name) else some (s.aggregates.get? name)) =
      some ((s.aggregates.insert owner a).get? name)
    rw [Table.get?_insert]
    split_ifs with hname
    · rw [← hname, h]
    · rfl
  | _ => rfl

theorem write_amend_of_unchanged {owner : String}
    {change : Option AggregateSymbol → Option (Option AggregateSymbol)}
    (h : change (s.aggregates.get? owner) = some (s.aggregates.get? owner)) (slot : TableSlot) :
    (amend owner change).write slot (s.entry slot) = some (s.entry slot) := by
  cases slot with
  | aggregate name =>
    change (if owner = name then change (s.aggregates.get? name) else some (s.aggregates.get? name)) =
      some (s.aggregates.get? name)
    split_ifs with hname
    · rw [← hname, h]
    · rfl
  | _ => rfl

theorem write_template {name : String} (h : s.templates.get? name = none) (site : DeclarationSite)
    (slot : TableSlot) : (template name site).write slot (s.entry slot) =
      some (({ s with templates := s.templates.insert name site } : SymbolTables).entry slot) := by
  cases slot with
  | template name' => exact claim_of_none h site name'
  | _ => rfl

theorem write_aggregateTemplate {name : String} (h : s.aggregateTemplates.get? name = none)
    (site : DeclarationSite) (slot : TableSlot) :
    (aggregateTemplate name site).write slot (s.entry slot) = some (({ s with
      aggregateTemplates := s.aggregateTemplates.insert name site } : SymbolTables).entry slot) := by
  cases slot with
  | aggregateTemplate name' => exact claim_of_none h site name'
  | _ => rfl

theorem write_global {symbol : GlobalSymbol} (h : s.globals.get? symbol.name = none)
    (slot : TableSlot) : (global symbol).write slot (s.entry slot) =
      some (({ s with globals := s.globals.insert symbol.name symbol } : SymbolTables).entry slot) := by
  cases slot with
  | global name => exact claim_of_none h symbol name
  | _ => rfl

theorem write_alias {name : String} (h : s.aliases.get? name = none) (entry : AliasEntry)
    (slot : TableSlot) : (Registration.alias name entry).write slot (s.entry slot) =
      some (({ s with aliases := s.aliases.insert name entry } : SymbolTables).entry slot) := by
  cases slot with
  | «alias» name' => exact claim_of_none h entry name'
  | _ => rfl

end SymbolTables

end UnitCompiler
