import UnitCompiler.Proofs.Compile.AggregateSlots

/-!
# Values of literals

A literal gives values to the first fields of an aggregate.  Each is computed where the variables of the
function are as they were before the slot was made, and stored in the place of its field, like a default that
the field has in this literal only.
-/

namespace UnitCompiler
open Machine

/-- The values that a literal gives to the first fields: integer expressions, like defaults of theirs. -/
inductive Given (t : Tree) : List PlacedField → List NodeId → List StoredDefault → Prop
  | nil (placed : List PlacedField) : Given t placed [] []
  | cons {f : PlacedField} {node : NodeId} {k : Scalar} {e : IntExpr} {rest : List PlacedField}
    {nodes : List NodeId} {vs : List StoredDefault} : f.field.type.strip = .scalar k → k.isInteger = true →
      e.At t node → Given t rest nodes vs → Given t (f :: rest) (node :: nodes) (⟨f.offset, k, e⟩ :: vs)

namespace PlacedField

/-- The fields with the given nodes for the defaults of the first ones. -/
def given : List PlacedField → List NodeId → List PlacedField
  | f :: rest, node :: nodes => { f with field := { f.field with default := some node } } :: given rest nodes
  | placed, _ => placed

@[simp] theorem given_nil (placed : List PlacedField) : given placed [] = placed := by
  cases placed <;> rfl

/-- The places stay the same. -/
theorem map_given (placed : List PlacedField) (nodes : List NodeId) :
    (given placed nodes).map (fun f => (f.offset, f.machine)) =
      placed.map fun f => (f.offset, f.machine) := by
  induction placed generalizing nodes with
  | nil => cases nodes <;> rfl
  | cons f rest ih =>
    cases nodes with
    | nil => rfl
    | cons node nodes => rw [given, List.map_cons, List.map_cons, ih]

theorem exists_of_mem_given {f : PlacedField} {placed : List PlacedField} {nodes : List NodeId}
    (h : f ∈ given placed nodes) : ∃ f₀ ∈ placed, ∃ default,
      f = { f₀ with field := { f₀.field with default } } := by
  induction placed generalizing nodes with
  | nil => cases nodes <;> cases h
  | cons f₀ rest ih =>
    cases nodes with
    | nil => exact ⟨f, h, f.field.default, rfl⟩
    | cons node nodes =>
      rcases List.mem_cons.mp h with rfl | h
      · exact ⟨f₀, List.mem_cons_self, some node, rfl⟩
      · obtain ⟨f₁, hf₁, hsame⟩ := ih h
        exact ⟨f₁, List.mem_cons_of_mem _ hf₁, hsame⟩

end PlacedField

/-- Fields with other defaults have the same places. -/
theorem SymbolTables.LaidOut.given {s : SymbolTables} {struct : IrType} {placed : List PlacedField}
    (h : s.LaidOut struct placed) (nodes : List NodeId) :
    s.LaidOut struct (PlacedField.given placed nodes) where
  shape := h.shape
  size := h.size
  piece := by
    intro f hf
    obtain ⟨f₀, hf₀, default, rfl⟩ := PlacedField.exists_of_mem_given hf
    exact h.piece f₀ hf₀
  index := by
    intro f hf
    obtain ⟨f₀, hf₀, default, rfl⟩ := PlacedField.exists_of_mem_given hf
    exact h.index f₀ hf₀
  lowered := by
    intro f hf
    obtain ⟨f₀, hf₀, default, rfl⟩ := PlacedField.exists_of_mem_given hf
    exact h.lowered f₀ hf₀
  apart := by
    let Before (p p' : Nat × IrType) : Prop := p.1 + layout.sizeOf p.2 ≤ p'.1
    have hpairs : (placed.map fun f => (f.offset, f.machine)).Pairwise Before := List.pairwise_map.mpr h.apart
    rw [← PlacedField.map_given placed nodes] at hpairs
    exact List.pairwise_map.mp hpairs

namespace Given

variable {s : SymbolTables} {t : Tree} {placed : List PlacedField} {nodes : List NodeId}
  {vs ds : List StoredDefault}

theorem length_le (h : Given t placed nodes vs) : nodes.length ≤ placed.length := by
  induction h with
  | nil => exact Nat.zero_le _
  | cons _ _ _ _ ih => exact Nat.succ_le_succ ih

/-- What is given takes the place of the defaults of the first fields. -/
theorem defaults (h : Given t placed nodes vs) (hds : s.Defaults t (placed.drop nodes.length) ds) :
    s.Defaults t (PlacedField.given placed nodes) (vs ++ ds) := by
  induction h with
  | nil placed =>
    rw [PlacedField.given_nil]
    exact hds
  | cons htype hk hat _ ih => exact .own rfl htype hk hat (ih hds)

end Given

/-- A slot behind a memory in which variables have values. -/
structure Offers (c : Context) (A : Activation) (ρ : String → IntValue) (frame : Machine.Frame) (s : State)
    (slot : Operand) (struct : IrType) (names : List String) (m : Memory) (a : Nat) : Prop where
  slot : Carries A.image frame slot (.ptr a) (.ptr struct)
  grows : Grows m s.memory
  base : memoryBase ≤ m.size
  behind : m.size ≤ a
  inside : a + layout.sizeOf struct ≤ s.memory.size
  address : a + layout.sizeOf struct ≤ maxU64
  provides : Provides c A frame m ρ names

/-- An action emitted code from `b` to `b'` that stores the values of a literal in the slot. -/
structure EmitsGiven (c c' : Context) (b b' : FunctionBuilder) (slot : Operand) (struct : IrType)
    (vs : List StoredDefault) : Prop where
  follows : Follows c c' b b'
  stores : ∀ A frame s m a ρ, A.Has b' → Offers c A ρ frame s slot struct (StoredDefault.names vs) m a →
    StoresDefaults A b b' frame s a vs (StoredDefault.values ρ vs)

/-- The code that stores one value and then the others. -/
theorem EmitsGiven.append {c c₁ c' : Context} {b b₁ b' : FunctionBuilder} {slot : Operand} {struct : IrType}
    {vs vs' : List StoredDefault} (h : EmitsGiven c c₁ b b₁ slot struct vs)
    (h' : EmitsGiven c₁ c' b₁ b' slot struct vs') (hslot : slot.Below b.nextValue)
    (ht : Typed c b (StoredDefault.names vs'))
    (hapart : ∀ d ∈ vs, ∀ d' ∈ vs', d.offset + d.kind.bytes ≤ d'.offset) :
    EmitsGiven c c' b b' slot struct (vs ++ vs') := by
  refine ⟨h.follows.trans h'.follows, fun A frame s m a ρ hA hoffers => ?_⟩
  have hle := h.follows.continues.value
  have hprovides := hoffers.provides
  rw [StoredDefault.names_append] at hprovides
  rw [StoredDefault.values_append]
  have hfirst : Offers c A ρ frame s slot struct (StoredDefault.names vs) m a :=
    { hoffers with provides := fun name hname => hprovides name (List.mem_append_left _ hname) }
  refine (h.stores A frame s m a ρ (hA.of_continues h'.follows.continues) hfirst).append hle
    h'.follows.continues.value hapart fun xs C hC => ?_
  refine h'.stores A C.frame C.state m a ρ hA
    { slot := hC.frame.carries hoffers.slot hslot
      grows := hC.memory.grows hoffers.grows hoffers.behind
      base := hoffers.base
      behind := hoffers.behind
      inside := hoffers.inside.trans hC.memory.size
      address := hoffers.address
      provides := ?_ }
  have hnext : Provides c A frame m ρ (StoredDefault.names vs') :=
    fun name hname => hprovides name (List.mem_append_right _ hname)
  exact hnext.mono (fun _ => id) ht h.follows hC.frame (.refl m)

namespace CompileM

variable {p : Performer} {c : Context} {b : FunctionBuilder} {d : Nat} {location : Location}
  {slot : Operand} {struct : IrType} {s : SymbolTables} {t : Tree} {f : PlacedField}
  {placed rest : List PlacedField} {nodes : List NodeId} {vs : List StoredDefault}

/-- One value of a literal. -/
theorem storeField_spec {node : NodeId} {k : Scalar} {e : IntExpr} (location : Location)
    (hlaid : s.LaidOut struct (f :: rest)) (htype : f.field.type.strip = .scalar k) (hk : k.isInteger = true)
    (hat : e.At c.tree node) (hd : e.height ≤ d) (hr : Ready c b) (ht : Typed c b e.vars)
    (hslot : slot.Below b.nextValue) :
    ∃ c' b', (do
        let value ← coerce (← perform (.emitExpr node)) f.field.type location
        let place ← fieldPlace slot f.field location
        build (FunctionBuilder.store value.operand place.address)) (performWithin d) c = .ok () c' ∧
      EmitsGiven c c' b b' slot struct [⟨f.offset, k, e⟩] := by
  obtain ⟨value, c₁, b₁, hvalue, e₁⟩ := emitValue_spec location hr hat ht hd hk htype
  obtain ⟨c₂, hplace, hfollows₂⟩ := fieldPlace_spec (p := performWithin d) slot location e₁.follows.ready
    (SourceType.lower_of_strip htype c₁.symbols)
  obtain ⟨c₃, hstore, hfollows₃⟩ := build_store (p := performWithin d) hfollows₂.ready value.operand
    (.register b₁.nextValue)
  refine ⟨c₃, _, ?_, (e₁.follows.trans hfollows₂).trans hfollows₃, ?_⟩
  · obtain ⟨r, c', hexpr, hcoerce⟩ := bind_eq_ok.mp hvalue
    rw [bind_of_eq_ok hexpr, bind_of_eq_ok hcoerce, bind_of_eq_ok hplace]
    exact hstore
  · intro A frame st m a ρ hA hoffers
    have hA₂ := hA.of_continues hfollows₃.continues
    have hinside := hlaid.inside List.mem_cons_self
    rw [SymbolTables.sizeOf_of_lowered (hlaid.lowered f List.mem_cons_self) htype] at hinside
    have hbase := hoffers.base.trans hoffers.behind
    have hroom := hoffers.inside
    have haddress : a + f.offset ≤ maxU64 := by
      have := hoffers.address
      omega
    have hprovides := hoffers.provides
    rw [StoredDefault.names_singleton] at hprovides
    have hfit : memoryBase ≤ st.memory.size ∧ ∃ ρ', Provides c A frame st.memory ρ' e.vars ∧
        (e.eval ρ).map (·.convert k) = (e.eval ρ').map (·.convert k) :=
      ⟨hoffers.base.trans hoffers.grows.size, ρ,
        hprovides.mono (fun _ => id) ht (.refl hr) (.refl _ b.nextValue _) hoffers.grows, rfl⟩
    rw [StoredDefault.values_singleton]
    refine .of_value k.machineType (e₁.computes A frame st _ (hA₂.of_continues hfollows₂.continues) hfit)
      (fun x C hC => ?_) e₁.below e₁.follows.continues.value hfollows₂.continues.value
      hfollows₂.continues.sound hA ⟨by simp only; omega, by simp only; omega⟩
    exact leads_fieldPtr k.machineType e₁.follows.continues.sound hA₂ (hC.frame.carries hoffers.slot hslot)
      hlaid.shape (hlaid.index f List.mem_cons_self) (hlaid.piece f List.mem_cons_self) haddress

/-- The values of a literal are stored one after the other. -/
theorem storeFields_spec (h : Given t placed nodes vs) :
    ∃ depth, ∀ d ≥ depth, ∀ {c : Context} {b : FunctionBuilder} {struct : IrType} (slot : Operand)
      (location : Location), s.LaidOut struct placed → c.tree = t → Ready c b →
      Typed c b (StoredDefault.names vs) → slot.Below b.nextValue →
      vs.Pairwise (fun d d' => d.offset + d.kind.bytes ≤ d'.offset) →
      ∃ c' b', storeFields slot location ((placed.map (·.field)).zip nodes) (performWithin d) c = .ok () c' ∧
        EmitsGiven c c' b b' slot struct vs := by
  induction h with
  | nil placed =>
    refine ⟨0, fun d _ c b struct slot location _ _ hr _ _ _ => ⟨c, b, ?_, .refl hr, ?_⟩⟩
    · rw [List.zip_nil_right]
      rfl
    · exact fun _ _ _ _ _ _ _ _ => .nil
  | @cons f node k e rest nodes vs htype hk hat hrest ih =>
    obtain ⟨n, hn⟩ := ih
    refine ⟨max e.height n, fun d hd c b struct slot location hlaid htree hr ht hslot hapart => ?_⟩
    subst htree
    rw [List.pairwise_cons] at hapart
    have htypes : Typed c b (StoredDefault.names vs) := ht.subset fun name => List.mem_append_right _
    obtain ⟨c₁, b₁, hfirst, e₁⟩ := storeField_spec location hlaid htype hk hat
      ((le_max_left _ _).trans hd) hr (ht.subset fun name => List.mem_append_left _) hslot
    obtain ⟨c₂, b₂, hnext, e₂⟩ := hn d ((le_max_right _ _).trans hd) slot location hlaid.tail
      e₁.follows.tree e₁.follows.ready (htypes.follows e₁.follows)
      (hslot.mono e₁.follows.continues.value) hapart.2
    refine ⟨c₂, b₂, (bind_of_eq_ok hfirst).trans hnext, e₁.append e₂ hslot htypes fun v hv => ?_⟩
    obtain rfl := List.mem_singleton.mp hv
    exact hapart.1

end CompileM

end UnitCompiler
