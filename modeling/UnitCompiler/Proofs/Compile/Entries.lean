import UnitCompiler.Proofs.Compile.Flow
import UnitCompiler.Proofs.Source.Unit

/-!
# The entry of a function

Before its body a function makes a slot for each parameter, with the argument in it, and one for its
result.  The variables of the unit have theirs from the start.
-/

namespace UnitCompiler
open Machine

/-- The arguments of a call stand in its frame. -/
structure Receives (frame : Machine.Frame) (args : List IntValue) : Prop where
  values : frame.args = args.map (·.word)
  types : frame.signature.params = args.map (·.kind.machineType)
  wellFormed : ∀ x ∈ args, x.WellFormed

namespace Receives

variable {frame frame' : Machine.Frame} {args : List IntValue}

theorem agrees (h : Receives frame args) {lo hi : Nat} (hframe : Agrees lo hi frame frame') :
    Receives frame' args :=
  ⟨hframe.args.trans h.values, (congrArg (·.params) hframe.signature).trans h.types, h.wellFormed⟩

theorem denotes (h : Receives frame args) (i : Image) {index : Nat} {x : IntValue}
    (hx : args[index]? = some x) : Denotes i frame (.argument index) x := by
  refine ⟨h.wellFormed x (List.mem_of_getElem? hx), ?_, ?_⟩
  · simp [Image.eval, h.values, hx]
  · simp [Machine.Frame.typeOf, h.types, hx]

end Receives

/-- The numbers in the cells at the entry of a function when the first `count` parameters have their
slots. -/
def entryCells (args globals : List IntValue) (count : Nat) : Cell → Option IntValue
  | .var n => if n < args.length then (args.take count)[n]? else globals[n - args.length]?
  | .flag _ => some (.ofBool false)
  | .result => none

theorem entryCells_succ {args : List IntValue} (globals : List IntValue) {index : Nat} {x : IntValue}
    (hx : args[index]? = some x) :
    entryCells args globals (index + 1) =
      Function.update (entryCells args globals index) (.var index) (some x) := by
  have hlt : index < args.length := (List.getElem?_eq_some_iff.mp hx).1
  funext cell
  cases cell with
  | var n =>
    by_cases hn : n = index
    · subst hn
      rw [Function.update_self, ← hx]
      simp [entryCells, hlt]
    · have hcell : Cell.var n ≠ .var index := fun h => hn (by cases h; rfl)
      rw [Function.update_of_ne hcell]
      simp only [entryCells, List.getElem?_take]
      have hiff : n < index + 1 ↔ n < index := by omega
      simp only [hiff]
  | flag n => simp [entryCells]
  | result => simp [entryCells]

/-- With all parameters and a result the cells are those of a store. -/
theorem entryCells_length (args globals : List IntValue) (r : IntValue) :
    (IntUnit.start args globals).cells r =
      Function.update (entryCells args globals args.length) .result (some r) := by
  funext cell
  cases cell with
  | var n => simp [Store.cells, IntUnit.start, entryCells, List.getElem?_append]
  | flag n => simp [Store.cells, IntUnit.start, entryCells]
  | result => simp [Store.cells]

/-- Code at the entry of a function from `F` to `F'`: it brings the cells from what `before` says to
what `after` says. -/
def Prepares (F F' : FunctionState) (L : Layout) (args : List IntValue)
    (before after : Cell → Option IntValue) : Prop :=
  ∀ A L₁ frame st, Later A L₁ F'.builder L → Receives frame args →
    Represents A.image L₁.slots frame st.memory before →
    A.Leads 0 ⟨F.builder.here, frame, st⟩
      (fun C => C.point = F'.builder.here ∧ Receives C.frame args ∧
        Represents A.image L₁.slots C.frame C.state.memory after)
      (·.isLimit = true)

theorem Prepares.trans {F F₁ F₂ : FunctionState} {L L' : Layout} {args : List IntValue}
    {ν ν₁ ν₂ : Cell → Option IntValue} (h : Prepares F F₁ L args ν ν₁)
    (h' : Prepares F₁ F₂ L' args ν₁ ν₂)
    (hlater : ∀ A L₁, Later A L₁ F₂.builder L' → Later A L₁ F₁.builder L) :
    Prepares F F₂ L' args ν ν₂ := by
  intro A L₁ frame st hlater₂ hargs hrep
  refine (h A L₁ frame st (hlater A L₁ hlater₂) hargs hrep).andThen ?_
  rintro ⟨point, frame', st'⟩ ⟨hpoint, hargs', hrep'⟩
  obtain rfl : point = F₁.builder.here := hpoint
  exact h' A L₁ frame' st' hlater₂ hargs' hrep'

namespace CompileM

variable {p : Performer} {c c' : Context} {F : FunctionState} {E : Env} {L : Layout}
  {location : Location}

/-- Two builder actions in a row. -/
theorem build_bind {α β : Type} (h : c.function = some F) (x : BuildM α) (f : α → BuildM β) :
    build (x >>= f) p c = (do
      let a ← build x
      build (f a)) p c := by
  have hF := Context.function_advance h (x.run F.builder).2 F.scope
  rw [build_apply h, bind_of_eq_ok (build_apply h x), build_apply hF]
  simp only [Context.advance_advance]
  rfl

theorem build_pure {α : Type} (h : c.function = some F) (a : α) :
    build (pure a) p c = .ok a c := by
  rw [build_apply h]
  exact congrArg _ (Context.advance_self h)

/-- A number is passed as it is. -/
theorem bindParam_scalar (k : Scalar) (index : Nat) (h : c.function = some F) :
    bindParam index (.scalar k) .direct location p c = (do
      let slot ← build (FunctionBuilder.alloca k.machineType)
      build (FunctionBuilder.store (.argument index) slot)
      return slot) p c := by
  have hpassing : passingType (.scalar k) .direct location p c = .ok k.machineType c := by
    unfold passingType
    rw [bind_of_eq_ok (get_apply p c)]
    rfl
  unfold bindParam
  rw [bind_of_eq_ok (lower_scalar k location), bind_of_eq_ok hpassing,
    bind_of_eq_ok (get_apply p c)]
  unfold PassingClass.packed
  rw [bind_of_eq_ok (orBail_ok location _)]
  unfold PassingClass.receive
  have hF := Context.function_advance h
    ((FunctionBuilder.alloca k.machineType).run F.builder).2 F.scope
  rw [build_bind h, bind_of_eq_ok (build_apply h _), build_bind hF, bind_of_eq_ok (build_apply hF _),
    bind_of_eq_ok (build_apply h _), bind_of_eq_ok (build_apply hF _)]
  exact build_pure (Context.function_advance hF _ _) _

/-- The names of registers are no code. -/
theorem addLocal_spec {name : LocalName} (hsite : Site c F E L) (ho : F.builder.Open)
    (h : build (FunctionBuilder.addLocal name) p c = .ok () c') :
    ∃ F', Site c' F' E L ∧ Written [F.builder.current] c c' F F' L L [] ∧ F'.builder.Open ∧
      F'.scope = F.scope ∧ F'.builder.here = F.builder.here ∧ 
      F'.builder.nextValue = F.builder.nextValue := by
  let b := F.builder
  let b' : FunctionBuilder :=
    { b with function := { b.function with locals := b.function.locals ++ [name] } }
  have hsound : b'.Sound :=
    ⟨⟨hsite.sound.ids, hsite.sound.current_lt⟩, hsite.sound.entry_le, hsite.sound.head_lt,
      hsite.sound.head⟩
  have hcontinues : b.Continues [b.current] b' :=
    ⟨hsound, le_refl _, le_refl _, .refl _ _, fun _ _ _ => ⟨rfl, rfl⟩,
      Or.inl (List.mem_singleton_self _), rfl, rfl⟩
  have hrun : (FunctionBuilder.addLocal name).run b = ((), b') := rfl
  obtain ⟨-, hsite', hw⟩ := hsite.built hrun hcontinues hsite.tail_not_mem h
  exact ⟨_, hsite', hw, ho, rfl, rfl, rfl⟩

/-- What code at the entry of a function establishes.  What the cells hold before and after it depends
on the arguments and on the variables of the unit. -/
structure EmitsEntry (kinds : List Scalar) (c c' : Context) (F F' : FunctionState) (E' : Env)
    (L L' : Layout) (before after : List IntValue → List IntValue → Cell → Option IntValue) :
    Prop where
  site : Site c' F' E' L'
  written : Written [F.builder.current] c c' F F' L L' []
  isOpen : F'.builder.Open
  prepares : ∀ args globals, args.map (·.kind) = kinds →
    Prepares F F' L' args (before args globals) (after args globals)

/-- One parameter. -/
theorem declareParam_spec {kinds : List Scalar} {name : String} {k : Scalar} {index : Nat}
    {machine : IrType} {span : Span} (problem : Problem) (hsite : Site c F E L)
    (ho : F.builder.Open) (hk : k.isInteger = true) (hkind : kinds[index]? = some k)
    (hnew : .var index ∉ L.slots.map (·.cell)) (hnext : index < E.next)
    (h : (do
      let slot ← bindParam index (.scalar k) .direct location
      build (FunctionBuilder.addLocal ⟨index, machine, some name⟩)
      let declared ← declare { name, type := .scalar k, slot, span, isParam := true }
      if !declared then bail location problem) p c = .ok () c') :
    ∃ F' L', EmitsEntry kinds c c' F F' ⟨(name, index) :: E.names, E.next⟩ L L'
        (fun args globals => entryCells args globals index)
        (fun args globals => entryCells args globals (index + 1)) ∧
      ∀ slot ∈ L'.slots, slot ∈ L.slots ∨ slot.cell = .var index := by
  obtain ⟨o, c₃, hbind, h⟩ := bind_eq_ok.mp h
  rw [bindParam_scalar k index hsite.function] at hbind
  obtain ⟨o', c₁, halloca, hbind⟩ := bind_eq_ok.mp hbind
  obtain ⟨⟨⟩, c₂, hstore, hpure⟩ := bind_eq_ok.mp hbind
  cases hpure
  have hvar (n : Nat) (hn : Cell.var index = .var n ∨ Cell.var index = .flag n) : n < E.next + 0 := by
    rcases hn with hn | hn <;> cases hn
    exact hnext
  obtain ⟨rfl, F₁, e₁⟩ := emitSlot_spec 0 hsite ho hk hnew hvar nofun nofun halloca
  let slot : Slot := ⟨.var index, .register F.builder.nextValue, k⟩
  have hslot : slot ∈ (L.add slot).slots := List.mem_append_right _ (List.mem_singleton_self _)
  -- the argument goes into the slot
  obtain ⟨c₂', hrun, hfollows⟩ := build_store (p := p) (e₁.site.ready e₁.isOpen) (.argument index)
    slot.operand
  cases hrun.symm.trans hstore
  obtain ⟨F₂, hb₂, hplaces₂, hsite₂, hw₂⟩ := e₁.site.follows hfollows
  obtain ⟨⟨⟩, c₄, hlocal, h⟩ := bind_eq_ok.mp h
  obtain ⟨F₃, hsite₃, hw₃, ho₃, hscope₃, hhere₃, hvalue₃⟩ :=
    addLocal_spec hsite₂ (hb₂ ▸ hfollows.isOpen) hlocal
  obtain ⟨declared, c₅, hdeclare, h⟩ := bind_eq_ok.mp h
  cases declared with
  | false => cases h
  | true =>
    cases h
    obtain ⟨F₄, hsite₄, hw₄, hb₄, -⟩ := declare_spec hsite₃ hslot rfl rfl rfl hdeclare rfl
    have hw₂₄ := (hw₂.trans_here hw₃).trans_here hw₄
    refine ⟨F₄, L.add slot, ⟨hsite₄, e₁.written.trans_here hw₂₄, hb₄ ▸ ho₃, ?_⟩, ?_⟩
    · intro args globals hkinds A L₁ frame st hlater hargs hrep
      have hlater₂ := hlater.of_written (hw₃.trans_here hw₄)
      have hlater₁ := hlater₂.of_written hw₂
      obtain ⟨x, hx, hxk⟩ : ∃ x, args[index]? = some x ∧ x.kind = k := by
        rw [← hkinds, List.getElem?_map] at hkind
        exact Option.map_eq_some_iff.mp hkind
      refine (e₁.leads A L₁ frame st _ hlater₁ hrep).andThen ?_
      rintro ⟨point, frame₁, st₁⟩ ⟨hpoint, hframe₁, -, hrep₁⟩
      obtain rfl : point = F₁.builder.here := hpoint
      have hargs₁ := hargs.agrees hframe₁
      rw [hb₂] at hlater₂
      refine (leads_storeSlot e₁.site.sound hlater₂.has hrep₁ hlater.nodup (hlater₁.mem hslot)
        (by simp [slot]) (hargs₁.denotes A.image hx) hxk).imp ?_
      rintro C ⟨hpoint, hframe, hrep₂⟩
      refine ⟨?_, hargs₁.agrees hframe, ?_⟩
      · rw [hb₄, hhere₃, hb₂]
        exact hpoint
      · rw [entryCells_succ globals hx]
        rwa [Function.update_idem] at hrep₂
    · intro slot' hslot'
      rcases List.mem_append.mp hslot' with hmem | hmem
      · exact Or.inl hmem
      · rw [List.mem_singleton.mp hmem]
        exact Or.inr rfl

/-- All parameters from a number on. -/
theorem declareParams_spec (kinds : List Scalar) {f : FunctionSymbol} {span : Span}
    (params : List (String × Scalar)) {index : Nat} (hsite : Site c F E L) (ho : F.builder.Open)
    (hints : ∀ q ∈ params, q.2.isInteger = true) (hkinds : kinds.drop index = params.map (·.2))
    (hnew : ∀ slot ∈ L.slots, ∀ n, slot.cell = .var n → n < index ∨ index + params.length ≤ n)
    (hnext : index + params.length ≤ E.next)
    (h : declareParams f span location index
      (params.map fun q => (q.1, .scalar q.2, .direct, q.2.machineType)) p c = .ok () c') :
    ∃ F' L', EmitsEntry kinds c c' F F'
      ⟨((params.map (·.1)).zipIdx index).reverse ++ E.names, E.next⟩ L L'
      (fun args globals => entryCells args globals index)
      (fun args globals => entryCells args globals (index + params.length)) := by
  induction params generalizing index c F E L with
  | nil =>
    cases h
    have hself : F.builder.Continues [F.builder.current] F.builder :=
      .refl hsite.sound (List.mem_singleton_self _)
    obtain ⟨-, hw⟩ := hsite.move rfl hsite.function rfl rfl (fun _ => rfl) hself hsite.tail_not_mem
    exact ⟨F, L, hsite, hw, ho, fun _ _ _ A L₁ frame st _ hargs hrep => .refl ⟨rfl, hargs, hrep⟩⟩
  | cons q rest ih =>
    obtain ⟨name, k⟩ := q
    rw [List.map_cons, declareParams] at h
    obtain ⟨o, c₁, hbind, h⟩ := bind_eq_ok.mp h
    obtain ⟨⟨⟩, c₂, hlocal, h⟩ := bind_eq_ok.mp h
    obtain ⟨declared, c₃, hdeclare, h⟩ := bind_eq_ok.mp h
    obtain ⟨hdeclared, h⟩ := guard_passes h
    obtain rfl : declared = true := by simpa using hdeclared
    have hfirst : kinds[index]? = some k := by
      rw [← Nat.add_zero index, ← List.getElem?_drop, hkinds]
      rfl
    have hrest : kinds.drop (index + 1) = rest.map (·.2) := by
      rw [← List.drop_drop, hkinds]
      rfl
    have hfree : Cell.var index ∉ L.slots.map (·.cell) := by
      intro hmem
      obtain ⟨slot, hslot, hcell⟩ := List.mem_map.mp hmem
      have hout := hnew slot hslot index hcell
      rw [List.length_cons] at hout
      omega
    rw [List.length_cons] at hnext
    obtain ⟨F₁, L₁, e₁, hslots⟩ := declareParam_spec (.parameterTwice name f.name) hsite ho
      (hints _ List.mem_cons_self) hfirst hfree (by omega) (bind_eq_ok.mpr ⟨o, c₁, hbind,
        bind_eq_ok.mpr ⟨(), c₂, hlocal, bind_eq_ok.mpr ⟨true, c₃, hdeclare, rfl⟩⟩⟩)
    have hnew₁ (slot : Slot) (hslot : slot ∈ L₁.slots) (n : Nat) (hcell : slot.cell = .var n) :
        n < index + 1 ∨ index + 1 + rest.length ≤ n := by
      rcases hslots slot hslot with hold | hadded
      · have hout := hnew slot hold n hcell
        rw [List.length_cons] at hout
        omega
      · cases hadded.symm.trans hcell
        exact Or.inl (Nat.lt_succ_self _)
    obtain ⟨F₂, L₂, e₂⟩ := ih e₁.site e₁.isOpen (fun q hq => hints q (List.mem_cons_of_mem _ hq))
      hrest hnew₁ (by change index + 1 + rest.length ≤ E.next; omega) h
    have hnames : ((((name, k) :: rest).map (·.1)).zipIdx index).reverse ++ E.names =
        ((rest.map (·.1)).zipIdx (index + 1)).reverse ++ (name, index) :: E.names := by
      simp
    rw [hnames]
    refine ⟨F₂, L₂, e₂.site, e₁.written.trans_here e₂.written, e₂.isOpen, ?_⟩
    intro args globals hargs
    rw [List.length_cons, Nat.add_comm rest.length, ← Nat.add_assoc]
    exact (e₁.prepares args globals hargs).trans (e₂.prepares args globals hargs)
      fun _ _ hlater => hlater.of_written e₂.written

/-- The slot of the result starts with a zero. -/
theorem openResult_spec {f : FunctionSymbol} {span : Span} {k : Scalar}
    (hsite : Site c F E L) (ho : F.builder.Open) (hk : k.isInteger = true)
    (hnone : F.resultSlot = none) (hplain : f.constructorOf = none) (hret : f.ret = .scalar k)
    (hF : F.ret = f.ret) (h : openResult f span location p c = .ok () c') :
    ∃ F' L', Site c' F' E L' ∧
      Written [F.builder.current] c c' { F with resultSlot := F'.resultSlot } F' L L' [] ∧
      F'.builder.Open ∧ F'.resultSlot.isSome = true ∧ ∀ args globals,
        Prepares F F' L' args (entryCells args globals args.length)
          ((IntUnit.start args globals).cells ⟨k, 0⟩) := by
  unfold openResult at h
  rw [hplain, hret] at h
  change (do
    let machine ← lower (.scalar k) location
    let slot ← build (FunctionBuilder.alloca machine)
    modifyFunction fun s => { s with resultSlot := some slot }) p c = _ at h
  rw [bind_of_eq_ok (lower_scalar k location)] at h
  obtain ⟨o, c₁, halloca, h⟩ := bind_eq_ok.mp h
  let align := F.builder.layout.alignOf k.machineType
  let b := F.builder.place (.alloca k.machineType align) (some (.ptr k.machineType))
  have hcontinues : F.builder.Continues [F.builder.current] b :=
    (FunctionBuilder.Continues.refl hsite.sound (List.mem_singleton_self _)).place ho _ _
  obtain ⟨rfl, hsite₁, hw₁⟩ :=
    hsite.built (FunctionBuilder.alloca_run ho _) hcontinues hsite.tail_not_mem halloca
  cases (modifyFunction_apply hsite₁.function _).symm.trans h
  let slot : Slot := ⟨.result, .register F.builder.nextValue, k⟩
  have hslot : slot ∈ (L.add slot).slots := List.mem_append_right _ (List.mem_singleton_self _)
  have hnew : slot.cell ∉ L.slots.map (·.cell) := by
    intro hmem
    obtain ⟨slot', hslot', hcell⟩ := List.mem_map.mp hmem
    exact hsite.result.2 hnone slot' hslot' hcell
  have hstrip : F.ret.strip = .scalar k := by rw [hF, hret]; rfl
  let F' : FunctionState := { F with builder := b, resultSlot := some slot.operand }
  have hsite₂ : Site { c₁ with function := some F' } F' E (L.add slot) :=
    hsite₁.extend 0 rfl rfl hnew hk (Nat.lt_succ_self _) nofun hsite.register_not_mem nofun
      ⟨fun o ho => ⟨slot, hslot, rfl, Option.some.inj ho, hstrip⟩, nofun⟩
  refine ⟨F', _, hsite₂, ?_, (FunctionBuilder.open_place hsite.sound _ _).mpr ho, rfl, ?_⟩
  · have hw₂ : Written [F.builder.current] c { c₁ with function := some F' }
        { F with resultSlot := some slot.operand } F' L L [] :=
      hw₁.transfer rfl rfl rfl rfl rfl rfl rfl
    have hreg : slot.operand = .register F.builder.nextValue := rfl
    exact hw₂.addSlot rfl hreg (le_refl _)
  · intro args globals A L₁ frame st hlater hreceives hrep
    refine (leads_makeSlot hsite.sound hlater.has hrep hlater.nodup (hlater.mem hslot) hk
      (alignOf_machineType_le _ _) rfl (outside_made hlater hsite rfl)).imp ?_
    rintro C ⟨hpoint, hframe, -, hrep'⟩
    refine ⟨hpoint, hreceives.agrees hframe, ?_⟩
    rw [entryCells_length]
    exact hrep'

end CompileM

namespace IntUnit

variable {u : IntUnit}

/-- The slots of the unit's variables. -/
def globalSlots (u : IntUnit) : List Slot :=
  (u.globals.zipIdx u.params.length).map fun (g, n) =>
    ⟨.var n, .global (LinkName.global g.1) g.2.machineType, g.2⟩

theorem mem_globalSlots {slot : Slot} : slot ∈ u.globalSlots ↔ ∃ g n, u.params.length ≤ n ∧
    u.globals[n - u.params.length]? = some g ∧
    slot = ⟨.var n, .global (LinkName.global g.1) g.2.machineType, g.2⟩ := by
  simp only [globalSlots, List.mem_map, Prod.exists, List.mem_zipIdx_iff_le_and_getElem?_sub,
    and_assoc, eq_comm (a := slot)]

theorem exists_global_of_numberOf {name : String} {n : Nat}
    (h : numberOf u.globalNames name = some n) :
    u.params.length ≤ n ∧ ∃ g, u.globals[n - u.params.length]? = some g ∧ g.1 = name := by
  obtain ⟨⟨name', n'⟩, hfind, rfl⟩ := Option.map_eq_some_iff.mp h
  have hname : name' = name := by simpa using List.find?_some hfind
  have hmem := List.mem_of_find?_eq_some hfind
  rw [globalNames, List.mem_zipIdx_iff_le_and_getElem?_sub, List.getElem?_map] at hmem
  obtain ⟨hle, hget⟩ := hmem
  obtain ⟨g, hg, hgname⟩ := Option.map_eq_some_iff.mp hget
  exact ⟨hle, g, hg, hgname.trans hname⟩

end IntUnit

theorem LinkName.global_injective : Function.Injective LinkName.global := by
  intro name name' h
  simp only [LinkName.global, String.append_right_inj] at h
  exact h

/-- A builder in the entry block of a function without code. -/
theorem FunctionBuilder.sound_new {function : IrFunction} (h : function.blocks = [])
    (layout : DataLayout) : (FunctionBuilder.new function layout).Sound := by
  have hhead : (FunctionBuilder.new function layout).code.head = [] := rfl
  have hids : (FunctionBuilder.new function layout).function.blocks.map (·.id) = [0] := by
    let entry : Block := { id := 0, label := some "entry" }
    change (function.blocks ++ [entry]).map (·.id) = [0]
    rw [h]
    rfl
  refine ⟨⟨hids, Nat.one_pos⟩, Nat.zero_le _, ?_, [], hhead, List.nodup_nil⟩
  rw [hhead]
  simp

/-- The function under emission before its parameters are declared. -/
def FunctionState.entry (function : IrFunction) (layout : DataLayout) (ret : SourceType)
    (returnsZero : Bool) : FunctionState where
  builder := (FunctionBuilder.new function layout).addBlock "exit"
  ret
  exit := 1
  exitTail := 1
  scope := ⟨[{}]⟩
  returnsZero

/-- The entry block is empty and open. -/
theorem FunctionState.open_entry {function : IrFunction} (h : function.blocks = [])
    (layout : DataLayout) (ret : SourceType) (returnsZero : Bool) :
    (FunctionState.entry function layout ret returnsZero).builder.Open ∧
      (FunctionState.entry function layout ret returnsZero).builder.here = ⟨0, 0⟩ := by
  have hsound := FunctionBuilder.sound_new h layout
  have hcode : (FunctionState.entry function layout ret returnsZero).builder.code =
      (FunctionBuilder.new function layout).code := FunctionBuilder.code_addBlock hsound "exit"
  have hblock : (FunctionBuilder.new function layout).function.block? 0 =
      some { id := 0, label := some "entry" } := by
    let entry : Block := { id := 0, label := some "entry" }
    change (function.blocks ++ [entry]).find? _ = _
    rw [h]
    rfl
  have hending : (FunctionBuilder.new function layout).code.ending 0 = none := by
    change ((FunctionBuilder.new function layout).function.block? 0).bind _ = _
    rw [hblock]
    rfl
  have hbody : (FunctionBuilder.new function layout).code.body 0 = [] := by
    change (((FunctionBuilder.new function layout).function.block? 0).map _).getD [] = _
    rw [hblock]
    rfl
  refine ⟨(congrFun (congrArg Code.ending hcode) 0).trans hending, ?_⟩
  change Point.mk 0 (List.length (Code.body _ 0)) = _
  rw [hcode, hbody]
  rfl

/-- The variables of the unit are known by their names. -/
def IntUnit.Known (u : IntUnit) (c : Context) : Prop :=
  ∀ g ∈ u.globals, ∃ symbol, c.global? g.1 = some symbol ∧ symbol.type = .scalar g.2 ∧
    symbol.linkName = LinkName.global g.1

/-- Before the parameters are declared the variables of the unit are visible. -/
theorem IntUnit.site_entry {u : IntUnit} {c : Context} (hknown : u.Known c)
    (hints : ∀ g ∈ u.globals, g.2.isInteger = true) (hnodup : (u.globals.map (·.1)).Nodup)
    {function : IrFunction} (hblocks : function.blocks = []) (layout : DataLayout)
    (ret : SourceType) (returnsZero : Bool) :
    Site { c with function := some (.entry function layout ret returnsZero) }
      (.entry function layout ret returnsZero) ⟨u.globalNames, u.env.next⟩ ⟨u.globalSlots, []⟩ where
  function := rfl
  sound := (FunctionBuilder.sound_new hblocks layout).addBlock "exit"
  visible name n hn := by
    obtain ⟨hle, g, hg, rfl⟩ := exists_global_of_numberOf hn
    obtain ⟨symbol, hsymbol, htype, hlink⟩ := hknown g (List.mem_of_getElem? hg)
    refine ⟨_, mem_globalSlots.mpr ⟨g, n, hle, hg, rfl⟩, rfl,
      if symbol.isConst && !symbol.type.isConst then .const symbol.type else symbol.type, ?_, ?_⟩
    · have hlower : c.symbols.lower symbol.type = .ok g.2.machineType := by
        rw [htype]
        rfl
      change Option.or none (Context.globalPlace? _ _) = _
      rw [Option.none_or]
      change (c.global? g.1).bind _ = _
      rw [hsymbol, Option.bind_some, hlower, hlink]
    · rw [CompileM.strip_qualified, htype]
      rfl
  slots slot hslot := by
    obtain ⟨g, n, -, hg, rfl⟩ := mem_globalSlots.mp hslot
    exact ⟨hints g (List.mem_of_getElem? hg), trivial⟩
  nodup := by
    have hcells : u.globalSlots.map (·.cell) =
        (List.range' u.params.length u.globals.length).map .var := by
      rw [globalSlots, List.map_map, ← List.zipIdx_map_snd, List.map_map]
      rfl
    rw [hcells]
    exact (List.nodup_range' (h := Nat.one_pos)).map fun _ _ heq => Cell.var.inj heq
  next slot hslot n hn := by
    obtain ⟨g, m, hle, hg, rfl⟩ := mem_globalSlots.mp hslot
    have hlt := (List.getElem?_eq_some_iff.mp hg).1
    obtain rfl : m = n := by
      rcases hn with hn | hn <;> cases hn
      rfl
    change m < u.params.length + u.globals.length
    omega
  flags := nofun
  numbers := List.nodup_nil
  tail := FunctionBuilder.Fresh.new (FunctionBuilder.sound_new hblocks layout) "exit"
  tail_ne := nofun
  tail_pos := nofun
  exit_pos := nofun
  loops := nofun
  result := by
    refine ⟨nofun, fun _ slot hslot => ?_⟩
    obtain ⟨g, n, -, -, rfl⟩ := mem_globalSlots.mp hslot
    exact nofun
  plain := rfl
  held := by
    refine ⟨?_, fun slot hslot n hn => ?_⟩
    · have hoperands : u.globalSlots.map (·.operand) =
          u.globals.map fun g => .global (LinkName.global g.1) g.2.machineType := by
        rw [globalSlots, List.map_map]
        conv_rhs => rw [← List.zipIdx_map_fst u.params.length u.globals, List.map_map]
        rfl
      rw [hoperands]
      refine List.Nodup.of_map (fun o => match o with | .global name _ => name | _ => "") ?_
      rw [List.map_map]
      change (u.globals.map (LinkName.global ∘ (·.1))).Nodup
      rw [← List.map_map]
      exact hnodup.map LinkName.global_injective
    · obtain ⟨g, m, -, -, rfl⟩ := mem_globalSlots.mp hslot
      cases hn

namespace IntUnit

/-- The numbers in the cells at the start of the body. -/
def bodyCells (u : IntUnit) (args globals : List IntValue) : Cell → Option IntValue :=
  match u.ret with
  | some k => (start args globals).cells ⟨k, 0⟩
  | none => entryCells args globals args.length

/-- The function of a symbol is that of the unit. -/
structure Describes (u : IntUnit) (f : FunctionSymbol) : Prop where
  params : f.params = u.params.map fun q => .scalar q.2
  names : f.paramNames = u.params.map (·.1)
  ret : f.ret = u.retType
  plain : f.constructorOf = none
  owner : f.owner = none

/-- The parameters and the result of the unit's function have their slots. -/
theorem enter_spec {u : IntUnit} {f : FunctionSymbol} (hf : u.Describes f)
    (hparams : ∀ q ∈ u.params, q.2.isInteger = true) (hret : ∀ k, u.ret = some k → k.isInteger = true)
    {p : Performer} {c c' : Context} {F : FunctionState} {span : Span} {location : Location}
    (hsite : Site c F ⟨u.globalNames, u.env.next⟩ ⟨u.globalSlots, []⟩) (ho : F.builder.Open)
    (hnone : F.resultSlot = none) (hF : F.ret = f.ret)
    (h : (do
      CompileM.declareParams f span location 0
        (u.params.map fun q : String × Scalar => (q.1, .scalar q.2, .direct, q.2.machineType))
      CompileM.openResult f span location) p c = .ok () c') :
    ∃ F' L', Site c' F' u.env L' ∧ Written [F.builder.current] c c'
        { F with resultSlot := F'.resultSlot } F' ⟨u.globalSlots, []⟩ L' [] ∧ F'.builder.Open ∧
      F'.resultSlot.isSome = u.ret.isSome ∧ ∀ args globals, args.map (·.kind) = u.params.map (·.2) →
        Prepares F F' L' args (entryCells args globals 0) (u.bodyCells args globals) := by
  obtain ⟨⟨⟩, c₁, hdeclare, h⟩ := CompileM.bind_eq_ok.mp h
  have hnew (slot : Slot) (hslot : slot ∈ u.globalSlots) (n : Nat) (hcell : slot.cell = .var n) :
      n < 0 ∨ 0 + u.params.length ≤ n := by
    obtain ⟨g, m, hle, -, rfl⟩ := mem_globalSlots.mp hslot
    cases hcell
    exact Or.inr (by omega)
  obtain ⟨F₁, L₁, e₁⟩ := CompileM.declareParams_spec (u.params.map (·.2)) u.params hsite ho
    hparams rfl hnew (by simp [env]) hdeclare
  have hfixed := FunctionState.of_fixed e₁.written.fixed
  have hnone₁ : F₁.resultSlot = none := hfixed.2.1.trans hnone
  have hlength (args : List IntValue) (hargs : args.map (·.kind) = u.params.map (·.2)) :
      0 + u.params.length = args.length := by
    simpa using (congrArg List.length hargs).symm
  cases hk : u.ret with
  | none =>
    have hvoid : f.ret = .void := by rw [hf.ret, retType, hk]; rfl
    have hnothing : CompileM.openResult f span location p c₁ = .ok () c₁ := by
      unfold CompileM.openResult
      rw [hf.plain, hvoid]
      rfl
    cases hnothing.symm.trans h
    refine ⟨F₁, L₁, e₁.site, ?_, e₁.isOpen, by rw [hnone₁]; rfl, fun args globals hargs => ?_⟩
    · rw [hnone₁, ← hnone]
      exact e₁.written
    · have hbody : u.bodyCells args globals = entryCells args globals args.length := by
        simp [bodyCells, hk]
      rw [hbody, ← hlength args hargs]
      exact e₁.prepares args globals hargs
  | some k =>
    have hscalar : f.ret = .scalar k := by rw [hf.ret, retType, hk]; rfl
    obtain ⟨F₂, L₂, hsite₂, hw₂, ho₂, hslot, hprepares⟩ := CompileM.openResult_spec
      e₁.site e₁.isOpen (hret k hk) hnone₁ hf.plain hscalar (hfixed.1.trans hF) h
    refine ⟨F₂, L₂, hsite₂, ?_, ho₂, hslot, fun args globals hargs => ?_⟩
    · have hw₁ : Written [F.builder.current] c c₁ { F with resultSlot := F₂.resultSlot }
          { F₁ with resultSlot := F₂.resultSlot } ⟨u.globalSlots, []⟩ L₁ [] :=
        e₁.written.transfer rfl rfl rfl rfl rfl rfl
          (congrArg (fun G : FunctionState => { G with resultSlot := F₂.resultSlot })
            e₁.written.fixed)
      exact hw₁.trans_here hw₂
    · have hbody : u.bodyCells args globals = (start args globals).cells ⟨k, 0⟩ := by
        simp [bodyCells, hk]
      rw [hbody]
      have hfirst := e₁.prepares args globals hargs
      rw [hlength args hargs] at hfirst
      refine hfirst.trans (hprepares args globals) fun A L₀ hlater => ?_
      have hearlier := hlater.of_written hw₂
      exact hearlier

end IntUnit

end UnitCompiler
