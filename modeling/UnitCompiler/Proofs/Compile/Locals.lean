import UnitCompiler.Proofs.Compile.Assignments

/-!
# Emission of declarations

A declaration makes a slot, stores the initial value there and enters its name into the scope.
-/

namespace UnitCompiler
open Machine

/-- A new slot, with a zero in its cell. -/
theorem leads_makeSlot {A : Activation} {b : FunctionBuilder} {slot : Slot} {frame : Machine.Frame}
    {st : State} {slots : List Slot} {ν : Cell → Option IntValue} {align : Nat} (hb : b.Sound)
    (hA : A.Has (b.place (.alloca slot.kind.machineType align) (some (.ptr slot.kind.machineType))))
    (hrep : Represents A.image slots frame st.memory ν) (hnodup : (slots.map (·.cell)).Nodup)
    (hslot : slot ∈ slots) (hk : slot.kind.isInteger = true) (halign : align ≤ memoryLimit)
    (hreg : slot.operand = .register b.nextValue)
    (hothers : ∀ slot' ∈ slots, slot'.cell ≠ slot.cell →
      slot'.Outside b.nextValue (b.nextValue + 1)) :
    A.Leads 0 ⟨b.here, frame, st⟩
      (fun C => C.point = (b.place (.alloca slot.kind.machineType align)
          (some (.ptr slot.kind.machineType))).here ∧
        Agrees b.nextValue (b.nextValue + 1) frame C.frame ∧ Grows st.memory C.state.memory ∧
        Represents A.image slots C.frame C.state.memory
          (Function.update ν slot.cell (some ⟨slot.kind, 0⟩)))
      (·.isLimit = true) := by
  refine (leads_alloca hb hk halign hA hrep.base).imp fun C hC => ?_
  obtain ⟨a, ha, hle, hholds⟩ := hC.cell
  refine ⟨hC.point, hC.frame, hC.memory, hrep.make hnodup hslot (fun slot' hslot' hne => ?_)
    (hreg ▸ ha) rfl hC.memory hle hholds⟩
  exact hC.frame.eval A.image (hothers slot' hslot' hne)

namespace CompileM

variable {c c' : Context} {F : FunctionState} {E : Env} {L : Layout} {d : Nat} {id : NodeId}

/-- The other slots stand before or behind one that is made. -/
theorem outside_made {A : Activation} {b : FunctionBuilder} {L₁ : Layout} {slot : Slot}
    (hlater : Later A L₁ b (L.add slot)) (hsite : Site c F E L)
    (hb : b.nextValue = F.builder.nextValue + 1) :
    ∀ slot' ∈ L₁.slots, slot'.cell ≠ slot.cell →
      slot'.Outside F.builder.nextValue (F.builder.nextValue + 1) := by
  intro slot' hslot' hne reg hreg
  obtain ⟨more, hmore, hregs⟩ := hlater.slots
  rw [hmore, Layout.add, List.append_assoc] at hslot'
  rcases List.mem_append.mp hslot' with hslot' | hslot'
  · have hbelow := (hsite.slots slot' hslot').2
    rw [hreg] at hbelow
    exact Or.inl hbelow
  · rcases List.mem_cons.mp hslot' with rfl | hslot'
    · exact absurd rfl hne
    · obtain ⟨reg', hreg', hle⟩ := hregs slot' hslot'
      cases hreg.symm.trans hreg'
      exact Or.inr (hb ▸ hle)

/-- The slot of a number is made as it is; there are no defaults to store. -/
theorem localSlot_apply {type : SourceType} {k : Scalar} (p : Performer) (c : Context)
    (htype : type.strip = .scalar k) (hasInit : Bool) (location : Location) :
    localSlot type hasInit location p c = build (FunctionBuilder.alloca k.machineType) p c := by
  have hlower : lower type location p c = .ok k.machineType c := by
    unfold lower
    rw [bind_of_eq_ok (get_apply p c), SourceType.lower_of_strip htype]
    rfl
  have hdefaults : needsDefaults type location p c = .ok false c := by
    unfold needsDefaults fieldsOf SourceType.aggregateName?
    rw [htype]
    rfl
  unfold localSlot
  cases hasInit with
  | true =>
    rw [if_pos rfl, bind_of_eq_ok (pure_apply false p c)]
    exact bind_of_eq_ok hlower
  | false =>
    rw [if_neg Bool.false_ne_true, bind_of_eq_ok hdefaults]
    exact bind_of_eq_ok hlower

/-- A declared name leads to its slot, and all other names lead where they did. -/
theorem declare_spec {v : LocalVar} {n : Nat} {slot : Slot} {p : Performer} {isNew : Bool}
    (hsite : Site c F E L) (hslot : slot ∈ L.slots) (hcell : slot.cell = .var n)
    (hoperand : v.slot = slot.operand) (htype : v.type.strip = .scalar slot.kind)
    (h : declare v p c = .ok isNew c') (hnew : isNew = true) :
    ∃ F', Site c' F' ⟨(v.name, n) :: E.names, E.next⟩ L ∧
      Written [F.builder.current] c c' F F' L L [] ∧ F'.builder = F.builder ∧
      F'.scope.places.tail = F.scope.places.tail := by
  unfold declare at h
  rw [bind_of_eq_ok (functionState_apply hsite.function)] at h
  cases hdeclare : F.scope.declare v with
  | none =>
    rw [hdeclare] at h
    cases h
    cases hnew
  | some scope =>
    rw [hdeclare] at h
    simp only at h
    rw [bind_of_eq_ok (setFunctionState_apply _ p c)] at h
    cases h
    obtain ⟨frame, rest, hplaces, hplaces', hnone⟩ := Scope.places_declare hdeclare
    have hself : F.builder.Continues [F.builder.current] F.builder :=
      .refl hsite.sound (List.mem_singleton_self _)
    refine ⟨{ F with scope }, ⟨rfl, hsite.sound, fun name m hm => ?_, hsite.slots, hsite.nodup,
      hsite.next, hsite.flags, hsite.numbers, hsite.tail, hsite.tail_ne, hsite.tail_pos,
      hsite.exit_pos, hsite.loops, hsite.result, hsite.plain, hsite.held⟩,
      ⟨rfl, rfl, hself, ⟨[], by simp, by simp⟩, by simp, Or.inl rfl,
        fun A L₁ _ => Linked.refl A L₁ F.exitTail⟩, rfl, by rw [hplaces', hplaces]; rfl⟩
    unfold Context.place?
    rw [Option.bind_some, hplaces', findPlace_declare hnone]
    by_cases hname : v.name = name
    · subst hname
      obtain rfl : n = m := by simpa [numberOf] using hm
      refine ⟨slot, hslot, hcell, v.type, ?_, htype⟩
      simp [LocalVar.named, hoperand]
    · have hm' : numberOf E.names name = some m := by
        simpa [numberOf, hname] using hm
      obtain ⟨slot', hslot', hcell', type', hplace', htype'⟩ := hsite.visible name m hm'
      refine ⟨slot', hslot', hcell', type', ?_, htype'⟩
      unfold Context.place? at hplace'
      rw [hsite.function, Option.bind_some, hplaces] at hplace'
      have hne : ¬ name = v.named.1 := fun heq => hname heq.symm
      rw [if_neg hne]
      exact hplace'

/-- What making a slot establishes. -/
structure EmitsSlot (c c' : Context) (F F' : FunctionState) (E E' : Env) (L : Layout)
    (slot : Slot) : Prop where
  site : Site c' F' E' (L.add slot)
  written : Written [F.builder.current] c c' F F' L (L.add slot) []
  isOpen : F'.builder.Open
  places : F'.scope.places = F.scope.places
  value : F'.builder.nextValue = F.builder.nextValue + 1
  leads : ∀ A L₁ frame st ν, Later A L₁ F'.builder (L.add slot) →
    Represents A.image L₁.slots frame st.memory ν →
    A.Leads 0 ⟨F.builder.here, frame, st⟩
      (fun C => C.point = F'.builder.here ∧
        Agrees F.builder.nextValue F'.builder.nextValue frame C.frame ∧
        Grows st.memory C.state.memory ∧
        Represents A.image L₁.slots C.frame C.state.memory
          (Function.update ν slot.cell (some ⟨slot.kind, 0⟩)))
      (·.isLimit = true)

theorem emitSlot_spec {p : Performer} {k : Scalar} {cell : Cell} {o : Operand} (count : Nat)
    (hsite : Site c F E L) (ho : F.builder.Open) (hk : k.isInteger = true)
    (hnew : cell ∉ L.slots.map (·.cell))
    (hnext : ∀ n, cell = .var n ∨ cell = .flag n → n < E.next + count)
    (hflag : ∀ n, cell ≠ .flag n) (hresult : cell ≠ .result)
    (h : build (FunctionBuilder.alloca k.machineType) p c = .ok o c') :
    o = .register F.builder.nextValue ∧ ∃ F', EmitsSlot c c' F F' E (E.skip count) L ⟨cell, o, k⟩ := by
  let align := F.builder.layout.alignOf k.machineType
  have hcontinues := (FunctionBuilder.Continues.refl hsite.sound (List.mem_singleton_self _)).place ho
    (.alloca k.machineType align) (some (.ptr k.machineType))
  obtain ⟨rfl, hsite', hwritten⟩ :=
    hsite.built (FunctionBuilder.alloca_run ho _) hcontinues hsite.tail_not_mem h
  let slot : Slot := ⟨cell, .register F.builder.nextValue, k⟩
  have hadded : Site c' _ (E.skip count) (L.add slot) :=
    hsite'.addSlot count hnew hk (Nat.lt_succ_self _) hnext hresult hsite.register_not_mem
      (fun n hn => absurd hn (hflag n))
  have hgrown : Written _ c c' F _ L (L.add slot) [] := hwritten.addSlot rfl rfl (le_refl _)
  refine ⟨rfl, _, ⟨hadded, hgrown, (FunctionBuilder.open_place hsite.sound _ _).mpr ho, rfl, rfl, ?_⟩⟩
  intro A L₁ frame st ν hlater hrep
  have hslot : slot ∈ L₁.slots :=
    hlater.mem (List.mem_append_right L.slots (List.mem_singleton_self _))
  exact @leads_makeSlot A F.builder slot frame st L₁.slots ν align hsite.sound hlater.has hrep
    hlater.nodup hslot hk (alignOf_machineType_le _ _) rfl (outside_made hlater hsite rfl)

/-- A number is converted to the kind of a slot and stored there. -/
theorem emitInit_spec {p : Performer} {n : Nat} {slot : Slot} {source : Scalar} {value : Operand}
    {type : SourceType} {location : Location} (hsite : Site c F E L) (ho : F.builder.Open)
    (hslot : slot ∈ L.slots) (hcell : slot.cell = .var n) (hs : source.isInteger = true)
    (htype : type.strip = .scalar slot.kind) (hbelow : value.Below F.builder.nextValue)
    (h : (do
      let value ← coerce ⟨.scalar source, value⟩ type location
      build (FunctionBuilder.store value.operand slot.operand)) p c = .ok () c') :
    ∃ F', F'.scope.places = F.scope.places ∧ Site c' F' E L ∧
      Written [F.builder.current] c c' F F' L L [] ∧ F'.builder.Open ∧
      ∀ A L₁, Later A L₁ F'.builder L → ∀ frame st s r x, Denotes A.image frame value x →
        x.kind = source → (s.value n).isSome →
        Models A.image L₁ E.names s r ⟨F.builder.here, frame, st⟩ →
        A.Leads 0 ⟨F.builder.here, frame, st⟩
          (fun C => C.point = F'.builder.here ∧
            Models A.image L₁ E.names (s.set n (x.convert slot.kind)) r C)
          (·.isLimit = true) := by
  obtain ⟨y, c₁, hcoerce, hstore⟩ := bind_eq_ok.mp h
  obtain ⟨-, b₁, e₁⟩ := coerce_spec (hsite.ready ho) hs (hsite.slots slot hslot).1 htype hbelow hcoerce
  obtain ⟨c₂, hrun, hfollows⟩ := build_store (p := p) e₁.follows.ready y.operand slot.operand
  cases hrun.symm.trans hstore
  have hall := e₁.follows.trans hfollows
  obtain ⟨F', hF', hplaces, hsite', hwritten⟩ := hsite.follows hall
  refine ⟨F', hplaces, hsite', hwritten, hF' ▸ hall.isOpen, ?_⟩
  intro A L₁ hlater frame st s r x hx hxk hsome hmodels
  rw [hF'] at hlater ⊢
  have hlater₁ := hlater.of_continues hfollows.continues
  have hrun := e₁.computes A frame st _ hlater₁.has ⟨x, hx, hxk, rfl⟩
  refine Activation.Leads.andThen hrun fun C hC => ?_
  obtain ⟨point, frame₁, st₁⟩ := C
  obtain rfl : point = b₁.here := hC.point
  have hmodels₁ : Models A.image L₁ E.names s r ⟨b₁.here, frame₁, st₁⟩ :=
    hmodels.keep hC.frame hC.memory (hlater₁.outside hsite)
  refine (leads_storeSlot e₁.follows.continues.sound hlater.has hmodels₁.represents hlater.nodup
    (hlater.mem hslot) (by rw [hcell]; exact hsome) hC.value hC.kind).imp fun C' hC' => ?_
  rw [hcell, ← Store.cells_set] at hC'
  exact ⟨hC'.1, hmodels₁.update hC'.2.2⟩

/-- A constant is a qualified number. -/
theorem strip_qualified (isConst : Bool) (type : SourceType) :
    (if isConst && !type.isConst then SourceType.const type else type).strip = type.strip := by
  split <;> rfl

theorem state_of_spanOf {p : Performer} {span : Span} (h : spanOf id p c = .ok span c') : c' = c := by
  obtain ⟨node, c₁, hnode, h⟩ := bind_eq_ok.mp h
  cases h
  exact state_of_nodeAt hnode

/-- The end of a declaration: its name enters the scope, which had none of the name. -/
theorem enterLocal_spec {name : String} {type : SourceType} {n : Nat} {slot : Slot} {p : Performer}
    {location : Location} {problem : Problem} (hsite : Site c F E L) (hslot : slot ∈ L.slots)
    (hcell : slot.cell = .var n) (htype : type.strip = .scalar slot.kind)
    (h : (do
      let span ← spanOf id
      let declared ← declare { name, type, slot := slot.operand, span }
      if !declared then bail location problem) p c = .ok () c') :
    ∃ F', Site c' F' ⟨(name, n) :: E.names, E.next⟩ L ∧
      Written [F.builder.current] c c' F F' L L [] ∧ F'.builder = F.builder ∧
      F'.scope.places.tail = F.scope.places.tail := by
  obtain ⟨span, c₀, hspan, h⟩ := bind_eq_ok.mp h
  rw [state_of_spanOf hspan] at h
  obtain ⟨declared, c₁, hdeclare, h⟩ := bind_eq_ok.mp h
  cases declared with
  | false => cases h
  | true =>
    cases h
    exact declare_spec hsite hslot hcell rfl htype hdeclare rfl

/-- A declaration without an initial value. -/
theorem emitZero_spec {name : String} {type : SourceType} {k : Scalar} {p : Performer}
    {location : Location} {problem : Problem} (hsite : Site c F E L) (ho : F.builder.Open)
    (hk : k.isInteger = true) (htype : type.strip = .scalar k)
    (h : (do
      let slot ← localSlot type false location
      let span ← spanOf id
      let declared ← declare { name, type, slot, span }
      if !declared then bail location problem) p c = .ok () c') :
    ∃ F' L', F'.scope.places.tail = F.scope.places.tail ∧
      EmitsSimple c c' F F' E ⟨(name, E.next) :: E.names, E.next + 1⟩ L L'
        fun s => some (s.set E.next ⟨k, 0⟩) := by
  obtain ⟨o, c₁, hslot, h⟩ := bind_eq_ok.mp h
  rw [localSlot_apply p c htype] at hslot
  obtain ⟨rfl, F₁, e₁⟩ := emitSlot_spec 1 hsite ho hk
    (hsite.next_not_mem (Or.inl rfl)) (by rintro n (hn | hn) <;> cases hn; exact Nat.lt_succ_self _)
    nofun nofun hslot
  let slot : Slot := ⟨.var E.next, .register F.builder.nextValue, k⟩
  have hslot : slot ∈ (L.add slot).slots := List.mem_append_right _ (List.mem_singleton_self _)
  obtain ⟨F₂, hsite₂, hwritten₂, hb₂, hplaces₂⟩ :=
    enterLocal_spec e₁.site hslot rfl htype h
  refine ⟨F₂, _, hplaces₂.trans (congrArg _ e₁.places), hsite₂, e₁.written.trans_here hwritten₂,
    hb₂ ▸ e₁.isOpen, ?_⟩
  intro A L₁ hlater fuel frame st s r hmodels
  rw [hb₂] at hlater
  refine (e₁.leads A L₁ frame st _ hlater hmodels.represents).imp fun C hC => ?_
  obtain ⟨hpoint, -, -, hrep⟩ := hC
  rw [← Store.cells_set] at hrep
  have hmodels' := hmodels.update hrep
  exact ⟨hb₂ ▸ e₁.isOpen, hb₂ ▸ hpoint, hmodels'.enter name (by simp [Store.set])⟩

/-- A declaration behind its initial value. -/
theorem emitInitialized_spec {c₁ : Context} {e : IntExpr} {name : String} {type : SourceType}
    {source k : Scalar} {value : Operand} {p : Performer} {location : Location} {problem : Problem}
    (hsite : Site c F E L) (hvars : ∀ name ∈ e.vars, (numberOf E.names name).isSome)
    (he : Emitted c c₁ F.builder e ⟨.scalar source, value⟩) (hk : k.isInteger = true)
    (htype : type.strip = .scalar k) {kindOf : IntValue → Scalar}
    (hkindOf : ∀ x : IntValue, x.kind = source → kindOf x = k)
    (h : (do
      let slot ← localSlot type true location
      let value ← coerce ⟨.scalar source, value⟩ type location
      build (FunctionBuilder.store value.operand slot)
      let span ← spanOf id
      let declared ← declare { name, type, slot, span }
      if !declared then bail location problem) p c₁ = .ok () c') :
    ∃ F' L', F'.scope.places.tail = F.scope.places.tail ∧
      EmitsSimple c c' F F' E ⟨(name, E.next) :: E.names, E.next + 1⟩ L L'
        fun s => (s.eval E.names e).map fun x => s.set E.next (x.convert (kindOf x)) := by
  obtain ⟨_, b₁, hsource, e₁⟩ := he
  cases hsource
  obtain ⟨F₁, rfl, hplaces₁, hsite₁, hwritten₁⟩ := hsite.follows e₁.follows
  obtain ⟨o, c₂, hslot, h⟩ := bind_eq_ok.mp h
  rw [localSlot_apply p c₁ htype] at hslot
  obtain ⟨rfl, F₂, e₂⟩ := emitSlot_spec 1 hsite₁ e₁.follows.isOpen hk
    (hsite₁.next_not_mem (Or.inl rfl)) (by rintro n (hn | hn) <;> cases hn; exact Nat.lt_succ_self _)
    nofun nofun hslot
  let slot : Slot := ⟨.var E.next, .register F₁.builder.nextValue, k⟩
  have hslot : slot ∈ (L.add slot).slots := List.mem_append_right _ (List.mem_singleton_self _)
  obtain ⟨converted, c₃, hcoerce, h⟩ := bind_eq_ok.mp h
  obtain ⟨⟨⟩, c₄, hstore, h⟩ := bind_eq_ok.mp h
  obtain ⟨F₃, hplaces₃, hsite₃, hwritten₃, ho₃, hleads₃⟩ := emitInit_spec e₂.site
    e₂.isOpen hslot rfl e₁.kind htype (e₁.below.mono e₂.written.continues.value)
    (bind_eq_ok.mpr ⟨converted, c₃, hcoerce, hstore⟩)
  obtain ⟨F₄, hsite₄, hwritten₄, hb₄, hplaces₄⟩ :=
    enterLocal_spec hsite₃ hslot rfl htype h
  have hwritten₂₄ := (e₂.written.trans_here hwritten₃).trans_here hwritten₄
  refine ⟨F₄, _, ?_, hsite₄, hwritten₁.trans_here hwritten₂₄, hb₄ ▸ ho₃, ?_⟩
  · rw [hplaces₄, hplaces₃, e₂.places, hplaces₁]
  intro A L₁ hlater fuel frame st s r hmodels
  have hlater₃ := hlater.of_written hwritten₄
  have hlater₂ := hlater₃.of_written hwritten₃
  have hlater₁ := hlater₂.of_written e₂.written
  have hρ := hmodels.provides hsite hlater₁ hvars
  change Realizes A fuel _ _ (.ofStore ((s.eval E.names e).map _))
  rw [Outcome.ofStore_map]
  refine Realizes.value (e₁.computes A frame st _ hlater₁.has
    ⟨hmodels.represents.base, _, hρ, rfl⟩) fun x C hx hC => ?_
  obtain ⟨point, frame₁, st₁⟩ := C
  obtain rfl : point = F₁.builder.here := hC.point
  have hmodels₁ : Models A.image L₁ E.names s r ⟨F₁.builder.here, frame₁, st₁⟩ :=
    hmodels.keep hC.frame hC.memory (hlater₁.outside hsite)
  refine (e₂.leads A L₁ frame₁ st₁ _ hlater₂ hmodels₁.represents).andThen fun C₂ hC₂ => ?_
  obtain ⟨hpoint₂, hframe₂, -, hrep₂⟩ := hC₂
  obtain ⟨point, frame₂, st₂⟩ := C₂
  obtain rfl : point = F₂.builder.here := hpoint₂
  rw [← Store.cells_set] at hrep₂
  have hmodels₂ : Models A.image L₁ E.names (s.set E.next ⟨k, 0⟩) r ⟨F₂.builder.here, frame₂, st₂⟩ :=
    hmodels₁.update hrep₂
  refine (hleads₃ A L₁ hlater₃ frame₂ st₂ _ r x (hframe₂.denotes hC.value e₁.below) hC.kind
    (by simp [Store.set]) hmodels₂).imp fun C₃ hC₃ => ?_
  rw [Store.set_set] at hC₃
  rw [hkindOf x hC.kind]
  exact ⟨hb₄ ▸ ho₃, hb₄ ▸ hC₃.1, hC₃.2.enter name (by simp [Store.set])⟩

/-- A declaration makes the slot of its variable and stores the initial value there. -/
theorem emitLocal_spec {decl : LocalDecl} (hsite : Site c F E L) (ho : F.builder.Open)
    (hat : decl.At c.tree E.names id) (h : performWithin d (.emitStmt id) c = .ok () c') :
    ∃ F' L', F'.scope.places.tail = F.scope.places.tail ∧
      EmitsSimple c c' F F' E (Simple.after E (.declare decl)) L L' (decl.run E) := by
  obtain ⟨hkind, node, hnode, hinit⟩ := hat
  obtain ⟨d, h⟩ := work_of_performWithin h
  obtain ⟨location, hpeel⟩ := locate_kindOf hnode
  change emitStmt id _ c = _ at h
  unfold emitStmt at h
  rw [hpeel] at h
  simp only [emitLocal] at h
  cases hd : decl.init with
  | none =>
    cases node with
    | some n => simp [hd, MaybeAt] at hinit
    | none =>
      simp only [Option.mapM_none] at h
      rw [bind_of_eq_ok (pure_apply _ _ c)] at h
      cases hk : decl.kind with
      | none =>
        rw [hk] at h
        cases h
      | some k =>
        rw [hk] at h
        simp only [Option.map_some] at h
        rw [bind_of_eq_ok (resolveType_scalar k location)] at h
        obtain ⟨-, h⟩ := guard_passes h
        obtain ⟨-, h⟩ := guard_passes h
        have hrun : decl.run E = fun s => some (s.set E.next ⟨k, 0⟩) := by
          funext s
          simp [LocalDecl.run, hd, hk]
        rw [hrun]
        exact emitZero_spec hsite ho (hkind k hk) (strip_qualified decl.isConst (.scalar k)) h
  | some e =>
    cases node with
    | none => simp [hd, MaybeAt] at hinit
    | some n =>
      rw [hd] at hinit
      obtain ⟨hat, hvars⟩ := hinit
      simp only [Option.mapM_some] at h
      obtain ⟨init, c₁, hi, h⟩ := bind_eq_ok.mp h
      obtain ⟨⟨type, value⟩, hexpr, rfl⟩ := map_eq_ok.mp hi
      have hemitted := emitExpr_spec e hat (hsite.ready ho) (hsite.typed hvars) hexpr
      obtain ⟨source, b₁, rfl, e₁⟩ := hemitted
      have hrun : decl.run E = fun s => (s.eval E.names e).map fun x =>
          s.set E.next (x.convert (decl.kind.getD x.kind)) := by
        funext s
        simp [LocalDecl.run, hd]
      rw [hrun]
      cases hk : decl.kind with
      | none =>
        rw [hk] at h
        simp only [Option.map_none] at h
        rw [bind_of_eq_ok (pure_apply _ _ c₁)] at h
        obtain ⟨-, h⟩ := guard_passes h
        obtain ⟨-, h⟩ := guard_passes h
        exact emitInitialized_spec hsite hvars ⟨source, b₁, rfl, e₁⟩ e₁.kind
          (strip_qualified decl.isConst (.scalar source)) (fun x hx => hx) h
      | some k =>
        rw [hk] at h
        simp only [Option.map_some] at h
        rw [bind_of_eq_ok (resolveType_scalar k location)] at h
        obtain ⟨-, h⟩ := guard_passes h
        obtain ⟨-, h⟩ := guard_passes h
        exact emitInitialized_spec hsite hvars ⟨source, b₁, rfl, e₁⟩ (hkind k hk)
          (strip_qualified decl.isConst (.scalar k)) (fun x hx => rfl) h

/-- A statement without statements inside. -/
theorem emitSimple_spec {s : Simple} (hsite : Site c F E L) (ho : F.builder.Open)
    (hat : s.At c.tree E id) (h : performWithin d (.emitStmt id) c = .ok () c') :
    ∃ F' L', F'.scope.places.tail = F.scope.places.tail ∧
      EmitsSimple c c' F F' E (s.after E) L L' fun store => s.run E store := by
  cases s with
  | declare decl => exact emitLocal_spec hsite ho hat h
  | assign a =>
    obtain ⟨hop, hvisible, lhs, rhs, hkind, hrest⟩ := hat
    obtain ⟨d, h⟩ := work_of_performWithin h
    obtain ⟨location, hpeel⟩ := locate_kindOf hkind
    change emitStmt id _ c = _ at h
    unfold emitStmt at h
    rw [hpeel] at h
    obtain ⟨value, hexpr, -⟩ := map_eq_ok.mp h
    obtain ⟨F', hplaces, hemits⟩ :=
      emitAssignment_spec hsite ho ⟨hop, hvisible, lhs, rhs, hkind, hrest⟩ hexpr
    exact ⟨F', L, congrArg _ hplaces, hemits⟩

end CompileM
end UnitCompiler
