import UnitCompiler.Proofs.Compile.Sites

/-!
# Emission of assignments and declarations

The code of a simple statement stores the number that the statement gives to its variable, into the
slot of the variable.
-/

namespace UnitCompiler
open Machine

namespace CompileM

variable {p : Performer} {c c' : Context} {b : FunctionBuilder} {d : Nat} {location : Location}

/-- One more store. -/
theorem build_store (hr : Ready c b) (o slot : Operand) :
    ∃ c', build (FunctionBuilder.store o slot) p c = .ok () c' ∧
      Follows c c' b (b.place (.store o slot none false) none) := by
  obtain ⟨F, hF, rfl⟩ := hr.function
  have hrun := build_apply (p := p) hF (FunctionBuilder.store o slot)
  rw [FunctionBuilder.store_run hr.isOpen] at hrun
  refine ⟨_, hrun, ⟨F, F.scope, hF, rfl, rfl, rfl⟩, ?_, ?_⟩
  · exact (FunctionBuilder.Continues.refl hr.sound (List.mem_singleton_self _)).place hr.isOpen _ _
  · exact (FunctionBuilder.open_place hr.sound _ _).mpr hr.isOpen

/-- The number that an assignment stores, before it is stored. -/
theorem storeAssignment_spec {a : Assignment} {place : Place} {k : Scalar} {rhs : NodeId}
    {value : Rvalue} (hr : Ready c b) (ht : Typed c b (a.name :: a.value.vars))
    (hat : a.value.At c.tree rhs) (hplace : c.place? a.name = some place)
    (hk : k.isInteger = true) (htype : place.type.strip = .scalar k)
    (h : storeAssignment a.op place rhs location (performWithin d) c = .ok value c') :
    ∃ o c₁ b₁, Emits c c₁ b b₁ o k (fun A frame s v => memoryBase ≤ s.memory.size ∧
        ∃ ρ, Provides c A frame s.memory ρ (a.name :: a.value.vars) ∧ v = a.result? ρ) ∧
      build (FunctionBuilder.store o place.address) (performWithin d) c₁ = .ok () c' := by
  replace h := (guard_passes h).2
  -- the number before its conversion to the kind of the variable
  have hcompute : ∃ (x : Rvalue) (c₁ : Context) (k₁ : Scalar) (b₁ : FunctionBuilder),
      x.type = .scalar k₁ ∧
      Emits c c₁ b b₁ x.operand k₁ (fun A frame s v => memoryBase ≤ s.memory.size ∧
        ∃ ρ, Provides c A frame s.memory ρ (a.name :: a.value.vars) ∧ v = a.compute? ρ) ∧
      (do
        let value ← coerce x place.type.strip location
        build (FunctionBuilder.store value.operand place.address)
        return value) (performWithin d) c₁ = .ok value c' := by
    unfold Assignment.compute?
    cases hop : a.op.compoundBase? with
    | none =>
      rw [hop] at h
      obtain ⟨x, c₁, hexpr, h⟩ := bind_eq_ok.mp h
      obtain ⟨k₁, b₁, hx, e₁⟩ :=
        emitExpr_spec a.value hat hr (ht.subset fun name => List.mem_cons_of_mem _) hexpr
      refine ⟨x, c₁, k₁, b₁, hx, e₁.of_imp ?_, h⟩
      rintro A frame s v ⟨hbase, ρ, hρ, rfl⟩
      exact ⟨hbase, ρ, fun name hname => hρ name (List.mem_cons_of_mem _ hname), rfl⟩
    | some op =>
      rw [hop] at h
      obtain ⟨current, c₁, hload, h⟩ := bind_eq_ok.mp h
      obtain ⟨right, c₂, hright, h⟩ := bind_eq_ok.mp h
      obtain ⟨x, c₃, hx, h⟩ := bind_eq_ok.mp h
      have hcurrent := emitted_var hr hplace hk htype hload
      obtain ⟨k₃, b₃, hx, e₃⟩ := emitRight_spec (l := .var a.name) hcurrent (emitExpr_spec a.value)
        hat ht (bind_eq_ok.mpr ⟨right, c₂, hright, hx⟩)
      exact ⟨x, c₃, k₃, b₃, hx, e₃, h⟩
  obtain ⟨⟨_, x⟩, c₁, k₁, b₁, rfl, e₁, h⟩ := hcompute
  obtain ⟨y, c₂, hcoerce, h⟩ := bind_eq_ok.mp h
  obtain ⟨⟨⟩, c₃, hstore, hpure⟩ := bind_eq_ok.mp h
  cases hpure
  have hstrip : place.type.strip.strip = .scalar k := by rw [htype]; rfl
  obtain ⟨-, b₂, e₂⟩ := coerce_spec e₁.follows.ready e₁.kind hk hstrip e₁.below hcoerce
  refine ⟨value.operand, c₂, b₂, e₁.andThen e₂ ?_, hstore⟩
  rintro A frame s v ⟨hbase, ρ, hρ, rfl⟩
  obtain ⟨place', hplace', htype', -⟩ := hρ a.name List.mem_cons_self
  cases hplace.symm.trans hplace'
  cases htype.symm.trans htype'
  refine ⟨_, some ∘ (·.convert (ρ a.name).kind), ⟨hbase, ρ, hρ, rfl⟩, Option.map_eq_bind, ?_⟩
  rintro x C - hC
  exact ⟨x, hC.value, hC.kind, rfl⟩

end CompileM

section Runs

variable {A : Activation} {b : FunctionBuilder} {slots : List Slot} {ν : Cell → Option IntValue}
  {x : IntValue} {frame : Machine.Frame} {st : State} {o : Operand} {slot : Slot}

/-- A store into the slot of a cell that has a number. -/
theorem leads_storeSlot (hb : b.Sound) (hA : A.Has (b.place (.store o slot.operand none false) none))
    (hrep : Represents A.image slots frame st.memory ν) (hnodup : (slots.map (·.cell)).Nodup)
    (hslot : slot ∈ slots) (hsome : (ν slot.cell).isSome)
    (hx : Denotes A.image frame o x) (hkind : x.kind = slot.kind) :
    A.Leads 0 ⟨b.here, frame, st⟩
      (fun C => C.point = (b.place (.store o slot.operand none false) none).here ∧
        Agrees b.nextValue (b.nextValue + 1) frame C.frame ∧
        Represents A.image slots C.frame C.state.memory (Function.update ν slot.cell (some x)))
      (·.isLimit = true) := by
  obtain ⟨y, hy⟩ := Option.isSome_iff_exists.mp hsome
  obtain ⟨hkind', a, ha, hholds⟩ := hrep.cell slot hslot y hy
  have haccess := hholds.access
  rw [hkind', ← hkind] at haccess
  refine (leads_store hb hA hx ha haccess).imp fun C hC => ⟨hC.point, hC.frame ▸ .refl _ _ _, ?_⟩
  rw [hC.frame]
  exact hrep.store hnodup hslot hsome ha hkind hC.size hC.cell hC.bytes

theorem Outcome.ofStore_map {α : Type} (v : Option α) (f : α → Store) :
    Outcome.ofStore (v.map f) = v.elim .fault fun x => .done .next (f x) := by
  cases v <;> rfl

end Runs

/-- What the emission of a statement without statements inside establishes. -/
structure EmitsSimple (c c' : Context) (F F' : FunctionState) (E E' : Env) (L L' : Layout)
    (run : Store → Option Store) : Prop where
  site : Site c' F' E' L'
  written : Written [F.builder.current] c c' F F' L L' []
  isOpen : F'.builder.Open
  runs : Runs F F' E E' L' fun _ s => .ofStore (run s)

namespace CompileM

variable {c c' : Context} {F : FunctionState} {E : Env} {L : Layout} {d : Nat} {id : NodeId}

/-- An assignment stores into the slot of its variable. -/
theorem emitAssignment_spec {a : Assignment} {value : Rvalue} (hsite : Site c F E L)
    (ho : F.builder.Open) (hat : a.At c.tree E.names id)
    (h : performWithin d (.emitExpr id) c = .ok value c') :
    ∃ F', F'.scope.places = F.scope.places ∧ EmitsSimple c c' F F' E E L L (a.run E.names) := by
  obtain ⟨hop, hvisible, lhs, rhs, hkind, hlhs, hexpr, hvars⟩ := hat
  obtain ⟨n, hn⟩ := Option.isSome_iff_exists.mp hvisible
  obtain ⟨slot, hslot, hcell, type, hplace, htype⟩ := hsite.visible a.name n hn
  have hnames : ∀ name ∈ a.name :: a.value.vars, (numberOf E.names name).isSome := by
    intro name hname
    rcases List.mem_cons.mp hname with rfl | hname
    · exact hvisible
    · exact hvars name hname
  have hr := hsite.ready ho
  -- down to the place of the variable
  obtain ⟨d, h⟩ := work_of_performWithin h
  obtain ⟨location, hnode⟩ := locate_kindOf hkind
  change emitExpr id _ c = _ at h
  unfold emitExpr at h
  rw [hnode] at h
  simp only [emitBinary, hop, if_true, emitAssign] at h
  rw [bind_of_eq_ok (kindOf_apply hlhs)] at h
  obtain ⟨place, c₁, hemit, h⟩ := bind_eq_ok.mp h
  obtain ⟨d₁, hemit⟩ := work_of_performWithin hemit
  obtain ⟨location₁, hnode₁⟩ := locate_kindOf hlhs
  change emitPlace lhs _ c = _ at hemit
  unfold emitPlace at hemit
  rw [hnode₁] at hemit
  simp only at hemit
  rw [bind_of_eq_ok (get_apply _ c), if_pos (Context.isVariable_of_place? hplace)] at hemit
  obtain ⟨c₂, hrun, hfollows⟩ := variablePlace_spec (p := performWithin d₁)
    hr hplace
  cases hrun.symm.trans hemit
  -- the number that is stored
  have hplace₁ := (hfollows.place? a.name).trans hplace
  have hexpr₁ : a.value.At c₁.tree rhs := by rw [hfollows.tree]; exact hexpr
  have hint := (hsite.slots slot hslot).1
  obtain ⟨o, c₃, b₃, e₃, hstore⟩ := storeAssignment_spec hfollows.ready
    ((hsite.typed hnames).follows hfollows) hexpr₁ hplace₁ hint htype h
  obtain ⟨c₄, hrun₄, hfollows₄⟩ := build_store (p := performWithin d) e₃.follows.ready o slot.operand
  cases hrun₄.symm.trans hstore
  have hall := (hfollows.trans e₃.follows).trans hfollows₄
  obtain ⟨F', hF', hplaces, hsite', hwritten⟩ := hsite.follows hall
  refine ⟨F', hplaces, hsite', hwritten, hF' ▸ hall.isOpen, ?_⟩
  intro A L₁ hlater fuel frame st s r hmodels
  rw [hF'] at hlater
  have hlater₃ := hlater.of_continues hfollows₄.continues
  have hρ := hmodels.provides hsite hlater hnames
  have hstored : a.run E.names s = (a.result? (s.get E.names)).map (s.set n) := by
    rw [Assignment.run, hn, Option.bind_some]
  change Realizes A fuel _ _ (.ofStore (a.run E.names s))
  rw [hstored, Outcome.ofStore_map]
  refine Realizes.value (e₃.computes A frame st _ hlater₃.has
    ⟨hmodels.represents.base, _, hρ.follows hfollows, rfl⟩) fun x C hx hC => ?_
  obtain ⟨point, frame₃, st₃⟩ := C
  obtain rfl : point = b₃.here := hC.point
  have hmodels₃ : Models A.image L₁ E.names s r ⟨b₃.here, frame₃, st₃⟩ :=
    hmodels.keep hC.frame hC.memory (hlater₃.outside hsite)
  have hsome : (s.cells r slot.cell).isSome := by
    rw [hcell]
    exact Option.isSome_iff_exists.mpr ⟨_, hmodels.defined.get hn⟩
  refine (leads_storeSlot e₃.follows.continues.sound hlater.has hmodels₃.represents hlater.nodup
    (hlater.mem hslot) hsome hC.value hC.kind).imp fun C' hC' => ?_
  rw [hcell, ← Store.cells_set] at hC'
  exact ⟨hF' ▸ hall.isOpen, hF' ▸ hC'.1, hmodels₃.update hC'.2.2⟩

end CompileM
end UnitCompiler
