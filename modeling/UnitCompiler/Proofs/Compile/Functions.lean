import UnitCompiler.Proofs.Compile.Entries
import UnitCompiler.Proofs.Compile.Statements
import UnitCompiler.Proofs.Machine.Calls

/-!
# Emission of functions

From the first block of an emitted function to its value: the flags and the slots are made, the body
runs, then the deferred assignments that it has reached, and the result is read.
-/

namespace UnitCompiler
open Machine

/-- What a run comes to for an outcome: it gives no value while there are too few repetitions, it
divides by zero, or it ends as `Q` says. -/
def Comes (run : Nat → EStateM.Result Fault State Value) (fuel : Nat)
    (Q : Signal → Store → Value → State → Prop) : Outcome → Prop
  | .timeout => ∀ n ≤ fuel, ∀ v s, run n ≠ .ok v s
  | .fault => Settles run (fun _ _ => False) fun e => e.isLimit = true ∨ e = .divisionByZero
  | .done signal s => Settles run (Q signal s) (·.isLimit = true)

/-- A run that realizes an outcome, and ends wherever the signal leads. -/
theorem Realizes.comes {A : Activation} {fuel : Nat} {C : Config}
    {R : Signal → Store → Config → Prop} {Q : Signal → Store → Value → State → Prop} {o : Outcome}
    (h : Realizes A fuel C R o)
    (hend : ∀ signal s C', R signal s C' →
      Settles (fun n => A.exec n C') (Q signal s) (·.isLimit = true)) :
    Comes (fun n => A.exec n C) fuel Q o := by
  cases o with
  | timeout => exact h
  | fault => exact Settles.of_leads h fun _ hfalse => hfalse.elim
  | done signal s => exact Settles.of_leads h (hend signal s)

/-- A function runs from its entry as its body does behind the flags. -/
theorem Comes.of_entry {A : Activation} {frame : Machine.Frame} {st : State} {fuel : Nat}
    {Q : Signal → Store → Value → State → Prop} {o : Outcome} {flags : List Nat}
    (hflags : A.code.head = flags.flatMap FunctionBuilder.flagCode) (hnodup : flags.Nodup)
    (hbase : memoryBase ≤ st.memory.size)
    (h : ∀ frame' st', RaisesFlags A.image flags frame st.memory frame' st'.memory →
      Comes (fun n => A.exec n ⟨⟨0, 0⟩, frame', st'⟩) fuel Q o) :
    Comes (fun n => runBlocks A.image A.caller A.function n 0 frame st) fuel Q o := by
  rcases @foldlM_flags A.image A.caller flags hnodup frame st hbase with
    ⟨e, st', he, hrun⟩ | ⟨frame', st', hrun, hraises⟩
  · -- a limit was reached before the body
    rw [← hflags] at hrun
    have hentry (n : Nat) : runBlocks A.image A.caller A.function (n + 1) 0 frame st =
        .error e st' := by
      rw [Activation.runBlocks_entry, hrun]
    cases o with
    | timeout =>
      intro n _ v s hok
      cases n with
      | zero => cases hok
      | succ n => cases (hentry n).symm.trans hok
    | fault => exact Or.inr ⟨e, st', 1, Or.inl he, hentry⟩
    | done signal s => exact Or.inr ⟨e, st', 1, he, hentry⟩
  · rw [← hflags] at hrun
    have hbody := h frame' st' hraises
    cases o with
    | timeout =>
      intro n hn v s hok
      cases n with
      | zero => cases hok
      | succ n =>
        change runBlocks A.image A.caller A.function (n + 1) 0 frame st = _ at hok
        rw [Activation.runBlocks_entry, hrun] at hok
        exact hbody n (Nat.le_of_succ_le hn) v s hok
    | fault => exact Settles.of_entry hrun hbody
    | done signal s => exact Settles.of_entry hrun hbody

namespace FunctionState

/-- The builder at the end of the exit path. -/
def atTail (F : FunctionState) : FunctionBuilder :=
  (F.builder.finishWith (.br F.exit)).moveTo F.exitTail

/-- The builder behind the end of the function; `machine` is the type of the result. -/
def closed (F : FunctionState) (machine : IrType) : FunctionBuilder :=
  if F.returnsZero then F.atTail.endWith (.ret (some (constI32 0)))
  else
    match F.resultSlot with
    | some slot => (F.atTail.place (.load slot none false) (some machine)).endWith
        (.ret (some (.register F.atTail.nextValue)))
    | none => F.atTail.endWith (.ret none)

/-- The value of a function whose result is `r`. -/
def valueOf (F : FunctionState) (r : IntValue) : Value :=
  if F.returnsZero then (IntValue.mk .int 0).word
  else if F.resultSlot.isSome then r.word else .void

end FunctionState

section Tail

variable {c : Context} {F : FunctionState} {E : Env} {L : Layout}

/-- The end of the exit path is an empty block behind all other code. -/
theorem Site.atTail (h : Site c F E L) :
    F.builder.Continues [F.builder.current, F.exitTail] F.atTail ∧ F.atTail.Open ∧
      F.atTail.here = ⟨F.exitTail, 0⟩ := by
  have hend : F.builder.Continues [F.builder.current] (F.builder.finishWith (.br F.exit)) :=
    (FunctionBuilder.Continues.refl h.sound (List.mem_singleton_self _)).finishWith _
  have hfresh := h.tail.continues hend h.tail_not_mem
  have hmono : F.builder.Continues [F.builder.current, F.exitTail]
      (F.builder.finishWith (.br F.exit)) := hend.mono (by simp)
  exact ⟨hmono.moveTo (Or.inl (by simp)) hfresh.lt, hfresh.isOpen, hfresh.here⟩

/-- The end of the function stands behind the end of its body. -/
theorem Site.closed (h : Site c F E L) (machine : IrType) :
    (F.builder.finishWith (.br F.exit)).Continues [F.builder.current, F.exitTail]
      (F.closed machine) := by
  obtain ⟨-, ho, -⟩ := h.atTail
  have hend : F.builder.Continues [F.builder.current] (F.builder.finishWith (.br F.exit)) :=
    (FunctionBuilder.Continues.refl h.sound (List.mem_singleton_self _)).finishWith _
  have hcurrent : (F.builder.finishWith (.br F.exit)).current = F.builder.current := by
    unfold FunctionBuilder.finishWith
    split <;> rfl
  have hc : (F.builder.finishWith (.br F.exit)).Continues [F.builder.current, F.exitTail] F.atTail :=
    (FunctionBuilder.Continues.refl hend.sound (by simp [hcurrent])).moveTo (Or.inl (by simp))
      (h.tail.continues hend h.tail_not_mem).lt
  unfold FunctionState.closed
  split
  · exact hc.endWith ho _
  · split
    · exact (hc.place ho _ _).endWith ((FunctionBuilder.open_place hc.sound _ _).mpr ho) _
    · exact hc.endWith ho _

/-- The end of a function gives its value. -/
theorem Site.settles_closed (h : Site c F E L) {A : Activation} {L₁ : Layout} {machine : IrType}
    (hlater : Later A L₁ (F.closed machine) L)
    (hmachine : ∀ k, F.ret.strip = .scalar k → machine = k.machineType) {names : List (String × Nat)} {s : Store} {r : IntValue}
    {frame : Machine.Frame} {st : State}
    (hmodels : Models A.image L₁ names s r ⟨⟨F.exitTail, 0⟩, frame, st⟩) :
    Settles (fun n => A.exec n ⟨⟨F.exitTail, 0⟩, frame, st⟩)
      (fun v st' => v = F.valueOf r ∧ Grows st.memory st'.memory) (·.isLimit = true) := by
  obtain ⟨hc, ho, hhere⟩ := h.atTail
  have hhas := hlater.has
  rw [← hhere] at hmodels ⊢
  unfold FunctionState.closed at hhas
  unfold FunctionState.valueOf
  by_cases hzero : F.returnsZero = true
  · rw [if_pos hzero] at hhas ⊢
    obtain ⟨hend, hlen⟩ := hhas.ending hc.sound
    exact Settles.of_ret hend hlen rfl ⟨rfl, .refl _⟩
  · rw [if_neg hzero] at hhas ⊢
    cases hresult : F.resultSlot with
    | none =>
      rw [hresult] at hhas
      obtain ⟨hend, hlen⟩ := hhas.ending hc.sound
      exact Settles.of_ret hend hlen rfl ⟨rfl, .refl _⟩
    | some o =>
      rw [hresult] at hhas
      obtain ⟨slot, hslot, hcell, rfl, hret⟩ := h.result.1 o hresult
      obtain rfl := hmachine slot.kind hret
      let load : Operation := .load slot.operand none false
      let b := F.atTail.place load (some slot.kind.machineType)
      have hb : b.Sound := hc.sound.place _ _
      have hob : b.Open := (FunctionBuilder.open_place hc.sound _ _).mpr ho
      have hload : A.Has b := hhas.of_continues
        ((FunctionBuilder.Continues.refl hb (List.mem_singleton_self _)).endWith hob _)
      obtain ⟨hkind, a, ha, hholds⟩ :=
        hmodels.represents.cell slot (hlater.mem hslot) r (by rw [hcell]; rfl)
      have hperform : Machine.perform A.image A.caller frame slot.kind.machineType load
          { st with steps := st.steps + 1 } =
            outcome { st with steps := st.steps + 1 } (some r) :=
        hkind ▸ perform_load A.caller { st with steps := st.steps + 1 } ha hholds
      have hrun := Computes.place hc.sound hload
        (fun x hx => Option.some.inj hx ▸ ⟨hholds.wellFormed, hkind⟩) hperform
      refine Settles.of_leads hrun fun C hC => ?_
      obtain ⟨point, frame', st'⟩ := C
      obtain rfl : point = b.here := hC.point
      obtain ⟨hend, hlen⟩ := hhas.ending hb
      refine Settles.of_ret hend hlen ?_ ⟨rfl, hC.memory⟩
      rw [leaveBy, hC.value.eval]
      rfl

end Tail

namespace IntUnit

variable {u : IntUnit} {i : Image} {m m' : Memory} {s : Store}

/-- The variables of the unit are in memory, with the values of a store. -/
def InMemory (u : IntUnit) (i : Image) (m : Memory) (s : Store) : Prop :=
  ∀ frame r, Represents i u.globalSlots frame m (s.cells r)

/-- The address of a variable of the unit does not depend on the frame, nor its value on the result. -/
theorem InMemory.of_represents {slots : List Slot} {frame : Machine.Frame} {r : IntValue}
    (h : Represents i slots frame m (s.cells r)) (hsub : ∀ slot ∈ u.globalSlots, slot ∈ slots) :
    u.InMemory i m s := by
  intro frame' r'
  have heval (slot : Slot) (hslot : slot ∈ u.globalSlots) :
      i.eval frame' slot.operand = i.eval frame slot.operand := by
    obtain ⟨g, n, -, -, rfl⟩ := mem_globalSlots.mp hslot
    rfl
  have hvalue (slot : Slot) (hslot : slot ∈ u.globalSlots) :
      s.cells r' slot.cell = s.cells r slot.cell := by
    obtain ⟨g, n, -, -, rfl⟩ := mem_globalSlots.mp hslot
    rfl
  refine ⟨h.base, fun slot hslot x hx => ?_, fun slot hslot slot' hslot' hne hsome hsome' a a' ha ha' => ?_⟩
  · rw [hvalue slot hslot] at hx
    obtain ⟨hkind, a, ha, hholds⟩ := h.cell slot (hsub slot hslot) x hx
    exact ⟨hkind, a, (heval slot hslot).trans ha, hholds⟩
  · rw [hvalue slot hslot] at hsome
    rw [hvalue slot' hslot'] at hsome'
    rw [heval slot hslot] at ha
    rw [heval slot' hslot'] at ha'
    exact h.apart slot (hsub slot hslot) slot' (hsub slot' hslot') hne hsome hsome' a a' ha ha'

/-- A flag whose code stands at the head of a function is one of those that are raised there. -/
theorem mem_flags {flags : List Nat} {r : Nat}
    (h : FunctionBuilder.flagCode r ⊆ flags.flatMap FunctionBuilder.flagCode) : r ∈ flags := by
  let first : Instruction := ⟨r, .alloca .i1 1, some (.ptr .i1)⟩
  have hmem : first ∈ flags.flatMap FunctionBuilder.flagCode := h List.mem_cons_self
  obtain ⟨flag, hflag, hcode⟩ := List.mem_flatMap.mp hmem
  simp only [FunctionBuilder.flagCode, FunctionBuilder.slotCode, List.mem_cons, List.not_mem_nil,
    or_false, first] at hcode
  rcases hcode with heq | heq
  · cases heq
    exact hflag
  · cases heq

/-- Behind the flags the slots of the unit's variables and of the flags have their cells. -/
theorem InMemory.represents_entry {args globals : List IntValue}
    (h : u.InMemory i m (start args globals)) (hargs : args.length = u.params.length)
    (hglobals : globals.length = u.globals.length) {flags : List Nat} {frame frame' : Machine.Frame}
    (hraises : RaisesFlags i flags frame m frame' m') {code : Code} {slots : List Slot}
    (hhead : code.head = flags.flatMap FunctionBuilder.flagCode) (hheld : Held code slots)
    (hnodup : (slots.map (·.cell)).Nodup) (hsub : ∀ slot ∈ u.globalSlots, slot ∈ slots) :
    Represents i slots frame' m' (entryCells args globals 0) := by
  have hrep := h frame' ⟨.int, 0⟩
  -- a slot with a value is that of a variable of the unit or of a flag
  have hcases (slot : Slot) (hslot : slot ∈ slots)
      (hsome : (entryCells args globals 0 slot.cell).isSome) :
      (slot ∈ u.globalSlots ∧
        (start args globals).cells ⟨.int, 0⟩ slot.cell = entryCells args globals 0 slot.cell) ∨
      ∃ flag ∈ flags, slot.operand = .register flag ∧ slot.kind = .bool ∧
        entryCells args globals 0 slot.cell = some (.ofBool false) := by
    cases hcell : slot.cell with
    | result =>
      rw [hcell] at hsome
      cases hsome
    | flag n =>
      obtain ⟨hkind, r, hr, hcode⟩ := hheld.flags slot hslot n hcell
      exact Or.inr ⟨r, mem_flags (hhead ▸ hcode), hr, hkind, rfl⟩
    | var n =>
      rw [hcell] at hsome
      by_cases hn : n < args.length
      · simp [entryCells, hn] at hsome
      · have hlt : n - u.params.length < u.globals.length := by
          simp only [entryCells, hn, if_false, isSome_getElem?] at hsome
          omega
        have hmem : (⟨.var n, .global (LinkName.global (u.globals[n - u.params.length].1))
            u.globals[n - u.params.length].2.machineType, u.globals[n - u.params.length].2⟩ : Slot) ∈
            u.globalSlots :=
          mem_globalSlots.mpr ⟨_, n, by omega, List.getElem?_eq_getElem hlt, rfl⟩
        refine Or.inl ⟨?_, ?_⟩
        · rwa [List.inj_on_of_nodup_map hnodup hslot (hsub _ hmem) hcell]
        · simp only [Store.cells, start, entryCells, if_neg hn, List.getElem?_append]
  have hbelow (slot : Slot) (hslot : slot ∈ u.globalSlots)
      (hsome : ((start args globals).cells ⟨.int, 0⟩ slot.cell).isSome) (a : Nat)
      (ha : i.eval frame' slot.operand = .ok (.ptr a)) : a + slot.kind.bytes ≤ m.size := by
    obtain ⟨x, hx⟩ := Option.isSome_iff_exists.mp hsome
    obtain ⟨hkind, a', ha', hholds⟩ := hrep.cell slot hslot x hx
    cases ha'.symm.trans ha
    exact hkind ▸ hholds.access.2
  have habove (flag : Nat) (hflag : flag ∈ flags) (a : Nat)
      (ha : i.eval frame' (.register flag) = .ok (.ptr a)) : m.size ≤ a := by
    obtain ⟨a', ha', hle, -⟩ := hraises.cell flag hflag
    cases ha'.symm.trans ha
    exact hle
  refine ⟨hrep.base.trans hraises.memory.size, fun slot hslot x hx => ?_,
    fun slot hslot slot' hslot' hne hsome hsome' a a' ha ha' => ?_⟩
  · rcases hcases slot hslot (by rw [hx]; rfl) with ⟨hglobal, heq⟩ | ⟨flag, hflag, hop, hkind, heq⟩
    · obtain ⟨hkind, a, ha, hholds⟩ := hrep.cell slot hglobal x (heq.trans hx)
      exact ⟨hkind, a, ha, hraises.memory.holds hholds⟩
    · obtain ⟨a, ha, -, hholds⟩ := hraises.cell flag hflag
      cases heq.symm.trans hx
      exact ⟨hkind.symm, a, hop ▸ ha, hholds⟩
  · rcases hcases slot hslot hsome with ⟨hglobal, heq⟩ | ⟨flag, hflag, hop, hkind, heq⟩
    · rcases hcases slot' hslot' hsome' with ⟨hglobal', heq'⟩ | ⟨flag', hflag', hop', hkind', heq'⟩
      · exact hrep.apart slot hglobal slot' hglobal' hne (heq ▸ hsome) (heq' ▸ hsome') a a' ha ha'
      · exact Or.inl ((hbelow slot hglobal (heq ▸ hsome) a ha).trans (habove flag' hflag' a' (hop' ▸ ha')))
    · rcases hcases slot' hslot' hsome' with ⟨hglobal', heq'⟩ | ⟨flag', hflag', hop', hkind', heq'⟩
      · exact Or.inr ((hbelow slot' hglobal' (heq' ▸ hsome') a' ha').trans (habove flag hflag a (hop ▸ ha)))
      · have hdiffer : flag ≠ flag' := by
          rintro rfl
          have hsame := List.inj_on_of_nodup_map hheld.operands hslot hslot' (hop.trans hop'.symm)
          exact hne (by rw [hsame])
        rw [hkind, hkind']
        exact hraises.apart flag hflag flag' hflag' hdiffer a a' (hop ▸ ha) (hop' ▸ ha')

end IntUnit

theorem Assignment.defined_run {a : Assignment} {names names' : List (String × Nat)} {s s' : Store}
    (h : a.run names s = some s') (hs : s.Defined names') : s'.Defined names' := by
  obtain ⟨n, -, h⟩ := Option.bind_eq_some_iff.mp h
  obtain ⟨x, -, rfl⟩ := Option.map_eq_some_iff.mp h
  exact hs.set n x

/-- Deferred assignments take no values away. -/
theorem runDefers_defined {defers : List Deferred} {names : List (String × Nat)} {s s' : Store}
    (h : runDefers defers s = some s') (hs : s.Defined names) : s'.Defined names := by
  induction defers generalizing s with
  | nil =>
    cases h
    exact hs
  | cons d rest ih =>
    rw [runDefers] at h
    obtain ⟨s₁, hfirst, hrest⟩ := Option.bind_eq_some_iff.mp h
    refine ih hrest ?_
    split at hfirst
    · exact Assignment.defined_run hfirst hs
    · cases hfirst
      exact hs

theorem Represents.congr {i : Image} {slots : List Slot} {frame : Machine.Frame} {m : Memory}
    {ν ν' : Cell → Option IntValue} (h : Represents i slots frame m ν)
    (heq : ∀ slot ∈ slots, ν' slot.cell = ν slot.cell) : Represents i slots frame m ν' := by
  refine ⟨h.base, fun slot hslot x hx => h.cell slot hslot x (heq slot hslot ▸ hx), ?_⟩
  intro slot hslot slot' hslot' hne hsome hsome'
  exact h.apart slot hslot slot' hslot' hne (heq slot hslot ▸ hsome) (heq slot' hslot' ▸ hsome')

section Body

variable {A : Activation} {c : Context} {F : FunctionState} {L : Layout} {defers new : List Deferred}

/-- The result of a function whose body has ended with a signal. -/
def FunctionState.result (F : FunctionState) (r : IntValue) : Signal → IntValue
  | .ret value => F.returned value r
  | _ => r

/-- Control is at the end of the exit path, and the named variables have values. -/
structure Leaves (A : Activation) (L : Layout) (tail : Nat) (names : List (String × Nat))
    (r : IntValue) (s : Store) (C : Config) : Prop where
  point : C.point = ⟨tail, 0⟩
  models : Models A.image L [] s r C
  defined : s.Defined names

/-- From the start of the exit path the deferred assignments that have been reached are run. -/
theorem Linked.leaves {exit tail : Nat} (h : Linked A L exit tail L.defers)
    (hsub : L.defers.Sublist defers) (hnodup : (defers.map (·.number)).Nodup)
    {names : List (String × Nat)} {s : Store} {r : IntValue} {C : Config}
    (hC : Enters A L names r exit s C) (fuel : Nat) (signal : Signal) :
    Realizes A fuel C (fun signal' s' C' => signal' = signal ∧ Leaves A L tail names r s' C')
      ((Outcome.ofStore (runDefers defers s)).bind fun _ s' => .done signal s') := by
  obtain ⟨point, frame, st⟩ := C
  obtain ⟨rfl, hmodels⟩ := hC
  have hrun := h fuel frame st s r (hmodels.names_mono (by simp))
  rw [runDefers_sublist hsub hnodup fun d hd hreached => ?_] at hrun
  · cases hstore : runDefers defers s with
    | none =>
      rw [hstore] at hrun
      exact hrun
    | some s' =>
      rw [hstore] at hrun
      refine Activation.Leads.imp hrun fun C' hC' => ⟨rfl, hC'.1, hC'.2, ?_⟩
      exact runDefers_defined hstore hmodels.defined
  · obtain ⟨d', hd', heq⟩ := hmodels.supported d.number hreached
    exact List.mem_map.mpr ⟨d', hd', heq⟩

/-- A body with the deferred assignments that it has reached behind it. -/
theorem Compiles.leaves {c' : Context} {F' : FunctionState} {E E' : Env} {L₁ : Layout}
    {run : Nat → Store → Outcome} (h : Compiles c c' F F' E E' L₁ L run defers)
    (hnames : ∀ q ∈ E.names, q ∈ E'.names) (hloops : F.loops = []) (hnone : L₁.defers = [])
    (hexit : Linked A L F.exit F.exitTail [])
    (hlater : Later A L (F'.builder.finishWith (.br F.exit)) L)
    (hnodup : (defers.map (·.number)).Nodup) {frame : Machine.Frame} {st : State} {s : Store}
    {r : IntValue} (fuel : Nat)
    (hmodels : Models A.image L E.names s r ⟨F.builder.here, frame, st⟩) :
    Realizes A fuel ⟨F.builder.here, frame, st⟩
      (fun signal => Leaves A L F'.exitTail E.names (F.result r signal))
      ((run fuel s).bind fun signal s =>
        (Outcome.ofStore (runDefers defers s)).bind fun _ s' => .done signal s') := by
  have hend : F'.builder.Continues [F'.builder.current] (F'.builder.finishWith (.br F.exit)) :=
    (FunctionBuilder.Continues.refl h.site.sound (List.mem_singleton_self _)).finishWith _
  have hlater' := hlater.of_continues hend
  obtain ⟨new, hnew, hw⟩ := h.written
  have hdefers : L.defers = new := by rw [hw.defers, hnone, List.nil_append]
  have hpath : Linked A L F.exit F'.exitTail L.defers := by
    rw [hdefers]
    exact hexit.trans (hw.exits A L hlater')
  have hsub : L.defers.Sublist defers := hdefers ▸ hnew
  have hpos : F.exit ≠ 0 := (FunctionState.of_fixed h.fixed).2.2.1 ▸ h.site.exit_pos
  refine (h.runs A L hlater' fuel frame st s r hmodels).bind fun signal s' C hC => ?_
  cases signal with
  | leave =>
    obtain ⟨t, ht, -⟩ := hC
    rw [hloops] at ht
    cases ht
  | again =>
    obtain ⟨t, ht, -⟩ := hC
    rw [hloops] at ht
    cases ht
  | ret value =>
    refine (hpath.leaves hsub hnodup hC fuel (.ret value)).imp ?_
    rintro signal s'' C' ⟨rfl, hleaves⟩
    exact hleaves
  | next =>
    obtain ⟨point, frame', st'⟩ := C
    obtain ⟨ho, rfl, hmodels'⟩ := hC
    have hhas := hlater.has
    rw [FunctionBuilder.finishWith_of_open ho] at hhas
    have hjump : A.Leads 1 ⟨F'.builder.here, frame', st'⟩ (Enters A L E.names r F.exit s')
        (·.isLimit = true) :=
      leads_jump h.site.sound hhas hpos ⟨rfl, (hmodels'.names_mono hnames).moved _⟩
    refine Realizes.step (hjump.mono (Nat.zero_le _) (fun _ => id) fun _ => id) fun C hC => ?_
    refine (hpath.leaves hsub hnodup hC fuel .next).imp ?_
    rintro signal s'' C' ⟨rfl, hleaves⟩
    exact hleaves

end Body

namespace IntUnit

variable {u : IntUnit} {f : FunctionSymbol} {args globals : List IntValue}

/-- A function that does what the unit's function does, in every image that has the unit's
variables. -/
def Implements (u : IntUnit) (isMain : Bool) (f : IrFunction) : Prop :=
  ∀ (i : Image) (caller : Caller) (fuel : Nat) (args globals : List IntValue) (st : State),
    u.Accepts args → globals.length = u.globals.length →
    u.InMemory i st.memory (start args globals) →
    Comes (fun n => runBlocks i caller f n 0
        { signature := f.signature, args := args.map (·.word) } st) fuel
      (fun signal s v st' => v = u.returned isMain signal ∧ u.InMemory i st'.memory s ∧
        s.Defined u.globalNames)
      (u.call fuel args globals)

theorem Accepts.kinds (h : u.Accepts args) : args.map (·.kind) = u.params.map (·.2) := by
  unfold Accepts at h
  generalize u.params = params at h ⊢
  induction h with
  | nil => rfl
  | cons hx _ ih => rw [List.map_cons, List.map_cons, ih, hx.1]

theorem Accepts.length_eq (h : u.Accepts args) : args.length = u.params.length :=
  (List.Forall₂.length_eq h).symm

theorem Accepts.wellFormed (h : u.Accepts args) : ∀ x ∈ args, x.WellFormed := by
  unfold Accepts at h
  generalize u.params = params at h
  induction h with
  | nil => simp
  | cons hx _ ih => exact List.forall_mem_cons.mpr ⟨hx.2, ih⟩

/-- At the start of a call all variables outside the body have values. -/
theorem defined_start (hargs : args.length = u.params.length)
    (hglobals : globals.length = u.globals.length) : (start args globals).Defined u.env.names := by
  intro q hq
  have hlt : q.2 < (args ++ globals).length := by
    rw [List.length_append, hargs, hglobals]
    rcases List.mem_append.mp hq with hq | hq
    · have hmem := List.mem_reverse.mp hq
      rw [List.mem_zipIdx_iff_getElem?] at hmem
      have hlength := (List.getElem?_eq_some_iff.mp hmem).1
      rw [List.length_map] at hlength
      omega
    · rw [globalNames, List.mem_zipIdx_iff_le_and_getElem?_sub] at hq
      have hlength := (List.getElem?_eq_some_iff.mp hq.2).1
      rw [List.length_map] at hlength
      omega
  simpa [start] using hlt

/-- The cells at the start of the body, when only a function with a result has a slot for one. -/
theorem represents_body {i : Image} {slots : List Slot} {frame : Machine.Frame} {m : Memory}
    (h : Represents i slots frame m (u.bodyCells args globals))
    (hresult : u.ret = none → ∀ slot ∈ slots, slot.cell ≠ .result) :
    Represents i slots frame m ((start args globals).cells ⟨u.ret.getD .int, 0⟩) := by
  unfold bodyCells at h
  cases hret : u.ret with
  | some k =>
    rw [hret] at h
    exact h
  | none =>
    rw [hret] at h
    refine h.congr fun slot hslot => ?_
    rw [entryCells_length, Function.update_of_ne (hresult hret slot hslot)]

/-- The value of the function at the end of its exit path. -/
theorem valueOf_result {F F' : FunctionState} (hf : u.Describes f) (hret : F.ret = f.ret)
    (hzero : F'.returnsZero = f.returnsZero) (hslot : F'.resultSlot.isSome = u.ret.isSome)
    (signal : Signal) :
    F'.valueOf (F.result ⟨u.ret.getD .int, 0⟩ signal) = u.returned f.returnsZero signal := by
  unfold FunctionState.valueOf returned
  rw [hzero, hslot]
  cases hk : u.ret with
  | none => rfl
  | some k =>
    have hscalar : f.ret = .scalar k := by rw [hf.ret, retType, hk]; rfl
    have hnot : f.returnsZero = false := by
      simp [FunctionSymbol.returnsZero, hscalar, SourceType.isVoid, SourceType.strip]
    rw [hnot]
    simp only [Bool.false_eq_true, if_false, Option.isSome_some, if_true, Option.getD_some]
    cases signal with
    | next | leave | again => rfl
    | ret value =>
      cases value with
      | none => rfl
      | some x => simp [FunctionState.result, FunctionState.returned, hret, hscalar, SourceType.strip]

section Assembly

variable {c c₁ c₂ : Context} {F₁ F₂ : FunctionState} {L₁ L₂ : Layout} {function : IrFunction}
  {layout : DataLayout} {machine : IrType}

/-- A function with the slots of its parameters and its result, a body and an end does what the
function of the unit does. -/
theorem implements_finish (hf : u.Describes f) (hblocks : function.blocks = [])
    (hsignature : function.signature.params = u.params.map (·.2.machineType))
    (hwritten : Written [0] c c₁
      { FunctionState.entry function layout f.ret f.returnsZero with resultSlot := F₁.resultSlot }
      F₁ ⟨u.globalSlots, []⟩ L₁ [])
    (hslot : F₁.resultSlot.isSome = u.ret.isSome)
    (hprepares : ∀ args globals, args.map (·.kind) = u.params.map (·.2) →
      Prepares (.entry function layout f.ret f.returnsZero) F₁ L₁ args
        (entryCells args globals 0) (u.bodyCells args globals))
    (hbody : Compiles c₁ c₂ F₁ F₂ u.env (u.env.skip u.body.count) L₁ L₂
      (fun fuel => u.body.exec fuel u.env) (u.body.defers u.env))
    (hmachine : ∀ k, f.ret.strip = .scalar k → machine = k.machineType) :
    u.Implements f.returnsZero (F₂.closed machine).finish := by
  intro i caller fuel args globals st haccepts hglobals hmem
  have hargs := haccepts.length_eq
  obtain ⟨hret₁, -, hexit₁, hloops₁, -, -⟩ := FunctionState.of_fixed hwritten.fixed
  obtain ⟨hret₂, hslot₂, hexit₂, -, -, -⟩ := FunctionState.of_fixed hbody.fixed
  have hzero₁ : F₁.returnsZero = f.returnsZero := congrArg FunctionState.returnsZero hwritten.fixed
  have hzero₂ : F₂.returnsZero = F₁.returnsZero := by
    change F₂.fixed.returnsZero = F₁.fixed.returnsZero
    rw [hbody.fixed]
  obtain ⟨new, hnew, hw⟩ := hbody.written
  -- the finished function runs all that was written
  have hend : F₂.builder.Continues [F₂.builder.current] (F₂.builder.finishWith (.br F₂.exit)) :=
    (FunctionBuilder.Continues.refl hbody.site.sound (List.mem_singleton_self _)).finishWith _
  have hclosed := hbody.site.closed machine
  let b := F₂.closed machine
  let A : Activation := ⟨i, caller, b.finish, b.entryCount⟩
  have hlater : Later A L₂ b L₂ :=
    ⟨FunctionBuilder.extends_finish hclosed.sound _, ⟨[], by simp, by simp⟩, ⟨[], by simp⟩,
      hbody.site.nodup, hbody.site.numbers⟩
  have hlater₂ := hlater.of_continues hclosed
  have hlater₁ := (hlater₂.of_continues hend).of_written hw
  have hsub : ∀ slot ∈ u.globalSlots, slot ∈ L₂.slots := by
    intro slot hslot
    exact (hlater₁.of_written hwritten).mem hslot
  obtain ⟨flags, hflags, hnodup⟩ := hclosed.sound.head
  have hhead : A.code.head = flags.flatMap FunctionBuilder.flagCode :=
    (FunctionBuilder.head_finish hclosed.sound).trans hflags
  refine Comes.of_entry (A := A) hhead hnodup (hmem ⟨default, [], {}⟩ ⟨.int, 0⟩).base
    fun frame st' hraises => ?_
  have hentry := hmem.represents_entry hargs hglobals hraises hflags
    ((hbody.site.held.mono hend.code).mono hclosed.code) hbody.site.nodup hsub
  have hreceives : Receives frame args := by
    refine ⟨hraises.args, ?_, haccepts.wellFormed⟩
    have hsame : b.finish.signature = function.signature :=
      hclosed.signature.trans (hend.signature.trans
        (hw.continues.signature.trans hwritten.continues.signature))
    have htypes := congrArg (List.map Scalar.machineType) haccepts.kinds
    rw [List.map_map, List.map_map] at htypes
    rw [hraises.signature, hsame, hsignature]
    exact htypes.symm
  have hstart := hprepares args globals haccepts.kinds A L₂ frame st' hlater₁ hreceives hentry
  rw [(FunctionState.open_entry hblocks layout f.ret f.returnsZero).2] at hstart
  have hrun : Realizes A fuel ⟨⟨0, 0⟩, frame, st'⟩
      (fun signal => Leaves A L₂ F₂.exitTail u.env.names
        (F₁.result ⟨u.ret.getD .int, 0⟩ signal)) (u.call fuel args globals) := by
    refine Realizes.step hstart fun C hC => ?_
    obtain ⟨point, frame', st''⟩ := C
    obtain ⟨rfl, -, hrep⟩ := hC
    have hnone : u.ret = none → ∀ slot ∈ L₂.slots, slot.cell ≠ .result := by
      intro hret
      refine hbody.site.result.2 (Option.isNone_iff_eq_none.mp ?_)
      rw [← Option.not_isSome, hslot₂, hslot, hret]
      rfl
    have hmodels : Models A.image L₂ u.env.names (start args globals) ⟨u.ret.getD .int, 0⟩
        ⟨F₁.builder.here, frame', st''⟩ :=
      ⟨represents_body hrep hnone, defined_start hargs hglobals, fun _ _ => nofun, fun _ => nofun⟩
    have hexits : Linked A L₂ F₁.exit F₁.exitTail [] := by
      rw [hexit₁]
      exact hwritten.exits A L₂ hlater₁
    exact hbody.leaves (fun _ => id) hloops₁ hwritten.defers hexits (hexit₂ ▸ hlater₂)
      (u.body.numbered u.env).nodup fuel hmodels
  refine hrun.comes fun signal s C hC => ?_
  obtain ⟨point, frame', st''⟩ := C
  obtain ⟨rfl, hmodels, hdefined⟩ := hC
  refine (hbody.site.settles_closed hlater (fun k hk => hmachine k (by rwa [hret₂, hret₁] at hk))
    hmodels).mono ?_ fun _ => id
  rintro v st₁ ⟨rfl, hgrows⟩
  refine ⟨valueOf_result hf hret₁ (hzero₂.trans hzero₁) (by rw [hslot₂, hslot]) signal, ?_, ?_⟩
  · have hkeep := hmodels.represents.keep (Agrees.refl 0 0 frame') hgrows fun slot _ reg _ => ?_
    · exact InMemory.of_represents hkeep hsub
    · exact Or.inr (Nat.zero_le reg)
  · exact fun q hq => hdefined q (List.mem_append_right _ hq)

end Assembly

end IntUnit

namespace CompileM

variable {p : Performer} {c c' : Context} {F : FunctionState} {E : Env} {L : Layout}
  {f : FunctionSymbol} {location : Location}

/-- The function ends at the end of its exit path. -/
theorem closeResult_spec {machine : IrType} (hsite : Site c F E L)
    (hlower : lower f.ret location p c = .ok machine c) (hvoid : F.resultSlot ≠ none → machine.isVoid = false)
    (h : closeResult f location p c = .ok () c') : c' = c.advance (F.closed machine) F.scope := by
  unfold closeResult at h
  rw [bind_of_eq_ok hlower, bind_of_eq_ok (functionState_apply hsite.function)] at h
  obtain ⟨hc, ho, -⟩ := hsite.atTail
  refine (eq_advance_of_build (a := ()) hsite.function ?_ h).2
  rw [FunctionBuilder.run_bind, FunctionBuilder.br, FunctionBuilder.terminate_run_eq,
    FunctionBuilder.run_bind, FunctionBuilder.switchTo_run]
  change StateT.run _ F.atTail = _
  unfold FunctionState.closed FunctionBuilder.ret
  by_cases hzero : F.returnsZero = true
  · rw [if_pos hzero, if_pos hzero, FunctionBuilder.terminate_run ho]
  · rw [if_neg hzero, if_neg hzero]
    cases hslot : F.resultSlot with
    | none =>
      change StateT.run (FunctionBuilder.terminate _) _ = _
      rw [FunctionBuilder.terminate_run ho]
    | some slot =>
      have hload := FunctionBuilder.load_run ho slot (hvoid (by simp [hslot]))
      have hopen := (FunctionBuilder.open_place hc.sound (.load slot none false)
        (some machine)).mpr ho
      change StateT.run (FunctionBuilder.load slot machine >>= fun v =>
        FunctionBuilder.terminate (.ret (some v))) _ = _
      rw [FunctionBuilder.run_bind, hload, FunctionBuilder.terminate_run hopen]

end CompileM

namespace IntUnit

/-- The unit's function in a program. -/
structure Emitted (u : IntUnit) (f : FunctionSymbol) (fn : IrFunction) : Prop where
  name : fn.name = f.linkName
  params : fn.signature.params = u.params.map (·.2.machineType)
  entry : ∃ entry, fn.blocks.head? = some entry ∧ entry.id = 0
  implements : u.Implements f.returnsZero fn

/-- The machine type of the result. -/
theorem lower_ret {u : IntUnit} {f : FunctionSymbol} (hf : u.Describes f) (c : Context) (p : Performer)
    (location : Location) : ∃ machine, CompileM.lower f.ret location p c = .ok machine c ∧
      (∀ k, f.ret.strip = .scalar k → machine = k.machineType) ∧
      (u.ret ≠ none → machine.isVoid = false) := by
  rw [hf.ret, retType]
  cases hk : u.ret with
  | none =>
    refine ⟨.void, rfl, ?_, ?_⟩
    · intro k hvoid
      cases hvoid
    · intro hne
      exact absurd rfl hne
  | some k =>
    refine ⟨k.machineType, CompileM.lower_scalar k location, ?_, fun _ => ?_⟩
    · intro k' hk'
      cases hk'
      rfl
    · exact isVoid_machineType k

/-- The body of the unit's function. -/
theorem emitBody_spec {u : IntUnit} {f : FunctionSymbol} {function : IrFunction} {body : NodeId}
    {d : Nat} {c c' : Context} {location : Location} (hf : u.Describes f)
    (hparams : ∀ q ∈ u.params, q.2.isInteger = true) (hret : ∀ k, u.ret = some k → k.isInteger = true)
    (hints : ∀ g ∈ u.globals, g.2.isInteger = true) (hnodup : (u.globals.map (·.1)).Nodup)
    (hknown : u.Known c) (hbody : BlockOf c.tree (u.body.At c.tree u.env) body)
    (hblocks : function.blocks = []) (hname : function.name = f.linkName)
    (hsignature : function.signature.params = u.params.map (·.2.machineType))
    (h : CompileM.emitBody f function (u.params.map fun _ => .direct) body location
      (performWithin d) c = .ok () c') :
    ∃ fn, u.Emitted f fn ∧ c'.core = { c.core with program := c.program.addFunction fn } ∧
      c'.function = none := by
  have hplain : (f.constructorOf.isSome) = false := by rw [hf.plain]; rfl
  let F := FunctionState.entry function c.layout f.ret f.returnsZero
  have hopen := FunctionState.open_entry hblocks c.layout f.ret f.returnsZero
  have hsite := site_entry hknown hints hnodup hblocks c.layout f.ret f.returnsZero
  have hstart : CompileM.emitBody f function (u.params.map fun _ => .direct) body location
      (performWithin d) c = (do
        let span ← CompileM.spanOf f.decl
        CompileM.declareParams f span location 0
          (u.params.map fun q : String × Scalar => (q.1, .scalar q.2, .direct, q.2.machineType))
        CompileM.openResult f span location
        CompileM.perform (.emitStmt body)
        CompileM.closeResult f location
        CompileM.closeScope
        CompileM.finishFunction) (performWithin d) { c with function := some F } := by
    have hzip : f.paramNames.zip (f.params.zip
        ((u.params.map fun _ => PassingClass.direct).zip function.signature.params)) =
        u.params.map fun q : String × Scalar => (q.1, .scalar q.2, .direct, q.2.machineType) := by
      rw [hf.names, hf.params, hsignature]
      simp only [List.zip_map']
    unfold CompileM.emitBody
    rw [hzip, hplain]
    rfl
  rw [hstart] at h
  obtain ⟨span, c₀, hspan, h⟩ := CompileM.bind_eq_ok.mp h
  obtain rfl : c₀ = { c with function := some F } := CompileM.state_of_spanOf hspan
  obtain ⟨⟨⟩, c₁, hparams', h⟩ := CompileM.bind_eq_ok.mp h
  obtain ⟨⟨⟩, c₂, hresult, h⟩ := CompileM.bind_eq_ok.mp h
  obtain ⟨⟨⟩, c₃, hstmt, h⟩ := CompileM.bind_eq_ok.mp h
  obtain ⟨⟨⟩, c₄, hclose, h⟩ := CompileM.bind_eq_ok.mp h
  obtain ⟨⟨⟩, c₅, hscope, hfinish⟩ := CompileM.bind_eq_ok.mp h
  obtain ⟨F₁, L₁, hsite₁, hwritten, hopen₁, hslot, hprepares⟩ := enter_spec hf hparams hret hsite
    hopen.1 rfl rfl (CompileM.bind_eq_ok.mpr ⟨(), c₁, hparams', hresult⟩)
  have hblock : BlockOf c₂.tree (u.body.At c₂.tree u.env) body := by
    rwa [show c₂.tree = c.tree from Context.tree_of_core hwritten.core]
  have hdefer : F₁.inDefer = false := (FunctionState.of_fixed hwritten.fixed).2.2.2.2.2
  obtain ⟨F₂, L₂, hbody⟩ := CompileM.blockWorks_of_itemsWork (CompileM.emitItems_spec u.body) hblock
    hsite₁ hopen₁ hdefer hstmt
  obtain ⟨-, hslot₂, -⟩ := FunctionState.of_fixed hbody.fixed
  obtain ⟨machine, hlower, hmachine, hvoid⟩ := lower_ret hf c₃ (performWithin d) location
  cases CompileM.closeResult_spec hbody.site hlower
    (fun hne => hvoid (by rwa [Ne, ← Option.isNone_iff_eq_none, hslot₂, ← Option.not_isSome, hslot,
      Option.not_isSome, Option.isNone_iff_eq_none] at hne)) hclose
  obtain ⟨hcore₅, hF₅⟩ := CompileM.closeScope_apply
    (Context.function_advance hbody.site.function _ _) hscope
  obtain ⟨new, -, hw⟩ := hbody.written
  have hend : F₂.builder.Continues [F₂.builder.current] (F₂.builder.finishWith (.br F₂.exit)) :=
    (FunctionBuilder.Continues.refl hbody.site.sound (List.mem_singleton_self _)).finishWith _
  have hclosed := hbody.site.closed machine
  have hcore : c₅.core = c.core := hcore₅.trans (hw.core.trans hwritten.core)
  cases CompileM.finishFunction_spec hF₅ hfinish
  refine ⟨(F₂.closed machine).finish, ⟨?_, ?_, FunctionBuilder.head?_finish hclosed.sound.toNumbered, ?_⟩, ?_,
    rfl⟩
  · exact (hclosed.name.trans (hend.name.trans (hw.continues.name.trans
      hwritten.continues.name))).trans hname
  · refine (congrArg FunctionSignature.params ?_).trans hsignature
    exact hclosed.signature.trans (hend.signature.trans (hw.continues.signature.trans
      hwritten.continues.signature))
  · exact implements_finish hf hblocks hsignature hwritten hslot hprepares hbody hmachine
  · exact congrArg (fun k : Context =>
      { k with program := k.program.addFunction (F₂.closed machine).finish }) hcore

end IntUnit

end UnitCompiler
