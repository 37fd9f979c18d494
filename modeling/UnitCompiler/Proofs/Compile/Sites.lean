import UnitCompiler.Proofs.Compile.Expressions
import UnitCompiler.Proofs.Compile.Simulation

/-!
# Places in a body under emission

Where a statement is emitted, the visible names have slots and the last block of the exit path is
still empty.  What is written from there on goes to the current block, to that last block and to new
blocks; each deferred assignment adds a link to the exit path.
-/

namespace UnitCompiler
open Machine

/-- What the emission of a body leaves alone. -/
def Context.core (c : Context) : Context := { c with function := none, log := {}, nestingDepth := 0 }

/-- What a statement leaves alone of the function under emission. -/
def FunctionState.fixed (F : FunctionState) : FunctionState :=
  { F with builder := default, scope := {}, exitTail := 0 }

theorem Context.tree_of_core {c c' : Context} (h : c'.core = c.core) : c'.tree = c.tree := by
  change c'.core.tree = c.core.tree
  rw [h]

/-- Where names lead depends on the scope only. -/
theorem Context.place?_congr {c c' : Context} {F F' : FunctionState} (h : c'.core = c.core)
    (hF : c.function = some F) (hF' : c'.function = some F')
    (hfind : ∀ name, findPlace F'.scope.places name = findPlace F.scope.places name)
    (name : String) : c'.place? name = c.place? name := by
  have hglobal : c'.core.globalPlace? name = c.core.globalPlace? name := by rw [h]
  unfold Context.place?
  rw [hF, hF', Option.bind_some, Option.bind_some, hfind]
  exact congrArg _ hglobal

/-- Where the slots stand in the code: no two are one operand, and those of flags are made at the head
of the entry block. -/
structure Held (code : Code) (slots : List Slot) : Prop where
  operands : (slots.map (·.operand)).Nodup
  flags : ∀ slot ∈ slots, ∀ n, slot.cell = .flag n → slot.kind = .bool ∧
    ∃ r, slot.operand = .register r ∧ FunctionBuilder.flagCode r ⊆ code.head

theorem Held.mono {n : Nat} {code code' : Code} {slots : List Slot} (h : Held code slots)
    (hcode : code.Extends n code') : Held code' slots := by
  refine ⟨h.operands, fun slot hslot m hm => ?_⟩
  obtain ⟨hkind, r, hr, hflag⟩ := h.flags slot hslot m hm
  obtain ⟨more, hmore, -⟩ := hcode.head
  exact ⟨hkind, r, hr, fun i hi => hmore ▸ List.mem_append_left _ (hflag hi)⟩

theorem Held.add {code : Code} {slots : List Slot} (h : Held code slots) {slot : Slot}
    (hnew : slot.operand ∉ slots.map (·.operand))
    (hflag : ∀ n, slot.cell = .flag n → slot.kind = .bool ∧
      ∃ r, slot.operand = .register r ∧ FunctionBuilder.flagCode r ⊆ code.head) :
    Held code (slots ++ [slot]) := by
  constructor
  · rw [List.map_append, List.nodup_append]
    refine ⟨h.operands, List.nodup_singleton _, fun o ho o' ho' heq => ?_⟩
    rw [heq, List.mem_singleton.mp ho'] at ho
    exact hnew ho
  · intro slot' hslot'
    rcases List.mem_append.mp hslot' with hslot' | hslot'
    · exact h.flags slot' hslot'
    · rw [List.mem_singleton.mp hslot']
      exact hflag

/-- A place in a body: the slots of the layout are there, the names of the environment lead to them,
and the exit path can be extended. -/
structure Site (c : Context) (F : FunctionState) (E : Env) (L : Layout) : Prop where
  function : c.function = some F
  sound : F.builder.Sound
  visible : ∀ name n, numberOf E.names name = some n → ∃ slot ∈ L.slots, slot.cell = .var n ∧
    ∃ type, c.place? name = some ⟨type, slot.operand⟩ ∧ type.strip = .scalar slot.kind
  slots : ∀ slot ∈ L.slots, slot.kind.isInteger = true ∧ slot.operand.Below F.builder.nextValue
  nodup : (L.slots.map (·.cell)).Nodup
  next : ∀ slot ∈ L.slots, ∀ n, slot.cell = .var n ∨ slot.cell = .flag n → n < E.next
  flags : ∀ d ∈ L.defers, ∃ slot ∈ L.slots, slot.cell = .flag d.number
  numbers : (L.defers.map (·.number)).Nodup
  tail : F.builder.Fresh F.exitTail
  tail_ne : F.exitTail ≠ F.builder.current
  tail_pos : F.exitTail ≠ 0
  exit_pos : F.exit ≠ 0
  loops : ∀ t ∈ F.loops, t.breakTo ≠ 0 ∧ t.continueTo ≠ 0
  result : (∀ o, F.resultSlot = some o → ∃ slot ∈ L.slots, slot.cell = .result ∧ slot.operand = o ∧
      F.ret.strip = .scalar slot.kind) ∧
    (F.resultSlot = none → ∀ slot ∈ L.slots, slot.cell ≠ .result)
  plain : F.isConstructor = false
  held : Held F.builder.code L.slots

/-- The exit path from one of its blocks to another runs some deferred assignments. -/
def Linked (A : Activation) (L : Layout) (tail tail' : Nat) (defers : List Deferred) : Prop :=
  ∀ fuel frame st s r, Models A.image L [] s r ⟨⟨tail, 0⟩, frame, st⟩ →
    Realizes A fuel ⟨⟨tail, 0⟩, frame, st⟩
      (fun _ s' C => C.point = ⟨tail', 0⟩ ∧ Models A.image L [] s' r C)
      (.ofStore (runDefers defers s))

/-- What is written between two places: code in the blocks `S` and in new ones, with new slots and
deferred assignments. -/
structure Written (S : List Nat) (c c' : Context) (F F' : FunctionState) (L L' : Layout)
    (added : List Deferred) : Prop where
  core : c'.core = c.core
  fixed : F'.fixed = F.fixed
  continues : F.builder.Continues S F'.builder
  slots : ∃ new, L'.slots = L.slots ++ new ∧
    ∀ slot ∈ new, ∃ r, slot.operand = .register r ∧ F.builder.nextValue ≤ r
  defers : L'.defers = L.defers ++ added
  tail : F'.exitTail = F.exitTail ∨ F.builder.nextBlock ≤ F'.exitTail
  exits : ∀ A L₁, Later A L₁ F'.builder L' → Linked A L₁ F.exitTail F'.exitTail added

/-- What runs later runs what was written before. -/
theorem Later.of_written {A : Activation} {L₁ L L' : Layout} {S : List Nat} {c c' : Context}
    {F F' : FunctionState} {defers : List Deferred} (h : Later A L₁ F'.builder L')
    (hw : Written S c c' F F' L L' defers) : Later A L₁ F.builder L := by
  obtain ⟨more, hmore, hregs⟩ := h.slots
  obtain ⟨new, hnew, hregs'⟩ := hw.slots
  obtain ⟨rest, hrest⟩ := h.defers
  refine ⟨h.has.of_continues hw.continues, ⟨new ++ more, ?_, ?_⟩, ⟨defers ++ rest, ?_⟩, h.nodup,
    h.numbers⟩
  · rw [hmore, hnew, List.append_assoc]
  · intro slot hslot
    rcases List.mem_append.mp hslot with hslot | hslot
    · exact hregs' slot hslot
    · obtain ⟨r, hr, hle⟩ := hregs slot hslot
      exact ⟨r, hr, hw.continues.value.trans hle⟩
  · rw [hrest, hw.defers, List.append_assoc]

theorem Linked.refl (A : Activation) (L : Layout) (tail : Nat) : Linked A L tail tail [] :=
  fun _ _ _ _ _ hmodels => Activation.Leads.refl ⟨rfl, hmodels⟩

theorem runDefers_append (defers defers' : List Deferred) (s : Store) :
    runDefers (defers ++ defers') s = (runDefers defers s).bind (runDefers defers') := by
  induction defers generalizing s with
  | nil => rfl
  | cons d rest ih =>
    simp only [List.cons_append, runDefers]
    cases (if s.reached d.number then d.assignment.run d.names s else some s) with
    | none => rfl
    | some s' => exact ih s'

theorem Linked.trans {A : Activation} {L : Layout} {tail tail' tail'' : Nat}
    {defers defers' : List Deferred} (h : Linked A L tail tail' defers)
    (h' : Linked A L tail' tail'' defers') : Linked A L tail tail'' (defers ++ defers') := by
  intro fuel frame st s r hmodels
  rw [runDefers_append]
  have hfirst := (h fuel frame st s r hmodels).bind (R := fun _ s' C => C.point = ⟨tail'', 0⟩ ∧
      Models A.image L [] s' r C) (f := fun _ s' => .ofStore (runDefers defers' s')) (by
    rintro signal s' ⟨point, frame', st'⟩ ⟨hpoint, hmodels'⟩
    cases hpoint
    exact h' fuel frame' st' s' r hmodels')
  cases hrun : runDefers defers s with
  | none =>
    rw [hrun] at hfirst
    exact hfirst
  | some s' =>
    rw [hrun] at hfirst
    exact hfirst

namespace Written

variable {S S' : List Nat} {c c₁ c₂ : Context} {F F₁ F₂ : FunctionState} {L L₁ L₂ : Layout}
  {defers defers' : List Deferred}

theorem trans (h : Written S c c₁ F F₁ L L₁ defers) (h' : Written S' c₁ c₂ F₁ F₂ L₁ L₂ defers')
    (hS : ∀ x ∈ S', x ∈ S ∨ F.builder.nextBlock ≤ x) :
    Written S c c₂ F F₂ L L₂ (defers ++ defers') where
  core := h'.core.trans h.core
  fixed := h'.fixed.trans h.fixed
  continues := h.continues.trans h'.continues hS
  slots := by
    obtain ⟨new, hnew, hregs⟩ := h.slots
    obtain ⟨new', hnew', hregs'⟩ := h'.slots
    refine ⟨new ++ new', by rw [hnew', hnew, List.append_assoc], fun slot hslot => ?_⟩
    rcases List.mem_append.mp hslot with hslot | hslot
    · exact hregs slot hslot
    · obtain ⟨r, hr, hle⟩ := hregs' slot hslot
      exact ⟨r, hr, h.continues.value.trans hle⟩
  defers := by rw [h'.defers, h.defers, List.append_assoc]
  tail := by
    rcases h'.tail with htail | htail
    · rw [htail]
      exact h.tail
    · exact Or.inr (h.continues.block.trans htail)
  exits A L₁ hlater := (h.exits A L₁ (hlater.of_written h')).trans (h'.exits A L₁ hlater)

/-- Behind the current block and the last block of the exit path. -/
theorem trans_current (h : Written S c c₁ F F₁ L L₁ defers) (htail : F.exitTail ∈ S)
    (h' : Written [F₁.builder.current, F₁.exitTail] c₁ c₂ F₁ F₂ L₁ L₂ defers') :
    Written S c c₂ F F₂ L L₂ (defers ++ defers') := by
  refine h.trans h' fun x hx => ?_
  rcases List.mem_cons.mp hx with rfl | hx
  · exact h.continues.current
  · rw [List.mem_singleton.mp hx]
    rcases h.tail with heq | hle
    · exact Or.inl (heq ▸ htail)
    · exact Or.inr hle

/-- Behind the current block alone. -/
theorem trans_here (h : Written S c c₁ F F₁ L L₁ defers)
    (h' : Written [F₁.builder.current] c₁ c₂ F₁ F₂ L₁ L₂ defers') :
    Written S c c₂ F F₂ L L₂ (defers ++ defers') :=
  h.trans h' fun x hx => by
    rw [List.mem_singleton.mp hx]
    exact h.continues.current

/-- Behind that a branch from a new block on. -/
theorem trans_branch (h : Written S c c₁ F F₁ L L₁ defers) (htail : F.exitTail ∈ S) {start : Nat}
    (hstart : F.builder.nextBlock ≤ start)
    (h' : Written [start, F₁.exitTail] c₁ c₂ F₁ F₂ L₁ L₂ defers') :
    Written S c c₂ F F₂ L L₂ (defers ++ defers') := by
  refine h.trans h' fun x hx => ?_
  rcases List.mem_cons.mp hx with rfl | hx
  · exact Or.inr hstart
  · rw [List.mem_singleton.mp hx]
    rcases h.tail with heq | hle
    · exact Or.inl (heq ▸ htail)
    · exact Or.inr hle

/-- Behind that a new block. -/
theorem trans_block (h : Written S c c₁ F F₁ L L₁ defers) {id : Nat}
    (hid : F.builder.nextBlock ≤ id) (h' : Written [id] c₁ c₂ F₁ F₂ L₁ L₂ defers') :
    Written S c c₂ F F₂ L L₂ (defers ++ defers') :=
  h.trans h' fun x hx => by
    rw [List.mem_singleton.mp hx]
    exact Or.inr hid

/-- The exit path does not come to a block that it was not at. -/
theorem tail_ne (h : Written S c c₁ F F₁ L L₁ defers) {id : Nat} (hid : id < F.builder.nextBlock)
    (hne : F.exitTail ≠ id) : F₁.exitTail ≠ id := by
  rcases h.tail with heq | hle
  · rwa [heq]
  · omega

theorem mono (h : Written S c c₁ F F₁ L L₁ defers) (S' : List Nat) (hS : ∀ x ∈ S, x ∈ S') :
    Written S' c c₁ F F₁ L L₁ defers :=
  ⟨h.core, h.fixed, h.continues.mono hS, h.slots, h.defers, h.tail, h.exits⟩

/-- Code that makes a slot. -/
theorem addSlot (h : Written S c c₁ F F₁ L L []) (htail : F₁.exitTail = F.exitTail) {slot : Slot}
    {reg : Nat} (hslot : slot.operand = .register reg) (hreg : F.builder.nextValue ≤ reg) :
    Written S c c₁ F F₁ L (L.add slot) [] := by
  refine ⟨h.core, h.fixed, h.continues, ⟨[slot], rfl, fun slot' hslot' => ?_⟩, by simp [Layout.add],
    h.tail, fun A L₁ _ => htail ▸ Linked.refl A L₁ F.exitTail⟩
  rw [List.mem_singleton.mp hslot']
  exact ⟨reg, hslot, hreg⟩

end Written

theorem FunctionState.of_fixed {F F' : FunctionState} (h : F'.fixed = F.fixed) :
    F'.ret = F.ret ∧ F'.resultSlot = F.resultSlot ∧ F'.exit = F.exit ∧ F'.loops = F.loops ∧
      F'.isConstructor = F.isConstructor ∧ F'.inDefer = F.inDefer := by
  have hfields : F'.fixed.ret = F.fixed.ret ∧ F'.fixed.resultSlot = F.fixed.resultSlot ∧
      F'.fixed.exit = F.fixed.exit ∧ F'.fixed.loops = F.fixed.loops ∧
      F'.fixed.isConstructor = F.fixed.isConstructor ∧ F'.fixed.inDefer = F.fixed.inDefer := by
    simp only [h, and_self]
  exact hfields

namespace Site

variable {c c' : Context} {F F' : FunctionState} {E : Env} {L : Layout} {S : List Nat}
  {p : Performer}

theorem ready (h : Site c F E L) (ho : F.builder.Open) : Ready c F.builder :=
  ⟨⟨F, h.function, rfl⟩, h.sound, ho⟩

theorem typed (h : Site c F E L) {names : List String}
    (hnames : ∀ name ∈ names, (numberOf E.names name).isSome) : Typed c F.builder names := by
  intro name hname
  obtain ⟨n, hn⟩ := Option.isSome_iff_exists.mp (hnames name hname)
  obtain ⟨slot, hslot, -, type, hplace, htype⟩ := h.visible name n hn
  exact ⟨_, slot.kind, hplace, htype, (h.slots slot hslot).1, (h.slots slot hslot).2⟩

/-- Code in other blocks than the last one of the exit path, without new slots. -/
theorem move (h : Site c F E L) (hcore : c'.core = c.core) (hF' : c'.function = some F')
    (hfixed : F'.fixed = F.fixed) (htail : F'.exitTail = F.exitTail)
    (hfind : ∀ name, findPlace F'.scope.places name = findPlace F.scope.places name)
    (hc : F.builder.Continues S F'.builder) (hS : F.exitTail ∉ S) : Site c' F' E L ∧ Written S c c' F F' L L [] := by
  obtain ⟨hret, hslot, hexit, hloops, hplain, -⟩ := FunctionState.of_fixed hfixed
  have hfresh : F'.builder.Fresh F'.exitTail := htail ▸ h.tail.continues hc hS
  constructor
  · refine ⟨hF', hc.sound, fun name n hn => ?_, fun slot hslot => ?_, h.nodup, h.next, h.flags,
      h.numbers, hfresh, ?_, htail ▸ h.tail_pos, hexit ▸ h.exit_pos, hloops ▸ h.loops, ?_,
      hplain ▸ h.plain, h.held.mono hc.code⟩
    · rw [Context.place?_congr hcore h.function hF' hfind]
      exact h.visible name n hn
    · exact ⟨(h.slots slot hslot).1, (h.slots slot hslot).2.mono hc.value⟩
    · intro heq
      rw [htail] at heq
      rcases hc.current with hmem | hle
      · exact hS (heq ▸ hmem)
      · have hlt := h.tail.lt
        omega
    · rw [hslot, hret]
      exact h.result
  · exact ⟨hcore, hfixed, hc, ⟨[], by simp, by simp⟩, by simp, Or.inl htail,
      fun A L₁ _ => htail ▸ Linked.refl A L₁ F.exitTail⟩

theorem tail_not_mem (h : Site c F E L) : F.exitTail ∉ [F.builder.current] := by
  simpa using h.tail_ne

/-- Behind code for a value. -/
theorem follows {b' : FunctionBuilder} (h : Site c F E L) (hf : Follows c c' F.builder b') :
    ∃ F', F'.builder = b' ∧ F'.scope.places = F.scope.places ∧ Site c' F' E L ∧
      Written [F.builder.current] c c' F F' L L [] := by
  obtain ⟨F₀, scope, hF₀, -, rfl, hplaces⟩ := hf.state
  cases h.function.symm.trans hF₀
  have hF' := Context.function_advance h.function b' scope
  exact ⟨_, rfl, hplaces, h.move (by rfl) hF' rfl rfl (fun name => by rw [hplaces])
    hf.continues h.tail_not_mem⟩

/-- Behind a builder action. -/
theorem built {α : Type} {action : BuildM α} {a x : α} {b' : FunctionBuilder} (h : Site c F E L)
    (hrun : action.run F.builder = (a, b')) (hc : F.builder.Continues S b') (hS : F.exitTail ∉ S)
    (hbuild : CompileM.build action p c = .ok x c') :
    x = a ∧ Site c' { F with builder := b' } E L ∧
      Written S c c' F { F with builder := b' } L L [] := by
  rw [CompileM.build_apply h.function, hrun] at hbuild
  cases hbuild
  have hF' := Context.function_advance h.function b' F.scope
  exact ⟨rfl, h.move (by rfl) hF' rfl rfl (fun _ => rfl) hc hS⟩

/-- A place with one more slot, which may be that of the result. -/
theorem extend (h : Site c F E L) {slot : Slot} (count : Nat) {result : Option Operand}
    (hcore : c'.core = c.core) (hF' : c'.function = some { F with resultSlot := result })
    (hnew : slot.cell ∉ L.slots.map (·.cell)) (hk : slot.kind.isInteger = true)
    (hbelow : slot.operand.Below F.builder.nextValue)
    (hnext : ∀ n, slot.cell = .var n ∨ slot.cell = .flag n → n < E.next + count)
    (hoperand : slot.operand ∉ L.slots.map (·.operand))
    (hflag : ∀ n, slot.cell = .flag n → slot.kind = .bool ∧
      ∃ r, slot.operand = .register r ∧ FunctionBuilder.flagCode r ⊆ F.builder.code.head)
    (hresult : (∀ o, result = some o → ∃ slot' ∈ (L.add slot).slots, slot'.cell = .result ∧
        slot'.operand = o ∧ F.ret.strip = .scalar slot'.kind) ∧
      (result = none → ∀ slot' ∈ (L.add slot).slots, slot'.cell ≠ .result)) :
    Site c' { F with resultSlot := result } (E.skip count) (L.add slot) := by
  have hsub (slot' : Slot) (hslot : slot' ∈ L.slots) : slot' ∈ (L.add slot).slots :=
    List.mem_append_left _ hslot
  refine ⟨hF', h.sound, fun name n hn => ?_, fun slot' hslot => ?_, ?_, fun slot' hslot n hn => ?_,
    fun d hd => ?_, h.numbers, h.tail, h.tail_ne, h.tail_pos, h.exit_pos, h.loops, hresult,
    h.plain, h.held.add hoperand hflag⟩
  · obtain ⟨slot', hslot, hrest⟩ := h.visible name n hn
    rw [Context.place?_congr hcore h.function hF' (fun _ => rfl)]
    exact ⟨slot', hsub slot' hslot, hrest⟩
  · rcases List.mem_append.mp hslot with hslot | hslot
    · exact h.slots slot' hslot
    · rw [List.mem_singleton.mp hslot]
      exact ⟨hk, hbelow⟩
  · simp only [Layout.add, List.map_append, List.map_cons, List.map_nil]
    rw [List.nodup_append]
    refine ⟨h.nodup, List.nodup_singleton _, fun cell hcell cell' hcell' => ?_⟩
    rw [List.mem_singleton.mp hcell']
    rintro rfl
    exact hnew hcell
  · rcases List.mem_append.mp hslot with hslot | hslot
    · exact (h.next slot' hslot n hn).trans_le (Nat.le_add_right _ _)
    · rw [List.mem_singleton.mp hslot] at hn
      exact hnext n hn
  · obtain ⟨slot', hslot, hcell⟩ := h.flags d hd
    exact ⟨slot', hsub slot' hslot, hcell⟩

/-- A place with one more slot for something else than the result. -/
theorem addSlot (h : Site c F E L) {slot : Slot} (count : Nat)
    (hnew : slot.cell ∉ L.slots.map (·.cell)) (hk : slot.kind.isInteger = true)
    (hbelow : slot.operand.Below F.builder.nextValue)
    (hnext : ∀ n, slot.cell = .var n ∨ slot.cell = .flag n → n < E.next + count)
    (hresult : slot.cell ≠ .result) (hoperand : slot.operand ∉ L.slots.map (·.operand))
    (hflag : ∀ n, slot.cell = .flag n → slot.kind = .bool ∧
      ∃ r, slot.operand = .register r ∧ FunctionBuilder.flagCode r ⊆ F.builder.code.head) :
    Site c F (E.skip count) (L.add slot) := by
  refine h.extend count rfl h.function hnew hk hbelow hnext hoperand hflag
    ⟨fun o ho => ?_, fun hnone slot' hslot => ?_⟩
  · obtain ⟨slot', hslot, hrest⟩ := h.result.1 o ho
    exact ⟨slot', List.mem_append_left _ hslot, hrest⟩
  · rcases List.mem_append.mp hslot with hslot | hslot
    · exact h.result.2 hnone slot' hslot
    · rw [List.mem_singleton.mp hslot]
      exact hresult

/-- A register that has not been set yet is no slot's. -/
theorem register_not_mem (h : Site c F E L) :
    .register F.builder.nextValue ∉ L.slots.map (·.operand) := by
  intro hmem
  obtain ⟨slot, hslot, heq⟩ := List.mem_map.mp hmem
  have hbelow := (h.slots slot hslot).2
  rw [heq] at hbelow
  exact lt_irrefl _ hbelow

/-- The number of the next declaration is new. -/
theorem next_not_mem (h : Site c F E L) {cell : Cell} (hcell : cell = .var E.next ∨ cell = .flag E.next) :
    cell ∉ L.slots.map (·.cell) := by
  intro hmem
  obtain ⟨slot, hslot, rfl⟩ := List.mem_map.mp hmem
  exact lt_irrefl _ (h.next slot hslot E.next hcell)

/-- The same place with more numbers in use. -/
theorem skip (h : Site c F E L) (count : Nat) : Site c F (E.skip count) L :=
  ⟨h.function, h.sound, h.visible, h.slots, h.nodup,
    fun slot hslot n hn => (h.next slot hslot n hn).trans_le (Nat.le_add_right _ _), h.flags,
    h.numbers, h.tail, h.tail_ne, h.tail_pos, h.exit_pos, h.loops, h.result, h.plain, h.held⟩

end Site

section Runs

variable {A : Activation} {c c' : Context} {F F' : FunctionState} {E : Env} {L L₁ : Layout}
  {s : Store} {r : IntValue} {frame : Machine.Frame} {st : State} {p : Point}

/-- The values of a store are those of the variables that names lead to. -/
theorem Models.provides (h : Models A.image L₁ E.names s r ⟨p, frame, st⟩) (hsite : Site c F E L)
    {b : FunctionBuilder} (hlater : Later A L₁ b L) {names : List String}
    (hnames : ∀ name ∈ names, (numberOf E.names name).isSome) :
    Provides c A frame st.memory (s.get E.names) names := by
  intro name hname
  obtain ⟨n, hn⟩ := Option.isSome_iff_exists.mp (hnames name hname)
  obtain ⟨slot, hslot, hcell, type, hplace, htype⟩ := hsite.visible name n hn
  have hvalue : s.cells r slot.cell = some (s.get E.names name) := by
    rw [hcell]
    exact h.defined.get hn
  obtain ⟨hkind, hsees⟩ := h.represents.cell slot (hlater.mem hslot) _ hvalue
  exact ⟨_, hplace, hkind ▸ htype, hsees⟩

/-- Code without new slots sets no register of a slot. -/
theorem Later.outside {b' : FunctionBuilder} (hlater : Later A L₁ b' L) (hsite : Site c F E L) :
    ∀ slot ∈ L₁.slots, slot.Outside F.builder.nextValue b'.nextValue := by
  intro slot hslot reg hreg
  obtain ⟨more, hmore, hregs⟩ := hlater.slots
  rw [hmore] at hslot
  rcases List.mem_append.mp hslot with hslot | hslot
  · have hbelow := (hsite.slots slot hslot).2
    rw [hreg] at hbelow
    exact Or.inl hbelow
  · obtain ⟨reg', hreg', hle⟩ := hregs slot hslot
    cases hreg.symm.trans hreg'
    exact Or.inr hle

/-- The result behind a return. -/
def FunctionState.returned (F : FunctionState) (value : Option IntValue) (r : IntValue) : IntValue :=
  match value, F.ret.strip with
  | some x, .scalar k => x.convert k
  | _, _ => r

/-- Where the signals of a statement lead; `Next` says where control goes on behind it. -/
def Ends (A : Activation) (L : Layout) (F : FunctionState) (names : List (String × Nat))
    (r : IntValue) (Next : Store → Config → Prop) : Signal → Store → Config → Prop
  | .next, s, C => Next s C
  | .leave, s, C =>
    ∃ t, F.loops.head? = some t ∧ C.point = ⟨t.breakTo, 0⟩ ∧ Models A.image L names s r C
  | .again, s, C =>
    ∃ t, F.loops.head? = some t ∧ C.point = ⟨t.continueTo, 0⟩ ∧ Models A.image L names s r C
  | .ret value, s, C =>
    C.point = ⟨F.exit, 0⟩ ∧ Models A.image L names s (F.returned value r) C

/-- Control is at the start of a block. -/
def Enters (A : Activation) (L : Layout) (names : List (String × Nat)) (r : IntValue) (id : Nat)
    (s : Store) (C : Config) : Prop :=
  C.point = ⟨id, 0⟩ ∧ Models A.image L names s r C

/-- Control is where the builder of `F` stands. -/
def Stands (A : Activation) (L : Layout) (names : List (String × Nat)) (r : IntValue)
    (F : FunctionState) (s : Store) (C : Config) : Prop :=
  F.builder.Open ∧ C.point = F.builder.here ∧ Models A.image L names s r C

/-- The signals of a statement inside another one, seen from there. -/
theorem Ends.outer {F₁ : FunctionState} {names names₁ : List (String × Nat)}
    {Next Next' : Store → Config → Prop} (hfixed : F₁.fixed = F.fixed)
    (hnames : ∀ q ∈ names, q ∈ names₁) (hnext : ∀ s C, Next s C → Next' s C) {signal : Signal}
    {s : Store} {C : Config} (h : Ends A L F₁ names₁ r Next signal s C) :
    Ends A L F names r Next' signal s C := by
  obtain ⟨hret, -, hexit, hloops, -, -⟩ := FunctionState.of_fixed hfixed
  cases signal with
  | next => exact hnext s C h
  | leave =>
    obtain ⟨t, ht, hpoint, hmodels⟩ := h
    exact ⟨t, hloops ▸ ht, hpoint, hmodels.names_mono hnames⟩
  | again =>
    obtain ⟨t, ht, hpoint, hmodels⟩ := h
    exact ⟨t, hloops ▸ ht, hpoint, hmodels.names_mono hnames⟩
  | ret value =>
    obtain ⟨hpoint, hmodels⟩ := h
    have hreturned : F₁.returned value r = F.returned value r := by
      simp only [FunctionState.returned, hret]
    exact ⟨hexit ▸ hpoint, hreturned ▸ hmodels.names_mono hnames⟩

/-- The code from `F` to `F'` realizes the outcomes of a statement. -/
def Runs (F F' : FunctionState) (E E' : Env) (L : Layout) (run : Nat → Store → Outcome) : Prop :=
  ∀ A L₁, Later A L₁ F'.builder L → ∀ fuel frame st s r,
    Models A.image L₁ E.names s r ⟨F.builder.here, frame, st⟩ →
    Realizes A fuel ⟨F.builder.here, frame, st⟩ (Ends A L₁ F E.names r (Stands A L₁ E'.names r F'))
      (run fuel s)

end Runs
end UnitCompiler
