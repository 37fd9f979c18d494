import UnitCompiler.Proofs.Compile.Exits

/-!
# Deferred assignments

A deferred assignment has a flag that is false when the function starts and true once the assignment
has been reached.  Its code is a link of the exit path, behind a test of the flag.
-/

namespace UnitCompiler
open Machine

namespace FunctionBuilder

variable {b : FunctionBuilder} {tail : Nat}

/-- The builder with a flag, which is set where the builder stands. -/
def setFlag (b : FunctionBuilder) : FunctionBuilder :=
  b.addFlag.place
    (.store (.constant (.bool true)) (.register b.nextValue) none false) none

/-- The builder with a test of a flag at the end of the exit path. -/
def testFlag (b : FunctionBuilder) (flag : Operand) (tail : Nat) : FunctionBuilder :=
  (((b.addBlocks ["defer.run", "defer.next"]).moveTo tail).place (.load flag none false)
    (some .i1)).endWith (.condBr (.register b.nextValue) b.nextBlock (b.nextBlock + 1))

theorem continues_setFlag (hb : b.Sound) (ho : b.Open) :
    Continues [b.current] b b.setFlag ∧ b.setFlag.Open ∧ b.addFlag.Open ∧ b.addFlag.here = b.here := by
  have hslot := (Continues.refl hb (List.mem_singleton_self _)).addFlag
  have hcode := code_addFlag hb
  have ho₁ : b.addFlag.Open := by
    rw [Open, hcode]
    exact ho
  refine ⟨hslot.place ho₁ _ _, (open_place hslot.sound _ _).mpr ho₁, ho₁, ?_⟩
  rw [here, hcode]
  rfl

/-- At the end of the exit path, with two new blocks. -/
theorem continues_atTail (hb : b.Sound) (htail : b.Fresh tail) (labels : List String) :
    Continues [tail] b ((b.addBlocks labels).moveTo tail) ∧
      Fresh (b.addBlocks labels) tail := by
  obtain ⟨hc, hcode, -⟩ := continues_addBlocks hb labels
  have hlt := htail.lt.trans_le hc.block
  refine ⟨⟨hc.sound.moveTo hlt, hc.value, hc.block, hc.code, fun id _ _ => ?_,
    Or.inl (List.mem_singleton_self _), hc.signature, hc.name⟩, hlt, ?_, ?_⟩
  · rw [code_moveTo, hcode]
    exact ⟨rfl, rfl⟩
  · rw [hcode]
    exact htail.body
  · rw [hcode]
    exact htail.ending

theorem continues_testFlag (hb : b.Sound) (htail : b.Fresh tail) (flag : Operand) :
    Continues [tail] b (b.testFlag flag tail) := by
  obtain ⟨hc, hfresh⟩ := continues_atTail hb htail ["defer.run", "defer.next"]
  exact (hc.place hfresh.isOpen _ _).endWith ((open_place hc.sound _ _).mpr hfresh.isOpen) _

theorem fresh_testFlag (hb : b.Sound) (htail : b.Fresh tail) (flag : Operand) {id : Nat}
    (hle : b.nextBlock ≤ id) (hlt : id < b.nextBlock + 2) : Fresh (b.testFlag flag tail) id := by
  obtain ⟨hc, hcode, -⟩ := continues_addBlocks hb ["defer.run", "defer.next"]
  obtain ⟨hc', hfresh⟩ := continues_atTail hb htail ["defer.run", "defer.next"]
  have hnew : Fresh ((b.addBlocks ["defer.run", "defer.next"]).moveTo tail) id := by
    refine ⟨hlt, ?_, ?_⟩
    · rw [code_moveTo, hcode]
      exact hb.body_eq_nil hle
    · rw [code_moveTo, hcode]
      exact hb.ending_eq_none hle
  have hrest := ((Continues.refl hc'.sound (List.mem_singleton_self _)).place hfresh.isOpen
    (.load flag none false) (some .i1)).endWith ((open_place hc'.sound _ _).mpr hfresh.isOpen)
    (.condBr (.register b.nextValue) b.nextBlock (b.nextBlock + 1))
  refine hnew.continues hrest ?_
  have hne : id ≠ tail := (htail.lt.trans_le hle).ne'
  simpa [moveTo] using hne

theorem enterDefer_run (hb : b.Sound) (ho : b.Open) (htail : b.Fresh tail) (hne : tail ≠ b.current) :
    (do
      let flag ← entrySlot .i1 (.constant (.bool false))
      store (.constant (.bool true)) flag
      let resume := (← get).current
      let runBlock ← createBlock "defer.run"
      let nextBlock ← createBlock "defer.next"
      switchTo tail
      let reached ← load flag .i1
      condBr reached runBlock nextBlock
      switchTo runBlock
      return (resume, nextBlock) : BuildM (Nat × Nat)).run b =
    ((b.current, b.nextBlock + 1),
      (b.setFlag.testFlag (.register b.nextValue) tail).moveTo b.nextBlock) := by
  obtain ⟨hc, ho₂, ho₁, -⟩ := continues_setFlag hb ho
  have htail₂ : b.setFlag.Fresh tail := htail.continues hc (by simpa using hne)
  obtain ⟨hc₃, hfresh⟩ := continues_atTail hc.sound htail₂ ["defer.run", "defer.next"]
  have ho₄ := (open_place hc₃.sound (.load (.register b.nextValue) none false) (some .i1)).mpr
    hfresh.isOpen
  rw [testFlag, ← finishWith_of_open ho₄]
  rw [run_bind, entrySlot_run, run_bind, store_run ho₁]
  simp only [run_bind, createBlock_run, switchTo_run, condBr, terminate_run_eq]
  rw [load_run (by exact hfresh.isOpen) (.register b.nextValue) rfl]
  rfl

end FunctionBuilder

namespace Site

variable {c c' : Context} {F : FunctionState} {E : Env} {L : Layout} {S : List Nat}

/-- A place with another end of the exit path. -/
theorem withTail (h : Site c F E L) {b' : FunctionBuilder} {loops : List LoopTargets}
    {inDefer : Bool} {tail : Nat} (hcore : c'.core = c.core)
    (hF' : c'.function = some { F with builder := b', exitTail := tail, loops, inDefer })
    (hc : F.builder.Continues S b') (hfresh : b'.Fresh tail) (hne : tail ≠ b'.current)
    (hpos : tail ≠ 0) (hloops : ∀ t ∈ loops, t.breakTo ≠ 0 ∧ t.continueTo ≠ 0) :
    Site c' { F with builder := b', exitTail := tail, loops, inDefer } E L := by
  refine ⟨hF', hc.sound, fun name n hn => ?_, fun slot hslot => ?_, h.nodup, h.next, h.flags,
    h.numbers, hfresh, hne, hpos, h.exit_pos, hloops, h.result, h.plain,
    h.held.mono hc.code⟩
  · rw [Context.place?_congr hcore h.function hF' (fun _ => rfl)]
    exact h.visible name n hn
  · exact ⟨(h.slots slot hslot).1, (h.slots slot hslot).2.mono hc.value⟩

/-- A place behind a deferred assignment that has a flag. -/
theorem addDefer (h : Site c F E L) {d : Deferred} (hflag : ∃ slot ∈ L.slots, slot.cell = .flag d.number)
    (hnew : d.number ∉ L.defers.map (·.number)) :
    Site c F E { L with defers := L.defers ++ [d] } := by
  refine ⟨h.function, h.sound, h.visible, h.slots, h.nodup, h.next, fun d' hd' => ?_, ?_, h.tail,
    h.tail_ne, h.tail_pos, h.exit_pos, h.loops, h.result, h.plain, h.held⟩
  · rcases List.mem_append.mp hd' with hd' | hd'
    · exact h.flags d' hd'
    · rw [List.mem_singleton.mp hd']
      exact hflag
  · simp only [List.map_append, List.map_cons, List.map_nil]
    rw [List.nodup_append]
    refine ⟨h.numbers, List.nodup_singleton _, fun n hn n' hn' => ?_⟩
    rw [List.mem_singleton.mp hn']
    rintro rfl
    exact hnew hn

end Site

theorem Later.of_moveTo {A : Activation} {L L' : Layout} {b : FunctionBuilder} {id : Nat}
    (h : Later A L (b.moveTo id) L') : Later A L b L' :=
  ⟨h.has, h.slots, h.defers, h.nodup, h.numbers⟩

theorem Later.of_defers {A : Activation} {L L' : Layout} {b : FunctionBuilder} {more : List Deferred}
    (h : Later A L b { L' with defers := L'.defers ++ more }) : Later A L b L' := by
  obtain ⟨rest, hrest⟩ := h.defers
  exact ⟨h.has, h.slots, ⟨more ++ rest, by rw [hrest, List.append_assoc]⟩, h.nodup, h.numbers⟩

/-- The slot of a flag. -/
def flagSlot (number register : Nat) : Slot := ⟨.flag number, .register register, .bool⟩

section Flags

variable {A : Activation} {b : FunctionBuilder} {L : Layout} {names : List (String × Nat)} {s : Store}
  {r : IntValue} {frame : Machine.Frame} {st : State} {slot : Slot} {n : Nat}

/-- A flag that has been set: the assignment has been reached, and its variables have values. -/
theorem Models.mark {i : Image} {C C' : Config} (h : Models i L names s r C) {d : Deferred}
    (hd : d ∈ L.defers) (hnames : d.names = names) (hnodup : (L.defers.map (·.number)).Nodup)
    (hr : Represents i L.slots C'.frame C'.state.memory ((s.mark d.number).cells r)) :
    Models i L names (s.mark d.number) r C' := by
  refine ⟨hr, h.defined.mark _, fun d' hd' hreached => ?_, fun m hm => ?_⟩
  · by_cases heq : d'.number = d.number
    · obtain rfl := List.inj_on_of_nodup_map hnodup hd' hd heq
      exact hnames ▸ h.defined
    · refine h.deferred d' hd' ?_
      simpa [Store.mark, heq] using hreached
  · by_cases heq : m = d.number
    · exact ⟨d, hd, heq.symm⟩
    · refine h.supported m ?_
      simpa [Store.mark, heq] using hm

/-- The test of a flag on the exit path. -/
theorem leads_testFlag {tail : Nat} (hb : b.Sound) (htail : b.Fresh tail)
    (hA : A.Has (b.testFlag slot.operand tail)) (hslot : slot ∈ L.slots) (hcell : slot.cell = .flag n)
    (houtside : ∀ slot ∈ L.slots, slot.Outside b.nextValue (b.nextValue + 1))
    (hmodels : Models A.image L names s r ⟨⟨tail, 0⟩, frame, st⟩) :
    A.Leads 0 ⟨⟨tail, 0⟩, frame, st⟩
      (fun C => C.point = ⟨if s.reached n then b.nextBlock else b.nextBlock + 1, 0⟩ ∧
        Models A.image L names s r C)
      (·.isLimit = true) := by
  obtain ⟨hc, hfresh⟩ := FunctionBuilder.continues_atTail hb htail ["defer.run", "defer.next"]
  have ho := (FunctionBuilder.open_place hc.sound (.load slot.operand none false) (some .i1)).mpr
    hfresh.isOpen
  have hc₁ := (FunctionBuilder.Continues.refl hc.sound (List.mem_singleton_self _)).place hfresh.isOpen
    (.load slot.operand none false) (some .i1)
  have hA₁ := hA.of_continues
    ((FunctionBuilder.Continues.refl hc₁.sound (List.mem_singleton_self _)).endWith ho _)
  obtain ⟨-, a, ha, hholds⟩ :=
    hmodels.represents.cell slot hslot (.ofBool (s.reached n)) (by rw [hcell]; rfl)
  rw [← hfresh.here] at hmodels ⊢
  have hload := Computes.place (k := .bool) (v := some (.ofBool (s.reached n))) hc.sound hA₁
    (by
      rintro x hx
      cases hx
      exact ⟨IntValue.wellFormed_ofBool _, rfl⟩)
    (perform_load A.caller { st with steps := st.steps + 1 } ha hholds)
  refine Activation.Leads.andThen hload fun C hC => ?_
  obtain ⟨point, frame', st'⟩ := C
  obtain rfl := hC.point
  have hkept : Models A.image L names s r ⟨_, frame', st'⟩ :=
    hmodels.keep hC.frame hC.memory houtside
  exact (leads_branch hc₁.sound hA (Nat.ne_of_gt hb.nextBlock_pos) (Nat.succ_ne_zero _) hC.value
    ⟨rfl, hkept.moved _⟩).mono (Nat.zero_le _) (fun _ => id) fun _ => id

/-- A link of the exit path. -/
theorem linked_defer {F : FunctionState} {tail : Nat} {d : Deferred} (hslot : slot ∈ L.slots)
    (hb : b.Sound) (htail : b.Fresh tail) (hA : A.Has (b.testFlag slot.operand tail))
    (hcell : slot.cell = .flag d.number)
    (houtside : ∀ slot ∈ L.slots, slot.Outside b.nextValue (b.nextValue + 1)) (hd : d ∈ L.defers)
    (hrun : ∀ fuel frame st s r, Models A.image L d.names s r ⟨⟨b.nextBlock, 0⟩, frame, st⟩ →
      Realizes A fuel ⟨⟨b.nextBlock, 0⟩, frame, st⟩
        (Ends A L F d.names r (Enters A L d.names r (b.nextBlock + 1)))
        (.ofStore (d.assignment.run d.names s))) :
    Linked A L tail (b.nextBlock + 1) [d] := by
  intro fuel frame st s r hmodels
  refine Realizes.step (leads_testFlag hb htail hA hslot hcell houtside hmodels) ?_
  rintro ⟨point, frame', st'⟩ ⟨hpoint, hmodels'⟩
  by_cases hreached : s.reached d.number = true
  · have hone : runDefers [d] s = d.assignment.run d.names s := by
      simp [runDefers, hreached]
    rw [if_pos hreached] at hpoint
    cases hpoint
    rw [hone]
    have hdefined : Models A.image L d.names s r ⟨⟨b.nextBlock, 0⟩, frame', st'⟩ :=
      ⟨hmodels'.represents, hmodels'.deferred d hd hreached, hmodels'.deferred, hmodels'.supported⟩
    exact (hrun fuel frame' st' s r hdefined).ofStore fun s' C hC =>
      ⟨hC.1, hC.2.names_mono (by simp)⟩
  · have hnone : runDefers [d] s = some s := by
      simp [runDefers, hreached]
    rw [if_neg hreached] at hpoint
    cases hpoint
    rw [hnone]
    exact Activation.Leads.refl ⟨rfl, hmodels'⟩

end Flags

/-- The function in the block of a deferred assignment, with the end of the exit path behind it. -/
def FunctionState.deferring (F : FunctionState) : FunctionState :=
  { F with
    builder := (F.builder.setFlag.testFlag (.register F.builder.nextValue) F.exitTail).moveTo
      F.builder.nextBlock
    exitTail := F.builder.nextBlock + 1
    inDefer := true
    loops := [] }

/-- The function `G` behind a deferred assignment, back where `F` was. -/
def FunctionState.resume (F G : FunctionState) : FunctionState :=
  { G with
    builder := (G.builder.finishWith (.br (F.builder.nextBlock + 1))).moveTo F.builder.current
    inDefer := false
    loops := F.loops }

/-- The code of a deferred assignment has been emitted. -/
structure Defers (c c₁ c₂ : Context) (F G : FunctionState) (E : Env) (L L₂ : Layout) (a : Assignment) :
    Prop where
  site : Site c F E L
  isOpen : F.builder.Open
  core : c₁.core = c.core
  emits : EmitsSimple c₁ c₂ F.deferring G (E.skip 1) (E.skip 1)
    (L.add (flagSlot E.next F.builder.nextValue)) L₂ (a.run E.names)

namespace Defers

variable {c c' c₁ c₂ : Context} {F G : FunctionState} {E : Env} {L L₁ L₂ : Layout} {a : Assignment}
  {A : Activation}

/-- A place with the new flag. -/
theorem flagged (h : Site c F E L) (ho : F.builder.Open) :
    Site (c.advance F.builder.setFlag F.scope) { F with builder := F.builder.setFlag } (E.skip 1)
      (L.add (flagSlot E.next F.builder.nextValue)) := by
  obtain ⟨hflag, -⟩ := FunctionBuilder.continues_setFlag h.sound ho
  have hbelow : F.builder.nextValue < F.builder.setFlag.nextValue :=
    show F.builder.nextValue < F.builder.nextValue + 2 + 1 by omega
  refine (h.advance hflag h.tail_not_mem).1.addSlot 1 (h.next_not_mem (Or.inr rfl)) rfl hbelow ?_ nofun
    h.register_not_mem fun _ _ => ⟨rfl, _, rfl, ?_⟩
  · rintro n (hn | hn) <;> cases hn
    exact Nat.lt_succ_self _
  · have hcode : F.builder.setFlag.code.head =
        F.builder.code.head ++ FunctionBuilder.flagCode F.builder.nextValue := by
      have hsound := (FunctionBuilder.Continues.refl h.sound (List.mem_singleton_self _)).addFlag.sound
      rw [FunctionBuilder.setFlag, FunctionBuilder.code_place hsound,
        FunctionBuilder.code_addFlag h.sound]
      rfl
    intro i hi
    change i ∈ F.builder.setFlag.code.head
    rw [hcode]
    exact List.mem_append_right _ hi

/-- The code on the exit path up to the block of the assignment, which is fresh. -/
theorem link (h : Site c F E L) (ho : F.builder.Open) :
    F.builder.setFlag.Fresh F.exitTail ∧
      F.builder.setFlag.Continues [F.exitTail] F.deferring.builder ∧
      FunctionBuilder.Fresh (F.builder.setFlag.testFlag (.register F.builder.nextValue) F.exitTail)
        F.builder.nextBlock ∧
      F.deferring.builder.Fresh (F.builder.nextBlock + 1) := by
  obtain ⟨hflag, -⟩ := FunctionBuilder.continues_setFlag h.sound ho
  have htail := h.tail.continues hflag h.tail_not_mem
  have htest := FunctionBuilder.continues_testFlag hflag.sound htail (.register F.builder.nextValue)
  have hstart := FunctionBuilder.fresh_testFlag hflag.sound htail
    (.register F.builder.nextValue) (le_refl _) (Nat.lt_add_of_pos_right Nat.two_pos)
  have hnext := FunctionBuilder.fresh_testFlag hflag.sound htail
    (.register F.builder.nextValue) (Nat.le_succ _) (Nat.lt_succ_self _)
  exact ⟨htail, htest.moveTo (Or.inr (le_refl F.builder.nextBlock)) hstart.lt, hstart,
    hnext.moveTo _⟩

/-- The place where a deferred assignment is emitted. -/
theorem deferring (h : Site c F E L) (ho : F.builder.Open) (hcore : c₁.core = c.core)
    (hF : c₁.function = some F.deferring) :
    Site c₁ F.deferring (E.skip 1) (L.add (flagSlot E.next F.builder.nextValue)) := by
  obtain ⟨-, hlink, -, hnext⟩ := link h ho
  exact (flagged h ho).withTail hcore hF hlink hnext (Nat.succ_ne_self _) (Nat.succ_ne_zero _)
    (by simp)

theorem mem_defers (hlater : Later A L₁ (F.resume G).builder
      { L₂ with defers := L₂.defers ++ [⟨E.next, E.names, a⟩] }) :
    (⟨E.next, E.names, a⟩ : Deferred) ∈ L₁.defers := by
  obtain ⟨more, hmore⟩ := hlater.defers
  rw [hmore]
  simp

variable (h : Defers c c₁ c₂ F G E L L₂ a)
include h

/-- All code of the exit path, behind the flag. -/
theorem exit : F.builder.setFlag.Continues [F.exitTail]
    (G.builder.finishWith (.br (F.builder.nextBlock + 1))) := by
  obtain ⟨-, hlink, -, -⟩ := link h.site h.isOpen
  refine (hlink.trans h.emits.written.continues fun x hx => ?_).finishWith _
  rw [List.mem_singleton.mp hx]
  exact Or.inr (le_refl _)

theorem current_lt : F.builder.current <
    (G.builder.finishWith (.br (F.builder.nextBlock + 1))).nextBlock :=
  h.site.sound.current_lt.trans_le
    ((FunctionBuilder.continues_setFlag h.site.sound h.isOpen).1.block.trans h.exit.block)

theorem tail_ne : G.exitTail ≠ F.builder.current := by
  obtain ⟨hflag, -⟩ := FunctionBuilder.continues_setFlag h.site.sound h.isOpen
  obtain ⟨-, hlink, -, -⟩ := link h.site h.isOpen
  have hlt := h.site.sound.current_lt
  refine h.emits.written.tail_ne (hlt.trans_le (hflag.block.trans hlink.block)) ?_
  change F.builder.nextBlock + 1 ≠ F.builder.current
  omega

theorem slot_mem : flagSlot E.next F.builder.nextValue ∈ L₂.slots := by
  obtain ⟨more, hmore, -⟩ := h.emits.written.slots
  rw [hmore]
  simp [Layout.add]

theorem defers_eq : L₂.defers = L.defers := by
  rw [h.emits.written.defers, List.append_nil]
  rfl

/-- The place behind the statement. -/
theorem resumed (hcore : c'.core = c₂.core) (hF' : c'.function = some (F.resume G)) :
    Site c' (F.resume G) (E.skip 1) { L₂ with defers := L₂.defers ++ [⟨E.next, E.names, a⟩] } := by
  have hend : G.builder.Continues [G.builder.current, F.builder.current]
      (G.builder.finishWith (.br (F.builder.nextBlock + 1))) :=
    (FunctionBuilder.Continues.refl h.emits.site.sound List.mem_cons_self).finishWith _
  have hback := hend.moveTo (Or.inl (by simp)) h.current_lt
  have hfresh := h.emits.site.tail.continues hback (by simp [h.emits.site.tail_ne, h.tail_ne])
  refine (h.emits.site.withTail hcore hF' hback hfresh h.tail_ne h.emits.site.tail_pos
    h.site.loops).addDefer ⟨_, h.slot_mem, rfl⟩ fun hmem => ?_
  obtain ⟨d, hd, hd'⟩ := List.mem_map.mp hmem
  obtain ⟨slot, hslot, hcell⟩ := h.site.flags d (h.defers_eq ▸ hd)
  have hless := h.site.next slot hslot d.number (Or.inr hcell)
  exact hless.ne hd'

/-- What runs the code behind the statement runs the code of the assignment. -/
theorem later (hlater : Later A L₁ (F.resume G).builder
      { L₂ with defers := L₂.defers ++ [⟨E.next, E.names, a⟩] }) :
    Later A L₁ (G.builder.finishWith (.br (F.builder.nextBlock + 1))) L₂ ∧ Later A L₁ G.builder L₂ := by
  have hend : G.builder.Continues [G.builder.current]
      (G.builder.finishWith (.br (F.builder.nextBlock + 1))) :=
    (FunctionBuilder.Continues.refl h.emits.site.sound (List.mem_singleton_self _)).finishWith _
  have hfinish := (Later.of_defers hlater).of_moveTo
  exact ⟨hfinish, hfinish.of_continues hend⟩

/-- The new link of the exit path. -/
theorem linked (hlater : Later A L₁ (F.resume G).builder
      { L₂ with defers := L₂.defers ++ [⟨E.next, E.names, a⟩] }) :
    Linked A L₁ F.exitTail G.exitTail [⟨E.next, E.names, a⟩] := by
  obtain ⟨hflag, -⟩ := FunctionBuilder.continues_setFlag h.site.sound h.isOpen
  obtain ⟨htail, -, hstart, -⟩ := link h.site h.isOpen
  obtain ⟨hfinish, hcode⟩ := h.later hlater
  have hlink := (hcode.of_written h.emits.written).of_moveTo
  have hslot : flagSlot E.next F.builder.nextValue ∈ L₁.slots :=
    hlink.mem (List.mem_append_right _ List.mem_cons_self)
  refine (linked_defer (F := F.deferring) (d := ⟨E.next, E.names, a⟩) hslot hflag.sound htail
    hlink.has rfl (hlink.outside (flagged h.site h.isOpen)) (mem_defers hlater) ?_).trans
    (h.emits.written.exits A L₁ hcode)
  intro fuel frame st s r hmodels
  have hrun := h.emits.runs.toward h.emits.site.sound (Nat.succ_ne_zero _) hfinish fuel frame st s r
  have hhere : F.deferring.builder.here = ⟨F.builder.nextBlock, 0⟩ := hstart.here
  rw [hhere] at hrun
  exact hrun hmodels

theorem written (hdefer : F.inDefer = false) (hcore : c'.core = c₂.core) :
    Written [F.builder.current, F.exitTail] c c' F (F.resume G) L
      { L₂ with defers := L₂.defers ++ [⟨E.next, E.names, a⟩] } [⟨E.next, E.names, a⟩] where
  core := hcore.trans (h.emits.written.core.trans h.core)
  fixed := by
    refine (congrArg (fun G : FunctionState => { G with inDefer := false, loops := F.loops })
      h.emits.written.fixed).trans ?_
    simp only [FunctionState.fixed, FunctionState.deferring, hdefer]
  continues := by
    obtain ⟨hflag, -⟩ := FunctionBuilder.continues_setFlag h.site.sound h.isOpen
    exact ((hflag.mono (by simp)).trans h.exit (by simp)).moveTo (Or.inl (by simp)) h.current_lt
  slots := by
    obtain ⟨hflag, -⟩ := FunctionBuilder.continues_setFlag h.site.sound h.isOpen
    obtain ⟨-, hlink, -, -⟩ := link h.site h.isOpen
    obtain ⟨new, hnew, hregs⟩ := h.emits.written.slots
    refine ⟨flagSlot E.next F.builder.nextValue :: new, by simp [hnew, Layout.add], ?_⟩
    intro slot hmem
    rcases List.mem_cons.mp hmem with rfl | hmem
    · exact ⟨_, rfl, le_refl _⟩
    · obtain ⟨reg, hreg, hle⟩ := hregs slot hmem
      exact ⟨reg, hreg, (hflag.value.trans hlink.value).trans hle⟩
  defers := by rw [h.defers_eq]
  tail := by
    obtain ⟨hflag, -⟩ := FunctionBuilder.continues_setFlag h.site.sound h.isOpen
    obtain ⟨-, hlink, -, -⟩ := link h.site h.isOpen
    rcases h.emits.written.tail with heq | hle
    · exact Or.inr (heq ▸ Nat.le_succ _)
    · exact Or.inr ((hflag.block.trans hlink.block).trans hle)
  exits A L₁ hlater := h.linked hlater

/-- Where the statement stands, the flag is set. -/
theorem runs : Runs F (F.resume G) E (E.skip 1)
    { L₂ with defers := L₂.defers ++ [⟨E.next, E.names, a⟩] }
    fun _ s => .done .next (s.mark E.next) := by
  intro A L₁ hlater fuel frame st s r hmodels
  obtain ⟨-, hopen, -, hhere⟩ := FunctionBuilder.continues_setFlag h.site.sound h.isOpen
  have hcode := (h.later hlater).1.of_continues h.exit
  obtain ⟨hbody, hending⟩ := h.exit.kept F.builder.current h.site.sound.current_lt
    (by simpa using h.site.tail_ne.symm)
  rw [← hhere] at hmodels ⊢
  refine (leads_storeSlot
    ((FunctionBuilder.Continues.refl h.site.sound (List.mem_singleton_self _)).addFlag).sound
    hcode.has hmodels.represents hlater.nodup (hlater.mem h.slot_mem) rfl (denotes_bool _ _ true) rfl).imp ?_
  rintro C ⟨hpoint, -, hrep⟩
  have hback : C.point = (F.resume G).builder.here := by
    rw [hpoint]
    exact congrArg (Point.mk F.builder.current) (congrArg List.length hbody.symm)
  change Represents _ _ _ _ (Function.update (s.cells r) (.flag E.next) (some (.ofBool true))) at hrep
  rw [← Store.cells_mark] at hrep
  exact ⟨hending.trans hopen, hback,
    hmodels.mark (d := ⟨E.next, E.names, a⟩) (mem_defers hlater) rfl hlater.numbers hrep⟩

end Defers

namespace CompileM

theorem stmtWorks_defer {a : Assignment} : StmtWorks (.defer a) := by
  intro id d c c' F E L hat hsite ho hdefer h
  obtain ⟨stmt, hkind, hat⟩ := hat
  obtain ⟨d, h⟩ := work_of_performWithin h
  obtain ⟨location, hpeel⟩ := locate_kindOf hkind
  change emitStmt id _ c = _ at h
  unfold emitStmt at h
  rw [hpeel] at h
  simp only [emitDefer] at h
  rw [bind_of_eq_ok (functionState_apply hsite.function)] at h
  replace h := (guard_passes h).2
  obtain ⟨⟨resume, next⟩, c₁, hbuild, h⟩ := bind_eq_ok.mp h
  have hrun := FunctionBuilder.enterDefer_run hsite.sound ho hsite.tail hsite.tail_ne
  obtain ⟨heq, rfl⟩ := eq_advance_of_build hsite.function hrun hbuild
  cases heq
  rw [bind_of_eq_ok (modifyFunction_apply (Context.function_advance hsite.function _ _) _)] at h
  obtain ⟨⟨⟩, c₂, hemit, h⟩ := bind_eq_ok.mp h
  obtain ⟨-, -, hstart, -⟩ := Defers.link hsite ho
  obtain ⟨G, L₂, hscope, hassign⟩ := emitSimple_spec (s := .assign a)
    (Defers.deferring hsite ho (by rfl) (by rfl)) hstart.isOpen (by exact hat) hemit
  rw [bind_of_eq_ok (modifyFunction_apply hassign.site.function _)] at h
  obtain ⟨-, rfl⟩ := eq_advance_of_build rfl (FunctionBuilder.jumpTo_run _ _) h
  have hdefers : Defers c _ c₂ F G E L L₂ a := ⟨hsite, ho, by rfl, hassign⟩
  exact ⟨F.resume G, _, hdefers.resumed rfl rfl, hscope,
    ⟨_, List.Sublist.refl _, hdefers.written hdefer rfl⟩, hdefers.runs⟩

end CompileM
end UnitCompiler
