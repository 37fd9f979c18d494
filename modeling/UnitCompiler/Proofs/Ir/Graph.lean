import UnitCompiler.Proofs.Ir.Building

/-!
# The control-flow graph of a finished function

The builder writes an edge of the graph at both of its ends: a block lists where it leads to, and where it
is reached from.  Blocks that were left alone are dropped in the end and dead ones are closed, so the two
lists have to agree before that and after.

Calls come in any order.  All they do to a builder is one of six steps; each step keeps the edges and adds to
the record of what was written where.
-/

namespace UnitCompiler

/-- The blocks a block leads to. -/
def Block.targets (block : Block) : List Nat := (block.terminator.map (·.successors)).getD []

theorem Block.targets_of_open {block : Block} (h : block.terminator = none) : block.targets = [] := by
  simp [targets, h]

/-- Blocks that have each edge between them at both ends. -/
structure WellLinked (blocks : List Block) : Prop where
  successors : ∀ block ∈ blocks, block.successors = block.targets
  nodup : ∀ block ∈ blocks, block.predecessors.Nodup
  predecessors : ∀ block ∈ blocks, ∀ id,
    id ∈ block.predecessors ↔ ∃ source ∈ blocks, source.id = id ∧ block.id ∈ source.targets
  targets : ∀ block ∈ blocks, ∀ id ∈ block.targets, ∃ target ∈ blocks, target.id = id

/-- What a finished function is: a control-flow graph whose blocks and registers have numbers of their
own. -/
structure IrFunction.IsGraph (f : IrFunction) : Prop where
  blockIds : (f.blocks.map (·.id)).Pairwise (· < ·)
  instructionIds : (f.instructions.map (·.id)).Nodup
  linked : WellLinked f.blocks
  reached : ∀ block ∈ f.blocks, block.id ≠ 0 → block.terminator = none → block.predecessors ≠ []

namespace WellLinked

variable {blocks : List Block}

/-- Instructions are not part of the graph. -/
theorem map (h : WellLinked blocks) {g : Block → Block} (hid : ∀ block, (g block).id = block.id)
    (htargets : ∀ block, (g block).targets = block.targets)
    (hsuccessors : ∀ block, (g block).successors = block.successors)
    (hpredecessors : ∀ block, (g block).predecessors = block.predecessors) : WellLinked (blocks.map g) := by
  have hexists (p : Block → Prop) : (∃ block ∈ blocks.map g, p block) ↔ ∃ block ∈ blocks, p (g block) := by
    simp
  constructor <;>
    simp only [List.forall_mem_map, hexists, hid, htargets, hsuccessors, hpredecessors]
  · exact h.successors
  · exact h.nodup
  · exact h.predecessors
  · exact h.targets

/-- A new block leads nowhere and nothing leads to it. -/
theorem concat (h : WellLinked blocks) {new : Block} (hnew : ∀ block ∈ blocks, block.id ≠ new.id)
    (htargets : new.targets = []) (hsuccessors : new.successors = [])
    (hpredecessors : new.predecessors = []) : WellLinked (blocks ++ [new]) := by
  have hold : ∀ block ∈ blocks, new.id ∉ block.targets := fun block hblock hmem => by
    obtain ⟨target, htarget, heq⟩ := h.targets block hblock new.id hmem
    exact hnew target htarget heq
  have hexists (p : Block → Prop) :
      (∃ block ∈ blocks ++ [new], p block) ↔ (∃ block ∈ blocks, p block) ∨ p new := by
    simp [or_and_right, exists_or]
  constructor <;> simp only [List.forall_mem_append, List.forall_mem_singleton, hexists, htargets,
    hsuccessors, hpredecessors, List.not_mem_nil, and_false, or_false, false_imp_iff, implies_true,
    List.nodup_nil, and_true]
  · exact h.successors
  · exact h.nodup
  · refine ⟨h.predecessors, fun p => ?_⟩
    rw [false_iff]
    rintro ⟨source, hsource, -, hmem⟩
    exact hold source hsource hmem
  · exact fun block hblock id hmem => Or.inl (h.targets block hblock id hmem)

/-- What is dropped has no edges. -/
theorem filter_isKept (h : WellLinked blocks) : WellLinked (blocks.filter FunctionBuilder.isKept) := by
  have hdropped (block : Block) (hkept : ¬ FunctionBuilder.isKept block = true) :
      block.targets = [] ∧ block.predecessors = [] := by
    simp only [FunctionBuilder.isKept, Bool.or_eq_true, not_or, Bool.not_eq_true, Option.isSome_eq_false_iff,
      Option.isNone_iff_eq_none] at hkept
    exact ⟨Block.targets_of_open hkept.1.1.2, by simpa using hkept.2⟩
  have hmem {block : Block} : block ∈ blocks.filter FunctionBuilder.isKept → block ∈ blocks :=
    fun hblock => (List.mem_filter.mp hblock).1
  refine ⟨fun block hblock => h.successors block (hmem hblock),
    fun block hblock => h.nodup block (hmem hblock),
    fun block hblock p => (h.predecessors block (hmem hblock) p).trans ?_, fun block hblock id hid => ?_⟩
  · constructor
    · rintro ⟨source, hsource, heq, hedge⟩
      refine ⟨source, List.mem_filter.mpr ⟨hsource, ?_⟩, heq, hedge⟩
      by_contra hkept
      rw [(hdropped source hkept).1] at hedge
      exact List.not_mem_nil hedge
    · rintro ⟨source, hsource, hedge⟩
      exact ⟨source, hmem hsource, hedge⟩
  · obtain ⟨target, htarget, rfl⟩ := h.targets block (hmem hblock) id hid
    refine ⟨target, List.mem_filter.mpr ⟨htarget, ?_⟩, rfl⟩
    by_contra hkept
    have hreached : block.id ∈ target.predecessors :=
      (h.predecessors target htarget block.id).mpr ⟨block, hmem hblock, rfl, hid⟩
    rw [(hdropped target hkept).2] at hreached
    exact List.not_mem_nil hreached

end WellLinked

namespace FunctionBuilder

/-- A block after the block `current` ended with `t`. -/
def linkTo (current : Nat) (t : Terminator) (block : Block) : Block :=
  let ended :=
    if block.id = current then { block with successors := t.successors, terminator := some t } else block
  if block.id ∈ t.successors then addPredecessor current ended else ended

section LinkTo

variable (current : Nat) (t : Terminator) (block : Block)

theorem mem_addPredecessor (id : Nat) :
    id ∈ (addPredecessor current block).predecessors ↔ id ∈ block.predecessors ∨ id = current := by
  unfold addPredecessor
  split
  · rename_i hmem
    rw [List.contains_iff_mem] at hmem
    exact ⟨Or.inl, fun hid => hid.elim (·) fun heq => heq ▸ hmem⟩
  · simp

theorem nodup_addPredecessor (h : block.predecessors.Nodup) :
    (addPredecessor current block).predecessors.Nodup := by
  unfold addPredecessor
  split
  · exact h
  · rename_i hmem
    rw [List.contains_iff_mem] at hmem
    exact List.nodup_append.mpr ⟨h, List.nodup_singleton _, fun p hp q hq heq =>
      hmem (by rw [← List.mem_singleton.mp hq, ← heq]; exact hp)⟩

theorem addPredecessor_addPredecessor :
    addPredecessor current (addPredecessor current block) = addPredecessor current block := by
  have hmem : current ∈ (addPredecessor current block).predecessors :=
    (mem_addPredecessor current block current).mpr (Or.inr rfl)
  rw [addPredecessor, if_pos (List.contains_iff_mem.mpr hmem)]

@[simp] theorem id_addPredecessor : (addPredecessor current block).id = block.id := by
  unfold addPredecessor
  split <;> rfl

@[simp] theorem targets_addPredecessor : (addPredecessor current block).targets = block.targets := by
  unfold addPredecessor
  split <;> rfl

@[simp] theorem successors_addPredecessor :
    (addPredecessor current block).successors = block.successors := by
  unfold addPredecessor
  split <;> rfl

theorem id_linkTo : (linkTo current t block).id = block.id := by
  simp only [linkTo]
  split_ifs <;> simp

theorem targets_linkTo : (linkTo current t block).targets =
    if block.id = current then t.successors else block.targets := by
  simp only [linkTo]
  split_ifs <;> first | rfl | exact targets_addPredecessor _ _

theorem successors_linkTo : (linkTo current t block).successors =
    if block.id = current then t.successors else block.successors := by
  simp only [linkTo]
  split_ifs <;> simp

theorem mem_predecessors_linkTo (id : Nat) : id ∈ (linkTo current t block).predecessors ↔
    id ∈ block.predecessors ∨ id = current ∧ block.id ∈ t.successors := by
  simp only [linkTo]
  split_ifs with h h' <;> simp [mem_addPredecessor, h]

theorem nodup_linkTo (h : block.predecessors.Nodup) : (linkTo current t block).predecessors.Nodup := by
  simp only [linkTo]
  split_ifs <;> first | exact nodup_addPredecessor _ _ h | exact h

/-- The predecessors are put in one target after the other, which is the same as all at once. -/
theorem blocks_addPredecessors (targets : List Nat) (f : IrFunction) :
    (targets.foldl (fun f target => f.modifyBlock target (addPredecessor current)) f).blocks =
      f.blocks.map fun block => if block.id ∈ targets then addPredecessor current block else block := by
  induction targets generalizing f with
  | nil => simp
  | cons target rest ih =>
    rw [List.foldl_cons, ih, IrFunction.modifyBlock, List.map_map]
    refine List.map_congr_left fun block _ => ?_
    by_cases h : block.id = target <;> by_cases h' : block.id ∈ rest <;>
      simp [h, h', addPredecessor_addPredecessor]

theorem blocks_endWith (b : FunctionBuilder) :
    (b.endWith t).function.blocks = b.function.blocks.map (linkTo b.current t) := by
  rw [endWith, blocks_addPredecessors, IrFunction.modifyBlock, List.map_map]
  refine List.map_congr_left fun block _ => ?_
  by_cases h : block.id = b.current <;> simp [h, linkTo]

end LinkTo

/-- What stands in the list of blocks is what its number gives. -/
theorem block?_of_mem {f : IrFunction} (hids : (f.blocks.map (·.id)).Nodup) {block : Block}
    (h : block ∈ f.blocks) : f.block? block.id = some block := by
  obtain ⟨found, hfound⟩ : ∃ found, f.block? block.id = some found := by
    rw [← Option.isSome_iff_exists, IrFunction.block?, List.find?_isSome]
    exact ⟨block, h, by simp⟩
  have heq := List.inj_on_of_nodup_map hids (List.mem_of_find?_eq_some hfound) h
    (IrFunction.id_of_block? hfound)
  rw [hfound, heq]

section Edges

variable {b : FunctionBuilder}

theorem linked_addBlock (hb : b.Numbered) (h : WellLinked b.function.blocks) (label : String) :
    WellLinked (b.addBlock label).function.blocks :=
  h.concat (fun block hblock => (hb.id_lt block hblock).ne) rfl rfl rfl

theorem linked_modifyBlock (h : WellLinked b.function.blocks) (id : Nat)
    (change : List Instruction → List Instruction) :
    WellLinked (b.function.modifyBlock id fun block =>
      { block with instructions := change block.instructions }).blocks := by
  refine h.map ?_ ?_ ?_ ?_ <;>
    · intro block
      split <;> rfl

/-- Ending an open block adds its edges at both ends. -/
theorem linked_endWith (hb : b.Numbered) (h : WellLinked b.function.blocks) (hopen : b.Open) {t : Terminator}
    (ht : ∀ id ∈ t.successors, id < b.nextBlock) : WellLinked (b.endWith t).function.blocks := by
  rw [blocks_endWith]
  have hcurrent : ∀ block ∈ b.function.blocks, block.id = b.current → block.targets = [] :=
    fun block hblock heq => by
      have hfound := block?_of_mem hb.nodup hblock
      have hnone : (b.function.block? b.current).bind (·.terminator) = none := hopen
      rw [← heq, hfound] at hnone
      exact Block.targets_of_open hnone
  have hexists (p : Block → Prop) : (∃ block ∈ b.function.blocks.map (linkTo b.current t), p block) ↔
      ∃ block ∈ b.function.blocks, p (linkTo b.current t block) := by
    simp
  constructor <;> simp only [List.forall_mem_map, hexists, id_linkTo]
  · intro block hblock
    rw [successors_linkTo, targets_linkTo, h.successors block hblock]
  · exact fun block hblock => nodup_linkTo _ _ _ (h.nodup block hblock)
  · intro block hblock p
    rw [mem_predecessors_linkTo, h.predecessors block hblock]
    constructor
    · rintro (⟨source, hsource, rfl, hedge⟩ | ⟨rfl, hedge⟩)
      · refine ⟨source, hsource, rfl, ?_⟩
        have hne : source.id ≠ b.current := fun heq => by
          rw [hcurrent source hsource heq] at hedge
          exact List.not_mem_nil hedge
        rwa [targets_linkTo, if_neg hne]
      · obtain ⟨source, hsource, heq⟩ := hb.exists_mem hb.current_lt
        exact ⟨source, hsource, heq, by rwa [targets_linkTo, if_pos heq]⟩
    · rintro ⟨source, hsource, rfl, hedge⟩
      rw [targets_linkTo] at hedge
      split_ifs at hedge with heq
      · exact Or.inr ⟨heq, hedge⟩
      · exact Or.inl ⟨source, hsource, rfl, hedge⟩
  · intro block hblock id hid
    rw [targets_linkTo] at hid
    split_ifs at hid
    · exact hb.exists_mem (ht id hid)
    · exact h.targets block hblock id hid

end Edges

/-- What a builder has written: the slots at the head of its entry block, and what was pushed to which
block. -/
structure Record where
  slots : List Instruction := []
  pushed : List (Nat × Instruction) := []

namespace Record

/-- The instructions of the record, each with its block. -/
def written (r : Record) : List (Nat × Instruction) := r.slots.map (Prod.mk 0) ++ r.pushed

/-- The instructions of a block in the order in which they stand. -/
def instructionsOf (r : Record) (id : Nat) : List Instruction :=
  (if id = 0 then r.slots else []) ++ (r.pushed.filter (·.1 = id)).map (·.2)

theorem instructionsOf_eq (r : Record) (id : Nat) :
    r.instructionsOf id = (r.written.filter (·.1 = id)).map (·.2) := by
  have hslots : ((r.slots.map (Prod.mk 0)).filter (·.1 = id)).map (·.2) =
      if id = 0 then r.slots else [] := by
    by_cases h : id = 0
    · simp [h, List.filter_map, Function.comp_def]
    · have hne : ¬ 0 = id := fun heq => h heq.symm
      simp [h, hne, List.filter_map, Function.comp_def]
  rw [written, List.filter_append, List.map_append, hslots, instructionsOf]

/-- The record with more instructions. -/
def add (r more : Record) : Record := ⟨r.slots ++ more.slots, r.pushed ++ more.pushed⟩

end Record

/-- A record of all instructions of a builder. -/
structure Tracks (b : FunctionBuilder) (r : Record) : Prop where
  count : b.entryCount = r.slots.length
  instructions : ∀ id, b.function.instructionsOf id = r.instructionsOf id
  lt : ∀ p ∈ r.written, p.2.id < b.nextValue
  nodup : (r.written.map (·.2.id)).Nodup

/-- Instructions with numbers of their own, each in its block, have numbers of their own in the function. -/
theorem nodup_instructions {f : IrFunction} (hids : (f.blocks.map (·.id)).Nodup) {r : Record}
    (hr : (r.written.map (·.2.id)).Nodup) (hinstr : ∀ id, f.instructionsOf id = r.instructionsOf id) :
    (f.instructions.map (·.id)).Nodup := by
  have hblock : ∀ block ∈ f.blocks,
      block.instructions = (r.written.filter (·.1 = block.id)).map (·.2) := fun block hmem => by
    rw [← r.instructionsOf_eq, ← hinstr, IrFunction.instructionsOf, block?_of_mem hids hmem]
    rfl
  have hwritten : ∀ block ∈ f.blocks, ∀ i ∈ block.instructions, (block.id, i) ∈ r.written :=
    fun block hmem i hi => by
      rw [hblock block hmem] at hi
      obtain ⟨p, hp, rfl⟩ := List.mem_map.mp hi
      obtain ⟨hp, hid⟩ := List.mem_filter.mp hp
      rw [← of_decide_eq_true hid]
      exact hp
  rw [IrFunction.instructions, List.map_flatMap, List.nodup_flatMap]
  constructor
  · intro block hmem
    rw [hblock block hmem, List.map_map]
    exact hr.sublist (List.filter_sublist.map _)
  · refine (List.pairwise_map.mp hids).imp_of_mem fun {block block'} hmem hmem' hne => ?_
    refine List.disjoint_left.mpr fun n hn hn' => ?_
    obtain ⟨i, hi, rfl⟩ := List.mem_map.mp hn
    obtain ⟨j, hj, heq⟩ := List.mem_map.mp hn'
    have hsame := List.inj_on_of_nodup_map hr (hwritten block' hmem' j hj) (hwritten block hmem i hi) heq
    exact hne (congrArg Prod.fst hsame).symm

namespace Tracks

variable {b : FunctionBuilder} {r : Record}

theorem of_same {b' : FunctionBuilder} (h : b.Tracks r) (hcount : b'.entryCount = b.entryCount)
    (hvalue : b'.nextValue = b.nextValue)
    (hinstr : b'.function.instructionsOf = b.function.instructionsOf) : b'.Tracks r where
  count := hcount.trans h.count
  instructions := by
    rw [hinstr]
    exact h.instructions
  lt := by
    rw [hvalue]
    exact h.lt
  nodup := h.nodup

/-- New numbers keep the numbers of a record apart. -/
theorem nodup_append (h : b.Tracks r) {more : List (Nat × Instruction)}
    (hmore : (more.map (·.2.id)).Nodup) (hnew : ∀ p ∈ more, b.nextValue ≤ p.2.id) :
    ((r.written ++ more).map (·.2.id)).Nodup := by
  rw [List.map_append, List.nodup_append]
  refine ⟨h.nodup, hmore, fun n hn m hm heq => ?_⟩
  obtain ⟨p, hp, rfl⟩ := List.mem_map.mp hn
  obtain ⟨q, hq, rfl⟩ := List.mem_map.mp hm
  have hlt := h.lt p hp
  have hle := hnew q hq
  omega

theorem place (hb : b.Numbered) (h : b.Tracks r) (operation : Operation) (type : Option IrType) :
    (b.place operation type).Tracks
      (r.add ⟨[], [(b.current, ⟨b.nextValue, operation, type⟩)]⟩) := by
  let i : Instruction := ⟨b.nextValue, operation, type⟩
  have hwritten : (r.add ⟨[], [(b.current, i)]⟩).written = r.written ++ [(b.current, i)] := by
    simp [Record.written, Record.add]
  refine ⟨h.count.trans (by simp [Record.add]), fun id => ?_, fun p hp => ?_, ?_⟩
  · rw [instructionsOf_place hb]
    by_cases hid : id = b.current
    · subst hid
      rw [Function.update_self, h.instructions]
      simp [Record.instructionsOf, Record.add]
    · have hne : ¬ b.current = id := fun heq => hid heq.symm
      rw [Function.update_of_ne hid, h.instructions]
      simp [Record.instructionsOf, Record.add, hne]
  · change p.2.id < b.nextValue + 1
    rw [hwritten, List.mem_append, List.mem_singleton] at hp
    rcases hp with hp | rfl
    · exact Nat.lt_succ_of_lt (h.lt p hp)
    · exact Nat.lt_succ_self _
  · rw [hwritten]
    exact h.nodup_append (List.nodup_singleton _) (by simp [i])

theorem addSlot (hb : b.Numbered) (h : b.Tracks r) (type : IrType) (init : Operand) :
    (b.addSlot type init).Tracks
      (r.add ⟨slotCode b.nextValue type (b.layout.alignOf type) init, []⟩) := by
  let slot := slotCode b.nextValue type (b.layout.alignOf type) init
  have hslot : ∀ p ∈ slot.map (Prod.mk 0), b.nextValue ≤ p.2.id ∧ p.2.id < b.nextValue + 2 := by
    simp [slot, slotCode]
  -- the new slot stands behind the others and before all that was pushed
  have hwritten : ((r.add ⟨slot, []⟩).written).Perm (r.written ++ slot.map (Prod.mk 0)) := by
    simp only [Record.written, Record.add, List.map_append, List.append_nil, List.append_assoc]
    exact List.perm_append_comm.append_left _
  refine ⟨?_, fun id => ?_, fun p hp => ?_, ?_⟩
  · change b.entryCount + 2 = _
    rw [h.count, Record.add, List.length_append]
    rfl
  · rw [instructionsOf_addSlot hb, h.count]
    by_cases hid : id = 0
    · subst hid
      rw [Function.update_self, h.instructions]
      simp [Record.instructionsOf, Record.add]
    · rw [Function.update_of_ne hid, h.instructions]
      simp [Record.instructionsOf, Record.add, hid]
  · change p.2.id < b.nextValue + 2
    rcases List.mem_append.mp (hwritten.mem_iff.mp hp) with hp | hp
    · exact Nat.lt_add_right 2 (h.lt p hp)
    · exact (hslot p hp).2
  · rw [(hwritten.map _).nodup_iff]
    refine h.nodup_append ?_ fun p hp => (hslot p hp).1
    simp [slot, slotCode]

end Tracks

/-- A builder with a record of its instructions and a graph of its blocks. -/
structure Consistent (b : FunctionBuilder) (r : Record) : Prop where
  numbered : b.Numbered
  linked : WellLinked b.function.blocks
  tracks : b.Tracks r

namespace Consistent

variable {b : FunctionBuilder} {r : Record}

theorem addBlock (h : b.Consistent r) (label : String) : (b.addBlock label).Consistent r where
  numbered := h.numbered.addBlock label
  linked := linked_addBlock h.numbered h.linked label
  tracks := h.tracks.of_same rfl rfl (instructionsOf_addBlock h.numbered label)

theorem moveTo (h : b.Consistent r) {id : Nat} (hid : id < b.nextBlock) : (b.moveTo id).Consistent r where
  numbered := h.numbered.moveTo hid
  linked := h.linked
  tracks := h.tracks.of_same rfl rfl rfl

theorem place (h : b.Consistent r) (operation : Operation) (type : Option IrType) :
    (b.place operation type).Consistent
      (r.add ⟨[], [(b.current, ⟨b.nextValue, operation, type⟩)]⟩) where
  numbered := h.numbered.place operation type
  linked := linked_modifyBlock h.linked _ (· ++ [_])
  tracks := h.tracks.place h.numbered operation type

theorem addSlot (h : b.Consistent r) (type : IrType) (init : Operand) :
    (b.addSlot type init).Consistent
      (r.add ⟨slotCode b.nextValue type (b.layout.alignOf type) init, []⟩) where
  numbered := h.numbered.addSlot type init
  linked := linked_modifyBlock h.linked _ fun instructions =>
    instructions.take b.entryCount ++
      (slotCode b.nextValue type (b.layout.alignOf type) init ++ instructions.drop b.entryCount)
  tracks := h.tracks.addSlot h.numbered type init

theorem finishWith (h : b.Consistent r) {t : Terminator} (ht : ∀ id ∈ t.successors, id < b.nextBlock) :
    (b.finishWith t).Consistent r := by
  by_cases hopen : b.Open
  · rw [finishWith_of_open hopen]
    exact ⟨h.numbered.endWith t, linked_endWith h.numbered h.linked hopen ht,
      h.tracks.of_same rfl rfl (instructionsOf_endWith b t)⟩
  · rw [finishWith_of_not_open hopen]
    exact h

/-- A function without blocks is at the start of its entry block. -/
theorem new {f : IrFunction} (hf : f.blocks = []) (layout : DataLayout) :
    (FunctionBuilder.new f layout).Consistent {} := by
  let entry : Block := { id := 0, label := some "entry" }
  have hblocks : (FunctionBuilder.new f layout).function.blocks = [entry] := by
    change f.blocks ++ [entry] = [entry]
    rw [hf]
    rfl
  have hids : (FunctionBuilder.new f layout).function.blocks.map (·.id) =
      List.range (FunctionBuilder.new f layout).nextBlock := by
    rw [hblocks]
    rfl
  have hinstr (id : Nat) : (FunctionBuilder.new f layout).function.instructionsOf id = [] := by
    rw [IrFunction.instructionsOf, IrFunction.block?, hblocks]
    by_cases h : 0 = id <;> simp [entry, h]
  refine ⟨⟨hids, Nat.one_pos⟩, ?_, rfl, fun id => (hinstr id).trans (by simp [Record.instructionsOf]),
    by simp [Record.written], by simp [Record.written]⟩
  have hempty : WellLinked [] := ⟨by simp, by simp, by simp, by simp⟩
  rw [hblocks]
  exact hempty.concat (by simp) rfl rfl rfl

end Consistent

/-- Where a push puts its instruction. -/
def pushBlock (b : FunctionBuilder) : Nat := if b.isTerminated then b.nextBlock else b.current

/-- The builder in an open block: what stands behind the end of a block is dead. -/
def ready (b : FunctionBuilder) : FunctionBuilder :=
  if b.isTerminated then (b.addBlock "dead").moveTo b.nextBlock else b

theorem current_ready (b : FunctionBuilder) : b.ready.current = b.pushBlock := by
  unfold ready pushBlock
  split <;> rfl

theorem nextValue_ready (b : FunctionBuilder) : b.ready.nextValue = b.nextValue := by
  unfold ready
  split <;> rfl

theorem push_run_eq (b : FunctionBuilder) (operation : Operation) (type : Option IrType) :
    ((push operation type).run b).2 = b.ready.place operation type := by
  unfold push ready
  simp only [StateT.run_bind, StateT.run_get, pure_bind]
  cases b.isTerminated <;> rfl

theorem Consistent.ready {b : FunctionBuilder} {r : Record} (h : b.Consistent r) :
    b.ready.Consistent r := by
  unfold FunctionBuilder.ready
  split
  · exact (h.addBlock "dead").moveTo (Nat.lt_succ_self _)
  · exact h

/-- What a call can do to a builder. -/
inductive Step where
  | addLocal (name : LocalName)
  | addBlock (label : String)
  | moveTo (id : Nat)
  | put (operation : Operation) (type : Option IrType)
  | finish (t : Terminator)
  | addSlot (type : IrType) (init : Operand)

namespace Step

def apply (b : FunctionBuilder) : Step → FunctionBuilder
  | addLocal name => { b with function := { b.function with locals := b.function.locals ++ [name] } }
  | addBlock label => b.addBlock label
  | moveTo id => b.moveTo id
  | put operation type => b.ready.place operation type
  | finish t => b.finishWith t
  | addSlot type init => b.addSlot type init

/-- The blocks a step speaks of. -/
def blocks : Step → List Nat
  | moveTo id => [id]
  | finish t => t.successors
  | addLocal _ | addBlock _ | put .. | addSlot .. => []

/-- What a step writes. -/
def record (b : FunctionBuilder) : Step → Record
  | put operation type => ⟨[], [(b.pushBlock, ⟨b.nextValue, operation, type⟩)]⟩
  | addSlot type init => ⟨slotCode b.nextValue type (b.layout.alignOf type) init, []⟩
  | addLocal _ | addBlock _ | moveTo _ | finish _ => {}

end Step

@[simp] theorem Record.add_empty (r : Record) : r.add {} = r := by simp [Record.add]

theorem Record.add_assoc (r r' r'' : Record) : (r.add r').add r'' = r.add (r'.add r'') := by
  simp [Record.add]

variable {b : FunctionBuilder} {r : Record}

theorem Consistent.step (h : b.Consistent r) (step : Step) (hids : ∀ id ∈ step.blocks, id < b.nextBlock) :
    (step.apply b).Consistent (r.add (step.record b)) := by
  cases step with
  | addLocal name =>
    rw [Step.record, Record.add_empty]
    exact ⟨⟨h.numbered.ids, h.numbered.current_lt⟩, h.linked, h.tracks.of_same rfl rfl rfl⟩
  | addBlock label =>
    rw [Step.record, Record.add_empty]
    exact h.addBlock label
  | moveTo id =>
    rw [Step.record, Record.add_empty]
    exact h.moveTo (hids id (List.mem_singleton_self id))
  | put operation type =>
    rw [Step.record, ← current_ready, ← nextValue_ready]
    exact h.ready.place operation type
  | finish t =>
    rw [Step.record, Record.add_empty]
    exact h.finishWith hids
  | addSlot type init => exact h.addSlot type init

/-- An end is for good. -/
theorem Step.endingOf_apply (hb : b.Numbered) (step : Step) {id : Nat} {t : Terminator}
    (h : b.function.endingOf id = some t) : (step.apply b).function.endingOf id = some t := by
  cases step with
  | addLocal name => exact h
  | addBlock label =>
    rw [Step.apply, endingOf_addBlock hb]
    exact h
  | moveTo id => exact h
  | put operation type =>
    rw [Step.apply, endingOf_place, ready]
    split
    · exact (congrFun (endingOf_addBlock hb "dead") id).trans h
    · exact h
  | finish t' =>
    rw [Step.apply]
    by_cases hopen : b.Open
    · have hne : id ≠ b.current := by
        rintro rfl
        rw [show b.function.endingOf b.current = none from hopen] at h
        cases h
      rw [finishWith_of_open hopen, endingOf_endWith hb, Function.update_of_ne hne]
      exact h
    · rw [finishWith_of_not_open hopen]
      exact h
  | addSlot type init =>
    rw [Step.apply, endingOf_addSlot]
    exact h

/-- A call of one of the operations of a builder. -/
inductive Call where
  | addLocal (name : LocalName)
  | createBlock (label : String)
  | switchTo (id : Nat)
  | push (operation : Operation) (type : Option IrType)
  | terminate (t : Terminator)
  | br (target : Nat)
  | condBr (condition : Operand) (ifTrue ifFalse : Nat)
  | ret (value : Option Operand)
  | alloca (type : IrType)
  | entrySlot (type : IrType) (init : Operand)
  | load (address : Operand) (type : IrType)
  | store (value address : Operand)
  | elementPtr (base : Operand) (indices : List Operand) (element : IrType)
  | fieldPtr (base : Operand) (index : Nat) (field : IrType)
  | convert (op : ConvertOp) (value : Operand) (type : IrType)
  | bitcast (value : Operand) (type : IrType)
  | call (callee : Operand) (args : List Operand) (convention : CallingConvention) (type : IrType)

namespace Call

def action : Call → BuildM Unit
  | addLocal name => FunctionBuilder.addLocal name
  | createBlock label => discard (FunctionBuilder.createBlock label)
  | switchTo id => FunctionBuilder.switchTo id
  | push operation type => discard (FunctionBuilder.push operation type)
  | terminate t => FunctionBuilder.terminate t
  | br target => FunctionBuilder.br target
  | condBr condition ifTrue ifFalse => FunctionBuilder.condBr condition ifTrue ifFalse
  | ret value => FunctionBuilder.ret value
  | alloca type => discard (FunctionBuilder.alloca type)
  | entrySlot type init => discard (FunctionBuilder.entrySlot type init)
  | load address type => discard (FunctionBuilder.load address type)
  | store value address => FunctionBuilder.store value address
  | elementPtr base indices element => discard (FunctionBuilder.elementPtr base indices element)
  | fieldPtr base index field => discard (FunctionBuilder.fieldPtr base index field)
  | convert op value type => discard (FunctionBuilder.convert op value type)
  | bitcast value type => discard (FunctionBuilder.bitcast value type)
  | call callee args convention type => discard (FunctionBuilder.call callee args convention type)

/-- The builder after a call. -/
def run (b : FunctionBuilder) (c : Call) : FunctionBuilder := (c.action.run b).2

/-- The step that a call is. -/
def step (layout : DataLayout) : Call → Step
  | addLocal name => .addLocal name
  | createBlock label => .addBlock label
  | switchTo id => .moveTo id
  | push operation type => .put operation type
  | terminate t => .finish t
  | br target => .finish (.br target)
  | condBr condition ifTrue ifFalse => .finish (.condBr condition ifTrue ifFalse)
  | ret value => .finish (.ret value)
  | alloca type => .put (.alloca type (layout.alignOf type)) (some (.ptr type))
  | entrySlot type init => .addSlot type init
  | load address type => .put (.load address none false) (some type)
  | store value address => .put (.store value address none false) none
  | elementPtr base indices element => .put (.elementPtr base indices true) (some (.ptr element))
  | fieldPtr base index field =>
    .put (.elementPtr base [constI32 0, constI32 index] true) (some (.ptr field))
  | convert op value type => .put (.convert op value type) (some type)
  | bitcast value type => .put (.convert .bitcast value type) (some type)
  | call callee args convention type => .put (.call callee args convention false) (some type)

/-- The numbers of blocks a call is given. -/
def blocks : Call → List Nat
  | switchTo id | br id => [id]
  | condBr _ ifTrue ifFalse => [ifTrue, ifFalse]
  | terminate t => t.successors
  | _ => []

/-- The numbers of blocks a call gives back. -/
def made (b : FunctionBuilder) : Call → List Nat
  | createBlock label => [((FunctionBuilder.createBlock label).run b).1]
  | _ => []

theorem run_eq (b : FunctionBuilder) (c : Call) : c.run b = (c.step b.layout).apply b := by
  cases c with
  | addLocal | createBlock | switchTo | entrySlot => rfl
  | terminate t => exact congrArg Prod.snd (terminate_run_eq b t)
  | br target => exact congrArg Prod.snd (terminate_run_eq b (.br target))
  | condBr condition ifTrue ifFalse =>
    exact congrArg Prod.snd (terminate_run_eq b (.condBr condition ifTrue ifFalse))
  | ret value => exact congrArg Prod.snd (terminate_run_eq b (.ret value))
  | push | alloca | load | store | elementPtr | fieldPtr | convert | bitcast | call =>
    exact push_run_eq b _ _

theorem blocks_step (c : Call) (layout : DataLayout) : (c.step layout).blocks = c.blocks := by
  cases c <;> rfl

end Call

/-- The builder after some calls. -/
def after (b : FunctionBuilder) (calls : List Call) : FunctionBuilder := calls.foldl Call.run b

/-- What calls write, in the order of the calls. -/
def record (b : FunctionBuilder) : List Call → Record
  | [] => {}
  | c :: rest => ((c.step b.layout).record b).add ((c.run b).record rest)

/-- Every block that a call is given has been made before; `made` holds those made so far. -/
def NamesMade (made : List Nat) (b : FunctionBuilder) : List Call → Prop
  | [] => True
  | c :: rest => (∀ id ∈ c.blocks, id ∈ made) ∧ NamesMade (made ++ c.made b) (c.run b) rest

instance NamesMade.decidable (made : List Nat) (b : FunctionBuilder) :
    (calls : List Call) → Decidable (NamesMade made b calls)
  | [] => inferInstanceAs (Decidable True)
  | c :: rest =>
    have := NamesMade.decidable (made ++ c.made b) (c.run b) rest
    inferInstanceAs (Decidable ((∀ id ∈ c.blocks, id ∈ made) ∧ _))

theorem Step.nextBlock_apply (step : Step) (b : FunctionBuilder) :
    b.nextBlock ≤ (step.apply b).nextBlock := by
  cases step with
  | addLocal | moveTo | addSlot => exact le_refl _
  | addBlock => exact Nat.le_succ _
  | put operation type =>
    change b.nextBlock ≤ b.ready.nextBlock
    unfold ready
    split
    · exact Nat.le_succ _
    · exact le_refl _
  | finish t =>
    rw [Step.apply, finishWith]
    split <;> exact le_refl _

/-- What has been made stays known. -/
theorem Call.lt_nextBlock_run {made : List Nat} (hmade : ∀ id ∈ made, id < b.nextBlock) (c : Call) :
    ∀ id ∈ made ++ c.made b, id < (c.run b).nextBlock := by
  intro id hid
  rcases List.mem_append.mp hid with hid | hid
  · rw [c.run_eq]
    exact (hmade id hid).trans_le (Step.nextBlock_apply _ b)
  · cases c with
    | createBlock label =>
      rw [List.mem_singleton.mp hid]
      exact Nat.lt_succ_self _
    | _ => exact absurd hid List.not_mem_nil

theorem Consistent.run (h : b.Consistent r) (c : Call) (hids : ∀ id ∈ c.blocks, id < b.nextBlock) :
    (c.run b).Consistent (r.add ((c.step b.layout).record b)) := by
  rw [c.run_eq]
  rw [← c.blocks_step b.layout] at hids
  exact h.step _ hids

theorem Consistent.after (h : b.Consistent r) {made : List Nat} (hmade : ∀ id ∈ made, id < b.nextBlock)
    {calls : List Call} (hcalls : NamesMade made b calls) :
    (b.after calls).Consistent (r.add (b.record calls)) := by
  induction calls generalizing b r made with
  | nil =>
    rw [record, Record.add_empty]
    exact h
  | cons c rest ih =>
    rw [record, ← Record.add_assoc]
    exact ih (h.run c fun id hid => hmade id (hcalls.1 id hid)) (c.lt_nextBlock_run hmade) hcalls.2

/-- However early a block ends, it keeps its end. -/
theorem Consistent.endingOf_after (h : b.Consistent r) {made : List Nat}
    (hmade : ∀ id ∈ made, id < b.nextBlock) {calls : List Call} (hcalls : NamesMade made b calls) {n id : Nat}
    {t : Terminator} (hend : (b.after (calls.take n)).function.endingOf id = some t) :
    (b.after calls).function.endingOf id = some t := by
  induction calls generalizing b r made n with
  | nil => simpa using hend
  | cons c rest ih =>
    have hrun := h.run c fun id hid => hmade id (hcalls.1 id hid)
    cases n with
    | zero =>
      have hstep : (c.run b).function.endingOf id = some t := by
        rw [c.run_eq]
        exact Step.endingOf_apply h.numbered _ hend
      exact ih hrun (c.lt_nextBlock_run hmade) hcalls.2 (n := 0) hstep
    | succ n => exact ih hrun (c.lt_nextBlock_run hmade) hcalls.2 hend

theorem close_same (block : Block) : (close block).id = block.id ∧ (close block).targets = block.targets ∧
    (close block).successors = block.successors ∧ (close block).predecessors = block.predecessors := by
  unfold close
  split
  · rename_i hopen
    simp only [Bool.and_eq_true, Option.isNone_iff_eq_none] at hopen
    exact ⟨rfl, (Block.targets_of_open hopen.1.2).symm, rfl, rfl⟩
  · exact ⟨rfl, rfl, rfl, rfl⟩

/-- An open block that is left in the end is reached from somewhere. -/
theorem predecessors_close_ne_nil {block : Block} (hid : (close block).id ≠ 0)
    (hopen : (close block).terminator = none) : (close block).predecessors ≠ [] := by
  unfold close at *
  split at hopen
  · cases hopen
  · rename_i hkept
    rw [if_neg hkept] at hid ⊢
    simpa [hid, hopen] using hkept

theorem Consistent.isGraph_finish (h : b.Consistent r) : b.finish.IsGraph := by
  have hid : b.finish.blocks.map (·.id) = (b.function.blocks.filter isKept).map (·.id) := by
    rw [finish, List.map_map]
    exact List.map_congr_left fun block _ => (close_same block).1
  have hsorted : (b.finish.blocks.map (·.id)).Pairwise (· < ·) := by
    rw [hid]
    refine List.Pairwise.sublist (List.filter_sublist.map _) ?_
    rw [h.numbered.ids]
    exact List.pairwise_lt_range
  refine ⟨hsorted, ?_, ?_, ?_⟩
  · refine nodup_instructions (hsorted.imp ne_of_lt) h.tracks.nodup fun id => ?_
    rw [instructionsOf_finish h.numbered]
    exact h.tracks.instructions id
  · exact h.linked.filter_isKept.map (fun block => (close_same block).1) (fun block => (close_same block).2.1)
      (fun block => (close_same block).2.2.1) fun block => (close_same block).2.2.2
  · intro block hblock
    obtain ⟨open_, -, rfl⟩ := List.mem_map.mp hblock
    exact predecessors_close_ne_nil

/-- Whatever is called, the finished function is a graph.  Each block has the instructions that were pushed to
it, the entry block behind the slots, and the first end it was given. -/
theorem isGraph_finish_after {f : IrFunction} (hf : f.blocks = []) (layout : DataLayout) {calls : List Call}
    (hcalls : NamesMade [0] (new f layout) calls) :
    let b := new f layout
    let g := (b.after calls).finish
    g.IsGraph ∧
      (∃ entry, g.blocks.head? = some entry ∧ entry.id = 0) ∧
      (∀ n id t, (b.after (calls.take n)).function.endingOf id = some t → g.endingOf id = some t) ∧
      (∀ id, g.instructionsOf id = (b.record calls).instructionsOf id) ∧
      ∀ p ∈ (b.record calls).pushed, p.2 ∈ g.instructionsOf p.1 := by
  intro b g
  have hnew : b.Consistent {} := .new hf layout
  have hmade : ∀ id ∈ [0], id < b.nextBlock := fun id hid => by
    rw [List.mem_singleton.mp hid]
    exact Nat.one_pos
  have hafter : (b.after calls).Consistent (b.record calls) := hnew.after hmade hcalls
  have hinstr (id : Nat) : g.instructionsOf id = (b.record calls).instructionsOf id := by
    rw [instructionsOf_finish hafter.numbered]
    exact hafter.tracks.instructions id
  refine ⟨hafter.isGraph_finish, head?_finish hafter.numbered, fun n id t hend => ?_, hinstr, fun p hp => ?_⟩
  · exact endingOf_finish hafter.numbered (hnew.endingOf_after hmade hcalls hend)
  · rw [hinstr]
    refine List.mem_append_right _ (List.mem_map.mpr ⟨p, List.mem_filter.mpr ⟨hp, ?_⟩, rfl⟩)
    exact decide_eq_true rfl

/-- A slot that is made after the entry block has ended, and code behind an end. -/
theorem isGraph_finish_after_loop :
    let f : IrFunction := { name := "f", signature := default }
    let b := new f {}
    let calls : List Call :=
      [.alloca .i32, .createBlock "next", .createBlock "unused", .br 1, .switchTo 1,
        .entrySlot .i1 (.constant (.bool false)), .condBr (.register 1) 1 0, .alloca .i32, .ret none]
    let g := (b.after calls).finish
    g.IsGraph ∧ g.blocks.map (·.id) = [0, 1, 3] ∧ (g.instructionsOf 0).map (·.id) = [1, 2, 0] := by
  intro f b calls g
  have hcalls : NamesMade [0] (new f {}) calls := by decide
  have h := isGraph_finish_after (f := f) rfl {} hcalls
  exact ⟨h.1, by decide, by decide⟩

end FunctionBuilder
end UnitCompiler
