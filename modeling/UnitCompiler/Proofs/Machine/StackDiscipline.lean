import Mathlib
import UnitCompiler.Proofs.Machine.Allocation
import UnitCompiler.Proofs.Machine.Stack

/-!
# The discipline of the stack

Memory only grows while an activation runs, and is cut back to where it ended before when the activation
ends, however it ends.  So a slot lies behind everything that is there when it is made, and its bytes are
zero until a store writes them.
-/

namespace UnitCompiler

/-- The bytes that an operation writes in a frame. -/
def Operation.Writes (i : Machine.Image) (frame : Machine.Frame) : Operation → Nat → Prop
  | .store value address _ _ => fun k => ∃ type v a j, frame.typeOf value = .ok type ∧
      i.eval frame value = .ok v ∧ i.evalPtr frame address = .ok a ∧ type.Writes v j ∧ k = a + j
  | _ => fun _ => False

namespace Machine

attribute [local instance (high)] instPowNat

open Relation (ReflTransGen)

/-- Memory does not shrink, and of the bytes that were there only some are written. -/
structure Memory.Spares (m m' : Memory) (written : Nat → Prop) : Prop where
  size : m.size ≤ m'.size
  bytes : ∀ k, k < m.size → ¬written k → m'.bytes[k]? = m.bytes[k]?

theorem Memory.Spares.refl (m : Memory) (written : Nat → Prop) : m.Spares m written :=
  ⟨le_rfl, fun _ _ _ => rfl⟩

/-! ### What operations do to memory -/

/-- An action that leaves memory as it is. -/
def Still {α : Type} (act : RunM α) : Prop := ∀ s, (endState (act s)).memory = s.memory

theorem Still.compositional : Compositional @Still where
  pure _ _ := rfl
  throw _ _ := rfl
  get _ := rfl
  bind := by
    intro α β act next h h' s
    have hs := h s
    rw [bind_apply]
    cases hact : act s with
    | error e s' =>
      rw [hact] at hs
      exact hs
    | ok a s' =>
      rw [hact] at hs
      exact (h' a s').trans hs

theorem still_perform (i : Image) (frame : Frame) (type : IrType) {operation : Operation}
    (h : touchesMemory operation = false) : Still (perform i idle frame type operation) := by
  refine Still.compositional.perform i (fun _ _ => Still.compositional.pure _) frame type operation ?_
  rw [h]
  nofun

/-- A store behind the memory that was there. -/
theorem Memory.spares_store {m m₁ : Memory} (hgrows : Grows m m₁) {a : Nat} (ha : m.size ≤ a) (v : Value)
    (type : IrType) : m.Spares (Memory.after (Memory.store a v type m₁)) fun _ => False := by
  have hoverwrites := Memory.overwrites_store type v a
  refine ⟨?_, fun k hk _ => ?_⟩
  · rw [hoverwrites.size m₁]
    exact hgrows.size
  · rw [hoverwrites.rest m₁ k, hgrows.bytes k hk]
    rintro ⟨j, -, rfl⟩
    omega

/-- What was there stays when the memory is cut back to it. -/
theorem Memory.Spares.truncate {m m' : Memory} {written : Nat → Prop} (h : m.Spares m' written) :
    m.Spares (m'.truncate m.size) written ∧ (m'.truncate m.size).size = m.size := by
  have hsize : (m'.truncate m.size).size = m.size := by
    rw [Memory.size_truncate]
    exact min_eq_left h.size
  refine ⟨⟨hsize.ge, fun k hk hnot => ?_⟩, hsize⟩
  rw [Memory.getElem?_truncate m' hk]
  exact h.bytes k hk hnot

/-- A bitcast takes memory of its own, which it gives back when it succeeds. -/
theorem spares_bitcast (v : Value) (source target : IrType) (m : Memory) :
    match bitcast v source target m with
    | .ok _ m' => m.Spares m' (fun _ => False) ∧ m'.size = m.size
    | .error _ m' => m.Spares m' fun _ => False := by
  generalize hrun : bitcast v source target m = result
  unfold bitcast at hrun
  split at hrun
  · subst hrun
    exact ⟨.refl _ _, rfl⟩
  · subst hrun
    exact ⟨.refl _ _, rfl⟩
  by_cases hsizes : layout.sizeOf source ≠ layout.sizeOf target
  · rw [if_pos hsizes] at hrun
    subst hrun
    exact .refl _ _
  rw [if_neg hsizes] at hrun
  simp only [bind, EStateM.bind, get, getThe, MonadStateOf.get, EStateM.get, pure] at hrun
  rcases allocate_cases (layout.sizeOf source) (max (layout.alignOf source) (layout.alignOf target)) m with
    hallocate | ⟨hallocate, -⟩ | ⟨a, m₁, hallocate, hgrows, ha, -⟩
  · rw [hallocate] at hrun
    subst hrun
    exact .refl _ _
  · rw [hallocate] at hrun
    subst hrun
    exact .refl _ _
  have hstored := Memory.spares_store hgrows ha v source
  rw [hallocate] at hrun
  simp only at hrun
  cases hstore : Memory.store a v source m₁ with
  | error e m₂ =>
    rw [hstore] at hrun hstored
    subst hrun
    exact hstored
  | ok u m₂ =>
    rw [hstore] at hrun hstored
    have hcut := hstored.truncate
    cases hload : m₂.load a target with
    | error e =>
      simp only [hload] at hrun
      subst hrun
      exact hcut.1
    | ok w =>
      simp only [hload] at hrun
      subst hrun
      exact hcut

/-- What an operation does to memory. -/
structure Touches (i : Image) (frame : Frame) (operation : Operation) (v : Value) (m m' : Memory) : Prop where
  spares : m.Spares m' (operation.Writes i frame)
  zero : ∀ k, m.size ≤ k → k < m'.size → m'.bytes[k]? = some 0
  regions : ∀ region ∈ allotted operation v, m.size ≤ region.start ∧ region.start + region.count ≤ m'.size

theorem Touches.refl {i : Image} {frame : Frame} {operation : Operation} {v : Value} (m : Memory)
    (h : allotted operation v = []) : Touches i frame operation v m m := by
  refine ⟨.refl _ _, fun k hlo hhi => absurd hhi (Nat.not_lt.mpr hlo), ?_⟩
  rw [h]
  nofun

section Perform

variable (i : Image) (frame : Frame) (type : IrType) (s : State)

theorem store_touches (value address : Operand) (align : Option Nat) (isVolatile : Bool) :
    match perform i idle frame type (.store value address align isVolatile) s with
    | .ok v s' => Touches i frame (.store value address align isVolatile) v s.memory s'.memory
    | .error _ s' => s.memory.Spares s'.memory
        (Operation.Writes i frame (.store value address align isVolatile)) := by
  simp only [perform]
  cases htype : frame.typeOf value with
  | error e => exact .refl _ _
  | ok source =>
    cases hvalue : i.eval frame value with
    | error e => exact .refl _ _
    | ok v =>
      cases haddress : i.evalPtr frame address with
      | error e => exact .refl _ _
      | ok a =>
        simp only [liftFault_ok, pure_bind]
        rw [bind_apply, onMemory]
        have hoverwrites := Memory.overwrites_store source v a
        have hspares : s.memory.Spares (Memory.after (Memory.store a v source s.memory))
            (Operation.Writes i frame (.store value address align isVolatile)) := by
          refine ⟨(hoverwrites.size s.memory).ge, fun k _ hk => hoverwrites.rest s.memory k ?_⟩
          rintro ⟨j, hj, rfl⟩
          exact hk ⟨source, v, a, j, htype, hvalue, haddress, hj, rfl⟩
        have hsize := hoverwrites.size s.memory
        cases hstore : Memory.store a v source s.memory with
        | error e m =>
          rw [hstore] at hspares
          exact hspares
        | ok u m =>
          rw [hstore] at hspares hsize
          refine ⟨hspares, fun k hlo hhi => ?_, List.forall_mem_nil _⟩
          exact absurd (hhi.trans_eq hsize) (Nat.not_lt.mpr hlo)

theorem alloca_touches (slot : IrType) (align : Nat) :
    match perform i idle frame type (.alloca slot align) s with
    | .ok v s' => Touches i frame (.alloca slot align) v s.memory s'.memory
    | .error _ s' => s.memory.Spares s'.memory (Operation.Writes i frame (.alloca slot align)) := by
  cases hrun : perform i idle frame type (.alloca slot align) s with
  | ok v s' =>
    obtain ⟨a, rfl, -, happends⟩ := appends_of_perform_alloca hrun
    refine ⟨⟨happends.grows.size, fun k hk _ => happends.grows.bytes k hk⟩, happends.zero, ?_⟩
    intro region hregion
    obtain rfl := List.mem_singleton.mp hregion
    exact ⟨happends.behind, happends.size.ge⟩
  | error e s' =>
    simp only [perform] at hrun
    rw [bind_apply, onMemory] at hrun
    rcases allocate_cases (layout.sizeOf slot) align s.memory with
      hallocate | ⟨hallocate, -⟩ | ⟨a, m₁, hallocate, hgrows, ha, -⟩
    · rw [hallocate] at hrun
      cases hrun
      exact .refl _ _
    · rw [hallocate] at hrun
      cases hrun
      exact .refl _ _
    · have hstored := Memory.spares_store hgrows ha (.zero slot) slot
      rw [hallocate] at hrun
      simp only at hrun
      rw [bind_apply, onMemory] at hrun
      cases hstore : Memory.store a (.zero slot) slot m₁ with
      | ok u m₂ =>
        simp only [hstore] at hrun
        cases hrun
      | error e' m₂ =>
        rw [hstore] at hstored
        simp only [hstore] at hrun
        cases hrun
        exact hstored

theorem bitcast_touches (value : Operand) (target : IrType) :
    match perform i idle frame type (.convert .bitcast value target) s with
    | .ok v s' => Touches i frame (.convert .bitcast value target) v s.memory s'.memory
    | .error _ s' => s.memory.Spares s'.memory (Operation.Writes i frame (.convert .bitcast value target)) := by
  simp only [perform]
  cases htype : frame.typeOf value with
  | error e => exact .refl _ _
  | ok source =>
    cases hvalue : i.eval frame value with
    | error e => exact .refl _ _
    | ok v =>
      have hspares := spares_bitcast v source target s.memory
      simp only [liftFault_ok, pure_bind]
      rw [onMemory]
      cases hcast : bitcast v source target s.memory with
      | error e m =>
        rw [hcast] at hspares
        exact hspares
      | ok w m =>
        rw [hcast] at hspares
        refine ⟨hspares.1, fun k hlo hhi => ?_, List.forall_mem_nil _⟩
        exact absurd (hhi.trans_eq hspares.2) (Nat.not_lt.mpr hlo)

theorem perform_touches (operation : Operation) :
    match perform i idle frame type operation s with
    | .ok v s' => Touches i frame operation v s.memory s'.memory
    | .error _ s' => s.memory.Spares s'.memory (operation.Writes i frame) := by
  cases htouches : touchesMemory operation with
  | true =>
    cases operation with
    | store value address align isVolatile => exact store_touches i frame type s value address align isVolatile
    | alloca slot align => exact alloca_touches i frame type s slot align
    | convert op value target =>
      cases op with
      | bitcast => exact bitcast_touches i frame type s value target
      | _ => cases htouches
    | _ => cases htouches
  | false =>
    have hstill := still_perform i frame type htouches s
    have hallotted : ∀ v, allotted operation v = [] := by
      intro v
      cases operation <;> first | rfl | cases htouches
    cases hrun : perform i idle frame type operation s with
    | ok v s' =>
      rw [hrun] at hstill
      change s'.memory = s.memory at hstill
      dsimp only
      rw [hstill]
      exact .refl _ (hallotted v)
    | error e s' =>
      rw [hrun] at hstill
      change s'.memory = s.memory at hstill
      dsimp only
      rw [hstill]
      exact .refl _ _

end Perform

/-! ### The order of the stack -/

namespace Moment

def memory : Moment → Memory
  | .calling r _ => r.state.memory
  | .running _ _ s => s.memory
  | .finished (.ok _ s) _ | .finished (.error _ s) _ => s.memory

/-- The activations on the stack, the innermost first. -/
def levels : Moment → List Level
  | .calling _ below | .finished _ below => below
  | .running top below _ => top :: below

/-- The regions that slots have, the latest first. -/
def slots (c : Moment) : List Region := c.levels.flatMap (·.slots)

/-- The bytes that the next instruction writes. -/
def Writes (i : Image) : Moment → Nat → Prop
  | .running top _ _ => fun k => ∃ instruction rest, top.rest = instruction :: rest ∧
      instruction.operation.Writes i top.frame k
  | _ => fun _ => False

/-- A sum of addresses has left 64 bits, and the machine is gone with all its memory. -/
def Overflowed (c : Moment) : Prop := ∃ s below, c = .finished (.error .addressOverflow s) below

end Moment

/-- Levels on a memory that ended at `base` when there were none and ends at `size` now.  Each has its slots
between its mark and the mark of the next one, each behind those before it, and leaves as much of the depth
as the levels up to it do not take. -/
inductive Stacked (base depth : Nat) : List Level → Nat → Prop
  | nil : Stacked base depth [] base
  | cons {level : Level} {below : List Level} {size : Nat} (hbelow : Stacked base depth below level.mark)
      (hdepth : level.depth + below.length + 1 = depth) (hmark : level.mark ≤ size)
      (hbehind : level.slots.Pairwise Region.Behind)
      (hinside : ∀ region ∈ level.slots, level.mark ≤ region.start ∧ region.start + region.count ≤ size) :
    Stacked base depth (level :: below) size

namespace Stacked

variable {base depth size : Nat} {levels below : List Level} {level : Level}

theorem base_le (h : Stacked base depth levels size) : base ≤ size := by
  induction h with
  | nil => exact le_rfl
  | cons _ _ hmark _ _ ih => exact ih.trans hmark

/-- All regions on the stack lie behind its base and inside the memory, each behind those before it. -/
theorem regions (h : Stacked base depth levels size) :
    (levels.flatMap (·.slots)).Pairwise Region.Behind ∧
      ∀ region ∈ levels.flatMap (·.slots), base ≤ region.start ∧ region.start + region.count ≤ size := by
  induction h with
  | nil => exact ⟨.nil, nofun⟩
  | @cons level below size hbelow hdepth hmark hbehind hinside ih =>
    obtain ⟨ihbehind, ihinside⟩ := ih
    rw [List.flatMap_cons]
    refine ⟨List.pairwise_append.mpr ⟨hbehind, ihbehind, ?_⟩, fun region hregion => ?_⟩
    · intro region hregion other hother
      exact (ihinside other hother).2.trans (hinside region hregion).1
    · rcases List.mem_append.mp hregion with hregion | hregion
      · exact ⟨hbelow.base_le.trans (hinside region hregion).1, (hinside region hregion).2⟩
      · exact ⟨(ihinside region hregion).1, (ihinside region hregion).2.trans hmark⟩

/-- The memory is cut back to where it ended when the level was entered. -/
theorem backTo {s : State} (h : Stacked base depth (level :: below) s.memory.size) :
    Stacked base depth below (s.backTo level.mark).memory.size := by
  cases h with
  | cons hbelow hdepth hmark hbehind hinside =>
    have hsize : (s.backTo level.mark).memory.size = level.mark := by
      rw [State.backTo, Memory.size_truncate]
      exact min_eq_left hmark
    rw [hsize]
    exact hbelow

theorem mono {size' : Nat} (h : Stacked base depth (level :: below) size) (hle : size ≤ size') :
    Stacked base depth (level :: below) size' := by
  cases h with
  | cons hbelow hdepth hmark hbehind hinside =>
    refine .cons hbelow hdepth (hmark.trans hle) hbehind fun region hregion => ?_
    exact ⟨(hinside region hregion).1, (hinside region hregion).2.trans hle⟩

theorem advance {i : Image} {s s' : State} {instruction : Instruction} {rest : List Instruction} {v : Value}
    (h : Stacked base depth (level :: below) s.memory.size)
    (htouches : Touches i level.frame instruction.operation v s.memory s'.memory) :
    Stacked base depth (level.advance instruction rest v :: below) s'.memory.size := by
  have hgrown := htouches.spares.size
  cases h with
  | cons hbelow hdepth hmark hbehind hinside =>
    refine .cons hbelow hdepth (hmark.trans hgrown) ?_ fun region hregion => ?_
    · refine List.pairwise_append.mpr ⟨?_, hbehind, fun region hregion other hother => ?_⟩
      · unfold allotted
        split <;> simp
      · exact (hinside other hother).2.trans (htouches.regions region hregion).1
    · rcases List.mem_append.mp hregion with hregion | hregion
      · exact ⟨hmark.trans (htouches.regions region hregion).1, (htouches.regions region hregion).2⟩
      · exact ⟨(hinside region hregion).1, (hinside region hregion).2.trans hgrown⟩

end Stacked

/-- The stack is in order, and a call about to be made may go as deep as the stack leaves. -/
structure Moment.Orderly (base depth : Nat) (c : Moment) : Prop where
  stacked : Stacked base depth c.levels c.memory.size
  calling : ∀ r below, c = .calling r below → r.depth + below.length = depth

section Runs

variable {i : Image} {base depth : Nat} {c c' : Moment}

/-- A step keeps the stack in order. -/
theorem Step.orderly (h : Step i c c') (hc : c.Orderly base depth) : c'.Orderly base depth := by
  obtain ⟨hstacked, hcalling⟩ := hc
  cases h with
  | @enter r e below hadmits =>
    have hdepth := hcalling r below rfl
    rw [hadmits.depth] at hdepth
    exact ⟨.cons hstacked (by change e.depth + below.length + 1 = depth; omega) le_rfl .nil nofun, nofun⟩
  | refuse => exact ⟨hstacked, nofun⟩
  | @execute top below s s' instruction rest v hrest hlimit hnone h =>
    have htouches := perform_touches i top.frame (instruction.type.getD .void) s.tick instruction.operation
    rw [h] at htouches
    exact ⟨hstacked.advance htouches, nofun⟩
  | @call top below s instruction rest name values hrest hlimit h =>
    refine ⟨hstacked, fun r below' heq => ?_⟩
    cases heq
    cases hstacked with
    | cons hbelow hdepth => exact hdepth
  | resume =>
    cases hstacked with
    | cons hbelow hdepth hmark hbehind hinside =>
      exact ⟨.cons hbelow hdepth hmark hbehind hinside, nofun⟩
  | jump =>
    cases hstacked with
    | cons hbelow hdepth hmark hbehind hinside =>
      exact ⟨.cons hbelow hdepth hmark hbehind hinside, nofun⟩
  | @fault top below s s' instruction rest e hrest hlimit hnone h =>
    have hspares := perform_touches i top.frame (instruction.type.getD .void) s.tick instruction.operation
    rw [h] at hspares
    exact ⟨(hstacked.mono hspares.size).backTo, nofun⟩
  | unwind | leave | blocked | lost | stall => exact ⟨hstacked.backTo, nofun⟩
  | @limit top below s =>
    have hstacked : Stacked base depth (top :: below) s.tick.memory.size := hstacked
    exact ⟨hstacked.backTo, nofun⟩

theorem Moment.Orderly.steps (hc : c.Orderly base depth) (h : Steps i c c') : c'.Orderly base depth := by
  induction h with
  | refl => exact hc
  | tail _ hstep ih => exact hstep.orderly ih

/-- The byte is zero, if it is there at all. -/
def Memory.Blank (m : Memory) (k : Nat) : Prop := k < m.size → m.bytes[k]? = some 0

theorem Memory.Blank.backTo {s : State} {k : Nat} (h : s.memory.Blank k) (mark : Nat) :
    (s.backTo mark).memory.Blank k := by
  intro hk
  rw [State.backTo, Memory.size_truncate] at hk
  rw [State.backTo, Memory.getElem?_truncate _ (hk.trans_le (min_le_left _ _))]
  exact h (hk.trans_le (min_le_right _ _))

/-- A byte stays zero in a step that does not write it. -/
theorem Step.blank (h : Step i c c') (hc : c.Orderly base depth) {k : Nat} (hk : c.memory.Blank k)
    (hwrites : ¬c.Writes i k) : c'.memory.Blank k := by
  obtain ⟨hstacked, -⟩ := hc
  cases h with
  | enter | refuse | call | resume | jump => exact hk
  | @execute top below s s' instruction rest v hrest hlimit hnone h =>
    have htouches := perform_touches i top.frame (instruction.type.getD .void) s.tick instruction.operation
    rw [h] at htouches
    intro hlt
    by_cases hold : k < s.memory.size
    · have hbytes := htouches.spares.bytes k hold fun hw => hwrites ⟨instruction, rest, hrest, hw⟩
      exact hbytes.trans (hk hold)
    · exact htouches.zero k (Nat.le_of_not_lt hold) hlt
  | @fault top below s s' instruction rest e hrest hlimit hnone h =>
    have hspares := perform_touches i top.frame (instruction.type.getD .void) s.tick instruction.operation
    rw [h] at hspares
    intro hlt
    change k < (s'.backTo top.mark).memory.size at hlt
    rw [State.backTo, Memory.size_truncate] at hlt
    have hmark : k < top.mark := hlt.trans_le (min_le_left _ _)
    cases hstacked with
    | cons hbelow hdepth hle =>
      have hold : k < s.memory.size := hmark.trans_le hle
      have hbytes := hspares.bytes k hold fun hw => hwrites ⟨instruction, rest, hrest, hw⟩
      change (s'.backTo top.mark).memory.bytes[k]? = some 0
      rw [State.backTo, Memory.getElem?_truncate _ hmark]
      exact hbytes.trans (hk hold)
  | unwind | leave | blocked | lost | stall => exact Memory.Blank.backTo hk _
  | @limit top below s =>
    have hk : s.tick.memory.Blank k := hk
    exact hk.backTo _

/-- Steps none of which writes a byte. -/
def Leaves (i : Image) (k : Nat) : Moment → Moment → Prop :=
  ReflTransGen fun c c' => Step i c c' ∧ ¬c.Writes i k

theorem Leaves.blank {k : Nat} (h : Leaves i k c c') (hc : c.Orderly base depth) (hk : c.memory.Blank k) :
    c'.memory.Blank k := by
  suffices c'.Orderly base depth ∧ c'.memory.Blank k from this.2
  induction h with
  | refl => exact ⟨hc, hk⟩
  | tail _ hstep ih => exact ⟨hstep.1.orderly ih.1, hstep.1.blank ih.1 ih.2 hstep.2⟩

/-- From one moment to the next a slot for a type is given a region: behind everything that was there, at a
multiple of the alignment, and with zeros that stay until they are written. -/
structure HandsOut (i : Image) (c c' : Moment) (slot : IrType) (align : Nat) (region : Region) : Prop where
  slots : c'.slots = region :: c.slots
  count : region.count = max (layout.sizeOf slot) 1
  behind : c.memory.size ≤ region.start
  aligned : max align 1 ∣ region.start
  inside : region.start + region.count = c'.memory.size
  zero : ∀ k, region.Covers k → ∀ c'', Leaves i k c' c'' → ¬c''.Overflowed → c''.memory.Blank k

theorem handsOut_of_alloca {top : Level} {below : List Level} {s : State} {instruction : Instruction}
    {rest : List Instruction} {slot : IrType} {align : Nat}
    (hc : (Moment.running top below s).Orderly base depth) (hrest : top.rest = instruction :: rest)
    (hop : instruction.operation = .alloca slot align) (h : Step i (.running top below s) c') :
    (∃ e s', c' = .finished (.error e s') below) ∨ ∃ region s',
      c' = .running (top.advance instruction rest (.ptr region.start)) below s' ∧
        HandsOut i (.running top below s) c' slot align region := by
  have hc' := h.orderly hc
  cases h with
  | call hrest' _ hcalls =>
    cases hrest.symm.trans hrest'
    rw [hop] at hcalls
    cases hcalls
  | limit | fault | stall => exact Or.inl ⟨_, _, rfl⟩
  | jump hrest' | leave hrest' | blocked hrest' | lost hrest' => cases hrest.symm.trans hrest'
  | execute hrest' hlimit hnone h =>
    cases hrest.symm.trans hrest'
    rw [hop] at h
    obtain ⟨a, rfl, -, happends⟩ := appends_of_perform_alloca h
    have hslots : (top.advance instruction rest (.ptr a)).slots =
        ⟨a, max (layout.sizeOf slot) 1⟩ :: top.slots := by
      rw [Level.advance, hop]
      rfl
    refine Or.inr ⟨⟨a, max (layout.sizeOf slot) 1⟩, _, rfl, ?_, rfl, happends.behind, happends.dvd,
      happends.size.symm, fun k hk c'' hleaves _ => hleaves.blank hc' fun hlt => ?_⟩
    · change (top.advance instruction rest (.ptr a)).slots ++ _ = _ :: (top.slots ++ _)
      rw [hslots, List.cons_append]
    · exact happends.zero k (happends.behind.trans hk.1) hlt

end Runs

/-! ### Sessions -/

namespace Session

/-- The regions of the variables, the last one first. -/
def regions (session : Session) : List Region :=
  List.zipWith (fun entry g => ⟨entry.2, max (layout.sizeOf g.type) 1⟩) session.image.globals
    session.image.program.globals.reverse

/-- The sessions that a program comes to by calls from outside and by stores.  No session goes on where a sum
of addresses has left 64 bits. -/
inductive Arises (program : Program) : Session → Prop
  | boot {session : Session} (h : Machine.boot program = .ok session) : Arises program session
  | run {session : Session} (h : Arises program session) (name : String) (args : List Value)
    (hruns : (session.run name args).1 ≠ .error .addressOverflow) :
    Arises program (session.run name args).2
  | store {session : Session} (h : Arises program session) (address : Nat) (v : Value) (type : IrType)
    (hstores : (session.store address v type).1 ≠ .error .addressOverflow) :
    Arises program (session.store address v type).2

/-- What a call from outside asks of the machine. -/
def request (session : Session) (name : String) (args : List Value) : Request :=
  ⟨maxCallDepth, name, args, session.state⟩

theorem run_eq (session : Session) (name : String) (args : List Value) :
    (session.run name args).2 =
      { session with state := endState ((session.request name args).run session.image) } := by
  rw [run]
  change _ = { session with
    state := endState (callFunction session.image maxCallDepth name args session.state) }
  cases callFunction session.image maxCallDepth name args session.state <;> rfl

end Session

theorem Request.orderly (r : Request) :
    (Moment.calling r []).Orderly r.state.memory.size r.depth := by
  refine ⟨.nil, fun r' below h => ?_⟩
  cases h
  rfl

/-- A request leaves memory as large as it was. -/
theorem Request.size_run (i : Image) (r : Request) (below : List Level) :
    (Moment.finished (r.run i) below).memory.size = r.state.memory.size := by
  have horderly := r.orderly.steps (steps_run (i := i) r [])
  have hstacked := horderly.stacked
  have hmemory : (Moment.finished (r.run i) below).memory = (Moment.finished (r.run i) []).memory := by
    cases r.run i <;> rfl
  rw [hmemory]
  generalize (Moment.finished (r.run i) []).memory.size = size at hstacked
  cases hstacked
  rfl

theorem Session.size_run (session : Session) (name : String) (args : List Value) :
    (session.run name args).2.state.memory.size = session.state.memory.size := by
  have hsize := (session.request name args).size_run session.image []
  rw [Session.run_eq]
  change (endState _).memory.size = _
  cases hrun : (session.request name args).run session.image <;>
  · rw [hrun] at hsize
    exact hsize

/-! ### Variables -/

theorem regions_of_allocateGlobals {vars : List GlobalVariable} {m m' : Memory}
    {addresses : List (String × Nat)} (h : allocateGlobals vars m = .ok addresses m') :
    let regions := List.zipWith (fun entry g => Region.mk entry.2 (max (layout.sizeOf g.type) 1)) addresses vars
    addresses.length = vars.length ∧ m.size ≤ m'.size ∧ regions.Pairwise (fun region other => other.Behind region) ∧
      ∀ region ∈ regions, m.size ≤ region.start ∧ region.start + region.count ≤ m'.size := by
  induction vars generalizing m addresses with
  | nil =>
    cases h
    exact ⟨rfl, le_rfl, .nil, nofun⟩
  | cons g rest ih =>
    obtain ⟨a, m₁, more, halloc, hrest, rfl⟩ := allocateGlobals_cons h
    have happends := Memory.appends_of_allocate halloc
    obtain ⟨hlength, hsize, hbehind, hinside⟩ := ih hrest
    have hgrown := happends.grows.size
    refine ⟨congrArg (· + 1) hlength, hgrown.trans hsize, ?_, ?_⟩
    · refine List.pairwise_cons.mpr ⟨fun region hregion => ?_, hbehind⟩
      exact happends.size.ge.trans (hinside region hregion).1
    · rw [List.zipWith_cons_cons, List.forall_mem_cons]
      refine ⟨⟨happends.behind, happends.size.ge.trans hsize⟩, fun region hregion => ?_⟩
      exact ⟨hgrown.trans (hinside region hregion).1, (hinside region hregion).2⟩

theorem size_initGlobals {addresses : List (String × Nat)} {vars : List GlobalVariable} {m m' : Memory}
    (h : initGlobals addresses vars m = .ok () m') : m'.size = m.size := by
  induction vars generalizing m with
  | nil =>
    cases h
    rfl
  | cons g rest ih =>
    unfold initGlobals at h
    cases hvalue : initialValue g with
    | error e =>
      rw [hvalue] at h
      cases h
    | ok v =>
      rw [hvalue] at h
      simp only [bind, EStateM.bind] at h
      have hsize := (Memory.overwrites_store g.type v
        (((addresses.reverse.find? (·.1 == g.name)).map (·.2)).getD 0)).size m
      cases hstore : Memory.store (((addresses.reverse.find? (·.1 == g.name)).map (·.2)).getD 0) v g.type m with
      | error e m₁ =>
        rw [hstore] at h
        cases h
      | ok u m₁ =>
        rw [hstore] at h hsize
        exact (ih h).trans hsize

namespace Session

/-- The regions of the variables are in order and inside the memory. -/
structure Placed (session : Session) : Prop where
  behind : session.regions.Pairwise Region.Behind
  inside : ∀ region ∈ session.regions, region.start + region.count ≤ session.state.memory.size

theorem placed_of_boot {program : Program} {session : Session} (h : boot program = .ok session) :
    session.Placed := by
  obtain ⟨addresses, m, m', halloc, hinit, rfl⟩ := boot_cases h
  obtain ⟨hlength, -, hbehind, hinside⟩ := regions_of_allocateGlobals halloc
  have hregions : Session.regions ⟨⟨program, addresses.reverse⟩, { memory := m' }⟩ =
      (List.zipWith (fun entry g => Region.mk entry.2 (max (layout.sizeOf g.type) 1)) addresses
        program.globals).reverse :=
    (List.reverse_zipWith hlength).symm
  constructor
  · rw [hregions, List.pairwise_reverse]
    exact hbehind
  · rw [hregions]
    intro region hregion
    change _ ≤ m'.size
    rw [size_initGlobals hinit]
    exact (hinside region (List.mem_reverse.mp hregion)).2

theorem Placed.of_eq {session session' : Session} (h : session.Placed) (himage : session'.image = session.image)
    (hsize : session'.state.memory.size = session.state.memory.size) : session'.Placed := by
  have hregions : session'.regions = session.regions := by
    unfold regions
    rw [himage]
  refine ⟨hregions ▸ h.behind, fun region hregion => ?_⟩
  rw [hsize]
  exact h.inside region (hregions ▸ hregion)

theorem store_frame (session : Session) (address : Nat) (v : Value) (type : IrType) :
    (session.store address v type).2.image = session.image ∧
      (session.store address v type).2.state.memory.size = session.state.memory.size := by
  have hsize := (Memory.overwrites_store type v address).size session.state.memory
  rw [store, onMemory]
  cases hstore : Memory.store address v type session.state.memory <;>
  · rw [hstore] at hsize
    exact ⟨rfl, hsize⟩

theorem Arises.placed {program : Program} {session : Session} (h : Arises program session) :
    session.Placed := by
  induction h with
  | boot h => exact placed_of_boot h
  | @run session _ name args _ ih =>
    refine ih.of_eq ?_ (session.size_run name args)
    rw [run_eq]
  | @store session _ address v type _ ih =>
    obtain ⟨himage, hsize⟩ := session.store_frame address v type
    exact ih.of_eq himage hsize

/-- A call from outside, whether it comes to a value or to a fault, leaves the image and the size of the
memory as they were, and so does every call in the course of it, with the levels that waited for it.  All
the while the regions of the slots lie behind each other and behind those of the variables, inside the
memory, and every slot is given a region behind all memory, aligned as it asks, with zeros in it.  The one
exception is a sum of addresses that leaves 64 bits: from there on nothing is promised of the memory. -/
theorem run_restores {program : Program} {session : Session} (h : Arises program session) (name : String)
    (args : List Value) :
    let start := Moment.calling (session.request name args) []
    (session.run name args).2.image = session.image ∧
    ((session.run name args).1 ≠ .error .addressOverflow →
      (session.run name args).2.state.memory.size = session.state.memory.size) ∧
    Steps session.image start (.finished ((session.request name args).run session.image) []) ∧
    ∀ c, Steps session.image start c → ¬c.Overflowed →
      (c.slots ++ session.regions).Pairwise Region.Behind ∧
      (∀ region ∈ c.slots ++ session.regions, region.start + region.count ≤ c.memory.size) ∧
      (∀ r below, c = .calling r below → r.depth + below.length = maxCallDepth ∧
        Steps session.image c (.finished (r.run session.image) below) ∧
        (¬(Moment.finished (r.run session.image) below).Overflowed →
          (Moment.finished (r.run session.image) below).memory.size = r.state.memory.size)) ∧
      ∀ top below s instruction rest slot align c', c = .running top below s →
        top.rest = instruction :: rest → instruction.operation = .alloca slot align →
        Step session.image c c' → (∃ e s', c' = .finished (.error e s') below) ∨ ∃ region s',
          c' = .running (top.advance instruction rest (.ptr region.start)) below s' ∧
            HandsOut session.image c c' slot align region := by
  intro start
  have hplaced := h.placed
  refine ⟨?_, fun _ => session.size_run name args, steps_run _ _, fun c hsteps _ => ?_⟩
  · rw [run_eq]
  have horderly := (session.request name args).orderly.steps hsteps
  obtain ⟨hbehind, hinside⟩ := horderly.stacked.regions
  have hbase := horderly.stacked.base_le
  refine ⟨?_, ?_, ?_, ?_⟩
  · refine List.pairwise_append.mpr ⟨hbehind, hplaced.behind, fun region hregion other hother => ?_⟩
    exact (hplaced.inside other hother).trans (hinside region hregion).1
  · intro region hregion
    rcases List.mem_append.mp hregion with hregion | hregion
    · exact (hinside region hregion).2
    · exact (hplaced.inside region hregion).trans hbase
  · intro r below hc
    exact ⟨horderly.calling r below hc, hc ▸ steps_run r below, fun _ => r.size_run _ below⟩
  · rintro top below s instruction rest slot align c' rfl hrest hop hstep
    exact handsOut_of_alloca horderly hrest hop hstep

/-- A function that makes a slot, loads from the null pointer and so ends with a fault. -/
def stumbling : IrFunction where
  name := "stumble"
  signature := ⟨[], .void, false⟩
  blocks := [{
    id := 0
    instructions := [⟨0, .alloca .i32 4, some (.ptr .i32)⟩, ⟨1, .load (.null (.ptr .i32)) none false, some .i32⟩]
    terminator := some (.ret none) }]

/-- A program of a byte and that function. -/
def shelf : Program where
  functions := [stumbling]
  globals := [⟨"byte", .i8, none, .external, false, false, none⟩]

/-- The slot starts at the next multiple of four behind the byte, and is given back with the fault. -/
theorem run_restores_shelf : ∃ session, boot shelf = .ok session ∧ Arises shelf session ∧
    (session.run "stumble" []).1 = .error .nullPointer ∧
    (session.run "stumble" []).2.state.memory.size = session.state.memory.size ∧
    ∃ c, Steps session.image (.calling (session.request "stumble" []) []) c ∧
      c.slots ++ session.regions = [⟨20, 4⟩, ⟨16, 1⟩] ∧
      (c.slots ++ session.regions).Pairwise Region.Behind := by
  let i : Image := ⟨shelf, [("byte", 16)]⟩
  let s : State := { memory := ⟨Array.replicate 17 0, by decide⟩ }
  let entry : Block := stumbling.blocks.head (by decide)
  have hboot : boot shelf = .ok ⟨i, s⟩ := rfl
  have henter : Step i (.calling ⟨maxCallDepth, "stumble", [], s⟩ [])
      (.running (Entered.level ⟨511, stumbling, .start ⟨stumbling.signature, [], {}⟩ entry s⟩ 17) [] s) :=
    .enter ⟨rfl, rfl, rfl, entry, rfl, rfl⟩
  have hnone : ∀ frame, CallsNone i frame (.alloca .i32 4) := by
    rintro frame name values ⟨⟩
  have hslot (frame : Frame) : perform i idle frame (.ptr .i32) (.alloca .i32 4)
      ⟨⟨Array.replicate 17 0, by decide⟩, 1⟩ = .ok (.ptr 20) ⟨⟨Array.replicate 24 0, by decide⟩, 1⟩ := rfl
  have hsteps := (Relation.ReflTransGen.single henter).tail
    (.execute rfl (by decide) (hnone _) (hslot _))
  have hstumbles : (Session.run ⟨i, s⟩ "stumble" []).1 = .error .nullPointer := by cbv
  have hgoes : (Session.run ⟨i, s⟩ "stumble" []).1 ≠ .error .addressOverflow := by
    rw [hstumbles]
    simp
  obtain ⟨-, hsize, -, hmoments⟩ := run_restores (.boot hboot) "stumble" []
  refine ⟨⟨i, s⟩, hboot, .boot hboot, hstumbles, hsize hgoes, _, hsteps, rfl, (hmoments _ hsteps ?_).1⟩
  simp [Moment.Overflowed]

end Session

end Machine
end UnitCompiler
