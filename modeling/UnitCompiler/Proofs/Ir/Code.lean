import Mathlib.Data.List.Nodup
import Mathlib.Data.Nat.Basic
import Mathlib.Logic.Function.Basic
import Mathlib.Order.Basic
import UnitCompiler.Ir.Builder

/-!
# The code of a function under construction

What a builder has written so far, seen as code: the instructions of each block and how it ends.  A
builder only adds to open blocks, so that the code of a finished function extends the code at every
moment before, and a place in the code keeps its instruction.  The slots at the head of the entry block
are kept apart from the rest of that block, since they are put before what is already there.
-/

namespace UnitCompiler

/-- A point of the code: a block and how many of its instructions lie before. -/
structure Point where
  block : Nat
  index : Nat

def Point.next (p : Point) : Point := ⟨p.block, p.index + 1⟩

structure Code where
  /-- The slots at the head of the entry block. -/
  head : List Instruction
  /-- The instructions of a block, in the entry block without the head. -/
  body : Nat → List Instruction
  ending : Nat → Option Terminator

namespace Code

def append (c : Code) (id : Nat) (i : Instruction) : Code :=
  { c with body := Function.update c.body id (c.body id ++ [i]) }

def setEnding (c : Code) (id : Nat) (t : Terminator) : Code :=
  { c with ending := Function.update c.ending id (some t) }

def addHead (c : Code) (more : List Instruction) : Code := { c with head := c.head ++ more }

/-- Later code: open blocks may have grown or ended, ended ones are the same, and slots with numbers
from `n` on may have been added. -/
structure Extends (n : Nat) (c c' : Code) : Prop where
  body : ∀ id, c.body id <+: c'.body id
  ending : ∀ id t, c.ending id = some t → c'.ending id = some t ∧ c'.body id = c.body id
  head : ∃ more, c'.head = c.head ++ more ∧ ∀ i ∈ more, n ≤ i.id

namespace Extends

variable {n m : Nat} {c c₁ c₂ : Code}

theorem refl (n : Nat) (c : Code) : Extends n c c :=
  ⟨fun _ => List.prefix_refl _, fun _ _ h => ⟨h, rfl⟩, [], by simp, by simp⟩

theorem trans (h : Extends n c c₁) (h' : Extends m c₁ c₂) (hnm : n ≤ m) : Extends n c c₂ := by
  refine ⟨fun id => (h.body id).trans (h'.body id), fun id t ht => ?_, ?_⟩
  · obtain ⟨ht₁, hb₁⟩ := h.ending id t ht
    obtain ⟨ht₂, hb₂⟩ := h'.ending id t ht₁
    exact ⟨ht₂, hb₂.trans hb₁⟩
  · obtain ⟨more₁, he₁, hm₁⟩ := h.head
    obtain ⟨more₂, he₂, hm₂⟩ := h'.head
    refine ⟨more₁ ++ more₂, by rw [he₂, he₁, List.append_assoc], fun i hi => ?_⟩
    rcases List.mem_append.mp hi with hi | hi
    · exact hm₁ i hi
    · exact hnm.trans (hm₂ i hi)

theorem append (n : Nat) {id : Nat} (h : c.ending id = none) (i : Instruction) :
    Extends n c (c.append id i) := by
  refine ⟨fun id' => ?_, fun id' t ht => ⟨ht, ?_⟩, [], by simp [Code.append], by simp⟩
  · by_cases hid : id' = id
    · subst hid
      simp [Code.append]
    · simp [Code.append, hid]
  · have hid : id' ≠ id := by
      rintro rfl
      rw [h] at ht
      cases ht
    simp [Code.append, hid]

theorem setEnding (n : Nat) {id : Nat} (h : c.ending id = none) (t : Terminator) :
    Extends n c (c.setEnding id t) := by
  refine ⟨fun id' => List.prefix_refl _, fun id' t' ht => ⟨?_, rfl⟩, [], by simp [Code.setEnding],
    by simp⟩
  have hid : id' ≠ id := by
    rintro rfl
    rw [h] at ht
    cases ht
  simp [Code.setEnding, hid, ht]

theorem addHead {more : List Instruction} (hm : ∀ i ∈ more, n ≤ i.id) (c : Code) :
    Extends n c (c.addHead more) :=
  ⟨fun _ => List.prefix_refl _, fun _ _ h => ⟨h, rfl⟩, more, rfl, hm⟩

/-- An instruction keeps its place. -/
theorem getElem? (h : Extends n c c₁) {id index : Nat} {i : Instruction}
    (hi : (c.body id)[index]? = some i) : (c₁.body id)[index]? = some i := by
  obtain ⟨rest, hrest⟩ := h.body id
  have hlt : index < (c.body id).length := (List.getElem?_eq_some_iff.mp hi).1
  rw [← hrest, List.getElem?_append_left hlt, hi]

end Extends
end Code

namespace IrFunction

/-- The instructions of a block; a block that is not there has none. -/
def instructionsOf (f : IrFunction) (id : Nat) : List Instruction :=
  ((f.block? id).map (·.instructions)).getD []

def endingOf (f : IrFunction) (id : Nat) : Option Terminator := (f.block? id).bind (·.terminator)

/-- The code of a function whose entry block starts with `entry` slot instructions. -/
def code (f : IrFunction) (entry : Nat) : Code where
  head := (f.instructionsOf 0).take entry
  body id := (f.instructionsOf id).drop (if id = 0 then entry else 0)
  ending := f.endingOf

theorem id_of_block? {f : IrFunction} {id : Nat} {b : Block} (h : f.block? id = some b) :
    b.id = id := by
  simpa using List.find?_some h

section Modify

variable (f : IrFunction) (id : Nat) {g : Block → Block}

theorem block?_modifyBlock (hg : ∀ b, (g b).id = b.id) (id' : Nat) :
    (f.modifyBlock id g).block? id' =
      if id' = id then (f.block? id').map g else f.block? id' := by
  have hcomp : ((fun b : Block => b.id == id') ∘ fun b => if b.id == id then g b else b) =
      fun b => b.id == id' := by
    funext b
    simp only [Function.comp]
    split_ifs
    · rw [hg]
    · rfl
  rw [block?, modifyBlock, List.find?_map, hcomp]
  change (f.block? id').map _ = _
  cases hb : f.block? id' with
  | none => simp
  | some b =>
    have hid := id_of_block? hb
    by_cases h : id' = id
    · simp [h, hid]
    · simp [h, hid]

theorem map_id_modifyBlock (hg : ∀ b, (g b).id = b.id) :
    (f.modifyBlock id g).blocks.map (·.id) = f.blocks.map (·.id) := by
  rw [modifyBlock, List.map_map]
  refine List.map_congr_left fun b _ => ?_
  simp only [Function.comp]
  split_ifs
  · rw [hg]
  · rfl

theorem instructionsOf_modifyBlock_of_same (hid : ∀ b, (g b).id = b.id)
    (hinstr : ∀ b, (g b).instructions = b.instructions) :
    (f.modifyBlock id g).instructionsOf = f.instructionsOf := by
  funext id'
  rw [instructionsOf, block?_modifyBlock f id hid, instructionsOf]
  split_ifs
  · cases f.block? id' <;> simp [hinstr]
  · rfl

theorem endingOf_modifyBlock_of_same (hid : ∀ b, (g b).id = b.id)
    (hterm : ∀ b, (g b).terminator = b.terminator) :
    (f.modifyBlock id g).endingOf = f.endingOf := by
  funext id'
  rw [endingOf, block?_modifyBlock f id hid, endingOf]
  split_ifs
  · cases f.block? id' <;> simp [hterm]
  · rfl

end Modify

end IrFunction

end UnitCompiler
