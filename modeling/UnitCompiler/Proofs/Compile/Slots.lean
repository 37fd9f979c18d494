import UnitCompiler.Proofs.Compile.Variables
import UnitCompiler.Proofs.Source.Statement

/-!
# The slots of a function

Every variable, every flag of a deferred assignment and the result of a function under emission has a
slot.  At run time a slot points to a cell of memory once it has been made, and the cells of different
slots do not overlap.
-/

namespace UnitCompiler
open Machine

/-- What a slot is for. -/
inductive Cell where
  | var (number : Nat)
  | flag (number : Nat)
  | result
deriving DecidableEq, Repr

structure Slot where
  cell : Cell
  operand : Operand
  kind : Scalar

/-- The numbers that the cells have for a store and a result. -/
def Store.cells (s : Store) (r : IntValue) : Cell → Option IntValue
  | .var n => s.value n
  | .flag n => some (.ofBool (s.reached n))
  | .result => some r

theorem Store.cells_set (s : Store) (r : IntValue) (n : Nat) (x : IntValue) :
    (s.set n x).cells r = Function.update (s.cells r) (.var n) (some x) := by
  funext cell
  cases cell with
  | var m =>
    by_cases h : m = n
    · subst h
      simp [cells, set]
    · simp [cells, set, h]
  | flag m => simp [cells, set]
  | result => simp [cells]

theorem Store.cells_mark (s : Store) (r : IntValue) (n : Nat) :
    (s.mark n).cells r = Function.update (s.cells r) (.flag n) (some (.ofBool true)) := by
  funext cell
  cases cell with
  | var m => simp [cells, mark]
  | flag m =>
    by_cases h : m = n
    · subst h
      simp [cells, mark]
    · simp [cells, mark, h]
  | result => simp [cells]

theorem Store.cells_result (s : Store) (r r' : IntValue) :
    s.cells r' = Function.update (s.cells r) .result (some r') := by
  funext cell
  cases cell <;> simp [cells]

/-- The slots point to cells with the given numbers, apart from each other. -/
structure Represents (i : Image) (slots : List Slot) (frame : Machine.Frame) (m : Memory)
    (ν : Cell → Option IntValue) : Prop where
  base : memoryBase ≤ m.size
  cell : ∀ slot ∈ slots, ∀ x, ν slot.cell = some x →
    x.kind = slot.kind ∧ Sees i frame m slot.operand x
  apart : ∀ slot ∈ slots, ∀ slot' ∈ slots, slot.cell ≠ slot'.cell → (ν slot.cell).isSome →
    (ν slot'.cell).isSome → ∀ a a', i.eval frame slot.operand = .ok (.ptr a) →
    i.eval frame slot'.operand = .ok (.ptr a') → Apart a slot.kind.bytes a' slot'.kind.bytes

/-- A slot is made before the registers from `lo` on or from `hi` on. -/
def Slot.Outside (lo hi : Nat) (slot : Slot) : Prop :=
  ∀ r, slot.operand = .register r → r < lo ∨ hi ≤ r

namespace Represents

variable {i : Image} {slots : List Slot} {frame frame' : Machine.Frame} {m m' : Memory}
  {ν : Cell → Option IntValue}

/-- Code that sets no register of a slot and stores to no old memory. -/
theorem keep (h : Represents i slots frame m ν) {lo hi : Nat} (hframe : Agrees lo hi frame frame')
    (hm : Grows m m') (hslots : ∀ slot ∈ slots, slot.Outside lo hi) :
    Represents i slots frame' m' ν := by
  have heval (slot : Slot) (hslot : slot ∈ slots) :
      i.eval frame' slot.operand = i.eval frame slot.operand := hframe.eval i (hslots slot hslot)
  refine ⟨h.base.trans hm.size, fun slot hslot x hx => ?_, ?_⟩
  · obtain ⟨hkind, a, ha, hholds⟩ := h.cell slot hslot x hx
    exact ⟨hkind, a, (heval slot hslot).trans ha, hm.holds hholds⟩
  · intro slot hslot slot' hslot' hne hsome hsome' a a' ha ha'
    rw [heval slot hslot] at ha
    rw [heval slot' hslot'] at ha'
    exact h.apart slot hslot slot' hslot' hne hsome hsome' a a' ha ha'

/-- A store into the cell of a slot changes no other cell. -/
theorem store (h : Represents i slots frame m ν) (hnodup : (slots.map (·.cell)).Nodup) {slot : Slot}
    (hslot : slot ∈ slots) (hsome : (ν slot.cell).isSome) {a : Nat} {x : IntValue}
    (ha : i.eval frame slot.operand = .ok (.ptr a)) (hkind : x.kind = slot.kind)
    (hsize : m'.size = m.size) (hholds : Holds m' a x)
    (hbytes : ∀ j, (j < a ∨ a + x.kind.bytes ≤ j) → m'.bytes[j]? = m.bytes[j]?) :
    Represents i slots frame m' (Function.update ν slot.cell (some x)) := by
  have hunique (slot' : Slot) (hslot' : slot' ∈ slots) (hcell : slot'.cell = slot.cell) :
      slot' = slot := List.inj_on_of_nodup_map hnodup hslot' hslot hcell
  have hdefined (cell : Cell) (hd : (Function.update ν slot.cell (some x) cell).isSome) :
      (ν cell).isSome := by
    by_cases hc : cell = slot.cell
    · rw [hc]
      exact hsome
    · rwa [Function.update_of_ne hc] at hd
  refine ⟨h.base.trans_eq hsize.symm, fun slot' hslot' y hy => ?_, ?_⟩
  · by_cases hc : slot'.cell = slot.cell
    · rw [hc, Function.update_self, Option.some.injEq] at hy
      subst hy
      rw [hunique slot' hslot' hc]
      exact ⟨hkind, a, ha, hholds⟩
    · rw [Function.update_of_ne hc] at hy
      obtain ⟨hkind', a', ha', hholds'⟩ := h.cell slot' hslot' y hy
      have hapart := h.apart slot' hslot' slot hslot hc (by rw [hy]; rfl) hsome a' a ha' ha
      refine ⟨hkind', a', ha', hholds'.of_sameBytes (hholds'.access.2.trans_eq hsize.symm) ?_⟩
      intro j hj hj'
      refine hbytes j ?_
      rw [hkind]
      rw [hkind'] at hj'
      unfold Apart at hapart
      omega
  · intro slot₁ h₁ slot₂ h₂ hne hsome₁ hsome₂ a₁ a₂ ha₁ ha₂
    exact h.apart slot₁ h₁ slot₂ h₂ hne (hdefined _ hsome₁) (hdefined _ hsome₂) a₁ a₂ ha₁ ha₂

/-- A new cell behind all memory for a slot, while the other slots stay as they are. -/
theorem make (h : Represents i slots frame m ν) (hnodup : (slots.map (·.cell)).Nodup) {slot : Slot}
    (hslot : slot ∈ slots) {a : Nat} {x : IntValue}
    (hothers : ∀ slot' ∈ slots, slot'.cell ≠ slot.cell →
      i.eval frame' slot'.operand = i.eval frame slot'.operand)
    (ha : i.eval frame' slot.operand = .ok (.ptr a)) (hkind : x.kind = slot.kind)
    (hgrows : Grows m m') (hle : m.size ≤ a) (hholds : Holds m' a x) :
    Represents i slots frame' m' (Function.update ν slot.cell (some x)) := by
  have hunique (slot' : Slot) (hslot' : slot' ∈ slots) (hcell : slot'.cell = slot.cell) :
      slot' = slot := List.inj_on_of_nodup_map hnodup hslot' hslot hcell
  -- the cells that were there before end where the new one starts
  have hold (slot' : Slot) (hslot' : slot' ∈ slots) (hc : slot'.cell ≠ slot.cell)
      (hsome : (ν slot'.cell).isSome) (a' : Nat)
      (ha' : i.eval frame' slot'.operand = .ok (.ptr a')) : a' + slot'.kind.bytes ≤ a := by
    obtain ⟨y, hy⟩ := Option.isSome_iff_exists.mp hsome
    obtain ⟨hkind', a'', ha'', hholds'⟩ := h.cell slot' hslot' y hy
    rw [hothers slot' hslot' hc, ha''] at ha'
    cases ha'
    rw [← hkind']
    exact hholds'.access.2.trans hle
  refine ⟨h.base.trans hgrows.size, fun slot' hslot' y hy => ?_, ?_⟩
  · by_cases hc : slot'.cell = slot.cell
    · rw [hc, Function.update_self, Option.some.injEq] at hy
      subst hy
      rw [hunique slot' hslot' hc]
      exact ⟨hkind, a, ha, hholds⟩
    · rw [Function.update_of_ne hc] at hy
      obtain ⟨hkind', a', ha', hholds'⟩ := h.cell slot' hslot' y hy
      exact ⟨hkind', a', (hothers slot' hslot' hc).trans ha', hgrows.holds hholds'⟩
  · intro slot₁ h₁ slot₂ h₂ hne hsome₁ hsome₂ a₁ a₂ ha₁ ha₂
    by_cases hc₁ : slot₁.cell = slot.cell
    · have hc₂ : slot₂.cell ≠ slot.cell := fun hc => hne (hc₁.trans hc.symm)
      rw [hunique slot₁ h₁ hc₁, ha] at ha₁
      cases ha₁
      rw [Function.update_of_ne hc₂] at hsome₂
      exact Or.inr (hold slot₂ h₂ hc₂ hsome₂ a₂ ha₂)
    · rw [Function.update_of_ne hc₁] at hsome₁
      by_cases hc₂ : slot₂.cell = slot.cell
      · rw [hunique slot₂ h₂ hc₂, ha] at ha₂
        cases ha₂
        exact Or.inl (hold slot₁ h₁ hc₁ hsome₁ a₁ ha₁)
      · rw [Function.update_of_ne hc₂] at hsome₂
        rw [hothers slot₁ h₁ hc₁] at ha₁
        rw [hothers slot₂ h₂ hc₂] at ha₂
        exact h.apart slot₁ h₁ slot₂ h₂ hne hsome₁ hsome₂ a₁ a₂ ha₁ ha₂

end Represents
end UnitCompiler
