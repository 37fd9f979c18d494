import Mathlib
import UnitCompiler.Table

/-!
# Tables with other keys and values

Replacing every value of a table, or every key by an injective function, commutes with looking up and
inserting.
-/

namespace UnitCompiler
namespace Table

variable {κ κ' α β : Type} [DecidableEq κ] [DecidableEq κ']

def mapValues (f : α → β) (t : Table κ α) : Table κ β := ⟨t.entries.map fun e => (e.1, f e.2)⟩

def mapKeys (g : κ → κ') (t : Table κ α) : Table κ' α := ⟨t.entries.map fun e => (g e.1, e.2)⟩

/-- Every value that can be looked up has a property. -/
def All (P : α → Prop) (t : Table κ α) : Prop := ∀ k a, t.get? k = some a → P a

theorem all_empty {P : α → Prop} : All P ({} : Table κ α) := nofun

theorem All.insert {P : α → Prop} {t : Table κ α} (h : t.All P) (k : κ) {a : α} (ha : P a) :
    (t.insert k a).All P := by
  intro k' a' hget
  rw [get?_insert] at hget
  split_ifs at hget
  · cases hget
    exact ha
  · exact h k' a' hget

section Values

variable (f : α → β) (t : Table κ α)

@[simp] theorem get?_mapValues (k : κ) : (t.mapValues f).get? k = (t.get? k).map f := by
  simp [get?, mapValues, List.find?_map, Function.comp_def, Option.map_map]

@[simp] theorem contains_mapValues (k : κ) : (t.mapValues f).contains k = t.contains k := by
  simp [contains]

omit [DecidableEq κ] in
@[simp] theorem size_mapValues : (t.mapValues f).size = t.size := by
  simp [size, mapValues]

omit [DecidableEq κ] in
@[simp] theorem values_mapValues : (t.mapValues f).values = t.values.map f := by
  simp [values, mapValues]

theorem mapValues_insert (k : κ) (a : α) :
    (t.insert k a).mapValues f = (t.mapValues f).insert k (f a) := by
  obtain ⟨entries⟩ := t
  simp only [insert, mapValues, mk.injEq]
  induction entries with
  | nil => rfl
  | cons e rest ih =>
    simp only [insertEntry, List.map_cons]
    split_ifs
    · rfl
    · rw [List.map_cons, ih]

end Values

section Keys

variable {g : κ → κ'} (hg : Function.Injective g) (t : Table κ α)

include hg

theorem get?_mapKeys (k : κ) : (t.mapKeys g).get? (g k) = t.get? k := by
  simp [get?, mapKeys, List.find?_map, Function.comp_def, Option.map_map, hg.eq_iff]

theorem mapKeys_insert (k : κ) (a : α) :
    (t.insert k a).mapKeys g = (t.mapKeys g).insert (g k) a := by
  obtain ⟨entries⟩ := t
  simp only [insert, mapKeys, mk.injEq]
  induction entries with
  | nil => rfl
  | cons e rest ih =>
    simp only [insertEntry, List.map_cons, hg.eq_iff]
    split_ifs
    · rfl
    · rw [List.map_cons, ih]

end Keys

end Table
end UnitCompiler
