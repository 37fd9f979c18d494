/-!
# Tables

A table maps keys to values and keeps its keys in the order of their first insertion.
-/

namespace UnitCompiler

/-- Entries in the order their keys were first inserted. -/
structure Table (κ α : Type) where
  entries : List (κ × α) := []

namespace Table

variable {κ α : Type} [DecidableEq κ]

instance : Inhabited (Table κ α) := ⟨⟨[]⟩⟩

def empty : Table κ α := ⟨[]⟩

def get? (t : Table κ α) (k : κ) : Option α :=
  (t.entries.find? fun e => decide (e.1 = k)).map (·.2)

def contains (t : Table κ α) (k : κ) : Bool := (t.get? k).isSome

def insertEntry (k : κ) (a : α) : List (κ × α) → List (κ × α)
  | [] => [(k, a)]
  | e :: rest => if e.1 = k then (k, a) :: rest else e :: insertEntry k a rest

/-- The table with `k` bound to `a`; a bound key keeps its place. -/
def insert (t : Table κ α) (k : κ) (a : α) : Table κ α := ⟨insertEntry k a t.entries⟩

/-- The table with the value of `k`, or `start` when it has none, replaced by its image. -/
def update (t : Table κ α) (k : κ) (start : α) (f : α → α) : Table κ α :=
  t.insert k (f ((t.get? k).getD start))

def keys (t : Table κ α) : List κ := t.entries.map (·.1)

def values (t : Table κ α) : List α := t.entries.map (·.2)

def size (t : Table κ α) : Nat := t.entries.length

def isEmpty (t : Table κ α) : Bool := t.entries.isEmpty

@[simp] theorem get?_empty (k : κ) : (empty : Table κ α).get? k = none := rfl

theorem find?_insertEntry (k k' : κ) (a : α) (l : List (κ × α)) :
    ((insertEntry k a l).find? fun e => decide (e.1 = k')).map (·.2) =
      if k = k' then some a else (l.find? fun e => decide (e.1 = k')).map (·.2) := by
  induction l with
  | nil => by_cases h : k = k' <;> simp [insertEntry, h]
  | cons e rest ih =>
    by_cases he : e.1 = k
    · by_cases hk : k = k' <;> simp [insertEntry, he, hk]
    · by_cases hk : k = k'
      · subst hk
        simpa [insertEntry, he] using ih
      · by_cases hek : e.1 = k'
        · have hne : k' ≠ k := fun h => hk h.symm
          simp [insertEntry, hek, hk, hne]
        · simpa [insertEntry, he, hek, hk] using ih

/-- A look-up after an insertion finds the new value at its key and the old ones elsewhere. -/
theorem get?_insert (t : Table κ α) (k k' : κ) (a : α) :
    (t.insert k a).get? k' = if k = k' then some a else t.get? k' :=
  find?_insertEntry k k' a t.entries

theorem get?_insert_self (t : Table κ α) (k : κ) (a : α) : (t.insert k a).get? k = some a := by
  simp [get?_insert]

theorem get?_insert_of_ne (t : Table κ α) {k k' : κ} (a : α) (h : k ≠ k') :
    (t.insert k a).get? k' = t.get? k' := by
  simp [get?_insert, h]

end Table
end UnitCompiler
