/-!
# Arenas

An `Arena` stores values under numbers that are given out once: erasing a value leaves its number
unused for good. `get?` is the view on it; `add`, `modify` and `erase` change it at one number.
-/

namespace OffloadFusion

/-- Values stored under numbers that are never used twice. -/
structure Arena (α : Type) where
  cells : Array (Option α)

namespace Arena

variable {α : Type}

def empty : Arena α := ⟨#[]⟩

/-- The value under a number, unless it was erased or never stored. -/
def get? (a : Arena α) (i : Nat) : Option α := a.cells[i]?.join

/-- The number that the next value gets. -/
def next (a : Arena α) : Nat := a.cells.size

/-- Stores a value under the next number. -/
def add (a : Arena α) (x : α) : Arena α := ⟨a.cells.push (some x)⟩

/-- Changes the value under a number, if there is one. -/
def modify (a : Arena α) (i : Nat) (f : α → α) : Arena α := ⟨a.cells.modify i (Option.map f)⟩

/-- Erases the value under a number. -/
def erase (a : Arena α) (i : Nat) : Arena α := ⟨a.cells.setIfInBounds i none⟩

/-- The values in the order in which they were stored, with their numbers. -/
def entries (a : Arena α) : List (Nat × α) :=
  a.cells.toList.zipIdx.filterMap fun (cell, i) => cell.map (i, ·)

/-- The number of values. -/
def count (a : Arena α) : Nat := a.entries.length

/-! ## What each operation does to the view -/

@[simp] theorem get?_empty (i : Nat) : (empty : Arena α).get? i = none := by simp [empty, get?]

theorem get?_add (a : Arena α) (x : α) (i : Nat) :
    (a.add x).get? i = if i = a.next then some x else a.get? i := by
  by_cases h : i = a.cells.size <;> simp [get?, add, next, Array.getElem?_push, h]

theorem get?_modify (a : Arena α) (i j : Nat) (f : α → α) :
    (a.modify i f).get? j = if i = j then (a.get? j).map f else a.get? j := by
  simp only [get?, modify, Array.getElem?_modify]
  split
  · cases h : a.cells[j]? with
    | none => rfl
    | some cell => cases cell <;> rfl
  · rfl

theorem get?_erase (a : Arena α) (i j : Nat) :
    (a.erase i).get? j = if i = j then none else a.get? j := by
  simp only [get?, erase, Array.getElem?_setIfInBounds]
  split
  · split <;> rfl
  · rfl

end Arena

end OffloadFusion
