import ContinuationIR.Handle

/-!
# Slot tables

A slot table gives out handles in order and keeps one cell for each handle ever given out. Removing
an entry empties its cell for good; the cell is never used again. What a table holds is seen through
`get?`, and each operation has one lemma that says what it does to that view.
-/

namespace ContinuationIR
set_option autoImplicit false

/-- A table of cells, one for each handle of `space` that was ever given out. -/
structure Slots (space : Space) (α : Type) where
  cells : Array (Option α)

namespace Slots

variable {space : Space} {α : Type}

/-- The table that has given out no handle. -/
def empty : Slots space α := ⟨#[]⟩

/-- The number of handles ever given out, live or not. -/
def size (t : Slots space α) : Nat := t.cells.size

/-- The handle that the next `push` gives out. -/
def next (t : Slots space α) : Handle space := ⟨t.size⟩

/-- The live entry of a handle. -/
def get? (t : Slots space α) (h : Handle space) : Option α := t.cells[h.index]?.join

/-- Whether the handle is live. -/
def contains (t : Slots space α) (h : Handle space) : Bool := (t.get? h).isSome

/-- Whether no handle was ever given out. -/
def isEmpty (t : Slots space α) : Bool := t.cells.isEmpty

/-- Gives out the next handle for an entry. -/
def push (t : Slots space α) (a : α) : Slots space α := ⟨t.cells.push (some a)⟩

/-- Changes a live entry and leaves a dead one dead. -/
def modify (t : Slots space α) (h : Handle space) (f : α → α) : Slots space α :=
  ⟨t.cells.modify h.index (Option.map f)⟩

/-- Empties the cell of a handle. -/
def remove (t : Slots space α) (h : Handle space) : Slots space α :=
  ⟨t.cells.setIfInBounds h.index none⟩

/-- The live entries with their handles, ascending. -/
def entries (t : Slots space α) : List (Handle space × α) :=
  t.cells.toList.zipIdx.filterMap fun (cell, i) => cell.map fun a => (⟨i⟩, a)

/-- The live handles, ascending. -/
def handles (t : Slots space α) : List (Handle space) := t.entries.map Prod.fst

/-! ## What each operation does to the view -/

@[simp] theorem get?_empty (h : Handle space) : (empty : Slots space α).get? h = none := by
  simp [empty, get?]

theorem contains_iff {t : Slots space α} {h : Handle space} :
    t.contains h = true ↔ ∃ a, t.get? h = some a := by
  simp [contains, Option.isSome_iff_exists]

/-- A handle that was not given out yet is dead. -/
theorem get?_eq_none_of_size_le {t : Slots space α} {h : Handle space} (le : t.size ≤ h.index) :
    t.get? h = none := by
  simp [get?, Array.getElem?_eq_none le]

/-- A live handle was given out. -/
theorem index_lt_size {t : Slots space α} {h : Handle space} {a : α} (live : t.get? h = some a) :
    h.index < t.size := by
  rcases Nat.lt_or_ge h.index t.size with lt | ge
  · exact lt
  · simp [get?_eq_none_of_size_le ge] at live

@[simp] theorem get?_next (t : Slots space α) : t.get? t.next = none :=
  get?_eq_none_of_size_le (Nat.le_refl _)

/-- The new handle reads back its entry and every other handle reads as before. -/
theorem get?_push (t : Slots space α) (a : α) (h : Handle space) :
    (t.push a).get? h = if h = t.next then some a else t.get? h := by
  by_cases eq : h = t.next
  · subst eq
    simp [push, get?, next, size]
  · have ne : h.index ≠ t.cells.size := fun e => eq (Handle.ext_index e)
    simp [push, get?, eq, Array.getElem?_push, ne]

@[simp] theorem get?_push_next (t : Slots space α) (a : α) : (t.push a).get? t.next = some a := by
  simp [get?_push]

theorem get?_push_of_ne {t : Slots space α} {h : Handle space} (a : α) (ne : h ≠ t.next) :
    (t.push a).get? h = t.get? h := by
  simp [get?_push, ne]

@[simp] theorem size_push (t : Slots space α) (a : α) : (t.push a).size = t.size + 1 := by
  simp [push, size]

theorem get?_modify (t : Slots space α) (h k : Handle space) (f : α → α) :
    (t.modify h f).get? k = if k = h then (t.get? k).map f else t.get? k := by
  by_cases eq : k = h
  · subst eq
    simp only [modify, get?, Array.getElem?_modify, if_true]
    cases t.cells[k.index]? with
    | none => rfl
    | some cell => cases cell <;> rfl
  · have ne : h.index ≠ k.index := fun e => eq (Handle.ext_index e.symm)
    simp [modify, get?, Array.getElem?_modify, ne, eq]

theorem get?_modify_self (t : Slots space α) (h : Handle space) (f : α → α) :
    (t.modify h f).get? h = (t.get? h).map f := by
  simp [get?_modify]

theorem get?_modify_of_ne {h k : Handle space} (t : Slots space α) (f : α → α) (ne : k ≠ h) :
    (t.modify h f).get? k = t.get? k := by
  simp [get?_modify, ne]

@[simp] theorem size_modify (t : Slots space α) (h : Handle space) (f : α → α) :
    (t.modify h f).size = t.size := by
  simp [modify, size]

@[simp] theorem contains_modify (t : Slots space α) (h k : Handle space) (f : α → α) :
    (t.modify h f).contains k = t.contains k := by
  by_cases eq : k = h <;> simp [contains, get?_modify, eq]

theorem get?_remove (t : Slots space α) (h k : Handle space) :
    (t.remove h).get? k = if k = h then none else t.get? k := by
  by_cases eq : k = h
  · subst eq
    by_cases lt : k.index < t.cells.size
    · simp [remove, get?, lt]
    · simp [remove, get?, Array.setIfInBounds, lt]
  · have ne : h.index ≠ k.index := fun e => eq (Handle.ext_index e.symm)
    simp [remove, get?, ne, eq]

@[simp] theorem size_remove (t : Slots space α) (h : Handle space) :
    (t.remove h).size = t.size := by
  simp [remove, size]

/-- Two tables are equal when they gave out equally many handles and read alike. -/
theorem ext_get? {s t : Slots space α} (sizes : s.size = t.size)
    (reads : ∀ h, s.get? h = t.get? h) : s = t := by
  obtain ⟨a⟩ := s
  obtain ⟨b⟩ := t
  simp only [size] at sizes
  congr 1
  apply Array.ext sizes
  intro i ha hb
  simpa [get?, ha, hb] using reads ⟨i⟩

theorem mem_entries {t : Slots space α} {h : Handle space} {a : α} :
    (h, a) ∈ t.entries ↔ t.get? h = some a := by
  simp only [entries, List.mem_filterMap, Prod.exists, List.mem_zipIdx_iff_getElem?,
    Option.map_eq_some_iff, Prod.mk.injEq, get?]
  constructor
  · rintro ⟨cell, i, at_i, b, rfl, rfl, rfl⟩
    simpa using congrArg Option.join at_i
  · intro read
    cases at_h : t.cells[h.index]? with
    | none => simp [at_h] at read
    | some cell =>
      refine ⟨some a, h.index, ?_, a, rfl, rfl, rfl⟩
      simpa [at_h] using read

theorem mem_handles {t : Slots space α} {h : Handle space} :
    h ∈ t.handles ↔ t.contains h = true := by
  rw [contains_iff]
  simp only [handles, List.mem_map, Prod.exists]
  constructor
  · rintro ⟨k, a, mem, rfl⟩
    exact ⟨a, mem_entries.1 mem⟩
  · rintro ⟨a, read⟩
    exact ⟨h, a, mem_entries.2 read, rfl⟩

end Slots

end ContinuationIR
