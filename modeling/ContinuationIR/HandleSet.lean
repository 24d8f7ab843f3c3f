import ContinuationIR.Handle

/-!
# Ascending sets of handles

A set of handles of one space is kept as its strictly ascending list, so that a set has one
representation only: two sets with the same members are equal.
-/

namespace ContinuationIR
set_option autoImplicit false

/-- A finite set of handles, listed in strictly ascending order. -/
structure HandleSet (space : Space) where
  toList : List (Handle space)
  ascending : toList.Pairwise fun a b => a.index < b.index

namespace HandleSet

variable {space : Space}

/-- Puts a handle at its place in an ascending list, unless it is there already. -/
def insertList (h : Handle space) : List (Handle space) → List (Handle space)
  | [] => [h]
  | k :: rest =>
    if h.index < k.index then h :: k :: rest
    else if h = k then k :: rest
    else k :: insertList h rest

theorem mem_insertList {h k : Handle space} {l : List (Handle space)} :
    k ∈ insertList h l ↔ k = h ∨ k ∈ l := by
  induction l with
  | nil => simp [insertList]
  | cons a rest ih =>
    simp only [insertList]
    split
    · simp
    · split
      · next eq => subst eq; simp
      · simp only [List.mem_cons, ih]
        constructor
        · rintro (rfl | rfl | mem)
          · exact .inr (.inl rfl)
          · exact .inl rfl
          · exact .inr (.inr mem)
        · rintro (rfl | rfl | mem)
          · exact .inr (.inl rfl)
          · exact .inl rfl
          · exact .inr (.inr mem)

theorem insertList_ascending (h : Handle space) {l : List (Handle space)}
    (asc : l.Pairwise fun a b => a.index < b.index) :
    (insertList h l).Pairwise fun a b => a.index < b.index := by
  induction l with
  | nil => simp [insertList]
  | cons a rest ih =>
    obtain ⟨head, tail⟩ := List.pairwise_cons.1 asc
    simp only [insertList]
    split
    · next lt =>
      refine List.pairwise_cons.2 ⟨?_, asc⟩
      intro b mem
      rcases List.mem_cons.1 mem with rfl | mem
      · exact lt
      · exact Nat.lt_trans lt (head b mem)
    · split
      · exact asc
      · next notLt ne =>
        refine List.pairwise_cons.2 ⟨?_, ih tail⟩
        intro b mem
        rcases mem_insertList.1 mem with rfl | mem
        · have differ : b.index ≠ a.index := fun e => ne (Handle.ext_index e)
          omega
        · exact head b mem

/-- The set without members. -/
def empty : HandleSet space := ⟨[], .nil⟩

/-- The set with one more member. -/
def insert (s : HandleSet space) (h : Handle space) : HandleSet space :=
  ⟨insertList h s.toList, insertList_ascending h s.ascending⟩

/-- The set without the handle. -/
def erase (s : HandleSet space) (h : Handle space) : HandleSet space :=
  ⟨s.toList.filter (· ≠ h), s.ascending.filter _⟩

/-- Whether the handle is a member. -/
def contains (s : HandleSet space) (h : Handle space) : Bool := s.toList.contains h

/-- The number of members. -/
def size (s : HandleSet space) : Nat := s.toList.length

/-- Whether there is no member. -/
def isEmpty (s : HandleSet space) : Bool := s.toList.isEmpty

/-- The set of the handles of a list. -/
def ofList (l : List (Handle space)) : HandleSet space := l.foldl insert empty

/-- The set without the handles of a list. -/
def eraseAll (s : HandleSet space) (l : List (Handle space)) : HandleSet space := l.foldl erase s

instance : Membership (Handle space) (HandleSet space) := ⟨fun s h => h ∈ s.toList⟩

instance : DecidableEq (HandleSet space) := fun a b =>
  decidable_of_iff (a.toList = b.toList)
    ⟨fun h => by cases a; cases b; simp_all, fun h => congrArg toList h⟩

theorem mem_def {s : HandleSet space} {h : Handle space} : h ∈ s ↔ h ∈ s.toList := Iff.rfl

@[simp] theorem not_mem_empty (h : Handle space) : h ∉ (empty : HandleSet space) := by
  simp [mem_def, empty]

@[simp] theorem mem_insert {s : HandleSet space} {h k : Handle space} :
    k ∈ s.insert h ↔ k = h ∨ k ∈ s :=
  mem_insertList

@[simp] theorem mem_erase {s : HandleSet space} {h k : Handle space} :
    k ∈ s.erase h ↔ k ≠ h ∧ k ∈ s := by
  simp [mem_def, erase, and_comm]

theorem mem_foldl_insert {s : HandleSet space} {l : List (Handle space)} {h : Handle space} :
    h ∈ l.foldl insert s ↔ h ∈ l ∨ h ∈ s := by
  induction l generalizing s with
  | nil => simp
  | cons k rest ih =>
    rw [List.foldl_cons, ih, mem_insert, List.mem_cons]
    grind

@[simp] theorem mem_ofList {l : List (Handle space)} {h : Handle space} :
    h ∈ ofList l ↔ h ∈ l := by
  simp [ofList, mem_foldl_insert]

@[simp] theorem mem_eraseAll {s : HandleSet space} {l : List (Handle space)} {h : Handle space} :
    h ∈ s.eraseAll l ↔ h ∉ l ∧ h ∈ s := by
  unfold eraseAll
  induction l generalizing s with
  | nil => simp
  | cons k rest ih =>
    rw [List.foldl_cons, ih, mem_erase, List.mem_cons]
    grind

@[simp] theorem contains_iff_mem {s : HandleSet space} {h : Handle space} :
    s.contains h = true ↔ h ∈ s := by
  simp [contains, mem_def]

/-- Sets with the same members are equal. -/
theorem ext_mem {s t : HandleSet space} (same : ∀ h, h ∈ s ↔ h ∈ t) : s = t := by
  obtain ⟨a, ascA⟩ := s
  obtain ⟨b, ascB⟩ := t
  congr 1
  simp only [mem_def] at same
  induction a generalizing b with
  | nil =>
    cases b with
    | nil => rfl
    | cons y ys => exact absurd ((same y).2 List.mem_cons_self) (by simp)
  | cons x xs ih =>
    cases b with
    | nil => exact absurd ((same x).1 List.mem_cons_self) (by simp)
    | cons y ys =>
      obtain ⟨headA, tailA⟩ := List.pairwise_cons.1 ascA
      obtain ⟨headB, tailB⟩ := List.pairwise_cons.1 ascB
      have heads : x = y := by
        rcases List.mem_cons.1 ((same x).1 List.mem_cons_self) with eq | below
        · exact eq
        · rcases List.mem_cons.1 ((same y).2 List.mem_cons_self) with eq | above
          · exact eq.symm
          · have := headA y above
            have := headB x below
            omega
      subst heads
      congr 1
      refine ih tailA ys tailB fun h => ?_
      constructor
      · intro mem
        rcases List.mem_cons.1 ((same h).1 (List.mem_cons_of_mem _ mem)) with rfl | mem'
        · exact absurd (headA h mem) (Nat.lt_irrefl _)
        · exact mem'
      · intro mem
        rcases List.mem_cons.1 ((same h).2 (List.mem_cons_of_mem _ mem)) with rfl | mem'
        · exact absurd (headB h mem) (Nat.lt_irrefl _)
        · exact mem'

end HandleSet

end ContinuationIR
