import ContinuationIR.Interning

/-!
# Numbering strings

Interning keeps two tables, the strings by number and the numbers by string. A call either finds its
string or adds it to both, so a run of calls takes nothing back, and after it the strings by number
are the distinct strings of the run in the order in which they first came. The two tables stay
inverse to each other until the numbers are used up.
-/

namespace ContinuationIR.Interning
set_option autoImplicit false

variable {t u v : Interning} {seen strings : List String} {value : String} {index : Nat}

/-- Interns strings one after the other and collects the answers. -/
def internAll (t : Interning) : List String → Interning × List Nat
  | [] => (t, [])
  | value :: rest =>
    let first := t.intern value
    let later := first.1.internAll rest
    (later.1, first.2 :: later.2)

/-! ## One call -/

/-- A string that has a number keeps it, and a new one gets the next. -/
theorem intern_cases (t : Interning) (value : String) :
    (∃ index, t.lookup value = some index ∧ t.intern value = (t, index)) ∨
      t.lookup value = none ∧ t.intern value =
        (⟨t.byIndex.push value, t.byValue.insert value (t.byIndex.size % capacity)⟩,
          t.byIndex.size % capacity) := by
  cases known : t.lookup value with
  | some index => exact .inl ⟨index, rfl, by rw [intern, known]⟩
  | none => exact .inr ⟨rfl, by rw [intern, known]⟩

/-- Pushing a string answers for the new number and leaves the others alone. -/
theorem get?_push (t : Interning) (value : String) (numbers : Std.HashMap String Nat)
    (index : Nat) : get? ⟨t.byIndex.push value, numbers⟩ index =
      if index = t.byIndex.size then some value else t.get? index := by
  simp only [get?, Array.getElem?_push]

/-- Recording a number is read back at its string and nowhere else. -/
theorem lookup_insert (t : Interning) (strings : Array String) (value s : String) (index : Nat) :
    lookup ⟨strings, t.byValue.insert value index⟩ s =
      if value = s then some index else t.lookup s := by
  simp only [lookup, Std.HashMap.getElem?_insert, beq_iff_eq]

/-- The number a call answers is the one that is looked up afterwards. -/
theorem lookup_intern (t : Interning) (value : String) :
    (t.intern value).1.lookup value = some (t.intern value).2 := by
  rcases t.intern_cases value with ⟨index, known, call⟩ | ⟨-, call⟩
  · rw [call, known]
  · rw [call, lookup_insert, if_pos rfl]

/-- Everything that one table knows another one knows as well. -/
structure Extends (t u : Interning) : Prop where
  get : ∀ {index value}, t.get? index = some value → u.get? index = some value
  lookup : ∀ {index value}, t.lookup value = some index → u.lookup value = some index

theorem Extends.refl (t : Interning) : Extends t t := ⟨id, id⟩

theorem Extends.trans (one : Extends t u) (two : Extends u v) : Extends t v :=
  ⟨two.get ∘ one.get, two.lookup ∘ one.lookup⟩

/-- A call takes nothing back. -/
theorem extends_intern (t : Interning) (value : String) : Extends t (t.intern value).1 := by
  rcases t.intern_cases value with ⟨index, -, call⟩ | ⟨new, call⟩
  · rw [call]
    exact .refl t
  · rw [call]
    refine ⟨fun {i s} found => ?_, fun {i s} known => ?_⟩
    · have inside : i < t.byIndex.size := (Array.getElem?_eq_some_iff.1 found).1
      rw [get?_push, if_neg (Nat.ne_of_lt inside)]
      exact found
    · rw [lookup_insert, if_neg, known]
      rintro rfl
      rw [new] at known
      cases known

/-! ## Runs of calls -/

/-- A run of calls forgets no number and moves none. -/
theorem extends_internAll (t : Interning) (strings : List String) :
    Extends t (t.internAll strings).1 := by
  induction strings generalizing t with
  | nil => exact .refl t
  | cons value rest ih => exact (t.extends_intern value).trans (ih _)

/-- Each call answers the number that its string has in the end. -/
theorem answers_internAll (t : Interning) (strings : List String) :
    (t.internAll strings).2.map some = strings.map (t.internAll strings).1.lookup := by
  induction strings generalizing t with
  | nil => rfl
  | cons value rest ih =>
    have first := (extends_internAll (t.intern value).1 rest).lookup (t.lookup_intern value)
    rw [internAll, List.map_cons, List.map_cons, first, ih]

/-! ## The order of first insertion -/

/-- A string seen before adds nothing to the list of first insertions, and a new one goes last. -/
theorem eraseDups_concat (seen : List String) (value : String) :
    (seen ++ [value]).eraseDups =
      if value ∈ seen then seen.eraseDups else seen.eraseDups ++ [value] := by
  rw [List.eraseDups_append]
  by_cases mem : value ∈ seen
  · simp [List.removeAll, mem]
  · simp [List.removeAll, mem, List.eraseDups_cons]

/-- The table has the strings that were seen, in the order in which they first came, and finds the
number of each of them. -/
structure Numbers (t : Interning) (seen : List String) : Prop where
  listed : t.byIndex.toList = seen.eraseDups
  inverse : ∀ {index value}, t.get? index = some value ↔ t.lookup value = some index

theorem numbers_empty : Numbers empty [] :=
  ⟨rfl, by simp [get?, lookup, empty]⟩

/-- A table knows exactly the strings that were inserted. -/
theorem Numbers.mem_iff (n : Numbers t seen) :
    value ∈ seen ↔ ∃ index, t.lookup value = some index := by
  rw [← List.mem_eraseDups, ← n.listed, List.mem_iff_getElem?]
  simp only [← n.inverse, get?, Array.getElem?_toList]

/-- A call numbers one more string, if there is a number left for it. The next number belongs to the
new string only, and the new string has no other number. -/
theorem Numbers.intern (n : Numbers t seen) (room : (seen ++ [value]).eraseDups.length ≤ capacity) :
    Numbers (t.intern value).1 (seen ++ [value]) := by
  rw [eraseDups_concat] at room
  rcases t.intern_cases value with ⟨index, known, call⟩ | ⟨new, call⟩
  · rw [call]
    refine ⟨?_, n.inverse⟩
    rw [eraseDups_concat, if_pos (n.mem_iff.2 ⟨index, known⟩), n.listed]
  · have absent : value ∉ seen := fun mem => by simpa [new] using n.mem_iff.1 mem
    rw [if_neg absent, List.length_append, ← n.listed, Array.length_toList] at room
    have next : t.byIndex.size % capacity = t.byIndex.size := Nat.mod_eq_of_lt room
    rw [call, next]
    refine ⟨?_, fun {i s} => ?_⟩
    · rw [Array.toList_push, n.listed, eraseDups_concat, if_neg absent]
    · have outside : t.get? t.byIndex.size = none := Array.getElem?_size
      rw [get?_push, lookup_insert]
      by_cases last : i = t.byIndex.size
      · subst last
        rw [if_pos rfl]
        by_cases same : value = s
        · simp [same]
        · simp [same, ← n.inverse, outside]
      · rw [if_neg last, n.inverse]
        by_cases same : value = s
        · subst same
          simp [new, Ne.symm last]
        · rw [if_neg same]

/-- A run of calls within the capacity numbers the strings by first insertion. -/
theorem Numbers.internAll (n : Numbers t seen)
    (room : (seen ++ strings).eraseDups.length ≤ capacity) :
    Numbers (t.internAll strings).1 (seen ++ strings) := by
  induction strings generalizing t seen with
  | nil => simpa [Interning.internAll] using n
  | cons value rest ih =>
    rw [List.append_cons] at room ⊢
    have longer : (seen ++ [value] ++ rest).eraseDups =
        (seen ++ [value]).eraseDups ++ (rest.removeAll (seen ++ [value])).eraseDups :=
      List.eraseDups_append
    have enough : (seen ++ [value]).eraseDups.length ≤ capacity := by
      rw [longer, List.length_append] at room
      omega
    exact ih (n.intern enough) room

/-- What calls for the strings, made one after the other on the empty table, leave and answer. -/
structure Bijective (strings : List String) (t : Interning) (answers : List Nat) : Prop where
  inverse : ∀ index value, t.get? index = some value ↔ t.lookup value = some index
  /-- The numbers are given out in the order in which the strings first came. -/
  ordered : ∀ index, t.get? index = strings.eraseDups[index]?
  dense : ∀ index, index ∈ answers ↔ index < strings.eraseDups.length
  answered : answers.map some = strings.map t.lookup
  /-- Two calls answer the same number just if they are for the same string. -/
  same : ∀ {i j : Nat} {one two number other}, strings[i]? = some one → strings[j]? = some two →
    answers[i]? = some number → answers[j]? = some other → (number = other ↔ one = two)
  stable : ∀ index value, t.get? index = some value →
    ∀ more, (t.internAll more).1.get? index = some value

/-- A number reads back as the string inserted in that place, counting first insertions only. -/
theorem Numbers.get?_eq (n : Numbers t seen) (index : Nat) :
    t.get? index = seen.eraseDups[index]? := by
  rw [get?, ← n.listed, Array.getElem?_toList]

section Answers

variable {answers : List Nat}

/-- The numbers given out are an initial segment: none is skipped. -/
theorem Numbers.dense (n : Numbers t seen) (answered : answers.map some = seen.map t.lookup) :
    index ∈ answers ↔ index < seen.eraseDups.length := by
  have listed : index ∈ answers ↔ ∃ value ∈ seen, t.lookup value = some index := by
    rw [← List.mem_map, ← answered]
    simp
  rw [listed]
  simp only [← n.inverse, n.get?_eq]
  constructor
  · rintro ⟨value, -, found⟩
    exact (List.getElem?_eq_some_iff.1 found).1
  · intro inside
    have found := List.getElem?_eq_getElem inside
    exact ⟨_, List.mem_eraseDups.1 (List.mem_of_getElem? found), found⟩

/-- The answer of each call of a run is still the number of its string at the end. -/
theorem lookup_of_answer (answered : answers.map some = strings.map t.lookup) {i : Nat}
    (call : strings[i]? = some value) (answer : answers[i]? = some index) :
    t.lookup value = some index := by
  have here : (answers.map some)[i]? = (strings.map t.lookup)[i]? := by rw [answered]
  rw [List.getElem?_map, List.getElem?_map, call, answer] at here
  exact (Option.some.inj here).symm

/-- Different strings have different numbers. -/
theorem Numbers.lookup_inj (n : Numbers t seen) {other : String} {number : Nat}
    (one : t.lookup value = some index) (two : t.lookup other = some number) :
    index = number ↔ value = other := by
  constructor
  · rintro rfl
    rw [← n.inverse] at one two
    exact Option.some.inj (one.symm.trans two)
  · rintro rfl
    exact Option.some.inj (one.symm.trans two)

end Answers

/-- Interning numbers the strings. As long as there are fewer strings than numbers, the two directions
of the table are inverse to each other, the numbers follow the order of first insertion without gaps,
calls answer the same number just for the same string, and no later call changes the string of a
number. -/
theorem interning_bijective (strings : List String) (few : strings.eraseDups.length < capacity) :
    Bijective strings (empty.internAll strings).1 (empty.internAll strings).2 := by
  have n : Numbers (empty.internAll strings).1 strings :=
    numbers_empty.internAll (Nat.le_of_lt few)
  have answered := answers_internAll empty strings
  constructor
  case inverse => exact fun _ _ => n.inverse
  case ordered => exact n.get?_eq
  case dense => exact fun _ => n.dense answered
  case answered => exact answered
  case same =>
    intro i j one two number other call call' answer answer'
    have first := lookup_of_answer answered call answer
    have second := lookup_of_answer answered call' answer'
    exact n.lookup_inj first second
  case stable => exact fun _ _ found more => (extends_internAll _ more).get found

/-- The third call is for the first string again. -/
theorem interning_k_x_k : ["k", "x", "k"].eraseDups.length < capacity ∧
    (empty.internAll ["k", "x", "k"]).2 = [0, 1, 0] ∧
    ∀ more, ((empty.internAll ["k", "x", "k"]).1.internAll more).1.get? 1 = some "x" := by
  have distinct : ["k", "x", "k"].eraseDups = ["k", "x"] := by decide
  have few : ["k", "x", "k"].eraseDups.length < capacity := by
    rw [distinct]
    decide
  have table := interning_bijective ["k", "x", "k"] few
  have k : (empty.internAll ["k", "x", "k"]).1.get? 0 = some "k" := by
    rw [table.ordered, distinct]
    rfl
  have x : (empty.internAll ["k", "x", "k"]).1.get? 1 = some "x" := by
    rw [table.ordered, distinct]
    rfl
  refine ⟨few, ?_, table.stable 1 "x" x⟩
  have answered := table.answered
  rw [List.map_cons, List.map_cons, List.map_singleton, (table.inverse _ _).1 k,
    (table.inverse _ _).1 x] at answered
  exact (List.map_inj_right fun _ _ => Option.some.inj).1 answered

end ContinuationIR.Interning
