import ContinuationIR.Proofs.Consistency

/-!
# Runs of edits

An edit runs to its end if none of its writes breaks down. Runs are composed like the edits
themselves; a loop runs if each round keeps an invariant on the rounds made so far. Below that, what
each single write does to the views of the tables: the entries of occurrences, and the kind, the
binding and the set of each variable.
-/

namespace ContinuationIR
set_option autoImplicit false

namespace Edit

variable {α β γ : Type} {p : Program}

/-- The edit does not break down on the program, and its answer and the program it leaves are as
told. -/
def Runs (edit : Edit α) (p : Program) (post : α → Program → Prop) : Prop :=
  ∃ a q, edit p = (.ok a, q) ∧ post a q

/-- Edits run one after the other, if the second runs from wherever the first ends. -/
theorem Runs.andThen {edit : Edit α} {next : α → Edit β} {mid : α → Program → Prop}
    {post : β → Program → Prop} (first : edit.Runs p mid)
    (second : ∀ a q, mid a q → (next a).Runs q post) : (edit >>= next).Runs p post := by
  obtain ⟨a, q, run, holds⟩ := first
  obtain ⟨b, r, run', holds'⟩ := second a q holds
  refine ⟨b, r, ?_, holds'⟩
  show Edit.andThen edit next p = _
  simp only [Edit.andThen, run, run']

/-- A run may be said to leave less. -/
theorem Runs.mono {edit : Edit α} {weak strong : α → Program → Prop} (run : edit.Runs p strong)
    (weaken : ∀ a q, strong a q → weak a q) : edit.Runs p weak := by
  obtain ⟨a, q, eq, holds⟩ := run
  exact ⟨a, q, eq, weaken a q holds⟩

theorem runs_pure {a : α} {post : α → Program → Prop} (holds : post a p) :
    (pure a : Edit α).Runs p post :=
  ⟨a, p, rfl, holds⟩

theorem runs_write {f : Program → Program} {post : Unit → Program → Prop} (holds : post () (f p)) :
    (write f).Runs p post :=
  ⟨(), f p, rfl, holds⟩

/-- A read that yields an answer leaves the program as it is. -/
theorem runs_read {f : Program → Except Fault α} {a : α} (value : f p = .ok a) :
    (read f).Runs p fun b q => b = a ∧ q = p :=
  ⟨a, p, by simp [read, value], rfl, rfl⟩

/-- A loop runs if each round keeps the invariant. -/
theorem runs_forM {l : List γ} {f : γ → Edit Unit} (inv : List γ → Program → Prop)
    (start : inv [] p)
    (step : ∀ front c back q, l = front ++ c :: back → inv front q →
      (f c).Runs q fun _ r => inv (front ++ [c]) r) :
    (l.forM f).Runs p fun _ q => inv l q := by
  suffices rounds : ∀ front back q, l = front ++ back → inv front q →
      (back.forM f).Runs q fun _ r => inv l r from rounds [] l p rfl start
  intro front back
  induction back generalizing front with
  | nil =>
    intro q split holds
    rw [List.append_nil] at split
    exact runs_pure (split ▸ holds)
  | cons c back ih =>
    intro q split holds
    exact (step front c back q split holds).andThen fun _ r holds' =>
      ih (front ++ [c]) r (by simp [split]) holds'

end Edit

namespace Program

variable {family other : Family} {p : Program}

/-! ## Reads -/

/-- The entry of a live variable can be read. -/
theorem fetchVariable_ok {v : VarId family} (live : p.hasVariable v = true) :
    ∃ entry, p.fetchVariable v = .ok entry ∧ p.varEntry? v = some entry := by
  obtain ⟨entry, read⟩ := Slots.contains_iff.1 live
  exact ⟨entry, Slots.fetch_of_get? read, read⟩

theorem kindOf?_of_fetch {v : VarId family} {entry : VariableEntry family}
    (fetched : p.fetchVariable v = .ok entry) : p.kindOf? v = some entry.kind := by
  rw [kindOf?, show p.varEntry? v = some entry from Slots.fetch_eq_ok_iff.1 fetched]
  rfl

theorem fetchOccurrence_ok {o : OccId family} {entry : OccurrenceEntry family}
    (read : p.occEntry? o = some entry) : p.fetchOccurrence o = .ok entry :=
  Slots.fetch_of_get? read

theorem fetchShape_ok {e : ExprId} {shape : Shape} (read : p.shapeOf? e = some shape) :
    p.fetchShape e = .ok shape := by
  obtain ⟨entry, live, rfl⟩ := Option.map_eq_some_iff.1 read
  simp [fetchShape, Slots.fetch_of_get? live, bind, Except.bind, pure, Except.pure]

theorem fetchDefinition_ok {d : DefId} {definition : Definition}
    (read : p.definitionOf? d = some definition) : p.fetchDefinition d = .ok definition := by
  obtain ⟨entry, live, rfl⟩ := Option.map_eq_some_iff.1 read
  simp [fetchDefinition, Slots.fetch_of_get? live, bind, Except.bind, pure, Except.pure]

/-- A variable that lists an occurrence is live. -/
theorem Lists.hasVariable {v : VarId family} {o : OccId family} (lists : p.Lists v o) :
    p.hasVariable v = true := by
  obtain ⟨entry, read, -⟩ := lists
  exact Slots.contains_iff.2 ⟨entry, read⟩

/-! ## Writes to one family leave the nodes alone -/

section Tables

variable (p : Program) (f : VariableTable family → VariableTable family)

@[simp] theorem shapeOf?_modifyTable : (p.modifyTable family f).shapeOf? = p.shapeOf? := by
  funext e
  simp [shapeOf?]

@[simp] theorem definitionOf?_modifyTable :
    (p.modifyTable family f).definitionOf? = p.definitionOf? := by
  funext d
  simp [definitionOf?]

@[simp] theorem enclosing_modifyTable : (p.modifyTable family f).enclosing = p.enclosing := by
  funext n
  cases n <;> simp [enclosing]

theorem varEntry?_modifyTable (v : VarId family) :
    varEntry? (p.modifyTable family f) v = (f (p.table family)).vars.get? v := by
  simp [ varEntry?]

theorem varEntry?_modifyTable_of_ne (ne : other ≠ family) (v : VarId other) :
    varEntry? (p.modifyTable family f) v = p.varEntry? v := by
  simp [ varEntry?, table_modifyTable_of_ne _ _ ne]

theorem occEntry?_modifyTable (o : OccId family) :
    occEntry? (p.modifyTable family f) o = (f (p.table family)).occurrences.get? o := by
  simp [ occEntry?]

theorem occEntry?_modifyTable_of_ne (ne : other ≠ family) (o : OccId other) :
    occEntry? (p.modifyTable family f) o = p.occEntry? o := by
  simp [ occEntry?, table_modifyTable_of_ne _ _ ne]

end Tables

/-! ## Writes to the nodes leave the families alone -/

section SameTable

variable {q : Program} (same : q.table family = p.table family)
include same

theorem occEntry?_of_table (o : OccId family) : q.occEntry? o = p.occEntry? o := by
  simp only [same, occEntry?]

theorem kindOf?_of_table (v : VarId family) : q.kindOf? v = p.kindOf? v := by
  simp only [kindOf?, varEntry?, same]

theorem bindingOf?_of_table (v : VarId family) : q.bindingOf? v = p.bindingOf? v := by
  simp only [bindingOf?, varEntry?, same]

theorem lists_of_table {v : VarId family} {o : OccId family} : q.Lists v o ↔ p.Lists v o := by
  simp only [Lists, varEntry?, same]

end SameTable

/-! ## Writes to one variable -/

section Variable

variable {v : VarId family} {w : VarId other} {g : VariableEntry family → VariableEntry family}

/-- A write to a variable changes its entry. -/
theorem varEntry?_modify_self :
    varEntry? (p.modifyTable family fun t => { t with vars := t.vars.modify v g }) v =
      (p.varEntry? v).map g := by
  rw [varEntry?_modifyTable, Slots.get?_modify_self]
  rfl

/-- A write to a variable leaves the others, of either family. -/
theorem varEntry?_modify_of_ne (ne : (⟨w⟩ : Binder) ≠ ⟨v⟩) :
    varEntry? (p.modifyTable family fun t => { t with vars := t.vars.modify v g }) w =
      p.varEntry? w := by
  by_cases same : other = family
  · subst same
    rw [varEntry?_modifyTable, Slots.get?_modify_of_ne _ _ fun eq => ne (by rw [eq])]
    rfl
  · exact varEntry?_modifyTable_of_ne _ _ same _

/-- A write that leaves the kind of the variable leaves all kinds. -/
theorem kindOf?_modify (keep : ∀ entry, (g entry).kind = entry.kind) :
    (p.modifyTable family fun t => { t with vars := t.vars.modify v g }).kindOf? w =
      p.kindOf? w := by
  by_cases eq : (⟨w⟩ : Binder) = ⟨v⟩
  · cases eq
    simp [kindOf?, varEntry?_modify_self, Function.comp_def, keep]
  · simp [kindOf?, varEntry?_modify_of_ne eq]

/-- A write that leaves the binding of the variable leaves all bindings. -/
theorem bindingOf?_modify (keep : ∀ entry, (g entry).binding = entry.binding) :
    (p.modifyTable family fun t => { t with vars := t.vars.modify v g }).bindingOf? w =
      p.bindingOf? w := by
  by_cases eq : (⟨w⟩ : Binder) = ⟨v⟩
  · cases eq
    rw [bindingOf?, bindingOf?, varEntry?_modify_self, Option.bind_map]
    exact congrArg _ (funext keep)
  · simp [bindingOf?, varEntry?_modify_of_ne eq]

/-- A write that leaves the set of the variable leaves all sets. -/
theorem lists_modify {o : OccId other} (keep : ∀ entry, (g entry).occurrences = entry.occurrences) :
    (p.modifyTable family fun t => { t with vars := t.vars.modify v g }).Lists w o ↔
      p.Lists w o := by
  by_cases eq : (⟨w⟩ : Binder) = ⟨v⟩
  · cases eq
    simp [Lists, varEntry?_modify_self, keep]
  · simp [Lists, varEntry?_modify_of_ne eq]

/-- Recording a binding changes the binding of that variable only. -/
theorem bindingOf?_setBinding {b : Option Binding} (live : p.hasVariable v = true) :
    (p.modifyTable family (·.setBinding v b)).bindingOf? w =
      if (⟨w⟩ : Binder) = ⟨v⟩ then b else p.bindingOf? w := by
  unfold VariableTable.setBinding
  by_cases eq : (⟨w⟩ : Binder) = ⟨v⟩
  · cases eq
    obtain ⟨entry, -, read⟩ := fetchVariable_ok live
    rw [if_pos rfl, bindingOf?, varEntry?_modify_self, read]
    rfl
  · rw [if_neg eq, bindingOf?, varEntry?_modify_of_ne eq]
    rfl

/-- Listing an occurrence adds it to the set of that variable only. -/
theorem lists_list {o : OccId family} {k : OccId other} (live : p.hasVariable v = true) :
    (p.modifyTable family (·.list v o)).Lists w k ↔
      p.Lists w k ∨ ((⟨w⟩ : Binder) = ⟨v⟩ ∧ (⟨k⟩ : Use) = ⟨o⟩) := by
  unfold VariableTable.list
  by_cases eq : (⟨w⟩ : Binder) = ⟨v⟩
  · cases eq
    obtain ⟨entry, -, read⟩ := fetchVariable_ok live
    simp [Lists, varEntry?_modify_self, read, or_comm]
  · simp [Lists, varEntry?_modify_of_ne eq, eq]

/-- Taking an occurrence out of a set changes the set of that variable only. -/
theorem lists_unlist {o : OccId family} {k : OccId other} :
    (p.modifyTable family (·.unlist v o)).Lists w k ↔
      p.Lists w k ∧ ¬((⟨w⟩ : Binder) = ⟨v⟩ ∧ (⟨k⟩ : Use) = ⟨o⟩) := by
  unfold VariableTable.unlist
  by_cases eq : (⟨w⟩ : Binder) = ⟨v⟩
  · cases eq
    simp only [Lists, varEntry?_modify_self, Option.map_eq_some_iff]
    constructor
    · rintro ⟨_, ⟨entry, read, rfl⟩, mem⟩
      rw [HandleSet.mem_erase] at mem
      exact ⟨⟨entry, read, mem.2⟩, fun same => mem.1 (by simpa using same.2)⟩
    · rintro ⟨⟨entry, read, mem⟩, differs⟩
      refine ⟨_, ⟨entry, read, rfl⟩, HandleSet.mem_erase.2 ⟨?_, mem⟩⟩
      rintro rfl
      simp at differs
  · simp [Lists, varEntry?_modify_of_ne eq, eq]

end Variable

/-! ## Writes to one occurrence -/

section Occurrence

variable {o : OccId family} {k : OccId other}

/-- A write to an occurrence changes its entry. -/
theorem occEntry?_modify_self {g : OccurrenceEntry family → OccurrenceEntry family} :
    occEntry? (p.modifyTable family (·.modifyOccurrence o g)) o = (p.occEntry? o).map g := by
  rw [occEntry?_modifyTable, VariableTable.modifyOccurrence, Slots.get?_modify_self]
  rfl

/-- A write to an occurrence leaves the others, of either family. -/
theorem occEntry?_modify_of_ne {g : OccurrenceEntry family → OccurrenceEntry family}
    (ne : (⟨k⟩ : Use) ≠ ⟨o⟩) :
    occEntry? (p.modifyTable family (·.modifyOccurrence o g)) k = p.occEntry? k := by
  by_cases same : other = family
  · subst same
    rw [occEntry?_modifyTable, VariableTable.modifyOccurrence,
      Slots.get?_modify_of_ne _ _ fun eq => ne (by rw [eq])]
    rfl
  · exact occEntry?_modifyTable_of_ne _ _ same _

/-- An occurrence is issued with what the mention says and the holder. -/
theorem occEntry?_issue_self {m : Mention family} {holder : ExprId} :
    occEntry? (p.modifyTable family (·.issue m holder)) (p.table family).occurrences.next =
      some ⟨m.var, m.recursivity, holder⟩ := by
  rw [occEntry?_modifyTable]
  exact Slots.get?_push_next _ _

/-- Issuing an occurrence leaves the others. -/
theorem occEntry?_issue_of_ne {m : Mention family} {holder : ExprId}
    (ne : (⟨k⟩ : Use) ≠ ⟨(p.table family).occurrences.next⟩) :
    occEntry? (p.modifyTable family (·.issue m holder)) k = p.occEntry? k := by
  by_cases same : other = family
  · subst same
    rw [occEntry?_modifyTable]
    exact Slots.get?_push_of_ne _ fun eq => ne (by rw [eq])
  · exact occEntry?_modifyTable_of_ne _ _ same _

/-- A write that leaves the occurrences of its family alone leaves all alone. -/
theorem occEntry?_keep {f : VariableTable family → VariableTable family}
    (keep : (f (p.table family)).occurrences = (p.table family).occurrences) :
    occEntry? (p.modifyTable family f) k = p.occEntry? k := by
  by_cases same : other = family
  · subst same
    rw [occEntry?_modifyTable, keep]
    rfl
  · exact occEntry?_modifyTable_of_ne _ _ same _

/-- A write that leaves the variables of its family alone leaves all alone. -/
theorem varEntry?_keep {f : VariableTable family → VariableTable family} {w : VarId other}
    (keep : (f (p.table family)).vars = (p.table family).vars) :
    varEntry? (p.modifyTable family f) w = p.varEntry? w := by
  by_cases same : other = family
  · subst same
    rw [varEntry?_modifyTable, keep]
    rfl
  · exact varEntry?_modifyTable_of_ne _ _ same _

end Occurrence

/-! ## What the operations leave alone -/

section Frame

variable {v : VarId family} {o : OccId family} {w : VarId other} {k : OccId other}

@[simp] theorem occEntry?_setBinding {b : Option Binding} :
    occEntry? (p.modifyTable family (·.setBinding v b)) k = p.occEntry? k :=
  occEntry?_keep rfl

@[simp] theorem kindOf?_setBinding {b : Option Binding} :
    (p.modifyTable family (·.setBinding v b)).kindOf? w = p.kindOf? w :=
  kindOf?_modify fun _ => rfl

@[simp] theorem lists_setBinding {b : Option Binding} :
    (p.modifyTable family (·.setBinding v b)).Lists w k ↔ p.Lists w k :=
  lists_modify fun _ => rfl

@[simp] theorem occEntry?_list : occEntry? (p.modifyTable family (·.list v o)) k = p.occEntry? k :=
  occEntry?_keep rfl

@[simp] theorem kindOf?_list : (p.modifyTable family (·.list v o)).kindOf? w = p.kindOf? w :=
  kindOf?_modify fun _ => rfl

@[simp] theorem bindingOf?_list :
    (p.modifyTable family (·.list v o)).bindingOf? w = p.bindingOf? w :=
  bindingOf?_modify fun _ => rfl

@[simp] theorem occEntry?_unlist :
    occEntry? (p.modifyTable family (·.unlist v o)) k = p.occEntry? k :=
  occEntry?_keep rfl

@[simp] theorem kindOf?_unlist : (p.modifyTable family (·.unlist v o)).kindOf? w = p.kindOf? w :=
  kindOf?_modify fun _ => rfl

@[simp] theorem bindingOf?_unlist :
    (p.modifyTable family (·.unlist v o)).bindingOf? w = p.bindingOf? w :=
  bindingOf?_modify fun _ => rfl

@[simp] theorem varEntry?_issue {m : Mention family} {holder : ExprId} :
    varEntry? (p.modifyTable family (·.issue m holder)) w = p.varEntry? w :=
  varEntry?_keep rfl

@[simp] theorem varEntry?_modifyOccurrence {g : OccurrenceEntry family → OccurrenceEntry family} :
    varEntry? (p.modifyTable family (·.modifyOccurrence o g)) w = p.varEntry? w :=
  varEntry?_keep rfl

end Frame

end Program

end ContinuationIR
