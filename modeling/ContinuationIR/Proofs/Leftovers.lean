import ContinuationIR.Proofs.Auditing

/-!
# The report of the checker

The report is what the walk finds, followed by what it leaves over: live nodes that it did not
enter, variables that are bound or used but not by the walk, live occurrences that it did not meet,
and entries of occurrence sets that are not uses of the variable.
-/

namespace ContinuationIR
set_option autoImplicit false

namespace Program

variable {family : Family} {p : Program} {s : Audit} {violation : Violation}

/-- The variable is live and records a binding or has an occurrence in its set. -/
def Tied (p : Program) (v : VarId family) : Prop :=
  (∃ binding, p.bindingOf? v = some binding) ∨ ∃ o, p.Lists v o

/-- The occurrence is in the set of the variable but is no use of it. -/
def Foreign (p : Program) (v : VarId family) (o : OccId family) : Prop :=
  p.Lists v o ∧ ∀ entry, p.occEntry? o = some entry → entry.var ≠ v

/-- The stray nodes are those that are live and were not entered. -/
theorem mem_strayNodes {entered : List Node} : violation ∈ p.strayNodes entered ↔
    ∃ n, violation = .unreachableNode n ∧ p.hasNode n = true ∧ n ∉ entered := by
  have nodes (n : Node) : n ∈ p.expressions.handles.map Node.expr ++ p.definitions.handles.map Node.defn ↔
      p.hasNode n = true := by
    cases n <;> simp [Slots.mem_handles, hasNode]
  simp only [strayNodes, List.mem_map, List.mem_filter, nodes, Bool.not_eq_true',
    List.contains_eq_mem, decide_eq_false_iff_not]
  refine exists_congr fun n => ?_
  rw [and_comm, eq_comm]

/-- A variable is left over if it is tied and was not met, and each occurrence of its set that is
foreign to it. -/
theorem mem_variableLeftovers {bound : List (VarId family)} {v : VarId family}
    {entry : VariableEntry family} (live : p.varEntry? v = some entry) :
    violation ∈ p.variableLeftovers bound v entry ↔
      (violation = .unreachableVariable v ∧ v ∉ bound ∧ p.Tied v) ∨
        ∃ o, violation = .staleOccurrenceEntry v o ∧ p.Foreign v o := by
  have tied : (!entry.occurrences.isEmpty || entry.binding.isSome) = true ↔ p.Tied v := by
    simp only [Tied, bindingOf?, Lists, live, Option.bind_some, Bool.or_eq_true, Bool.not_eq_true',
      HandleSet.isEmpty, List.isEmpty_eq_false_iff_exists_mem, Option.isSome_iff_exists,
      Option.some.injEq, exists_eq_left', HandleSet.mem_def]
    exact or_comm
  have foreign (o : OccId family) : o ∈ (entry.occurrences.toList.filter fun occurrence =>
      (p.occEntry? occurrence).map (·.var) ≠ some v) ↔ p.Foreign v o := by
    simp [Foreign, Lists, live, HandleSet.mem_def]
  simp only [variableLeftovers, List.mem_append, List.mem_map, foreign]
  refine or_congr ?_ (exists_congr fun o => ?_)
  · rw [← tied]
    by_cases known : v ∈ bound <;> simp [known, and_comm]
  · rw [and_comm, eq_comm]

/-- The leftovers of a family are those of its live variables. -/
theorem mem_strayVariables {l : Ledger family} : violation ∈ p.strayVariables l ↔
    ∃ v, (violation = .unreachableVariable v ∧ v ∉ l.bound ∧ p.Tied v) ∨
      ∃ o, violation = .staleOccurrenceEntry v o ∧ p.Foreign v o := by
  simp only [strayVariables, List.mem_flatMap, Prod.exists, Slots.mem_entries]
  refine exists_congr fun v => ?_
  constructor
  · rintro ⟨entry, live, mem⟩
    exact (mem_variableLeftovers live).1 mem
  · intro found
    have live : ∃ entry, p.varEntry? v = some entry := by
      rcases found with ⟨-, -, ⟨b, bound⟩ | ⟨o, entry, live, -⟩⟩ | ⟨o, -, ⟨entry, live, -⟩, -⟩
      · obtain ⟨entry, live, -⟩ := Option.bind_eq_some_iff.1 bound
        exact ⟨entry, live⟩
      · exact ⟨entry, live⟩
      · exact ⟨entry, live⟩
    obtain ⟨entry, live⟩ := live
    exact ⟨entry, live, (mem_variableLeftovers live).2 found⟩

/-- The stray occurrences are those that are live and were not met. -/
theorem mem_strayOccurrences {l : Ledger family} : violation ∈ p.strayOccurrences l ↔
    ∃ o, violation = .unreachableOccurrence o ∧ p.hasOccurrence o = true ∧ o ∉ l.held := by
  simp only [strayOccurrences, List.mem_map, List.mem_filter, Slots.mem_handles,
    Bool.not_eq_true', List.contains_eq_mem, decide_eq_false_iff_not]
  refine exists_congr fun o => ?_
  rw [and_comm, eq_comm]
  rfl

/-- What the walk leaves over. -/
theorem mem_leftovers : violation ∈ p.leftovers s ↔
    (∃ n, violation = .unreachableNode n ∧ p.hasNode n = true ∧ n ∉ s.entered) ∨
    (∃ (family : Family) (v : VarId family), violation = .unreachableVariable v ∧
      v ∉ (s.ledger family).bound ∧ p.Tied v) ∨
    (∃ (family : Family) (v : VarId family) (o : OccId family),
      violation = .staleOccurrenceEntry v o ∧ p.Foreign v o) ∨
    ∃ (family : Family) (o : OccId family), violation = .unreachableOccurrence o ∧
      p.hasOccurrence o = true ∧ o ∉ (s.ledger family).held := by
  have families {motive : Family → Prop} :
      (∃ family, motive family) ↔ motive .value ∨ motive .continuation :=
    ⟨fun ⟨family, holds⟩ => by cases family <;> simp [holds], fun | .inl h => ⟨_, h⟩ | .inr h => ⟨_, h⟩⟩
  simp only [leftovers, List.mem_append, mem_strayNodes, mem_strayVariables, mem_strayOccurrences,
    families, exists_or, Audit.ledger]
  rw [iff_iff_eq]
  ac_rfl

/-- Nothing is left over if the walk has entered every live node, bound every variable that is bound
or used, and met every live occurrence. -/
theorem leftovers_eq_nil_iff : p.leftovers s = [] ↔
    (∀ n, p.hasNode n = true → n ∈ s.entered) ∧
    (∀ (family : Family) (v : VarId family), p.Tied v → v ∈ (s.ledger family).bound) ∧
    (∀ (family : Family) (v : VarId family) (o : OccId family), ¬ p.Foreign v o) ∧
    ∀ (family : Family) (o : OccId family), p.hasOccurrence o = true →
      o ∈ (s.ledger family).held := by
  rw [List.eq_nil_iff_forall_not_mem]
  simp only [mem_leftovers]
  constructor
  · intro none
    refine ⟨fun n live => ?_, fun family v tied => ?_, fun family v o foreign => ?_,
      fun family o live => ?_⟩
    · by_contra new
      exact none _ (.inl ⟨n, rfl, live, new⟩)
    · by_contra new
      exact none _ (.inr (.inl ⟨family, v, rfl, new, tied⟩))
    · exact none _ (.inr (.inr (.inl ⟨family, v, o, rfl, foreign⟩)))
    · by_contra new
      exact none _ (.inr (.inr (.inr ⟨family, o, rfl, live, new⟩)))
  · rintro ⟨nodes, bound, proper, held⟩ violation (⟨n, -, live, new⟩ | ⟨_, v, -, new, tied⟩ |
      ⟨_, v, o, -, foreign⟩ | ⟨_, o, -, live, new⟩)
    · exact new (nodes n live)
    · exact new (bound _ v tied)
    · exact proper _ v o foreign
    · exact new (held _ o live)

/-! ## The whole check -/

/-- The state of the checker after the walk. -/
def lastState (p : Program) : Audit := p.auditTrail.foldl p.advance .start

theorem advance_violations (p : Program) (s : Audit) (event : Event) :
    (p.advance s event).violations = s.violations := by
  cases event with
  | mark site m =>
    cases m with
    | @bind family v => cases family <;> rfl
    | @use family o =>
      cases site with
      | defn _ => rfl
      | expr e =>
        simp only [advance, useState]
        split
        · rfl
        · cases family <;> rfl
    | _ => rfl
  | _ => rfl

/-- The state that the walk carries has no reports of its own. -/
theorem foldl_advance_violations (p : Program) (s : Audit) (events : List Event) :
    (events.foldl p.advance s).violations = s.violations := by
  induction events generalizing s with
  | nil => rfl
  | cons event rest ih => rw [List.foldl_cons, ih, advance_violations]

/-- If the walk does not break off, the report is what it finds and what it leaves over. -/
theorem check_eq_ok (whole : ∀ fault, .broken fault ∉ p.auditTrail) :
    p.check = .ok (p.findings .start p.auditTrail ++ p.leftovers p.lastState) := by
  have silent : p.lastState.violations = [] := foldl_advance_violations p .start p.auditTrail
  rw [check, audit, foldlM_auditEvent whole]
  show Except.ok (p.lastState.violations ++ p.findings .start p.auditTrail ++
    p.leftovers p.lastState) = _
  rw [silent, List.nil_append]

/-- If the walk breaks off there is no report. -/
theorem check_eq_error {fault : Fault} (broken : .broken fault ∈ p.auditTrail) :
    ∃ fault, .broken fault ∈ p.auditTrail ∧ p.check = .error fault := by
  obtain ⟨fault, mem, run⟩ := foldlM_auditEvent_of_broken (p := p) broken .start
  exact ⟨fault, mem, by simp [check, audit, run, bind, Except.bind]⟩

/-- An empty report means that the walk did not break off, found nothing and left nothing over. -/
theorem check_eq_nil_iff : p.check = .ok [] ↔ (∀ fault, .broken fault ∉ p.auditTrail) ∧
    p.findings .start p.auditTrail = [] ∧ p.leftovers p.lastState = [] := by
  constructor
  · intro checked
    have whole : ∀ fault, .broken fault ∉ p.auditTrail := by
      intro fault broken
      obtain ⟨_, -, failed⟩ := check_eq_error broken
      rw [checked] at failed
      cases failed
    rw [check_eq_ok whole, Except.ok.injEq, List.append_eq_nil_iff] at checked
    exact ⟨whole, checked⟩
  · rintro ⟨whole, silent, nothing⟩
    rw [check_eq_ok whole, silent, nothing]
    rfl

end Program

end ContinuationIR
