import ContinuationIR.Proofs.SameNodes

/-!
# Demolition

Destroying a region removes its occurrences, then its variables, then its nodes. The writes run to
their end if no variable of the region is used outside of it, and they leave the program without
those three and otherwise as it was. So each step is described by what is gone so far, and the lists
grow along the run.
-/

namespace ContinuationIR
set_option autoImplicit false

namespace Program

/-- The program `q` is `p` without the listed occurrences, variables and nodes. -/
structure Razed (p : Program) (uses : List Use) (vars : List Binder) (nodes : List Node)
    (q : Program) : Prop where
  root : q.root = p.root
  verifying : q.verifying = p.verifying
  occurrence : ∀ {family : Family} {o : OccId family},
    q.occEntry? o = if ⟨o⟩ ∈ uses then none else p.occEntry? o
  kind : ∀ {family : Family} {v : VarId family},
    q.kindOf? v = if ⟨v⟩ ∈ vars then none else p.kindOf? v
  binding : ∀ {family : Family} {v : VarId family},
    q.bindingOf? v = if ⟨v⟩ ∈ vars then none else p.bindingOf? v
  lists : ∀ {family : Family} {v : VarId family} {o : OccId family},
    q.Lists v o ↔ p.Lists v o ∧ ⟨o⟩ ∉ uses ∧ ⟨v⟩ ∉ vars
  shape : ∀ {e : ExprId}, q.shapeOf? e = if .expr e ∈ nodes then none else p.shapeOf? e
  definition : ∀ {d : DefId},
    q.definitionOf? d = if .defn d ∈ nodes then none else p.definitionOf? d
  enclosing : ∀ {n : Node}, n ∉ nodes → q.enclosing n = p.enclosing n

namespace Razed

variable {family : Family} {p q : Program} {uses : List Use} {vars : List Binder}
  {nodes : List Node}

theorem nothing (p : Program) : Razed p [] [] [] p := by
  constructor <;> simp

/-- Only which occurrences, variables and nodes are gone matters, not how they are listed. -/
theorem congr {uses' : List Use} {vars' : List Binder} {nodes' : List Node}
    (r : Razed p uses vars nodes q) (sameUses : ∀ u, u ∈ uses' ↔ u ∈ uses)
    (sameVars : ∀ v, v ∈ vars' ↔ v ∈ vars) (sameNodes : ∀ n, n ∈ nodes' ↔ n ∈ nodes) :
    Razed p uses' vars' nodes' q := by
  constructor
  case root => exact r.root
  case verifying => exact r.verifying
  all_goals simp only [sameUses, sameVars, sameNodes]
  exacts [r.occurrence, r.kind, r.binding, r.lists, r.shape, r.definition, r.enclosing]

end Razed

section Occurrence

variable {family other : Family} {p : Program} {o : OccId family} {k : OccId other}
  {w : VarId other}

theorem unregister_of_dead (dead : p.occEntry? o = none) :
    p.modifyTable family (·.unregister o) = p := by
  unfold occEntry? at dead
  cases family <;> simp_all [modifyTable, table, VariableTable.unregister]

/-- Removing a live occurrence is removing its entry and then taking it out of the set. -/
theorem unregister_of_live {entry : OccurrenceEntry family} (read : p.occEntry? o = some entry) :
    p.modifyTable family (·.unregister o) =
      (p.modifyTable family fun t => { t with occurrences := t.occurrences.remove o }).modifyTable
        family (·.unlist entry.var o) := by
  unfold occEntry? at read
  cases family <;> simp_all [modifyTable, table, VariableTable.unregister]

/-- Removing an occurrence leaves the others. -/
theorem occEntry?_remove :
    occEntry? (p.modifyTable family fun t => { t with occurrences := t.occurrences.remove o }) k =
      if (⟨k⟩ : Use) = ⟨o⟩ then none else p.occEntry? k := by
  by_cases same : other = family
  · subst same
    rw [occEntry?_modifyTable]
    simp [Slots.get?_remove, occEntry?]
  · rw [occEntry?_modifyTable_of_ne _ _ same, if_neg]
    rintro ⟨⟩
    exact same rfl

/-- Freeing a variable leaves the others. -/
theorem varEntry?_free {v : VarId family} :
    varEntry? (p.modifyTable family (·.free v)) w =
      if (⟨w⟩ : Binder) = ⟨v⟩ then none else p.varEntry? w := by
  by_cases same : other = family
  · subst same
    rw [varEntry?_modifyTable]
    simp [VariableTable.free, Slots.get?_remove, varEntry?]
  · rw [varEntry?_modifyTable_of_ne _ _ same, if_neg]
    rintro ⟨⟩
    exact same rfl

theorem kindOf?_free {v : VarId family} :
    (p.modifyTable family (·.free v)).kindOf? w =
      if (⟨w⟩ : Binder) = ⟨v⟩ then none else p.kindOf? w := by
  rw [kindOf?, varEntry?_free]
  split <;> rfl

theorem bindingOf?_free {v : VarId family} :
    (p.modifyTable family (·.free v)).bindingOf? w =
      if (⟨w⟩ : Binder) = ⟨v⟩ then none else p.bindingOf? w := by
  rw [bindingOf?, varEntry?_free]
  split <;> rfl

theorem lists_free {v : VarId family} :
    (p.modifyTable family (·.free v)).Lists w k ↔ (⟨w⟩ : Binder) ≠ ⟨v⟩ ∧ p.Lists w k := by
  rw [Lists, varEntry?_free]
  by_cases here : (⟨w⟩ : Binder) = ⟨v⟩
  · simp [here]
  · simp [here, Lists]

end Occurrence

/-- An occurrence that a set has is live and refers to the variable of the set. -/
def SetsRefer (p : Program) : Prop :=
  ∀ ⦃family : Family⦄ ⦃v : VarId family⦄ ⦃o : OccId family⦄, p.Lists v o →
    ∃ entry, p.occEntry? o = some entry ∧ entry.var = v

namespace Razed

variable {family : Family} {p q : Program} {uses : List Use} {vars : List Binder}
  {nodes : List Node}

/-- An occurrence that is gone already, or never was there, is in no set. -/
theorem skip (sets : SetsRefer p) (r : Razed p uses vars nodes q) {o : OccId family}
    (dead : q.occEntry? o = none) : Razed p (uses ++ [⟨o⟩]) vars nodes q := by
  have gone {other : Family} {w : VarId other} {k : OccId other} (lists : q.Lists w k) :
      (⟨k⟩ : Use) ≠ ⟨o⟩ := by
    rintro ⟨⟩
    obtain ⟨listed, kept, -⟩ := r.lists.1 lists
    obtain ⟨entry, found, -⟩ := sets listed
    rw [r.occurrence, if_neg kept, found] at dead
    cases dead
  refine { r with occurrence := ?_, lists := ?_ }
  · intro other k
    by_cases here : (⟨k⟩ : Use) = ⟨o⟩
    · cases here
      simp [dead]
    · simp [r.occurrence, here]
  · intro other w k
    constructor
    · intro lists
      obtain ⟨listed, kept, live⟩ := r.lists.1 lists
      exact ⟨listed, by simp [kept, gone lists], live⟩
    · rintro ⟨listed, kept, live⟩
      exact r.lists.2 ⟨listed, fun mem => kept (List.mem_append_left _ mem), live⟩

/-- A live occurrence is taken out of the set of its variable, which is the only one that has it. -/
theorem remove (sets : SetsRefer p) (r : Razed p uses vars nodes q) {o : OccId family}
    {entry : OccurrenceEntry family} (read : q.occEntry? o = some entry) :
    Razed p (uses ++ [⟨o⟩]) vars nodes ((q.modifyTable family fun t =>
      { t with occurrences := t.occurrences.remove o }).modifyTable family
        (·.unlist entry.var o)) := by
  have kept : ⟨o⟩ ∉ uses := by
    intro mem
    rw [r.occurrence, if_pos mem] at read
    cases read
  have before : p.occEntry? o = some entry := by rwa [r.occurrence, if_neg kept] at read
  constructor
  case occurrence =>
    intro other k
    rw [occEntry?_unlist, occEntry?_remove, r.occurrence]
    by_cases here : (⟨k⟩ : Use) = ⟨o⟩ <;> simp [here]
  case lists =>
    intro other w k
    have same : (q.modifyTable family fun t =>
        { t with occurrences := t.occurrences.remove o }).Lists w k ↔ q.Lists w k := by
      simp only [Lists, varEntry?_keep]
    rw [lists_unlist, same, r.lists]
    by_cases here : (⟨k⟩ : Use) = ⟨o⟩
    · cases here
      simp only [List.mem_append, List.mem_singleton, or_true, not_true, false_and, and_false,
        iff_false, and_true]
      rintro ⟨⟨listed, -, -⟩, elsewhere⟩
      obtain ⟨entry', found, rfl⟩ := sets listed
      rw [before] at found
      cases found
      exact elsewhere rfl
    · simp [here]
  case kind =>
    intro other w
    rw [kindOf?_unlist, kindOf?, varEntry?_keep rfl]
    exact r.kind
  case binding =>
    intro other w
    rw [bindingOf?_unlist, bindingOf?, varEntry?_keep rfl]
    exact r.binding
  all_goals simp only [root_modifyTable, verifying_modifyTable, shapeOf?_modifyTable,
    definitionOf?_modifyTable, enclosing_modifyTable]
  exacts [r.root, r.verifying, r.shape, r.definition, r.enclosing]

/-- One occurrence less. -/
theorem unregister (sets : SetsRefer p) (r : Razed p uses vars nodes q) (o : OccId family) :
    Razed p (uses ++ [⟨o⟩]) vars nodes (q.modifyTable family (·.unregister o)) := by
  cases read : q.occEntry? o with
  | none =>
    rw [unregister_of_dead read]
    exact r.skip sets read
  | some entry =>
    rw [unregister_of_live read]
    exact r.remove sets read

/-- One variable less, none of whose occurrences are left. -/
theorem free (r : Razed p uses vars nodes q) (v : VarId family) :
    Razed p uses (vars ++ [⟨v⟩]) nodes (q.modifyTable family (·.free v)) := by
  constructor
  case kind =>
    intro other w
    rw [kindOf?_free, r.kind]
    by_cases here : (⟨w⟩ : Binder) = ⟨v⟩ <;> simp [here]
  case binding =>
    intro other w
    rw [bindingOf?_free, r.binding]
    by_cases here : (⟨w⟩ : Binder) = ⟨v⟩ <;> simp [here]
  case lists =>
    intro other w k
    rw [lists_free, r.lists]
    simp only [List.mem_append, List.mem_singleton, not_or]
    tauto
  case occurrence =>
    intro other k
    rw [occEntry?_keep rfl]
    exact r.occurrence
  all_goals simp only [root_modifyTable, verifying_modifyTable, shapeOf?_modifyTable,
    definitionOf?_modifyTable, enclosing_modifyTable]
  exacts [r.root, r.verifying, r.shape, r.definition, r.enclosing]

/-- A variable is freed if all its occurrences are gone. -/
theorem runs_free (r : Razed p uses vars nodes q) {v : VarId family}
    (unused : ∀ o, p.Lists v o → ⟨o⟩ ∈ uses) :
    (Edit.free v).Runs q fun _ => Razed p uses (vars ++ [⟨v⟩]) nodes := by
  have empty : (q.varEntry? v).all (·.occurrences.isEmpty) = true := by
    cases read : q.varEntry? v with
    | none => rfl
    | some entry =>
      have none (o : OccId family) : o ∉ entry.occurrences := by
        intro mem
        obtain ⟨listed, kept, -⟩ := r.lists.1 ⟨entry, read, mem⟩
        exact kept (unused o listed)
      simpa [HandleSet.isEmpty] using List.eq_nil_iff_forall_not_mem.2 none
  refine ⟨(), _, ?_, r.free v⟩
  simp [Edit.free, bind, Edit.andThen, Edit.read, Edit.write, empty, pure, Edit.done]

/-- One expression less. -/
theorem removeExpression (r : Razed p uses vars nodes q) (e : ExprId) :
    Razed p uses vars (nodes ++ [.expr e]) (q.removeExpression e) := by
  refine { r with shape := ?_, definition := ?_, enclosing := ?_ }
  · intro e'
    have same := @r.shape e'
    by_cases here : e' = e
    · simp [Program.removeExpression, shapeOf?, Slots.get?_remove, here]
    · simpa [Program.removeExpression, shapeOf?, Slots.get?_remove, here] using same
  · intro d
    have same : (q.removeExpression e).definitionOf? d = q.definitionOf? d := rfl
    simpa [same] using r.definition
  · intro n other
    simp only [List.mem_append, List.mem_singleton, not_or] at other
    rw [← r.enclosing other.1]
    cases n with
    | defn d => rfl
    | expr e' =>
      have here : e' ≠ e := fun eq => other.2 (by rw [eq])
      simp [Program.removeExpression, Program.enclosing, Slots.fetch, Slots.get?_remove, here]

/-- One definition less. -/
theorem removeDefinition (r : Razed p uses vars nodes q) (d : DefId) :
    Razed p uses vars (nodes ++ [.defn d]) (q.removeDefinition d) := by
  refine { r with shape := ?_, definition := ?_, enclosing := ?_ }
  · intro e
    have same : (q.removeDefinition d).shapeOf? e = q.shapeOf? e := rfl
    simpa [same] using r.shape
  · intro d'
    have same := @r.definition d'
    by_cases here : d' = d
    · simp [Program.removeDefinition, definitionOf?, Slots.get?_remove, here]
    · simpa [Program.removeDefinition, definitionOf?, Slots.get?_remove, here] using same
  · intro n other
    simp only [List.mem_append, List.mem_singleton, not_or] at other
    rw [← r.enclosing other.1]
    cases n with
    | expr e => rfl
    | defn d' =>
      have here : d' ≠ d := fun eq => other.2 (by rw [eq])
      simp [Program.removeDefinition, Program.enclosing, Slots.fetch, Slots.get?_remove, here]

/-! ## The loops -/

/-- Occurrences can be taken out one after the other. -/
theorem runs_unregisterAll (sets : SetsRefer p) (r : Razed p uses vars nodes q)
    (l : List (OccId family)) :
    (l.forM Edit.unregister).Runs q fun _ =>
      Razed p (uses ++ l.map fun o => ⟨o⟩) vars nodes := by
  refine Edit.runs_forM (fun front => Razed p (uses ++ front.map fun o => ⟨o⟩) vars nodes)
    (by simpa using r) fun front o back q _ r => Edit.runs_write ?_
  simpa using r.unregister sets o

/-- Variables can be freed one after the other, once their occurrences are gone. -/
theorem runs_freeAll (r : Razed p uses vars nodes q) {l : List (VarId family)}
    (unused : ∀ v ∈ l, ∀ o, p.Lists v o → ⟨o⟩ ∈ uses) :
    (l.forM Edit.free).Runs q fun _ => Razed p uses (vars ++ l.map fun v => ⟨v⟩) nodes := by
  refine Edit.runs_forM (fun front => Razed p uses (vars ++ front.map fun v => ⟨v⟩) nodes)
    (by simpa using r) fun front v back q split r => ?_
  simpa using r.runs_free (unused v (by simp [split]))

/-- Expressions can be removed one after the other. -/
theorem runs_removeExpressions (r : Razed p uses vars nodes q) (l : List ExprId) :
    (l.forM fun e => Edit.write (·.removeExpression e)).Runs q fun _ =>
      Razed p uses vars (nodes ++ l.map .expr) := by
  refine Edit.runs_forM (fun front => Razed p uses vars (nodes ++ front.map .expr))
    (by simpa using r) fun front e back q _ r => Edit.runs_write ?_
  simpa using r.removeExpression e

/-- Definitions can be removed one after the other. -/
theorem runs_removeDefinitions (r : Razed p uses vars nodes q) (l : List DefId) :
    (l.forM fun d => Edit.write (·.removeDefinition d)).Runs q fun _ =>
      Razed p uses vars (nodes ++ l.map .defn) := by
  refine Edit.runs_forM (fun front => Razed p uses vars (nodes ++ front.map .defn))
    (by simpa using r) fun front d back q _ r => Edit.runs_write ?_
  simpa using r.removeDefinition d

end Razed

/-- No variable of the region is used outside of it. -/
def SelfContained (p : Program) (r : Region) : Prop :=
  ∀ ⦃family : Family⦄ ⦃v : VarId family⦄ ⦃o : OccId family⦄, v ∈ r.bound family → p.Lists v o →
    o ∈ r.held family

/-- The occurrences of a region, family by family. -/
theorem mem_uses_iff {r : Region} {use : Use} :
    use ∈ r.uses ↔
      use ∈ ((r.held .value).map fun o => (⟨o⟩ : Use)) ++ (r.held .continuation).map fun o => ⟨o⟩ := by
  rcases use with @⟨family, o⟩
  rw [← Region.mem_held]
  cases family <;> simp

/-- The variables of a region, family by family. -/
theorem mem_binders_iff {r : Region} {binder : Binder} :
    binder ∈ r.binders ↔
      binder ∈ ((r.bound .value).map fun v => (⟨v⟩ : Binder)) ++
        (r.bound .continuation).map fun v => ⟨v⟩ := by
  rcases binder with @⟨family, v⟩
  rw [← Region.mem_bound]
  cases family <;> simp

/-- Destroying a self-contained region takes just its parts away. -/
theorem runs_destroy {p : Program} (sets : SetsRefer p) {r : Region}
    (contained : SelfContained p r) :
    (destroy r).Runs p fun _ => Razed p r.uses r.binders r.nodes := by
  have unused {family : Family} (v : VarId family) (mem : v ∈ r.bound family) (o : OccId family)
      (lists : p.Lists v o) : ⟨o⟩ ∈ r.uses :=
    Region.mem_held.1 (contained mem lists)
  refine ((Razed.nothing p).runs_unregisterAll sets _).andThen fun _ _ razed => ?_
  refine (razed.runs_unregisterAll sets _).andThen fun _ _ razed => ?_
  replace razed := razed.congr (fun _ => mem_uses_iff) (fun _ => Iff.rfl) fun _ => Iff.rfl
  refine (razed.runs_freeAll unused).andThen fun _ _ razed => ?_
  refine (razed.runs_freeAll unused).andThen fun _ _ razed => ?_
  refine (razed.runs_removeExpressions _).andThen fun _ _ razed => ?_
  refine (razed.runs_removeDefinitions _).mono fun _ _ razed => ?_
  refine razed.congr (fun _ => Iff.rfl) (fun _ => mem_binders_iff) fun n => ?_
  cases n <;> simp [Region.mem_expressions, Region.mem_definitions]

end Program

end ContinuationIR
