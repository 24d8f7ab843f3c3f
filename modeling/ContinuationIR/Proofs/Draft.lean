import ContinuationIR.Proofs.Editing

/-!
# Drafts

Every building call does the same before it adds a node: it makes occurrences for the node to come,
lets variables be bound there and puts pending trees under it. What the writes have prepared so far
is noted in a draft, which each write extends.
-/

namespace ContinuationIR
set_option autoImplicit false

/-- An occurrence that was made for a mention. -/
structure Minted where
  {family : Family}
  occurrence : OccId family
  mention : Mention family

/-- The occurrence as a use. -/
def Minted.use (m : Minted) : Use := ⟨m.occurrence⟩

/-- What was prepared for a node to come. -/
structure Draft where
  children : List Node
  binders : List Binder
  minted : List Minted

/-- The draft before the first write. -/
def Draft.empty : Draft := ⟨[], [], []⟩

namespace Program

/-! ## Enclosing links under a write -/

section SetEnclosing

variable {p : Program} {child : Node} {parent : Option Node} {family : Family}

@[simp] theorem table_setEnclosing : (p.setEnclosing child parent).table family = p.table family := by
  unfold setEnclosing
  split <;> cases family <;> rfl

@[simp] theorem root_setEnclosing : (p.setEnclosing child parent).root = p.root := by
  unfold setEnclosing
  split <;> rfl

@[simp] theorem verifying_setEnclosing : (p.setEnclosing child parent).verifying = p.verifying := by
  unfold setEnclosing
  split <;> rfl

@[simp] theorem next_expressions_setEnclosing :
    (p.setEnclosing child parent).expressions.next = p.expressions.next := by
  unfold setEnclosing
  split <;> simp [Slots.next]

@[simp] theorem next_definitions_setEnclosing :
    (p.setEnclosing child parent).definitions.next = p.definitions.next := by
  unfold setEnclosing
  split <;> simp [Slots.next]

@[simp] theorem shapeOf?_setEnclosing (e : ExprId) :
    (p.setEnclosing child parent).shapeOf? e = p.shapeOf? e := by
  unfold setEnclosing shapeOf?
  split
  · rw [Slots.get?_modify]
    split <;> simp [Function.comp_def]
  · rfl
  · rfl

@[simp] theorem definitionOf?_setEnclosing (d : DefId) :
    (p.setEnclosing child parent).definitionOf? d = p.definitionOf? d := by
  unfold setEnclosing definitionOf?
  split
  · rfl
  all_goals
    rw [Slots.get?_modify]
    split <;> simp [Function.comp_def]

/-- A live node is put under another; definitions are put under expressions only. -/
theorem enclosing_setEnclosing {parent : Node} (live : p.hasNode child = true)
    (fits : child.isDefinition = true → parent.isDefinition = false) (n : Node) :
    (p.setEnclosing child (some parent)).enclosing n =
      if n = child then .ok (some parent) else p.enclosing n := by
  cases child with
  | expr e =>
    obtain ⟨entry, read⟩ := hasNode_expr_iff.1 live
    by_cases same : n = .expr e
    · subst same
      have after : (p.setEnclosing (.expr e) (some parent)).expressions.get? e =
          some { entry with enclosing := some parent } := by
        simp [setEnclosing, Slots.get?_modify_self, read]
      rw [if_pos rfl, enclosing_expr after]
    · rw [if_neg same]
      cases n with
      | defn d => rfl
      | expr e' =>
        have ne : e' ≠ e := fun eq => same (by rw [eq])
        simp [setEnclosing, enclosing, Slots.fetch, Slots.get?_modify_of_ne _ _ ne]
  | defn d =>
    obtain ⟨entry, read⟩ := hasNode_defn_iff.1 live
    cases parent with
    | defn _ => simp [Node.isDefinition] at fits
    | expr g =>
      by_cases same : n = .defn d
      · subst same
        have after : (p.setEnclosing (.defn d) (some (.expr g))).definitions.get? d =
            some { entry with enclosing := some g } := by
          simp [setEnclosing, Slots.get?_modify_self, read]
        rw [if_pos rfl, enclosing_defn after]
        rfl
      · rw [if_neg same]
        cases n with
        | expr e => rfl
        | defn d' =>
          have ne : d' ≠ d := fun eq => same (by rw [eq])
          simp [setEnclosing, enclosing, Slots.fetch, Slots.get?_modify_of_ne _ _ ne]

end SetEnclosing

/-! ## Drafts -/

/-- The variables are live, unbound and distinct. -/
structure Bindable (p : Program) (binders : List Binder) : Prop where
  live : ∀ {family : Family} {v : VarId family}, ⟨v⟩ ∈ binders → p.hasVariable v = true
  unbound : ∀ {family : Family} {v : VarId family}, ⟨v⟩ ∈ binders → p.bindingOf? v = none
  distinct : binders.Nodup

/-- The nodes are heads of pending trees and distinct. -/
structure Pending (p : Program) (nodes : List Node) : Prop where
  top : ∀ c ∈ nodes, p.enclosing c = .ok none ∧ p.isRoot c = false
  apart : nodes.Nodup

/-- Heads of pending trees are live. -/
theorem Pending.hasNode {p : Program} {nodes : List Node} (pending : Pending p nodes) :
    ∀ c ∈ nodes, p.hasNode c = true :=
  fun c mem => hasNode_of_enclosing (pending.top c mem).1

/-- The variables and occurrences of `q` are those of `p` and what the draft of the node adds. -/
structure Registered (p : Program) (node : Node) (role : Family → BinderRole) (draft : Draft)
    (q : Program) : Prop where
  kind : ∀ {family : Family} (v : VarId family), q.kindOf? v = p.kindOf? v
  binding : ∀ {family : Family} (v : VarId family),
    q.bindingOf? v = if ⟨v⟩ ∈ draft.binders then some ⟨node, role family⟩ else p.bindingOf? v
  lists : ∀ {family : Family} {v : VarId family} {o : OccId family},
    q.Lists v o ↔ p.Lists v o ∨ ∃ r, ⟨o, ⟨v, r⟩⟩ ∈ draft.minted
  minted : ∀ {family : Family} {o : OccId family} {m : Mention family}, ⟨o, m⟩ ∈ draft.minted →
    p.occEntry? o = none ∧ ∃ e, node = .expr e ∧ q.occEntry? o = some ⟨m.var, m.recursivity, e⟩
  kept : ∀ {family : Family} {o : OccId family}, (∀ m, ⟨o, m⟩ ∉ draft.minted) →
    q.occEntry? o = p.occEntry? o
  distinct : (draft.minted.map Minted.use).Nodup

/-- The program `q` is `p` with the draft of a node to come, whose binders get the given roles. -/
structure Prepared (p : Program) (node : Node) (role : Family → BinderRole) (draft : Draft)
    (q : Program) : Prop extends Registered p node role draft q where
  root : q.root = p.root
  verifying : q.verifying = p.verifying
  nextExpression : q.expressions.next = p.expressions.next
  nextDefinition : q.definitions.next = p.definitions.next
  shape : ∀ e, q.shapeOf? e = p.shapeOf? e
  definition : ∀ d, q.definitionOf? d = p.definitionOf? d
  enclosing : ∀ n, q.enclosing n = if n ∈ draft.children then .ok (some node) else p.enclosing n

section Registered

variable {family : Family} {p q : Program} {node : Node} {role : Family → BinderRole} {draft : Draft}

namespace Registered

/-- A draft makes no variables and takes none away. -/
theorem hasVariable (h : Registered p node role draft q) (v : VarId family) :
    q.hasVariable v = p.hasVariable v := by
  rw [hasVariable_eq, hasVariable_eq, h.kind]

/-- Writes to the nodes and other children of the draft do not matter. -/
theorem of_tables {r : Program} {children : List Node} (h : Registered p node role draft q)
    (same : ∀ family, r.table family = q.table family) :
    Registered p node role { draft with children } r where
  kind v := (kindOf?_of_table (same _) v).trans (h.kind v)
  binding v := (bindingOf?_of_table (same _) v).trans (h.binding v)
  lists := (lists_of_table (same _)).trans h.lists
  minted mem := by
    rw [occEntry?_of_table (same _)]
    exact h.minted mem
  kept old := (occEntry?_of_table (same _) _).trans (h.kept old)
  distinct := h.distinct

/-- Binding a variable to the node adds it to the binders of the draft. -/
theorem bind (h : Registered p node role draft q) {v : VarId family} (live : p.hasVariable v = true) :
    Registered p node role { draft with binders := draft.binders ++ [⟨v⟩] }
      (q.recordBinding v node (role family)) where
  binding w := by
    rw [recordBinding, bindingOf?_setBinding ((h.hasVariable v).trans live), h.binding]
    by_cases same : (⟨w⟩ : Binder) = ⟨v⟩
    · cases same
      simp
    · simp [same]
  kind w := kindOf?_setBinding.trans (h.kind w)
  lists := lists_setBinding.trans h.lists
  minted mem := by
    rw [recordBinding, occEntry?_setBinding]
    exact h.minted mem
  kept old := occEntry?_setBinding.trans (h.kept old)
  distinct := h.distinct

/-- A handle that was not given out yet is not in the draft. -/
theorem next_not_minted (h : Registered p node role draft q) (m : Mention family) :
    ⟨(q.table family).occurrences.next, m⟩ ∉ draft.minted := by
  intro mem
  obtain ⟨-, e, -, found⟩ := h.minted mem
  have dead : q.occEntry? (q.table family).occurrences.next = none := Slots.get?_next _
  rw [dead] at found
  cases found

/-- An occurrence that is made and listed adds to those of the draft. -/
theorem mint {holder : ExprId} (h : Registered p (.expr holder) role draft q) (m : Mention family)
    (live : p.hasVariable m.var = true) :
    Registered p (.expr holder) role
      { draft with minted := draft.minted ++ [⟨(q.table family).occurrences.next, m⟩] }
      ((q.modifyTable family (·.issue m holder)).modifyTable family
        (·.list m.var (q.table family).occurrences.next)) := by
  obtain ⟨o, next⟩ : ∃ o, o = (q.table family).occurrences.next := ⟨_, rfl⟩
  obtain ⟨issued, eq⟩ : ∃ r, r = q.modifyTable family (·.issue m holder) := ⟨_, rfl⟩
  have sameVars {other : Family} (w : VarId other) : issued.varEntry? w = q.varEntry? w := by
    rw [eq, varEntry?_issue]
  have liveIssued : issued.hasVariable m.var = true := by
    rw [hasVariable_eq, kindOf?, sameVars, ← kindOf?, ← hasVariable_eq, h.hasVariable, live]
  have new (m' : Mention family) : ⟨o, m'⟩ ∉ draft.minted := next ▸ h.next_not_minted m'
  have others {other : Family} {k : OccId other} (ne : (⟨k⟩ : Use) ≠ ⟨o⟩) :
      issued.occEntry? k = q.occEntry? k := by
    rw [eq, occEntry?_issue_of_ne (next ▸ ne)]
  rw [← eq, ← next]
  constructor
  case kind =>
    intro other v
    rw [kindOf?_list, kindOf?, sameVars]
    exact h.kind v
  case binding =>
    intro other v
    rw [bindingOf?_list, bindingOf?, sameVars]
    exact h.binding v
  case lists =>
    intro other v k
    have same : issued.Lists v k ↔ q.Lists v k := by simp only [Lists, sameVars]
    rw [lists_list liveIssued, same, h.lists]
    simp only [List.mem_append, List.mem_singleton, exists_or, or_assoc]
    refine or_congr_right (or_congr_right ?_)
    constructor
    · rintro ⟨sameVar, sameUse⟩
      cases sameVar
      cases sameUse
      exact ⟨m.recursivity, rfl⟩
    · rintro ⟨r, same⟩
      cases same
      exact ⟨rfl, rfl⟩
  case minted =>
    intro other k m' mem
    rw [occEntry?_list]
    rcases List.mem_append.1 mem with old | last
    · have ne : (⟨k⟩ : Use) ≠ ⟨o⟩ := by
        intro same
        cases same
        exact new m' old
      rw [others ne]
      exact h.minted old
    · cases List.mem_singleton.1 last
      refine ⟨(h.kept new).symm.trans ?_, holder, rfl, ?_⟩
      · rw [next]
        exact Slots.get?_next _
      · rw [eq, next, occEntry?_issue_self]
  case kept =>
    intro other k old
    have ne : (⟨k⟩ : Use) ≠ ⟨o⟩ := by
      intro same
      cases same
      exact old m (by simp)
    rw [occEntry?_list, others ne]
    exact h.kept fun m' mem => old m' (List.mem_append_left _ mem)
  case distinct =>
    simp only [List.map_append, List.map_cons, List.map_nil]
    refine List.nodup_append'.2 ⟨h.distinct, List.nodup_singleton _, ?_⟩
    rw [List.disjoint_singleton]
    intro mem
    obtain ⟨⟨k, m'⟩, old, same⟩ := List.mem_map.1 mem
    cases same
    exact new m' old

end Registered

namespace Prepared

/-- Before the first write the draft is empty. -/
theorem start (p : Program) (node : Node) (role : Family → BinderRole) :
    Prepared p node role .empty p := by
  constructor
  · constructor <;> simp [Draft.empty]
  all_goals simp [Draft.empty]

/-- A draft makes no nodes and takes none away. -/
theorem hasNode (h : Prepared p node role draft q) (n : Node) : q.hasNode n = p.hasNode n := by
  cases n with
  | expr e => rw [hasNode_expr, hasNode_expr, h.shape]
  | defn d => rw [hasNode_defn, hasNode_defn, h.definition]

/-! ## Single writes -/

/-- A live node can be put under the node to come. -/
theorem attach (h : Prepared p node role draft q) {child : Node} (live : p.hasNode child = true)
    (fits : child.isDefinition = true → node.isDefinition = false) :
    (Edit.attach node child).Runs q fun _ r =>
      Prepared p node role { draft with children := draft.children ++ [child] } r := by
  have live' : q.hasNode child = true := (h.hasNode child).trans live
  obtain ⟨link, linked⟩ := enclosing_ok_iff_hasNode.2 live'
  refine (Edit.runs_read linked).andThen ?_
  rintro _ _ ⟨rfl, rfl⟩
  refine Edit.runs_write ?_
  constructor
  case toRegistered => exact h.of_tables fun _ => table_setEnclosing
  case enclosing =>
    intro n
    rw [enclosing_setEnclosing live' fits, h.enclosing]
    by_cases same : n = child <;> simp [same]
  all_goals simp [h.root, h.verifying, h.nextExpression, h.nextDefinition, h.shape, h.definition]

/-- A variable that is live, unbound and not in the draft yet can be bound to the node to come. -/
theorem bind (h : Prepared p node role draft q) {v : VarId family} (live : p.hasVariable v = true)
    (unbound : p.bindingOf? v = none) (new : ⟨v⟩ ∉ draft.binders) :
    (Edit.bind v node (role family)).Runs q fun _ r =>
      Prepared p node role { draft with binders := draft.binders ++ [⟨v⟩] } r := by
  obtain ⟨entry, fetched, read⟩ := fetchVariable_ok ((h.hasVariable v).trans live)
  have free : entry.binding = none := by
    have same := h.binding v
    rw [if_neg new, unbound] at same
    simpa [bindingOf?, read] using same
  refine (Edit.runs_read fetched).andThen ?_
  rintro _ _ ⟨rfl, rfl⟩
  simp only [free, Option.isSome_none, Bool.false_eq_true, if_false]
  refine Edit.runs_write ?_
  constructor
  case toRegistered => exact h.toRegistered.bind live
  all_goals
    simp [recordBinding, h.root, h.verifying, h.nextExpression, h.nextDefinition, h.shape,
      h.definition, h.enclosing]

/-- An occurrence of a live variable can be made for the node to come. -/
theorem mint {holder : ExprId} (h : Prepared p (.expr holder) role draft q) (m : Mention family)
    (live : p.hasVariable m.var = true) :
    (Edit.mint holder m).Runs q fun o r =>
      Prepared p (.expr holder) role { draft with minted := draft.minted ++ [⟨o, m⟩] } r := by
  have known : (q.modifyTable family (·.issue m holder)).hasVariable m.var = true := by
    rw [hasVariable_eq, kindOf?, varEntry?_issue, ← kindOf?, h.kind, ← hasVariable_eq, live]
  obtain ⟨entry, fetched, -⟩ := fetchVariable_ok known
  refine ⟨(q.table family).occurrences.next, (q.modifyTable family (·.issue m holder)).modifyTable
    family (·.list m.var (q.table family).occurrences.next), ?_, ?_⟩
  · simp [Edit.mint, Bind.bind, Edit.andThen, Edit.read, Edit.write, Pure.pure, Edit.done, fetched]
  · constructor
    case toRegistered => exact h.toRegistered.mint m live
    all_goals
      simp [h.root, h.verifying, h.nextExpression, h.nextDefinition, h.shape, h.definition,
        h.enclosing]

/-! ## Sequences of writes -/

/-- Pending trees can be put under the node to come one after the other. -/
theorem attachAll {holder : ExprId} (h : Prepared p (.expr holder) role draft q)
    {children : List Node} (pending : Pending p children) :
    (Program.attachAll holder children).Runs q fun _ r =>
      Prepared p (.expr holder) role { draft with children := draft.children ++ children } r := by
  refine Edit.runs_forM (fun front => Prepared p (.expr holder) role
    { draft with children := draft.children ++ front }) ?_ fun front c back r split prepared => ?_
  · simpa using h
  · simpa using prepared.attach (pending.hasNode c (by simp [split])) fun _ => rfl

/-- Bindable variables can be bound to the node to come one after the other. -/
theorem bindAll (h : Prepared p node role draft q) {vars : List (VarId family)}
    (bindable : Bindable p (draft.binders ++ vars.map fun v => ⟨v⟩)) :
    (vars.forM fun v => Edit.bind v node (role family)).Runs q fun _ r =>
      Prepared p node role { draft with binders := draft.binders ++ vars.map fun v => ⟨v⟩ } r := by
  refine Edit.runs_forM (fun front => Prepared p node role
    { draft with binders := draft.binders ++ front.map fun v => ⟨v⟩ }) ?_
    fun front v back r split prepared => ?_
  · simpa using h
  · have mem : ⟨v⟩ ∈ draft.binders ++ vars.map fun v => (⟨v⟩ : Binder) := by simp [split]
    have distinct := bindable.distinct
    rw [split, List.map_append, List.map_cons, ← List.append_assoc] at distinct
    have new : ⟨v⟩ ∉ draft.binders ++ front.map fun v => (⟨v⟩ : Binder) := fun mem =>
      (List.nodup_append'.1 distinct).2.2 mem List.mem_cons_self
    simpa using prepared.bind (bindable.live mem) (bindable.unbound mem) new

/-- Occurrences of live variables can be made for the node to come one after the other. -/
theorem mintAll {holder : ExprId} (h : Prepared p (.expr holder) role draft q)
    {mentions : List (Mention family)} (live : ∀ m ∈ mentions, p.hasVariable m.var = true) :
    (Edit.mintAll holder mentions).Runs q fun occurrences r =>
      ∃ made : List Minted, made.map Minted.use = occurrences.map (fun o => ⟨o⟩) ∧
        Prepared p (.expr holder) role { draft with minted := draft.minted ++ made } r := by
  induction mentions generalizing draft q with
  | nil => exact Edit.runs_pure ⟨[], rfl, by simpa using h⟩
  | cons m rest ih =>
    refine (h.mint m (live m List.mem_cons_self)).andThen fun o r prepared => ?_
    refine (ih prepared fun m' mem => live m' (List.mem_cons_of_mem _ mem)).andThen ?_
    rintro os r' ⟨made, uses, prepared'⟩
    refine Edit.runs_pure ⟨⟨o, m⟩ :: made, by simp [uses, Minted.use], ?_⟩
    simpa using prepared'

/-- The value whose uses were made for the mentions of another. -/
inductive Made : List Minted → Value (Mention .value) → Value (OccId .value) → Prop where
  | constant (literal : Constant) : Made [] (.constant literal) (.constant literal)
  | copy (o : OccId .value) (m : Mention .value) : Made [⟨o, m⟩] (.alias m) (.alias o)
  | block (tag : Nat) (fields : List (Mention .value)) {made : List Minted}
      {occurrences : List (OccId .value)} :
      made.map Minted.use = occurrences.map (fun o => ⟨o⟩) →
        Made made (.block tag fields) (.block tag occurrences)

/-- The uses of the stored value are the occurrences that were made for it. -/
theorem Made.uses {made : List Minted} {value : Value (Mention .value)}
    {stored : Value (OccId .value)} (h : Made made value stored) :
    made.map Minted.use = stored.uses.map fun o => ⟨o⟩ := by
  cases h with
  | constant literal => rfl
  | copy o m => rfl
  | block tag fields uses => exact uses

/-- The occurrences of a value are made in the order in which it mentions variables. -/
theorem mintValue {holder : ExprId} (h : Prepared p (.expr holder) role draft q)
    {value : Value (Mention .value)} (live : ∀ m ∈ value.uses, p.hasVariable m.var = true) :
    (Edit.mintValue holder value).Runs q fun stored r =>
      ∃ made, Made made value stored ∧
        Prepared p (.expr holder) role { draft with minted := draft.minted ++ made } r := by
  rcases value with literal | m | ⟨tag, fields⟩
  · exact Edit.runs_pure ⟨[], .constant literal, by simpa using h⟩
  · refine (h.mint m (live m List.mem_cons_self)).andThen fun o r prepared => ?_
    exact Edit.runs_pure ⟨_, .copy o m, prepared⟩
  · refine (h.mintAll live).andThen ?_
    rintro occurrences r ⟨made, uses, prepared⟩
    exact Edit.runs_pure ⟨made, .block tag fields uses, prepared⟩

end Prepared

end Registered

end Program

end ContinuationIR
