import ContinuationIR.Proofs.Persistence
import ContinuationIR.Proofs.Reading
import ContinuationIR.Proofs.Stray

/-!
# Construction apart from the installed tree

Pending trees may use the variables of the installed tree, so building them and discarding them
writes to entries that the installed tree reads. All that changes there are the sets of occurrences,
and in these only occurrences that stand outside of the installed tree. Whatever is read of the
installed tree is the same before and after.
-/

namespace ContinuationIR
set_option autoImplicit false

/-- The call builds something up, or takes a pending tree away again. -/
def Call.IsConstruction (call : Call) : Prop :=
  ¬ call.IsChange ∨ ∃ node, call = .discard node

namespace Program

variable {family : Family} {p q : Program} {n : Node}

/-! ## Names of the installed tree -/

/-- The name of an attached definition is bound in the installed tree. -/
theorem Consistent.name_bound (c : Consistent p) {d : DefId} {v : VarId family}
    (attached : p.isAttached (.defn d) = .ok true) (name : p.nameOf family d = some v) :
    ∃ n, p.isAttached n = .ok true ∧ ⟨v⟩ ∈ p.bindersOf n := by
  obtain ⟨definition, found, named⟩ := Option.bind_eq_some_iff.1 name
  obtain ⟨parent, linked⟩ := c.exists_parent_of_named attached name
  have child := c.forest.listed linked
  obtain ⟨e, family', members, body, rfl, read, mem⟩ := exists_group_of_child child
  have above := c.attached_above attached (c.forest.within_node_child child)
  exact ⟨_, above, (name_mem_bindersOf c.toCoherent read mem found named).2⟩

/-- A variable that is live before and after has the same name. -/
theorem Later.namedVar_eq (later : Later p q) {v : VarId family} (live : p.hasVariable v = true)
    (live' : q.hasVariable v = true) : q.namedVar v = p.namedVar v := by
  obtain ⟨before, fetched, read⟩ := fetchVariable_ok live
  obtain ⟨after, fetched', read'⟩ := fetchVariable_ok live'
  rw [namedVar, namedVar, fetched, fetched', ok_bind, ok_bind, (later.name_eq read read').1]

/-! ## Programs that agree on the installed tree -/

/-- The attached nodes of `p` are in `q` as they were, with what they bind and hold. -/
structure Spares (p q : Program) : Prop where
  root : q.root = p.root
  shape : ∀ {e : ExprId}, p.isAttached (.expr e) = .ok true → q.shapeOf? e = p.shapeOf? e
  definition : ∀ {d : DefId}, p.isAttached (.defn d) = .ok true →
    q.definitionOf? d = p.definitionOf? d
  enclosing : ∀ {n : Node}, p.isAttached n = .ok true → q.enclosing n = p.enclosing n
  binding : ∀ {family : Family} {v : VarId family} {b : Binding}, p.bindingOf? v = some b →
    p.isAttached b.site = .ok true → q.bindingOf? v = some b
  occurrence : ∀ {family : Family} {o : OccId family} {entry : OccurrenceEntry family},
    p.occEntry? o = some entry → p.isAttached (.expr entry.holder) = .ok true →
      q.occEntry? o = some entry

theorem Spares.refl (p : Program) : Spares p p := by
  constructor <;> simp +contextual

/-- What can be seen of the installed tree is the same, and of the data of the variables that it
binds only the sets of occurrences differ, by occurrences that stand outside of it. -/
structure SameInstalled (p q : Program) : Prop where
  root : q.root = p.root
  walk : ∀ {α : Type} (inspect : Event → Except Fault α),
    q.walkFrom inspect none = p.walkFrom inspect none
  text : ∀ terminal : Text.Terminal,
    terminal.coloured q = terminal.coloured p ∧ terminal.plain q = terminal.plain p
  free : q.functionFreeVariables = p.functionFreeVariables
  attached : ∀ n, q.isAttached n = .ok true ↔ p.isAttached n = .ok true
  expression : ∀ {e}, p.isAttached (.expr e) = .ok true →
    q.expressions.get? e = p.expressions.get? e
  definition : ∀ {d}, p.isAttached (.defn d) = .ok true →
    q.definitions.get? d = p.definitions.get? d
  occurrence : ∀ {family} {o : OccId family} {entry}, p.isAttached (.expr entry.holder) = .ok true →
    (q.occEntry? o = some entry ↔ p.occEntry? o = some entry)
  bound : ∀ {family} {v : VarId family} {n}, p.isAttached n = .ok true → ⟨v⟩ ∈ p.bindersOf n →
    ∃ before after, p.varEntry? v = some before ∧ q.varEntry? v = some after ∧
      after.name = before.name ∧ after.kind = before.kind ∧ after.binding = before.binding ∧
      (∀ o ∈ after.occurrences, o ∉ before.occurrences →
        ∃ entry, q.occEntry? o = some entry ∧ q.isAttached (.expr entry.holder) = .ok false) ∧
      (∀ o ∈ before.occurrences, o ∉ after.occurrences →
        ∃ entry, p.occEntry? o = some entry ∧ p.isAttached (.expr entry.holder) = .ok false)

namespace Spares

variable (h : Spares p q) (c : Consistent p)
include h c

/-- What the installed tree binds is live after as well. -/
theorem hasVariable {v : VarId family} (attached : p.isAttached n = .ok true)
    (mem : ⟨v⟩ ∈ p.bindersOf n) : q.hasVariable v = true := by
  obtain ⟨role, bound⟩ := c.binders.binding mem
  exact hasVariable_of_bindingOf? (h.binding bound attached)

/-- The installed tree reads the same before and after. -/
theorem readAlike (later : Later p q) (c' : Coherent q) :
    ReadAlike p q fun n => p.isAttached n = .ok true := by
  constructor
  case live => exact fun attached => hasNode_of_isAttached attached
  case child => exact fun attached mem => c.attached_below attached (c.forest.within_node_child mem)
  case shape => exact h.shape
  case definition => exact h.definition
  case use =>
    intro family o n attached mem
    obtain ⟨entry, read, rfl⟩ := c.uses.holder mem
    have read' := h.occurrence read attached
    exact ⟨entry, read, read',
      later.namedVar_eq (c.uses.listed read).hasVariable (c'.uses.listed read').hasVariable⟩
  case binder =>
    intro family v n attached mem
    exact later.namedVar_eq (c.binders.hasVariable mem) (h.hasVariable c attached mem)
  case name =>
    intro family v d attached name
    obtain ⟨n, above, mem⟩ := c.name_bound attached name
    exact later.namedVar_eq (c.binders.hasVariable mem) (h.hasVariable c above mem)

/-- What was attached has the nodes above it that it had. -/
theorem lineage {above : List Node} (attached : p.isAttached n = .ok true)
    (lin : Lineage p.enclosing n above) : Lineage q.enclosing n above :=
  lin.congr fun _ mem => h.enclosing (c.attached_above attached ((within_iff lin).2 mem))

/-- The same nodes are attached: from the root down, the child of an attached node is its child in both
programs. -/
theorem attached_iff (later : Later p q) (c' : Coherent q) (n : Node) :
    q.isAttached n = .ok true ↔ p.isAttached n = .ok true := by
  have alike := h.readAlike c later c'
  constructor
  · intro attached
    obtain ⟨r, root, above, lin, mem⟩ := c'.attached_iff.1 attached
    rw [h.root] at root
    have top := c.attached_root root
    clear attached
    induction lin with
    | top =>
      obtain rfl : Node.defn r = _ := by simpa using mem
      exact top
    | @up n parent above link lin ih =>
      rcases List.mem_cons.1 mem with rfl | mem
      · exact top
      · have attached := ih mem
        have child := c'.forest.listed link
        rw [alike.childrenOf_eq attached] at child
        exact c.attached_below attached (c.forest.within_node_child child)
  · intro attached
    obtain ⟨above, lin⟩ := c.forest.ends (hasNode_of_isAttached attached)
    rw [isAttached_eq lin] at attached
    rw [isAttached_eq (h.lineage c (by rwa [isAttached_eq lin]) lin)]
    simpa only [isRoot, h.root] using attached

/-- The occurrences in the installed tree have the same entries. -/
theorem occEntry?_iff (later : Later p q) (c' : Coherent q) {o : OccId family}
    {entry : OccurrenceEntry family} (attached : p.isAttached (.expr entry.holder) = .ok true) :
    q.occEntry? o = some entry ↔ p.occEntry? o = some entry := by
  refine ⟨fun read => ?_, fun read => h.occurrence read attached⟩
  have alike := h.readAlike c later c'
  have held := c'.uses.held read
  have same : q.usesOf (.expr entry.holder) = p.usesOf (.expr entry.holder) := by
    simp only [usesOf, scriptOf, alike.script?_eq attached]
  rw [same] at held
  obtain ⟨old, found, holder⟩ := c.uses.holder held
  rw [Node.expr.inj holder] at attached
  have kept := h.occurrence found attached
  rw [read] at kept
  cases kept
  exact found

/-- The set of a variable gains occurrences only that stand outside of the installed tree. -/
theorem unattached_of_gained {v : VarId family} {o : OccId family} (later : Later p q)
    (c' : Coherent q) {before after : VariableEntry family} (read : p.varEntry? v = some before)
    (read' : q.varEntry? v = some after) (mem : o ∈ after.occurrences)
    (new : o ∉ before.occurrences) :
    ∃ entry, q.occEntry? o = some entry ∧ q.isAttached (.expr entry.holder) = .ok false := by
  obtain ⟨entry, found, refers⟩ := (c'.uses.mem_iff read').1 mem
  have live := hasNode_of_use (c'.uses.held found)
  refine ⟨entry, found, (c'.unattached_iff live).2 fun inside => ?_⟩
  have attached := (h.attached_iff c later c' _).1 inside
  exact new ((c.uses.mem_iff read).2 ⟨entry, (h.occEntry?_iff c later c' attached).1 found, refers⟩)

/-- The set of a variable loses occurrences only that stand outside of the installed tree. -/
theorem unattached_of_lost {v : VarId family} {o : OccId family} (c' : Coherent q)
    {before after : VariableEntry family} (read : p.varEntry? v = some before)
    (read' : q.varEntry? v = some after) (mem : o ∈ before.occurrences)
    (lost : o ∉ after.occurrences) :
    ∃ entry, p.occEntry? o = some entry ∧ p.isAttached (.expr entry.holder) = .ok false := by
  obtain ⟨entry, found, refers⟩ := (c.uses.mem_iff read).1 mem
  have live := hasNode_of_use (c.uses.held found)
  refine ⟨entry, found, (c.unattached_iff live).2 fun attached => ?_⟩
  exact lost ((c'.uses.mem_iff read').2 ⟨entry, h.occurrence found attached, refers⟩)

/-- What is spared is all that can be seen of the installed tree. -/
theorem sameInstalled (later : Later p q) (c' : Coherent q) : SameInstalled p q := by
  have alike := h.readAlike c later c'
  have top (r : DefId) (root : p.root = some r) := c.attached_root root
  have text (brush : Text.Brush) : q.layout brush = p.layout brush :=
    alike.layout_eq c.forest c'.forest h.root top brush
  constructor
  case root => exact h.root
  case walk => exact fun inspect => alike.walkFrom_eq c.forest c'.forest h.root top inspect
  case text =>
    intro terminal
    have coloured : terminal.coloured q = terminal.coloured p := text terminal.paint
    exact ⟨coloured, by rw [Text.Terminal.plain, Text.Terminal.plain, coloured]⟩
  case free => exact alike.functionFreeVariables_eq c.forest c'.forest h.root top
  case attached => exact h.attached_iff c later c'
  case expression =>
    intro e attached
    exact get?_expressions_congr (h.shape attached) (h.enclosing attached)
  case definition =>
    intro d attached
    exact get?_definitions_congr (h.definition attached) (h.enclosing attached)
  case occurrence => exact fun attached => h.occEntry?_iff c later c' attached
  case bound =>
    intro family v n attached mem
    obtain ⟨role, bound⟩ := c.binders.binding mem
    have kept := h.binding bound attached
    obtain ⟨before, read, binding⟩ := Option.bind_eq_some_iff.1 bound
    obtain ⟨after, read', binding'⟩ := Option.bind_eq_some_iff.1 kept
    obtain ⟨name, kind⟩ := later.name_eq read read'
    exact ⟨before, after, read, read', name, kind, binding'.trans binding.symm,
      fun o => h.unattached_of_gained c later c' read read',
      fun o => h.unattached_of_lost c c' read read'⟩

end Spares

/-! ## Construction -/

/-- A new variable leaves the nodes and the occurrences alone. -/
theorem spares_fresh {name : String} {kind : Kind} :
    Spares p (p.freshVariable family name kind).1 := by
  have same : SameNodes p (p.freshVariable family name kind).1 := sameNodes_fresh
  constructor
  case root => exact root_modifyTable _ _
  case shape => exact fun _ => same.shape _
  case definition => exact fun _ => same.definition _
  case enclosing => exact fun _ => same.enclosing _
  case binding => exact fun bound _ => (same.binding _).trans bound
  case occurrence => exact fun read _ => (occEntry?_keep rfl).trans read

/-- A new node takes pending trees and unbound variables, none of which is in the installed tree. -/
theorem Grown.spares {node : Node} {role : Family → BinderRole} {draft : Draft}
    (g : Grown p node role draft q) (a : Admissible p draft) : Spares p q := by
  have old {n : Node} (attached : p.isAttached n = .ok true) : n ≠ node :=
    g.ne_of_live (hasNode_of_isAttached attached)
  constructor
  case root => exact g.root
  case shape => exact fun attached => g.shape _ (old attached)
  case definition => exact fun attached => g.definition _ (old attached)
  case enclosing =>
    intro n attached
    refine g.enclosing_old (old attached) fun taken => ?_
    obtain ⟨top, notRoot⟩ := a.pending.top n taken
    rw [isRoot_of_attached attached top] at notRoot
    cases notRoot
  case binding =>
    intro family v b bound _
    rw [g.binding, if_neg, bound]
    intro taken
    rw [a.bindable.unbound taken] at bound
    cases bound
  case occurrence =>
    intro family o entry read _
    refine (g.kept fun m minted => ?_).trans read
    rw [(g.minted minted).1] at read
    cases read

/-- A new node is pending, so it spares the installed tree. -/
theorem Enlarged.spares (enlarged : Enlarged p q) : Spares p q := by
  obtain ⟨node, role, draft, grown, admissible, -⟩ := enlarged
  exact grown.spares admissible

/-- A tree that is discarded is not the installed one, and it binds and holds nothing of it. -/
theorem Discarded.spares {node : Node} (discarded : Discarded p node q) (c : Coherent p) :
    Spares p q := by
  have ⟨⟨r, removable⟩, pruned⟩ := discarded
  have stays {n : Node} (attached : p.isAttached n = .ok true) : ¬ p.Within node n := by
    intro within
    obtain ⟨link, linked⟩ := enclosing_ok_iff_hasNode.2 removable.live
    cases link with
    | some parent =>
      obtain ⟨d, impossible⟩ := removable.edge linked
      cases impossible
    | none =>
      have isRoot := isRoot_of_attached (c.attached_above attached within) linked
      rw [removable.notRoot] at isRoot
      cases isRoot
  constructor
  case root => exact pruned.root
  case shape => exact fun attached => discarded.shapeOf?_eq (stays attached)
  case definition => exact fun attached => discarded.definitionOf?_eq (stays attached)
  case enclosing => exact fun attached => discarded.enclosing_eq (stays attached)
  case binding =>
    intro family v b bound attached
    rw [pruned.binding, bound]
    rintro ⟨n, binds, gone⟩
    obtain rfl := (c.binders.mem_iff bound n).1 binds
    rcases gone with gone | ⟨d, gone, child, -⟩
    · exact stays attached gone
    · exact stays (c.attached_below attached (c.forest.within_node_child child)) gone
  case occurrence =>
    exact fun read attached => discarded.occEntry?_eq_some_iff.2 ⟨read, stays attached⟩

/-- Whatever is built up or discarded, with whatever arguments, the attached nodes stay as they are,
with what they bind and hold. -/
theorem spares_perform (c : Consistent p) (quiet : p.verifying = false) {r : DefId}
    (installed : p.root = some r) {call : Call} (construction : call.IsConstruction) :
    Spares p (p.perform call).program := by
  rcases construction with builds | ⟨node, rfl⟩
  · rcases Call.cases_of_not_isChange builds with
      adds | ⟨name, kind, rfl⟩ | ⟨name, rfl⟩ | ⟨root, rfl⟩
    · exact ((ends_adding adds).mono fun _ enlarged => enlarged.spares).program quiet (.refl p)
    · exact spares_fresh
    · exact spares_fresh
    · have refused : p.checkInstall root = .error (.refused .rootAlreadyInstalled) := by
        simp [checkInstall, installed, require, bind, Except.bind]
      have unchanged : (p.perform (.install root)).program = p := by
        simp [perform, built, Outcome.map, install, Outcome.commit, refused, Outcome.failed]
      rw [unchanged]
      exact .refl p
  · have ends := ends_discard c.toCoherent node
    exact (ends.mono fun _ discarded => discarded.spares c.toCoherent).program quiet (.refl p)

/-- Construction does not touch the installed tree: whether or not the call succeeds, all that is
seen of the tree is the same before and after it. -/
theorem construction_spares_installed (reachable : Reachable p) {r : DefId}
    (installed : p.root = some r) {call : Call} (construction : call.IsConstruction) :
    SameInstalled p (p.perform call).program := by
  obtain ⟨c, quiet⟩ := reachable.consistent
  obtain ⟨c', -⟩ := (Reachable.call call reachable).consistent
  exact (spares_perform c quiet installed construction).sameInstalled c (later_perform p call)
    c'.toCoherent

/-- An installed root with a leaf as its body, and a pending jump to the return continuation of the
root. -/
def returnPending : Program :=
  run [.freshContinuation "return", .unreachable, .root ⟨0⟩ [] ⟨[], .any⟩ ⟨0⟩, .install ⟨0⟩,
    .jump ⟨⟨0⟩, .nonRecursive⟩ []]

/-- Discarding the jump takes its occurrence out of the set of the return continuation, and all else
about the root and its leaf stays. -/
theorem returnPending_discard_spares : returnPending.root = some ⟨0⟩ ∧
    returnPending.Lists (⟨0⟩ : VarId .continuation) ⟨0⟩ ∧
    ¬ (returnPending.perform (.discard (.expr ⟨1⟩))).program.Lists (⟨0⟩ : VarId .continuation) ⟨0⟩ ∧
    SameInstalled returnPending (returnPending.perform (.discard (.expr ⟨1⟩))).program := by
  have reachable : Reachable returnPending := reachable_run _
  refine ⟨rfl, ⟨_, rfl, HandleSet.mem_insert.2 (.inl rfl)⟩, ?_,
    construction_spares_installed reachable rfl (.inr ⟨_, rfl⟩)⟩
  rintro ⟨entry, ⟨⟩, mem⟩
  simp at mem

end Program

end ContinuationIR
