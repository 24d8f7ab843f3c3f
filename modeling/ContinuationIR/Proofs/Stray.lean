import ContinuationIR.Proofs.Invariant
import ContinuationIR.Proofs.Trail

/-!
# What the checker reports about reachable programs

On a consistent program the walk of the checker goes through the installed tree and finds nothing.
What is left over is what does not belong to the installed tree: pending nodes, what they bind and
what they hold, and variables that are used but not bound yet.
-/

namespace ContinuationIR
set_option autoImplicit false

/-- The violation only says that something is not part of the installed tree. -/
def Violation.IsStray : Violation → Prop
  | .unreachableNode _ | .unreachableVariable _ | .unreachableOccurrence _ => True
  | _ => False

namespace Program

variable {family : Family} {p : Program} {r : DefId} {n : Node}

/-! ## What the walk finds -/

theorem not_isStray_of_finds {s : Audit} {event : Event} {violation : Violation}
    (mem : violation ∈ p.finds s event) : ¬ violation.IsStray := by
  cases event with
  | enter node =>
    rcases List.mem_append.1 mem with mem | mem
    · repeat' split at mem
      all_goals simp_all [Violation.IsStray]
    · have rule := ofRule_of_node mem
      cases violation <;> first | exact id | exact rule.elim
  | mark site m =>
    cases m with
    | bind v =>
      rcases List.mem_append.1 mem with mem | mem
      · split at mem <;> simp_all [Violation.IsStray]
      · simp only at mem
        repeat' split at mem
        all_goals simp_all [Violation.IsStray]
    | use o =>
      cases site with
      | defn d => cases mem
      | expr e =>
        simp only [finds, useFindings, scopeFindings] at mem
        repeat' split at mem
        all_goals
          simp only [List.append_nil, List.nil_append, List.mem_append, List.mem_singleton] at mem
          grind [Violation.IsStray]
    | value => cases mem
    | branch _ => cases mem
  | missing node =>
    obtain ⟨n, -, rfl⟩ := List.mem_map.1 mem
    exact id
  | again node => simp_all [finds, Violation.IsStray]
  | leave _ => cases mem
  | broken _ => cases mem

/-- What the walk finds is about what it meets, so it is never said to be stray. -/
theorem not_isStray_of_findings {s : Audit} {events : List Event} {violation : Violation}
    (mem : violation ∈ p.findings s events) : ¬ violation.IsStray := by
  induction events generalizing s with
  | nil => cases mem
  | cons event rest ih =>
    rcases List.mem_append.1 mem with mem | mem
    · exact not_isStray_of_finds mem
    · exact ih mem

/-- Distinct nodes hold distinct occurrences. -/
theorem UsesIndexed.nodup_uses (u : UsesIndexed p) {nodes : List Node} (distinct : nodes.Nodup) :
    (nodes.flatMap p.usesOf).Nodup := by
  refine nodup_flatMap u.once (fun one two => ?_) distinct
  obtain ⟨entry, found, rfl⟩ := u.holder one
  exact (u.eq_holder found two).symm

/-- The walk ends, and the report is what it finds and what it leaves over. -/
theorem Forest.check_eq_append (f : Forest p) (stands : RootStands p) :
    p.check = .ok (p.findings .start p.auditTrail ++ p.leftovers p.lastState) := by
  refine check_eq_ok fun fault => ?_
  cases root : p.root with
  | none => simp [auditTrail, root]
  | some r => exact (f.follows root (stands r root)).whole fault

namespace Coherent

variable (c : Coherent p)
include c

/-- Where names are marked, resolving a use is looking for its binder along the lineage of the
holder. -/
theorem resolve_eq_ok_iff (marked : NamesMarked p) {v : VarId family} {holder : ExprId}
    {above : List Node} {recursivity : Recursivity}
    (lin : Lineage p.enclosing (.expr holder) above) :
    p.resolve none v holder = .ok recursivity ↔
      p.seenAlong v (.expr holder) above = some recursivity := by
  cases bound : p.bindingOf? v with
  | some binding =>
    have along : p.resolve none v holder = _ :=
      resolve_of_bound bound lin (hasNode_of_lineage lin)
    rw [along]
    exact resolveAlong_eq_ok_iff lin (c.binders.mem_iff bound) (marked bound)
      c.forest.group_of_definition
  | none =>
    constructor
    · intro resolved
      obtain ⟨binding, found⟩ := exists_binding_of_resolve resolved
      rw [bound] at found
      cases found
    · intro seen
      obtain ⟨n, mem⟩ := exists_binder_of_seenAlong seen
      obtain ⟨role, found⟩ := c.binders.binding mem
      rw [bound] at found
      cases found

/-- All that the checker can find at a node is an occurrence that does not resolve to its
recursivity. -/
theorem stands_iff (marked : NamesMarked p) : Stands p n ↔
    ∀ {family : Family} {o : OccId family} {entry : OccurrenceEntry family},
      p.occEntry? o = some entry → .expr entry.holder = n →
        p.resolve none entry.var entry.holder = .ok entry.recursivity := by
  constructor
  · rintro stands family o entry found rfl
    obtain ⟨entry', above, found', -, -, lin, seen⟩ := stands.uses ⟨o⟩ (c.uses.held found)
    rw [found] at found'
    cases found'
    exact (c.resolve_eq_ok_iff marked lin).2 seen
  · intro resolves
    constructor
    case rules => exact obeys_iff.1 (c.obey n)
    case children => exact fun child mem => c.forest.link mem
    case binders =>
      intro binder mem
      obtain ⟨role, bound⟩ := c.binders.binding mem
      rw [bound]
      rfl
    case uses =>
      intro use mem
      obtain ⟨entry, found, rfl⟩ := c.uses.holder mem
      obtain ⟨above, lin⟩ := c.forest.ends (hasNode_of_use mem)
      exact ⟨entry, above, found, rfl, c.uses.listed found, lin,
        (c.resolve_eq_ok_iff marked lin).1 (resolves found rfl)⟩

theorem nodup_binders {nodes : List Node} (distinct : nodes.Nodup) :
    (nodes.flatMap p.bindersOf).Nodup :=
  nodup_flatMap c.binders.once c.binders.site_unique distinct

theorem follows (root : p.root = some r) : Follows p r :=
  c.forest.follows root (c.root r root)

/-- The walk finds nothing just if the installed tree is in scope. -/
theorem findings_eq_nil_iff (marked : NamesMarked p) :
    p.findings .start p.auditTrail = [] ↔ Scoped p := by
  cases root : p.root with
  | none =>
    have trail : p.auditTrail = [] := by simp only [auditTrail, root]
    refine iff_of_true (by rw [trail]; rfl) fun _ attached => ?_
    obtain ⟨r, installed, -⟩ := c.attached_iff.1 attached
    rw [root] at installed
    cases installed
  | some r =>
    have follows := c.follows root
    rw [follows.findings_eq_nil_iff (c.root r root)]
    constructor
    · rintro ⟨-, -, stands⟩ family o entry found attached
      obtain ⟨r', installed, within⟩ := c.attached_iff.1 attached
      rw [root] at installed
      cases installed
      exact (c.stands_iff marked).1 (stands _ within) found rfl
    · intro inScope
      refine ⟨c.nodup_binders follows.distinct, c.uses.nodup_uses follows.distinct, ?_⟩
      intro n within
      refine (c.stands_iff marked).2 fun found holder => inScope found ?_
      rw [holder]
      exact c.attached_iff.2 ⟨r, root, within⟩

/-- The report about a program whose installed tree is in scope is what the walk leaves over. -/
theorem check_eq (marked : NamesMarked p) (inScope : Scoped p) :
    p.check = .ok (p.leftovers p.lastState) := by
  rw [c.forest.check_eq_append c.root, (c.findings_eq_nil_iff marked).2 inScope, List.nil_append]

/-- What the walk has seen at its end: the attached nodes, what they bind and what they hold. -/
theorem lastState_seen :
    (∀ n, n ∈ p.lastState.entered ↔ p.isAttached n = .ok true) ∧
    (∀ (family : Family) (v : VarId family), v ∈ (p.lastState.ledger family).bound ↔
      ∃ n, p.isAttached n = .ok true ∧ ⟨v⟩ ∈ p.bindersOf n) ∧
    ∀ (family : Family) (o : OccId family), o ∈ (p.lastState.ledger family).held ↔
      ∃ n, p.isAttached n = .ok true ∧ ⟨o⟩ ∈ p.usesOf n := by
  simp only [c.attached_iff]
  cases root : p.root with
  | none =>
    have last : p.lastState = .start := by simp only [lastState, auditTrail, root, List.foldl_nil]
    rw [last]
    refine ⟨by simp [Audit.start], fun family v => ?_, fun family o => ?_⟩ <;>
      cases family <;> simp [Audit.start, Audit.ledger, Ledger.empty]
  | some r =>
    have follows := c.follows root
    simp [follows.mem_entered, follows.mem_bound, follows.mem_held]

/-- The walk has met a bound variable exactly when its binder is attached. -/
theorem mem_bound_iff {v : VarId family} {binding : Binding}
    (bound : p.bindingOf? v = some binding) :
    v ∈ (p.lastState.ledger family).bound ↔ p.isAttached binding.site = .ok true := by
  rw [c.lastState_seen.2.1]
  constructor
  · rintro ⟨n, attached, mem⟩
    rwa [c.binders.site_unique (c.binders.site bound) mem]
  · exact fun attached => ⟨_, attached, c.binders.site bound⟩

theorem not_mem_bound {v : VarId family} (unbound : p.bindingOf? v = none) :
    v ∉ (p.lastState.ledger family).bound := by
  rw [c.lastState_seen.2.1]
  rintro ⟨n, -, mem⟩
  obtain ⟨role, bound⟩ := c.binders.binding mem
  rw [unbound] at bound
  cases bound

/-- The walk has met an occurrence exactly when its holder is attached. -/
theorem mem_held_iff {o : OccId family} {entry : OccurrenceEntry family}
    (found : p.occEntry? o = some entry) :
    o ∈ (p.lastState.ledger family).held ↔ p.isAttached (.expr entry.holder) = .ok true := by
  rw [c.lastState_seen.2.2]
  constructor
  · rintro ⟨n, attached, mem⟩
    obtain ⟨entry', found', rfl⟩ := c.uses.holder mem
    rw [found] at found'
    cases found'
    exact attached
  · exact fun attached => ⟨_, attached, c.uses.held found⟩

theorem not_foreign (v : VarId family) (o : OccId family) : ¬ p.Foreign v o := by
  rintro ⟨lists, other⟩
  obtain ⟨entry, found, var⟩ := c.uses.refers lists
  exact other entry found var

/-! ### What is left over -/

theorem isStray_of_mem {violation : Violation} (mem : violation ∈ p.leftovers p.lastState) :
    violation.IsStray := by
  rcases mem_leftovers.1 mem with ⟨n, rfl, -⟩ | ⟨_, v, rfl, -⟩ | ⟨_, v, o, -, foreign⟩ |
    ⟨_, o, rfl, -⟩
  · trivial
  · trivial
  · exact absurd foreign (c.not_foreign v o)
  · trivial

/-- A node is reported as unreachable exactly when it is live and not attached. -/
theorem unreachableNode_mem_iff : .unreachableNode n ∈ p.leftovers p.lastState ↔
    p.hasNode n = true ∧ p.isAttached n = .ok false := by
  have stray : .unreachableNode n ∈ p.leftovers p.lastState ↔
      p.hasNode n = true ∧ n ∉ p.lastState.entered := by
    rw [mem_leftovers]
    simp
  rw [stray]
  refine and_congr_right fun live => ?_
  rw [c.unattached_iff live, c.lastState_seen.1]

theorem unreachableVariable_mem_iff {v : VarId family} :
    .unreachableVariable v ∈ p.leftovers p.lastState ↔
      (∃ binding, p.bindingOf? v = some binding ∧ p.isAttached binding.site = .ok false) ∨
        (p.bindingOf? v = none ∧ ∃ o, p.Lists v o) := by
  have stray : .unreachableVariable v ∈ p.leftovers p.lastState ↔
      v ∉ (p.lastState.ledger family).bound ∧ p.Tied v := by
    rw [mem_leftovers]
    constructor
    · rintro (⟨_, ⟨⟩, -⟩ | ⟨_, _, ⟨⟩, rest⟩ | ⟨_, _, _, ⟨⟩, -⟩ | ⟨_, _, ⟨⟩, -⟩)
      exact rest
    · exact fun rest => .inr (.inl ⟨_, _, rfl, rest⟩)
  rw [stray, Tied]
  cases bound : p.bindingOf? v with
  | none => simp [c.not_mem_bound bound]
  | some binding =>
    have live := hasNode_of_binder (c.binders.site bound)
    simp [c.mem_bound_iff bound, c.unattached_iff live]

/-- An occurrence is reported as unreachable exactly when its holder is not attached. -/
theorem unreachableOccurrence_mem_iff {o : OccId family} :
    .unreachableOccurrence o ∈ p.leftovers p.lastState ↔
      ∃ entry, p.occEntry? o = some entry ∧ p.isAttached (.expr entry.holder) = .ok false := by
  have stray : .unreachableOccurrence o ∈ p.leftovers p.lastState ↔
      p.hasOccurrence o = true ∧ o ∉ (p.lastState.ledger family).held := by
    rw [mem_leftovers]
    constructor
    · rintro (⟨_, ⟨⟩, -⟩ | ⟨_, _, ⟨⟩, -⟩ | ⟨_, _, _, ⟨⟩, -⟩ | ⟨_, _, ⟨⟩, rest⟩)
      exact rest
    · exact fun rest => .inr (.inr (.inr ⟨_, _, rfl, rest⟩))
  have live : p.hasOccurrence o = true ↔ ∃ entry, p.occEntry? o = some entry := Slots.contains_iff
  rw [stray, live]
  constructor
  · rintro ⟨⟨entry, found⟩, new⟩
    rw [c.mem_held_iff found] at new
    exact ⟨entry, found, (c.unattached_iff (hasNode_of_use (c.uses.held found))).2 new⟩
  · rintro ⟨entry, found, pending⟩
    refine ⟨⟨entry, found⟩, ?_⟩
    rw [c.mem_held_iff found, pending]
    simp

/-- Nothing is left over exactly when every live node is attached. -/
theorem leftovers_eq_nil_iff (inScope : Scoped p) : p.leftovers p.lastState = [] ↔
    ∀ n, p.hasNode n = true → p.isAttached n = .ok true := by
  constructor
  · intro nothing n live
    have absent : .unreachableNode n ∉ p.leftovers p.lastState := by simp [nothing]
    rw [c.unreachableNode_mem_iff, c.unattached_iff live] at absent
    by_contra pending
    exact absent ⟨live, pending⟩
  · intro all
    have attached {n : Node} (live : p.hasNode n = true) : p.isAttached n ≠ .ok false := by
      simp [all n live]
    refine List.eq_nil_iff_forall_not_mem.2 fun violation mem => ?_
    have stray := c.isStray_of_mem mem
    cases violation with
    | unreachableNode n =>
      obtain ⟨live, pending⟩ := c.unreachableNode_mem_iff.1 mem
      exact attached live pending
    | unreachableVariable v =>
      rcases c.unreachableVariable_mem_iff.1 mem with ⟨b, bound, pending⟩ | ⟨unbound, o, lists⟩
      · exact attached (hasNode_of_binder (c.binders.site bound)) pending
      · obtain ⟨entry, found, rfl⟩ := c.uses.refers lists
        have live := hasNode_of_use (c.uses.held found)
        obtain ⟨b, bound⟩ := exists_binding_of_resolve (inScope found (all _ live))
        rw [unbound] at bound
        cases bound
    | unreachableOccurrence o =>
      obtain ⟨entry, found, pending⟩ := c.unreachableOccurrence_mem_iff.1 mem
      exact attached (hasNode_of_use (c.uses.held found)) pending
    | _ => exact stray

end Coherent

namespace Consistent

/-- A consistent program is checked without a fault, and only what is left over is reported. -/
theorem check_eq (c : Consistent p) : p.check = .ok (p.leftovers p.lastState) :=
  c.toCoherent.check_eq c.marked c.inScope

theorem leftovers_eq_nil_iff (c : Consistent p) : p.leftovers p.lastState = [] ↔
    ∀ n, p.hasNode n = true → p.isAttached n = .ok true :=
  c.toCoherent.leftovers_eq_nil_iff c.inScope

end Consistent

/-- Whatever calls led to a program, the checker reports nothing but what is not part of the
installed tree, and all of it: the nodes that are not attached, the variables that are bound at such
a node or used without being bound, and the occurrences held by such a node. So it reports nothing
just if every node is attached. -/
theorem check_reports_unattached (reachable : Reachable p) : ∃ report, p.check = .ok report ∧
    (∀ violation ∈ report, violation.IsStray) ∧
    (∀ n, .unreachableNode n ∈ report ↔ p.hasNode n = true ∧ p.isAttached n = .ok false) ∧
    (∀ (family : Family) (v : VarId family), .unreachableVariable v ∈ report ↔
      (∃ binding, p.bindingOf? v = some binding ∧ p.isAttached binding.site = .ok false) ∨
        (p.bindingOf? v = none ∧ ∃ o, p.Lists v o)) ∧
    (∀ (family : Family) (o : OccId family), .unreachableOccurrence o ∈ report ↔
      ∃ entry, p.occEntry? o = some entry ∧ p.isAttached (.expr entry.holder) = .ok false) ∧
    (report = [] ↔ ∀ n, p.hasNode n = true → p.isAttached n = .ok true) := by
  obtain ⟨c, -⟩ := reachable.consistent
  exact ⟨_, c.check_eq, fun _ => c.isStray_of_mem, fun _ => c.unreachableNode_mem_iff,
    fun _ _ => c.unreachableVariable_mem_iff, fun _ _ => c.unreachableOccurrence_mem_iff,
    c.leftovers_eq_nil_iff⟩

/-- An installed root with a leaf as its body, and a pending jump to a continuation that is not bound
yet. -/
def jumpPending : Program :=
  run [.freshContinuation "return", .unreachable, .root ⟨0⟩ [] ⟨[], .any⟩ ⟨0⟩, .install ⟨0⟩,
    .freshContinuation "next", .jump ⟨⟨1⟩, .nonRecursive⟩ []]

/-- The jump, its occurrence and its continuation are reported, and the leaf is not. -/
theorem jumpPending_reported : ∃ report, jumpPending.check = .ok report ∧
    .unreachableNode (.expr ⟨1⟩) ∈ report ∧ .unreachableNode (.expr ⟨0⟩) ∉ report ∧
    .unreachableVariable (⟨1⟩ : VarId .continuation) ∈ report ∧
    .unreachableOccurrence (⟨0⟩ : OccId .continuation) ∈ report ∧ report ≠ [] := by
  have reachable : Reachable jumpPending := reachable_run _
  obtain ⟨report, checked, -, nodes, bindings, uses, whole⟩ := check_reports_unattached reachable
  refine ⟨report, checked, (nodes _).2 ⟨rfl, rfl⟩, fun mem => ?_,
    (bindings _ _).2 (.inr ⟨rfl, ⟨0⟩, _, rfl, HandleSet.mem_insert.2 (.inl rfl)⟩),
    (uses _ _).2 ⟨_, rfl, rfl⟩, fun nothing => ?_⟩
  · cases ((nodes _).1 mem).2
  · cases whole.1 nothing (.expr ⟨1⟩) rfl

end Program

end ContinuationIR
