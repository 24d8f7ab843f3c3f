import Mathlib.Data.List.Perm.Basic
import ContinuationIR.Proofs.Forest

/-!
# Regions of a forest

The plain walk over a node, seen as the list of the nodes it enters: what it binds and what it holds
is what those nodes bind and hold, on every table. On a forest the walk over a node meets no fault
and enters each node of the tree once, without those of a tree that is left out; so the region of a
node can be told from the enclosing links alone.
-/

namespace ContinuationIR
set_option autoImplicit false

namespace Event

/-- The node that is entered here. -/
def entered? : Event → Option Node
  | .enter node => some node
  | _ => none

/-- The variable that is bound here, of either family. -/
def binder? : Event → Option Binder
  | .mark _ (.bind var) => some ⟨var⟩
  | _ => none

/-- The occurrence that is used here, of either family. -/
def use? : Event → Option Use
  | .mark _ (.use occurrence) => some ⟨occurrence⟩
  | _ => none

theorem used?_eq_some_iff {family : Family} {event : Event} {occurrence : OccId family} :
    event.used? family = some occurrence ↔ event.use? = some ⟨occurrence⟩ := by
  cases event with
  | mark site m =>
    cases m with
    | @use other _ => cases family <;> cases other <;> simp [used?, use?]
    | _ => cases family <;> simp [used?, use?]
  | _ => cases family <;> simp [used?, use?]

theorem bound?_eq_some_iff {family : Family} {event : Event} {var : VarId family} :
    event.bound? family = some var ↔ event.binder? = some ⟨var⟩ := by
  cases event with
  | mark site m =>
    cases m with
    | @bind other _ => cases family <;> cases other <;> simp [bound?, binder?]
    | _ => cases family <;> simp [bound?, binder?]
  | _ => cases family <;> simp [bound?, binder?]

theorem expression?_eq_some_iff {event : Event} {e : ExprId} :
    event.expression? = some e ↔ event.entered? = some (.expr e) := by
  cases event with
  | enter node => cases node <;> simp [expression?, entered?]
  | _ => simp [expression?, entered?]

theorem definition?_eq_some_iff {event : Event} {d : DefId} :
    event.definition? = some d ↔ event.entered? = some (.defn d) := by
  cases event with
  | enter node => cases node <;> simp [definition?, entered?]
  | _ => simp [definition?, entered?]

end Event

namespace Region

/-- The nodes of the region, in the order they are entered. -/
def nodes (r : Region) : List Node := r.events.filterMap Event.entered?

/-- What the region binds, of both families. -/
def binders (r : Region) : List Binder := r.events.filterMap Event.binder?

/-- What the region holds, of both families. -/
def uses (r : Region) : List Use := r.events.filterMap Event.use?

variable {r : Region} {family : Family}

theorem mem_held {occurrence : OccId family} : occurrence ∈ r.held family ↔ ⟨occurrence⟩ ∈ r.uses := by
  simp only [held, uses, List.mem_filterMap, Event.used?_eq_some_iff]

theorem mem_bound {var : VarId family} : var ∈ r.bound family ↔ ⟨var⟩ ∈ r.binders := by
  simp only [bound, binders, List.mem_filterMap, Event.bound?_eq_some_iff]

theorem mem_expressions {e : ExprId} : e ∈ r.expressions ↔ .expr e ∈ r.nodes := by
  simp only [expressions, nodes, List.mem_filterMap, Event.expression?_eq_some_iff]

theorem mem_definitions {d : DefId} : d ∈ r.definitions ↔ .defn d ∈ r.nodes := by
  simp only [definitions, nodes, List.mem_filterMap, Event.definition?_eq_some_iff]

end Region

namespace Program

/-! ## The plain walk on any table -/

/-- A view of events that reads the marks of a node as `step` reads them in its script. -/
structure ReadsMarks {β : Type} (event : Event → Option β) (step : Step → Option β) : Prop where
  mark : ∀ site m, event (.mark site m) = step (.mark m)
  child : ∀ node, step (.child node) = none
  brokenStep : ∀ fault, step (.broken fault) = none
  broken : ∀ fault, event (.broken fault) = none
  missing : ∀ node, event (.missing node) = none
  enter : ∀ node, event (.enter node) = none
  leave : ∀ node, event (.leave node) = none

theorem readsMarks_use : ReadsMarks Event.use? Step.use? where
  mark _ m := by cases m <;> rfl
  child _ := rfl
  brokenStep _ := rfl
  broken _ := rfl
  missing _ := rfl
  enter _ := rfl
  leave _ := rfl

theorem readsMarks_binder : ReadsMarks Event.binder? Step.binder? where
  mark _ m := by cases m <;> rfl
  child _ := rfl
  brokenStep _ := rfl
  broken _ := rfl
  missing _ := rfl
  enter _ := rfl
  leave _ := rfl

/-- A view that reads nothing off the marks of a node reads what the children have. -/
theorem filterMap_expand {β : Type} {view : Event → Option β}
    (marks : ∀ site m, view (.mark site m) = none) (broken : ∀ fault, view (.broken fault) = none)
    (visit : Node → List Event) (site : Node) (script : List Step) :
    (script.flatMap (Step.expand visit site)).filterMap view =
      (script.filterMap Step.child?).flatMap fun c => (visit c).filterMap view := by
  induction script with
  | nil => rfl
  | cons step rest ih =>
    cases step <;>
      simp [Step.expand, Step.child?, marks, broken, List.filterMap_cons, List.filterMap_append, ih]

/-- The nodes entered by a script are those its children enter. -/
theorem entered_expand (visit : Node → List Event) (site : Node) (script : List Step) :
    (script.flatMap (Step.expand visit site)).filterMap Event.entered? =
      (script.filterMap Step.child?).flatMap fun c => (visit c).filterMap Event.entered? :=
  filterMap_expand (fun _ _ => rfl) (fun _ => rfl) visit site script

/-- What a script binds or uses is its own and that of its children, in some order. -/
theorem filterMap_expand_perm {β : Type} {event : Event → Option β} {step : Step → Option β}
    (reads : ReadsMarks event step) (visit : Node → List Event) (site : Node)
    (script : List Step) :
    (script.flatMap (Step.expand visit site)).filterMap event |>.Perm
      (script.filterMap step ++
        (script.filterMap Step.child?).flatMap fun c => (visit c).filterMap event) := by
  induction script with
  | nil => exact .nil
  | cons s rest ih =>
    cases s with
    | mark m =>
      simp only [List.flatMap_cons, Step.expand, List.singleton_append, List.filterMap_cons,
        reads.mark, Step.child?]
      cases step (.mark m) with
      | none => exact ih
      | some b => exact ih.cons b
    | broken fault =>
      simpa [Step.expand, List.filterMap_cons, reads.broken, reads.brokenStep, Step.child?] using ih
    | child node =>
      simp only [List.flatMap_cons, Step.expand, List.filterMap_append, List.filterMap_cons,
        reads.child, Step.child?]
      exact (ih.append_left _).trans (List.perm_append_comm_assoc _ _ _)

variable {p : Program} {skip : Option ExprId} {depth : Nat} {node : Node}

/-- A walk enters the node and then what the walks from its children enter. -/
theorem entered_eventsBy_succ :
    (p.eventsBy skip (depth + 1) node).filterMap Event.entered? =
      if skip.map Node.expr = some node ∨ p.hasNode node = false then []
      else node :: (p.childrenOf node).flatMap fun c =>
        (p.eventsBy skip depth c).filterMap Event.entered? := by
  simp only [eventsBy]
  by_cases skipped : skip.map Node.expr = some node
  · simp [skipped]
  · rw [← script?_isSome]
    cases read : p.script? node with
    | none => simp [skipped, Event.entered?]
    | some script =>
      simp [skipped, childrenOf, scriptOf, read, Event.entered?, entered_expand,
        List.filterMap_append]

/-- What a walk reads off marks is what the nodes it enters have in their scripts. -/
theorem eventsBy_perm {β : Type} {event : Event → Option β} {step : Step → Option β}
    (reads : ReadsMarks event step) (p : Program) (skip : Option ExprId) (depth : Nat)
    (node : Node) :
    ((p.eventsBy skip depth node).filterMap event).Perm
      (((p.eventsBy skip depth node).filterMap Event.entered?).flatMap fun n =>
        (p.scriptOf n).filterMap step) := by
  induction depth generalizing node with
  | zero => simp [eventsBy, reads.broken, Event.entered?]
  | succ depth ih =>
    simp only [eventsBy]
    split
    · exact .nil
    · split
      · simp [reads.missing, Event.entered?]
      · next script read =>
        have entering : (p.scriptOf node) = script := by simp [scriptOf, read]
        simp only [List.filterMap_cons, List.filterMap_append, reads.enter, reads.leave,
          Event.entered?, List.filterMap_nil, List.append_nil, entered_expand, List.flatMap_cons,
          entering, List.flatMap_assoc]
        refine (filterMap_expand_perm reads _ _ script).trans (.append_left _ ?_)
        exact .flatMap_left _ fun c _ => ih c

/-! ## The plain walk on a forest -/

/-- A script breaks off only at a dead member of a group. -/
theorem broken_mem_scriptOf {fault : Fault} (mem : .broken fault ∈ p.scriptOf node) :
    ∃ d, fault = .stale d ∧ .defn d ∈ p.childrenOf node ∧ p.hasNode (.defn d) = false := by
  cases node with
  | defn d =>
    cases read : p.definitions.get? d <;> simp [scriptOf, script?, read, definitionScript] at mem
  | expr e =>
    cases read : p.shapeOf? e with
    | none => simp [scriptOf_of_dead, hasNode_expr, read] at mem
    | some shape =>
      rw [childrenOf_expr read]
      rw [scriptOf_expr read] at mem
      cases shape with
      | group family members body =>
        simp only [shapeScript, List.mem_append, List.mem_flatMap, List.mem_map, reduceCtorEq,
          and_false, exists_false, List.mem_singleton, or_false] at mem
        obtain ⟨d, member, step⟩ := mem
        refine ⟨d, ?_⟩
        unfold nameStep at step
        split at step
        · next dead =>
          refine ⟨by simpa using step, ?_, by simp [hasNode, Slots.contains, dead]⟩
          simp [Shape.children, member]
        · split at step <;> simp at step
      | _ => simp [shapeScript, Step.uses, Step.branch] at mem

/-- The skipped tree does not contain the node, unless it is headed by it. -/
def Clear (p : Program) (skip : Option ExprId) (node : Node) : Prop :=
  ∀ s, skip = some s → p.Within (.expr s) node → .expr s = node

/-- The node lies in the tree of the head and not in the tree that is left out. -/
def Inside (p : Program) (head : Node) (skip : Option ExprId) (node : Node) : Prop :=
  p.Within head node ∧ ∀ s, skip = some s → ¬ p.Within (.expr s) node

namespace Forest

variable {above : List Node}

/-- Below a node that is not skipped, the skipped expression is still clear of the children. -/
theorem clear_child (f : Forest p) {child : Node} (mem : child ∈ p.childrenOf node)
    (clear : p.Clear skip node) (ne : skip.map Node.expr ≠ some node) : p.Clear skip child := by
  rintro s rfl within
  rcases (f.within_child mem).1 within with eq | within
  · exact eq
  · exact absurd (clear s rfl within) (by simpa using ne)

/-- A node is inside a tree when it is the root or inside the tree of a child. -/
theorem inside_iff_child (f : Forest p) (live : p.hasNode node = true) (clear : p.Clear skip node)
    (ne : skip.map Node.expr ≠ some node) {n : Node} :
    p.Inside node skip n ↔ n = node ∨ ∃ c ∈ p.childrenOf node, p.Inside c skip n := by
  unfold Inside
  rw [f.within_iff_child]
  constructor
  · rintro ⟨⟨rfl, -⟩ | ⟨c, mem, within⟩, out⟩
    · exact .inl rfl
    · exact .inr ⟨c, mem, within, out⟩
  · rintro (rfl | ⟨c, mem, within, out⟩)
    · refine ⟨.inl ⟨rfl, live⟩, ?_⟩
      rintro s rfl within
      exact ne (by simpa using clear s rfl within)
    · exact ⟨.inr ⟨c, mem, within⟩, out⟩

/-- The walk enters exactly the nodes of the tree. -/
theorem mem_entered (f : Forest p) (lin : Lineage p.enclosing node above)
    (deep : p.nodeSlots < above.length + depth) (clear : p.Clear skip node) {n : Node} :
    n ∈ (p.eventsBy skip depth node).filterMap Event.entered? ↔ p.Inside node skip n := by
  induction depth generalizing node above with
  | zero =>
    have := length_le_nodeSlots lin.nodup (hasNode_of_lineage lin)
    simp only [List.length_cons] at this
    omega
  | succ depth ih =>
    have live := hasNode_of_lineage lin node List.mem_cons_self
    rw [entered_eventsBy_succ]
    by_cases skipped : skip.map Node.expr = some node
    · obtain ⟨s, rfl, rfl⟩ := Option.map_eq_some_iff.1 skipped
      simp [Inside]
    · rw [f.inside_iff_child live clear skipped]
      simp only [skipped, live, Bool.true_eq_false, or_self, if_false, List.mem_cons,
        List.mem_flatMap]
      refine or_congr_right (exists_congr fun c => and_congr_right fun mem => ?_)
      exact ih (.up (f.link mem) lin) (by simp; omega) (f.clear_child mem clear skipped)

/-- The walk enters no node twice. -/
theorem entered_nodup (f : Forest p) (lin : Lineage p.enclosing node above)
    (deep : p.nodeSlots < above.length + depth) (clear : p.Clear skip node) :
    ((p.eventsBy skip depth node).filterMap Event.entered?).Nodup := by
  induction depth generalizing node above with
  | zero => exact List.nodup_nil
  | succ depth ih =>
    rw [entered_eventsBy_succ]
    by_cases stop : skip.map Node.expr = some node ∨ p.hasNode node = false
    · rw [if_pos stop]
      exact List.nodup_nil
    · rw [not_or, Bool.not_eq_false] at stop
      obtain ⟨skipped, live⟩ := stop
      have below (c : Node) (mem : c ∈ p.childrenOf node) {n : Node} :
          n ∈ (p.eventsBy skip depth c).filterMap Event.entered? ↔ p.Inside c skip n :=
        f.mem_entered (.up (f.link mem) lin) (by simp; omega) (f.clear_child mem clear skipped)
      simp only [skipped, live, Bool.true_eq_false, or_self, if_false, List.nodup_cons,
        List.mem_flatMap, not_exists, not_and]
      refine ⟨fun c mem entered => ?_, List.nodup_flatMap.2 ⟨fun c mem => ?_, ?_⟩⟩
      · exact f.not_within_of_child mem ((below c mem).1 entered).1
      · exact ih (.up (f.link mem) lin) (by simp; omega) (f.clear_child mem clear skipped)
      · refine (f.once node).pairwise_of_forall_ne fun c mem c' mem' ne => ?_
        intro n one two
        exact f.children_disjoint mem mem' ne ((below c mem).1 one).1 ((below c' mem').1 two).1

/-- The walk meets no fault. -/
theorem eventsBy_sound (f : Forest p) (lin : Lineage p.enclosing node above)
    (deep : p.nodeSlots < above.length + depth) :
    ∀ event ∈ p.eventsBy skip depth node, event.fault? = none := by
  induction depth generalizing node above with
  | zero =>
    have := length_le_nodeSlots lin.nodup (hasNode_of_lineage lin)
    simp only [List.length_cons] at this
    omega
  | succ depth ih =>
    have live := hasNode_of_lineage lin node List.mem_cons_self
    rw [← script?_isSome, Option.isSome_iff_exists] at live
    obtain ⟨script, read⟩ := live
    intro event mem
    simp only [eventsBy, read] at mem
    split at mem
    · simp at mem
    · have entering : p.scriptOf node = script := by simp [scriptOf, read]
      simp only [List.mem_append, List.mem_cons, List.mem_flatMap, List.not_mem_nil, or_false] at mem
      rcases mem with (rfl | ⟨step, inScript, mem⟩) | rfl
      · rfl
      · cases step with
        | mark m =>
          obtain rfl := List.mem_singleton.1 mem
          rfl
        | child c =>
          have child : c ∈ p.childrenOf node :=
            List.mem_filterMap.2 ⟨_, entering ▸ inScript, rfl⟩
          exact ih (.up (f.link child) lin) (by simp; omega) event mem
        | broken fault =>
          obtain ⟨d, -, child, dead⟩ := broken_mem_scriptOf (entering ▸ inScript)
          simp [f.hasNode_child child] at dead
      · rfl

end Forest

/-- What a region consists of, told by the nodes that lie in it. -/
structure Covers (p : Program) (r : Region) (inside : Node → Prop) : Prop where
  nodes : ∀ {n : Node}, n ∈ r.nodes ↔ inside n
  distinct : r.nodes.Nodup
  uses : r.uses.Perm (r.nodes.flatMap p.usesOf)
  binders : r.binders.Perm (r.nodes.flatMap p.bindersOf)

namespace Covers

variable {r : Region} {inside : Node → Prop} {family : Family}

/-- The occurrences of a region are those its nodes hold. -/
theorem mem_held (covers : Covers p r inside) {occurrence : OccId family} :
    occurrence ∈ r.held family ↔ ∃ n, inside n ∧ ⟨occurrence⟩ ∈ p.usesOf n := by
  rw [Region.mem_held, covers.uses.mem_iff, List.mem_flatMap]
  simp only [covers.nodes]

/-- The variables of a region are those its nodes bind. -/
theorem mem_bound (covers : Covers p r inside) {var : VarId family} :
    var ∈ r.bound family ↔ ∃ n, inside n ∧ ⟨var⟩ ∈ p.bindersOf n := by
  rw [Region.mem_bound, covers.binders.mem_iff, List.mem_flatMap]
  simp only [covers.nodes]

end Covers

/-- On a forest every live node has a region: the nodes below it, without the skipped tree. -/
theorem Forest.region_eq_ok (f : Forest p) (live : p.hasNode node = true)
    (clear : p.Clear skip node) :
    ∃ r, p.region node skip = .ok r ∧ p.Covers r (p.Inside node skip) := by
  obtain ⟨above, lin⟩ := f.ends live
  have deep : p.nodeSlots < above.length + (p.nodeSlots + 1) := by omega
  refine ⟨⟨p.events node skip⟩, region_eq_ok_iff.2 ⟨rfl, f.eventsBy_sound lin deep⟩, ?_⟩
  exact {
    nodes := f.mem_entered lin deep clear
    distinct := f.entered_nodup lin deep clear
    uses := eventsBy_perm readsMarks_use ..
    binders := eventsBy_perm readsMarks_binder .. }

end Program

end ContinuationIR
