import Mathlib.Logic.Relation
import ContinuationIR.Proofs.Stray
import ContinuationIR.Walk.Listing

/-!
# The trees of a reachable program

A node refers to its children from slots: its body, the members of a group, the branches and the
default of a case. Whatever calls led to a program, its nodes form trees, the installed one and the
pending ones alike: the slots and the enclosing links say the same, no node stands in two slots, and
every climb ends at a node that nothing encloses.
-/

namespace ContinuationIR
set_option autoImplicit false

/-- A place of a node that refers to a child. -/
inductive Slot where
  | body
  | member (position : Nat)
  | branch (position : Nat)
  | otherwise
deriving DecidableEq

/-- The slots of a shape with what stands in them. -/
def Shape.slots : Shape → List (Slot × Node)
  | .letIn _ _ body => [(.body, .expr body)]
  | .group _ members body =>
    (members.zipIdx.map fun (d, i) => (.member i, .defn d)) ++ [(.body, .expr body)]
  | .caseOf _ map otherwise =>
    (map.branches.zipIdx.map fun (branch, i) => (.branch i, .expr branch.2)) ++
      otherwise.toList.map fun e => (.otherwise, .expr e)
  | .primitive .. | .apply .. | .jump .. | .unreachable => []

theorem map_zipIdx_of_fst {α β : Type} (f : α → β) (l : List α) :
    l.zipIdx.map (fun pair => f pair.1) = l.map f := by
  rw [← Function.comp_def f Prod.fst, ← List.map_map, List.zipIdx_map_fst]

theorem Shape.map_snd_slots (shape : Shape) : shape.slots.map Prod.snd = shape.children := by
  cases shape with
  | group family members body =>
    have names := map_zipIdx_of_fst Node.defn members
    simp [slots, children, Function.comp_def, names]
  | caseOf scrutinee map otherwise =>
    have branches :=
      map_zipIdx_of_fst (fun branch : Nat × ExprId => Node.expr branch.2) map.branches
    simp [slots, children, Function.comp_def, branches]
  | _ => rfl

/-- A climb goes through the nodes that are reached by following links. -/
theorem Lineage.mem_iff {link : Node → Except Fault (Option Node)} {n m : Node} {above : List Node}
    (lin : Lineage link n above) :
    m ∈ above ↔ Relation.TransGen (fun a b => link a = .ok (some b)) n m := by
  induction lin with
  | top free =>
    simp only [List.not_mem_nil, false_iff, Relation.TransGen.head'_iff]
    rintro ⟨b, step, -⟩
    rw [free] at step
    cases step
  | @up n parent above up _ ih =>
    rw [List.mem_cons, ih]
    constructor
    · rintro (rfl | rest)
      · exact .single up
      · exact .head up rest
    · intro trans
      obtain ⟨b, step, rest⟩ := Relation.TransGen.head'_iff.1 trans
      rw [up] at step
      cases step
      exact Relation.reflTransGen_iff_eq_or_transGen.1 rest

namespace Program

variable {p : Program} {n m c : Node}

/-- The slots of a live node with what stands in them; a dead node has none. -/
def slotsOf (p : Program) : Node → List (Slot × Node)
  | .expr e => ((p.shapeOf? e).map Shape.slots).getD []
  | .defn d => (p.definitionOf? d).toList.map fun definition => (.body, .expr definition.body)

theorem map_snd_slotsOf (p : Program) (n : Node) : (p.slotsOf n).map Prod.snd = p.childrenOf n := by
  cases n with
  | expr e =>
    cases read : p.shapeOf? e with
    | none =>
      have dead : p.hasNode (.expr e) = false := by simp [hasNode_expr, read]
      simp [slotsOf, read, childrenOf_of_dead dead]
    | some shape => simp [slotsOf, read, childrenOf_expr read, Shape.map_snd_slots]
  | defn d =>
    cases read : p.definitionOf? d with
    | none =>
      have dead : p.hasNode (.defn d) = false := by simp [hasNode_defn, read]
      simp [slotsOf, read, childrenOf_of_dead dead]
    | some definition => simp [slotsOf, read, childrenOf_defn read]

/-- The nodes of the program form trees. -/
structure FormTrees (p : Program) : Prop where
  /-- A node is enclosed by the node that has it in a slot. -/
  linked : ∀ n m, p.enclosing n = .ok (some m) ↔ ∃ slot, (slot, n) ∈ p.slotsOf m
  /-- No node stands in two slots, of one node or of two. -/
  single : ∀ {n m c s t}, (s, c) ∈ p.slotsOf n → (t, c) ∈ p.slotsOf m → n = m ∧ s = t
  live : ∀ {n c s}, (s, c) ∈ p.slotsOf n → p.hasNode n = true ∧ p.hasNode c = true
  groups : ∀ {e family members body}, p.shapeOf? e = some (.group family members body) →
    members ≠ [] ∧ ∀ d ∈ members, ∃ definition, p.definitionOf? d = some definition ∧
      definition.header.kind = family.memberKind
  root : ∀ {r}, p.root = some r → p.enclosing (.defn r) = .ok none ∧
    ∃ definition, p.definitionOf? r = some definition ∧ definition.header.kind = .root
  acyclic : ∀ n, ¬ Relation.TransGen (fun a b => p.enclosing a = .ok (some b)) n n
  /-- A climb ends, without repetition, after it has gone through all that is above. -/
  climbs : ∀ {n}, p.hasNode n = true → ∃ above, p.ancestors n = .ok above ∧ (n :: above).Nodup ∧
    ∀ m, m ∈ above ↔ Relation.TransGen (fun a b => p.enclosing a = .ok (some b)) n m
  /-- The walk over the installed tree comes to its end and enters the attached nodes, each once. -/
  walked : ∃ events, p.walkFrom Event.sound none = .ok events ∧
    (events.filterMap Event.entered?).Nodup ∧ ∀ n, .enter n ∈ events ↔ p.isAttached n = .ok true

theorem mem_childrenOf_iff : c ∈ p.childrenOf n ↔ ∃ slot, (slot, c) ∈ p.slotsOf n := by
  rw [← map_snd_slotsOf, List.mem_map]
  constructor
  · rintro ⟨⟨slot, c⟩, mem, rfl⟩
    exact ⟨slot, mem⟩
  · exact fun ⟨slot, mem⟩ => ⟨(slot, c), mem, rfl⟩

namespace Forest

variable (f : Forest p)
include f

/-- A node stands in one slot only, since no child is listed twice and it has one parent. -/
theorem slot_unique {s t : Slot} (one : (s, c) ∈ p.slotsOf n) (two : (t, c) ∈ p.slotsOf m) :
    n = m ∧ s = t := by
  have child : c ∈ p.childrenOf n := mem_childrenOf_iff.2 ⟨s, one⟩
  have link : p.enclosing c = .ok (some m) := f.link (mem_childrenOf_iff.2 ⟨t, two⟩)
  obtain rfl : n = m := f.parent_unique child link
  have distinct : ((p.slotsOf n).map Prod.snd).Nodup := by
    rw [map_snd_slotsOf]
    exact f.once n
  have same := List.inj_on_of_nodup_map distinct one two rfl
  exact ⟨rfl, congrArg Prod.fst same⟩

theorem not_transGen (n : Node) :
    ¬ Relation.TransGen (fun a b => p.enclosing a = .ok (some b)) n n := by
  intro cycle
  obtain ⟨m, step, -⟩ := Relation.TransGen.head'_iff.1 cycle
  obtain ⟨above, lin⟩ := f.ends (hasNode_of_enclosing step)
  exact (List.nodup_cons.1 lin.nodup).1 (lin.mem_iff.2 cycle)

end Forest

/-- A member of a group is live and of the kind of the group. -/
theorem Coherent.kind_of_member (c : Coherent p) {e : ExprId} {family : Family}
    {members : List DefId} {body : ExprId} (read : p.shapeOf? e = some (.group family members body))
    {d : DefId} (mem : d ∈ members) : ∃ definition, p.definitionOf? d = some definition ∧
      definition.header.kind = family.memberKind := by
  have child : .defn d ∈ p.childrenOf (.expr e) := by
    rw [childrenOf_expr read]
    simp [Shape.children, mem]
  obtain ⟨definition, found⟩ :=
    Option.isSome_iff_exists.1 (hasNode_defn p d ▸ c.forest.hasNode_child child)
  have rule := c.obey (.expr e) _ read
  rw [shapeViolations, groupViolations_eq, List.filterMap_eq_nil_iff] at rule
  exact ⟨definition, found, by simpa [found] using rule d mem⟩

/-- The walk over the installed tree enters the attached nodes. -/
theorem Coherent.walkFrom_eq_ok (c : Coherent p) :
    ∃ events, p.walkFrom Event.sound none = .ok events ∧
      (events.filterMap Event.entered?).Nodup ∧
        ∀ n, .enter n ∈ events ↔ p.isAttached n = .ok true := by
  cases root : p.root with
  | none =>
    refine ⟨[], by rw [walkFrom, root], List.nodup_nil, fun n => ?_⟩
    simp [c.attached_iff, root]
  | some r =>
    obtain ⟨region, ok, covers⟩ := region_all c.forest (hasNode_of_enclosing (c.root r root))
    simp only [Program.region, bind_eq_ok, pure_eq_ok] at ok
    obtain ⟨events, walked, rfl⟩ := ok
    refine ⟨events, by simpa only [walkFrom, root] using walked, covers.distinct, fun n => ?_⟩
    have entered : .enter n ∈ events ↔ n ∈ events.filterMap Event.entered? := by
      rw [List.mem_filterMap]
      constructor
      · exact fun mem => ⟨_, mem, rfl⟩
      · rintro ⟨event, mem, enters⟩
        cases event <;> cases enters
        exact mem
    rw [entered, c.attached_iff]
    exact covers.nodes.trans (by simp [root])

/-- Whatever calls led to a program, its nodes form trees, pending or installed. -/
theorem reachable_nodes_form_trees (reachable : Reachable p) : FormTrees p := by
  obtain ⟨c, -⟩ := reachable.consistent
  have f := c.forest
  constructor
  case linked =>
    intro n m
    rw [← mem_childrenOf_iff]
    exact ⟨f.listed, f.link⟩
  case single => exact f.slot_unique
  case live =>
    intro n child slot mem
    have child := mem_childrenOf_iff.2 ⟨slot, mem⟩
    exact ⟨hasNode_of_child child, f.hasNode_child child⟩
  case groups => exact fun read => ⟨c.peopled read, fun d mem => c.kind_of_member read mem⟩
  case root => exact fun root => ⟨c.root _ root, c.rootKind _ root⟩
  case acyclic => exact f.not_transGen
  case climbs =>
    intro n live
    obtain ⟨above, lin⟩ := f.ends live
    exact ⟨above, ancestors_eq lin, lin.nodup, fun m => lin.mem_iff⟩
  case walked => exact c.walkFrom_eq_ok

/-- The pending jump is a tree of its own, which the walk over the installed tree does not enter. -/
theorem jumpPending_forms_trees : Reachable jumpPending ∧ FormTrees jumpPending ∧
    jumpPending.enclosing (.expr ⟨1⟩) = .ok none ∧
    ∃ events, jumpPending.walkFrom Event.sound none = .ok events ∧
      .enter (.expr ⟨0⟩) ∈ events ∧ .enter (.expr ⟨1⟩) ∉ events := by
  have reachable : Reachable jumpPending := reachable_run _
  have trees := reachable_nodes_form_trees reachable
  obtain ⟨events, walked, -, enters⟩ := trees.walked
  refine ⟨reachable, trees, rfl, events, walked, (enters _).2 rfl, fun mem => ?_⟩
  cases (enters _).1 mem

end Program

end ContinuationIR
