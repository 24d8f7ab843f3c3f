import Mathlib.Data.List.Nodup
import Mathlib.Data.List.Perm.Subperm
import ContinuationIR.Proofs.Anatomy

/-!
# Lineages

The lineage of a node is the list of the nodes above it, innermost first. It exists exactly if
following the links from the node ends. A node does not occur in its own lineage, so a lineage is
no longer than there are nodes, and a climb that is allowed that many steps comes to its end.
-/

namespace ContinuationIR
set_option autoImplicit false

/-- Following `link` from a node meets the listed nodes, innermost first, and then ends. -/
inductive Lineage (link : Node → Except Fault (Option Node)) : Node → List Node → Prop where
  | top {node : Node} : link node = .ok none → Lineage link node []
  | up {node parent : Node} {above : List Node} :
      link node = .ok (some parent) → Lineage link parent above →
        Lineage link node (parent :: above)

namespace Lineage

variable {link other : Node → Except Fault (Option Node)} {node parent : Node}
  {above : List Node}

/-- A node has at most one chain of ancestors. -/
theorem unique {rest : List Node} (one : Lineage link node above) (two : Lineage link node rest) :
    above = rest := by
  induction one generalizing rest with
  | top h =>
    cases two with
    | top _ => rfl
    | up h' _ => rw [h] at h'; cases h'
  | up h _ ih =>
    cases two with
    | top h' => rw [h] at h'; cases h'
    | up h' below =>
      rw [h] at h'
      cases h'
      rw [ih below]

/-- What follows a node in a lineage is the lineage of that node. -/
theorem drop {front back : List Node} {mid : Node} (lin : Lineage link node above)
    (split : above = front ++ mid :: back) : Lineage link mid back := by
  induction lin generalizing front with
  | top h => simp at split
  | up h below ih =>
    cases front with
    | nil =>
      simp only [List.nil_append, List.cons.injEq] at split
      obtain ⟨rfl, rfl⟩ := split
      exact below
    | cons f fs =>
      simp only [List.cons_append, List.cons.injEq] at split
      exact ih split.2

/-- Nothing is linked to the last node of a lineage. -/
theorem link_last (lin : Lineage link node above) : link (above.getLastD node) = .ok none := by
  induction lin with
  | top h => exact h
  | up _ _ ih =>
    rw [List.getLastD_cons]
    exact ih

/-- No node lies above itself. -/
theorem not_mem_self (lin : Lineage link node above) : node ∉ above := by
  intro mem
  obtain ⟨front, back, split⟩ := List.append_of_mem mem
  have same := lin.unique (lin.drop split)
  have := congrArg List.length (same.symm.trans split)
  simp at this
  omega

/-- A node and its ancestors are all different. -/
theorem nodup (lin : Lineage link node above) : (node :: above).Nodup := by
  induction lin with
  | top h => simp
  | up h below ih => exact List.nodup_cons.2 ⟨(Lineage.up h below).not_mem_self, ih⟩

/-- A climb with more steps than there are ancestors collects all of them without a fault. -/
theorem climbBy_eq {steps : Nat} (lin : Lineage link node above) (enough : above.length < steps) :
    Program.climbBy link steps node = ⟨above, none⟩ := by
  induction lin generalizing steps with
  | top h =>
    obtain ⟨k, rfl⟩ := Nat.exists_eq_succ_of_ne_zero (by omega : steps ≠ 0)
    simp [Program.climbBy, h]
  | up h below ih =>
    obtain ⟨k, rfl⟩ := Nat.exists_eq_succ_of_ne_zero (by omega : steps ≠ 0)
    have climbed := @ih k (by simpa using enough)
    simp [Program.climbBy, h, climbed]

/-- A lineage only depends on the links of the node and of the nodes in it. -/
theorem congr (lin : Lineage link node above)
    (same : ∀ n ∈ node :: above, other n = link n) : Lineage other node above := by
  induction lin with
  | top h => exact .top ((same _ (by simp)).trans h)
  | up h _ ih =>
    exact .up ((same _ (by simp)).trans h) (ih fun n mem => same n (List.mem_cons_of_mem _ mem))

/-- A lineage can be exchanged from a node in it upwards. -/
theorem graft {front back newBack : List Node} {mid : Node} (lin : Lineage link node above)
    (split : above = front ++ mid :: back) (same : ∀ n ∈ node :: front, other n = link n)
    (new : Lineage other mid newBack) : Lineage other node (front ++ mid :: newBack) := by
  induction lin generalizing front with
  | top h => simp at split
  | up h below ih =>
    cases front with
    | nil =>
      simp only [List.nil_append, List.cons.injEq] at split
      obtain ⟨rfl, rfl⟩ := split
      exact .up ((same _ (by simp)).trans h) new
    | cons f fs =>
      simp only [List.cons_append, List.cons.injEq] at split
      obtain ⟨rfl, split⟩ := split
      exact .up ((same _ (by simp)).trans h)
        (ih split fun n mem => same n (List.mem_cons_of_mem _ mem))

end Lineage

namespace Program

variable {p : Program} {node top : Node} {above : List Node}

/-- The parent of a node can be read exactly when the node is live. -/
theorem enclosing_ok_iff_hasNode : (∃ parent, p.enclosing node = .ok parent) ↔
    p.hasNode node = true := by
  cases node with
  | expr e =>
    cases read : p.expressions.get? e <;>
      simp [enclosing, hasNode, Slots.contains, Slots.fetch, read, bind, Except.bind, pure,
        Except.pure]
  | defn d =>
    cases read : p.definitions.get? d <;>
      simp [enclosing, hasNode, Slots.contains, Slots.fetch, read, bind, Except.bind, pure,
        Except.pure]

theorem hasNode_of_enclosing {parent : Option Node} (link : p.enclosing node = .ok parent) :
    p.hasNode node = true :=
  enclosing_ok_iff_hasNode.1 ⟨parent, link⟩

theorem enclosing_expr {e : ExprId} {entry : ExpressionEntry}
    (read : p.expressions.get? e = some entry) : p.enclosing (.expr e) = .ok entry.enclosing := by
  simp [enclosing, Slots.fetch_of_get? read, bind, Except.bind, pure, Except.pure]

theorem enclosing_defn {d : DefId} {entry : DefinitionEntry}
    (read : p.definitions.get? d = some entry) :
    p.enclosing (.defn d) = .ok (entry.enclosing.map .expr) := by
  simp [enclosing, Slots.fetch_of_get? read, bind, Except.bind, pure, Except.pure]

/-- Asking for the parent of a dead node is a fault that names the node. -/
theorem enclosing_of_dead (dead : p.hasNode node = false) :
    p.enclosing node = .error (.staleNode node) := by
  cases node with
  | expr e =>
    have read : p.expressions.get? e = none := by simpa [hasNode, Slots.contains] using dead
    simp [enclosing, Slots.fetch, read, bind, Except.bind, Fault.staleNode]
  | defn d =>
    have read : p.definitions.get? d = none := by simpa [hasNode, Slots.contains] using dead
    simp [enclosing, Slots.fetch, read, bind, Except.bind, Fault.staleNode]

/-- The entry of an expression is its shape and its link. -/
theorem get?_expressions_congr {q : Program} {e : ExprId} (shape : q.shapeOf? e = p.shapeOf? e)
    (link : q.enclosing (.expr e) = p.enclosing (.expr e)) :
    q.expressions.get? e = p.expressions.get? e := by
  cases after : q.expressions.get? e with
  | none =>
    rw [shapeOf?, after, Option.map_none] at shape
    exact (Option.map_eq_none_iff.1 shape.symm).symm
  | some entry =>
    rw [shapeOf?, after, Option.map_some] at shape
    obtain ⟨old, before, same⟩ := Option.map_eq_some_iff.1 shape.symm
    rw [enclosing_expr after, enclosing_expr before] at link
    obtain ⟨_, _⟩ := entry
    obtain ⟨_, _⟩ := old
    cases same
    cases link
    exact before.symm

/-- The entry of a definition is the definition and its link. -/
theorem get?_definitions_congr {q : Program} {d : DefId}
    (definition : q.definitionOf? d = p.definitionOf? d)
    (link : q.enclosing (.defn d) = p.enclosing (.defn d)) :
    q.definitions.get? d = p.definitions.get? d := by
  cases after : q.definitions.get? d with
  | none =>
    rw [definitionOf?, after, Option.map_none] at definition
    exact (Option.map_eq_none_iff.1 definition.symm).symm
  | some entry =>
    rw [definitionOf?, after, Option.map_some] at definition
    obtain ⟨old, before, same⟩ := Option.map_eq_some_iff.1 definition.symm
    rw [enclosing_defn after, enclosing_defn before] at link
    have inner : entry.enclosing = old.enclosing :=
      Option.map_injective (fun _ _ => Node.expr.inj) (Except.ok.inj link)
    obtain ⟨_, _⟩ := entry
    obtain ⟨_, _⟩ := old
    cases same
    cases inner
    exact before.symm

/-- The nodes of a lineage are live. -/
theorem hasNode_of_lineage (lin : Lineage p.enclosing node above) :
    ∀ n ∈ node :: above, p.hasNode n = true := by
  induction lin with
  | top h => simpa using hasNode_of_enclosing h
  | up h _ ih =>
    intro n mem
    rcases List.mem_cons.1 mem with rfl | mem
    · exact hasNode_of_enclosing h
    · exact ih n mem

/-! ## The bound on lineages -/

/-- A number for each node: expressions first, then definitions. -/
def slotOf (p : Program) : Node → Nat
  | .expr e => e.index
  | .defn d => p.expressions.size + d.index

/-- The slot of a live node is below the number of slots. -/
theorem slotOf_lt (live : p.hasNode node = true) : p.slotOf node < p.nodeSlots := by
  cases node with
  | expr e =>
    obtain ⟨entry, read⟩ := hasNode_expr_iff.1 live
    have := Slots.index_lt_size read
    simp only [slotOf, nodeSlots]
    omega
  | defn d =>
    obtain ⟨entry, read⟩ := hasNode_defn_iff.1 live
    have := Slots.index_lt_size read
    simp only [slotOf, nodeSlots]
    omega

/-- Two live nodes never share a slot. -/
theorem slotOf_inj {n m : Node} (liveN : p.hasNode n = true) (liveM : p.hasNode m = true)
    (eq : p.slotOf n = p.slotOf m) : n = m := by
  cases n with
  | expr e =>
    obtain ⟨_, readE⟩ := hasNode_expr_iff.1 liveN
    have := Slots.index_lt_size readE
    cases m with
    | expr e' => exact congrArg Node.expr (Handle.ext_index eq)
    | defn d' => simp only [slotOf] at eq; omega
  | defn d =>
    cases m with
    | expr e' =>
      obtain ⟨_, readE⟩ := hasNode_expr_iff.1 liveM
      have := Slots.index_lt_size readE
      simp only [slotOf] at eq
      omega
    | defn d' =>
      simp only [slotOf] at eq
      exact congrArg Node.defn (Handle.ext_index (by omega))

/-- A list of distinct live nodes is no longer than there are slots. -/
theorem length_le_nodeSlots {nodes : List Node} (distinct : nodes.Nodup)
    (live : ∀ n ∈ nodes, p.hasNode n = true) : nodes.length ≤ p.nodeSlots := by
  have slots : (nodes.map p.slotOf).Nodup :=
    distinct.map_on fun n hn m hm eq => slotOf_inj (live n hn) (live m hm) eq
  have range : nodes.map p.slotOf ⊆ List.range p.nodeSlots := by
    intro i mem
    obtain ⟨n, hn, rfl⟩ := List.mem_map.1 mem
    exact List.mem_range.2 (slotOf_lt (live n hn))
  simpa using (List.subperm_of_subset slots range).length_le

/-- The climb that the queries make reaches the top of every lineage. -/
theorem climb_eq (lin : Lineage p.enclosing node above) : p.climb node = ⟨above, none⟩ := by
  have := length_le_nodeSlots lin.nodup (hasNode_of_lineage lin)
  simp only [List.length_cons] at this
  exact lin.climbBy_eq (by omega)

theorem ancestors_eq (lin : Lineage p.enclosing node above) : p.ancestors node = .ok above := by
  simp [ancestors, climb_eq lin]

/-- A node is attached when the last of its ancestors is the root. -/
theorem isAttached_eq (lin : Lineage p.enclosing node above) :
    p.isAttached node = .ok (p.isRoot (above.getLastD node)) := by
  simp [isAttached, ancestors_eq lin, bind, Except.bind, pure, Except.pure]

/-- A node lies below another when that one is among its ancestors. -/
theorem liesBelow_eq (lin : Lineage p.enclosing node above) (top : Node) :
    p.liesBelow node top = .ok (above.contains top) := by
  by_cases mem : top ∈ above <;> simp [liesBelow, climb_eq lin, mem]

end Program

end ContinuationIR
