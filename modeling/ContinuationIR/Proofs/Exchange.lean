import ContinuationIR.Proofs.Denotation
import ContinuationIR.Proofs.Persistence

/-!
# Replacement is exchange of trees

After a replacement the root denotes the tree that it denoted, with the tree at the target exchanged
for the tree at the replacement. Of the latter only recursivities change. What goes are the nodes of
the tree at the target that are not in the tree at the replacement, with the variables that they bind
and the occurrences that they hold; everything else stays as it was.
-/

namespace ContinuationIR
set_option autoImplicit false

namespace Program

section Replace

variable {family : Family} {p q : Program} {target replacement : ExprId} {s : Splice} {n : Node}

/-- The node is in the tree at the target and not in the tree at the replacement. -/
def Leaves (p : Program) (target replacement : ExprId) (n : Node) : Prop :=
  n ∈ (p.tree (.expr target)).nodes ∧ n ∉ (p.tree (.expr replacement)).nodes

/-- What leaves is the tree of the target without that of the replacement. -/
theorem Replaceable.leaves_iff (h : Replaceable p target replacement s) (c : Coherent p) :
    p.Leaves target replacement n ↔ p.Inside (.expr target) (some replacement) n := by
  rw [inside_iff, Leaves, c.forest.mem_nodes_tree (hasNode_of_enclosing h.link),
    c.forest.mem_nodes_tree h.known]

variable {parent : Node}

/-- The parent of the target has the replacement in its place. -/
theorem shapeOf?_parent_of_pruned (f : Forest p)
    (pruned : Pruned p (p.replaceCut target replacement parent) q) {e : ExprId} {shape : Shape}
    (link : p.enclosing (.expr target) = .ok (some (.expr e))) (read : p.shapeOf? e = some shape) :
    q.shapeOf? e = shape.replaceChild? target replacement := by
  have child := f.listed link
  have once := f.once (.expr e)
  rw [childrenOf_expr read] at child once
  have stays : ¬ p.Inside (.expr target) (some replacement) (.expr e) :=
    fun gone => not_within_parent link (inside_iff.1 gone).1
  rw [pruned.shape stays, read, replaceChild?_eq child once]
  rfl

/-- A definition whose body was the target gets the replacement as its body. -/
theorem definitionOf?_parent_of_pruned (f : Forest p)
    (pruned : Pruned p (p.replaceCut target replacement parent) q) {d : DefId} {definition : Definition}
    (link : p.enclosing (.expr target) = .ok (some (.defn d)))
    (read : p.definitionOf? d = some definition) :
    q.definitionOf? d = some { definition with body := replacement } := by
  have body : definition.body = target := by
    simpa [childrenOf_defn read, eq_comm] using f.listed link
  have stays : ¬ p.Inside (.expr target) (some replacement) (.defn d) :=
    fun gone => not_within_parent link (inside_iff.1 gone).1
  rw [pruned.definition stays, read]
  simp [Cut.definition, body]

section Parts

variable (c : Coherent p)
  (pruned : Pruned p (p.replaceCut target replacement parent) q)
  (stays : ¬ p.Inside (.expr target) (some replacement) n)

include c pruned stays

/-- Outside of the replacement an occurrence that stays is as it was. -/
theorem said_eq_of_pruned {o : OccId family} (holds : ⟨o⟩ ∈ p.usesOf n)
    (outside : ¬ p.Within (.expr replacement) n) : q.said family o = p.said family o := by
  obtain ⟨entry, read, rfl⟩ := c.uses.holder holds
  obtain ⟨recursivity, after, ⟨swap, same, within, -⟩ | ⟨rfl, -⟩⟩ := pruned.kept read stays
  · cases same
    exact absurd within outside
  · rw [said, after, said, read]

/-- An occurrence that stays keeps its variable. -/
theorem untagged_said_of_pruned {o : OccId family} (holds : ⟨o⟩ ∈ p.usesOf n) :
    (q.said family o).untagged = (p.said family o).untagged := by
  obtain ⟨entry, read, rfl⟩ := c.uses.holder holds
  obtain ⟨recursivity, after, -⟩ := pruned.kept read stays
  simp [said, Said.untagged, after, read]

/-- What a node outside of the replacement says does not change. -/
theorem labelOf?_eq_of_pruned (outside : ¬ p.Within (.expr replacement) n) :
    q.labelOf? n = p.labelOf? n := by
  cases n with
  | defn d =>
    rw [labelOf?, pruned.definition stays, Option.map_map, labelOf?]
    rfl
  | expr e =>
    rw [labelOf?, pruned.shape stays, Option.map_map, labelOf?]
    refine Option.map_congr fun shape read => ?_
    rw [Function.comp_apply, Cut.shape, Shape.label_contract]
    exact Shape.map_label_congr fun o mem =>
      said_eq_of_pruned c pruned stays (usesOf_expr read ▸ mem) outside

/-- What a node that stays says changes in the recursivities at most. -/
theorem untagged_labelOf?_of_pruned :
    (q.labelOf? n).map (Label.map Said.untagged) = (p.labelOf? n).map (Label.map Said.untagged) := by
  cases n with
  | defn d =>
    rw [labelOf?, pruned.definition stays, labelOf?, Option.map_map, Option.map_map, Option.map_map]
    rfl
  | expr e =>
    rw [labelOf?, pruned.shape stays, labelOf?, Option.map_map, Option.map_map, Option.map_map]
    refine Option.map_congr fun shape read => ?_
    rw [Function.comp_apply, Function.comp_apply, Function.comp_apply, Cut.shape,
      Shape.label_contract, Label.map_map, Label.map_map]
    exact Shape.map_label_congr fun o mem =>
      untagged_said_of_pruned c pruned stays (usesOf_expr read ▸ mem)

omit c in
/-- Below a node that stays the replacement stands where the target stood. -/
theorem childrenOf_of_pruned :
    q.childrenOf n =
      (p.childrenOf n).map fun child => if child = .expr target then .expr replacement else child := by
  rw [pruned.childrenOf stays, ← List.filterMap_eq_map]
  refine List.filterMap_congr fun child _ => ?_
  cases child with
  | defn d => rfl
  | expr e => by_cases eq : e = target <;> simp [Cut.child?, eq]

omit c in
/-- Nodes that do not have the target as a child keep their children. -/
theorem childrenOf_eq_of_pruned (absent : .expr target ∉ p.childrenOf n) :
    q.childrenOf n = p.childrenOf n := by
  rw [childrenOf_of_pruned pruned stays]
  refine (List.map_congr_left fun child mem => ?_).trans (List.map_id _)
  have other : child ≠ .expr target := fun eq => absent (eq ▸ mem)
  exact if_neg other

end Parts

namespace Replaceable

variable (h : Replaceable p target replacement s) (c : Coherent p)
  (pruned : Pruned p (p.replaceCut target replacement s.parent) q)

include h c pruned

theorem forest : Forest q := pruned.forest (h.clean c) c.forest

/-- In the tree of the replacement the recursivities change at most. -/
theorem untagged_tree (within : p.Within (.expr replacement) n) :
    (q.tree n).untagged = (p.tree n).untagged := by
  have g := h.forest c pruned
  have live := within.hasNode
  revert within
  refine c.forest.induction (motive := fun n => p.Within (.expr replacement) n →
    (q.tree n).untagged = (p.tree n).untagged) ?_ live
  intro n live ih within
  have stays : ¬ p.Inside (.expr target) (some replacement) n :=
    fun gone => (inside_iff.1 gone).2 within
  have below (child) (mem : child ∈ p.childrenOf n) : p.Within (.expr replacement) child :=
    (c.forest.within_child mem).2 (.inr within)
  have children := childrenOf_eq_of_pruned pruned stays fun mem => h.apart (below _ mem)
  have labels := untagged_labelOf?_of_pruned c pruned stays
  obtain ⟨label, reads⟩ := exists_labelOf? live
  obtain ⟨label', reads'⟩ := exists_labelOf? ((pruned.hasNode stays).trans live)
  rw [reads, reads'] at labels
  rw [c.forest.tree_eq reads, g.tree_eq reads', Tree.untagged_node, Tree.untagged_node, children,
    List.map_map, List.map_map, Option.some.inj labels]
  exact congrArg _ (List.map_congr_left fun child mem => ih child mem (below child mem))

/-- The tree of a node outside of both is exchanged: the target is below it or it stays. -/
theorem tree_eq_exchange (live : p.hasNode n = true) (outside : ¬ p.Within (.expr target) n)
    (apart : ¬ p.Within (.expr replacement) n) :
    q.tree n = (p.tree n).exchange (.expr target) (q.tree (.expr replacement)) := by
  have g := h.forest c pruned
  have f := c.forest
  revert outside apart
  refine f.induction (motive := fun n => ¬ p.Within (.expr target) n →
    ¬ p.Within (.expr replacement) n →
      q.tree n = (p.tree n).exchange (.expr target) (q.tree (.expr replacement))) ?_ live
  intro n live ih outside apart
  have stays : ¬ p.Inside (.expr target) (some replacement) n :=
    fun gone => outside (inside_iff.1 gone).1
  obtain ⟨label, reads⟩ := exists_labelOf? live
  have other : n ≠ .expr target := fun eq => outside (eq ▸ f.within_self live)
  rw [g.tree_eq ((labelOf?_eq_of_pruned c pruned stays apart).trans reads), f.tree_eq reads,
    Tree.exchange, if_neg other, childrenOf_of_pruned pruned stays, List.map_map, List.map_map]
  refine congrArg _ (List.map_congr_left fun child mem => ?_)
  rw [Function.comp_apply, Function.comp_apply]
  by_cases here : child = .expr target
  · obtain ⟨label, reads⟩ := exists_labelOf? (f.hasNode_child mem)
    rw [if_pos here, f.tree_eq reads, Tree.exchange, if_pos here]
  · rw [if_neg here]
    refine ih child mem ?_ ?_
    · rw [f.within_child mem]
      exact not_or.2 ⟨Ne.symm here, outside⟩
    · rw [f.within_child mem]
      refine not_or.2 ⟨?_, apart⟩
      rintro rfl
      have goes := ((h.clean c).replacement rfl).2.2 n (f.link mem)
      exact stays goes

end Replaceable

/-- The program `q` is `p` after the tree at the target was exchanged for the tree at the
replacement. -/
structure Exchanges (p : Program) (target replacement : ExprId) (q : Program) : Prop where
  /-- The root denotes the same tree up to the exchange. -/
  root : ∃ r, p.root = some r ∧ q.root = some r ∧ .expr target ∈ (p.tree (.defn r)).nodes ∧
    q.tree (.defn r) = (p.tree (.defn r)).exchange (.expr target) (q.tree (.expr replacement))
  /-- In the tree that moves the recursivities change at most. -/
  moved : (q.tree (.expr replacement)).untagged = (p.tree (.expr replacement)).untagged
  hasNode : ∀ n, q.hasNode n = true ↔ p.hasNode n = true ∧ ¬ p.Leaves target replacement n
  hasVariable : ∀ {family : Family} (v : VarId family), q.hasVariable v = true ↔
    p.hasVariable v = true ∧ ∀ n, p.Leaves target replacement n → ⟨v⟩ ∉ p.bindersOf n
  hasOccurrence : ∀ {family : Family} (o : OccId family), q.hasOccurrence o = true ↔
    p.hasOccurrence o = true ∧ ∀ n, p.Leaves target replacement n → ⟨o⟩ ∉ p.usesOf n
  link : q.enclosing (.expr replacement) = p.enclosing (.expr target)
  links : ∀ {n : Node}, q.hasNode n = true → n ≠ .expr replacement → q.enclosing n = p.enclosing n
  /-- An expression other than the parent of the target keeps its shape. -/
  shape : ∀ {e : ExprId}, q.hasNode (.expr e) = true →
    p.enclosing (.expr target) ≠ .ok (some (.expr e)) → q.shapeOf? e = p.shapeOf? e
  definition : ∀ {d : DefId}, q.hasNode (.defn d) = true →
    p.enclosing (.expr target) ≠ .ok (some (.defn d)) → q.definitionOf? d = p.definitionOf? d
  parentShape : ∀ {e : ExprId} {shape : Shape}, p.enclosing (.expr target) = .ok (some (.expr e)) →
    p.shapeOf? e = some shape → q.shapeOf? e = shape.replaceChild? target replacement
  parentDefinition : ∀ {d : DefId} {definition : Definition},
    p.enclosing (.expr target) = .ok (some (.defn d)) → p.definitionOf? d = some definition →
      q.definitionOf? d = some { definition with body := replacement }
  /-- A variable that stays loses the occurrences that go. -/
  varEntry : ∀ {family : Family} {v : VarId family} {a b : VariableEntry family},
    p.varEntry? v = some a → q.varEntry? v = some b →
      b.name = a.name ∧ b.kind = a.kind ∧ b.binding = a.binding ∧
        ∀ o, o ∈ b.occurrences ↔ o ∈ a.occurrences ∧ q.hasOccurrence o = true
  /-- An occurrence outside of the tree that moves stays as it is. -/
  occEntry : ∀ {family : Family} {o : OccId family} {a b : OccurrenceEntry family},
    p.occEntry? o = some a → q.occEntry? o = some b → b.var = a.var ∧ b.holder = a.holder ∧
      (.expr a.holder ∉ (p.tree (.expr replacement)).nodes → b = a)

namespace Replaceable

variable (h : Replaceable p target replacement s) (c : Coherent p)
  (pruned : Pruned p (p.replaceCut target replacement s.parent) q)

include h c pruned

/-- In the tree of the root the tree of the target is exchanged for that of the replacement. -/
theorem exists_root_tree :
    ∃ r, p.root = some r ∧ q.root = some r ∧ .expr target ∈ (p.tree (.defn r)).nodes ∧
      q.tree (.defn r) =
        (p.tree (.defn r)).exchange (.expr target) (q.tree (.expr replacement)) := by
  have f := c.forest
  have live := hasNode_of_enclosing h.link
  obtain ⟨r, installed, below⟩ := (isAttached_iff f c.root live).1 h.attached
  have outside (e : ExprId) : ¬ p.Within (.expr e) (.defn r) := by
    intro up
    cases c.root.eq_of_within installed up
  refine ⟨r, installed, pruned.root.trans installed, ?_, ?_⟩
  · exact (f.mem_nodes_tree below.hasNode_head).2 below
  · exact h.tree_eq_exchange c pruned below.hasNode_head (outside target) (outside replacement)

/-- Just the nodes that leave are gone. -/
theorem hasNode_iff : q.hasNode n = true ↔
    p.hasNode n = true ∧ ¬ p.Leaves target replacement n := by
  rw [h.leaves_iff c]
  constructor
  · intro live
    have stays := pruned.stays live
    exact ⟨(pruned.hasNode stays).symm.trans live, stays⟩
  · exact fun ⟨live, stays⟩ => (pruned.hasNode stays).trans live

/-- Just the variables that the leaving nodes bind are gone. -/
theorem hasVariable_iff {v : VarId family} : q.hasVariable v = true ↔
    p.hasVariable v = true ∧ ∀ n, p.Leaves target replacement n → ⟨v⟩ ∉ p.bindersOf n := by
  have lost : p.Lost (p.Inside (.expr target) (some replacement)) ⟨v⟩ ↔ _ :=
    lost_iff c.forest.inside_of_member
  rw [pruned.hasVariable_iff]
  refine and_congr_right fun _ => (not_congr lost).trans ?_
  simp only [h.leaves_iff c, not_exists, not_and]

/-- Just the occurrences that the leaving nodes hold are gone. -/
theorem hasOccurrence_iff {o : OccId family} : q.hasOccurrence o = true ↔
    p.hasOccurrence o = true ∧ ∀ n, p.Leaves target replacement n → ⟨o⟩ ∉ p.usesOf n := by
  rw [pruned.hasOccurrence_iff]
  constructor
  · rintro ⟨entry, read, stays⟩
    refine ⟨Slots.contains_iff.2 ⟨entry, read⟩, fun n gone holds => ?_⟩
    obtain rfl := c.uses.eq_holder read holds
    exact stays ((h.leaves_iff c).1 gone)
  · rintro ⟨live, unheld⟩
    obtain ⟨entry, read⟩ := Slots.contains_iff.1 live
    exact ⟨entry, read, fun gone => unheld _ ((h.leaves_iff c).2 gone) (c.uses.held read)⟩

/-- An accepted replacement exchanges the trees and leaves all else. -/
theorem exchanges (later : Later p q) : Exchanges p target replacement q := by
  have f := c.forest
  have within := f.within_self h.known
  constructor
  case root => exact h.exists_root_tree c pruned
  case moved => exact h.untagged_tree c pruned within
  case hasNode => exact fun _ => h.hasNode_iff c pruned
  case hasVariable => exact fun _ => h.hasVariable_iff c pruned
  case hasOccurrence => exact fun _ => h.hasOccurrence_iff c pruned
  case parentShape => exact shapeOf?_parent_of_pruned f pruned
  case parentDefinition => exact definitionOf?_parent_of_pruned f pruned
  case link =>
    have stays : ¬ p.Inside (.expr target) (some replacement) (.expr replacement) :=
      fun gone => (inside_iff.1 gone).2 within
    have swap : (p.replaceCut target replacement s.parent).swap =
        some ⟨target, replacement, s.parent⟩ := rfl
    rw [pruned.enclosing stays, h.link]
    exact graftedEnclosing_replacement swap
  case links =>
    intro n live ne
    rw [pruned.enclosing (pruned.stays live)]
    refine graftedEnclosing_of_ne ?_
    rintro _ ⟨⟩
    exact ne
  case shape =>
    intro e live other
    rw [pruned.shape (pruned.stays live)]
    exact (shapeOf?_replaceCut f h.link fun eq => other (h.link.trans (by rw [eq]))).symm
  case definition =>
    intro d live other
    rw [pruned.definition (pruned.stays live)]
    exact (definitionOf?_replaceCut f h.link fun eq => other (h.link.trans (by rw [eq]))).symm
  case varEntry =>
    intro family v a b before after
    obtain ⟨name, kind⟩ := later.name_eq before after
    obtain ⟨-, stays⟩ := pruned.hasVariable_iff.1 (Slots.contains_iff.2 ⟨b, after⟩)
    have binding := pruned.binding stays
    simp only [bindingOf?, before, after, Option.bind_some] at binding
    refine ⟨name, kind, binding, fun o => ?_⟩
    have lists := pruned.lists (v := v) (o := o)
    simpa [Lists, before, after, stays, hasOccurrence, Slots.contains, occEntry?] using lists
  case occEntry =>
    intro family o a b before after
    obtain ⟨old, read, -, var, holder, tag⟩ := pruned.entry after
    rw [before] at read
    cases read
    refine ⟨var, holder, fun outside => ?_⟩
    rw [f.mem_nodes_tree h.known] at outside
    obtain ⟨swap, same, within, -⟩ | ⟨same, -⟩ := tag
    · cases same
      exact absurd within outside
    · obtain ⟨_, _, _⟩ := b
      simp_all

end Replaceable

/-- A replacement that succeeds exchanges the tree at the target for the tree at the replacement. -/
theorem replace_exchanges_trees {p : Program} (reachable : Reachable p) {target replacement : ExprId}
    {answer : Answer} (ok : (p.perform (.replace target replacement)).result = .ok answer) :
    Exchanges p target replacement (p.perform (.replace target replacement)).program := by
  obtain ⟨c, -⟩ := reachable.consistent
  have ends : (p.perform (.replace target replacement)).Ends p (Replaced p target replacement) :=
    (ends_replace c.toCoherent target replacement).map
  obtain ⟨s, replaceable, pruned⟩ := ends.holds ok
  exact replaceable.exchanges c.toCoherent pruned (later_perform p _)

end Replace

/-- A loop whose body binds a variable before it jumps back, and a pending jump to the loop. -/
def loopWithLet : Program :=
  run [.freshContinuation "return", .freshContinuation "loop", .freshValue "x" .any,
    .jump ⟨⟨1⟩, .recursive⟩ [], .letIn ⟨0⟩ (.constant .unit) ⟨0⟩, .continuation ⟨1⟩ [] ⟨1⟩,
    .jump ⟨⟨1⟩, .nonRecursive⟩ [], .group .continuation [⟨0⟩] ⟨2⟩, .root ⟨0⟩ [] ⟨[], .any⟩ ⟨3⟩,
    .install ⟨1⟩, .jump ⟨⟨1⟩, .nonRecursive⟩ []]

theorem loopWithLet_reachable : Reachable loopWithLet := reachable_run _

theorem loopWithLet_replaced :
    (loopWithLet.perform (.replace ⟨1⟩ ⟨4⟩)).result = .ok .nothing := by
  set_option maxRecDepth 2000 in rfl

/-- The body of the loop is exchanged for the pending jump. The let, its variable and the jump in it
go, and the occurrence that moves into the loop becomes recursive. -/
theorem loopWithLet_exchanges :
    (loopWithLet.perform (.replace ⟨1⟩ ⟨4⟩)).result = .ok .nothing ∧
      Exchanges loopWithLet ⟨1⟩ ⟨4⟩ (loopWithLet.perform (.replace ⟨1⟩ ⟨4⟩)).program ∧
      (loopWithLet.perform (.replace ⟨1⟩ ⟨4⟩)).program.occEntry? (⟨2⟩ : OccId .continuation) =
        some ⟨⟨1⟩, .recursive, ⟨4⟩⟩ := by
  have ok := loopWithLet_replaced
  refine ⟨ok, replace_exchanges_trees loopWithLet_reachable ok, ?_⟩
  set_option maxRecDepth 2000 in rfl

end Program

end ContinuationIR
