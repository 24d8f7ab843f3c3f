import ContinuationIR.Proofs.Lineage

/-!
# Forests

The nodes of a program form a forest if the children that nodes list and the enclosing links that
nodes record say the same, no child is listed twice and every climb ends. The tree with a given
head can then be told in two ways: from below, as the nodes whose lineage has the head in it, and
from above, as the head and the trees of its children.
-/

namespace ContinuationIR
set_option autoImplicit false

namespace Program

/-- The node lies in the tree with the given head: it is the head, or the head is above it. -/
def Within (p : Program) (head node : Node) : Prop :=
  ∃ above, Lineage p.enclosing node above ∧ head ∈ node :: above

/-- Children and enclosing links agree and every climb ends. -/
structure Forest (p : Program) : Prop where
  link : ∀ {node child : Node}, child ∈ p.childrenOf node → p.enclosing child = .ok (some node)
  listed : ∀ {node parent : Node}, p.enclosing node = .ok (some parent) → node ∈ p.childrenOf parent
  once : ∀ node : Node, (p.childrenOf node).Nodup
  ends : ∀ {node : Node}, p.hasNode node = true → ∃ above, Lineage p.enclosing node above

section Within

variable {p : Program} {head mid node : Node} {above : List Node}

/-- Within the tree of a head is just what has the head on its way up. -/
theorem within_iff (lin : Lineage p.enclosing node above) :
    p.Within head node ↔ head ∈ node :: above := by
  constructor
  · rintro ⟨rest, other, mem⟩
    rwa [lin.unique other]
  · exact fun mem => ⟨above, lin, mem⟩

/-- What stands in a tree is live. -/
theorem Within.hasNode (within : p.Within head node) : p.hasNode node = true := by
  obtain ⟨above, lin, -⟩ := within
  exact hasNode_of_lineage lin node List.mem_cons_self

/-- The head of a tree is live. -/
theorem Within.hasNode_head (within : p.Within head node) : p.hasNode head = true := by
  obtain ⟨above, lin, mem⟩ := within
  exact hasNode_of_lineage lin head mem

/-- The lineage of the head of a tree is the end of the lineage of each node in the tree. -/
theorem Within.split (within : p.Within head node) (ne : head ≠ node) :
    ∃ front back, Lineage p.enclosing node (front ++ head :: back) ∧
      Lineage p.enclosing head back := by
  obtain ⟨above, lin, mem⟩ := within
  rcases List.mem_cons.1 mem with rfl | mem
  · exact absurd rfl ne
  · obtain ⟨front, back, rfl⟩ := List.append_of_mem mem
    exact ⟨front, back, lin, lin.drop rfl⟩

/-- A tree within a tree is part of it. -/
theorem Within.trans (one : p.Within head mid) (two : p.Within mid node) : p.Within head node := by
  by_cases eq : mid = node
  · exact eq ▸ one
  · obtain ⟨front, back, lin, rest⟩ := two.split eq
    refine ⟨_, lin, ?_⟩
    have mem := (within_iff rest).1 one
    simp only [List.mem_cons, List.mem_append] at mem ⊢
    tauto

/-- Of two different nodes at most one is within the tree of the other. -/
theorem Within.antisymm (one : p.Within head node) (two : p.Within node head) : head = node := by
  by_contra ne
  obtain ⟨front, back, lin, rest⟩ := one.split ne
  have mem := (within_iff rest).1 two
  rcases List.mem_cons.1 mem with eq | mem
  · exact ne eq.symm
  · exact lin.not_mem_self (by simp [mem])

/-- Of two trees that share a node one lies in the other. -/
theorem Within.comparable {other : Node} (one : p.Within head node) (two : p.Within other node) :
    p.Within head other ∨ p.Within other head := by
  by_cases eq : head = node
  · exact .inr (eq ▸ two)
  · obtain ⟨front, back, lin, rest⟩ := one.split eq
    have mem := (within_iff lin).1 two
    have above : other ∈ node :: front ∨ other ∈ head :: back := by
      simp only [List.mem_cons, List.mem_append] at mem ⊢
      tauto
    rcases above with below | above
    · left
      rcases List.mem_cons.1 below with rfl | mem
      · exact one
      · obtain ⟨f, b, rfl⟩ := List.append_of_mem mem
        have chain := lin.drop (show _ = f ++ other :: (b ++ head :: back) by simp)
        exact ⟨_, chain, by simp⟩
    · exact .inr ⟨_, rest, above⟩

/-- Within a tree is its head, and what is linked to a node of the tree. -/
theorem within_of_enclosing {parent : Node} (link : p.enclosing node = .ok (some parent))
    {above : List Node} (lin : Lineage p.enclosing parent above) :
    p.Within head node ↔ head = node ∨ p.Within head parent := by
  rw [within_iff (.up link lin), within_iff lin, List.mem_cons]

/-- A node is not above its own parent. -/
theorem not_within_parent {parent : Node} (link : p.enclosing node = .ok (some parent)) :
    ¬ p.Within node parent := by
  rintro ⟨above, lin, mem⟩
  exact (Lineage.up link lin).not_mem_self mem

end Within

namespace Forest

variable {p : Program} {head node child : Node}

/-- Children are live. -/
theorem hasNode_child (f : Forest p) (mem : child ∈ p.childrenOf node) : p.hasNode child = true :=
  hasNode_of_enclosing (f.link mem)

/-- Parents are live. -/
theorem hasNode_parent (f : Forest p) {parent : Node}
    (link : p.enclosing node = .ok (some parent)) : p.hasNode parent = true :=
  hasNode_of_child (f.listed link)

/-- A node is the child of one node only. -/
theorem parent_unique (f : Forest p) {parent : Node} (mem : child ∈ p.childrenOf node)
    (link : p.enclosing child = .ok (some parent)) : node = parent := by
  rw [f.link mem] at link
  cases link
  rfl

/-- A live node is the head of its tree. -/
theorem within_self (f : Forest p) (live : p.hasNode node = true) : p.Within node node := by
  obtain ⟨above, lin⟩ := f.ends live
  exact ⟨above, lin, List.mem_cons_self⟩

/-- A child is within the trees that its parent is in, and its own. -/
theorem within_child (f : Forest p) (mem : child ∈ p.childrenOf node) :
    p.Within head child ↔ head = child ∨ p.Within head node := by
  obtain ⟨above, lin⟩ := f.ends (hasNode_of_child mem)
  exact within_of_enclosing (f.link mem) lin

theorem within_node_child (f : Forest p) (mem : child ∈ p.childrenOf node) :
    p.Within node child :=
  (f.within_child mem).2 (.inr (f.within_self (hasNode_of_child mem)))

/-- A tree is its head and the trees of the head's children: the child is the last node before the
head on the way up. -/
theorem within_iff_child (f : Forest p) :
    p.Within head node ↔
      (head = node ∧ p.hasNode head = true) ∨ ∃ c ∈ p.childrenOf head, p.Within c node := by
  constructor
  · intro within
    by_cases eq : head = node
    · exact .inl ⟨eq, within.hasNode_head⟩
    · right
      obtain ⟨front, back, lin, -⟩ := within.split eq
      rcases List.eq_nil_or_concat front with rfl | ⟨init, last, rfl⟩
      · cases lin with
        | up link rest =>
          exact ⟨node, f.listed link, f.within_self (hasNode_of_enclosing link)⟩
      · have chain := lin.drop (show _ = init ++ last :: head :: back by simp)
        cases chain with
        | up link rest =>
          exact ⟨last, f.listed link, _, lin, by simp⟩
  · rintro (⟨rfl, live⟩ | ⟨c, mem, within⟩)
    · exact f.within_self live
    · exact (f.within_node_child mem).trans within

/-- The trees of different children do not meet. -/
theorem children_disjoint (f : Forest p) {other : Node} (one : child ∈ p.childrenOf head)
    (two : other ∈ p.childrenOf head) (ne : child ≠ other) (within : p.Within child node) :
    ¬ p.Within other node := by
  intro within'
  have apart {a b : Node} (ha : a ∈ p.childrenOf head) (hb : b ∈ p.childrenOf head) (ne : a ≠ b) :
      ¬ p.Within a b := by
    rw [f.within_child hb]
    rintro (eq | up)
    · exact ne eq
    · exact not_within_parent (f.link ha) up
  rcases within.comparable within' with h | h
  · exact apart one two ne h
  · exact apart two one ne.symm h

/-- A node is not within the tree of its child. -/
theorem not_within_of_child (f : Forest p) (mem : child ∈ p.childrenOf node) :
    ¬ p.Within child node :=
  not_within_parent (f.link mem)

end Forest

end Program

end ContinuationIR
