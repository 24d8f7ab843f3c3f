import ContinuationIR.Proofs.Cut
import ContinuationIR.Proofs.Reading

/-!
# The trees that nodes denote

A node denotes a tree: its own handle, what it reads apart from the nodes below it, and the trees of
these nodes in order. What it reads has in it the occurrences that it holds, with the variables and the
recursivities that these record. In a forest the tree of a node is made of the trees of its children,
and its nodes are those that lie below the node.
-/

namespace ContinuationIR
set_option autoImplicit false

/-! ## Labels -/

/-- The value with other uses in it. -/
def Value.map {α β : Type} (f : α → β) : Value α → Value β
  | .constant literal => .constant literal
  | .alias source => .alias (f source)
  | .block tag fields => .block tag (fields.map f)

/-- What a node reads apart from the nodes below it, with `σ` for each use of a variable. -/
inductive Label (σ : Family → Type) where
  | letIn (var : VarId .value) (value : Value (σ .value))
  | group (family : Family)
  | primitive (operator : Primitive) (arguments : List (σ .value)) (continuation : σ .continuation)
  | apply (function : σ .value) (arguments : List (σ .value)) (continuation : σ .continuation)
  | jump (continuation : σ .continuation) (arguments : List (σ .value))
  | caseOf (scrutinee : σ .value) (tags : List Nat) (hasDefault : Bool)
  | unreachable
  | definition (header : Header) (parameters : List (VarId .value)) (type : DefinitionType)

/-- The label with other uses in it. -/
def Label.map {σ τ : Family → Type} (f : (family : Family) → σ family → τ family) :
    Label σ → Label τ
  | .letIn var value => .letIn var (value.map (f _))
  | .group family => .group family
  | .primitive operator arguments continuation =>
    .primitive operator (arguments.map (f _)) (f _ continuation)
  | .apply function arguments continuation =>
    .apply (f _ function) (arguments.map (f _)) (f _ continuation)
  | .jump continuation arguments => .jump (f _ continuation) (arguments.map (f _))
  | .caseOf scrutinee tags hasDefault => .caseOf (f _ scrutinee) tags hasDefault
  | .unreachable => .unreachable
  | .definition header parameters type => .definition header parameters type

theorem Value.map_map {α β γ : Type} (f : α → β) (g : β → γ) (value : Value α) :
    (value.map f).map g = value.map (g ∘ f) := by
  cases value <;> simp [Value.map]

theorem Value.map_congr {α β : Type} {f g : α → β} {value : Value α}
    (same : ∀ use ∈ value.uses, f use = g use) : value.map f = value.map g := by
  cases value <;> simp_all [Value.map, Value.uses]

theorem Label.map_map {ρ σ τ : Family → Type} (f : (family : Family) → ρ family → σ family)
    (g : (family : Family) → σ family → τ family) (label : Label ρ) :
    (label.map f).map g = label.map fun family use => g family (f family use) := by
  cases label <;> simp [Label.map, Value.map_map, Function.comp_def]

/-- The label of an expression, with the occurrences that it holds. -/
def Shape.label : Shape → Label (fun family => OccId family)
  | .letIn var value _ => .letIn var value
  | .group family _ _ => .group family
  | .primitive operator arguments continuation => .primitive operator arguments continuation
  | .apply function arguments continuation => .apply function arguments continuation
  | .jump continuation arguments => .jump continuation arguments
  | .caseOf scrutinee map otherwise =>
    .caseOf scrutinee (map.branches.map Prod.fst) otherwise.isSome
  | .unreachable => .unreachable

/-- A contraction changes the children of a node and nothing in its label. -/
theorem Shape.label_contract (shape : Shape) (keep : DefId → Bool) (place : ExprId → ExprId) :
    (shape.contract keep place).label = shape.label := by
  cases shape <;> simp [contract, label, Function.comp_def]

/-- A label depends on what is said by the occurrences of the expression only. -/
theorem Shape.map_label_congr {σ : Family → Type} {shape : Shape}
    {f g : (family : Family) → OccId family → σ family}
    (same : ∀ {family : Family} (o : OccId family), ⟨o⟩ ∈ shape.uses → f family o = g family o) :
    shape.label.map f = shape.label.map g := by
  cases shape with
  | letIn var value body =>
    have all : ∀ o ∈ value.uses, f _ o = g _ o := fun o mem => same o (by simp [uses, mem])
    exact congrArg (Label.letIn var) (Value.map_congr all)
  | group family members body => rfl
  | primitive operator arguments continuation =>
    have all : ∀ o ∈ arguments, f _ o = g _ o := fun o mem => same o (by simp [uses, mem])
    simpa [label, Label.map, same continuation (by simp [uses])] using all
  | apply function arguments continuation =>
    have all : ∀ o ∈ arguments, f _ o = g _ o := fun o mem => same o (by simp [uses, mem])
    simpa [label, Label.map, same function (by simp [uses]), same continuation (by simp [uses])]
      using all
  | jump continuation arguments =>
    have all : ∀ o ∈ arguments, f _ o = g _ o := fun o mem => same o (by simp [uses, mem])
    simpa [label, Label.map, same continuation (by simp [uses])] using all
  | caseOf scrutinee map otherwise => simp [label, Label.map, same scrutinee (by simp [uses])]
  | unreachable => rfl

/-- An occurrence with what it records, if it is live. -/
structure Said (family : Family) where
  occurrence : OccId family
  mention : Option (Mention family)

/-- What is said of the variable, whatever the recursivity. -/
def Said.untagged (family : Family) (said : Said family) : Said family :=
  { said with mention := said.mention.map fun mention => { mention with recursivity := .nonRecursive } }

/-! ## Trees -/

/-- A tree of nodes. -/
inductive Tree (α : Type) where
  | missing
  | node (handle : Node) (label : α) (children : List (Tree α))

namespace Tree

variable {α β : Type}

/-- The tree with other labels. -/
def map (f : α → β) : Tree α → Tree β
  | .missing => .missing
  | .node handle label children => .node handle (f label) (children.map (map f))

/-- The handles in a tree. -/
def nodes : Tree α → List Node
  | .missing => []
  | .node handle _ children => handle :: children.flatMap nodes

/-- The tree with another in the place of the tree at a handle. -/
def exchange (target : Node) : Tree α → Tree α → Tree α
  | .missing, _ => .missing
  | .node handle label children, new =>
    if handle = target then new
    else .node handle label (children.map fun child => exchange target child new)

/-- The tree whatever the recursivities in it. -/
def untagged : Tree (Label Said) → Tree (Label Said) := map (Label.map Said.untagged)

/-- Taking the tags off a tree is taking them off its head and its children. -/
theorem untagged_node (handle : Node) (label : Label Said) (children : List (Tree (Label Said))) :
    (node handle label children).untagged =
      node handle (label.map Said.untagged) (children.map untagged) := by
  rw [untagged, map]

end Tree

namespace Program

variable {p : Program} {family : Family} {n head : Node}

/-- What an occurrence reads. -/
def said (p : Program) (family : Family) (o : OccId family) : Said family :=
  ⟨o, (p.occEntry? o).map fun entry => ⟨entry.var, entry.recursivity⟩⟩

/-- The label of a live node. -/
def labelOf? (p : Program) : Node → Option (Label Said)
  | .expr e => (p.shapeOf? e).map fun shape => shape.label.map p.said
  | .defn d => (p.definitionOf? d).map fun definition =>
    .definition definition.header definition.parameters definition.type

/-- The tree of a node down to the given depth. -/
def treeBy (p : Program) : Nat → Node → Tree (Label Said)
  | 0, _ => .missing
  | depth + 1, node => (p.labelOf? node).elim .missing fun label =>
    .node node label ((p.childrenOf node).map (p.treeBy depth))

/-- The tree that a node denotes. -/
def tree (p : Program) (node : Node) : Tree (Label Said) := p.treeBy (p.nodeSlots + 1) node

/-- Just live nodes have a label. -/
theorem isSome_labelOf? (p : Program) (n : Node) : (p.labelOf? n).isSome = p.hasNode n := by
  cases n with
  | expr e => rw [labelOf?, Option.isSome_map, hasNode_expr]
  | defn d => rw [labelOf?, Option.isSome_map, hasNode_defn]

theorem exists_labelOf? (live : p.hasNode n = true) : ∃ label, p.labelOf? n = some label :=
  Option.isSome_iff_exists.1 ((isSome_labelOf? p n).trans live)

/-- More depth than enough makes no difference. -/
theorem Enough.treeBy_eq {depth other : Nat} (enough : p.Enough depth n) (enough' : p.Enough other n) :
    p.treeBy depth n = p.treeBy other n := by
  induction depth generalizing n other with
  | zero => exact enough.elim
  | succ depth ih =>
    cases other with
    | zero => exact enough'.elim
    | succ other =>
      have children : (p.childrenOf n).map (p.treeBy depth) = (p.childrenOf n).map (p.treeBy other) :=
        List.map_congr_left fun c mem => ih (enough c mem) (enough' c mem)
      rw [treeBy, treeBy, children]

namespace Forest

/-- The tree of a node is made of the trees of its children. -/
theorem tree_eq (f : Forest p) {label : Label Said} (reads : p.labelOf? n = some label) :
    p.tree n = .node n label ((p.childrenOf n).map p.tree) := by
  have live : p.hasNode n = true := by rw [← isSome_labelOf?, reads, Option.isSome_some]
  have children : (p.childrenOf n).map (p.treeBy p.nodeSlots) = (p.childrenOf n).map p.tree :=
    List.map_congr_left fun c mem =>
      Enough.treeBy_eq (f.enough_nodeSlots live c mem) (f.enough_nodeSlots (f.hasNode_child mem))
  rw [tree, treeBy, reads, Option.elim_some, children]

/-- What holds of a node if it holds of its children holds of every node. -/
theorem induction (f : Forest p) {motive : Node → Prop}
    (step : ∀ n, p.hasNode n = true → (∀ c ∈ p.childrenOf n, motive c) → motive n)
    (live : p.hasNode n = true) : motive n := by
  suffices deep : ∀ depth n, p.Enough depth n → p.hasNode n = true → motive n from
    deep _ n (f.enough_nodeSlots live) live
  intro depth
  induction depth with
  | zero => exact fun _ enough => enough.elim
  | succ depth ih =>
    exact fun n enough live =>
      step n live fun c mem => ih c (enough c mem) (f.hasNode_child mem)

/-- The nodes of a tree are those that lie below its head. -/
theorem mem_nodes_tree (f : Forest p) (live : p.hasNode head = true) :
    n ∈ (p.tree head).nodes ↔ p.Within head n := by
  refine f.induction (motive := fun head => n ∈ (p.tree head).nodes ↔ p.Within head n) ?_ live
  intro head live ih
  obtain ⟨label, reads⟩ := exists_labelOf? live
  rw [f.tree_eq reads, Tree.nodes, f.within_iff_child, List.mem_cons, List.flatMap_map,
    List.mem_flatMap]
  refine or_congr ⟨fun eq => ⟨eq.symm, live⟩, fun eq => eq.1.symm⟩ (exists_congr fun c => ?_)
  exact and_congr_right fun mem => ih c mem

end Forest

end Program

end ContinuationIR
