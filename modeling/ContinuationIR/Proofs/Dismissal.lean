import ContinuationIR.Proofs.Confluence
import ContinuationIR.Proofs.Exchange

/-!
# Dismissing a definition

Removing a dead definition takes away its tree, its name, what the tree binds and holds, and nothing
else. If its group has other members, they stay in their order with their trees. If it has none, the
group goes too and its body comes in its place. What is left is as it was, and a variable that is left
loses the occurrences that went.
-/

namespace ContinuationIR
set_option autoImplicit false

namespace Program

variable {family : Family} {p q : Program} {place : ExprId → ExprId} {d : DefId} {n : Node}

/-! ## Trees that a contraction leaves whole -/

namespace Contracts

variable (h : Contracts p place q) (f : Forest p)
include h

/-- An occurrence of a node that is left says what it said. -/
theorem said_eq (u : UsesIndexed p) {o : OccId family} (holds : ⟨o⟩ ∈ p.usesOf n)
    (live : q.hasNode n = true) : q.said family o = p.said family o := by
  obtain ⟨entry, read, rfl⟩ := u.holder holds
  rw [said, h.occurrence.2 ⟨read, live⟩, said, read]

/-- What a node that stays says is what it said. -/
theorem labelOf?_eq (u : UsesIndexed p) (live : q.hasNode n = true) :
    q.labelOf? n = p.labelOf? n := by
  cases n with
  | defn d =>
    rw [labelOf?, h.definition live, Option.map_map, labelOf?]
    rfl
  | expr e =>
    rw [labelOf?, h.shape live, Option.map_map, labelOf?]
    refine Option.map_congr fun shape read => ?_
    rw [Function.comp_apply, Shape.label_contract]
    exact Shape.map_label_congr fun o mem => h.said_eq u (usesOf_expr read ▸ mem) live

include f

/-- An expression that stays below its parent is not exchanged for another. -/
theorem place_eq_self (g : Forest q) {e : ExprId} (live : q.hasNode n = true)
    (child : .expr e ∈ p.childrenOf n) (stays : q.hasNode (.expr e) = true) : place e = e := by
  have moved : .expr (place e) ∈ q.childrenOf n := by
    rw [h.childrenOf live]
    exact List.mem_filterMap.2 ⟨_, child, rfl⟩
  have inside : q.Within (.expr e) (.expr (place e)) :=
    (h.within_iff f (g.hasNode_child moved)).2 ⟨stays, h.below live child⟩
  rcases (g.within_child moved).1 inside with same | above
  · exact (Node.expr.inj same).symm
  · exact absurd ((h.within_iff f live).1 above).2 (not_within_parent (f.link child))

/-- A node of which no child goes has the children that it had. -/
theorem childrenOf_eq (g : Forest q) (live : q.hasNode n = true)
    (stay : ∀ c ∈ p.childrenOf n, q.hasNode c = true) : q.childrenOf n = p.childrenOf n := by
  rw [h.childrenOf live]
  refine (List.filterMap_congr fun c mem => ?_).trans List.filterMap_some
  cases c with
  | defn d => simp [Node.placed, stay _ mem]
  | expr e => rw [Node.placed, h.place_eq_self f g live mem (stay _ mem)]

/-- The tree of a node is as it was if nothing below the node went. By induction on the tree: what
holds of everything below a node holds below each of its children. -/
theorem tree_eq (u : UsesIndexed p) (g : Forest q) (known : p.hasNode n = true)
    (whole : ∀ m, p.Within n m → q.hasNode m = true) : q.tree n = p.tree n := by
  revert whole
  refine f.induction (motive := fun n => (∀ m, p.Within n m → q.hasNode m = true) →
    q.tree n = p.tree n) ?_ known
  intro n known ih whole
  have live := whole n (f.within_self known)
  obtain ⟨label, reads⟩ := exists_labelOf? known
  have children := h.childrenOf_eq f g live fun c mem => whole c (f.within_node_child mem)
  rw [f.tree_eq reads, g.tree_eq ((h.labelOf?_eq u live).trans reads), children]
  refine congrArg _ (List.map_congr_left fun c mem => ?_)
  exact ih c mem fun m below => whole m ((f.within_node_child mem).trans below)

end Contracts

/-! ## What goes with a definition -/

section Gone

variable {r : Removal} (h : Dead p d r) (c : Coherent p)
include h c

/-- What a member that leaves its group takes along. -/
theorem Dead.lost_iff_brings {v : VarId family} :
    p.Lost (p.Within (.defn d)) ⟨v⟩ ↔ p.Brings d v := by
  rw [← h.lost_iff c, List.mem_append, List.mem_singleton, ← Region.mem_bound, h.covers.mem_bound,
    or_comm]
  refine or_congr ⟨fun same => ?_, h.name_eq⟩ Iff.rfl
  cases same
  exact h.nameOf

/-- A group binds the name of its only member. -/
theorem Dead.bindersOf_group (alone : r.members.length = 1) :
    p.bindersOf (.expr r.group) = [⟨r.name⟩] := by
  rw [bindersOf_expr (h.family c).1, h.members_eq c alone]
  simp [shapeBinders, h.nameOf]

/-- What a group takes along with its only member. -/
theorem Dead.lost_iff_brings_of_alone (alone : r.members.length = 1) {v : VarId family} :
    p.Lost (p.Inside (.expr r.group) (some r.body)) ⟨v⟩ ↔ p.Brings d v := by
  have lost : p.Lost (p.Inside (.expr r.group) (some r.body)) ⟨v⟩ ↔ _ :=
    Program.lost_iff c.forest.inside_of_member
  rw [lost]
  constructor
  · rintro ⟨n, gone, binds⟩
    rcases (h.inside_iff c alone).1 gone with rfl | within
    · rw [h.bindersOf_group c alone] at binds
      cases List.mem_singleton.1 binds
      exact .inl h.nameOf
    · exact .inr ⟨n, within, binds⟩
  · rintro (name | ⟨n, within, binds⟩)
    · refine ⟨.expr r.group, (h.inside_iff c alone).2 (.inl rfl), ?_⟩
      rw [h.bindersOf_group c alone, h.name_eq name]
      exact List.mem_singleton_self _
    · exact ⟨n, (h.inside_iff c alone).2 (.inr within), binds⟩

end Gone

/-! ## What is left -/

/-- The group has lost a member and everything else stands where it stood. -/
structure Shrinks (p : Program) (d : DefId) (family : Family) (group : ExprId) (members : List DefId)
    (body : ExprId) (q : Program) : Prop where
  left : q.shapeOf? group = some (.group family (members.filter (· ≠ d)) body)
  links : ∀ {n : Node}, q.hasNode n = true → q.enclosing n = p.enclosing n
  shape : ∀ {e : ExprId}, q.hasNode (.expr e) = true → e ≠ group → q.shapeOf? e = p.shapeOf? e
  definition : ∀ {d : DefId}, q.hasNode (.defn d) = true → q.definitionOf? d = p.definitionOf? d

/-- The program `q` is `p` without the definition, which was a member of the group. -/
structure Dismisses (p : Program) (d : DefId) (family : Family) (group : ExprId)
    (members : List DefId) (body : ExprId) (q : Program) : Prop where
  root : q.root = p.root
  /-- The tree of the definition goes, and the group if it has no other member. -/
  hasNode : ∀ n, q.hasNode n = true ↔
    p.hasNode n = true ∧ ¬ p.Within (.defn d) n ∧ ¬ (n = .expr group ∧ members = [d])
  /-- The name of the definition goes and what its tree binds. -/
  hasVariable : ∀ {family : Family} (v : VarId family),
    q.hasVariable v = true ↔ p.hasVariable v = true ∧ ¬ p.Brings d v
  /-- What the tree of the definition holds goes. An occurrence that is left has its variable, its
  recursivity and its holder. -/
  occEntry : ∀ {family : Family} (o : OccId family) (entry : OccurrenceEntry family),
    q.occEntry? o = some entry ↔
      p.occEntry? o = some entry ∧ ¬ p.Within (.defn d) (.expr entry.holder)
  /-- A variable that is left loses the occurrences that go. -/
  varEntry : ∀ {family : Family} {v : VarId family} {a b : VariableEntry family},
    p.varEntry? v = some a → q.varEntry? v = some b →
      b.name = a.name ∧ b.kind = a.kind ∧ b.binding = a.binding ∧
        ∀ o, o ∈ b.occurrences ↔ o ∈ a.occurrences ∧ q.hasOccurrence o = true
  /-- The other members of the group and its body keep their trees. -/
  trees : ∀ child ∈ p.childrenOf (.expr group), child ≠ .defn d → q.tree child = p.tree child
  shrinks : members ≠ [d] → Shrinks p d family group members body q
  /-- Without members the group is exchanged for its body. -/
  lifts : members = [d] → Exchanges p group body q

section Left

variable {r : Removal} (h : Dead p d r) (c : Consistent p)
include h c

/-- The group is left with its other members. -/
theorem Dead.shrinks (pruned : Pruned p (p.treeCut (.defn d) (some d)) q) :
    Shrinks p d r.family r.group r.members r.body q := by
  have mended := h.mended c.toCoherent
  constructor
  case left =>
    rw [pruned.shape (not_within_parent h.link), (h.family c.toCoherent).1]
    simp [Cut.shape, Shape.contract, treeCut, Cut.expression, eq_comm]
  case links => exact fun live => pruned.enclosing (pruned.stays live)
  case shape =>
    intro e live other
    have stays := pruned.stays live
    rw [pruned.shape stays, ← mended.shape stays, shapeOf?_setShape, if_neg other]
  case definition =>
    intro d' live
    rw [pruned.definition (pruned.stays live)]
    cases p.definitionOf? d' <;> rfl

/-- What the two ways of removing a definition have in common. -/
theorem Dead.dismisses {cut : Cut} (pruned : Pruned p cut q) (clean : Clean p cut)
    (lifting : Lifts p cut) (settled : Settled p q)
    (gone : ∀ n, cut.gone n ↔ p.Within (.defn d) n ∨ n = .expr r.group ∧ r.members = [d])
    (lost : ∀ {family : Family} {v : VarId family}, p.Lost cut.gone ⟨v⟩ ↔ p.Brings d v)
    (shrinks : r.members ≠ [d] → Shrinks p d r.family r.group r.members r.body q)
    (lifts : r.members = [d] → Exchanges p r.group r.body q) :
    Dismisses p d r.family r.group r.members r.body q := by
  have f := c.forest
  have contracts := pruned.contracts clean lifting c settled
  have left (n : Node) : q.hasNode n = true ↔
      p.hasNode n = true ∧ ¬ p.Within (.defn d) n ∧ ¬ (n = .expr r.group ∧ r.members = [d]) := by
    rw [← not_or, ← gone]
    constructor
    · exact fun live => ⟨contracts.live live, pruned.stays live⟩
    · exact fun ⟨known, stays⟩ => (pruned.hasNode stays).trans known
  constructor
  case root => exact pruned.root
  case hasNode => exact left
  case hasVariable => exact fun v => by rw [pruned.hasVariable_iff, lost]
  case occEntry =>
    intro family o entry
    rw [contracts.occurrence]
    refine and_congr_right fun read => ?_
    have holds := c.uses.held read
    have other : .expr entry.holder ≠ Node.expr r.group := by
      intro same
      rw [same, usesOf_expr (h.family c.toCoherent).1] at holds
      cases holds
    rw [left]
    simp [hasNode_of_use holds, other]
  case varEntry =>
    intro family v a b before after
    obtain ⟨name, kind⟩ := settled.toLater.name_eq before after
    obtain ⟨-, stays⟩ := pruned.hasVariable_iff.1 (Slots.contains_iff.2 ⟨b, after⟩)
    have binding := pruned.binding stays
    simp only [bindingOf?, before, after, Option.bind_some] at binding
    refine ⟨name, kind, binding, fun o => ?_⟩
    have lists := pruned.lists (v := v) (o := o)
    simpa [Lists, before, after, stays, hasOccurrence, Slots.contains, occEntry?] using lists
  case trees =>
    intro child mem other
    have member := f.listed h.link
    refine contracts.tree_eq f c.uses (pruned.forest clean f) (f.hasNode_child mem) ?_
    intro m below
    refine (left m).2 ⟨below.hasNode, f.children_disjoint mem member other below, ?_⟩
    rintro ⟨rfl, -⟩
    exact not_within_parent (f.link mem) below
  case shrinks => exact shrinks
  case lifts => exact lifts

/-- A member that is not the last one leaves alone. -/
theorem Dead.dismisses_of_several (several : r.members.length ≠ 1)
    (pruned : Pruned p (p.treeCut (.defn d) (some d)) q) (settled : Settled p q) :
    Dismisses p d r.family r.group r.members r.body q := by
  have others : r.members ≠ [d] := fun eq => several (by rw [eq]; rfl)
  have clean := (h.removable c.toCoherent several).clean c.toCoherent
  refine h.dismisses c pruned clean (by rintro _ ⟨⟩) settled (fun n => ?_)
    (h.lost_iff_brings c.toCoherent) (fun _ => h.shrinks c pruned) fun alone => absurd alone others
  exact (or_iff_left fun alone => others alone.2).symm

/-- With the last member goes the group, and the body comes to its place. -/
theorem Dead.dismisses_of_alone (alone : r.members.length = 1)
    (replaced : Replaced p r.group r.body q) (settled : Settled p q) :
    Dismisses p d r.family r.group r.members r.body q := by
  obtain ⟨s, replaceable, pruned⟩ := replaced
  have only := h.members_eq c.toCoherent alone
  have body : .expr r.body ∈ p.childrenOf (.expr r.group) := by
    simp [childrenOf_expr (h.family c.toCoherent).1, Shape.children]
  refine h.dismisses c pruned (replaceable.clean c.toCoherent) ?_ settled (fun n => ?_)
    (h.lost_iff_brings_of_alone c.toCoherent alone) (fun several => absurd only several) fun _ =>
      replaceable.exchanges c.toCoherent pruned settled.toLater
  · rintro _ ⟨⟩
    exact ⟨c.forest.link body, replaceable.attached⟩
  · refine (h.inside_iff c.toCoherent alone).trans ?_
    rw [or_comm, and_iff_left only]

end Left

/-- Removing a dead definition removes one definition: its tree goes with its name, what it binds and
what it holds, and its group if it has no other member. -/
theorem removeDeadDefinition_dismisses (reachable : Reachable p) {answer : Answer}
    (ok : (p.perform (.removeDeadDefinition d)).result = .ok answer) :
    ∃ family name group members body, p.nameOf family d = some name ∧
      p.enclosing (.defn d) = .ok (some (.expr group)) ∧
      p.shapeOf? group = some (.group family members body) ∧ d ∈ members ∧
      Dismisses p d family group members body (p.perform (.removeDeadDefinition d)).program := by
  obtain ⟨c, -⟩ := reachable.consistent
  have settled : Settled p (p.perform (.removeDeadDefinition d)).program := settled_perform p trivial
  obtain ⟨r, dead, removed⟩ := (ends_removeDeadDefinition c.toCoherent d).map.holds ok
  refine ⟨_, _, _, _, _, dead.nameOf, dead.link, (dead.family c.toCoherent).1,
    dead.member c.toCoherent, ?_⟩
  rcases removed with ⟨alone, replaced⟩ | ⟨several, pruned⟩
  · exact dead.dismisses_of_alone c alone replaced settled
  · exact dead.dismisses_of_several c several pruned settled

/-- A loop that nothing enters, with a continuation that is not used beside it. -/
def idleLoop : Program :=
  run [.freshContinuation "return", .freshContinuation "loop", .freshContinuation "exit",
    .freshValue "x" .any, .jump ⟨⟨1⟩, .recursive⟩ [⟨⟨0⟩, .nonRecursive⟩], .continuation ⟨1⟩ [⟨0⟩] ⟨0⟩,
    .jump ⟨⟨0⟩, .nonRecursive⟩ [], .continuation ⟨2⟩ [] ⟨1⟩, .jump ⟨⟨0⟩, .nonRecursive⟩ [],
    .group .continuation [⟨0⟩, ⟨1⟩] ⟨2⟩, .root ⟨0⟩ [] ⟨[], .any⟩ ⟨3⟩, .install ⟨2⟩]

theorem idleLoop_reachable : Reachable idleLoop := reachable_run _

/-- The program without the loop. -/
def idleExit : Program := (idleLoop.perform (.removeDeadDefinition ⟨0⟩)).program

/-- The loop leaves its group, and the continuation that is left takes the group along. -/
theorem idleLoop_dismissed :
    (idleLoop.perform (.removeDeadDefinition ⟨0⟩)).result = .ok .nothing ∧
    Dismisses idleLoop ⟨0⟩ .continuation ⟨3⟩ [⟨0⟩, ⟨1⟩] ⟨2⟩ idleExit ∧
    (idleExit.perform (.removeDeadDefinition ⟨1⟩)).result = .ok .nothing ∧
    Dismisses idleExit ⟨1⟩ .continuation ⟨3⟩ [⟨1⟩] ⟨2⟩
      (idleExit.perform (.removeDeadDefinition ⟨1⟩)).program := by
  have loop : (idleLoop.perform (.removeDeadDefinition ⟨0⟩)).result = .ok .nothing := by
    set_option maxRecDepth 2000 in rfl
  have exit : (idleExit.perform (.removeDeadDefinition ⟨1⟩)).result = .ok .nothing := by
    set_option maxRecDepth 2000 in rfl
  refine ⟨loop, ?_, exit, ?_⟩
  · obtain ⟨_, _, _, _, _, -, ⟨⟩, ⟨⟩, -, dismisses⟩ :=
      removeDeadDefinition_dismisses idleLoop_reachable loop
    exact dismisses
  · obtain ⟨_, _, _, _, _, -, ⟨⟩, ⟨⟩, -, dismisses⟩ :=
      removeDeadDefinition_dismisses (.call _ idleLoop_reachable) exit
    exact dismisses

end Program

end ContinuationIR
