import ContinuationIR.Proofs.Denotation
import ContinuationIR.Proofs.Invariant
import ContinuationIR.Proofs.Reach

/-!
# Free variables are lexical

The free variables of a tree by recursion: what a node uses is free in its tree, and so is what is free
in a tree below it and not bound by the node. In the installed tree the walk that takes all that is
used and leaves out all that is bound comes to the same, because every use is below its binder. So a
variable is free in a tree if it is used there and bound above.
-/

namespace ContinuationIR
set_option autoImplicit false

/-! ## The free variables of a tree -/

/-- The uses of a family that a label has. -/
def Label.used {σ : Family → Type} : (family : Family) → Label σ → List (σ family)
  | .value, .letIn _ value => value.uses
  | .value, .primitive _ arguments _ => arguments
  | .value, .apply function arguments _ => function :: arguments
  | .value, .jump _ arguments => arguments
  | .value, .caseOf scrutinee _ _ => [scrutinee]
  | .continuation, .primitive _ _ continuation => [continuation]
  | .continuation, .apply _ _ continuation => [continuation]
  | .continuation, .jump continuation _ => [continuation]
  | _, _ => []

/-- The variables that are used in a label. -/
def Label.mentions (family : Family) (label : Label Said) : List (VarId family) :=
  (label.used family).filterMap fun said => said.mention.map (·.var)

/-- The variables that a let or a definition binds for its body. -/
def Label.binds : (family : Family) → Label Said → List (VarId family)
  | .value, .letIn var _ => [var]
  | .value, .definition _ parameters _ => parameters
  | .continuation, .definition header _ _ => header.returnTo?.toList
  | _, _ => []

namespace Tree

/-- The name of a tree that a group of the family may hold. -/
def name? (family : Family) : Tree (Label Said) → Option (VarId family)
  | .node _ (.definition header _ _) _ => header.name? family
  | _ => none

/-- The free variables of a tree. -/
def free (family : Family) : Tree (Label Said) → List (VarId family)
  | .missing => []
  | .node _ label children =>
    let below := children.flatMap (free family)
    match label with
    | .letIn .. => label.mentions family ++ below.filter (· ∉ label.binds family)
    | .group _ => below.filter (· ∉ children.filterMap (name? family))
    | .definition header .. =>
      below.filter (· ∉ label.binds family ++ (header.name? family).toList)
    | .primitive .. | .apply .. | .jump .. | .caseOf .. | .unreachable =>
      label.mentions family ++ below

/-- The free variables of a tree, by family. -/
def freeVariables (tree : Tree (Label Said)) : FreeVariables :=
  ⟨.ofList (tree.free .value), .ofList (tree.free .continuation)⟩

end Tree

theorem Label.used_map {σ τ : Family → Type} (f : (family : Family) → σ family → τ family)
    (family : Family) (label : Label σ) :
    (label.map f).used family = (label.used family).map (f family) := by
  cases family <;> cases label <;> simp [used, map]
  case letIn value => cases value <;> simp [Value.map, Value.uses]

/-- The label of a shape uses exactly the occurrences that the shape holds. -/
theorem Shape.mem_used_label {family : Family} {shape : Shape} {o : OccId family} :
    o ∈ shape.label.used family ↔ ⟨o⟩ ∈ shape.uses := by
  cases family <;> cases shape <;> simp [label, Label.used, uses]

namespace Program

variable {family : Family} {p : Program} {n child : Node} {v : VarId family}

/-! ## One node -/

/-- The node holds an occurrence of the variable. -/
def Mentions (p : Program) (n : Node) (v : VarId family) : Prop :=
  ∃ o entry, ⟨o⟩ ∈ p.usesOf n ∧ p.occEntry? o = some entry ∧ entry.var = v

/-- The label read at a node mentions the variables that the occurrences held there stand for. -/
theorem mem_mentions_iff {label : Label Said} (reads : p.labelOf? n = some label) :
    v ∈ label.mentions family ↔ p.Mentions n v := by
  cases n with
  | defn d =>
    obtain ⟨definition, -, rfl⟩ := Option.map_eq_some_iff.1 reads
    cases family <;> simp [Label.mentions, Label.used, Mentions]
  | expr e =>
    obtain ⟨shape, read, rfl⟩ := Option.map_eq_some_iff.1 reads
    simp [Label.mentions, Label.used_map, Shape.mem_used_label, Mentions, usesOf_expr read, said,
      List.mem_filterMap]

/-- What a node that is no group binds is in its label. -/
theorem mem_binds_iff {label : Label Said} (reads : p.labelOf? n = some label)
    (single : ∀ kind, label ≠ .group kind) : v ∈ label.binds family ↔ ⟨v⟩ ∈ p.bindersOf n := by
  cases n with
  | defn d =>
    obtain ⟨definition, read, rfl⟩ := Option.map_eq_some_iff.1 reads
    rw [bindersOf_defn read]
    cases family <;> simp [Label.binds, Definition.binders]
  | expr e =>
    obtain ⟨shape, read, rfl⟩ := Option.map_eq_some_iff.1 reads
    rw [bindersOf_expr read]
    cases shape with
    | group kind members body => exact absurd rfl (single kind)
    | _ => cases family <;> simp [Label.binds, Shape.label, Label.map, shapeBinders]

/-- The name at the root of the tree of a node is the name the node itself declares. -/
theorem name?_tree (f : Forest p) (live : p.hasNode n = true) :
    (p.tree n).name? family = p.ownName? family n := by
  obtain ⟨label, reads⟩ := exists_labelOf? live
  rw [f.tree_eq reads]
  cases n with
  | defn d =>
    obtain ⟨definition, read, rfl⟩ := Option.map_eq_some_iff.1 reads
    simp [Tree.name?, ownName?_defn, nameOf, read]
  | expr e =>
    obtain ⟨shape, -, rfl⟩ := Option.map_eq_some_iff.1 reads
    cases shape <;> rfl

/-- A group binds the names of its members. -/
theorem Coherent.mem_bindersOf_group (c : Coherent p) {e : ExprId} {kind : Family}
    {members : List DefId} {body : ExprId} (read : p.shapeOf? e = some (.group kind members body)) :
    ⟨v⟩ ∈ p.bindersOf (.expr e) ↔
      ∃ child ∈ p.childrenOf (.expr e), p.ownName? family child = some v := by
  rw [childrenOf_expr read]
  constructor
  · intro binds
    rw [bindersOf_expr read] at binds
    obtain ⟨d, mem, named⟩ := List.mem_filterMap.1 binds
    obtain ⟨w, name, same⟩ := Option.map_eq_some_iff.1 named
    cases same
    exact ⟨.defn d, by simp [Shape.children, mem], by rw [ownName?_defn, name]⟩
  · rintro ⟨child, mem, name⟩
    cases child with
    | expr e => cases name
    | defn d =>
      have member : d ∈ members := by simpa [Shape.children] using mem
      rw [ownName?_defn] at name
      obtain ⟨definition, found, named⟩ := Option.bind_eq_some_iff.1 name
      exact (name_mem_bindersOf c read member found named).2

/-- What is free in the tree of a node: what the node mentions, and what is free below it and not
bound by it, but for its own name. -/
theorem Coherent.mem_free_tree (c : Coherent p) (live : p.hasNode n = true) :
    v ∈ (p.tree n).free family ↔
      (p.Mentions n v ∨ (∃ child ∈ p.childrenOf n, v ∈ (p.tree child).free family) ∧
        ⟨v⟩ ∉ p.bindersOf n) ∧ p.ownName? family n ≠ some v := by
  have f := c.forest
  obtain ⟨label, reads⟩ := exists_labelOf? live
  have mentions := mem_mentions_iff (v := v) reads
  have binds := mem_binds_iff (v := v) reads
  have below : v ∈ ((p.childrenOf n).map p.tree).flatMap (Tree.free family) ↔
      ∃ child ∈ p.childrenOf n, v ∈ (p.tree child).free family := by simp
  rw [f.tree_eq reads]
  cases n with
  | defn d =>
    obtain ⟨definition, read, rfl⟩ := Option.map_eq_some_iff.1 reads
    have name : definition.header.name? family = p.ownName? family (.defn d) := by
      simp [ownName?_defn, nameOf, read]
    have unused : ¬ p.Mentions (.defn d) v := by simp [Mentions]
    rw [Tree.free, List.mem_filter, below, decide_eq_true_eq, List.mem_append, binds (by simp), name,
      Option.mem_toList, not_or, ← and_assoc, or_iff_right unused]
  | expr e =>
    obtain ⟨shape, read, rfl⟩ := Option.map_eq_some_iff.1 reads
    rw [and_iff_left (by simp [ownName?])]
    cases shape with
    | letIn var value body =>
      rw [← mentions, ← binds (by simp [Shape.label, Label.map])]
      simp only [Shape.label, Label.map]
      rw [Tree.free, List.mem_append, List.mem_filter, below, decide_eq_true_eq]
    | group kind members body =>
      have unused : ¬ p.Mentions (.expr e) v := by simp [Mentions, usesOf_expr read, Shape.uses]
      have names : v ∈ ((p.childrenOf (.expr e)).map p.tree).filterMap (Tree.name? family) ↔
          ⟨v⟩ ∈ p.bindersOf (.expr e) := by
        rw [c.mem_bindersOf_group read, List.filterMap_map, List.mem_filterMap]
        refine exists_congr fun child => and_congr_right fun mem => ?_
        rw [Function.comp_apply, name?_tree f (f.hasNode_child mem)]
      simp only [Shape.label, Label.map]
      rw [Tree.free, List.mem_filter, below, decide_eq_true_eq, names, or_iff_right unused]
    | _ =>
      have free : ⟨v⟩ ∉ p.bindersOf (.expr e) := by simp [bindersOf_expr read, shapeBinders]
      rw [← mentions, and_iff_left free]
      simp only [Shape.label, Label.map]
      rw [Tree.free, List.mem_append, below]

/-! ## Trees of the installed tree -/

/-- The variable is used in the tree of the node. -/
def UsedIn (p : Program) (n : Node) (v : VarId family) : Prop :=
  ∃ o entry, p.occEntry? o = some entry ∧ entry.var = v ∧ p.Within n (.expr entry.holder)

/-- The variable is bound at a node above the given one. -/
def BoundAbove (p : Program) (n : Node) (v : VarId family) : Prop :=
  ∃ binding, p.bindingOf? v = some binding ∧ Above p.enclosing binding.site n

/-- In the tree of a node is used what it mentions and what is used below it. -/
theorem Coherent.usedIn_iff (c : Coherent p) :
    p.UsedIn n v ↔ p.Mentions n v ∨ ∃ child ∈ p.childrenOf n, p.UsedIn child v := by
  constructor
  · rintro ⟨o, entry, read, refers, within⟩
    rcases c.forest.within_iff_child.1 within with ⟨rfl, -⟩ | ⟨child, mem, inside⟩
    · exact .inl ⟨o, entry, c.uses.held read, read, refers⟩
    · exact .inr ⟨child, mem, o, entry, read, refers, inside⟩
  · rintro (⟨o, entry, holds, read, refers⟩ | ⟨child, mem, o, entry, read, refers, inside⟩)
    · obtain rfl := c.uses.eq_holder read holds
      exact ⟨o, entry, read, refers, c.forest.within_self (hasNode_of_use holds)⟩
    · exact ⟨o, entry, read, refers, (c.forest.within_node_child mem).trans inside⟩

/-- Above a node is bound what its parent binds and what is bound above the parent. -/
theorem Coherent.boundAbove_child (c : Coherent p) (mem : child ∈ p.childrenOf n) :
    p.BoundAbove child v ↔ ⟨v⟩ ∈ p.bindersOf n ∨ p.BoundAbove n v := by
  obtain ⟨above, lin⟩ := c.forest.ends (hasNode_of_child mem)
  constructor
  · rintro ⟨binding, bound, higher⟩
    rcases (lin.above_up (c.forest.link mem)).1 higher with rfl | higher
    · exact .inl (c.binders.site bound)
    · exact .inr ⟨binding, bound, higher⟩
  · rintro (binds | ⟨binding, bound, higher⟩)
    · obtain ⟨role, bound⟩ := c.binders.binding binds
      exact ⟨_, bound, (lin.above_up (c.forest.link mem)).2 (.inl rfl)⟩
    · exact ⟨binding, bound, (lin.above_up (c.forest.link mem)).2 (.inr higher)⟩

/-- Nothing above a tree binds a variable that is bound inside it: a variable has one binder. -/
theorem Coherent.not_boundAbove (c : Coherent p) {m : Node} (within : p.Within n m)
    (binds : ⟨v⟩ ∈ p.bindersOf m) : ¬ p.BoundAbove n v := by
  rintro ⟨binding, bound, higher⟩
  rw [c.binders.site_unique (c.binders.site bound) binds] at higher
  obtain ⟨above, differ⟩ := above_enclosing_iff.1 higher
  exact differ (above.antisymm within)

/-- A member of a group is named by a binder of the group. -/
theorem Coherent.ownName?_ne (c : Coherent p) (mem : child ∈ p.childrenOf n)
    (free : ⟨v⟩ ∉ p.bindersOf n) : p.ownName? family child ≠ some v := by
  intro name
  cases child with
  | expr e => cases name
  | defn d =>
    obtain ⟨e, kind, members, body, rfl, read, -⟩ := exists_group_of_child mem
    exact free ((c.mem_bindersOf_group read).2 ⟨_, mem, name⟩)

section Attached

variable (c : Consistent p)
include c

/-- What an attached node mentions is bound above it. -/
theorem Consistent.boundAbove_of_read {o : OccId family} {entry : OccurrenceEntry family}
    (read : p.occEntry? o = some entry) (attached : p.isAttached (.expr entry.holder) = .ok true) :
    p.BoundAbove (.expr entry.holder) entry.var := by
  obtain ⟨binding, bound, higher, -⟩ :=
    (c.forest.exists_resolve_iff (hasNode_of_isAttached attached)).1 ⟨_, c.inScope read attached⟩
  exact ⟨binding, bound, higher⟩

/-- In the installed tree every variable a node mentions is bound above that node. -/
theorem Consistent.boundAbove_of_mentions (attached : p.isAttached n = .ok true)
    (mentions : p.Mentions n v) : p.BoundAbove n v := by
  obtain ⟨o, entry, holds, read, rfl⟩ := mentions
  obtain rfl := c.uses.eq_holder read holds
  exact c.boundAbove_of_read read attached

/-- In the installed tree the free variables of a tree are used in it and bound above it. -/
theorem Consistent.mem_free_iff (attached : p.isAttached n = .ok true) :
    v ∈ (p.tree n).free family ↔
      p.UsedIn n v ∧ p.BoundAbove n v ∧ p.ownName? family n ≠ some v := by
  have live := hasNode_of_isAttached attached
  revert attached
  refine c.forest.induction (motive := fun n => p.isAttached n = .ok true →
    (v ∈ (p.tree n).free family ↔
      p.UsedIn n v ∧ p.BoundAbove n v ∧ p.ownName? family n ≠ some v)) ?_ live
  intro n live ih attached
  have known (child) (mem : child ∈ p.childrenOf n) :=
    ih child mem (c.attached_below attached (c.forest.within_node_child mem))
  rw [c.mem_free_tree live, c.usedIn_iff, ← and_assoc]
  refine and_congr_left fun _ => ?_
  constructor
  · rintro (mentions | ⟨⟨child, mem, free⟩, unbound⟩)
    · exact ⟨.inl mentions, c.boundAbove_of_mentions attached mentions⟩
    · obtain ⟨used, bound, -⟩ := (known child mem).1 free
      exact ⟨.inr ⟨child, mem, used⟩, ((c.boundAbove_child mem).1 bound).resolve_left unbound⟩
  · rintro ⟨mentions | ⟨child, mem, used⟩, bound⟩
    · exact .inl mentions
    · have unbound : ⟨v⟩ ∉ p.bindersOf n :=
        fun binds => c.not_boundAbove (c.forest.within_self live) binds bound
      refine .inr ⟨⟨child, mem, (known child mem).2 ⟨used, ?_, ?_⟩⟩, unbound⟩
      · exact (c.boundAbove_child mem).2 (.inr bound)
      · exact c.ownName?_ne mem unbound

end Attached

/-! ## The walk -/

/-- The walk over a tree enters its nodes, no others, and meets no fault. -/
theorem Forest.covers_events (f : Forest p) (live : p.hasNode n = true) :
    Covers p ⟨p.events n none⟩ (p.Within n) ∧ ∀ event ∈ p.events n none, event.fault? = none := by
  obtain ⟨⟨events⟩, region, covers⟩ := region_all f live
  obtain ⟨rfl, sound⟩ : events = p.events n none ∧ _ := region_eq_ok_iff.1 region
  exact ⟨covers, sound⟩

section Walk

variable (c : Coherent p) (live : p.hasNode n = true)
include c live

/-- All that the walk over a live node meets is there: an occurrence on it is held by a node of the
tree, so it has an entry. -/
theorem Coherent.walk_soundUse : p.walk p.soundUse n none = .ok (p.events n none) := by
  obtain ⟨covers, sound⟩ := c.forest.covers_events live
  have each : ∀ event ∈ p.events n none, p.soundUse event = pure (id event) := by
    intro event mem
    unfold soundUse
    split
    · next o =>
      have held : o ∈ Region.held ⟨p.events n none⟩ _ :=
        Region.mem_held.2 (List.mem_filterMap.2 ⟨_, mem, rfl⟩)
      obtain ⟨m, -, holds⟩ := covers.mem_held.1 held
      obtain ⟨entry, read, -⟩ := c.uses.holder holds
      have known : p.hasOccurrence o = true := Slots.contains_iff.2 ⟨entry, read⟩
      exact if_pos known
    · rw [Event.sound, sound event mem]
      rfl
  rw [← mapM_events, mapM_congr each, List.mapM_pure, List.map_id]
  rfl

/-- The walk collects the variables that some node of the tree mentions. -/
theorem Coherent.mem_usedVariables :
    v ∈ p.usedVariables family (p.events n none) ↔ p.UsedIn n v := by
  obtain ⟨covers, -⟩ := c.forest.covers_events live
  have held {o : OccId family} : (∃ event ∈ p.events n none, event.used? family = some o) ↔
      ∃ m, p.Within n m ∧ ⟨o⟩ ∈ p.usesOf m := by
    rw [← covers.mem_held, Region.held, List.mem_filterMap]
  simp only [usedVariables, List.mem_filterMap, Option.bind_eq_bind, Option.bind_eq_some_iff]
  constructor
  · rintro ⟨event, mem, o, used, entry, read, refers⟩
    obtain ⟨m, within, holds⟩ := held.1 ⟨event, mem, used⟩
    obtain rfl := c.uses.eq_holder read holds
    exact ⟨o, entry, read, Option.some.inj refers, within⟩
  · rintro ⟨o, entry, read, refers, within⟩
    obtain ⟨event, mem, used⟩ := held.2 ⟨_, within, c.uses.held read⟩
    exact ⟨event, mem, o, used, entry, read, congrArg some refers⟩

/-- The walk finds what is used in the tree and not bound in it. -/
theorem Coherent.mem_freeIn : v ∈ p.freeIn family n (p.events n none) ↔
    p.UsedIn n v ∧ (∀ m, p.Within n m → ⟨v⟩ ∉ p.bindersOf m) ∧ p.ownName? family n ≠ some v := by
  obtain ⟨covers, -⟩ := c.forest.covers_events live
  have bound : v ∈ (p.events n none).filterMap (Event.bound? family) ↔
      ∃ m, p.Within n m ∧ ⟨v⟩ ∈ p.bindersOf m := covers.mem_bound
  rw [freeIn, HandleSet.mem_eraseAll, HandleSet.mem_ofList, c.mem_usedVariables live,
    List.mem_append, bound, not_or, Option.mem_toList, and_comm]
  simp only [not_exists, not_and, Ne]

end Walk

section Attached

variable (c : Consistent p) (attached : p.isAttached n = .ok true)
include c attached

/-- What is used in an attached tree is bound in the tree or above it. -/
theorem Consistent.boundAbove_iff (used : p.UsedIn n v) :
    p.BoundAbove n v ↔ ∀ m, p.Within n m → ⟨v⟩ ∉ p.bindersOf m := by
  constructor
  · exact fun bound m within binds => c.not_boundAbove within binds bound
  · intro unbound
    obtain ⟨o, entry, read, rfl, within⟩ := used
    obtain ⟨binding, bound, higher⟩ :=
      c.boundAbove_of_read read (c.attached_below attached within)
    -- the binder and the node are both above the use, and the binder is not in the tree of the node
    have site := (above_enclosing_iff.1 higher).1
    have outside : ¬ p.Within n binding.site :=
      fun inside => unbound _ inside (c.binders.site bound)
    refine ⟨binding, bound, above_enclosing_iff.2 ⟨?_, ?_⟩⟩
    · exact (site.comparable within).resolve_right outside
    · rintro rfl
      exact outside (c.forest.within_self (hasNode_of_isAttached attached))

/-- The free variables collected by the walk are those of the tree, as a set. -/
theorem Consistent.freeIn_eq :
    p.freeIn family n (p.events n none) = .ofList ((p.tree n).free family) := by
  refine HandleSet.ext_mem fun v => ?_
  rw [c.mem_freeIn (hasNode_of_isAttached attached), HandleSet.mem_ofList, c.mem_free_iff attached]
  refine and_congr_right fun used => ?_
  rw [c.boundAbove_iff attached used]

/-- The query answers with the free variables of the tree, and never faults there. -/
theorem Consistent.freeVariables_eq : p.freeVariables n = .ok (p.tree n).freeVariables := by
  rw [freeVariables, c.walk_soundUse (hasNode_of_isAttached attached), Tree.freeVariables,
    ← c.freeIn_eq attached, ← c.freeIn_eq attached]
  rfl

end Attached

/-- Above the root nothing is bound. -/
theorem Consistent.free_root (c : Consistent p) {r : DefId} (installed : p.root = some r) :
    (p.tree (.defn r)).free family = [] := by
  refine List.eq_nil_iff_forall_not_mem.2 fun v free => ?_
  obtain ⟨-, ⟨binding, -, higher⟩, -⟩ := (c.mem_free_iff (c.attached_root installed)).1 free
  exact not_above_of_top (c.root r installed) higher

/-- The free variables of an attached node are those of the tree that it denotes. These are the
variables that are used in the tree and bound above it, but for the name of the node. Nothing is free
in the root. -/
theorem freeVariables_lexical (reachable : Reachable p) :
    (∀ n, p.isAttached n = .ok true → p.freeVariables n = .ok (p.tree n).freeVariables ∧
      ∀ {family : Family} (v : VarId family), v ∈ (p.tree n).free family ↔
        p.UsedIn n v ∧ p.BoundAbove n v ∧ p.ownName? family n ≠ some v) ∧
    ∀ r, p.root = some r → p.freeVariables (.defn r) = .ok ⟨.empty, .empty⟩ := by
  obtain ⟨c, -⟩ := reachable.consistent
  refine ⟨fun n attached => ⟨c.freeVariables_eq attached, fun v => c.mem_free_iff attached⟩, ?_⟩
  intro r installed
  rw [c.freeVariables_eq (c.attached_root installed), Tree.freeVariables, c.free_root installed,
    c.free_root installed]
  rfl

/-- A function `f` of `x` that answers a function `g`, which calls `f` with `x`. -/
def nestedFunctions : Program :=
  run [.freshContinuation "return", .freshContinuation "k", .freshContinuation "j",
    .freshValue "f" .any, .freshValue "x" .any, .freshValue "g" .any, .freshValue "y" .any,
    .apply ⟨⟨0⟩, .recursive⟩ [⟨⟨1⟩, .nonRecursive⟩] ⟨⟨2⟩, .nonRecursive⟩,
    .function ⟨2⟩ ⟨2⟩ [⟨3⟩] ⟨[.any], .any⟩ .internal ⟨0⟩,
    .jump ⟨⟨1⟩, .nonRecursive⟩ [⟨⟨2⟩, .nonRecursive⟩], .group .value [⟨0⟩] ⟨1⟩,
    .function ⟨0⟩ ⟨1⟩ [⟨1⟩] ⟨[.any], .any⟩ .internal ⟨2⟩,
    .jump ⟨⟨0⟩, .nonRecursive⟩ [⟨⟨0⟩, .nonRecursive⟩], .group .value [⟨1⟩] ⟨3⟩,
    .root ⟨0⟩ [] ⟨[], .any⟩ ⟨4⟩, .install ⟨2⟩]

theorem nestedFunctions_reachable : Reachable nestedFunctions := reachable_run _

/-- In the body of `f` are free `f`, `x` and the continuation of `f`, and not `g`. -/
theorem nestedFunctions_free :
    nestedFunctions.isAttached (.expr ⟨2⟩) = .ok true ∧
    (nestedFunctions.tree (.expr ⟨2⟩)).freeVariables = ⟨.ofList [⟨0⟩, ⟨1⟩], .ofList [⟨1⟩]⟩ ∧
    nestedFunctions.freeVariables (.defn ⟨2⟩) = .ok ⟨.empty, .empty⟩ := by
  obtain ⟨lexical, closed⟩ := freeVariables_lexical nestedFunctions_reachable
  have attached : nestedFunctions.isAttached (.expr ⟨2⟩) = .ok true := by
    set_option maxRecDepth 2000 in rfl
  have walked : nestedFunctions.freeVariables (.expr ⟨2⟩) =
      .ok ⟨.ofList [⟨0⟩, ⟨1⟩], .ofList [⟨1⟩]⟩ := by
    set_option maxRecDepth 2000 in rfl
  have installed : nestedFunctions.root = some ⟨2⟩ := by
    set_option maxRecDepth 2000 in rfl
  refine ⟨attached, ?_, closed _ installed⟩
  exact Except.ok.inj ((lexical _ attached).1.symm.trans walked)

end Program

end ContinuationIR
