import ContinuationIR.Proofs.Lexical
import ContinuationIR.Proofs.Stray

/-!
# The inventory of a region

A region is found by going down from a node, through the children that nodes list. Which nodes lie
in it can also be told from below, by climbing from each node along its enclosing links, and what it
holds and binds from the holders that occurrences record and the bindings that variables record.
Whatever calls led to a program, the two ways agree, for every subtree and with any tree in it left
out.
-/

namespace ContinuationIR
set_option autoImplicit false

/-- Where a view meets nothing twice, a view of a part of it does not either. -/
theorem nodup_filterMap_of_part {α β : Type} {whole : Event → Option α} {part : Event → Option β}
    {embed : β → α} {events : List Event}
    (agree : ∀ {event b}, part event = some b → whole event = some (embed b))
    (once : (events.filterMap whole).Nodup) : (events.filterMap part).Nodup := by
  induction events with
  | nil => exact List.nodup_nil
  | cons event rest ih =>
    have later := ih (once.sublist ((List.sublist_cons_self event rest).filterMap whole))
    cases here : part event with
    | none => rwa [List.filterMap_cons_none here]
    | some b =>
      rw [List.filterMap_cons_some (agree here), List.nodup_cons] at once
      rw [List.filterMap_cons_some here]
      refine List.nodup_cons.2 ⟨fun again => once.1 ?_, later⟩
      obtain ⟨other, mem, there⟩ := List.mem_filterMap.1 again
      exact List.mem_filterMap.2 ⟨other, mem, agree there⟩

namespace Region

/-- The region lists the node, with the expressions or with the definitions. -/
def Lists (r : Region) : Node → Prop
  | .expr e => e ∈ r.expressions
  | .defn d => d ∈ r.definitions

/-- The two lists of a region have its nodes. -/
theorem lists_iff {r : Region} {n : Node} : r.Lists n ↔ n ∈ r.nodes := by
  cases n with
  | expr e => exact mem_expressions
  | defn d => exact mem_definitions

end Region

namespace Program

variable {p : Program} {head n : Node} {skip : Option ExprId} {r : Region}

/-- Climbing from the node one comes to the head, or starts there, and does not come through the
expression that is left out. -/
def ClimbsTo (p : Program) (head : Node) (skip : Option ExprId) (n : Node) : Prop :=
  ∃ above, p.ancestors n = .ok above ∧ head ∈ n :: above ∧
    ∀ s, skip = some s → .expr s ∉ n :: above

/-- What the region lists, told from the links, holders and bindings that the tables record. -/
structure Inventory (p : Program) (head : Node) (skip : Option ExprId) (r : Region) : Prop where
  nodes : ∀ n, r.Lists n ↔ p.hasNode n = true ∧ p.ClimbsTo head skip n
  held : ∀ {family : Family} (o : OccId family), o ∈ r.held family ↔
    ∃ use, p.occEntry? o = some use ∧ use.holder ∈ r.expressions
  bound : ∀ {family : Family} (v : VarId family), v ∈ r.bound family ↔
    ∃ entry binding, p.varEntry? v = some entry ∧ entry.binding = some binding ∧
      r.Lists binding.site
  expressionsOnce : r.expressions.Nodup
  definitionsOnce : r.definitions.Nodup
  heldOnce : ∀ family, (r.held family).Nodup
  boundOnce : ∀ family, (r.bound family).Nodup

/-- A live node has a lineage, so being in a tree can be told by climbing. -/
theorem Forest.inside_iff (f : Forest p) :
    p.Inside head skip n ↔ p.hasNode n = true ∧ p.ClimbsTo head skip n := by
  constructor
  · rintro ⟨within, out⟩
    obtain ⟨above, lin, mem⟩ := within
    refine ⟨hasNode_of_lineage lin n List.mem_cons_self, above, ancestors_eq lin, mem, ?_⟩
    exact fun s skipped inside => out s skipped ((within_iff lin).2 inside)
  · rintro ⟨live, above, climbed, mem, out⟩
    obtain ⟨above', lin⟩ := f.ends live
    obtain rfl : above' = above := Except.ok.inj ((ancestors_eq lin).symm.trans climbed)
    refine ⟨⟨_, lin, mem⟩, ?_⟩
    exact fun s skipped within => out s skipped ((within_iff lin).1 within)

/-- A region that covers what is inside of a tree has just the parts of the tree in it. -/
theorem Coherent.inventory (c : Coherent p) (covers : Covers p r (p.Inside head skip)) :
    Inventory p head skip r := by
  have usesOnce : r.uses.Nodup := covers.uses.nodup_iff.2 (c.uses.nodup_uses covers.distinct)
  have bindersOnce : r.binders.Nodup :=
    covers.binders.nodup_iff.2 (c.nodup_binders covers.distinct)
  constructor
  case nodes =>
    intro n
    rw [Region.lists_iff, covers.nodes, c.forest.inside_iff]
  case held =>
    intro family o
    rw [covers.mem_held]
    constructor
    · rintro ⟨n, inside, holds⟩
      obtain ⟨use, read, rfl⟩ := c.uses.holder holds
      exact ⟨use, read, Region.mem_expressions.2 (covers.nodes.2 inside)⟩
    · rintro ⟨use, read, listed⟩
      exact ⟨_, covers.nodes.1 (Region.mem_expressions.1 listed), c.uses.held read⟩
  case bound =>
    intro family v
    rw [covers.mem_bound]
    constructor
    · rintro ⟨n, inside, binds⟩
      obtain ⟨role, bound⟩ := c.binders.binding binds
      obtain ⟨entry, read, recorded⟩ := Option.bind_eq_some_iff.1 bound
      exact ⟨entry, _, read, recorded, Region.lists_iff.2 (covers.nodes.2 inside)⟩
    · rintro ⟨entry, binding, read, recorded, listed⟩
      have bound : p.bindingOf? v = some binding := Option.bind_eq_some_iff.2 ⟨entry, read, recorded⟩
      exact ⟨_, covers.nodes.1 (Region.lists_iff.1 listed), c.binders.site bound⟩
  case expressionsOnce =>
    exact nodup_filterMap_of_part Event.expression?_eq_some_iff.1 covers.distinct
  case definitionsOnce =>
    exact nodup_filterMap_of_part Event.definition?_eq_some_iff.1 covers.distinct
  case heldOnce => exact fun family => nodup_filterMap_of_part Event.used?_eq_some_iff.1 usesOnce
  case boundOnce => exact fun family => nodup_filterMap_of_part Event.bound?_eq_some_iff.1 bindersOnce

/-- Whatever calls led to a program, the region of a live node has the inventory that climbing
gives, whatever expression is left out, unless it is the node or above it. -/
theorem region_agrees_with_climbs (reachable : Reachable p) (live : p.hasNode head = true)
    (outside : ∀ s, skip = some s →
      .expr s ≠ head ∧ ∀ above, p.ancestors head = .ok above → .expr s ∉ above) :
    ∃ r, p.region head skip = .ok r ∧ Inventory p head skip r := by
  obtain ⟨c, -⟩ := reachable.consistent
  obtain ⟨above, lin⟩ := c.forest.ends live
  have clear : p.Clear skip head := by
    intro s skipped within
    obtain ⟨ne, higher⟩ := outside s skipped
    rcases List.mem_cons.1 ((within_iff lin).1 within) with eq | mem
    · exact eq
    · exact absurd mem (higher above (ancestors_eq lin))
  obtain ⟨r, ok, covers⟩ := c.forest.region_eq_ok live clear
  exact ⟨r, ok, c.inventory covers⟩

/-- The function `f` without what it answers: its body, `g` and the call in `g` are left. -/
theorem nestedFunctions_without_answer :
    nestedFunctions.ancestors (.defn ⟨1⟩) = .ok [.expr ⟨4⟩, .defn ⟨2⟩] ∧
    ∃ r, nestedFunctions.region (.defn ⟨1⟩) (some ⟨1⟩) = .ok r ∧
      Inventory nestedFunctions (.defn ⟨1⟩) (some ⟨1⟩) r ∧
      r.expressions = [⟨2⟩, ⟨0⟩] ∧ r.definitions = [⟨1⟩, ⟨0⟩] ∧ r.held .value = [⟨0⟩, ⟨1⟩] ∧
      r.bound .value = [⟨1⟩, ⟨2⟩, ⟨3⟩] := by
  have climbed : nestedFunctions.ancestors (.defn ⟨1⟩) = .ok [.expr ⟨4⟩, .defn ⟨2⟩] := by
    set_option maxRecDepth 2000 in rfl
  have live : nestedFunctions.hasNode (.defn ⟨1⟩) = true := by
    set_option maxRecDepth 2000 in rfl
  have outside : ∀ s, some (⟨1⟩ : ExprId) = some s → .expr s ≠ Node.defn ⟨1⟩ ∧
      ∀ above, nestedFunctions.ancestors (.defn ⟨1⟩) = .ok above → .expr s ∉ above := by
    rintro s ⟨⟩
    refine ⟨by decide, fun above again => ?_⟩
    obtain rfl := Except.ok.inj (climbed.symm.trans again)
    decide
  obtain ⟨r, ok, inventory⟩ :=
    region_agrees_with_climbs nestedFunctions_reachable live outside
  have evaluated : nestedFunctions.region (.defn ⟨1⟩) (some ⟨1⟩) =
      .ok ⟨nestedFunctions.events (.defn ⟨1⟩) (some ⟨1⟩)⟩ := by
    set_option maxRecDepth 4000 in rfl
  obtain rfl := Except.ok.inj (evaluated.symm.trans ok)
  refine ⟨climbed, _, ok, inventory, ?_⟩
  set_option maxRecDepth 4000 in exact ⟨rfl, rfl, rfl, rfl⟩

end Program

end ContinuationIR
