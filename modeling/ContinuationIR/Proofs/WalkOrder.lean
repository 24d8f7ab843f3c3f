import Mathlib.Data.List.NodupEquivFin
import ContinuationIR.Proofs.Binders
import ContinuationIR.Proofs.Lexical

/-!
# Walks respect scope

The walk over the installed tree enters a node inside the span of the node that encloses it, from
entering it to leaving it. A node meets its own occurrences before it binds, and it binds before it
goes down. So whoever follows the walk comes to the binder of a variable before any of its uses, and to
all of these before the node that binds it is left.
-/

namespace ContinuationIR
set_option autoImplicit false

/-- The node that is left here. -/
def Event.left? : Event → Option Node
  | .leave node => some node
  | _ => none

namespace Program

variable {family : Family} {p : Program} {n m head : Node} {events : List Event}

/-! ## Places in a list of events -/

/-- What is met once is met at one place. -/
theorem place_unique {β : Type} {view : Event → Option β} (once : (events.filterMap view).Nodup)
    {i j : Nat} {one two : Event} {b : β} (first : events[i]? = some one)
    (second : events[j]? = some two) (one_eq : view one = some b) (two_eq : view two = some b) :
    i = j := by
  induction events generalizing i j with
  | nil => simp at first
  | cons event rest ih =>
    have later {k : Nat} {other : Event} (found : rest[k]? = some other) (eq : view other = some b) :
        b ∈ rest.filterMap view :=
      List.mem_filterMap.2 ⟨other, List.mem_of_getElem? found, eq⟩
    cases i with
    | zero =>
      cases first
      cases j with
      | zero => rfl
      | succ j =>
        rw [List.filterMap_cons_some one_eq, List.nodup_cons] at once
        exact absurd (later second two_eq) once.1
    | succ i =>
      cases j with
      | zero =>
        cases second
        rw [List.filterMap_cons_some two_eq, List.nodup_cons] at once
        exact absurd (later first one_eq) once.1
      | succ j =>
        have rest_once := once.sublist ((List.sublist_cons_self event rest).filterMap view)
        exact congrArg (· + 1) (ih rest_once first second)

/-- Events that follow on each other stand at ascending places. -/
theorem exists_places {few : List Event} (sub : few.Sublist events) :
    ∃ place : Nat → Nat, StrictMono place ∧ ∀ i, few[i]? = events[place i]? := by
  obtain ⟨place, same⟩ := List.sublist_iff_exists_orderEmbedding_getElem?_eq.1 sub
  exact ⟨place, place.strictMono, same⟩

/-! ## Spans -/

theorem left_expand (visit : Node → List Event) (site : Node) (script : List Step) :
    (script.flatMap (Step.expand visit site)).filterMap Event.left? =
      (script.filterMap Step.child?).flatMap fun c => (visit c).filterMap Event.left? :=
  filterMap_expand (fun _ _ => rfl) (fun _ => rfl) visit site script

/-- Reading a program does not depend on the depth that is allowed. -/
theorem Coherent.readAlike_self (c : Coherent p) : ReadAlike p p fun n => p.hasNode n = true where
  live := id
  child _ mem := c.forest.hasNode_child mem
  shape _ := rfl
  definition _ := rfl
  use _ mem := by
    obtain ⟨entry, read, -⟩ := c.uses.holder mem
    exact ⟨entry, read, read, rfl⟩
  binder _ _ := rfl
  name _ _ := rfl

/-- The span of a node: it is entered, goes through its script and is left. -/
theorem Coherent.events_eq (c : Coherent p) (live : p.hasNode n = true) :
    p.events n none = .enter n :: ((p.scriptOf n).flatMap
      (Step.expand (fun child => p.events child none) n) ++ [.leave n]) := by
  have below : (p.scriptOf n).flatMap (Step.expand (p.eventsBy none p.nodeSlots) n) =
      (p.scriptOf n).flatMap (Step.expand (fun child => p.events child none) n) := by
    refine List.flatMap_congr fun step mem => ?_
    cases step with
    | child child =>
      have listed : child ∈ p.childrenOf n := List.mem_filterMap.2 ⟨_, mem, rfl⟩
      have inside := c.forest.hasNode_child listed
      exact c.readAlike_self.eventsBy_eq inside (c.forest.enough_nodeSlots inside)
        (c.forest.enough_nodeSlots live child listed)
    | _ => rfl
  rw [events, eventsBy_of_live live, below]
  simp

section Spans

variable (c : Coherent p)
include c

/-- Every node is entered before it is left. -/
theorem Coherent.enter_before_leave (live : p.hasNode n = true) :
    [.enter n, .leave n].Sublist (p.events n none) := by
  rw [c.events_eq live]
  exact .cons_cons _ (List.sublist_append_right _ _)

/-- The span of a child lies inside the span of its parent. -/
theorem Coherent.span_of_child {child : Node} (mem : child ∈ p.childrenOf n) :
    ∃ before after, p.events n none =
      .enter n :: (before ++ p.events child none ++ after ++ [.leave n]) := by
  obtain ⟨step, inside, isChild⟩ := List.mem_filterMap.1 mem
  obtain ⟨front, back, script⟩ := List.append_of_mem inside
  rw [c.events_eq (hasNode_of_child mem), script]
  cases step <;> cases isChild
  refine ⟨front.flatMap (Step.expand (fun child => p.events child none) n),
    back.flatMap (Step.expand (fun child => p.events child none) n), ?_⟩
  simp [Step.expand]

/-- The span of a node lies inside the span of every node above it. -/
theorem Coherent.span_of_within (within : p.Within head n) :
    (p.events n none) <:+: (p.events head none) := by
  have live := within.hasNode_head
  revert within
  refine c.forest.induction (motive := fun head => p.Within head n →
    (p.events n none) <:+: (p.events head none)) ?_ live
  intro head live ih within
  rcases c.forest.within_iff_child.1 within with ⟨rfl, -⟩ | ⟨child, mem, inside⟩
  · exact List.infix_refl _
  · obtain ⟨before, after, span⟩ := c.span_of_child mem
    refine (ih child mem inside).trans ⟨.enter head :: before, after ++ [.leave head], ?_⟩
    simp [span]

/-- Inside the span of a node stand the marks of its script. -/
theorem Coherent.mark_mem_events {mark : Mark} (mem : .mark mark ∈ p.scriptOf n)
    (live : p.hasNode n = true) : .mark n mark ∈ p.events n none := by
  rw [c.events_eq live]
  refine List.mem_cons_of_mem _ (List.mem_append_left _ ?_)
  exact List.mem_flatMap.2 ⟨_, mem, List.mem_singleton_self _⟩

/-- Each node is left as often as it is entered. -/
theorem Coherent.left_perm (live : p.hasNode n = true) :
    ((p.events n none).filterMap Event.left?).Perm ((p.events n none).filterMap Event.entered?) := by
  refine c.forest.induction (motive := fun n => ((p.events n none).filterMap Event.left?).Perm
    ((p.events n none).filterMap Event.entered?)) ?_ live
  intro n live ih
  rw [c.events_eq live]
  simp only [List.filterMap_cons, Event.left?, Event.entered?, List.filterMap_append,
    List.filterMap_nil, List.append_nil, entered_expand,
    left_expand]
  refine List.perm_append_singleton _ _ |>.trans (.cons _ ?_)
  exact .flatMap_left _ ih

end Spans

/-! ## The order of a walk -/

/-- The events of a walk over the installed tree come in an order that respects scope. -/
structure RespectsScope (p : Program) (events : List Event) : Prop where
  /-- Only attached nodes are entered, and each of them once. -/
  attached : ∀ {n}, Event.enter n ∈ events → p.isAttached n = .ok true
  entered : ∀ {n}, p.isAttached n = .ok true → ∃! i : Nat, events[i]? = some (Event.enter n)
  left : ∀ {n}, p.isAttached n = .ok true → ∃! i : Nat, events[i]? = some (Event.leave n)
  /-- A node is entered and left between entering and leaving the node around it. -/
  nested : ∀ {n parent}, p.isAttached n = .ok true → p.enclosing n = .ok (some parent) →
    ∃ i j k l : Nat, i < j ∧ j < k ∧ k < l ∧ events[i]? = some (Event.enter parent) ∧
      events[j]? = some (Event.enter n) ∧ events[k]? = some (Event.leave n) ∧
      events[l]? = some (Event.leave parent)
  bound : ∀ {family : Family} {v : VarId family} {site role}, p.BindsAs site role v →
    p.isAttached site = .ok true → ∃! i : Nat, ∃ place, events[i]? = some (Event.mark place (.bind v))
  used : ∀ {family : Family} {o : OccId family} {use}, p.occEntry? o = some use →
    p.isAttached (.expr use.holder) = .ok true →
    ∃! i : Nat, ∃ place, events[i]? = some (Event.mark place (.use o))
  /-- A use comes after the variable is bound and before the node that binds it is left. -/
  usedInScope : ∀ {family : Family} {o : OccId family} {place} {i : Nat},
    events[i]? = some (Event.mark place (.use o)) →
    ∃ use site role, ∃ j k : Nat, p.occEntry? o = some use ∧ p.BindsAs site role use.var ∧
      events[j]? = some (Event.mark site (.bind use.var)) ∧ events[k]? = some (Event.leave site) ∧
      j < i ∧ i < k

section Scope

variable (c : Coherent p)
include c

/-- A node binds before it goes down: what stands in the span of a child comes after the binders of
the parent and before the parent is left. -/
theorem Coherent.bind_before_child {v : VarId family} {child : Node} {event : Event}
    (binds : ⟨v⟩ ∈ p.bindersOf n) (mem : child ∈ p.childrenOf n)
    (inside : event ∈ p.events child none) :
    [.mark n (.bind v), event, .leave n].Sublist (p.events n none) := by
  obtain ⟨uses, binders, descents, script, isUse, isBind, isDescent⟩ := exists_phases p n
  obtain ⟨step, listed, isChild⟩ := List.mem_filterMap.1 mem
  obtain ⟨bind, marked, isBinder⟩ := List.mem_filterMap.1 binds
  rw [script, List.mem_append, List.mem_append] at listed marked
  have late : step ∈ descents := by
    rcases listed with use | bind | descent
    · simp [(isUse step use).no_child] at isChild
    · simp [(isBind step bind).no_child] at isChild
    · exact descent
  have early : bind ∈ binders := by
    rcases marked with use | binder | descent
    · simp [(isUse bind use).no_binder] at isBinder
    · exact binder
    · simp [(isDescent bind descent).no_binder] at isBinder
  have first : .mark n (.bind v) ∈
      binders.flatMap (Step.expand (fun child => p.events child none) n) := by
    refine List.mem_flatMap.2 ⟨bind, early, ?_⟩
    rcases bind with m | _ | _
    · cases m <;> cases isBinder
      exact List.mem_singleton_self _
    · cases isBinder
    · cases isBinder
  have second : event ∈ descents.flatMap (Step.expand (fun child => p.events child none) n) := by
    refine List.mem_flatMap.2 ⟨step, late, ?_⟩
    cases step <;> cases isChild
    exact inside
  rw [c.events_eq (hasNode_of_child mem), script, List.flatMap_append, List.flatMap_append]
  refine .cons _ ?_
  have order := (List.singleton_sublist.2 first).append (List.singleton_sublist.2 second)
  exact (order.append (List.Sublist.refl [.leave n])).trans
    ((List.sublist_append_right _ _).append_right _)

end Scope

section Walk

variable {r : DefId} (c : Consistent p) (root : p.root = some r)
include c root

theorem Consistent.covers_root : Covers p ⟨p.events (.defn r) none⟩ (p.Within (.defn r)) :=
  (c.forest.covers_events (hasNode_of_enclosing (c.root r root))).1

/-- The attached nodes are those of the tree of the root. -/
theorem Consistent.attached_iff_within : p.isAttached n = .ok true ↔ p.Within (.defn r) n := by
  simp [c.attached_iff, root]

/-- What stands in the span of an attached node stands in the walk, in the same order. -/
theorem Consistent.sublist_walk {span : List Event} (attached : p.isAttached n = .ok true)
    (sub : span.Sublist (p.events n none)) : span.Sublist (p.events (.defn r) none) :=
  sub.trans (c.span_of_within ((c.attached_iff_within root).1 attached)).sublist

/-- A child is entered and left between the entry and the end of its parent. -/
theorem Consistent.nested_in_walk {parent : Node} (attached : p.isAttached n = .ok true)
    (link : p.enclosing n = .ok (some parent)) :
    [.enter parent, .enter n, .leave n, .leave parent].Sublist (p.events (.defn r) none) := by
  have mem := c.forest.listed link
  obtain ⟨before, after, span⟩ := c.span_of_child mem
  refine c.sublist_walk root (c.attached_above attached (c.forest.within_node_child mem)) ?_
  have inner := c.enter_before_leave (c.forest.hasNode_child mem)
  have padded : [.enter n, .leave n].Sublist (before ++ p.events n none ++ after) :=
    (inner.trans (List.sublist_append_right _ _)).trans (List.sublist_append_left _ _)
  rw [span]
  exact .cons_cons _ (padded.append (.refl _))

/-- A use in the walk stands between the binder of its variable and the end of the node that binds
it. -/
theorem Consistent.bind_before_use {o : OccId family} {use : OccurrenceEntry family}
    (read : p.occEntry? o = some use) (attached : p.isAttached (.expr use.holder) = .ok true) :
    ∃ site role, p.BindsAs site role use.var ∧
      [.mark site (.bind use.var), .mark (.expr use.holder) (.use o), .leave site].Sublist
        (p.events (.defn r) none) := by
  obtain ⟨⟨site, role⟩, bound⟩ := exists_binding_of_resolve (c.inScope read attached)
  have binds := c.binders.site bound
  obtain ⟨within, ne⟩ := above_enclosing_iff.1 (c.site_above read attached binds)
  refine ⟨site, role, c.bindingOf?_eq_iff.1 bound, ?_⟩
  rcases c.forest.within_iff_child.1 within with ⟨rfl, -⟩ | ⟨child, mem, inside⟩
  · exact absurd rfl ne
  · have mark := c.mark_mem_events (mem_usesOf.1 (c.uses.held read)) (hasNode_of_isAttached attached)
    refine c.sublist_walk root (c.attached_above attached within) ?_
    exact c.bind_before_child binds mem ((c.span_of_within inside).subset mark)

theorem Consistent.respectsScope : RespectsScope p (p.events (.defn r) none) := by
  have covers := c.covers_root root
  have attached_iff {n : Node} := c.attached_iff_within (n := n) root
  have entersOnce : ((p.events (.defn r) none).filterMap Event.entered?).Nodup := covers.distinct
  have leavesOnce : ((p.events (.defn r) none).filterMap Event.left?).Nodup :=
    (c.left_perm (hasNode_of_enclosing (c.root r root))).nodup_iff.2 entersOnce
  have bindsOnce : ((p.events (.defn r) none).filterMap Event.binder?).Nodup :=
    covers.binders.nodup_iff.2 (c.nodup_binders covers.distinct)
  have usesOnce : ((p.events (.defn r) none).filterMap Event.use?).Nodup :=
    covers.uses.nodup_iff.2 (c.uses.nodup_uses covers.distinct)
  have span {n : Node} (attached : p.isAttached n = .ok true) :=
    c.sublist_walk root attached (c.enter_before_leave (hasNode_of_isAttached attached))
  constructor
  case attached =>
    intro n mem
    exact attached_iff.2 (covers.nodes.1 (List.mem_filterMap.2 ⟨_, mem, rfl⟩))
  case entered =>
    intro n attached
    obtain ⟨i, here⟩ := List.mem_iff_getElem?.1 ((span attached).subset List.mem_cons_self)
    exact ⟨i, here, fun j there => place_unique entersOnce there here rfl rfl⟩
  case left =>
    intro n attached
    obtain ⟨i, here⟩ := List.mem_iff_getElem?.1
      ((span attached).subset (List.mem_cons_of_mem _ List.mem_cons_self))
    exact ⟨i, here, fun j there => place_unique leavesOnce there here rfl rfl⟩
  case nested =>
    intro n parent attached link
    obtain ⟨place, mono, same⟩ := exists_places (c.nested_in_walk root attached link)
    exact ⟨place 0, place 1, place 2, place 3, mono (by decide), mono (by decide), mono (by decide),
      (same 0).symm, (same 1).symm, (same 2).symm, (same 3).symm⟩
  case bound =>
    intro family v site role binds attached
    have mark := c.mark_mem_events (mem_bindersOf.1 (binds.mem_bindersOf c.toCoherent))
      (hasNode_of_isAttached attached)
    obtain ⟨i, here⟩ := List.mem_iff_getElem?.1
      ((c.span_of_within (attached_iff.1 attached)).subset mark)
    refine ⟨i, ⟨site, here⟩, ?_⟩
    rintro j ⟨place, there⟩
    exact place_unique bindsOnce there here rfl rfl
  case used =>
    intro family o use read attached
    have mark := c.mark_mem_events (mem_usesOf.1 (c.uses.held read)) (hasNode_of_isAttached attached)
    obtain ⟨i, here⟩ := List.mem_iff_getElem?.1
      ((c.span_of_within (attached_iff.1 attached)).subset mark)
    refine ⟨i, ⟨_, here⟩, ?_⟩
    rintro j ⟨place, there⟩
    exact place_unique usesOnce there here rfl rfl
  case usedInScope =>
    intro family o place i here
    have mem := List.mem_of_getElem? here
    have held : o ∈ Region.held ⟨p.events (.defn r) none⟩ family :=
      Region.mem_held.2 (List.mem_filterMap.2 ⟨_, mem, rfl⟩)
    obtain ⟨m, within, holds⟩ := covers.mem_held.1 held
    obtain ⟨use, read, rfl⟩ := c.uses.holder holds
    obtain ⟨site, role, binds, sub⟩ := c.bind_before_use root read (attached_iff.2 within)
    obtain ⟨place, mono, same⟩ := exists_places sub
    have middle : i = place 1 := place_unique usesOnce here (same 1).symm rfl rfl
    subst middle
    exact ⟨use, site, role, place 0, place 2, read, binds, (same 0).symm, (same 2).symm,
      mono (by decide), mono (by decide)⟩

end Walk

/-- Whatever calls led to a program, the walk over its installed tree respects scope. -/
theorem reachable_walk_respects_scope {r : DefId} (reachable : Reachable p)
    (installed : p.root = some r) :
    ∃ events, p.walkFrom Event.sound none = .ok events ∧ RespectsScope p events := by
  obtain ⟨c, -⟩ := reachable.consistent
  obtain ⟨-, sound⟩ := c.forest.covers_events (hasNode_of_enclosing (c.root r installed))
  have region : p.region (.defn r) none = .ok ⟨p.events (.defn r) none⟩ :=
    region_eq_ok_iff.2 ⟨rfl, sound⟩
  simp only [Program.region, bind_eq_ok, pure_eq_ok] at region
  obtain ⟨events, walked, same⟩ := region
  cases same
  exact ⟨_, by simpa only [walkFrom, installed] using walked, c.respectsScope installed⟩

/-- The inner function calls `f` between the binder of `f` and the end of the group that binds it. -/
theorem nestedFunctions_call_in_scope : Reachable nestedFunctions ∧
    nestedFunctions.root = some ⟨2⟩ ∧
    ∃ events, nestedFunctions.walkFrom Event.sound none = .ok events ∧
      RespectsScope nestedFunctions events ∧
      events[3]? = some (.mark (.expr ⟨4⟩) (.bind (⟨0⟩ : VarId .value))) ∧
      events[13]? = some (.mark (.expr ⟨0⟩) (.use (⟨0⟩ : OccId .value))) ∧
      events[28]? = some (.leave (.expr ⟨4⟩)) := by
  have installed : nestedFunctions.root = some ⟨2⟩ := by
    set_option maxRecDepth 2000 in rfl
  obtain ⟨events, walked, respects⟩ :=
    reachable_walk_respects_scope nestedFunctions_reachable installed
  have evaluated : nestedFunctions.walkFrom Event.sound none =
      .ok (nestedFunctions.events (.defn ⟨2⟩) none) := by
    set_option maxRecDepth 4000 in rfl
  obtain rfl := Except.ok.inj (evaluated.symm.trans walked)
  refine ⟨nestedFunctions_reachable, installed, _, walked, respects, ?_⟩
  set_option maxRecDepth 4000 in exact ⟨rfl, rfl, rfl⟩

end Program

end ContinuationIR
