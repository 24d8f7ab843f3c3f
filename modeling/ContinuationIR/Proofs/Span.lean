import ContinuationIR.Proofs.Region

/-!
# The spanning walk

On any table, with circles, shared nodes and dead handles, the spanning walk enters each node that
can be reached through live nodes, once, and does not run out of depth. Where it meets no node
again and no dead one it is the plain walk, and what it goes through is a tree.
-/

namespace ContinuationIR
set_option autoImplicit false

/-- Whether the event is a step of a script and not the visit of a node. -/
def Event.isStep : Event → Bool
  | .mark _ _ | .broken _ => true
  | .enter _ | .leave _ | .missing _ | .again _ => false

namespace Program

/-- The nodes that are met when child references are followed from a node through live nodes. -/
inductive Reached (p : Program) (start : Node) : Node → Prop where
  | start : p.hasNode start = true → Reached p start start
  | child {n c : Node} : Reached p start n → c ∈ p.childrenOf n → p.hasNode c = true →
      Reached p start c

namespace Reached

variable {p : Program} {start n c : Node}

theorem of_child (live : p.hasNode start = true) (mem : c ∈ p.childrenOf start)
    (reached : Reached p c n) : Reached p start n := by
  induction reached with
  | start here => exact .child (.start live) mem here
  | child _ mem here ih => exact .child ih mem here

end Reached

/-! ## What the walk does on any table -/

/-- The events of a script without its children. -/
def ownSteps (site : Node) (script : List Step) : List Event :=
  script.flatMap (Step.expand (fun _ => []) site)

/-- The events of a node without its children. -/
def stepsOf (p : Program) (n : Node) : List Event := ownSteps n (p.scriptOf n)

theorem mark_mem_ownSteps {site n : Node} {m : Mark} {script : List Step} :
    .mark n m ∈ ownSteps site script ↔ n = site ∧ .mark m ∈ script := by
  simp only [ownSteps, List.mem_flatMap]
  constructor
  · rintro ⟨step, mem, here⟩
    cases step <;> simp [Step.expand] at here
    obtain ⟨rfl, rfl⟩ := here
    exact ⟨rfl, mem⟩
  · rintro ⟨rfl, mem⟩
    exact ⟨_, mem, by simp [Step.expand]⟩

theorem broken_mem_ownSteps {site : Node} {fault : Fault} {script : List Step} :
    .broken fault ∈ ownSteps site script ↔ .broken fault ∈ script := by
  simp only [ownSteps, List.mem_flatMap]
  constructor
  · rintro ⟨step, mem, here⟩
    cases step <;> simp [Step.expand] at here
    exact here ▸ mem
  · exact fun mem => ⟨_, mem, by simp [Step.expand]⟩

/-- A part of the spanning walk: it visits the heads in turn, given the nodes entered before, and
yields some events and the nodes entered after. The steps that it adds itself are told apart from
those of the nodes it enters. -/
structure Spans (p : Program) (seen heads : List Node) (steps events : List Event)
    (last : List Node) : Prop where
  grows : ∀ {n : Node}, n ∈ last ↔ n ∈ seen ∨ n ∈ events.filterMap Event.entered?
  fresh : ∀ {n : Node}, n ∈ events.filterMap Event.entered? →
    n ∉ seen ∧ ∃ h ∈ heads, Reached p h n
  once : (events.filterMap Event.entered?).Nodup
  met : ∀ h ∈ heads, p.hasNode h = true → h ∈ last
  closed : ∀ {n c : Node}, n ∈ events.filterMap Event.entered? → c ∈ p.childrenOf n →
    p.hasNode c = true → c ∈ last
  own : ∀ {event : Event}, event.isStep = true → (event ∈ events ↔
    event ∈ steps ∨ ∃ n ∈ events.filterMap Event.entered?, event ∈ p.stepsOf n)

namespace Spans

variable {p : Program} {seen mid last heads heads' : List Node}
  {steps steps' events events' : List Event}

theorem append (one : Spans p seen heads steps events mid)
    (two : Spans p mid heads' steps' events' last) :
    Spans p seen (heads ++ heads') (steps ++ steps') (events ++ events') last := by
  have stays {n : Node} (mem : n ∈ mid) : n ∈ last := two.grows.2 (.inl mem)
  constructor
  case grows =>
    intro n
    rw [two.grows, one.grows, List.filterMap_append, List.mem_append, or_assoc]
  case fresh =>
    intro n mem
    rw [List.filterMap_append, List.mem_append] at mem
    rcases mem with mem | mem
    · obtain ⟨new, h, head, reached⟩ := one.fresh mem
      exact ⟨new, h, List.mem_append_left _ head, reached⟩
    · obtain ⟨new, h, head, reached⟩ := two.fresh mem
      exact ⟨fun old => new (one.grows.2 (.inl old)), h, List.mem_append_right _ head, reached⟩
  case once =>
    rw [List.filterMap_append, List.nodup_append]
    refine ⟨one.once, two.once, ?_⟩
    rintro n first _ second rfl
    exact (two.fresh second).1 (one.grows.2 (.inr first))
  case met =>
    intro h mem live
    rcases List.mem_append.1 mem with mem | mem
    · exact stays (one.met h mem live)
    · exact two.met h mem live
  case closed =>
    intro n c mem child live
    rw [List.filterMap_append, List.mem_append] at mem
    rcases mem with mem | mem
    · exact stays (one.closed mem child live)
    · exact two.closed mem child live
  case own =>
    intro event own
    simp only [List.mem_append, one.own own, two.own own, List.filterMap_append]
    constructor
    · rintro ((here | ⟨n, mem, step⟩) | here | ⟨n, mem, step⟩)
      · exact .inl (.inl here)
      · exact .inr ⟨n, .inl mem, step⟩
      · exact .inl (.inr here)
      · exact .inr ⟨n, .inr mem, step⟩
    · rintro ((here | here) | ⟨n, mem | mem, step⟩)
      · exact .inl (.inl here)
      · exact .inr (.inl here)
      · exact .inl (.inr ⟨n, mem, step⟩)
      · exact .inr (.inr ⟨n, mem, step⟩)

/-- Events that enter nothing. -/
theorem of_single {event : Event} (silent : event.entered? = none)
    (dead : ∀ h ∈ heads, p.hasNode h = true → h ∈ seen) :
    Spans p seen heads [event] [event] seen := by
  constructor
  case met => exact dead
  all_goals simp [silent]

/-- An event that is the visit of a node adds no step. -/
theorem of_visit {event : Event} (silent : event.entered? = none) (visit : event.isStep = false)
    (dead : ∀ h ∈ heads, p.hasNode h = true → h ∈ seen) : Spans p seen heads [] [event] seen := by
  refine { of_single silent dead with own := fun {step} own => ?_ }
  have other : step ≠ event := by
    rintro rfl
    rw [own] at visit
    cases visit
  simp [silent, other]

/-- Entering a node around a walk over its script. -/
theorem enter {node : Node} {script : List Step} (live : p.hasNode node = true)
    (entering : p.scriptOf node = script) (new : node ∉ seen)
    (inner : Spans p (node :: seen) (script.filterMap Step.child?) (ownSteps node script) events
      last) :
    Spans p seen [node] [] (.enter node :: events ++ [.leave node]) last := by
  have nodes : (Event.enter node :: events ++ [Event.leave node]).filterMap Event.entered? =
      node :: events.filterMap Event.entered? := by
    simp [Event.entered?, List.filterMap_append]
  constructor
  case grows =>
    intro n
    rw [nodes, inner.grows, List.mem_cons, List.mem_cons]
    tauto
  case fresh =>
    intro n mem
    rw [nodes, List.mem_cons] at mem
    rcases mem with rfl | mem
    · exact ⟨new, n, List.mem_singleton_self _, .start live⟩
    · obtain ⟨fresh, c, child, reached⟩ := inner.fresh mem
      refine ⟨fun old => fresh (List.mem_cons_of_mem _ old), node, List.mem_singleton_self _, ?_⟩
      exact .of_child live (by rwa [childrenOf, entering]) reached
  case once =>
    rw [nodes, List.nodup_cons]
    exact ⟨fun mem => (inner.fresh mem).1 List.mem_cons_self, inner.once⟩
  case met =>
    intro h mem _
    obtain rfl := List.mem_singleton.1 mem
    exact inner.grows.2 (.inl List.mem_cons_self)
  case closed =>
    intro n c mem child here
    rw [nodes, List.mem_cons] at mem
    rcases mem with rfl | mem
    · rw [childrenOf, entering] at child
      exact inner.met c child here
    · exact inner.closed mem child here
  case own =>
    intro event own
    have enters : event ≠ .enter node := by
      rintro rfl
      cases own
    have leaves : event ≠ .leave node := by
      rintro rfl
      cases own
    rw [nodes]
    simp only [List.mem_append, List.mem_cons, enters, leaves, false_or, List.not_mem_nil, or_false,
      inner.own own, exists_eq_or_imp, stepsOf, entering]

end Spans

/-- Running a script spans its children if the visit spans each of them. -/
theorem spans_spanScript {p : Program} (site : Node)
    {visit : List Node → Node → List Event × List Node} {base : List Node}
    (visits : ∀ seen c, base ⊆ seen →
      Spans p seen [c] [] (visit seen c).1 (visit seen c).2)
    (script : List Step) (seen : List Node) (inside : base ⊆ seen) :
    Spans p seen (script.filterMap Step.child?) (ownSteps site script)
      (spanScript visit site script seen).1 (spanScript visit site script seen).2 := by
  induction script generalizing seen with
  | nil => constructor <;> simp [spanScript, ownSteps]
  | cons step rest ih =>
    cases step with
    | mark m =>
      have here : Spans p seen [] [.mark site m] [.mark site m] seen := .of_single rfl (by simp)
      exact here.append (ih seen inside)
    | broken f =>
      have here : Spans p seen [] [.broken f] [.broken f] seen := .of_single rfl (by simp)
      exact here.append (ih seen inside)
    | child c =>
      have here := visits seen c inside
      have grows : base ⊆ (visit seen c).2 := fun n mem => here.grows.2 (.inl (inside mem))
      exact here.append (ih _ grows)

/-- The spanning walk from a node, below a path of distinct nodes that it has entered. -/
theorem spans_spanBy {p : Program} {depth : Nat} {above seen : List Node} {node : Node}
    (distinct : above.Nodup) (entered : ∀ n ∈ above, p.hasNode n = true ∧ n ∈ seen)
    (deep : p.nodeSlots < above.length + depth) :
    Spans p seen [node] [] (p.spanBy depth seen node).1 (p.spanBy depth seen node).2 := by
  induction depth generalizing above seen node with
  | zero =>
    have := length_le_nodeSlots distinct fun n mem => (entered n mem).1
    omega
  | succ depth ih =>
    rw [spanBy]
    cases read : p.script? node with
    | none =>
      have dead : p.hasNode node = false := by rw [← script?_isSome, read]; rfl
      exact .of_visit rfl rfl (by simp [dead])
    | some script =>
      have live : p.hasNode node = true := by rw [← script?_isSome, read]; rfl
      have entering : p.scriptOf node = script := by simp [scriptOf, read]
      by_cases old : node ∈ seen
      · simp only [List.contains_iff_mem, old, if_true]
        exact .of_visit rfl rfl (by simp [old])
      · simp only [List.contains_iff_mem, old, if_false]
        have path : (node :: above).Nodup :=
          List.nodup_cons.2 ⟨fun mem => old (entered node mem).2, distinct⟩
        have below (seen' : List Node) (c : Node) (inside : node :: seen ⊆ seen') :
            Spans p seen' [c] [] (p.spanBy depth seen' c).1 (p.spanBy depth seen' c).2 := by
          refine ih path (List.forall_mem_cons.2 ⟨⟨live, inside List.mem_cons_self⟩, ?_⟩) ?_
          · intro n mem
            exact ⟨(entered n mem).1, inside (List.mem_cons_of_mem _ (entered n mem).2)⟩
          · simp only [List.length_cons]
            omega
        have inner := spans_spanScript node below script (node :: seen) (List.Subset.refl _)
        exact inner.enter live entering old

section Root

variable {p : Program} {root n : Node} {fault : Fault}

/-- The spanning walk from a root spans what it reaches. -/
theorem spans_span (p : Program) (root : Node) :
    ∃ last, Spans p [] [root] [] (p.span root) last :=
  ⟨_, spans_spanBy List.nodup_nil (by simp) (by simp)⟩

/-- The walk enters what can be reached through live nodes. -/
theorem mem_entered_span :
    n ∈ (p.span root).filterMap Event.entered? ↔ Reached p root n := by
  obtain ⟨last, spans⟩ := spans_span p root
  have all : n ∈ last ↔ n ∈ (p.span root).filterMap Event.entered? := by
    simp [spans.grows]
  constructor
  · intro mem
    obtain ⟨-, h, head, reached⟩ := spans.fresh mem
    rwa [List.mem_singleton.1 head] at reached
  · intro reached
    induction reached with
    | start live => exact spans.grows.1 (spans.met root (by simp) live) |>.resolve_left (by simp)
    | child _ mem live ih =>
      have entered := ih (by simp [spans.grows])
      exact spans.grows.1 (spans.closed entered mem live) |>.resolve_left (by simp)

/-- No node is entered twice. -/
theorem entered_span_nodup : ((p.span root).filterMap Event.entered?).Nodup := by
  obtain ⟨last, spans⟩ := spans_span p root
  exact spans.once

/-- A script breaks off at the dead members of a group. -/
theorem broken_mem_scriptOf_iff :
    .broken fault ∈ p.scriptOf n ↔
      ∃ d, fault = .stale d ∧ .defn d ∈ p.childrenOf n ∧ p.hasNode (.defn d) = false := by
  refine ⟨broken_mem_scriptOf, ?_⟩
  rintro ⟨d, rfl, child, dead⟩
  obtain ⟨e, family, members, body, rfl, read, mem⟩ := exists_group_of_child child
  have gone : p.definitions.get? d = none := by simpa [hasNode, Slots.contains] using dead
  rw [scriptOf_expr read, shapeScript]
  simp only [List.mem_append, List.mem_flatMap]
  exact .inl (.inl ⟨d, mem, by simp [nameStep, gone]⟩)

/-- The only faults of the walk are the dead members of the groups it enters. -/
theorem broken_mem_span :
    .broken fault ∈ p.span root ↔ ∃ n d, Reached p root n ∧ fault = .stale d ∧
      .defn d ∈ p.childrenOf n ∧ p.hasNode (.defn d) = false := by
  obtain ⟨last, spans⟩ := spans_span p root
  rw [spans.own rfl]
  simp only [mem_entered_span, stepsOf, broken_mem_ownSteps, broken_mem_scriptOf_iff,
    List.not_mem_nil, false_or]
  constructor
  · rintro ⟨n, reached, d, rest⟩
    exact ⟨n, d, reached, rest⟩
  · rintro ⟨n, d, reached, rest⟩
    exact ⟨n, reached, d, rest⟩

/-- The walk meets the binders and the occurrences of the nodes it enters. -/
theorem mark_mem_span {m : Mark} :
    .mark n m ∈ p.span root ↔ Reached p root n ∧ .mark m ∈ p.scriptOf n := by
  obtain ⟨last, spans⟩ := spans_span p root
  rw [spans.own rfl]
  simp only [mem_entered_span, stepsOf, mark_mem_ownSteps, List.not_mem_nil, false_or]
  constructor
  · rintro ⟨_, reached, rfl, step⟩
    exact ⟨reached, step⟩
  · rintro ⟨reached, step⟩
    exact ⟨n, reached, rfl, step⟩

end Root

/-! ## The spanning walk over a tree -/

section Tree

variable {p : Program} {depth : Nat} {seen : List Node} {node : Node}

theorem spanScript_eq_of_new {visit : List Node → Node → List Event × List Node}
    {plain : Node → List Event} (site : Node)
    (visits : ∀ seen c, (∀ n, .again n ∉ (visit seen c).1) → (visit seen c).1 = plain c)
    (script : List Step) (seen : List Node)
    (new : ∀ n, .again n ∉ (spanScript visit site script seen).1) :
    (spanScript visit site script seen).1 = script.flatMap (Step.expand plain site) := by
  induction script generalizing seen with
  | nil => rfl
  | cons step rest ih =>
    cases step with
    | mark m =>
      have tail := ih seen fun n mem => new n (List.mem_cons_of_mem _ mem)
      simp [spanScript, Step.expand, tail]
    | broken f =>
      have tail := ih seen fun n mem => new n (List.mem_cons_of_mem _ mem)
      simp [spanScript, Step.expand, tail]
    | child c =>
      have head := visits seen c fun n mem => new n (List.mem_append_left _ mem)
      have tail := ih (visit seen c).2 fun n mem => new n (List.mem_append_right _ mem)
      simp [spanScript, Step.expand, head, tail]

/-- A spanning walk that meets no node again is the plain walk. -/
theorem spanBy_eq_of_new (new : ∀ n, .again n ∉ (p.spanBy depth seen node).1) :
    (p.spanBy depth seen node).1 = p.eventsBy none depth node := by
  induction depth generalizing seen node with
  | zero => rfl
  | succ depth ih =>
    rw [eventsBy, if_neg (by simp)]
    rw [spanBy] at new ⊢
    cases read : p.script? node with
    | none => rfl
    | some script =>
      simp only [read] at new ⊢
      split at new
      · exact absurd (by simp) (new node)
      · next old =>
        rw [if_neg old]
        have inner := spanScript_eq_of_new node (fun seen c => @ih seen c) script (node :: seen) fun n mem =>
          new n (by simp [mem])
        simp [inner]

theorem spanScript_eq_of_nodup {visit : List Node → Node → List Event × List Node}
    {plain : Node → List Event} (site : Node)
    (visits : ∀ seen c, ((plain c).filterMap Event.entered?).Nodup →
      (∀ n ∈ (plain c).filterMap Event.entered?, n ∉ seen) →
      visit seen c = (plain c, ((plain c).filterMap Event.entered?).reverse ++ seen))
    (script : List Step) (seen : List Node)
    (once : ((script.flatMap (Step.expand plain site)).filterMap Event.entered?).Nodup)
    (new : ∀ n ∈ (script.flatMap (Step.expand plain site)).filterMap Event.entered?, n ∉ seen) :
    spanScript visit site script seen = (script.flatMap (Step.expand plain site),
      ((script.flatMap (Step.expand plain site)).filterMap Event.entered?).reverse ++ seen) := by
  induction script generalizing seen with
  | nil => rfl
  | cons step rest ih =>
    cases step with
    | mark m =>
      simp only [List.flatMap_cons, Step.expand, List.singleton_append, List.filterMap_cons,
        Event.entered?] at once new ⊢
      simp [spanScript, ih seen once new]
    | broken f =>
      simp only [List.flatMap_cons, Step.expand, List.singleton_append, List.filterMap_cons,
        Event.entered?] at once new ⊢
      simp [spanScript, ih seen once new]
    | child c =>
      simp only [List.flatMap_cons, Step.expand, List.filterMap_append, List.nodup_append,
        List.mem_append] at once new
      obtain ⟨first, second, apart⟩ := once
      have head := visits seen c first fun n mem => new n (.inl mem)
      have tail := ih (visit seen c).2 second (by
        intro n mem
        rw [head]
        simp only [List.mem_append, List.mem_reverse, not_or]
        exact ⟨fun inside => apart n inside n mem rfl, new n (.inr mem)⟩)
      rw [head] at tail
      simp [spanScript, Step.expand, head, tail, List.filterMap_append]

/-- Where the plain walk enters no node twice the spanning walk does the same. -/
theorem spanBy_eq_of_nodup
    (once : ((p.eventsBy none depth node).filterMap Event.entered?).Nodup)
    (new : ∀ n ∈ (p.eventsBy none depth node).filterMap Event.entered?, n ∉ seen) :
    p.spanBy depth seen node = (p.eventsBy none depth node,
      ((p.eventsBy none depth node).filterMap Event.entered?).reverse ++ seen) := by
  induction depth generalizing seen node with
  | zero => rfl
  | succ depth ih =>
    rw [eventsBy, if_neg (by simp)] at once new ⊢
    rw [spanBy]
    cases read : p.script? node with
    | none => rfl
    | some script =>
      simp only [read] at once new ⊢
      have nodes (es : List Event) : (Event.enter node :: es ++ [Event.leave node]).filterMap
          Event.entered? = node :: es.filterMap Event.entered? := by
        simp [Event.entered?, List.filterMap_append]
      rw [nodes] at once new ⊢
      rw [List.nodup_cons] at once
      have old : node ∉ seen := new node List.mem_cons_self
      have inner := spanScript_eq_of_nodup node (fun seen c => @ih seen c) script (node :: seen) once.2 (by
        intro n mem
        simp only [List.mem_cons, not_or]
        exact ⟨fun eq => once.1 (eq ▸ mem), new n (List.mem_cons_of_mem _ mem)⟩)
      simp [old, inner]

end Tree

end Program

end ContinuationIR
