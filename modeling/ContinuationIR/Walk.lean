import ContinuationIR.Program

/-!
# Walks

A walk goes through a node and everything below it and yields a flat list of events. What happens at
one node, in order, is its script: binders, uses and children. A definition first binds the
continuation it returns to and its parameters; a let comes to its value before it binds its
variable; a group binds all its names before it enters a member.

Two walks are built from the same scripts. The plain walk enters a node each time it meets it, so
nodes that share children can make it very long. `events` says what it meets; `walk` is how it is
run: each event is inspected when it is met and nothing is visited after the first fault
(`mapM_events`). The spanning walk enters each node once and reports nodes it meets again or finds
missing, so it ends on every table; the checker runs on it. Both are bounded by the number of node
slots, which no path without a circle exceeds.
-/

namespace ContinuationIR
set_option autoImplicit false

/-- What a node does besides entering its children. -/
inductive Mark where
  /-- The value of a let begins. -/
  | value
  /-- A branch of a case begins, the default if it has no tag. -/
  | branch (tag : Option Nat)
  | bind {family : Family} (var : VarId family)
  | use {family : Family} (occurrence : OccId family)
deriving DecidableEq

/-- A step of the script of a node. -/
inductive Step where
  | mark (mark : Mark)
  | child (node : Node)
  /-- A dead definition is asked for its name. -/
  | broken (fault : Fault)
deriving DecidableEq

/-- What a walk meets. -/
inductive Event where
  | enter (node : Node)
  | leave (node : Node)
  | mark (site : Node) (mark : Mark)
  /-- The node is dead. -/
  | missing (node : Node)
  /-- The spanning walk has entered the node before. -/
  | again (node : Node)
  | broken (fault : Fault)
deriving DecidableEq

namespace Step

/-- The uses of a list of occurrences. -/
def uses {family : Family} (occurrences : List (OccId family)) : List Step :=
  occurrences.map fun occurrence => .mark (.use occurrence)

/-- A branch of a case. -/
def branch (tag : Option Nat) (e : ExprId) : List Step :=
  [.mark (.branch tag), .child (.expr e)]

/-- The events of a step at a node, given those of a child. -/
def expand (visit : Node → List Event) (site : Node) : Step → List Event
  | .mark m => [.mark site m]
  | .child node => visit node
  | .broken fault => [.broken fault]

end Step

namespace Program

/-- How a group of the family names one of its members. A member that is of another kind stays
without a name. -/
def nameStep (p : Program) (family : Family) (d : DefId) : List Step :=
  match p.definitions.get? d with
  | none => [.broken (.stale d)]
  | some entry =>
    match entry.definition.header.name? family with
    | some name => [.mark (.bind name)]
    | none => []

/-- The script of an expression with the given shape. -/
def shapeScript (p : Program) : Shape → List Step
  | .letIn var value body =>
    .mark .value :: Step.uses value.uses ++ [.mark (.bind var), .child (.expr body)]
  | .group family members body =>
    members.flatMap (p.nameStep family) ++ members.map (fun d => .child (.defn d)) ++
      [.child (.expr body)]
  | .primitive _ arguments continuation => Step.uses arguments ++ Step.uses [continuation]
  | .apply function arguments continuation =>
    Step.uses (function :: arguments) ++ Step.uses [continuation]
  | .jump continuation arguments => Step.uses [continuation] ++ Step.uses arguments
  | .caseOf scrutinee branches otherwise =>
    Step.uses [scrutinee] ++
      branches.branches.flatMap (fun (tag, e) => Step.branch (some tag) e) ++
      otherwise.toList.flatMap (Step.branch none)
  | .unreachable => []

/-- The script of a definition. -/
def definitionScript (definition : Definition) : List Step :=
  definition.header.returnTo?.toList.map (fun k => .mark (.bind k)) ++
    definition.parameters.map (fun v => .mark (.bind v)) ++ [.child (.expr definition.body)]

/-- The script of a live node. -/
def script? (p : Program) : Node → Option (List Step)
  | .expr e => (p.expressions.get? e).map fun entry => p.shapeScript entry.shape
  | .defn d => (p.definitions.get? d).map fun entry => definitionScript entry.definition

/-- The plain walk, going at most `depth` nodes down and leaving out the expression `skip`. -/
def eventsBy (p : Program) (skip : Option ExprId) : Nat → Node → List Event
  | 0, node => [.broken (.endless node)]
  | depth + 1, node =>
    if skip.map Node.expr = some node then []
    else
      match p.script? node with
      | none => [.missing node]
      | some script =>
        .enter node ::
          script.flatMap (Step.expand (p.eventsBy skip depth) node) ++ [.leave node]

/-- The events of the plain walk over a node, without those of `skip` and below it. -/
def events (p : Program) (node : Node) (skip : Option ExprId) : List Event :=
  p.eventsBy skip (p.nodeSlots + 1) node

/-- Runs a step at a node, given how to run a child. -/
def foldStep {σ : Type} (f : σ → Event → Except Fault σ) (visit : Node → σ → Except Fault σ)
    (site : Node) (s : σ) : Step → Except Fault σ
  | .mark m => f s (.mark site m)
  | .child node => visit node s
  | .broken fault => f s (.broken fault)

/-- Runs the plain walk, each event changing a state, up to the first fault. -/
def foldBy {σ : Type} (p : Program) (f : σ → Event → Except Fault σ) (skip : Option ExprId) :
    Nat → Node → σ → Except Fault σ
  | 0, node, s => f s (.broken (.endless node))
  | depth + 1, node, s =>
    if skip.map Node.expr = some node then .ok s
    else
      match p.script? node with
      | none => f s (.missing node)
      | some script => do
        let s ← f s (.enter node)
        let s ← script.foldlM (foldStep f (p.foldBy f skip depth) node) s
        f s (.leave node)

/-- Inspects the events of the plain walk over a node, without those of `skip` and below it. The
walk ends at the first fault. -/
def walk {α : Type} (p : Program) (inspect : Event → Except Fault α) (node : Node)
    (skip : Option ExprId) : Except Fault (List α) := do
  let collect := fun (found : Array α) event => return found.push (← inspect event)
  return (← p.foldBy collect skip (p.nodeSlots + 1) node #[]).toList

theorem foldlM_flatMap {α β σ : Type} (f : σ → β → Except Fault σ) (g : α → List β) (l : List α)
    (s : σ) : (l.flatMap g).foldlM f s = l.foldlM (fun s a => (g a).foldlM f s) s := by
  induction l generalizing s with
  | nil => rfl
  | cons a l ih => simp [List.foldlM_append, ih]

theorem foldlM_expand {σ : Type} (f : σ → Event → Except Fault σ) (visit : Node → List Event)
    (site : Node) (s : σ) (step : Step) :
    (step.expand visit site).foldlM f s =
      foldStep f (fun node s => (visit node).foldlM f s) site s step := by
  cases step <;> simp [Step.expand, foldStep]

/-- Running the walk is going through the list of its events. -/
theorem foldlM_eventsBy {σ : Type} (p : Program) (f : σ → Event → Except Fault σ)
    (skip : Option ExprId) (depth : Nat) (node : Node) (s : σ) :
    (p.eventsBy skip depth node).foldlM f s = p.foldBy f skip depth node s := by
  induction depth generalizing node s with
  | zero => simp [eventsBy, foldBy]
  | succ depth ih =>
    have below : (fun node s => (p.eventsBy skip depth node).foldlM f s) =
        p.foldBy f skip depth := funext fun node => funext fun s => ih node s
    simp only [eventsBy, foldBy]
    split
    · rfl
    · split
      · simp
      · simp [List.foldlM_append, foldlM_flatMap, foldlM_expand, below]

theorem foldlM_push {α β : Type} (inspect : α → Except Fault β) (l : List α) (found : Array β) :
    l.foldlM (fun found a => return found.push (← inspect a)) found =
      (do return found ++ (← l.mapM inspect).toArray) := by
  simp

/-- Inspecting the events while walking is inspecting the list of them. -/
theorem mapM_events {α : Type} (p : Program) (inspect : Event → Except Fault α) (node : Node)
    (skip : Option ExprId) : (p.events node skip).mapM inspect = p.walk inspect node skip := by
  simp only [walk, ← foldlM_eventsBy, foldlM_push]
  simp [events]

/-- Runs a script against a visit that takes note of the nodes it has entered. -/
def spanScript (visit : List Node → Node → List Event × List Node) (site : Node) :
    List Step → List Node → List Event × List Node
  | [], seen => ([], seen)
  | .mark mark :: rest, seen =>
    let (events, seen) := spanScript visit site rest seen
    (.mark site mark :: events, seen)
  | .broken fault :: rest, seen =>
    let (events, seen) := spanScript visit site rest seen
    (.broken fault :: events, seen)
  | .child child :: rest, seen =>
    let (below, seen) := visit seen child
    let (events, seen) := spanScript visit site rest seen
    (below ++ events, seen)

/-- The spanning walk from a node, given the nodes entered before. -/
def spanBy (p : Program) : Nat → List Node → Node → List Event × List Node
  | 0, seen, node => ([.broken (.endless node)], seen)
  | depth + 1, seen, node =>
    match p.script? node with
    | none => ([.missing node], seen)
    | some script =>
      if seen.contains node then ([.again node], seen)
      else
        let (events, seen) := spanScript (p.spanBy depth) node script (node :: seen)
        (.enter node :: events ++ [.leave node], seen)

/-- The events of the spanning walk over a node. -/
def span (p : Program) (node : Node) : List Event :=
  (p.spanBy (p.nodeSlots + 1) [] node).1

end Program

namespace Event

/-- The fault of an event that no plain walk survives. -/
def fault? : Event → Option Fault
  | .missing node => some (.staleNode node)
  | .broken fault => some fault
  | _ => none

/-- An event that a plain walk survives, else its fault. -/
def sound (event : Event) : Except Fault Event :=
  match event.fault? with
  | some fault => .error fault
  | none => .ok event

theorem mapM_sound_eq_ok_iff {events sounds : List Event} :
    events.mapM sound = .ok sounds ↔ sounds = events ∧ ∀ event ∈ events, event.fault? = none := by
  induction events generalizing sounds with
  | nil => simp [pure, Except.pure, eq_comm]
  | cons event rest ih =>
    rw [List.mapM_cons]
    cases first : event.fault? with
    | some fault => simp [sound, first, bind, Except.bind]
    | none =>
      have head : event.sound = .ok event := by simp [sound, first]
      cases others : rest.mapM sound with
      | error fault =>
        constructor
        · intro run
          simp [head, bind, Except.bind] at run
        · rintro ⟨-, clean⟩
          have run := ih.2 ⟨rfl, fun e mem => clean e (List.mem_cons_of_mem _ mem)⟩
          rw [others] at run
          cases run
      | ok found =>
        obtain ⟨rfl, clean⟩ := ih.1 others
        constructor
        · intro run
          simp only [head, bind, Except.bind, pure, Except.pure, Except.ok.injEq] at run
          refine ⟨run.symm, fun e mem => ?_⟩
          rcases List.mem_cons.1 mem with rfl | mem
          · exact first
          · exact clean e mem
        · rintro ⟨rfl, -⟩
          simp [head, bind, Except.bind, pure, Except.pure]

/-- The variable of the family that is bound here. -/
def bound? : (family : Family) → Event → Option (VarId family)
  | .value, .mark _ (@Mark.bind .value var) => some var
  | .continuation, .mark _ (@Mark.bind .continuation var) => some var
  | _, _ => none

/-- The occurrence of the family that is used here. -/
def used? : (family : Family) → Event → Option (OccId family)
  | .value, .mark _ (@Mark.use .value occurrence) => some occurrence
  | .continuation, .mark _ (@Mark.use .continuation occurrence) => some occurrence
  | _, _ => none

/-- The expression that is entered here. -/
def expression? : Event → Option ExprId
  | .enter (.expr e) => some e
  | _ => none

/-- The definition that is entered here. -/
def definition? : Event → Option DefId
  | .enter (.defn d) => some d
  | _ => none

end Event

/-- The part of a program that a walk went through. -/
structure Region where
  events : List Event

namespace Region

/-- The expressions of the region, in the order they are entered. -/
def expressions (r : Region) : List ExprId := r.events.filterMap Event.expression?

/-- The definitions of the region, in the order they are entered. -/
def definitions (r : Region) : List DefId := r.events.filterMap Event.definition?

/-- The variables of a family that the region binds. -/
def bound (r : Region) (family : Family) : List (VarId family) :=
  r.events.filterMap (Event.bound? family)

/-- The occurrences of a family that the region holds. -/
def held (r : Region) (family : Family) : List (OccId family) :=
  r.events.filterMap (Event.used? family)

end Region

/-- The region below a node without `skip`, a fault if the walk breaks down. -/
def Program.region (p : Program) (node : Node) (skip : Option ExprId) : Except Fault Region :=
  return ⟨← p.walk Event.sound node skip⟩

/-- A region is the list of events of its walk, none of which is a fault. -/
theorem Program.region_eq_ok_iff {p : Program} {node : Node} {skip : Option ExprId} {r : Region} :
    p.region node skip = .ok r ↔
      r.events = p.events node skip ∧ ∀ event ∈ r.events, event.fault? = none := by
  have walked : p.region node skip = .ok r ↔ p.walk Event.sound node skip = .ok r.events := by
    unfold region
    cases p.walk Event.sound node skip with
    | error fault => simp [bind, Except.bind]
    | ok events => cases r; simp [bind, Except.bind, pure, Except.pure]
  rw [walked, ← mapM_events, Event.mapM_sound_eq_ok_iff]
  constructor
  · rintro ⟨eq, sound⟩
    exact ⟨eq, eq ▸ sound⟩
  · rintro ⟨eq, sound⟩
    exact ⟨eq, eq ▸ sound⟩

end ContinuationIR
