import ContinuationIR.Walk

/-!
# Listings of a walk

A walk as a list of lines: every event, or only the names that are bound and used.
-/

namespace ContinuationIR
set_option autoImplicit false

/-- The line of a mark at a node. -/
def Mark.line (site : Node) : Mark → String
  | .value => s!"value of {site.text}"
  | .branch (some tag) => s!"branch {tag}"
  | .branch none => "branch _"
  | .bind var => s!"bind {var.text} at {site.text}"
  | .use occurrence => s!"use {occurrence.text} in {site.text}"

namespace Program

/-- The line of an event. -/
def eventLine : Event → Except Fault String
  | .enter node => .ok node.text
  | .leave node => .ok s!"end {node.text}"
  | .mark site mark => .ok (mark.line site)
  | .again node => .ok s!"again {node.text}"
  | .missing node => .error (.staleNode node)
  | .broken fault => .error fault

/-- The line of an event that binds or uses a variable, with the name of the variable. -/
def leafLine? (p : Program) : Event → Except Fault (Option String)
  | .mark _ (.bind var) => return some ("bind " ++ (← p.fetchVariable var).name)
  | .mark _ (.use occurrence) => do
    let entry ← p.fetchOccurrence occurrence
    return some ("use " ++ (← p.fetchVariable entry.var).name)
  | .missing node => .error (.staleNode node)
  | .broken fault => .error fault
  | _ => .ok none

/-- Inspects the events of a walk from a node, or over the installed tree. -/
def walkFrom {α : Type} (p : Program) (inspect : Event → Except Fault α) :
    Option Node → Except Fault (List α)
  | some node => p.walk inspect node none
  | none =>
    match p.root with
    | some root => p.walk inspect (.defn root) none
    | none => .ok []

/-- All events of a walk, one to a line. -/
def walkLines (p : Program) (node : Option Node) : Except Fault (List String) :=
  p.walkFrom eventLine node

/-- The names bound and used in a walk, one to a line. -/
def leafLines (p : Program) (node : Option Node) : Except Fault (List String) :=
  return (← p.walkFrom p.leafLine? node).filterMap id

/-- The number of expressions and definitions that a walk enters. -/
def walkCount (p : Program) (node : Option Node) : Except Fault (Nat × Nat) := do
  let region : Region := ⟨← p.walkFrom Event.sound node⟩
  return (region.expressions.length, region.definitions.length)

end Program

end ContinuationIR
