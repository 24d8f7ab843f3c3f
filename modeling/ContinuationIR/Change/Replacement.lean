import ContinuationIR.Change.Error

/-!
# Replacement and removal

An attached expression is exchanged for a pending tree or for a tree from inside it. Everything
below the exchanged expression that is not part of the new tree is destroyed, so nothing outside may
use a variable bound there. Removing a dead let, selecting a branch of a case and dropping the only
member of a group are replacements by a part; a group with more members just loses the dead one.
-/

namespace ContinuationIR
set_option autoImplicit false

namespace Program

variable {family : Family}

/-! ## Destroying a region -/

/-- The number of occurrences of a variable that are not among the given ones. -/
def usesOutside (p : Program) (inside : HandleSet (.occ family)) (var : VarId family) :
    Except Fault Nat :=
  return (← (p.table family).uses var).countP fun occurrence => !inside.contains occurrence

/-- Refuses a variable that has other occurrences than the given ones. -/
def checkUnused (p : Program) (inside : HandleSet (.occ family)) (var : VarId family) :
    Except (Failure ChangeError) Unit := do
  let outside ← orFault (p.usesOutside inside var)
  require (outside = 0) (.binderStillUsed var outside)

/-- Refuses a region that binds a variable used outside of it. -/
def checkSelfContained (p : Program) (r : Region) : Except (Failure ChangeError) Unit := do
  (r.bound .value).forM (p.checkUnused (.ofList (r.held .value)))
  (r.bound .continuation).forM (p.checkUnused (.ofList (r.held .continuation)))

/-- Removes everything in a region: its occurrences, then its variables, then its nodes. -/
def destroy (r : Region) : Edit Unit := do
  (r.held .value).forM .unregister
  (r.held .continuation).forM .unregister
  (r.bound .value).forM .free
  (r.bound .continuation).forM .free
  r.expressions.forM fun e => .write (·.removeExpression e)
  r.definitions.forM fun d => .write (·.removeDefinition d)

/-! ## Replacement -/

/-- What a replacement does, once it is accepted. -/
structure Splice where
  parent : Node
  /-- The recursivities that the moved occurrences get. -/
  resolution : Resolution
  /-- What is destroyed. -/
  region : Region

/-- The checks of a replacement: both expressions, where the target is, whether the replacement may
be moved, whether its uses are in scope at the new place and whether the rest can go. -/
def checkReplace (p : Program) (target replacement : ExprId) :
    Except (Failure ChangeError) Splice := do
  require (p.hasNode (.expr target)) (.unknownNode (.expr target))
  require (p.hasNode (.expr replacement)) (.unknownNode (.expr replacement))
  let attached ← orFault (p.isAttached (.expr target))
  require attached (.detached (.expr target))
  let pending := (← orFault (p.enclosing (.expr replacement))).isNone
  let below ← orFault (p.liesBelow (.expr replacement) (.expr target))
  require (target ≠ replacement ∧ (pending ∨ below)) (.invalidReplacement target replacement)
  match ← orFault (p.enclosing (.expr target)) with
  | none => .error (.refused (.detached (.expr target)))
  | some parent =>
    let graft := some ⟨replacement, some parent⟩
    let resolution ← withReason .scope (p.resolveTree graft (.expr replacement))
    let region ← orFault (p.region (.expr target) (some replacement))
    p.checkSelfContained region
    return ⟨parent, resolution, region⟩

/-- Gives occurrences their new recursivity. -/
def retagAll (tags : List (OccId family × Recursivity)) : Edit Unit :=
  tags.forM fun (occurrence, recursivity) => .retag occurrence recursivity

/-- The writes of a replacement. -/
def splice (target replacement : ExprId) (s : Splice) : Edit Unit := do
  .exchangeChild s.parent target replacement
  .attach s.parent (.expr replacement)
  retagAll s.resolution.values
  retagAll s.resolution.continuations
  destroy s.region

/-- Exchanges an attached expression for a pending tree or for one of its own descendants. -/
def replace (p : Program) (target replacement : ExprId) : Outcome ChangeError Unit :=
  .commit p (p.checkReplace target replacement) fun s =>
    let log := [.replacing target replacement s.parent]
    .after p log (splice target replacement s) fun _ p => .verified .replace p log ()

/-! ## Removal -/

/-- The body of a let whose variable is not used. -/
def checkDeadLet (p : Program) (e : ExprId) : Except (Failure ChangeError) ExprId :=
  match p.expressions.get? e with
  | none => .error (.refused (.unknownNode (.expr e)))
  | some entry =>
    match entry.shape with
    | .letIn var _ body => do
      let uses ← orFault ((p.table .value).uses var)
      require uses.isEmpty (.binderStillUsed var uses.length)
      return body
    | _ => .error (.refused (.unexpectedShape e .letIn))

/-- Removes a let whose variable is not used and answers the body that takes its place. -/
def removeDeadLet (p : Program) (e : ExprId) : Outcome ChangeError ExprId :=
  .commit p (p.checkDeadLet e) fun body => (p.replace e body).answer body

/-- The branch of a case for a tag, or its default. -/
def checkBranch (p : Program) (e : ExprId) (tag : Nat) : Except (Failure ChangeError) ExprId :=
  match p.expressions.get? e with
  | none => .error (.refused (.unknownNode (.expr e)))
  | some entry =>
    match entry.shape with
    | .caseOf _ map otherwise =>
      match (map.get? tag).or otherwise with
      | some branch => .ok branch
      | none => .error (.refused (.noSuchBranch e tag))
    | _ => .error (.refused (.unexpectedShape e .caseOf))

/-- Replaces a case by its branch for a tag and answers the branch. -/
def selectCaseBranch (p : Program) (e : ExprId) (tag : Nat) : Outcome ChangeError ExprId :=
  .commit p (p.checkBranch e tag) fun branch => (p.replace e branch).answer branch

/-- What removing a definition does, once it is accepted. -/
structure Removal where
  {family : Family}
  name : VarId family
  group : ExprId
  members : List DefId
  body : ExprId
  region : Region

/-- The name of a definition that may be removed: not the root and not a public function. -/
def checkRemovable (d : DefId) : Header → Except (Failure ChangeError) (Σ family, VarId family)
  | .root _ => .error (.refused (.isRoot d))
  | .function _ _ .exported => .error (.refused (.publicDefinition d))
  | .function name _ .internal => .ok ⟨.value, name⟩
  | .continuation name => .ok ⟨.continuation, name⟩

/-- The checks of removing a definition. -/
def checkDeadDefinition (p : Program) (d : DefId) : Except (Failure ChangeError) Removal := do
  match p.definitions.get? d with
  | none => .error (.refused (.unknownNode (.defn d)))
  | some entry =>
    let ⟨family, name⟩ ← checkRemovable d entry.definition.header
    let attached ← orFault (p.isAttached (.defn d))
    require attached (.detached (.defn d))
    match entry.enclosing with
    | none => .error (.refused (.detached (.defn d)))
    | some group =>
      let region ← orFault (p.region (.defn d) none)
      p.checkSelfContained region
      p.checkUnused (.ofList (region.held family)) name
      match ← orFault (p.fetchShape group) with
      | .group _ members body => return ⟨name, group, members, body, region⟩
      | _ => .error (.refused (.unexpectedShape group .group))

/-- Takes a definition out of the members of a group. -/
def dropMember (group : ExprId) (d : DefId) : Edit Unit := do
  match ← .read (·.fetchShape group) with
  | .group family members body =>
    .write (·.setShape group (.group family (members.filter (· ≠ d)) body))
  | _ => return

/-- The writes that remove one of several members from its group. -/
def shrink (d : DefId) (r : Removal) : Edit Unit := do
  dropMember r.group d
  destroy r.region
  .free r.name

/-- Removes a definition that is not used outside of itself. With the last member the group goes
too. -/
def removeDeadDefinition (p : Program) (d : DefId) : Outcome ChangeError Unit :=
  .commit p (p.checkDeadDefinition d) fun r =>
    if r.members.length = 1 then p.replace r.group r.body
    else
      let log := [.removingDefinition d r.name r.group]
      .after p log (shrink d r) fun _ p => .verified .removeDeadDefinition p log ()

/-- The checks of discarding a tree: it must be pending and not used from outside. -/
def checkDiscard (p : Program) (node : Node) : Except (Failure ChangeError) Region :=
  match p.enclosing node with
  | .error _ => .error (.refused (.unknownNode node))
  | .ok enclosing => do
    require (enclosing.isNone && !p.isRoot node) (.notPending node)
    let region ← orFault (p.region node none)
    p.checkSelfContained region
    return region

/-- Removes a pending tree. -/
def discard (p : Program) (node : Node) : Outcome ChangeError Unit :=
  .commit p (p.checkDiscard node) fun region =>
    let log := [.discarding node]
    .after p log (destroy region) fun _ p => .verified .discard p log ()

end Program

end ContinuationIR
