import ContinuationIR.Program

/-!
# Terms

The tree that a node stands for, read off the tables: children in place, and each variable with its
name and number instead of the occurrence that refers to it. Handles of nodes and occurrences, kinds
and types are gone, and so is the question of whether a handle is live: reading a term off
inconsistent tables ends in a fault.
-/

namespace ContinuationIR
set_option autoImplicit false

/-- A variable as it is written: its name and its number. -/
structure NamedVar (family : Family) where
  name : String
  number : Nat
deriving DecidableEq

/-- A use of a variable as it is written. -/
structure NamedUse (family : Family) where
  var : NamedVar family
  recursivity : Recursivity
deriving DecidableEq

/-- The header of a definition as it is written. -/
inductive NamedHeader where
  | root (returnTo : NamedVar .continuation)
  | function (name : NamedVar .value) (returnTo : NamedVar .continuation)
      (visibility : Visibility)
  | continuation (name : NamedVar .continuation)
deriving DecidableEq

mutual

/-- An expression with everything below it. -/
inductive Term where
  | letIn (var : NamedVar .value) (value : Value (NamedUse .value)) (body : Term)
  | group (family : Family) (members : Members) (body : Term)
  | primitive (operator : Primitive) (arguments : List (NamedUse .value))
      (continuation : NamedUse .continuation)
  | apply (function : NamedUse .value) (arguments : List (NamedUse .value))
      (continuation : NamedUse .continuation)
  | jump (continuation : NamedUse .continuation) (arguments : List (NamedUse .value))
  | caseOf (scrutinee : NamedUse .value) (branches : Branches)
  | unreachable

/-- A definition with everything below it. -/
inductive Clause where
  | mk (header : NamedHeader) (parameters : List (NamedVar .value)) (body : Term)

/-- The definitions of a group. -/
inductive Members where
  | nil
  | cons (first : Clause) (rest : Members)

/-- The branches of a case, in order. The default has no tag and stands last. -/
inductive Branches where
  | nil
  | cons (tag : Option Nat) (body : Term) (rest : Branches)

end

namespace Program

variable {family : Family}

/-- A variable with its name. -/
def namedVar (p : Program) (var : VarId family) : Except Fault (NamedVar family) :=
  return ⟨(← p.fetchVariable var).name, var.index⟩

/-- An occurrence with the name of its variable. -/
def namedUse (p : Program) (occurrence : OccId family) : Except Fault (NamedUse family) := do
  let entry ← p.fetchOccurrence occurrence
  return ⟨← p.namedVar entry.var, entry.recursivity⟩

/-- A value with the names of its variables. -/
def namedValue (p : Program) : Value (OccId .value) → Except Fault (Value (NamedUse .value))
  | .constant literal => .ok (.constant literal)
  | .alias source => return .alias (← p.namedUse source)
  | .block tag fields => return .block tag (← fields.mapM p.namedUse)

/-- A header with the names of its variables. -/
def namedHeader (p : Program) : Header → Except Fault NamedHeader
  | .root returnTo => return .root (← p.namedVar returnTo)
  | .function name returnTo visibility => do
    let name ← p.namedVar name
    return .function name (← p.namedVar returnTo) visibility
  | .continuation name => return .continuation (← p.namedVar name)

/-- Reads the members of a group one after the other. -/
def readMembers (clause : DefId → Except Fault Clause) : List DefId → Except Fault Members
  | [] => .ok .nil
  | d :: rest => do
    let first ← clause d
    return .cons first (← readMembers clause rest)

/-- Reads the branches of a case one after the other. -/
def readBranches (term : ExprId → Except Fault Term) :
    List (Option Nat × ExprId) → Except Fault Branches
  | [] => .ok .nil
  | (tag, e) :: rest => do
    let body ← term e
    return .cons tag body (← readBranches term rest)

mutual

/-- Reads an expression, going at most `depth` nodes down. -/
def termBy (p : Program) : Nat → ExprId → Except Fault Term
  | 0, e => .error (.endless (.expr e))
  | depth + 1, e => do
    match ← p.fetchShape e with
    | .letIn var value body =>
      let var ← p.namedVar var
      let value ← p.namedValue value
      return .letIn var value (← p.termBy depth body)
    | .group family members body =>
      let members ← readMembers (p.clauseBy depth) members
      return .group family members (← p.termBy depth body)
    | .primitive operator arguments continuation =>
      let arguments ← arguments.mapM p.namedUse
      return .primitive operator arguments (← p.namedUse continuation)
    | .apply function arguments continuation =>
      let function ← p.namedUse function
      let arguments ← arguments.mapM p.namedUse
      return .apply function arguments (← p.namedUse continuation)
    | .jump continuation arguments =>
      let continuation ← p.namedUse continuation
      return .jump continuation (← arguments.mapM p.namedUse)
    | .caseOf scrutinee map otherwise =>
      let scrutinee ← p.namedUse scrutinee
      let branches := map.branches.map (fun (tag, e) => (some tag, e)) ++
        otherwise.toList.map fun e => (none, e)
      return .caseOf scrutinee (← readBranches (p.termBy depth) branches)
    | .unreachable => return .unreachable

/-- Reads a definition, going at most `depth` nodes down. -/
def clauseBy (p : Program) : Nat → DefId → Except Fault Clause
  | 0, d => .error (.endless (.defn d))
  | depth + 1, d => do
    let definition ← p.fetchDefinition d
    let parameters ← definition.parameters.mapM p.namedVar
    let header ← p.namedHeader definition.header
    return .mk header parameters (← p.termBy depth definition.body)

end

/-- The term of an expression. -/
def term (p : Program) (e : ExprId) : Except Fault Term := p.termBy (p.nodeSlots + 1) e

/-- The clause of a definition. -/
def clause (p : Program) (d : DefId) : Except Fault Clause := p.clauseBy (p.nodeSlots + 1) d

end Program

end ContinuationIR
