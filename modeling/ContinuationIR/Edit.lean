import ContinuationIR.Program

/-!
# Edits

The writing part of a call is an edit: a sequence of writes to the tables, made after all checks
have passed. A write that follows a handle breaks down if the handle is dead; binding a variable,
removing one and exchanging a child break down too if what they rely on does not hold. The writes
made before a breakdown stand.
-/

namespace ContinuationIR
set_option autoImplicit false

/-- A sequence of writes: an answer, or the fault that stopped it, and the program it leaves. -/
def Edit (α : Type) : Type := Program → Except Fault α × Program

namespace Edit

variable {α β : Type} {family : Family}

/-- Writes nothing. -/
def done (a : α) : Edit α := fun p => (.ok a, p)

/-- Goes on with the answer of an edit, unless it broke down. -/
def andThen (edit : Edit α) (next : α → Edit β) : Edit β := fun p =>
  match edit p with
  | (.ok a, p) => next a p
  | (.error fault, p) => (.error fault, p)

instance : Monad Edit where
  pure := done
  bind := andThen

/-- Breaks down. -/
def fail (fault : Fault) : Edit α := fun p => (.error fault, p)

/-- Reads from the program. -/
def read (f : Program → Except Fault α) : Edit α := fun p => (f p, p)

/-- A write that cannot break down. -/
def write (f : Program → Program) : Edit Unit := fun p => (.ok (), f p)

/-! ## Occurrences -/

/-- Makes the occurrence that a mention asks for. -/
def mint (holder : ExprId) (mention : Mention family) : Edit (OccId family) := do
  let occurrence ← read fun p => .ok (p.table family).occurrences.next
  write (·.modifyTable family (·.issue mention holder))
  let _ ← read (·.fetchVariable mention.var)
  write (·.modifyTable family (·.list mention.var occurrence))
  return occurrence

/-- Makes the occurrences of a list of mentions, in order. -/
def mintAll (holder : ExprId) : List (Mention family) → Edit (List (OccId family))
  | [] => return []
  | mention :: rest => do
    let occurrence ← mint holder mention
    let occurrences ← mintAll holder rest
    return occurrence :: occurrences

/-- Makes the occurrences of a value. -/
def mintValue (holder : ExprId) : Value (Mention .value) → Edit (Value (OccId .value))
  | .constant literal => return .constant literal
  | .alias source => return .alias (← mint holder source)
  | .block tag fields => return .block tag (← mintAll holder fields)

/-- Lets an occurrence refer to another variable and moves it between the two sets. -/
def repoint (occurrence : OccId family) (new : VarId family) (recursivity : Recursivity) :
    Edit Unit := do
  let entry ← read (·.fetchOccurrence occurrence)
  write (·.modifyTable family (·.redirect occurrence new recursivity))
  let _ ← read (·.fetchVariable entry.var)
  write (·.modifyTable family (·.unlist entry.var occurrence))
  let _ ← read (·.fetchVariable new)
  write (·.modifyTable family (·.list new occurrence))

/-- Corrects the recursivity of an occurrence. -/
def retag (occurrence : OccId family) (recursivity : Recursivity) : Edit Unit := do
  let _ ← read (·.fetchOccurrence occurrence)
  write (·.modifyTable family (·.retag occurrence recursivity))

/-- Removes an occurrence and takes it out of the set of its variable. -/
def unregister (occurrence : OccId family) : Edit Unit :=
  write (·.modifyTable family (·.unregister occurrence))

/-! ## Variables -/

/-- Binds a variable that is not bound yet. -/
def bind (var : VarId family) (site : Node) (role : BinderRole) : Edit Unit := do
  let entry ← read (·.fetchVariable var)
  if entry.binding.isSome then fail (.boundAgain var)
  else write (·.recordBinding var site role)

/-- Removes a variable that has no occurrences left. -/
def free (var : VarId family) : Edit Unit := do
  let unused ← read fun p => .ok ((p.varEntry? var).all (·.occurrences.isEmpty))
  write (·.modifyTable family (·.free var))
  if unused then return else fail (.freedInUse var)

/-! ## Nodes -/

/-- Puts a node under another. -/
def attach (parent child : Node) : Edit Unit := do
  let _ ← read (·.enclosing child)
  write (·.setEnclosing child (some parent))

/-- Puts an expression in the place of a child of the parent. -/
def exchangeChild (parent : Node) (old new : ExprId) : Edit Unit :=
  match parent with
  | .expr e => do
    match (← read (·.fetchShape e)).replaceChild? old new with
    | some shape => write (·.setShape e shape)
    | none => fail (.notAChild old e)
  | .defn d => do
    let definition ← read (·.fetchDefinition d)
    write (·.setDefinition d { definition with body := new })

end Edit

end ContinuationIR
