import ContinuationIR.Build.Error

/-!
# Validation of building calls

Each check reads the program and accepts or refuses. A building call runs its checks in a fixed
order before it writes anything, so the first check that refuses decides the reason.
-/

namespace ContinuationIR
set_option autoImplicit false

/-- A variable of either family that a node is about to bind. -/
structure Binder where
  {family : Family}
  var : VarId family
deriving DecidableEq

namespace Program

variable {family : Family}

/-- Refuses a variable that is not live. -/
def checkVariable (p : Program) (var : VarId family) : Except BuildError Unit :=
  if p.hasVariable var then .ok () else .error (.unknownVariable var)

/-- Refuses mentions of variables that are not live. -/
def checkMentions (p : Program) (mentions : List (Mention family)) : Except BuildError Unit :=
  mentions.forM fun mention => p.checkVariable mention.var

/-- Refuses binders that are dead, bound already or listed twice. -/
def checkBindersFrom (p : Program) : List Binder → List Binder → Except BuildError Unit
  | _, [] => .ok ()
  | seen, binder :: rest =>
    match p.varEntry? binder.var with
    | none => .error (.unknownVariable binder.var)
    | some entry =>
      if entry.binding.isSome then .error (.alreadyBound binder.var)
      else if seen.contains binder then .error (.duplicateBinder binder.var)
      else p.checkBindersFrom (binder :: seen) rest

/-- Refuses binders that are dead, bound already or listed twice. -/
def checkBinders (p : Program) (binders : List Binder) : Except BuildError Unit :=
  p.checkBindersFrom [] binders

/-- Refuses children that are dead, installed, attached already or listed twice. -/
def checkChildrenFrom (p : Program) : List Node → List Node → Except BuildError Unit
  | _, [] => .ok ()
  | seen, child :: rest =>
    match p.enclosing child with
    | .error _ => .error (.unknownNode child)
    | .ok enclosing =>
      if p.isRoot child then .error (.isRoot child)
      else if enclosing.isSome then .error (.alreadyAttached child)
      else if seen.contains child then .error (.duplicateChild child)
      else p.checkChildrenFrom (child :: seen) rest

/-- Refuses children that are dead, installed, attached already or listed twice. -/
def checkChildren (p : Program) (children : List Node) : Except BuildError Unit :=
  p.checkChildrenFrom [] children

/-- The kind of a value variable, refused if it is not live. -/
def kindOf (p : Program) (var : VarId .value) : Except BuildError Kind :=
  match p.varEntry? var with
  | some entry => .ok entry.kind
  | none => .error (.unknownVariable var)

/-- Whether a variable of the kind may hold the value. -/
def admits (p : Program) (kind : Kind) : Value (Mention .value) → Except BuildError Bool
  | .constant literal => .ok (kind.admitsConstant literal)
  | .alias source => return kind.admitsAlias (← p.kindOf source.var)
  | .block tag _ => .ok (kind.admitsBlock tag)

/-- Refuses a value that the variable's kind does not admit. -/
def checkValue (p : Program) (var : VarId .value) (value : Value (Mention .value)) :
    Except BuildError Unit := do
  let kind ← p.kindOf var
  if ← p.admits kind value then .ok () else .error (.incompatibleValue var kind)

/-- Refuses the first parameter whose kind differs from the declared one. -/
def checkKinds (p : Program) : List (VarId .value × Kind) → Except BuildError Unit
  | [] => .ok ()
  | (parameter, expected) :: rest => do
    let found ← p.kindOf parameter
    if found = expected then p.checkKinds rest else .error (.kindMismatch parameter expected found)

/-- Refuses parameters that do not fit the declared kinds in number or kind. -/
def checkParameters (p : Program) (parameters : List (VarId .value)) (declared : List Kind) :
    Except BuildError Unit :=
  if parameters.length = declared.length then p.checkKinds (parameters.zip declared)
  else .error (.arityMismatch declared.length parameters.length)

/-- The names of the members of a group, refused if a member is dead or of another kind. -/
def memberNames (p : Program) (family : Family) (members : List DefId) :
    Except BuildError (List (VarId family)) :=
  members.mapM fun d =>
    match p.definitions.get? d with
    | none => .error (.unknownNode (.defn d))
    | some entry =>
      match entry.definition.header.name? family with
      | some name => .ok name
      | none => .error (.wrongDefinitionKind d family.memberKind)

/-- The names that a group binds, refused unless all of them can be bound. -/
def groupNames (p : Program) (family : Family) (members : List DefId) :
    Except BuildError (List (VarId family)) := do
  if members.isEmpty then .error .emptyGroup
  let names ← p.memberNames family members
  p.checkBinders (names.map fun name => ⟨name⟩)
  return names

end Program

end ContinuationIR
