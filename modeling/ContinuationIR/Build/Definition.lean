import ContinuationIR.Build.Expression

/-!
# Building definitions and installing the root

A definition binds its parameters and the continuation it returns to as soon as it is made. Its own
name is only recorded: the group that takes the definition in binds it. The root of a program is
installed once, and only if every use below it is in scope and has the recursivity it claims.
-/

namespace ContinuationIR
set_option autoImplicit false

namespace Program

/-- The writes of a definition: its binders, then its body. -/
def writeDefinition (definition : Definition) (d : DefId) : Edit Unit := do
  definition.header.returnTo?.toList.forM fun returnTo =>
    .bind returnTo (.defn d) .returnContinuation
  definition.parameters.forM fun parameter => .bind parameter (.defn d) .parameter
  .attach (.defn d) (.expr definition.body)

/-- Makes the writes of a definition and adds it as pending. -/
def addDefinition (p : Program) (definition : Definition) : Outcome BuildError DefId :=
  .after p [] (writeDefinition definition p.definitions.next) fun _ p =>
    let d := p.definitions.next
    { result := .ok d
      program := { p with definitions := p.definitions.push ⟨definition, none⟩ }
      log := [.builtDefinition d definition.header] }

/-- The checks of a function: its binders, the declared kinds, the body. -/
def checkFunction (p : Program) (name : VarId .value) (returnTo : VarId .continuation)
    (parameters : List (VarId .value)) (type : FunctionType) (body : ExprId) :
    Except BuildError Unit := do
  p.checkBinders (⟨name⟩ :: ⟨returnTo⟩ :: parameters.map fun v => ⟨v⟩)
  p.checkParameters parameters type.parameters
  p.checkChildren [.expr body]

/-- Defines a function. -/
def function (p : Program) (name : VarId .value) (returnTo : VarId .continuation)
    (parameters : List (VarId .value)) (type : FunctionType) (visibility : Visibility)
    (body : ExprId) : Outcome BuildError DefId :=
  .commit p (orRefuse id (p.checkFunction name returnTo parameters type body)) fun _ =>
    p.addDefinition ⟨.function name returnTo visibility, parameters, .function type, body⟩

/-- The checks of a continuation, which yield the kinds of its parameters. -/
def checkContinuation (p : Program) (name : VarId .continuation)
    (parameters : List (VarId .value)) (body : ExprId) : Except BuildError (List Kind) := do
  p.checkBinders (⟨name⟩ :: parameters.map fun v => ⟨v⟩)
  p.checkChildren [.expr body]
  parameters.mapM p.kindOf

/-- Defines a continuation. Its type is read off its parameters. -/
def continuation (p : Program) (name : VarId .continuation) (parameters : List (VarId .value))
    (body : ExprId) : Outcome BuildError DefId :=
  .commit p (orRefuse id (p.checkContinuation name parameters body)) fun kinds =>
    p.addDefinition ⟨.continuation name, parameters, .continuation kinds, body⟩

/-- The checks of a root: its binders, the declared kinds, the body. -/
def checkRoot (p : Program) (returnTo : VarId .continuation) (parameters : List (VarId .value))
    (type : FunctionType) (body : ExprId) : Except BuildError Unit := do
  p.checkBinders (⟨returnTo⟩ :: parameters.map fun v => ⟨v⟩)
  p.checkParameters parameters type.parameters
  p.checkChildren [.expr body]

/-- Defines the root of a program. -/
def rootDefinition (p : Program) (returnTo : VarId .continuation)
    (parameters : List (VarId .value)) (type : FunctionType) (body : ExprId) :
    Outcome BuildError DefId :=
  .commit p (orRefuse id (p.checkRoot returnTo parameters type body)) fun _ =>
    p.addDefinition ⟨.root returnTo, parameters, .function type, body⟩

/-- Refuses the first occurrence whose recursivity is not the one it has at its place. -/
def checkTags {family : Family} (p : Program) (expected : List (OccId family × Recursivity)) :
    Except (Failure BuildError) Unit :=
  expected.forM fun (occurrence, recursivity) => do
    let entry ← orFault (p.fetchOccurrence occurrence)
    require (entry.recursivity = recursivity) (.wrongRecursivity occurrence recursivity)

/-- Refuses a definition that cannot become the root. -/
def checkInstall (p : Program) (root : DefId) : Except (Failure BuildError) Unit := do
  require p.root.isNone .rootAlreadyInstalled
  match p.definitions.get? root with
  | none => .error (.refused (.unknownNode (.defn root)))
  | some entry =>
    require (entry.definition.header.kind = .root) (.wrongDefinitionKind root .root)
    let resolution ← withReason .scope (p.resolveTree none (.defn root))
    p.checkTags resolution.values
    p.checkTags resolution.continuations

/-- Installs the root of the program. -/
def install (p : Program) (root : DefId) : Outcome BuildError DefId :=
  .commit p (p.checkInstall root) fun _ =>
    { result := .ok root
      program := { p with root := some root }
      log := [.installedRoot root] }

end Program

end ContinuationIR
