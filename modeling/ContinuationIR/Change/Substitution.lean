import ContinuationIR.Change.Error

/-!
# Substitution

One use of a variable, or all of them, is made to refer to another variable of the family. The new
variable must be in scope at the use; a scrutinee must still be covered by its case, and an alias
must still fit the kind of the variable it is bound to. The recursivity of a moved use is computed
anew.
-/

namespace ContinuationIR
set_option autoImplicit false

namespace Program

variable {family : Family}

/-- Refuses a new source for an alias or a new scrutinee that does not fit. -/
def checkPosition (p : Program) (holder : ExprId) (occurrence : OccId .value) (new : VarId .value) :
    Except (Failure ChangeError) Unit := do
  match ← orFault (p.fetchShape holder) with
  | .caseOf scrutinee map otherwise =>
    if scrutinee = occurrence then
      let kind := (← orFault (p.fetchVariable new)).kind
      orRefuse .case (map.validate kind otherwise.isSome)
  | .letIn var (.alias source) _ =>
    if source = occurrence then
      let kind := (← orFault (p.fetchVariable var)).kind
      let found := (← orFault (p.fetchVariable new)).kind
      require (kind.admitsAlias found) (.incompatibleValue var kind found)
  | _ => return

/-- Refuses a use that does not fit the place it is at. Only values have kinds. -/
def checkFit (p : Program) : {family : Family} → ExprId → OccId family → VarId family →
    Except (Failure ChangeError) Unit
  | .value, holder, occurrence, new => p.checkPosition holder occurrence new
  | .continuation, _, _, _ => .ok ()

/-- The recursivity that an occurrence gets when it is made to refer to `new`. -/
def checkSubstitution (p : Program) (occurrence : OccId family) (new : VarId family) :
    Except (Failure ChangeError) Recursivity := do
  match p.occEntry? occurrence with
  | none => .error (.refused (.unknownOccurrence occurrence))
  | some entry =>
    require (p.hasVariable new) (.unknownVariable new)
    let attached ← orFault (p.isAttached (.expr entry.holder))
    require attached (.detached (.expr entry.holder))
    let recursivity ← withReason .scope (p.resolve none new entry.holder)
    p.checkFit entry.holder occurrence new
    return recursivity

/-- Lets several occurrences refer to another variable. -/
def repointAll (new : VarId family) (moves : List (OccId family × Recursivity)) : Edit Unit :=
  moves.forM fun (occurrence, recursivity) => .repoint occurrence new recursivity

/-- Substitutes a variable at one occurrence. -/
def substitute (p : Program) (occurrence : OccId family) (new : VarId family) :
    Outcome ChangeError Unit :=
  let validation := do
    let recursivity ← p.checkSubstitution occurrence new
    let entry ← orFault (p.fetchOccurrence occurrence)
    return (recursivity, entry.var)
  .commit p validation fun (recursivity, old) =>
    let log := [.substituting new old occurrence]
    .after p log (.repoint occurrence new recursivity) fun _ p =>
      .verified .substitute p log ()

/-- The recursivities of all occurrences of a variable when they are made to refer to `new`. -/
def checkSubstitutions (p : Program) (new : VarId family) (occurrences : List (OccId family)) :
    Except (Failure ChangeError) (List (OccId family × Recursivity)) :=
  occurrences.mapM fun occurrence => return (occurrence, ← p.checkSubstitution occurrence new)

/-- Substitutes a variable at all occurrences of another and answers how many there were. -/
def substituteAll (p : Program) (old new : VarId family) : Outcome ChangeError Nat :=
  match p.varEntry? old with
  | none => .failed p (.refused (.unknownVariable old))
  | some entry =>
    if old = new then ⟨.ok 0, p, []⟩
    else
      .commit p (p.checkSubstitutions new entry.occurrences.toList) fun moves =>
        let log := [.substitutingAll new old moves.length]
        .after p log (repointAll new moves) fun _ p =>
          .verified .substituteAll p log moves.length

end Program

end ContinuationIR
