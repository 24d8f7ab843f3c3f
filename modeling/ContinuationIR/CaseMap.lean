import ContinuationIR.Handle
import ContinuationIR.Kind

/-!
# Branches of a case

The branches of a case are a finite map from tags to expressions, stored in ascending order of the
tags and looked up by halving. A map that fits a scrutinee of a tagged kind has no tag out of range
and, unless the case has a default, a branch for every tag.
-/

namespace ContinuationIR
set_option autoImplicit false

/-- What is wrong with the branches of a case. -/
inductive CaseError where
  | duplicateTag (tag : Nat)
  | tagOutOfRange (tag constructors : Nat)
  | nonExhaustive (missing : List Nat)
deriving DecidableEq

/-- The text of a list in structured dumps. -/
def dumpList (items : List String) : String :=
  "[" ++ ", ".intercalate items ++ "]"

/-- The name of the kind of case error. -/
def CaseError.label : CaseError → String
  | .duplicateTag _ => "DuplicateTag"
  | .tagOutOfRange .. => "TagOutOfRange"
  | .nonExhaustive _ => "NonExhaustive"

/-- The wording of a case error. -/
def CaseError.message : CaseError → String
  | .duplicateTag tag => s!"duplicate case tag {tag}"
  | .tagOutOfRange tag constructors =>
    s!"case tag {tag} is out of range for a scrutinee with {constructors} constructors"
  | .nonExhaustive missing =>
    s!"case is not exhaustive, missing tags {dumpList (missing.map toString)}"

/-- The branches of a case, in stored order. -/
structure CaseMap where
  branches : List (Nat × ExprId)
deriving DecidableEq

namespace CaseMap

/-- The first tag that stands twice in a row. -/
def firstRepeat : List (Nat × ExprId) → Option Nat
  | [] => none
  | [_] => none
  | first :: second :: rest =>
    if first.1 = second.1 then some first.1 else firstRepeat (second :: rest)

/-- The map of a list of branches, refused if a tag occurs twice. -/
def ofBranches? (branches : List (Nat × ExprId)) : Except CaseError CaseMap :=
  let sorted := branches.mergeSort fun a b => a.1 ≤ b.1
  match firstRepeat sorted with
  | some tag => .error (.duplicateTag tag)
  | none => .ok ⟨sorted⟩

/-- Looks a tag up in a window of branches: the half whose first tag is not above it is kept, until
one branch is left. -/
def search (tag : Nat) (window : List (Nat × ExprId)) : Option ExprId :=
  match window with
  | [] => none
  | [only] => if only.1 = tag then some only.2 else none
  | first :: second :: rest =>
    let size := rest.length + 2
    let half := size / 2
    if tag < ((first :: second :: rest).getD half first).1 then
      search tag ((first :: second :: rest).take (size - half))
    else search tag ((first :: second :: rest).drop half)
termination_by window.length
decreasing_by
  all_goals
    simp only [List.length_take, List.length_drop, List.length_cons]
    omega

/-- The branch of a tag. -/
def get? (map : CaseMap) (tag : Nat) : Option ExprId := search tag map.branches

/-- The tags, in stored order. -/
def tags (map : CaseMap) : List Nat := map.branches.map Prod.fst

/-- The tags below `constructors` without a branch. -/
def missing (map : CaseMap) (constructors : Nat) : List Nat :=
  (List.range constructors).filter fun tag => (map.get? tag).isNone

/-- Refuses branches that do not fit a scrutinee of the given kind. -/
def validate (map : CaseMap) (scrutinee : Kind) (hasDefault : Bool) : Except CaseError Unit :=
  match scrutinee with
  | .tagged constructors =>
    match map.tags.find? (constructors ≤ ·) with
    | some tag => .error (.tagOutOfRange tag constructors)
    | none =>
      if hasDefault then .ok ()
      else
        match map.missing constructors with
        | [] => .ok ()
        | tags => .error (.nonExhaustive tags)
  | .any | .int | .bool => .ok ()

/-- Exchanges the first branch that is `old` for `new`, if there is one. -/
def replaceFirst? (old new : ExprId) : List (Nat × ExprId) → Option (List (Nat × ExprId))
  | [] => none
  | (tag, e) :: rest =>
    if e = old then some ((tag, new) :: rest)
    else (replaceFirst? old new rest).map ((tag, e) :: ·)

end CaseMap

end ContinuationIR
