import ContinuationIR.Shape
import ContinuationIR.Text.Quoted

/-!
# Structured text of shapes

The one-line form in which the log shows a node: the name of the constructor with its fields.
-/

namespace ContinuationIR
set_option autoImplicit false

/-- The text of a constructor with named fields. -/
def dumpRecord (name : String) (fields : List (String × String)) : String :=
  let body := ", ".intercalate (fields.map fun (field, text) => field ++ ": " ++ text)
  s!"{name} \x7b {body} \x7d"

/-- The text of an optional part. -/
def dumpOption : Option String → String
  | none => "None"
  | some text => s!"Some({text})"

/-- The text of a literal. -/
def Constant.dump : Constant → String
  | .unit => "Unit"
  | .int n => s!"Int({n.toInt})"
  | .bool b => s!"Bool({b})"
  | .string s => "String(" ++ Text.quoted s ++ ")"

/-- The text of a bound value. -/
def Value.dump : Value (OccId .value) → String
  | .constant literal => s!"Constant({literal.dump})"
  | .alias source => s!"Var({source.dump})"
  | .block tag fields =>
    dumpRecord "Block" [("tag", toString tag), ("fields", dumpList (fields.map Handle.dump))]

/-- The text of the branches of a case. -/
def CaseMap.dump (map : CaseMap) : String :=
  let branches := map.branches.map fun (tag, e) => s!"({tag}, {e.dump})"
  s!"CaseMap({dumpList branches})"

/-- The text of the shape of an expression. -/
def Shape.dump : Shape → String
  | .letIn var value body =>
    dumpRecord "Let" [("var", var.dump), ("value", value.dump), ("body", body.dump)]
  | .group family members body =>
    let name :=
      match family with
      | .value => "LetFunctions"
      | .continuation => "LetContinuations"
    dumpRecord name
      [("definitions", dumpList (members.map Handle.dump)), ("body", body.dump)]
  | .primitive operator arguments continuation =>
    dumpRecord "Primitive"
      [("primitive", operator.label), ("arguments", dumpList (arguments.map Handle.dump)),
        ("continuation", continuation.dump)]
  | .apply function arguments continuation =>
    dumpRecord "Apply"
      [("function", function.dump), ("arguments", dumpList (arguments.map Handle.dump)),
        ("continuation", continuation.dump)]
  | .jump continuation arguments =>
    dumpRecord "Continue"
      [("continuation", continuation.dump), ("arguments", dumpList (arguments.map Handle.dump))]
  | .caseOf scrutinee branches otherwise =>
    dumpRecord "Case"
      [("scrutinee", scrutinee.dump), ("branches", branches.dump),
        ("default", dumpOption (otherwise.map Handle.dump))]
  | .unreachable => "Unreachable"

/-- The name of a visibility in structured text. -/
def Visibility.label : Visibility → String
  | .exported => "Public"
  | .internal => "Private"

/-- The text of the header of a definition. -/
def Header.dump : Header → String
  | .root returnTo => dumpRecord "Root" [("return_continuation", returnTo.dump)]
  | .function name returnTo visibility =>
    dumpRecord "Function"
      [("name", name.dump), ("return_continuation", returnTo.dump),
        ("visibility", visibility.label)]
  | .continuation name => dumpRecord "Continuation" [("name", name.dump)]

end ContinuationIR
