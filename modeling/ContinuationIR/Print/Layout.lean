import ContinuationIR.Print.Term
import ContinuationIR.Text.Ansi
import ContinuationIR.Text.Quoted

/-!
# Program text

One line for each expression, definitions and branches indented by four spaces. The layout is
written against a brush that colours words and names; the coloured text uses the brush of a terminal,
and the plain text is what the terminal leaves of it when the colours are taken off.
-/

namespace ContinuationIR
set_option autoImplicit false

open Text (Brush Colour Terminal)

/-- The colour of the variables of a family. -/
def Family.colour : Family → Colour
  | .value => .yellow
  | .continuation => .blue

/-- A variable, such as `x/3`. -/
def NamedVar.layout {family : Family} (brush : Brush) (v : NamedVar family) : String :=
  brush family.colour (v.name ++ "/" ++ toString v.number)

/-- A use of a variable, with a star if it is recursive. -/
def NamedUse.layout {family : Family} (brush : Brush) (u : NamedUse family) : String :=
  match u.recursivity with
  | .recursive => u.var.layout brush ++ brush .red "*"
  | .nonRecursive => u.var.layout brush

/-- A list of texts with commas between them. -/
def commas (texts : List String) : String := ", ".intercalate texts

/-- A literal. -/
def Constant.layout (brush : Brush) : Constant → String
  | .unit => brush .magenta "()"
  | .int n => brush .magenta (toString n.toInt)
  | .bool b => brush .magenta (toString b)
  | .string s => brush .green (Text.quoted s)

/-- The value bound by a let. -/
def Value.layout (brush : Brush) : Value (NamedUse .value) → String
  | .constant literal => literal.layout brush
  | .alias source => source.layout brush
  | .block tag fields =>
    brush .cyan "block" ++ " " ++ brush .magenta (toString tag) ++ "(" ++
      commas (fields.map (·.layout brush)) ++ ")"

/-- The word for a visibility. -/
def Visibility.text : Visibility → String
  | .exported => "public"
  | .internal => "private"

/-- The first line of a definition. -/
def NamedHeader.layout (brush : Brush) (parameters : List (NamedVar .value)) :
    NamedHeader → String
  | .root returnTo =>
    brush .magenta "root" ++ "(" ++ commas (parameters.map (·.layout brush)) ++ ") -> " ++
      returnTo.layout brush ++ " \x7b"
  | .function name returnTo visibility =>
    brush .magenta "fun" ++ " " ++ name.layout brush ++ "(" ++
      commas (parameters.map (·.layout brush)) ++ ") -> " ++ returnTo.layout brush ++ " " ++
      visibility.text ++ " \x7b"
  | .continuation name =>
    brush .magenta "cont" ++ " " ++ name.layout brush ++ "(" ++
      commas (parameters.map (·.layout brush)) ++ ") \x7b"

/-- The word that opens a group. -/
def Family.groupWord : Family → String
  | .value => "letfun"
  | .continuation => "letcont"

/-- A line at a level of indentation. -/
def lineAt (level : Nat) (text : String) : String :=
  String.join (List.replicate level "    ") ++ text ++ "\n"

mutual

/-- The lines of an expression. -/
def Term.layout (brush : Brush) (level : Nat) : Term → String
  | .letIn var value body =>
    lineAt level
        (brush .magenta "let" ++ " " ++ var.layout brush ++ " = " ++ value.layout brush ++ " " ++
          brush .magenta "in") ++
      body.layout brush level
  | .group family members body =>
    lineAt level (brush .magenta family.groupWord) ++ members.layout brush (level + 1) ++
      lineAt level (brush .magenta "in") ++ body.layout brush level
  | .primitive operator arguments continuation =>
    lineAt level
      (brush .cyan operator.name ++ "(" ++ commas (arguments.map (·.layout brush)) ++ ") -> " ++
        continuation.layout brush)
  | .apply function arguments continuation =>
    lineAt level
      (brush .cyan "apply" ++ " " ++ function.layout brush ++ "(" ++
        commas (arguments.map (·.layout brush)) ++ ") -> " ++ continuation.layout brush)
  | .jump continuation arguments =>
    lineAt level
      (brush .cyan "continue" ++ " " ++ continuation.layout brush ++ "(" ++
        commas (arguments.map (·.layout brush)) ++ ")")
  | .caseOf scrutinee branches =>
    lineAt level (brush .magenta "case" ++ " " ++ scrutinee.layout brush ++ " \x7b") ++
      branches.layout brush (level + 1) ++ lineAt level "\x7d"
  | .unreachable => lineAt level (brush .red "unreachable")

/-- The lines of a definition. -/
def Clause.layout (brush : Brush) (level : Nat) : Clause → String
  | .mk header parameters body =>
    lineAt level (header.layout brush parameters) ++ body.layout brush (level + 1) ++
      lineAt level "\x7d"

/-- The lines of the definitions of a group. -/
def Members.layout (brush : Brush) (level : Nat) : Members → String
  | .nil => ""
  | .cons first rest => first.layout brush level ++ rest.layout brush level

/-- The lines of the branches of a case. -/
def Branches.layout (brush : Brush) (level : Nat) : Branches → String
  | .nil => ""
  | .cons tag body rest =>
    lineAt level (brush .magenta ((tag.map toString).getD "_") ++ " ->") ++
      body.layout brush (level + 1) ++ rest.layout brush level

end

namespace Program

/-- The text of the installed tree, empty if there is none. -/
def layout (p : Program) (brush : Brush) : Except Fault String :=
  match p.root with
  | none => .ok ""
  | some root => return (← p.clause root).layout brush 0

/-- The text of an expression. -/
def layoutExpression (p : Program) (brush : Brush) (e : ExprId) : Except Fault String :=
  return (← p.term e).layout brush 0

end Program

namespace Text.Terminal

/-- The coloured text of the installed tree. -/
def coloured (terminal : Terminal) (p : Program) : Except Fault String := p.layout terminal.paint

/-- The text of the installed tree without colours. -/
def plain (terminal : Terminal) (p : Program) : Except Fault String :=
  return terminal.strip (← terminal.coloured p)

/-- The text of an expression without colours. -/
def plainExpression (terminal : Terminal) (p : Program) (e : ExprId) : Except Fault String :=
  return terminal.strip (← p.layoutExpression terminal.paint e)

end Text.Terminal

namespace Program

/-- The coloured text of the installed tree, in escape sequences. -/
def coloured (p : Program) : Except Fault String := Terminal.ansi.coloured p

/-- The text of the installed tree, with the escape sequences taken off. -/
def plain (p : Program) : Except Fault String := Terminal.ansi.plain p

/-- The text of an expression, with the escape sequences taken off. -/
def plainExpression (p : Program) (e : ExprId) : Except Fault String :=
  Terminal.ansi.plainExpression p e

end Program

end ContinuationIR
