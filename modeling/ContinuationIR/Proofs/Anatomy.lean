import Mathlib.Data.List.Basic
import ContinuationIR.Call

/-!
# Parts of a node

What a node consists of, read off its script: the nodes directly below it, the variables it binds
and the occurrences it holds. Each part has one equation for each shape, so later proofs speak of
the parts and do not open scripts again.
-/

namespace ContinuationIR
set_option autoImplicit false

/-- An occurrence of either family. -/
structure Use where
  {family : Family}
  occurrence : OccId family
deriving DecidableEq

namespace Step

/-- The child that a step enters. -/
def child? : Step → Option Node
  | .child node => some node
  | _ => none

/-- The variable that a step binds. -/
def binder? : Step → Option Binder
  | .mark (.bind var) => some ⟨var⟩
  | _ => none

/-- The occurrence that a step meets. -/
def use? : Step → Option Use
  | .mark (.use occurrence) => some ⟨occurrence⟩
  | _ => none

@[simp] theorem filterMap_child?_uses {family : Family} (occurrences : List (OccId family)) :
    (uses occurrences).filterMap child? = [] := by
  simp [uses, child?]

@[simp] theorem filterMap_binder?_uses {family : Family} (occurrences : List (OccId family)) :
    (uses occurrences).filterMap binder? = [] := by
  simp [uses, binder?]

@[simp] theorem filterMap_use?_uses {family : Family} (occurrences : List (OccId family)) :
    (uses occurrences).filterMap use? = occurrences.map fun o => ⟨o⟩ := by
  simp [uses, use?, List.filterMap_map, Function.comp_def]

end Step

/-- The nodes directly below an expression. -/
def Shape.children : Shape → List Node
  | .letIn _ _ body => [.expr body]
  | .group _ members body => members.map Node.defn ++ [.expr body]
  | .caseOf _ map otherwise =>
    map.branches.map (fun branch => .expr branch.2) ++ otherwise.toList.map Node.expr
  | .primitive .. | .apply .. | .jump .. | .unreachable => []

/-- The occurrences that an expression holds, of both families. -/
def Shape.uses : Shape → List Use
  | .letIn _ value _ => value.uses.map fun o => ⟨o⟩
  | .primitive _ arguments continuation =>
    (arguments.map fun o => ⟨o⟩) ++ [⟨continuation⟩]
  | .apply function arguments continuation =>
    ((function :: arguments).map fun o => ⟨o⟩) ++ [⟨continuation⟩]
  | .jump continuation arguments => ⟨continuation⟩ :: arguments.map fun o => ⟨o⟩
  | .caseOf scrutinee _ _ => [⟨scrutinee⟩]
  | .group .. | .unreachable => []

/-- The variables that a definition binds: the continuation it returns to and its parameters. -/
def Definition.binders (definition : Definition) : List Binder :=
  (definition.header.returnTo?.toList.map fun k => ⟨k⟩) ++ definition.parameters.map fun v => ⟨v⟩

namespace Program

variable {family : Family}

/-! ## Views of the tables -/

/-- The shape of a live expression. -/
def shapeOf? (p : Program) (e : ExprId) : Option Shape := (p.expressions.get? e).map (·.shape)

/-- A live definition. -/
def definitionOf? (p : Program) (d : DefId) : Option Definition :=
  (p.definitions.get? d).map (·.definition)

/-- The kind of a live variable. -/
def kindOf? (p : Program) (var : VarId family) : Option Kind := (p.varEntry? var).map (·.kind)

/-- The binding that a live variable records. -/
def bindingOf? (p : Program) (var : VarId family) : Option Binding :=
  (p.varEntry? var).bind (·.binding)

/-- The variable is live and its set has the occurrence. -/
def Lists (p : Program) (var : VarId family) (occurrence : OccId family) : Prop :=
  ∃ entry, p.varEntry? var = some entry ∧ occurrence ∈ entry.occurrences

/-- The name that a member brings into its group, if the group is of its kind. -/
def nameOf (p : Program) (family : Family) (d : DefId) : Option (VarId family) :=
  (p.definitionOf? d).bind fun definition => definition.header.name? family

/-- The variables that an expression of the given shape binds. -/
def shapeBinders (p : Program) : Shape → List Binder
  | .letIn var _ _ => [⟨var⟩]
  | .group family members _ => members.filterMap fun d => (p.nameOf family d).map fun v => ⟨v⟩
  | .primitive .. | .apply .. | .jump .. | .caseOf .. | .unreachable => []

/-- The script of a node, empty if the node is dead. -/
def scriptOf (p : Program) (node : Node) : List Step := (p.script? node).getD []

/-- The nodes directly below a node. -/
def childrenOf (p : Program) (node : Node) : List Node := (p.scriptOf node).filterMap Step.child?

/-- The variables that a node binds. -/
def bindersOf (p : Program) (node : Node) : List Binder := (p.scriptOf node).filterMap Step.binder?

/-- The occurrences that a node holds. -/
def usesOf (p : Program) (node : Node) : List Use := (p.scriptOf node).filterMap Step.use?

/-! ## The parts of a script -/

theorem nameStep_child? (p : Program) (family : Family) (d : DefId) :
    (p.nameStep family d).filterMap Step.child? = [] := by
  unfold nameStep
  repeat' split
  all_goals rfl

theorem nameStep_use? (p : Program) (family : Family) (d : DefId) :
    (p.nameStep family d).filterMap Step.use? = [] := by
  unfold nameStep
  repeat' split
  all_goals rfl

/-- What the step for a member binds is its name. -/
theorem nameStep_binder? (p : Program) (family : Family) (d : DefId) :
    (p.nameStep family d).filterMap Step.binder? =
      ((p.nameOf family d).map fun v => (⟨v⟩ : Binder)).toList := by
  unfold nameStep nameOf definitionOf?
  cases p.definitions.get? d with
  | none => rfl
  | some entry =>
    simp only [Option.map_some, Option.bind_some]
    cases entry.definition.header.name? family <;> rfl

/-- The script of an expression descends into its children, in their order. -/
theorem shapeScript_child? (p : Program) (shape : Shape) :
    (p.shapeScript shape).filterMap Step.child? = shape.children := by
  cases shape with
  | group family members body =>
    simp [shapeScript, Shape.children, List.filterMap_flatMap, nameStep_child?, Step.child?,
      List.filterMap_map, Function.comp_def]
  | caseOf scrutinee map otherwise =>
    have branch (tag : Option Nat) (e : ExprId) :
        (Step.branch tag e).filterMap Step.child? = [.expr e] := rfl
    simp [shapeScript, Shape.children, List.filterMap_flatMap, branch, List.map_eq_flatMap]
  | _ => simp [shapeScript, Shape.children, Step.child?, List.filterMap_cons]

/-- The script of an expression meets its occurrences, in their order. -/
theorem shapeScript_use? (p : Program) (shape : Shape) :
    (p.shapeScript shape).filterMap Step.use? = shape.uses := by
  cases shape with
  | group family members body =>
    simp [shapeScript, Shape.uses, List.filterMap_flatMap, nameStep_use?, Step.use?]
  | caseOf scrutinee map otherwise =>
    have branch (tag : Option Nat) (e : ExprId) : (Step.branch tag e).filterMap Step.use? = [] :=
      rfl
    simp [shapeScript, Shape.uses, List.filterMap_flatMap, branch]
  | _ => simp [shapeScript, Shape.uses, Step.use?, List.filterMap_cons]

/-- The script of an expression binds what the shape binds. -/
theorem shapeScript_binder? (p : Program) (shape : Shape) :
    (p.shapeScript shape).filterMap Step.binder? = p.shapeBinders shape := by
  cases shape with
  | group family members body =>
    have entering : (members.map fun d => Step.child (.defn d)).filterMap Step.binder? = [] := by
      simp [Step.binder?]
    have leaving : [Step.child (.expr body)].filterMap Step.binder? = [] := rfl
    simp only [shapeScript, shapeBinders, List.filterMap_append, List.filterMap_flatMap,
      nameStep_binder?, entering, leaving, List.append_nil]
    rw [List.filterMap_eq_flatMap_toList]
  | caseOf scrutinee map otherwise =>
    have branch (tag : Option Nat) (e : ExprId) : (Step.branch tag e).filterMap Step.binder? = [] :=
      rfl
    simp [shapeScript, shapeBinders, List.filterMap_flatMap, branch]
  | _ => simp [shapeScript, shapeBinders, Step.binder?, List.filterMap_cons]

/-- The script of a definition descends into the body. -/
theorem definitionScript_child? (definition : Definition) :
    (definitionScript definition).filterMap Step.child? = [.expr definition.body] := by
  have binding {family : Family} (vars : List (VarId family)) :
      (vars.map fun v => Step.mark (.bind v)).filterMap Step.child? = [] := by
    simp [Step.child?]
  simp only [definitionScript, List.filterMap_append, binding]
  rfl

theorem definitionScript_use? (definition : Definition) :
    (definitionScript definition).filterMap Step.use? = [] := by
  simp [definitionScript, Step.use?, List.filterMap_cons, Function.comp_def]

/-- The script of a definition binds the return continuation and the parameters. -/
theorem definitionScript_binder? (definition : Definition) :
    (definitionScript definition).filterMap Step.binder? = definition.binders := by
  simp [definitionScript, Definition.binders, Step.binder?, List.filterMap_map, Function.comp_def]

/-! ## The parts of a live node -/

/-- Just live nodes have a script. -/
theorem script?_isSome (p : Program) (node : Node) : (p.script? node).isSome = p.hasNode node := by
  cases node <;> simp [script?, hasNode, Slots.contains]

theorem hasNode_expr_iff {p : Program} {e : ExprId} :
    p.hasNode (.expr e) = true ↔ ∃ entry, p.expressions.get? e = some entry :=
  Slots.contains_iff

theorem hasNode_defn_iff {p : Program} {d : DefId} :
    p.hasNode (.defn d) = true ↔ ∃ entry, p.definitions.get? d = some entry :=
  Slots.contains_iff

/-- An expression is live just if it has a shape. -/
theorem hasNode_expr (p : Program) (e : ExprId) : p.hasNode (.expr e) = (p.shapeOf? e).isSome := by
  simp [hasNode, Slots.contains, shapeOf?]

/-- A definition is live just if it has data. -/
theorem hasNode_defn (p : Program) (d : DefId) :
    p.hasNode (.defn d) = (p.definitionOf? d).isSome := by
  simp [hasNode, Slots.contains, definitionOf?]

/-- A variable is live just if it has a kind. -/
theorem hasVariable_eq (p : Program) (var : VarId family) :
    p.hasVariable var = (p.kindOf? var).isSome := by
  simp [hasVariable, Slots.contains, kindOf?, varEntry?]

theorem hasVariable_eq_false {p : Program} {var : VarId family} :
    p.hasVariable var = false ↔ p.varEntry? var = none := by
  simp [hasVariable, Slots.contains, varEntry?]

/-- A dead node has nothing in its script, and so no children, binders and uses. -/
theorem scriptOf_of_dead {p : Program} {node : Node} (dead : p.hasNode node = false) :
    p.scriptOf node = [] := by
  rw [← script?_isSome, Option.isSome_eq_false_iff, Option.isNone_iff_eq_none] at dead
  simp [scriptOf, dead]

theorem childrenOf_of_dead {p : Program} {node : Node} (dead : p.hasNode node = false) :
    p.childrenOf node = [] := by
  simp [childrenOf, scriptOf_of_dead dead]

theorem bindersOf_of_dead {p : Program} {node : Node} (dead : p.hasNode node = false) :
    p.bindersOf node = [] := by
  simp [bindersOf, scriptOf_of_dead dead]

theorem usesOf_of_dead {p : Program} {node : Node} (dead : p.hasNode node = false) :
    p.usesOf node = [] := by
  simp [usesOf, scriptOf_of_dead dead]

section Live

variable {p : Program} {e : ExprId} {d : DefId} {node : Node}

/-- What has a child is live. -/
theorem hasNode_of_child {child : Node} (mem : child ∈ p.childrenOf node) :
    p.hasNode node = true := by
  cases live : p.hasNode node with
  | true => rfl
  | false => simp [childrenOf_of_dead live] at mem

/-- What binds a variable is live. -/
theorem hasNode_of_binder {binder : Binder} (mem : binder ∈ p.bindersOf node) :
    p.hasNode node = true := by
  cases live : p.hasNode node with
  | true => rfl
  | false => simp [bindersOf_of_dead live] at mem

/-- What holds an occurrence is live. -/
theorem hasNode_of_use {use : Use} (mem : use ∈ p.usesOf node) : p.hasNode node = true := by
  cases live : p.hasNode node with
  | true => rfl
  | false => simp [usesOf_of_dead live] at mem

variable {shape : Shape} {definition : Definition}

theorem scriptOf_expr (read : p.shapeOf? e = some shape) :
    p.scriptOf (.expr e) = p.shapeScript shape := by
  obtain ⟨entry, live, rfl⟩ := Option.map_eq_some_iff.1 read
  simp [scriptOf, script?, live]

theorem scriptOf_defn (read : p.definitionOf? d = some definition) :
    p.scriptOf (.defn d) = definitionScript definition := by
  obtain ⟨entry, live, rfl⟩ := Option.map_eq_some_iff.1 read
  simp [scriptOf, script?, live]

/-- The children of a live expression are those of its shape. -/
theorem childrenOf_expr (read : p.shapeOf? e = some shape) :
    p.childrenOf (.expr e) = shape.children := by
  rw [childrenOf, scriptOf_expr read, shapeScript_child?]

/-- The uses of a live expression are those of its shape. -/
theorem usesOf_expr (read : p.shapeOf? e = some shape) : p.usesOf (.expr e) = shape.uses := by
  rw [usesOf, scriptOf_expr read, shapeScript_use?]

/-- The binders of a live expression are those of its shape. -/
theorem bindersOf_expr (read : p.shapeOf? e = some shape) :
    p.bindersOf (.expr e) = p.shapeBinders shape := by
  rw [bindersOf, scriptOf_expr read, shapeScript_binder?]

/-- The one child of a live definition is its body. -/
theorem childrenOf_defn (read : p.definitionOf? d = some definition) :
    p.childrenOf (.defn d) = [.expr definition.body] := by
  rw [childrenOf, scriptOf_defn read, definitionScript_child?]

/-- The binders of a live definition are its return continuation and its parameters. -/
theorem bindersOf_defn (read : p.definitionOf? d = some definition) :
    p.bindersOf (.defn d) = definition.binders := by
  rw [bindersOf, scriptOf_defn read, definitionScript_binder?]

/-- Definitions hold no occurrences. -/
@[simp] theorem usesOf_defn (p : Program) (d : DefId) : p.usesOf (.defn d) = [] := by
  cases read : p.definitionOf? d with
  | none => exact usesOf_of_dead (by simp [hasNode_defn, read])
  | some definition => rw [usesOf, scriptOf_defn read, definitionScript_use?]

/-- Only groups have definitions as children. -/
theorem exists_group_of_child (mem : .defn d ∈ p.childrenOf node) :
    ∃ e family members body, node = .expr e ∧ p.shapeOf? e = some (.group family members body) ∧
      d ∈ members := by
  have live := hasNode_of_child mem
  cases node with
  | defn d' =>
    obtain ⟨definition, read⟩ := Option.isSome_iff_exists.1 (hasNode_defn p d' ▸ live)
    simp [childrenOf_defn read] at mem
  | expr e =>
    obtain ⟨shape, read⟩ := Option.isSome_iff_exists.1 (hasNode_expr p e ▸ live)
    rw [childrenOf_expr read] at mem
    cases shape with
    | group family members body =>
      exact ⟨e, family, members, body, rfl, read, by simpa [Shape.children] using mem⟩
    | _ => simp [Shape.children] at mem

end Live

/-! ## What a script depends on -/

section Congruence

variable {p q : Program} {e : ExprId} {d : DefId}

/-- Besides the shape, a script depends on the members of groups, whose names it binds. -/
theorem shapeScript_congr {shape : Shape}
    (members : ∀ d ∈ shape.members, q.definitionOf? d = p.definitionOf? d) :
    q.shapeScript shape = p.shapeScript shape := by
  have step {family : Family} {d : DefId} (same : q.definitionOf? d = p.definitionOf? d) :
      q.nameStep family d = p.nameStep family d := by
    unfold definitionOf? at same
    unfold nameStep
    cases one : q.definitions.get? d <;> cases two : p.definitions.get? d <;>
      simp_all
  cases shape with
  | group family ms body =>
    simp only [shapeScript]
    congr 2
    exact List.flatMap_congr fun d mem => step (members d mem)
  | _ => rfl

/-- An expression keeps its script if it keeps its shape and its members stay. -/
theorem scriptOf_expr_congr (same : q.shapeOf? e = p.shapeOf? e)
    (members : ∀ d, .defn d ∈ p.childrenOf (.expr e) → q.definitionOf? d = p.definitionOf? d) :
    q.scriptOf (.expr e) = p.scriptOf (.expr e) := by
  cases read : p.shapeOf? e with
  | none => rw [scriptOf_of_dead, scriptOf_of_dead] <;> simp [hasNode_expr, same, read]
  | some shape =>
    rw [scriptOf_expr read, scriptOf_expr (same.trans read), shapeScript_congr]
    intro d mem
    refine members d ?_
    rw [childrenOf_expr read]
    cases shape with
    | group family ms body => simpa [Shape.children, Shape.members] using mem
    | _ => simp [Shape.members] at mem

/-- A definition keeps its script if it stays. -/
theorem scriptOf_defn_congr (same : q.definitionOf? d = p.definitionOf? d) :
    q.scriptOf (.defn d) = p.scriptOf (.defn d) := by
  cases read : p.definitionOf? d with
  | none => rw [scriptOf_of_dead, scriptOf_of_dead] <;> simp [hasNode_defn, same, read]
  | some definition => rw [scriptOf_defn read, scriptOf_defn (same.trans read)]

end Congruence

/-- A node binds a variable just if its script does. -/
theorem mem_bindersOf {p : Program} {n : Node} {v : VarId family} :
    ⟨v⟩ ∈ p.bindersOf n ↔ .mark (.bind v) ∈ p.scriptOf n := by
  rw [bindersOf, List.mem_filterMap]
  constructor
  · rintro ⟨step, mem, binds⟩
    cases step with
    | mark m => cases m <;> cases binds; exact mem
    | _ => cases binds
  · exact fun mem => ⟨_, mem, rfl⟩

/-- A node holds an occurrence just if its script meets it. -/
theorem mem_usesOf {p : Program} {n : Node} {o : OccId family} :
    ⟨o⟩ ∈ p.usesOf n ↔ .mark (.use o) ∈ p.scriptOf n := by
  rw [usesOf, List.mem_filterMap]
  constructor
  · rintro ⟨step, mem, uses⟩
    cases step with
    | mark m => cases m <;> cases uses; exact mem
    | _ => cases uses
  · exact fun mem => ⟨_, mem, rfl⟩

/-- The binders of one family are those that the checker takes out of scope. -/
theorem mem_boundAt {p : Program} {node : Node} {var : VarId family} :
    var ∈ p.boundAt family node ↔ ⟨var⟩ ∈ p.bindersOf node := by
  simp only [boundAt, bindersOf, scriptOf, List.mem_filterMap]
  refine exists_congr fun step => and_congr_right fun _ => ?_
  cases step with
  | child _ => simp [Step.binder?]
  | broken _ => simp [Step.binder?]
  | mark m =>
    cases m with
    | @bind other _ => cases family <;> cases other <;> simp [Event.bound?, Step.binder?]
    | _ => cases family <;> simp [Event.bound?, Step.binder?]

end Program

end ContinuationIR
