import ContinuationIR.Proofs.Resolution

/-!
# Consistent programs

What holds of the tables between calls, for pending trees as for the installed one: the nodes form a
forest, occurrences and variables point at each other and at the nodes that hold and bind them, and
each node obeys the rules for it on its own. Scoping is only asked of the installed tree, since a
pending tree may use variables that are bound when it is put in its place.
-/

namespace ContinuationIR
set_option autoImplicit false

namespace Program

/-- The role that a node gives the variables of a family it binds. -/
def roleAt (p : Program) (family : Family) : Node → BinderRole
  | .expr e => if (p.groupOf (.expr e)).isSome then .groupName else .letVariable
  | .defn _ =>
    match family with
    | .value => .parameter
    | .continuation => .returnContinuation

/-- Each live occurrence is held once, by its holder, and listed with its variable and no other. -/
structure UsesIndexed (p : Program) : Prop where
  holder : ∀ {family : Family} {o : OccId family} {node : Node}, ⟨o⟩ ∈ p.usesOf node →
    ∃ entry, p.occEntry? o = some entry ∧ node = .expr entry.holder
  held : ∀ {family : Family} {o : OccId family} {entry : OccurrenceEntry family},
    p.occEntry? o = some entry → ⟨o⟩ ∈ p.usesOf (.expr entry.holder)
  once : ∀ node : Node, (p.usesOf node).Nodup
  listed : ∀ {family : Family} {o : OccId family} {entry : OccurrenceEntry family},
    p.occEntry? o = some entry → p.Lists entry.var o
  refers : ∀ {family : Family} {v : VarId family} {o : OccId family}, p.Lists v o →
    ∃ entry, p.occEntry? o = some entry ∧ entry.var = v

/-- A variable that a node binds is live and records that node, and it is bound nowhere else. -/
structure BindersIndexed (p : Program) : Prop where
  binding : ∀ {family : Family} {v : VarId family} {node : Node}, ⟨v⟩ ∈ p.bindersOf node →
    ∃ role, p.bindingOf? v = some ⟨node, role⟩
  site : ∀ {family : Family} {v : VarId family} {b : Binding}, p.bindingOf? v = some b →
    ⟨v⟩ ∈ p.bindersOf b.site
  once : ∀ node : Node, (p.bindersOf node).Nodup

/-- A live node obeys the rules for it on its own. -/
def Obeys (p : Program) : Node → Prop
  | .expr e => ∀ shape, p.shapeOf? e = some shape → p.shapeViolations e shape = []
  | .defn d => ∀ definition, p.definitionOf? d = some definition →
      p.definitionViolations d definition = []

/-- The installed root is live and nothing encloses it. -/
def RootStands (p : Program) : Prop :=
  ∀ r, p.root = some r → p.enclosing (.defn r) = .ok none

/-- What the checker compares of the tables, scoping apart: the nodes form a forest, the indexes of
uses and binders are right, the rules are obeyed and the root stands at the top of its tree. -/
structure Coherent (p : Program) : Prop where
  forest : Forest p
  uses : UsesIndexed p
  binders : BindersIndexed p
  obey : ∀ node, Obeys p node
  root : RootStands p

/-- Every occurrence of the installed tree is in scope and has the recursivity of its place. -/
def Scoped (p : Program) : Prop :=
  ∀ {family : Family} {o : OccId family} {entry : OccurrenceEntry family},
    p.occEntry? o = some entry → p.isAttached (.expr entry.holder) = .ok true →
      p.resolve none entry.var entry.holder = .ok entry.recursivity

/-- A variable whose site is a group is recorded as the name of a member. Of the recorded roles this is
all that matters to scoping. -/
def NamesMarked (p : Program) : Prop :=
  ∀ {family : Family} {v : VarId family} {b : Binding}, p.bindingOf? v = some b →
    (p.groupOf b.site).isSome = true → b.role = .groupName

/-- The recorded roles are those of the sites. -/
def RolesRecorded (p : Program) : Prop :=
  ∀ {family : Family} {v : VarId family} {b : Binding}, p.bindingOf? v = some b →
    b.role = p.roleAt family b.site

/-- No group is without members. -/
def Peopled (p : Program) : Prop :=
  ∀ {e : ExprId} {family : Family} {members : List DefId} {body : ExprId},
    p.shapeOf? e = some (.group family members body) → members ≠ []

/-- The installed root is a root definition. -/
def RootKind (p : Program) : Prop :=
  ∀ r, p.root = some r → ∃ definition, p.definitionOf? r = some definition ∧
    definition.header.kind = .root

/-- The invariant of all calls. -/
structure Consistent (p : Program) : Prop extends Coherent p where
  inScope : Scoped p
  roles : RolesRecorded p
  peopled : Peopled p
  rootKind : RootKind p

/-- The empty program has nothing in it that could be wrong. -/
theorem empty_consistent (verifying : Bool) : Consistent (.empty verifying) := by
  have dead (node : Node) : (Program.empty verifying).hasNode node = false := by
    cases node <;> simp [hasNode, empty, Slots.contains]
  have noVar {family : Family} (v : VarId family) : varEntry? (Program.empty verifying) v = none := by
    cases family <;> simp [empty, varEntry?, table, VariableTable.empty]
  have noOcc {family : Family} (o : OccId family) :
      occEntry? (Program.empty verifying) o = none := by
    cases family <;> simp [empty, occEntry?, table, VariableTable.empty]
  exact {
    forest := by
      constructor <;> simp [childrenOf_of_dead (dead _), enclosing_of_dead (dead _), dead]
    uses := by
      constructor <;> simp [usesOf_of_dead (dead _), noOcc, Lists, noVar]
    binders := by
      constructor <;> simp [bindersOf_of_dead (dead _), bindingOf?, noVar]
    obey := by
      rintro (e | d) <;> simp [Obeys, shapeOf?, definitionOf?, empty]
    root := by simp [RootStands, empty]
    inScope := by simp [Scoped, noOcc]
    roles := by simp [RolesRecorded, bindingOf?, noVar]
    peopled := by simp [Peopled, shapeOf?, empty]
    rootKind := by simp [RootKind, empty] }

section Facts

variable {family : Family} {p : Program} {node : Node}

/-- A variable with a binding is live. -/
theorem hasVariable_of_bindingOf? {v : VarId family} {b : Binding}
    (bound : p.bindingOf? v = some b) : p.hasVariable v = true := by
  obtain ⟨entry, read, -⟩ := Option.bind_eq_some_iff.1 bound
  exact Slots.contains_iff.2 ⟨entry, read⟩

/-- An occurrence stands in the node that its entry names. -/
theorem UsesIndexed.eq_holder (u : UsesIndexed p) {o : OccId family} {entry : OccurrenceEntry family}
    (read : p.occEntry? o = some entry) (holds : ⟨o⟩ ∈ p.usesOf node) :
    node = .expr entry.holder := by
  obtain ⟨entry', read', same⟩ := u.holder holds
  rw [read] at read'
  cases read'
  exact same

/-- The set of a live variable has the occurrences that refer to it. -/
theorem UsesIndexed.mem_iff (u : UsesIndexed p) {v : VarId family} {o : OccId family}
    {entry : VariableEntry family} (read : p.varEntry? v = some entry) :
    o ∈ entry.occurrences ↔ ∃ use, p.occEntry? o = some use ∧ use.var = v := by
  constructor
  · exact fun mem => u.refers ⟨entry, read, mem⟩
  · rintro ⟨use, found, rfl⟩
    obtain ⟨entry', read', mem⟩ := u.listed found
    rw [read] at read'
    cases read'
    exact mem

namespace BindersIndexed

/-- What a node binds is live. -/
theorem hasVariable (b : BindersIndexed p) {v : VarId family} (mem : ⟨v⟩ ∈ p.bindersOf node) :
    p.hasVariable v = true := by
  obtain ⟨role, bound⟩ := b.binding mem
  exact hasVariable_of_bindingOf? bound

/-- A variable is bound by at most one node. -/
theorem site_unique (b : BindersIndexed p) {v : VarId family} {n m : Node}
    (one : ⟨v⟩ ∈ p.bindersOf n) (two : ⟨v⟩ ∈ p.bindersOf m) : n = m := by
  obtain ⟨role, bound⟩ := b.binding one
  obtain ⟨role', bound'⟩ := b.binding two
  rw [bound] at bound'
  cases bound'
  rfl

/-- The site of a bound variable is the node that binds it. -/
theorem mem_iff (b : BindersIndexed p) {v : VarId family} {binding : Binding}
    (bound : p.bindingOf? v = some binding) (n : Node) :
    ⟨v⟩ ∈ p.bindersOf n ↔ n = binding.site := by
  constructor
  · exact fun mem => b.site_unique mem (b.site bound)
  · rintro rfl
    exact b.site bound

end BindersIndexed

theorem Coherent.hasVariable_of_let (c : Coherent p) {e : ExprId} {v : VarId .value}
    {value : Value (OccId .value)} {body : ExprId}
    (read : p.shapeOf? e = some (.letIn v value body)) : p.hasVariable v = true := by
  have binds : ⟨v⟩ ∈ p.bindersOf (.expr e) := by
    rw [bindersOf_expr read]
    simp [shapeBinders]
  exact c.binders.hasVariable binds

/-- An expression node that binds is a let or a group, so a name of a group is told by its role. -/
theorem roleAt_eq_groupName_iff : p.roleAt family node = .groupName ↔
    (p.groupOf node).isSome = true := by
  cases node with
  | expr e => by_cases group : (p.groupOf (.expr e)).isSome <;> simp [roleAt, group]
  | defn d => cases family <;> simp [roleAt, groupOf]

theorem RolesRecorded.marked (roles : RolesRecorded p) : NamesMarked p := by
  intro family v b bound group
  rwa [roles bound, roleAt_eq_groupName_iff]

/-- Calls record the names of members as such. -/
theorem Consistent.marked (c : Consistent p) : NamesMarked p := RolesRecorded.marked c.roles

/-- The installed tree is the tree of the root, which can only stand at the end of a lineage. -/
theorem isAttached_iff (f : Forest p) (root : RootStands p) (live : p.hasNode node = true) :
    p.isAttached node = .ok true ↔ ∃ r, p.root = some r ∧ p.Within (.defn r) node := by
  obtain ⟨above, lin⟩ := f.ends live
  rw [isAttached_eq lin]
  simp only [Except.ok.injEq, isRoot, decide_eq_true_eq, Option.map_eq_some_iff]
  refine exists_congr fun r => and_congr_right fun installed => ?_
  rw [within_iff lin]
  constructor
  · intro last
    rw [last]
    cases above with
    | nil => simp
    | cons n rest =>
      rw [List.getLastD_cons]
      exact List.mem_cons_of_mem _ (List.getLastD_mem_cons ..)
  · intro mem
    have link := root r installed
    rcases List.mem_cons.1 mem with rfl | mem
    · cases lin with
      | top _ => rfl
      | up h _ => rw [link] at h; cases h
    · obtain ⟨front, back, rfl⟩ := List.append_of_mem mem
      cases lin.drop rfl with
      | top _ => simp
      | up h _ => rw [link] at h; cases h

/-- Of dead nodes it is not said whether they are attached. -/
theorem hasNode_of_isAttached {b : Bool} (attached : p.isAttached node = .ok b) :
    p.hasNode node = true := by
  cases live : p.hasNode node with
  | true => rfl
  | false =>
    simp [isAttached, ancestors, climb, climbBy, enclosing_of_dead live, bind, Except.bind]
      at attached

/-- On a forest it is always decided whether a node is attached. -/
theorem isAttached_eq_true_or_false (f : Forest p) (live : p.hasNode node = true) :
    p.isAttached node = .ok true ∨ p.isAttached node = .ok false := by
  obtain ⟨above, lin⟩ := f.ends live
  rw [isAttached_eq lin]
  cases p.isRoot (above.getLastD node) <;> simp

end Facts

/-! ## The installed tree -/

section Attached

variable {p : Program} {n head : Node}

/-- The root is in no tree but its own. -/
theorem RootStands.eq_of_within (root : RootStands p) {d : DefId} (installed : p.root = some d)
    (within : p.Within n (.defn d)) : n = .defn d := by
  simpa using (within_iff (.top (root d installed))).1 within

/-- Of the heads of trees only the root is attached. -/
theorem isRoot_of_attached (attached : p.isAttached n = .ok true)
    (top : p.enclosing n = .ok none) : p.isRoot n = true := by
  simpa [isAttached_eq (.top top)] using attached

/-- Every attached expression has something around it. -/
theorem exists_parent_of_attached {e : ExprId} (attached : p.isAttached (.expr e) = .ok true) :
    ∃ parent, p.enclosing (.expr e) = .ok (some parent) := by
  obtain ⟨link, linked⟩ := enclosing_ok_iff_hasNode.2 (hasNode_of_isAttached attached)
  cases link with
  | some parent => exact ⟨parent, linked⟩
  | none => simpa [isRoot] using isRoot_of_attached attached linked

namespace Coherent

variable (c : Coherent p)
include c

/-- A node is attached if it lies in the tree of the installed root. -/
theorem attached_iff : p.isAttached n = .ok true ↔
    ∃ r, p.root = some r ∧ p.Within (.defn r) n := by
  constructor
  · exact fun attached => (isAttached_iff c.forest c.root (hasNode_of_isAttached attached)).1 attached
  · intro inside
    obtain ⟨r, -, within⟩ := id inside
    exact (isAttached_iff c.forest c.root within.hasNode).2 inside

/-- A live node is attached or it is not. -/
theorem unattached_iff (live : p.hasNode n = true) :
    p.isAttached n = .ok false ↔ p.isAttached n ≠ .ok true := by
  rcases isAttached_eq_true_or_false c.forest live with yes | no
  · simp [yes]
  · simp [no]

/-- The root is attached. -/
theorem attached_root {r : DefId} (root : p.root = some r) : p.isAttached (.defn r) = .ok true :=
  c.attached_iff.2 ⟨r, root, c.forest.within_self (hasNode_of_enclosing (c.root r root))⟩

/-- What stands below an attached node is attached. -/
theorem attached_below (attached : p.isAttached head = .ok true) (within : p.Within head n) :
    p.isAttached n = .ok true := by
  obtain ⟨r, root, inside⟩ := c.attached_iff.1 attached
  exact c.attached_iff.2 ⟨r, root, inside.trans within⟩

/-- What stands above an attached node is attached. -/
theorem attached_above (attached : p.isAttached n = .ok true) (within : p.Within head n) :
    p.isAttached head = .ok true := by
  obtain ⟨r, root, inside⟩ := c.attached_iff.1 attached
  rcases inside.comparable within with below | above
  · exact c.attached_iff.2 ⟨r, root, below⟩
  · rw [c.root.eq_of_within root above]
    exact c.attached_root root

end Coherent

end Attached

/-! ## What the rules for single nodes depend on -/

section Rules

variable {p q : Program} {e : ExprId} {d : DefId}

theorem groupOf_expr (p : Program) (e : ExprId) : p.groupOf (.expr e) =
    match p.shapeOf? e with
    | some (.group ..) => some e
    | _ => none := by
  rcases read : p.expressions.get? e with _ | ⟨shape, _⟩
  · simp [groupOf, shapeOf?, read]
  · cases shape <;> simp [groupOf, shapeOf?, read]

/-- Whether an expression is a group depends on its shape. -/
theorem groupOf_congr (same : q.shapeOf? e = p.shapeOf? e) :
    q.groupOf (.expr e) = p.groupOf (.expr e) := by
  rw [groupOf_expr, groupOf_expr, same]

/-- A definition that stands below a node is a member of a group. -/
theorem Forest.group_of_definition (f : Forest p) {n : Node}
    (link : p.enclosing (.defn d) = .ok (some n)) : (p.groupOf n).isSome = true := by
  obtain ⟨e, family, members, body, rfl, read, -⟩ := exists_group_of_child (f.listed link)
  rw [groupOf_expr, read]
  rfl

/-- Whether a definition hides the continuations around it depends on its header. -/
theorem stopsContinuations_defn (p : Program) (d : DefId) : p.stopsContinuations (.defn d) =
    match p.definitionOf? d with
    | some definition => .ok definition.header.isFunctionBoundary
    | none => .error (.stale d) := by
  cases read : p.definitions.get? d <;>
    simp [stopsContinuations, fetchDefinition, Slots.fetch, definitionOf?, read, bind, Except.bind,
      pure, Except.pure]

/-- Whether the node is a definition that hides the continuations around it. -/
def isBoundary (p : Program) : Node → Bool
  | .expr _ => false
  | .defn d => (p.definitionOf? d).any (·.header.isFunctionBoundary)

/-- Live nodes stop continuations just if they are boundaries. -/
theorem stopsContinuations_eq {n : Node} (live : p.hasNode n = true) :
    p.stopsContinuations n = .ok (p.isBoundary n) := by
  cases n with
  | expr e => rfl
  | defn d =>
    obtain ⟨definition, read⟩ := Option.isSome_iff_exists.1 (hasNode_defn p d ▸ live)
    simp [stopsContinuations_defn, isBoundary, read]

theorem hasNode_of_isBoundary {n : Node} (boundary : p.isBoundary n = true) : p.hasNode n = true := by
  cases n with
  | expr e => cases boundary
  | defn d =>
    rw [hasNode_defn]
    cases read : p.definitionOf? d with
    | none => simp [isBoundary, read] at boundary
    | some definition => rfl

theorem stopsContinuations_congr (same : q.definitionOf? d = p.definitionOf? d) :
    q.stopsContinuations (.defn d) = p.stopsContinuations (.defn d) := by
  rw [stopsContinuations_defn, stopsContinuations_defn, same]

/-- The kind at an occurrence is that of its variable. -/
theorem kindAt?_eq (p : Program) (o : OccId .value) :
    p.kindAt? o = (p.occEntry? o).bind fun entry => p.kindOf? entry.var := by
  simp only [kindAt?, kindOf?]
  cases p.occEntry? o with
  | none => rfl
  | some entry => cases found : p.varEntry? entry.var <;> simp [bind, Option.bind, found]

/-- A let is judged by the kind of its variable. -/
theorem letViolations_eq (p : Program) (e : ExprId) (v : VarId .value)
    (value : Value (OccId .value)) :
    p.letViolations e v value =
      match p.kindOf? v with
      | none => []
      | some kind => if p.holds kind value then [] else [.incompatibleValue e v] := by
  unfold letViolations kindOf?
  cases p.varEntry? v <;> rfl

/-- A group is judged by the headers of its live members. -/
theorem groupViolations_eq (p : Program) (e : ExprId) (family : Family) (members : List DefId) :
    p.groupViolations e family members = members.filterMap fun d =>
      match p.definitionOf? d with
      | none => none
      | some definition =>
        if definition.header.kind = family.memberKind then none
        else some (.misplacedDefinition d e) := by
  unfold groupViolations definitionOf?
  congr 1
  funext d
  cases p.definitions.get? d <;> rfl

/-- The rules for an expression read kinds of variables and headers of members only. -/
theorem shapeViolations_congr {shape : Shape}
    (binders : ∀ v : VarId .value, ⟨v⟩ ∈ p.shapeBinders shape → q.kindOf? v = p.kindOf? v)
    (uses : ∀ o : OccId .value, ⟨o⟩ ∈ shape.uses → q.kindAt? o = p.kindAt? o)
    (members : ∀ d ∈ shape.members, q.definitionOf? d = p.definitionOf? d) :
    q.shapeViolations e shape = p.shapeViolations e shape := by
  cases shape with
  | letIn v value body =>
    have holds (kind : Kind) : q.holds kind value = p.holds kind value := by
      rcases value with _ | o | _
      · rfl
      · simp only [Program.holds, uses o (by simp [Shape.uses, Value.uses])]
      · rfl
    simp only [shapeViolations, letViolations_eq, binders v (by simp [shapeBinders]), holds]
  | caseOf scrutinee map otherwise =>
    simp only [shapeViolations, caseViolations, uses scrutinee (by simp [Shape.uses])]
  | group family ms body =>
    simp only [shapeViolations, groupViolations_eq]
    refine List.filterMap_congr fun d mem => ?_
    rw [members d mem]
  | _ => rfl

/-- A type fits if it has a kind for each parameter, and the right one. -/
theorem fitsType_iff {definition : Definition} : p.fitsType definition = true ↔
    definition.parameters.length = definition.type.parameters.length ∧
      ∀ v kind, (v, kind) ∈ definition.parameters.zip definition.type.parameters →
        ∀ found, p.kindOf? v = some found → found = kind := by
  simp only [fitsType, Bool.and_eq_true, decide_eq_true_eq, List.all_eq_true, Prod.forall]
  refine and_congr_right fun _ => forall_congr' fun v => forall_congr' fun kind =>
    forall_congr' fun _ => ?_
  unfold kindOf?
  cases p.varEntry? v <;> simp

/-- The rule for a definition reads the kinds of its parameters only. -/
theorem definitionViolations_congr {definition : Definition}
    (parameters : ∀ v ∈ definition.parameters, q.kindOf? v = p.kindOf? v) :
    q.definitionViolations d definition = p.definitionViolations d definition := by
  have same : q.fitsType definition = p.fitsType definition := by
    rw [Bool.eq_iff_iff, fitsType_iff, fitsType_iff]
    refine and_congr_right fun _ => forall_congr' fun v => forall_congr' fun kind =>
      forall_congr' fun mem => ?_
    rw [parameters v (List.of_mem_zip mem).1]
  simp only [definitionViolations, same]

end Rules

end Program

end ContinuationIR
