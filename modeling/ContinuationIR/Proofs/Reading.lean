import ContinuationIR.FreeVariables
import ContinuationIR.Print.Layout
import ContinuationIR.Proofs.Verdicts
import ContinuationIR.Walk.Listing

/-!
# What is read of a tree

Walks, terms and free variables are read off the tables from a node downwards, for as many levels as
there are slots. On a forest that is enough to come to the bottom, so the number of slots does not
matter: two programs that agree on the nodes of a tree and on what these bind and hold read alike
there, whatever else they hold.
-/

namespace ContinuationIR
set_option autoImplicit false

section Except

variable {ε α β : Type}

theorem ok_bind (a : α) (f : α → Except ε β) : (Except.ok a >>= f) = f a := rfl

theorem error_bind (reason : ε) (f : α → Except ε β) :
    (Except.error reason >>= f) = .error reason :=
  rfl

theorem mapM_congr {f g : α → Except ε β} {l : List α}
    (same : ∀ a ∈ l, f a = g a) : l.mapM f = l.mapM g := by
  induction l with
  | nil => rfl
  | cons a l ih =>
    rw [List.mapM_cons, List.mapM_cons, same a List.mem_cons_self,
      ih fun b mem => same b (List.mem_cons_of_mem _ mem)]

end Except

/-- The branches of a case with the default last. -/
def CaseMap.arms (map : CaseMap) (otherwise : Option ExprId) : List (Option Nat × ExprId) :=
  map.branches.map (fun branch => (some branch.1, branch.2)) ++ otherwise.toList.map (none, ·)

/-- The body of every arm is a child of its case. -/
theorem CaseMap.mem_children_of_mem_arms {map : CaseMap} {otherwise : Option ExprId}
    {arm : Option Nat × ExprId} {o : OccId .value} (mem : arm ∈ map.arms otherwise) :
    .expr arm.2 ∈ (Shape.caseOf o map otherwise).children := by
  rcases List.mem_append.1 mem with mem | mem
  · obtain ⟨branch, inside, rfl⟩ := List.mem_map.1 mem
    exact List.mem_append_left _ (List.mem_map.2 ⟨branch, inside, rfl⟩)
  · obtain ⟨e, inside, rfl⟩ := List.mem_map.1 mem
    exact List.mem_append_right _ (List.mem_map.2 ⟨e, inside, rfl⟩)

namespace Program

variable {family : Family} {p q : Program} {n : Node} {inside : Node → Prop} {depth other : Nat}

/-! ## Depth -/

/-- The depth is enough to come to the bottom of the tree of a node. -/
def Enough (p : Program) : Nat → Node → Prop
  | 0, _ => False
  | depth + 1, node => ∀ c ∈ p.childrenOf node, p.Enough depth c

/-- Each level adds to the lineage, which is no longer than there are slots. -/
theorem Forest.enough (f : Forest p) {above : List Node} (lin : Lineage p.enclosing n above)
    (deep : p.nodeSlots < above.length + depth) : p.Enough depth n := by
  induction depth generalizing n above with
  | zero =>
    have := length_le_nodeSlots lin.nodup (hasNode_of_lineage lin)
    simp only [List.length_cons] at this
    omega
  | succ depth ih =>
    intro c mem
    refine ih (.up (f.link mem) lin) ?_
    rw [List.length_cons]
    omega

/-- One step more than there are slots is deep enough for every tree. -/
theorem Forest.enough_nodeSlots (f : Forest p) (live : p.hasNode n = true) :
    p.Enough (p.nodeSlots + 1) n := by
  obtain ⟨above, lin⟩ := f.ends live
  exact f.enough lin (by omega)

/-! ## Reads of single entries -/

theorem script?_expr (p : Program) (e : ExprId) :
    p.script? (.expr e) = (p.shapeOf? e).map p.shapeScript := by
  simp [script?, shapeOf?, Function.comp_def]

theorem script?_defn (p : Program) (d : DefId) :
    p.script? (.defn d) = (p.definitionOf? d).map definitionScript := by
  simp [script?, definitionOf?, Function.comp_def]

theorem fetchShape_eq (p : Program) (e : ExprId) : p.fetchShape e =
    match p.shapeOf? e with
    | some shape => .ok shape
    | none => .error (.stale e) := by
  cases read : p.expressions.get? e <;>
    simp [fetchShape, Slots.fetch, shapeOf?, read, bind, Except.bind, pure, Except.pure]

theorem fetchDefinition_eq (p : Program) (d : DefId) : p.fetchDefinition d =
    match p.definitionOf? d with
    | some definition => .ok definition
    | none => .error (.stale d) := by
  cases read : p.definitions.get? d <;>
    simp [fetchDefinition, Slots.fetch, definitionOf?, read, bind, Except.bind, pure, Except.pure]

theorem isFunction_eq (p : Program) (d : DefId) : p.isFunction d =
    (p.definitionOf? d).any fun definition => definition.header.kind = .function := by
  simp [isFunction, definitionOf?, Option.any_map]

theorem ownName?_defn (p : Program) (d : DefId) :
    p.ownName? family (.defn d) = p.nameOf family d := by
  rw [ownName?, nameOf, definitionOf?]
  cases p.definitions.get? d <;> rfl

/-! ## Agreement on a tree -/

/-- The programs agree on some live nodes and all below: on the nodes themselves, on the occurrences
that they hold and on the names of the variables that they use, bind and are called. -/
structure ReadAlike (p q : Program) (inside : Node → Prop) : Prop where
  live : ∀ {n : Node}, inside n → p.hasNode n = true
  child : ∀ {n c : Node}, inside n → c ∈ p.childrenOf n → inside c
  shape : ∀ {e : ExprId}, inside (.expr e) → q.shapeOf? e = p.shapeOf? e
  definition : ∀ {d : DefId}, inside (.defn d) → q.definitionOf? d = p.definitionOf? d
  use : ∀ {family : Family} {o : OccId family} {n : Node}, inside n → ⟨o⟩ ∈ p.usesOf n →
    ∃ entry, p.occEntry? o = some entry ∧ q.occEntry? o = some entry ∧
      q.namedVar entry.var = p.namedVar entry.var
  binder : ∀ {family : Family} {v : VarId family} {n : Node}, inside n → ⟨v⟩ ∈ p.bindersOf n →
    q.namedVar v = p.namedVar v
  name : ∀ {family : Family} {v : VarId family} {d : DefId}, inside (.defn d) →
    p.nameOf family d = some v → q.namedVar v = p.namedVar v

namespace ReadAlike

variable (h : ReadAlike p q inside)
include h

/-- A node where the programs agree has the same script in both. -/
theorem script?_eq (here : inside n) : q.script? n = p.script? n := by
  cases n with
  | defn d => rw [script?_defn, script?_defn, h.definition here]
  | expr e =>
    rw [script?_expr, script?_expr, h.shape here]
    refine Option.map_congr fun shape read => ?_
    refine shapeScript_congr fun d mem => h.definition (h.child here ?_)
    rw [childrenOf_expr read]
    cases shape <;> simp_all [Shape.members, Shape.children]

theorem hasNode (here : inside n) : q.hasNode n = true := by
  have live := h.live here
  cases n with
  | expr e => rwa [hasNode_expr, h.shape here, ← hasNode_expr]
  | defn d => rwa [hasNode_defn, h.definition here, ← hasNode_defn]

theorem childrenOf_eq (here : inside n) : q.childrenOf n = p.childrenOf n := by
  simp only [childrenOf, scriptOf, h.script?_eq here]

/-! ### Walks -/

/-- A walk meets the same, whatever the depth that it is allowed. -/
theorem eventsBy_eq (here : inside n) (deep : p.Enough depth n) (deep' : q.Enough other n) :
    q.eventsBy none other n = p.eventsBy none depth n := by
  induction depth generalizing other n with
  | zero => exact deep.elim
  | succ depth ih =>
    cases other with
    | zero => exact deep'.elim
    | succ other =>
      simp only [eventsBy, h.script?_eq here, Option.map_none, reduceCtorEq, if_false]
      cases read : p.script? n with
      | none => rfl
      | some script =>
        have below : script.flatMap (Step.expand (q.eventsBy none other) n) =
            script.flatMap (Step.expand (p.eventsBy none depth) n) := by
          refine List.flatMap_congr fun step mem => ?_
          cases step with
          | child c =>
            have child : c ∈ p.childrenOf n :=
              List.mem_filterMap.2 ⟨_, by simpa [scriptOf, read] using mem, rfl⟩
            exact ih (h.child here child) (deep c child)
              (deep' c (by rwa [h.childrenOf_eq here]))
          | _ => rfl
        simp only [below]

/-- A walk from a node of the tree stays in it. -/
theorem inside_of_entered {m : Node} (here : inside n)
    (mem : m ∈ (p.eventsBy none depth n).filterMap Event.entered?) : inside m := by
  induction depth generalizing n with
  | zero => simp [eventsBy, Event.entered?] at mem
  | succ depth ih =>
    rw [entered_eventsBy_succ] at mem
    split at mem
    · simp at mem
    · rcases List.mem_cons.1 mem with rfl | mem
      · exact here
      · obtain ⟨c, child, mem⟩ := List.mem_flatMap.1 mem
        exact ih (h.child here child) mem

/-- What a walk meets as a use is held by a node of the tree. -/
theorem exists_of_used {event : Event} {o : OccId family} (here : inside n)
    (mem : event ∈ p.eventsBy none depth n) (uses : event.use? = some ⟨o⟩) :
    ∃ m, inside m ∧ ⟨o⟩ ∈ p.usesOf m := by
  have found := (eventsBy_perm readsMarks_use p none depth n).mem_iff.1
    (List.mem_filterMap.2 ⟨event, mem, uses⟩)
  obtain ⟨m, entered, held⟩ := List.mem_flatMap.1 found
  exact ⟨m, h.inside_of_entered here entered, held⟩

section Forest

variable (f : Forest p) (g : Forest q)
include f g

/-- The walks over a tree where the programs agree are equal, event by event. -/
theorem events_eq (here : inside n) : q.events n none = p.events n none :=
  h.eventsBy_eq here (f.enough_nodeSlots (h.live here)) (g.enough_nodeSlots (h.hasNode here))

theorem walk_eq {α : Type} (here : inside n) (inspect : Event → Except Fault α) :
    q.walk inspect n none = p.walk inspect n none := by
  rw [← mapM_events, ← mapM_events, h.events_eq f g here]

end Forest

/-! ### Terms -/

/-- An occurrence held where the programs agree reads as the same named use. -/
theorem namedUse_eq {o : OccId family} (here : inside n) (mem : ⟨o⟩ ∈ p.usesOf n) :
    q.namedUse o = p.namedUse o := by
  obtain ⟨entry, read, read', name⟩ := h.use here mem
  simp only [namedUse, fetchOccurrence_ok read, fetchOccurrence_ok read', bind, Except.bind, name]

theorem mapM_namedUse_eq (occurrences : List (OccId family)) (here : inside n)
    (mem : ∀ o ∈ occurrences, ⟨o⟩ ∈ p.usesOf n) :
    occurrences.mapM q.namedUse = occurrences.mapM p.namedUse :=
  mapM_congr fun o listed => h.namedUse_eq here (mem o listed)

theorem namedValue_eq {value : Value (OccId .value)} (here : inside n)
    (mem : ∀ o ∈ value.uses, ⟨o⟩ ∈ p.usesOf n) : q.namedValue value = p.namedValue value := by
  rcases value with literal | source | ⟨tag, fields⟩
  · rfl
  · simp only [namedValue, h.namedUse_eq here (mem source List.mem_cons_self)]
  · simp only [namedValue, h.mapM_namedUse_eq fields here mem]

/-- The header of a definition where the programs agree reads the same. -/
theorem namedHeader_eq {d : DefId} {definition : Definition} (here : inside (.defn d))
    (read : p.definitionOf? d = some definition) :
    q.namedHeader definition.header = p.namedHeader definition.header := by
  have returns (k : VarId .continuation) (eq : definition.header.returnTo? = some k) :
      q.namedVar k = p.namedVar k :=
    h.binder here (by simp [bindersOf_defn read, Definition.binders, eq])
  have named {family : Family} (v : VarId family) (eq : definition.header.name? family = some v) :
      q.namedVar v = p.namedVar v :=
    h.name here (by simp [nameOf, read, eq])
  obtain ⟨header, _, _, _⟩ := definition
  rcases header with k | ⟨name, k, visibility⟩ | name
  · simp only [namedHeader, returns k rfl]
  · simp only [namedHeader, returns k rfl, named name rfl]
  · simp only [namedHeader, named name rfl]

omit h

/-- Members are read alike by readings that agree on each of them. -/
theorem readMembers_congr {one two : DefId → Except Fault Clause} {members : List DefId}
    (same : ∀ d ∈ members, one d = two d) : readMembers one members = readMembers two members := by
  induction members with
  | nil => rfl
  | cons d rest ih =>
    rw [readMembers, readMembers, same d List.mem_cons_self,
      ih fun d mem => same d (List.mem_cons_of_mem _ mem)]

/-- Branches are read alike by readings that agree on each body. -/
theorem readBranches_congr {one two : ExprId → Except Fault Term}
    {branches : List (Option Nat × ExprId)}
    (same : ∀ branch ∈ branches, one branch.2 = two branch.2) :
    readBranches one branches = readBranches two branches := by
  induction branches with
  | nil => rfl
  | cons branch rest ih =>
    obtain ⟨tag, e⟩ := branch
    have first : one e = two e := same (tag, e) List.mem_cons_self
    rw [readBranches, readBranches, first,
      ih fun branch mem => same branch (List.mem_cons_of_mem _ mem)]

include h

section Step

variable {e : ExprId} (here : inside (.expr e))
include here

/-- A binding reads alike when its body does. -/
theorem termBy_letIn_eq {v : VarId .value} {value : Value (OccId .value)} {body : ExprId}
    (read : p.shapeOf? e = some (.letIn v value body))
    (below : q.termBy other body = p.termBy depth body) :
    q.termBy (other + 1) e = p.termBy (depth + 1) e := by
  have bound : q.namedVar v = p.namedVar v :=
    h.binder here (by simp [bindersOf_expr read, shapeBinders])
  have value : q.namedValue value = p.namedValue value :=
    h.namedValue_eq here fun o mem => by simp [usesOf_expr read, Shape.uses, mem]
  simp only [termBy, fetchShape_eq, h.shape here, read, ok_bind, bound, value, below]

/-- A group reads alike when its members and its body do. -/
theorem termBy_group_eq {family : Family} {members : List DefId} {body : ExprId}
    (read : p.shapeOf? e = some (.group family members body))
    (each : ∀ d ∈ members, q.clauseBy other d = p.clauseBy depth d)
    (below : q.termBy other body = p.termBy depth body) :
    q.termBy (other + 1) e = p.termBy (depth + 1) e := by
  simp only [termBy, fetchShape_eq, h.shape here, read, ok_bind, readMembers_congr each, below]

/-- A primitive call reads alike: it has no children. -/
theorem termBy_primitive_eq {operator : Primitive} {arguments : List (OccId .value)}
    {k : OccId .continuation} (read : p.shapeOf? e = some (.primitive operator arguments k)) :
    q.termBy (other + 1) e = p.termBy (depth + 1) e := by
  have arguments := h.mapM_namedUse_eq arguments here fun o mem => by
    simp [usesOf_expr read, Shape.uses, mem]
  have k := h.namedUse_eq (o := k) here (by simp [usesOf_expr read, Shape.uses])
  simp only [termBy, fetchShape_eq, h.shape here, read, ok_bind, arguments, k]

/-- A call of a function reads alike: it has no children. -/
theorem termBy_apply_eq {function : OccId .value} {arguments : List (OccId .value)}
    {k : OccId .continuation} (read : p.shapeOf? e = some (.apply function arguments k)) :
    q.termBy (other + 1) e = p.termBy (depth + 1) e := by
  have function := h.namedUse_eq (o := function) here (by simp [usesOf_expr read, Shape.uses])
  have arguments := h.mapM_namedUse_eq arguments here fun o mem => by
    simp [usesOf_expr read, Shape.uses, mem]
  have k := h.namedUse_eq (o := k) here (by simp [usesOf_expr read, Shape.uses])
  simp only [termBy, fetchShape_eq, h.shape here, read, ok_bind, function, arguments, k]

/-- A jump reads alike: it has no children. -/
theorem termBy_jump_eq {k : OccId .continuation} {arguments : List (OccId .value)}
    (read : p.shapeOf? e = some (.jump k arguments)) :
    q.termBy (other + 1) e = p.termBy (depth + 1) e := by
  have k := h.namedUse_eq (o := k) here (by simp [usesOf_expr read, Shape.uses])
  have arguments := h.mapM_namedUse_eq arguments here fun o mem => by
    simp [usesOf_expr read, Shape.uses, mem]
  simp only [termBy, fetchShape_eq, h.shape here, read, ok_bind, k, arguments]

/-- A case reads alike when the bodies of its arms do. -/
theorem termBy_caseOf_eq {scrutinee : OccId .value} {map : CaseMap} {otherwise : Option ExprId}
    (read : p.shapeOf? e = some (.caseOf scrutinee map otherwise))
    (below : ∀ e', .expr e' ∈ (Shape.caseOf scrutinee map otherwise).children →
      q.termBy other e' = p.termBy depth e') :
    q.termBy (other + 1) e = p.termBy (depth + 1) e := by
  have scrutinee := h.namedUse_eq (o := scrutinee) here (by simp [usesOf_expr read, Shape.uses])
  simp only [termBy, fetchShape_eq, h.shape here, read, ok_bind, scrutinee]
  rw [readBranches_congr]
  exact fun arm mem => below arm.2 (CaseMap.mem_children_of_mem_arms mem)

/-- An expression is read alike if what stands below it is. -/
theorem termBy_succ_eq
    (terms : ∀ e', .expr e' ∈ p.childrenOf (.expr e) → q.termBy other e' = p.termBy depth e')
    (clauses : ∀ d, .defn d ∈ p.childrenOf (.expr e) → q.clauseBy other d = p.clauseBy depth d) :
    q.termBy (other + 1) e = p.termBy (depth + 1) e := by
  cases read : p.shapeOf? e with
  | none => simp only [termBy, fetchShape_eq, h.shape here, read, error_bind]
  | some shape =>
    rw [childrenOf_expr read] at terms clauses
    cases shape with
    | letIn v value body => exact h.termBy_letIn_eq here read (terms body (by simp [Shape.children]))
    | group family members body =>
      refine h.termBy_group_eq here read (fun d mem => clauses d ?_) (terms body ?_)
      · simp [Shape.children, mem]
      · simp [Shape.children]
    | primitive operator arguments k => exact h.termBy_primitive_eq here read
    | apply function arguments k => exact h.termBy_apply_eq here read
    | jump k arguments => exact h.termBy_jump_eq here read
    | caseOf scrutinee map otherwise => exact h.termBy_caseOf_eq here read terms
    | «unreachable» => simp only [termBy, fetchShape_eq, h.shape here, read, ok_bind]

end Step

/-- A definition is read alike if its body is. -/
theorem clauseBy_succ_eq {d : DefId} (here : inside (.defn d))
    (terms : ∀ e, .expr e ∈ p.childrenOf (.defn d) → q.termBy other e = p.termBy depth e) :
    q.clauseBy (other + 1) d = p.clauseBy (depth + 1) d := by
  rw [clauseBy, clauseBy, fetchDefinition_eq, fetchDefinition_eq, h.definition here]
  cases read : p.definitionOf? d with
  | none => rw [error_bind, error_bind]
  | some definition =>
    have parameters : definition.parameters.mapM q.namedVar =
        definition.parameters.mapM p.namedVar := mapM_congr fun v mem =>
      h.binder here (by simp [bindersOf_defn read, Definition.binders, mem])
    simp only [ok_bind, parameters, h.namedHeader_eq here read,
      terms definition.body (by simp [childrenOf_defn read])]

/-- The term of an expression is the same, and so is the clause of a definition, whatever the depth
that reading them is allowed. -/
theorem termBy_eq_and_clauseBy_eq :
    (∀ {e : ExprId}, inside (.expr e) → p.Enough depth (.expr e) → q.Enough other (.expr e) →
      q.termBy other e = p.termBy depth e) ∧
    ∀ {d : DefId}, inside (.defn d) → p.Enough depth (.defn d) → q.Enough other (.defn d) →
      q.clauseBy other d = p.clauseBy depth d := by
  induction depth generalizing other with
  | zero => exact ⟨fun _ deep => deep.elim, fun _ deep => deep.elim⟩
  | succ depth ih =>
    cases other with
    | zero => exact ⟨fun _ _ deep => deep.elim, fun _ _ deep => deep.elim⟩
    | succ other =>
      obtain ⟨term, clause⟩ := @ih other
      constructor
      · intro e here deep deep'
        rw [Enough, h.childrenOf_eq here] at deep'
        exact h.termBy_succ_eq here
          (fun _ mem => term (h.child here mem) (deep _ mem) (deep' _ mem))
          fun _ mem => clause (h.child here mem) (deep _ mem) (deep' _ mem)
      · intro d here deep deep'
        rw [Enough, h.childrenOf_eq here] at deep'
        exact h.clauseBy_succ_eq here fun _ mem =>
          term (h.child here mem) (deep _ mem) (deep' _ mem)

/-! ### Free variables -/

omit h in
theorem eq_of_soundUse {event sound : Event} (ok : p.soundUse event = .ok sound) :
    sound = event := by
  simp only [soundUse, Event.sound] at ok
  split at ok <;> split at ok <;> cases ok <;> rfl

/-- The check of one event gives the same verdict on a tree where the programs agree. -/
theorem soundUse_eq {event : Event} (here : inside n) (mem : event ∈ p.eventsBy none depth n) :
    q.soundUse event = p.soundUse event := by
  cases event with
  | mark site mark =>
    cases mark with
    | use o =>
      obtain ⟨m, inner, held⟩ := h.exists_of_used here mem rfl
      obtain ⟨entry, read, read', -⟩ := h.use inner held
      have live : p.hasOccurrence o = true := Slots.contains_iff.2 ⟨entry, read⟩
      have live' : q.hasOccurrence o = true := Slots.contains_iff.2 ⟨entry, read'⟩
      simp only [soundUse, live, live']
    | _ => rfl
  | _ => rfl

/-- The variables collected from the walk are the same. -/
theorem usedVariables_eq {events : List Event} (here : inside n)
    (sub : ∀ event ∈ events, event ∈ p.eventsBy none depth n) :
    q.usedVariables family events = p.usedVariables family events := by
  refine List.filterMap_congr fun event mem => ?_
  cases used : event.used? family with
  | none => rfl
  | some o =>
    obtain ⟨m, inner, held⟩ :=
      h.exists_of_used here (sub event mem) (Event.used?_eq_some_iff.1 used)
    obtain ⟨entry, read, read', -⟩ := h.use inner held
    simp only [Option.bind_eq_bind, Option.bind_some, read, read']

theorem ownName?_eq (here : inside n) : q.ownName? family n = p.ownName? family n := by
  cases n with
  | expr e => rfl
  | defn d => rw [ownName?_defn, ownName?_defn, nameOf, nameOf, h.definition here]

section Forest

variable (f : Forest p) (g : Forest q)
include f g

/-- The free variables of a tree where the programs agree are the same. -/
theorem freeVariables_eq (here : inside n) : q.freeVariables n = p.freeVariables n := by
  have walks : q.walk q.soundUse n none = p.walk p.soundUse n none := by
    rw [h.walk_eq f g here, ← mapM_events, ← mapM_events]
    exact mapM_congr fun event mem => h.soundUse_eq here mem
  rw [freeVariables, freeVariables, walks]
  cases walked : p.walk p.soundUse n none with
  | error fault => rfl
  | ok events =>
    rw [← mapM_events] at walked
    have sub : ∀ event ∈ events, event ∈ p.events n none := by
      intro event mem
      obtain ⟨met, inner, ok⟩ := exists_of_mapM walked mem
      rwa [eq_of_soundUse ok]
    have free (family : Family) : q.freeIn family n events = p.freeIn family n events := by
      rw [freeIn, freeIn, h.usedVariables_eq here sub, h.ownName?_eq here]
    simp only [bind, Except.bind, free]

/-- The region of a tree where the programs agree is the same. -/
theorem region_eq (here : inside n) : q.region n none = p.region n none := by
  rw [Program.region, Program.region, h.walk_eq f g here]

end Forest

/-! ### The installed tree -/

section Root

variable (f : Forest p) (g : Forest q) (root : q.root = p.root)
  (here : ∀ r, p.root = some r → inside (.defn r))
include f g root here

theorem walkFrom_eq {α : Type} (inspect : Event → Except Fault α) :
    q.walkFrom inspect none = p.walkFrom inspect none := by
  rw [walkFrom, walkFrom, root]
  cases installed : p.root with
  | none => rfl
  | some r => exact h.walk_eq f g (here r installed) inspect

/-- The printed tree is the same under every brush. -/
theorem layout_eq (brush : Text.Brush) : q.layout brush = p.layout brush := by
  rw [layout, layout, root]
  cases installed : p.root with
  | none => rfl
  | some r =>
    have top := here r installed
    have read : q.clause r = p.clause r := h.termBy_eq_and_clauseBy_eq.2 top
      (f.enough_nodeSlots (h.live top)) (g.enough_nodeSlots (h.hasNode top))
    simp only [read]

/-- The functions of the installed tree are the same, and they are among the nodes. -/
theorem functions_eq : q.functions = p.functions ∧
    ∀ ds, p.functions = .ok ds → ∀ d ∈ ds, inside (.defn d) := by
  rw [functions, functions, root]
  cases installed : p.root with
  | none =>
    refine ⟨rfl, ?_⟩
    rintro ds ⟨⟩ d mem
    cases mem
  | some r =>
    have top := here r installed
    simp only [h.region_eq f g top]
    cases walked : p.region (.defn r) none with
    | error fault => exact ⟨rfl, nofun⟩
    | ok region =>
      have inner : ∀ d ∈ region.definitions, inside (.defn d) := by
        intro d mem
        have entered := Region.mem_definitions.1 mem
        rw [Region.nodes, (region_eq_ok_iff.1 walked).1] at entered
        exact h.inside_of_entered top entered
      have kinds : region.definitions.filter q.isFunction =
          region.definitions.filter p.isFunction := by
        refine List.filter_congr fun d mem => ?_
        simp only [isFunction_eq, h.definition (inner d mem)]
      refine ⟨by simp only [bind, Except.bind, kinds], ?_⟩
      rintro ds ⟨⟩ d mem
      exact inner d (List.mem_of_mem_filter mem)

/-- The free variables of the functions of the installed tree are the same. -/
theorem functionFreeVariables_eq : q.functionFreeVariables = p.functionFreeVariables := by
  obtain ⟨same, inner⟩ := h.functions_eq f g root here
  rw [functionFreeVariables, functionFreeVariables, same]
  cases read : p.functions with
  | error fault => rfl
  | ok ds =>
    have free : ds.mapM (fun d => return (d, ← q.freeVariables (.defn d))) =
        ds.mapM fun d => return (d, ← p.freeVariables (.defn d)) :=
      mapM_congr fun d mem => by rw [h.freeVariables_eq f g (inner ds read d mem)]
    simp only [bind, Except.bind] at free ⊢
    rw [free]

end Root

end ReadAlike

end Program

end ContinuationIR
