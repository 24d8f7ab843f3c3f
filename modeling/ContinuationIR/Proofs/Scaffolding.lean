import ContinuationIR.Proofs.Contraction
import ContinuationIR.Proofs.Lifetimes

/-!
# Building and discarding

Nodes that are built apart take none of the nodes that were there as children and bind none of the
variables that were there, but they may use them. If all of them end up in one pending tree, the tree
can be discarded, whatever is used in it, and then everything that was there is as it was. What is left
over are new variables, which are neither bound nor used.
-/

namespace ContinuationIR
set_option autoImplicit false

/-! ## What a call makes its node of -/

/-- The nodes that a call puts below the node that it makes. -/
def Call.children : Call → List Node
  | .letIn _ _ body | .function _ _ _ _ _ body | .continuation _ _ body | .root _ _ _ body =>
    [.expr body]
  | .group _ members body => Program.groupChildren members body
  | .caseOf _ branches otherwise => Program.caseChildren branches otherwise
  | _ => []

/-- The variables that a call binds at the node that it makes. -/
def Program.boundBy (p : Program) : Call → List Binder
  | .letIn var _ _ => [⟨var⟩]
  | .group family members _ => members.filterMap fun d => (p.nameOf family d).map fun v => ⟨v⟩
  | .function _ returnTo parameters _ _ _ | .root returnTo parameters _ _ =>
    ⟨returnTo⟩ :: parameters.map fun v => ⟨v⟩
  | .continuation _ parameters _ => parameters.map fun v => ⟨v⟩
  | _ => []

namespace Edit

variable {α β : Type}

/-- Whatever the edit answers fits. -/
def Yields (fits : α → Prop) (edit : Edit α) : Prop := ∀ p a, (edit p).1 = .ok a → fits a

theorem yields_pure {fits : α → Prop} {a : α} (holds : fits a) : (pure a : Edit α).Yields fits := by
  rintro p _ ⟨⟩
  exact holds

theorem yields_bind {fits : β → Prop} {edit : Edit α} {next : α → Edit β}
    (each : ∀ a, (next a).Yields fits) : (edit >>= next).Yields fits := by
  intro p b ok
  change (Edit.andThen edit next p).1 = .ok b at ok
  unfold Edit.andThen at ok
  rcases run : edit p with ⟨_ | a, q⟩
  · rw [run] at ok
    cases ok
  · rw [run] at ok
    exact each a q b ok

end Edit

namespace Program

variable {family : Family} {p q r : Program} {call : Call} {answer : Answer} {n : Node}

/-- The shape is that of a node that the call makes. -/
def Suits (call : Call) (shape : Shape) : Prop :=
  (∀ c, c ∈ shape.children ↔ c ∈ call.children) ∧ ∀ p : Program, p.shapeBinders shape = p.boundBy call

/-- A call that builds an expression and succeeds leaves one of the shapes its writes yield. -/
theorem exists_shape_of_build {β : Type} {validation : Except (Failure BuildError) β}
    {write : β → ExprId → Edit Shape} {fits : Shape → Prop}
    (yields : ∀ b, validation = .ok b → ∀ e, (write b e).Yields fits)
    (ok : (built (.commit p validation fun b => p.build (write b))).result = .ok answer) :
    ∃ e shape, answer = .ofHandle e ∧ fits shape ∧
      (built (.commit p validation fun b => p.build (write b))).program.shapeOf? e = some shape := by
  cases validation with
  | error failure => cases ok
  | ok b =>
    unfold Outcome.commit build Outcome.after at ok ⊢
    have holds := yields b rfl p.expressions.next p
    rcases run : write b p.expressions.next p with ⟨fault | shape, q⟩
    · simp only [run] at ok
      cases ok
    · simp only [run] at ok holds ⊢
      by_cases next : q.expressions.next = p.expressions.next
      · rw [addExpression_of_next next] at ok ⊢
        cases ok
        refine ⟨p.expressions.next, shape, rfl, holds shape rfl, ?_⟩
        simp [built, Outcome.map, shapeOf?, ← next]
      · simp only [built, Outcome.map, addExpression, next, if_false] at ok
        cases ok

theorem exists_definition_of_add {β : Type} {validation : Except (Failure BuildError) β}
    {definition : β → Definition}
    (ok : (built (.commit p validation fun b => p.addDefinition (definition b))).result =
      .ok answer) :
    ∃ d b, answer = .ofHandle d ∧
      (built (.commit p validation fun b => p.addDefinition (definition b))).program.definitionOf? d =
        some (definition b) := by
  cases validation with
  | error failure => cases ok
  | ok b =>
    unfold Outcome.commit addDefinition Outcome.after at ok ⊢
    rcases run : writeDefinition (definition b) p.definitions.next p with ⟨fault | _, q⟩
    · simp only [run] at ok
      cases ok
    · simp only [run] at ok ⊢
      cases ok
      refine ⟨q.definitions.next, b, rfl, ?_⟩
      simp [built, Outcome.map, definitionOf?]

/-- The branches of an accepted case are the given ones, in some order. -/
theorem perm_of_checkCaseOf {scrutinee : Mention .value} {branches : List (Nat × ExprId)}
    {otherwise : Option ExprId} {map : CaseMap}
    (accepted : p.checkCaseOf scrutinee branches otherwise = .ok map) :
    map.branches.Perm branches := by
  simp only [checkCaseOf, bind_eq_ok, pure_eq_ok] at accepted
  obtain ⟨⟨⟩, -, ⟨⟩, -, map', ordered, _, -, ⟨⟩, -, rfl⟩ := accepted
  cases made : CaseMap.ofBranches? branches with
  | error reason =>
    rw [made] at ordered
    cases ordered
  | ok map =>
    rw [made] at ordered
    cases ordered
    exact (CaseMap.ofBranches?_eq_ok made).1

open Edit in
/-- What a call that makes an expression answers has the shape that the call asks for. -/
theorem exists_shape (makes : call.creates = some .expression)
    (ok : (p.perform call).result = .ok answer) : ∃ e shape, answer = .ofHandle e ∧
      Suits call shape ∧ (p.perform call).program.shapeOf? e = some shape := by
  cases call with
  | letIn v value body =>
    refine exists_shape_of_build (fun _ _ e => ?_) ok
    exact yields_bind fun _ => yields_bind fun _ => yields_bind fun _ =>
      yields_pure ⟨fun _ => Iff.rfl, fun _ => rfl⟩
  | group family members body =>
    refine exists_shape_of_build (fun _ _ e => ?_) ok
    exact yields_bind fun _ => yields_bind fun _ => yields_pure ⟨fun _ => Iff.rfl, fun _ => rfl⟩
  | primitive operator arguments continuation =>
    refine exists_shape_of_build (fun _ _ e => ?_) ok
    exact yields_bind fun _ => yields_bind fun _ => yields_pure ⟨fun _ => Iff.rfl, fun _ => rfl⟩
  | apply function arguments continuation =>
    refine exists_shape_of_build (fun _ _ e => ?_) ok
    exact yields_bind fun _ => yields_bind fun _ => yields_bind fun _ =>
      yields_pure ⟨fun _ => Iff.rfl, fun _ => rfl⟩
  | jump continuation arguments =>
    refine exists_shape_of_build (fun _ _ e => ?_) ok
    exact yields_bind fun _ => yields_bind fun _ => yields_pure ⟨fun _ => Iff.rfl, fun _ => rfl⟩
  | caseOf scrutinee branches otherwise =>
    refine exists_shape_of_build (fun map accepted e => ?_) ok
    refine yields_bind fun _ => yields_bind fun _ => yields_pure ⟨fun c => ?_, fun _ => rfl⟩
    have perm := perm_of_checkCaseOf (orRefuse_eq_ok.1 accepted)
    exact ((perm.map _).append_right _).mem_iff
  | unreachable =>
    rw [perform, unreachable, addExpression_of_next rfl] at ok ⊢
    cases ok
    refine ⟨p.expressions.next, .unreachable, rfl, ⟨fun _ => Iff.rfl, fun _ => rfl⟩, ?_⟩
    simp [built, Outcome.map, shapeOf?]
  | _ => cases makes

/-- What a call that makes a definition answers has the body and the binders that the call names. -/
theorem exists_definition (makes : call.creates = some .definition)
    (ok : (p.perform call).result = .ok answer) : ∃ d definition, answer = .ofHandle d ∧
      [.expr definition.body] = call.children ∧ (∀ p : Program, definition.binders = p.boundBy call) ∧
      (p.perform call).program.definitionOf? d = some definition := by
  cases call with
  | function name returnTo parameters type visibility body =>
    obtain ⟨d, _, answered, read⟩ := exists_definition_of_add ok
    exact ⟨d, _, answered, rfl, fun _ => rfl, read⟩
  | continuation name parameters body =>
    obtain ⟨d, _, answered, read⟩ := exists_definition_of_add ok
    exact ⟨d, _, answered, rfl, fun _ => rfl, read⟩
  | root returnTo parameters type body =>
    obtain ⟨d, _, answered, read⟩ := exists_definition_of_add ok
    exact ⟨d, _, answered, rfl, fun _ => rfl, read⟩
  | _ => cases makes

/-- The next handle is dead. -/
theorem isLive_next {space : Space} {h : Handle space}
    (next : Answer.ofHandle h = .number (p.issued space)) : p.isLive ⟨h⟩ = false := by
  have index : h.index = p.issued space := Answer.number.inj next
  by_contra live
  have old := index_lt_issued (Bool.not_eq_false _ ▸ live)
  omega

/-- A call that adds a node puts below it the nodes that it names and binds there the variables that it
names. -/
theorem exists_made (adds : call.AddsNode) (ok : (p.perform call).result = .ok answer) :
    ∃ made, p.hasNode made = false ∧ (p.perform call).program.hasNode made = true ∧
      (∀ c, c ∈ (p.perform call).program.childrenOf made ↔ c ∈ call.children) ∧
      (p.perform call).program.bindersOf made = (p.perform call).program.boundBy call := by
  have kinds : call.creates = some .expression ∨ call.creates = some .definition := by
    cases call <;> simp [Call.AddsNode, Call.creates] at adds ⊢
  rcases kinds with makes | makes
  · obtain ⟨e, shape, rfl, ⟨children, binders⟩, read⟩ := exists_shape makes ok
    refine ⟨.expr e, isLive_next (answer_of_creates p makes ok).1, ?_, fun c => ?_, ?_⟩
    · simp [hasNode_expr, read]
    · rw [childrenOf_expr read, children]
    · rw [bindersOf_expr read, binders]
  · obtain ⟨d, definition, rfl, children, binders, read⟩ := exists_definition makes ok
    refine ⟨.defn d, isLive_next (answer_of_creates p makes ok).1, ?_, fun c => ?_, ?_⟩
    · simp [hasNode_defn, read]
    · rw [childrenOf_defn read, children]
    · rw [bindersOf_defn read, binders]

/-- A call that adds a node takes for it the children and the variables that it names. -/
theorem exists_grown (adds : call.AddsNode) (ok : (p.perform call).result = .ok answer) :
    ∃ node role draft, Grown p node role draft (p.perform call).program ∧
      (∀ c ∈ draft.children, c ∈ call.children) ∧ ∀ b ∈ draft.binders, b ∈ p.boundBy call := by
  obtain ⟨node, role, draft, grown, admissible, -⟩ := (ends_adding adds).holds ok
  obtain ⟨made, fresh, live, children, binders⟩ := exists_made adds ok
  obtain rfl : made = node := by
    refine ((grown.hasNode_iff admissible).1 live).resolve_right fun old => ?_
    rw [fresh] at old
    cases old
  refine ⟨made, role, draft, grown, fun c mem => (children c).1 (grown.children.mem_iff.2 mem), ?_⟩
  intro b mem
  have bound := grown.binders.mem_iff.2 mem
  rw [binders] at bound
  cases call with
  | group family members body =>
    obtain ⟨d, member, named⟩ := List.mem_filterMap.1 bound
    have child : .defn d ∈ draft.children := by
      rw [← grown.children.mem_iff, children]
      simp [Call.children, groupChildren, member]
    have old := grown.ne_of_live (admissible.pending.hasNode _ child)
    refine List.mem_filterMap.2 ⟨d, member, ?_⟩
    rwa [nameOf, grown.definition d old] at named
  | _ => exact bound

/-! ## Building apart -/

/-- The program `q` is made of `p` by calls that build. No node of `p` becomes a child of another one
and no variable of `p` is bound. -/
inductive BuiltApart (p : Program) : Program → Prop where
  | start : BuiltApart p p
  | call {q : Program} (call : Call) (built : BuiltApart p q) (makes : call.creates.isSome = true)
      (apart : ∀ answer, (q.perform call).result = .ok answer →
        (∀ n ∈ call.children, p.hasNode n = false) ∧
        ∀ {family : Family} {v : VarId family}, ⟨v⟩ ∈ q.boundBy call → p.hasVariable v = false) :
      BuiltApart p (q.perform call).program

/-- Everything that is in `p` is in `q` as it was, but for the sets of occurrences. -/
structure Embeds (p q : Program) : Prop where
  root : q.root = p.root
  shape : ∀ {e : ExprId}, p.hasNode (.expr e) = true → q.shapeOf? e = p.shapeOf? e
  definition : ∀ {d : DefId}, p.hasNode (.defn d) = true → q.definitionOf? d = p.definitionOf? d
  enclosing : ∀ {n : Node}, p.hasNode n = true → q.enclosing n = p.enclosing n
  binding : ∀ {family : Family} {v : VarId family}, p.hasVariable v = true →
    q.bindingOf? v = p.bindingOf? v
  occurrence : ∀ {family : Family} {o : OccId family} {entry : OccurrenceEntry family},
    p.occEntry? o = some entry → q.occEntry? o = some entry

namespace Embeds

theorem refl (p : Program) : Embeds p p := by
  constructor <;> simp +contextual

theorem fresh (h : Embeds p q) (name : String) (kind : Kind) :
    Embeds p (q.freshVariable family name kind).1 := by
  have same : SameNodes q (q.freshVariable family name kind).1 := sameNodes_fresh
  constructor
  case root => exact (root_modifyTable _ _).trans h.root
  case shape => exact fun live => (same.shape _).trans (h.shape live)
  case definition => exact fun live => (same.definition _).trans (h.definition live)
  case enclosing => exact fun live => (same.enclosing _).trans (h.enclosing live)
  case binding => exact fun live => (same.binding _).trans (h.binding live)
  case occurrence => exact fun read => (occEntry?_keep rfl).trans (h.occurrence read)

theorem hasNode (h : Embeds p q) (live : p.hasNode n = true) : q.hasNode n = true := by
  rwa [← enclosing_ok_iff_hasNode, h.enclosing live, enclosing_ok_iff_hasNode]

/-- A node that takes nothing of `p` changes nothing there. -/
theorem grown (h : Embeds p q) {node : Node} {role : Family → BinderRole} {draft : Draft}
    (g : Grown q node role draft r) (children : ∀ c ∈ draft.children, p.hasNode c = false)
    (binders : ∀ {family : Family} {v : VarId family}, ⟨v⟩ ∈ draft.binders →
      p.hasVariable v = false) : Embeds p r := by
  have old {n : Node} (live : p.hasNode n = true) : n ≠ node := g.ne_of_live (h.hasNode live)
  constructor
  case root => exact g.root.trans h.root
  case shape => exact fun live => (g.shape _ (old live)).trans (h.shape live)
  case definition => exact fun live => (g.definition _ (old live)).trans (h.definition live)
  case enclosing =>
    intro n live
    refine (g.enclosing_old (old live) fun taken => ?_).trans (h.enclosing live)
    rw [children n taken] at live
    cases live
  case binding =>
    intro family v live
    rw [g.binding, if_neg, h.binding live]
    intro taken
    rw [binders taken] at live
    cases live
  case occurrence =>
    intro family o entry read
    have before := h.occurrence read
    refine (g.kept fun m minted => ?_).trans before
    rw [(g.minted minted).1] at before
    cases before

end Embeds

namespace BuiltApart

theorem reachable (built : BuiltApart p q) (start : Reachable p) : Reachable q := by
  induction built with
  | start => exact start
  | call call _ _ _ ih => exact .call call ih

theorem later (built : BuiltApart p q) : Later p q := by
  induction built with
  | start => exact .refl p
  | @call q call _ _ _ ih => exact ih.trans (later_perform q call)

theorem hasVariable (built : BuiltApart p q) {v : VarId family} (live : p.hasVariable v = true) :
    q.hasVariable v = true := by
  induction built with
  | start => exact live
  | @call q call _ makes _ ih =>
    have builds : ¬ call.IsChange := by
      cases call <;> simp [Call.IsChange, Call.creates] at makes ⊢
    exact ((fills_perform q builds).vars family).kept ih

/-- Building apart leaves everything that was there as it was: an accepted call adds one node or one
variable, a refused one nothing. -/
theorem embeds (built : BuiltApart p q) (start : Reachable p) : Embeds p q := by
  induction built with
  | start => exact .refl p
  | @call q call built makes apart ih =>
    by_cases adds : call.AddsNode
    · cases result : (q.perform call).result with
      | ok answer =>
        obtain ⟨node, role, draft, grown, children, binders⟩ := exists_grown adds result
        obtain ⟨new, unbound⟩ := apart answer result
        exact ih.grown grown (fun c mem => new c (children c mem)) fun mem => unbound (binders _ mem)
      | error failure =>
        obtain ⟨-, quiet⟩ := (built.reachable start).consistent
        rw [(ends_adding adds).program_eq quiet result]
        exact ih
    · cases call with
      | freshValue name kind => exact ih.fresh name kind
      | freshContinuation name => exact ih.fresh name .any
      | install | substitute | substituteAll | replace | removeDeadLet | removeDeadDefinition
      | selectCaseBranch | discard => cases makes
      | _ => exact absurd trivial adds

end BuiltApart

/-! ## Old and new -/

namespace Embeds

variable (h : Embeds p q) (c : Coherent p) (c' : Coherent q)
include h c

theorem scriptOf (live : p.hasNode n = true) : q.scriptOf n = p.scriptOf n := by
  cases n with
  | defn d => exact scriptOf_defn_congr (h.definition live)
  | expr e =>
    exact scriptOf_expr_congr (h.shape live) fun d mem => h.definition (c.forest.hasNode_child mem)

/-- What is above an old node is old. -/
theorem hasNode_of_within {head : Node} (within : q.Within head n) (live : p.hasNode n = true) :
    p.hasNode head = true := by
  obtain ⟨above, lin⟩ := c.forest.ends live
  have alive := hasNode_of_lineage lin
  have same : Lineage q.enclosing n above := lin.congr fun m mem => h.enclosing (alive m mem)
  exact alive head ((within_iff same).1 within)

include c'

/-- The parent of a new node is new. -/
theorem parent_new {parent : Node} (link : q.enclosing n = .ok (some parent))
    (new : p.hasNode n = false) : p.hasNode parent = false := by
  by_contra old
  rw [Bool.not_eq_false] at old
  have child := c'.forest.listed link
  rw [childrenOf, h.scriptOf c old, ← childrenOf] at child
  rw [c.forest.hasNode_child child] at new
  cases new

/-- A new node binds new variables. -/
theorem binder_new {v : VarId family} (binds : ⟨v⟩ ∈ q.bindersOf n) (new : p.hasNode n = false) :
    p.hasVariable v = false := by
  by_contra old
  rw [Bool.not_eq_false] at old
  obtain ⟨role, bound⟩ := c'.binders.binding binds
  rw [h.binding old] at bound
  rw [hasNode_of_binder (c.binders.site bound)] at new
  cases new

/-- An occurrence that an old node holds is old. -/
theorem occEntry?_of_held {o : OccId family} {entry : OccurrenceEntry family}
    (read : q.occEntry? o = some entry) (old : p.hasNode (.expr entry.holder) = true) :
    p.occEntry? o = some entry := by
  have holds := c'.uses.held read
  rw [usesOf, h.scriptOf c old, ← usesOf] at holds
  obtain ⟨before, found, -⟩ := c.uses.holder holds
  rwa [found, ← h.occurrence found]

/-- New variables are used in new nodes. -/
theorem holder_new {o : OccId family} {entry : OccurrenceEntry family}
    (read : q.occEntry? o = some entry) (new : p.hasVariable entry.var = false) :
    p.hasNode (.expr entry.holder) = false := by
  by_contra old
  have before := h.occEntry?_of_held c c' read (Bool.not_eq_false _ ▸ old)
  rw [(c.uses.listed before).hasVariable] at new
  cases new

end Embeds

/-! ## Discarding what was built -/

section Discard

variable (h : Embeds p q) (c : Coherent p) (c' : Coherent q) (live : q.hasNode n = true)
  (new : p.hasNode n = false)
  (whole : ∀ m, q.hasNode m = true → p.hasNode m = false → q.Within n m)
include h c new whole

/-- The nodes of the tree that was built are the new ones. -/
theorem Embeds.within_iff_new {m : Node} (known : q.hasNode m = true) :
    q.Within n m ↔ p.hasNode m = false := by
  refine ⟨fun within => ?_, whole m known⟩
  by_contra old
  rw [h.hasNode_of_within c within (Bool.not_eq_false _ ▸ old)] at new
  cases new

include c' live

/-- The head of the tree is pending. -/
theorem Embeds.enclosing_head : q.enclosing n = .ok none := by
  obtain ⟨link, linked⟩ := enclosing_ok_iff_hasNode.2 live
  cases link with
  | none => exact linked
  | some parent =>
    have above := whole parent (c'.forest.hasNode_parent linked) (h.parent_new c c' linked new)
    exact absurd above (not_within_parent linked)

/-- The tree can be discarded: what it binds is new, so it is used in the tree only. -/
theorem Embeds.exists_checkDiscard : ∃ r, q.checkDiscard n = .ok r := by
  have top := h.enclosing_head c c' live new whole
  have notRoot : q.isRoot n = false := by
    simp only [isRoot, decide_eq_false_iff_not, Option.map_eq_some_iff, not_exists, not_and]
    rintro d installed rfl
    rw [h.root] at installed
    rw [hasNode_of_enclosing (c.root d installed)] at new
    cases new
  obtain ⟨r, region, covers⟩ := region_all c'.forest live
  have contained : q.checkSelfContained r = .ok () := by
    refine (checkSelfContained_eq_ok_iff c'.binders covers).2 (selfContained_of_gone c'.uses covers ?_)
    intro family v o entry m within binds read refers
    have fresh := (h.within_iff_new c new whole within.hasNode).1 within
    have unknown : p.hasVariable entry.var = false := refers ▸ h.binder_new c c' binds fresh
    exact whole _ (hasNode_of_use (c'.uses.held read)) (h.holder_new c c' read unknown)
  refine ⟨r, ?_⟩
  simp [checkDiscard, top, notRoot, require, region, contained, orFault, bind, Except.bind, pure,
    Except.pure]

end Discard

/-- A discard that is accepted succeeds. -/
theorem discard_eq_ok (c : Coherent p) (quiet : p.verifying = false) {r : Region}
    (accepted : p.checkDiscard n = .ok r) : (p.discard n).result = .ok () := by
  have contained := (removable_of_checkDiscard c accepted).contained
  obtain ⟨_, q, run, razed⟩ := runs_destroy ((mended_discard p n).setsRefer c.uses) contained
  simp [discard, Outcome.commit, accepted, Outcome.after, run, Outcome.verified, razed.verifying,
    quiet]

/-- The program `q` is `p` with some variables more, which are neither bound nor used. -/
structure Restores (p q : Program) : Prop where
  root : q.root = p.root
  expression : ∀ e, q.expressions.get? e = p.expressions.get? e
  definition : ∀ d, q.definitions.get? d = p.definitions.get? d
  occurrence : ∀ {family : Family} (o : OccId family), q.occEntry? o = p.occEntry? o
  kept : ∀ {family : Family} {v : VarId family} {entry : VariableEntry family},
    p.varEntry? v = some entry → q.varEntry? v = some entry
  idle : ∀ {family : Family} {v : VarId family} {entry : VariableEntry family},
    q.varEntry? v = some entry → p.varEntry? v = none →
      p.issued (.var family) ≤ v.index ∧ entry.binding = none ∧ entry.occurrences = .empty

/-- Programs with the same nodes and the same occurrences differ in idle variables only: the set of
a variable has the occurrences that refer to it. -/
theorem restores_of_nodes (c : Coherent p) (c' : Coherent q) (later : Later p q)
    (root : q.root = p.root) (shape : ∀ e, q.shapeOf? e = p.shapeOf? e)
    (definition : ∀ d, q.definitionOf? d = p.definitionOf? d)
    (enclosing : ∀ n, q.enclosing n = p.enclosing n)
    (occurrence : ∀ {family : Family} (o : OccId family), q.occEntry? o = p.occEntry? o)
    (binding : ∀ {family : Family} {v : VarId family}, p.hasVariable v = true →
      q.hasVariable v = true ∧ q.bindingOf? v = p.bindingOf? v) : Restores p q := by
  have scripts (n : Node) : q.scriptOf n = p.scriptOf n := by
    cases n with
    | expr e => exact scriptOf_expr_congr (shape e) fun d _ => definition d
    | defn d => exact scriptOf_defn_congr (definition d)
  constructor
  case root => exact root
  case expression => exact fun e => get?_expressions_congr (shape e) (enclosing _)
  case definition => exact fun d => get?_definitions_congr (definition d) (enclosing _)
  case occurrence => exact occurrence
  case kept =>
    intro family v entry read
    obtain ⟨live, same⟩ := binding (Slots.contains_iff.2 ⟨entry, read⟩)
    obtain ⟨occurrences, after⟩ := later.exists_varEntry? read live same
    have members : occurrences = entry.occurrences := by
      refine HandleSet.ext_mem fun o => ?_
      rw [c.uses.mem_iff read, ← occurrence, ← c'.uses.mem_iff after]
    rw [after, members]
  case idle =>
    intro family v entry after unknown
    have dead : p.hasVariable v = false := hasVariable_eq_false.2 unknown
    have live : q.hasVariable v = true := Slots.contains_iff.2 ⟨entry, after⟩
    refine ⟨?_, ?_, ?_⟩
    · by_contra old
      have before := later.isLive (h := v) live (Nat.not_le.1 old)
      exact absurd before (by rw [isLive, dead]; exact Bool.false_ne_true)
    · cases bound : entry.binding with
      | none => rfl
      | some b =>
        have recorded : q.bindingOf? v = some b := by simp [bindingOf?, after, bound]
        have binds := c'.binders.site recorded
        rw [bindersOf, scripts, ← bindersOf] at binds
        rw [c.binders.hasVariable binds] at dead
        cases dead
    · refine HandleSet.ext_mem fun o => ?_
      simp only [HandleSet.not_mem_empty, iff_false]
      intro mem
      obtain ⟨use, read, refers⟩ := (c'.uses.mem_iff after).1 mem
      rw [occurrence] at read
      have listed := (c.uses.listed read).hasVariable
      rw [refers, dead] at listed
      cases listed

/-- Without the tree that has everything new in it the program is as it was, up to idle variables. -/
theorem Embeds.restores (h : Embeds p q) (c : Coherent p) (c' : Coherent q)
    (new : p.hasNode n = false)
    (whole : ∀ m, q.hasNode m = true → p.hasNode m = false → q.Within n m)
    (known : ∀ {family : Family} {v : VarId family}, p.hasVariable v = true → q.hasVariable v = true)
    (discarded : Discarded q n r) (later : Later p r) (c'' : Coherent r) : Restores p r := by
  have ⟨⟨region, removable⟩, pruned⟩ := discarded
  have stays {m : Node} (old : p.hasNode m = true) : ¬ q.Within n m := by
    rw [h.within_iff_new c new whole (h.hasNode old), old]
    exact Bool.noConfusion
  have dead {m : Node} (fresh : p.hasNode m = false) : r.hasNode m = false := by
    by_contra left
    rw [Bool.not_eq_false] at left
    have outside := pruned.stays left
    exact outside (whole m ((pruned.hasNode outside).symm.trans left) fresh)
  refine restores_of_nodes c c'' later (pruned.root.trans h.root) ?_ ?_ ?_ ?_ ?_
  · intro e
    cases old : p.hasNode (.expr e) with
    | false =>
      have gone := dead old
      rw [hasNode_expr, Option.isSome_eq_false_iff, Option.isNone_iff_eq_none] at old gone
      rw [gone, old]
    | true => exact (discarded.shapeOf?_eq (stays old)).trans (h.shape old)
  · intro d
    cases old : p.hasNode (.defn d) with
    | false =>
      have gone := dead old
      rw [hasNode_defn, Option.isSome_eq_false_iff, Option.isNone_iff_eq_none] at old gone
      rw [gone, old]
    | true => exact (discarded.definitionOf?_eq (stays old)).trans (h.definition old)
  · intro m
    cases old : p.hasNode m with
    | false => rw [enclosing_of_dead old, enclosing_of_dead (dead old)]
    | true => exact (discarded.enclosing_eq (stays old)).trans (h.enclosing old)
  · intro family o
    refine Option.ext fun entry => ⟨fun read => ?_, fun read => ?_⟩
    · obtain ⟨before, outside⟩ := discarded.occEntry?_eq_some_iff.1 read
      refine h.occEntry?_of_held c c' before (Bool.not_eq_false _ ▸ fun fresh => ?_)
      exact outside (whole _ (hasNode_of_use (c'.uses.held before)) fresh)
    · exact discarded.occEntry?_eq_some_iff.2
        ⟨h.occurrence read, stays (hasNode_of_use (c.uses.held read))⟩
  · intro family v old
    have kept : ¬ q.Lost (q.Within n) ⟨v⟩ := by
      rw [lost_iff (removable.within_group c')]
      rintro ⟨m, within, binds⟩
      have fresh := (h.within_iff_new c new whole within.hasNode).1 within
      rw [h.binder_new c c' binds fresh] at old
      cases old
    refine ⟨pruned.hasVariable_iff.2 ⟨known old, kept⟩, ?_⟩
    exact (pruned.binding kept).trans (h.binding old)

/-- Building apart and then discarding what was built leaves a program as it was, but for new variables
that are neither bound nor used. -/
theorem discard_undoes_building (reachable : Reachable p) (built : BuiltApart p q)
    (live : q.hasNode n = true) (new : p.hasNode n = false)
    (whole : ∀ m, q.hasNode m = true → p.hasNode m = false → q.Within n m) :
    (q.perform (.discard n)).result = .ok .nothing ∧
      Restores p (q.perform (.discard n)).program := by
  have reachable' := built.reachable reachable
  obtain ⟨consistent, -⟩ := reachable.consistent
  obtain ⟨consistent', quiet⟩ := reachable'.consistent
  obtain ⟨consistent'', -⟩ := (Reachable.call (.discard n) reachable').consistent
  have c := consistent.toCoherent
  have c' := consistent'.toCoherent
  have h := built.embeds reachable
  obtain ⟨r, accepted⟩ := h.exists_checkDiscard c c' live new whole
  have ok : (q.perform (.discard n)).result = .ok .nothing := by
    simp [perform, changedOnly, Outcome.map, discard_eq_ok c' quiet accepted, Except.map, withReason]
  refine ⟨ok, h.restores c c' new whole built.hasVariable ?_ ?_ consistent''.toCoherent⟩
  · exact (ends_discard c' n).map.holds ok
  · exact built.later.trans (later_perform q (.discard n))

/-- An installed program with a continuation variable that nothing binds. -/
def spareLoop : Program :=
  run [.freshContinuation "return", .freshContinuation "loop", .freshValue "x" .any,
    .jump ⟨⟨0⟩, .nonRecursive⟩ [⟨⟨0⟩, .nonRecursive⟩], .root ⟨0⟩ [⟨0⟩] ⟨[.any], .any⟩ ⟨0⟩,
    .install ⟨0⟩]

/-- A loop beside it that has the variable for its name and uses a parameter out of scope. The last call
is refused, since the body is taken. -/
def spareLoopBuilt : Program :=
  spareLoop.performAll [.freshValue "y" .any, .freshValue "z" .any,
    .jump ⟨⟨1⟩, .recursive⟩ [⟨⟨0⟩, .nonRecursive⟩, ⟨⟨1⟩, .nonRecursive⟩], .continuation ⟨1⟩ [⟨1⟩] ⟨1⟩,
    .continuation ⟨1⟩ [⟨2⟩] ⟨1⟩]

theorem spareLoopBuilt_apart : BuiltApart spareLoop spareLoopBuilt := by
  refine .call _ (.call _ (.call _ (.call _ (.call _ .start rfl ?_) rfl ?_) rfl ?_) rfl ?_) rfl ?_
  · exact fun _ _ => ⟨by simp [Call.children], by simp [boundBy]⟩
  · exact fun _ _ => ⟨by simp [Call.children], by simp [boundBy]⟩
  · exact fun _ _ => ⟨by simp [Call.children], by simp [boundBy]⟩
  · refine fun _ _ => ⟨?_, ?_⟩
    · rintro n mem
      obtain rfl := List.mem_singleton.1 mem
      rfl
    · rintro family v mem
      cases List.mem_singleton.1 mem
      rfl
  · rintro answer ⟨⟩

/-- The loop can be discarded although it uses what it does not bind. -/
theorem spareLoop_restored :
    (spareLoopBuilt.perform (.discard (.defn ⟨1⟩))).result = .ok .nothing ∧
      Restores spareLoop (spareLoopBuilt.perform (.discard (.defn ⟨1⟩))).program := by
  refine discard_undoes_building ?_ spareLoopBuilt_apart (by set_option maxRecDepth 2000 in rfl)
    (by set_option maxRecDepth 2000 in rfl) ?_
  · exact reachable_run _
  · have top : spareLoopBuilt.enclosing (.defn ⟨1⟩) = .ok none := by
      set_option maxRecDepth 2000 in rfl
    have body : spareLoopBuilt.enclosing (.expr ⟨1⟩) = .ok (some (.defn ⟨1⟩)) := by
      set_option maxRecDepth 2000 in rfl
    rintro (⟨⟨_ | _ | i⟩⟩ | ⟨⟨_ | _ | i⟩⟩) live new
    · cases new
    · exact ⟨_, .up body (.top top), by simp⟩
    · cases live
    · cases new
    · exact ⟨_, .top top, by simp⟩
    · cases live

end Program

end ContinuationIR
