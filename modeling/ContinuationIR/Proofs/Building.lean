import ContinuationIR.Proofs.Acceptance

/-!
# Building calls enlarge programs

Each building call runs its checks, prepares a draft and adds a node. So it is enough to see, for
each, that the checks make the draft admissible and that the node is as drafted and obeys the rules
for it on its own.
-/

namespace ContinuationIR
set_option autoImplicit false

/-- The role of what an expression of the shape binds. -/
def Shape.role : Shape → BinderRole
  | .group .. => .groupName
  | _ => .letVariable

namespace Program

variable {family : Family} {p q : Program} {role : Family → BinderRole} {draft : Draft}

/-- The program `q` is `p` with one node more, as an admissible draft has it. -/
def Enlarged (p q : Program) : Prop :=
  ∃ node role draft, Grown p node role draft q ∧ Admissible p draft ∧ q.Obeys node ∧
    ∀ {e : ExprId} {family : Family} {members : List DefId} {body : ExprId}, node = .expr e →
      q.shapeOf? e = some (.group family members body) → members ≠ []

/-- A consistent program with one node more, as an admissible draft has it, is consistent. -/
theorem Enlarged.consistent (enlarged : Enlarged p q) (c : Consistent p) :
    Consistent q ∧ q.verifying = p.verifying := by
  obtain ⟨node, role, draft, grown, admissible, obeys, inhabited⟩ := enlarged
  exact ⟨grown.consistent admissible c obeys inhabited, grown.verifying⟩

/-! ## Adding the node -/

/-- An expression of the shape is what the draft is for. -/
structure Drafted (p : Program) (shape : Shape) (draft : Draft) : Prop where
  children : shape.children.Perm draft.children
  binders : (p.shapeBinders shape).Perm draft.binders
  uses : shape.uses.Perm (draft.minted.map Minted.use)

/-- Adding the expression that a draft was made for is growing by the draft. -/
theorem Prepared.grown_expression {e : ExprId} {shape : Shape}
    (h : Prepared p (.expr e) (fun _ => shape.role) draft q) (drafted : Drafted p shape draft)
    (next : e = p.expressions.next) :
    Grown p (.expr e) (fun _ => shape.role) draft
      { q with expressions := q.expressions.push ⟨shape, none⟩ } := by
  obtain ⟨r, eq⟩ : ∃ r : Program, r = { q with expressions := q.expressions.push ⟨shape, none⟩ } :=
    ⟨_, rfl⟩
  have next' : e = q.expressions.next := next.trans h.nextExpression.symm
  have read : r.expressions.get? e = some ⟨shape, none⟩ := by
    rw [eq, next', Slots.get?_push_next]
  have added : r.shapeOf? e = some shape := by rw [shapeOf?, read]; rfl
  have others (e' : ExprId) (ne : e' ≠ e) : r.expressions.get? e' = q.expressions.get? e' := by
    rw [eq, Slots.get?_push_of_ne _ (next' ▸ ne)]
  have definitions (d : DefId) : r.definitionOf? d = p.definitionOf? d := by
    rw [eq]
    exact h.definition d
  rw [← eq]
  constructor
  case toRegistered =>
    rw [eq]
    exact h.toRegistered.of_tables fun family => by cases family <;> rfl
  case root => rw [eq]; exact h.root
  case verifying => rw [eq]; exact h.verifying
  case fresh => simp [next, Program.hasNode, Slots.contains]
  case shape =>
    intro e' ne
    rw [shapeOf?, others e' fun same => ne (by rw [same])]
    exact h.shape e'
  case definition => exact fun d _ => definitions d
  case enclosing =>
    intro n
    by_cases new : n = .expr e
    · subst new
      rw [if_pos rfl, enclosing_expr read]
    · rw [if_neg new, ← h.enclosing, eq]
      cases n with
      | defn d => rfl
      | expr e' =>
        have ne : e' ≠ q.expressions.next := fun same => new (by rw [same, next'])
        simp only [Program.enclosing, Slots.fetch, Slots.get?_push_of_ne _ ne]
  case children =>
    rw [childrenOf_expr added]
    exact drafted.children
  case binders =>
    have same : r.shapeBinders shape = p.shapeBinders shape := by
      rw [← shapeScript_binder?, ← shapeScript_binder?, shapeScript_congr fun d _ => definitions d]
    rw [bindersOf_expr added, same]
    exact drafted.binders
  case uses =>
    rw [usesOf_expr added]
    exact drafted.uses
  case role =>
    intro family
    rw [roleAt, groupOf_expr, added]
    cases shape <;> rfl

/-- The program is left with the draft of an expression that may be added. -/
def ReadyFor (p : Program) (e : ExprId) (shape : Shape) (q : Program) : Prop :=
  ∃ draft, Prepared p (.expr e) (fun _ => shape.role) draft q ∧ Drafted p shape draft ∧
    Admissible p draft ∧ q.shapeViolations e shape = [] ∧
    ∀ family members body, shape = .group family members body → members ≠ []

/-- The handle that the writes were told is the one that the expression gets, since no write adds
one. -/
theorem ends_addExpression {shape : Shape} {q : Program}
    (ready : p.ReadyFor p.expressions.next shape q) :
    (q.addExpression p.expressions.next shape).Ends p (Enlarged p) := by
  obtain ⟨draft, prepared, drafted, admissible, clean, inhabited⟩ := ready
  rw [addExpression_of_next prepared.nextExpression]
  have grown := prepared.grown_expression drafted rfl
  have added {found : Shape}
      (read : shapeOf? { q with expressions := q.expressions.push ⟨shape, none⟩ }
        p.expressions.next = some found) : found = shape := by
    rw [← prepared.nextExpression] at read
    simpa [shapeOf?, eq_comm] using read
  refine .done ⟨_, _, _, grown, admissible, ?_, ?_⟩
  · intro found read
    cases added read
    rw [← clean]
    exact shapeViolations_congr (fun _ _ => rfl) (fun _ _ => rfl) fun _ _ => rfl
  · rintro e family members body ⟨⟩ read
    exact inhabited family members body (added read).symm

/-- A call that makes the draft of an expression and adds it. -/
theorem ends_build {write : ExprId → Edit Shape}
    (run : (write p.expressions.next).Runs p (p.ReadyFor p.expressions.next)) :
    (p.build write).Ends p (Enlarged p) :=
  Outcome.ends_after run fun _ _ ready => ends_addExpression ready

/-! ## Expressions -/

/-- A leaf needs no draft. -/
theorem ends_unreachable : p.unreachable.Ends p (Enlarged p) := by
  refine ends_addExpression ⟨.empty, .start .., ⟨.nil, .nil, .nil⟩, ⟨?_, ?_⟩, rfl, by simp⟩
  · exact ⟨by simp [Draft.empty], List.nodup_nil⟩
  · exact ⟨by simp [Draft.empty], by simp [Draft.empty], List.nodup_nil⟩

/-- The stored value fits if the mentioned one did. -/
theorem holds_of_admits {e : ExprId} {kind : Kind} {value : Value (Mention .value)}
    {stored : Value (OccId .value)} {made : List Minted} (h : Prepared p (.expr e) role draft q)
    (match_ : Prepared.Made made value stored) (drafted : ∀ m ∈ made, m ∈ draft.minted)
    (admitted : p.admits kind value = .ok true) : q.holds kind stored = true := by
  cases match_ with
  | constant literal => simpa [admits, Program.holds] using admitted
  | block tag fields uses => simpa [admits, Program.holds] using admitted
  | copy o m =>
    simp only [admits, bind_eq_ok, pure_eq_ok, kindOf_eq_ok] at admitted
    obtain ⟨found, known, fits⟩ := admitted
    obtain ⟨-, _, -, read⟩ := h.minted (drafted ⟨o, m⟩ List.mem_cons_self)
    have seen : q.kindAt? o = some found := by
      rw [kindAt?_eq, read, Option.bind_some, h.kind, known]
    simp [Program.holds, seen, fits]

/-- A let is refused, or adds a node that binds one variable over one child. -/
theorem ends_letIn (v : VarId .value) (value : Value (Mention .value)) (body : ExprId) :
    (p.letIn v value body).Ends p (Enlarged p) := by
  refine Outcome.ends_commit (decides_orRefuse _ _) fun _ accepted => ends_build ?_
  simp only [orRefuse_eq_ok, checkLetIn, bind_eq_ok] at accepted
  obtain ⟨⟨⟩, binders, ⟨⟩, mentions, ⟨⟩, fits, children⟩ := accepted
  have bindable := bindable_of_checkBinders binders
  have pending := pending_of_checkChildren children
  obtain ⟨kind, known, admitted⟩ := checkValue_eq_ok.1 fits
  have start := Prepared.start p (.expr p.expressions.next) fun _ => .letVariable
  refine (start.mintValue (checkMentions_eq_ok.1 mentions)).andThen ?_
  rintro stored q ⟨made, matched, prepared⟩
  refine (prepared.bind (bindable.live List.mem_cons_self)
    (bindable.unbound List.mem_cons_self) List.not_mem_nil).andThen fun _ q prepared => ?_
  refine (prepared.attachAll pending).andThen fun _ q prepared => Edit.runs_pure ?_
  refine ⟨_, prepared, ⟨.refl _, .refl _, ?_⟩, ⟨pending, bindable⟩, ?_, by simp⟩
  · simp [Draft.empty, Shape.uses, matched.uses]
  · have holds := holds_of_admits prepared matched (by simp [Draft.empty]) admitted
    simp [shapeViolations, letViolations_eq, prepared.kind, known, holds]

/-- An expression without children and binders is ready if its occurrences are made. -/
theorem readyFor_leaf {e : ExprId} {shape : Shape} {made : List Minted}
    (prepared : Prepared p (.expr e) (fun _ => shape.role) ⟨[], [], made⟩ q)
    (uses : made.map Minted.use = shape.uses) (children : shape.children = [])
    (binders : p.shapeBinders shape = []) (clean : q.shapeViolations e shape = []) :
    p.ReadyFor e shape q := by
  refine ⟨_, prepared, ⟨by simp [children], by simp [binders], by simp [uses]⟩, ⟨?_, ?_⟩, clean, ?_⟩
  · exact ⟨by simp, List.nodup_nil⟩
  · exact ⟨by simp, by simp, List.nodup_nil⟩
  · rintro family members body rfl
    simp [Shape.children] at children

/-- An operator is refused, or adds a node without children. -/
theorem ends_primitive (operator : Primitive) (arguments : List (Mention .value))
    (continuation : Mention .continuation) :
    (p.primitive operator arguments continuation).Ends p (Enlarged p) := by
  refine Outcome.ends_commit (decides_orRefuse _ _) fun _ accepted => ends_build ?_
  simp only [orRefuse_eq_ok, checkPrimitive] at accepted
  split at accepted
  · simp only [bind_eq_ok] at accepted
    obtain ⟨⟨⟩, mentioned, returned⟩ := accepted
    have start := Prepared.start p (.expr p.expressions.next) fun _ => .letVariable
    refine (start.mintAll (checkMentions_eq_ok.1 mentioned)).andThen ?_
    rintro occurrences q ⟨made, uses, prepared⟩
    have known := checkMentions_eq_ok.1 returned continuation List.mem_cons_self
    refine (prepared.mint continuation known).andThen fun k q prepared => Edit.runs_pure ?_
    exact readyFor_leaf prepared (by simp [Draft.empty, uses, Shape.uses, Minted.use]) rfl rfl rfl
  · cases accepted

/-- A call is refused, or adds a node without children. -/
theorem ends_apply (function : Mention .value) (arguments : List (Mention .value))
    (continuation : Mention .continuation) :
    (p.apply function arguments continuation).Ends p (Enlarged p) := by
  refine Outcome.ends_commit (decides_orRefuse _ _) fun _ accepted => ends_build ?_
  simp only [orRefuse_eq_ok, checkApply, bind_eq_ok] at accepted
  obtain ⟨⟨⟩, called, ⟨⟩, mentioned, returned⟩ := accepted
  have start := Prepared.start p (.expr p.expressions.next) fun _ => .letVariable
  have known := checkMentions_eq_ok.1 called function List.mem_cons_self
  refine (start.mint function known).andThen fun f q prepared => ?_
  refine (prepared.mintAll (checkMentions_eq_ok.1 mentioned)).andThen ?_
  rintro occurrences q ⟨made, uses, prepared⟩
  have known := checkMentions_eq_ok.1 returned continuation List.mem_cons_self
  refine (prepared.mint continuation known).andThen fun k q prepared => Edit.runs_pure ?_
  exact readyFor_leaf prepared (by simp [Draft.empty, uses, Shape.uses, Minted.use]) rfl rfl rfl

/-- A jump is refused, or adds a node without children. -/
theorem ends_jump (continuation : Mention .continuation) (arguments : List (Mention .value)) :
    (p.jump continuation arguments).Ends p (Enlarged p) := by
  refine Outcome.ends_commit (decides_orRefuse _ _) fun _ accepted => ends_build ?_
  simp only [orRefuse_eq_ok, checkJump, bind_eq_ok] at accepted
  obtain ⟨⟨⟩, returned, mentioned⟩ := accepted
  have start := Prepared.start p (.expr p.expressions.next) fun _ => .letVariable
  have known := checkMentions_eq_ok.1 returned continuation List.mem_cons_self
  refine (start.mint continuation known).andThen fun k q prepared => ?_
  refine (prepared.mintAll (checkMentions_eq_ok.1 mentioned)).andThen ?_
  rintro occurrences q ⟨made, uses, prepared⟩
  refine Edit.runs_pure ?_
  exact readyFor_leaf prepared (by simp [Draft.empty, uses, Shape.uses, Minted.use]) rfl rfl rfl

/-- A case is refused, or adds a node above its branches, which cover the scrutinee. -/
theorem ends_caseOf (scrutinee : Mention .value) (branches : List (Nat × ExprId))
    (otherwise : Option ExprId) :
    (p.caseOf scrutinee branches otherwise).Ends p (Enlarged p) := by
  refine Outcome.ends_commit (decides_orRefuse _ _) fun map accepted => ends_build ?_
  simp only [orRefuse_eq_ok, checkCaseOf, bind_eq_ok, pure_eq_ok] at accepted
  obtain ⟨⟨⟩, mentioned, ⟨⟩, children, map', ordered, kind, known, ⟨⟩, valid, rfl⟩ := accepted
  have pending := pending_of_checkChildren children
  have made : CaseMap.ofBranches? branches = .ok map' := by
    revert ordered
    cases CaseMap.ofBranches? branches <;> simp [Except.mapError]
  obtain ⟨perm, ascending⟩ := CaseMap.ofBranches?_eq_ok made
  have fits : map'.validate kind otherwise.isSome = .ok () := by
    revert valid
    cases map'.validate kind otherwise.isSome <;> simp [Except.mapError]
  have start := Prepared.start p (.expr p.expressions.next) fun _ => .letVariable
  have live := checkMentions_eq_ok.1 mentioned scrutinee List.mem_cons_self
  refine (start.mint scrutinee live).andThen fun o q prepared => ?_
  refine (prepared.attachAll pending).andThen fun _ q prepared => Edit.runs_pure ?_
  refine ⟨_, prepared, ⟨?_, .nil, ?_⟩, ⟨pending, by simp [Draft.empty], by simp [Draft.empty],
    List.nodup_nil⟩, ?_, by simp⟩
  · exact (perm.map _).append_right _
  · simp [Draft.empty, Shape.uses, Minted.use]
  · obtain ⟨-, _, -, read⟩ := prepared.minted List.mem_cons_self
    have seen : q.kindAt? o = some kind := by
      rw [kindAt?_eq, read, Option.bind_some, prepared.kind, kindOf_eq_ok.1 known]
    simp [shapeViolations, caseViolations, ascending, seen, fits]

/-- A group is refused, or adds a node that binds the names of its members. -/
theorem ends_group (family : Family) (members : List DefId) (body : ExprId) :
    (p.group family members body).Ends p (Enlarged p) := by
  refine Outcome.ends_commit (decides_orRefuse _ _) fun names accepted => ends_build ?_
  simp only [orRefuse_eq_ok, checkGroup, bind_eq_ok, pure_eq_ok] at accepted
  obtain ⟨names', found, ⟨⟩, children, rfl⟩ := accepted
  obtain ⟨inhabited, named, bindable⟩ := groupNames_eq_ok found
  have pending := pending_of_checkChildren children
  have start := Prepared.start p (.expr p.expressions.next) fun _ => .groupName
  refine (start.bindAll bindable).andThen fun _ q prepared => ?_
  refine (prepared.attachAll pending).andThen fun _ q prepared => Edit.runs_pure ?_
  refine ⟨_, prepared, ⟨.refl _, ?_, .nil⟩, ⟨pending, bindable⟩, ?_, ?_⟩
  · rw [shapeBinders_group named]
    exact .refl _
  · have clean : p.shapeViolations p.expressions.next (.group family members body) = [] :=
      groupViolations_eq_nil named
    rw [← clean]
    exact shapeViolations_congr (fun v _ => prepared.kind v) (by simp [Shape.uses])
      fun d _ => prepared.definition d
  · rintro _ _ _ ⟨⟩
    exact inhabited

/-! ## Definitions -/

/-- The roles of what a definition binds. -/
def definitionRole : Family → BinderRole
  | .value => .parameter
  | .continuation => .returnContinuation

/-- Adding the definition that a draft was made for is growing by the draft. -/
theorem Prepared.grown_definition {d : DefId} {definition : Definition}
    (h : Prepared p (.defn d) definitionRole ⟨[.expr definition.body], definition.binders, []⟩ q)
    (next : d = p.definitions.next) :
    Grown p (.defn d) definitionRole ⟨[.expr definition.body], definition.binders, []⟩
      { q with definitions := q.definitions.push ⟨definition, none⟩ } := by
  obtain ⟨r, eq⟩ : ∃ r : Program,
      r = { q with definitions := q.definitions.push ⟨definition, none⟩ } := ⟨_, rfl⟩
  have next' : d = q.definitions.next := next.trans h.nextDefinition.symm
  have read : r.definitions.get? d = some ⟨definition, none⟩ := by
    rw [eq, next', Slots.get?_push_next]
  have added : r.definitionOf? d = some definition := by rw [definitionOf?, read]; rfl
  have others (d' : DefId) (ne : d' ≠ d) : r.definitions.get? d' = q.definitions.get? d' := by
    rw [eq, Slots.get?_push_of_ne _ (next' ▸ ne)]
  rw [← eq]
  constructor
  case toRegistered =>
    rw [eq]
    exact h.toRegistered.of_tables fun family => by cases family <;> rfl
  case root => rw [eq]; exact h.root
  case verifying => rw [eq]; exact h.verifying
  case fresh => simp [next, Program.hasNode, Slots.contains]
  case shape =>
    intro e _
    rw [eq]
    exact h.shape e
  case definition =>
    intro d' ne
    rw [definitionOf?, others d' fun same => ne (by rw [same])]
    exact h.definition d'
  case enclosing =>
    intro n
    by_cases new : n = .defn d
    · subst new
      rw [if_pos rfl, enclosing_defn read]
      rfl
    · rw [if_neg new, ← h.enclosing, eq]
      cases n with
      | expr e => rfl
      | defn d' =>
        have ne : d' ≠ q.definitions.next := fun same => new (by rw [same, next'])
        simp only [Program.enclosing, Slots.fetch, Slots.get?_push_of_ne _ ne]
  case children => rw [childrenOf_defn added]
  case binders => rw [bindersOf_defn added]
  case uses => simp
  case role => rintro (_ | _) <;> rfl

/-- The writes of a definition bind its variables and attach its body. -/
theorem runs_writeDefinition {definition : Definition} {d : DefId}
    (bindable : Bindable p definition.binders) (pending : Pending p [.expr definition.body]) :
    (writeDefinition definition d).Runs p fun _ =>
      Prepared p (.defn d) definitionRole ⟨[.expr definition.body], definition.binders, []⟩ := by
  have start := Prepared.start p (.defn d) definitionRole
  have first : Bindable p (definition.header.returnTo?.toList.map fun k => ⟨k⟩) :=
    ⟨fun mem => bindable.live (List.mem_append_left _ mem),
      fun mem => bindable.unbound (List.mem_append_left _ mem),
      (List.nodup_append'.1 bindable.distinct).1⟩
  refine (start.bindAll first).andThen fun _ q prepared => ?_
  refine (prepared.bindAll bindable).andThen fun _ q prepared => ?_
  exact prepared.attach (pending.hasNode _ List.mem_cons_self) fun h => by cases h

/-- A definition with bindable variables, a pending body and a fitting type is added. -/
theorem ends_addDefinition {definition : Definition}
    (bindable : Bindable p definition.binders) (pending : Pending p [.expr definition.body])
    (fits : p.fitsType definition = true) : (p.addDefinition definition).Ends p (Enlarged p) := by
  refine Outcome.ends_after (runs_writeDefinition bindable pending) fun _ q prepared => ?_
  have grown := prepared.grown_definition rfl
  refine .done ⟨_, _, _, grown, ⟨pending, bindable⟩, ?_, by simp⟩
  intro found read
  have eq : found = definition := by
    rw [← prepared.nextDefinition] at read
    simpa [definitionOf?, eq_comm] using read
  rw [eq, definitionViolations_congr fun v _ => grown.kind v]
  simp [definitionViolations, fits]

/-- Some of the variables can be bound if all can. -/
theorem Bindable.of_cons {b : Binder} {binders : List Binder} (bindable : Bindable p (b :: binders)) :
    Bindable p binders :=
  ⟨fun mem => bindable.live (List.mem_cons_of_mem _ mem),
    fun mem => bindable.unbound (List.mem_cons_of_mem _ mem), bindable.distinct.of_cons⟩

theorem ends_function (name : VarId .value) (returnTo : VarId .continuation)
    (parameters : List (VarId .value)) (type : FunctionType) (visibility : Visibility)
    (body : ExprId) :
    (p.function name returnTo parameters type visibility body).Ends p (Enlarged p) := by
  refine Outcome.ends_commit (decides_orRefuse _ _) fun _ accepted => ?_
  simp only [orRefuse_eq_ok, checkFunction, bind_eq_ok] at accepted
  obtain ⟨⟨⟩, binders, ⟨⟩, declared, children⟩ := accepted
  exact ends_addDefinition (bindable_of_checkBinders binders).of_cons
    (pending_of_checkChildren children) (fitsType_of_checkParameters declared)

theorem ends_continuation (name : VarId .continuation) (parameters : List (VarId .value))
    (body : ExprId) :
    (p.continuation name parameters body).Ends p (Enlarged p) := by
  refine Outcome.ends_commit (decides_orRefuse _ _) fun kinds accepted => ?_
  simp only [orRefuse_eq_ok, checkContinuation, bind_eq_ok] at accepted
  obtain ⟨⟨⟩, binders, ⟨⟩, children, kinds⟩ := accepted
  exact ends_addDefinition (bindable_of_checkBinders binders).of_cons
    (pending_of_checkChildren children) (fitsType_of_mapM_kindOf kinds)

theorem ends_rootDefinition (returnTo : VarId .continuation) (parameters : List (VarId .value))
    (type : FunctionType) (body : ExprId) :
    (p.rootDefinition returnTo parameters type body).Ends p (Enlarged p) := by
  refine Outcome.ends_commit (decides_orRefuse _ _) fun _ accepted => ?_
  simp only [orRefuse_eq_ok, checkRoot, bind_eq_ok] at accepted
  obtain ⟨⟨⟩, binders, ⟨⟩, declared, children⟩ := accepted
  exact ends_addDefinition (bindable_of_checkBinders binders)
    (pending_of_checkChildren children) (fitsType_of_checkParameters declared)

end Program

end ContinuationIR
