import ContinuationIR.Proofs.SameNodes

/-!
# Substitution keeps programs consistent

A substitution lets an attached occurrence refer to another variable. What has to be seen is that the
new variable is in scope there with the new recursivity, and that the shape that holds the occurrence
still fits the kinds. Both are checked for all occurrences before the first one is moved; moving one
does not change what was checked for the others.
-/

namespace ContinuationIR
set_option autoImplicit false

namespace Program

section Repoint

variable {family : Family} {p q : Program} {o : OccId family} {new : VarId family}
  {recursivity : Recursivity}

/-- The shape that holds the occurrence fits the kind of the new variable. -/
structure FitsAt (p : Program) (o : OccId family) (holder : ExprId) (new : VarId family) : Prop where
  case : ∀ {s : OccId .value} {map : CaseMap} {otherwise : Option ExprId} {kind : Kind},
    p.shapeOf? holder = some (.caseOf s map otherwise) → (⟨s⟩ : Use) = ⟨o⟩ →
      p.kindOf? new = some kind → map.validate kind otherwise.isSome = .ok ()
  copy : ∀ {v : VarId .value} {s : OccId .value} {body : ExprId} {kind found : Kind},
    p.shapeOf? holder = some (.letIn v (.alias s) body) → (⟨s⟩ : Use) = ⟨o⟩ →
      p.kindOf? v = some kind → p.kindOf? new = some found → kind.admitsAlias found = true

/-- Whether a variable fits depends on its kind only. -/
theorem FitsAt.congr {p : Program} {o : OccId family} {holder : ExprId} {old new : VarId family}
    (fits : FitsAt p o holder old) (alike : p.kindOf? new = p.kindOf? old) :
    FitsAt p o holder new where
  case shape same known := fits.case shape same (alike ▸ known)
  copy shape same own known := fits.copy shape same own (alike ▸ known)

/-- The occurrence may be made to refer to the new variable. -/
structure Movable (p : Program) (o : OccId family) (new : VarId family)
    (recursivity : Recursivity) : Prop where
  known : p.hasVariable new = true
  place : ∃ entry, p.occEntry? o = some entry ∧
    p.resolve none new entry.holder = .ok recursivity ∧ FitsAt p o entry.holder new

/-- The program after one occurrence was moved. -/
structure Repointed (p : Program) (o : OccId family) (new : VarId family)
    (recursivity : Recursivity) (q : Program) : Prop extends SameNodes p q where
  root : q.root = p.root
  verifying : q.verifying = p.verifying
  moved : ∀ {entry : OccurrenceEntry family}, p.occEntry? o = some entry →
    q.occEntry? o = some ⟨new, recursivity, entry.holder⟩
  others : ∀ {other : Family} {k : OccId other}, (⟨k⟩ : Use) ≠ ⟨o⟩ → q.occEntry? k = p.occEntry? k
  lists : ∀ {other : Family} {w : VarId other} {k : OccId other},
    q.Lists w k ↔ if (⟨k⟩ : Use) = ⟨o⟩ then (⟨w⟩ : Binder) = ⟨new⟩ else p.Lists w k

/-! ### Moving one occurrence -/

theorem varEntry?_redirect {other : Family} {w : VarId other} :
    varEntry? (p.modifyTable family (·.redirect o new recursivity)) w = p.varEntry? w :=
  varEntry?_modifyOccurrence

theorem occEntry?_redirect_self {entry : OccurrenceEntry family}
    (read : p.occEntry? o = some entry) :
    occEntry? (p.modifyTable family (·.redirect o new recursivity)) o =
      some ⟨new, recursivity, entry.holder⟩ :=
  occEntry?_modify_self.trans (by rw [read]; rfl)

theorem occEntry?_redirect_of_ne {other : Family} {k : OccId other} (ne : (⟨k⟩ : Use) ≠ ⟨o⟩) :
    occEntry? (p.modifyTable family (·.redirect o new recursivity)) k = p.occEntry? k :=
  occEntry?_modify_of_ne ne

/-- The set that had the occurrence is the one it is taken from. -/
theorem UsesIndexed.lists_moved (u : UsesIndexed p) {entry : OccurrenceEntry family}
    (read : p.occEntry? o = some entry) {other : Family} {w : VarId other} {k : OccId other} :
    (p.Lists w k ∧ ¬ ((⟨w⟩ : Binder) = ⟨entry.var⟩ ∧ (⟨k⟩ : Use) = ⟨o⟩)) ∨
        ((⟨w⟩ : Binder) = ⟨new⟩ ∧ (⟨k⟩ : Use) = ⟨o⟩) ↔
      if (⟨k⟩ : Use) = ⟨o⟩ then (⟨w⟩ : Binder) = ⟨new⟩ else p.Lists w k := by
  by_cases here : (⟨k⟩ : Use) = ⟨o⟩
  · cases here
    rw [if_pos rfl]
    constructor
    · rintro (⟨lists, elsewhere⟩ | ⟨eq, -⟩)
      · obtain ⟨entry', read', rfl⟩ := u.refers lists
        rw [read] at read'
        cases read'
        exact absurd ⟨rfl, rfl⟩ elsewhere
      · exact eq
    · exact fun eq => .inr ⟨eq, rfl⟩
  · simp [here]

/-- Repointing moves one occurrence from the list of one variable to that of another. -/
theorem runs_repoint (u : UsesIndexed p) {entry : OccurrenceEntry family}
    (read : p.occEntry? o = some entry) (known : p.hasVariable new = true) :
    (Edit.repoint o new recursivity).Runs p fun _ => Repointed p o new recursivity := by
  have live := (u.listed read).hasVariable
  obtain ⟨redirected, eq⟩ :
      ∃ r, r = p.modifyTable family (·.redirect o new recursivity) := ⟨_, rfl⟩
  have sameVars {other : Family} (w : VarId other) : redirected.varEntry? w = p.varEntry? w := by
    rw [eq, varEntry?_redirect]
  have sameKinds {other : Family} (w : VarId other) : redirected.kindOf? w = p.kindOf? w := by
    rw [kindOf?, sameVars, kindOf?]
  have moved : redirected.occEntry? o = some ⟨new, recursivity, entry.holder⟩ := by
    rw [eq, occEntry?_redirect_self read]
  have others {other : Family} {k : OccId other} (ne : (⟨k⟩ : Use) ≠ ⟨o⟩) :
      redirected.occEntry? k = p.occEntry? k := by
    rw [eq, occEntry?_redirect_of_ne ne]
  have live' : redirected.hasVariable entry.var = true := by
    rwa [hasVariable_eq, sameKinds, ← hasVariable_eq]
  obtain ⟨_, fetched, -⟩ := fetchVariable_ok live'
  obtain ⟨unlisted, eq'⟩ :
      ∃ r, r = redirected.modifyTable family (·.unlist entry.var o) := ⟨_, rfl⟩
  have known' : unlisted.hasVariable new = true := by
    rwa [eq', hasVariable_eq, kindOf?_unlist, sameKinds, ← hasVariable_eq]
  obtain ⟨_, fetched', -⟩ := fetchVariable_ok known'
  refine ⟨(), unlisted.modifyTable family (·.list new o), ?_, ?_⟩
  · subst eq' eq
    simp [Edit.repoint, bind, Edit.andThen, Edit.read, Edit.write, fetchOccurrence_ok read, fetched,
      fetched']
  constructor
  case lists =>
    intro other w k
    rw [lists_list known', eq', lists_unlist]
    have same : redirected.Lists w k ↔ p.Lists w k := by simp only [Lists, sameVars]
    rw [same, u.lists_moved read]
  case toSameNodes =>
    constructor
    case binding =>
      intro other w
      rw [bindingOf?_list, eq', bindingOf?_unlist, bindingOf?, sameVars, bindingOf?]
    case kind =>
      intro other w _
      rw [kindOf?_list, eq', kindOf?_unlist, sameKinds]
    case holder =>
      intro other k
      rw [occEntry?_list, eq', occEntry?_unlist]
      by_cases here : (⟨k⟩ : Use) = ⟨o⟩
      · cases here
        rw [moved, read]
        rfl
      · rw [others here]
    all_goals simp [eq, eq']
  case root => simp [eq, eq']
  case verifying => simp [eq, eq']
  case moved =>
    intro entry' read'
    rw [read] at read'
    cases read'
    rw [occEntry?_list, eq', occEntry?_unlist, moved]
  case others =>
    intro other k ne
    rw [occEntry?_list, eq', occEntry?_unlist, others ne]

namespace Repointed

theorem usesIndexed (h : Repointed p o new recursivity q) (u : UsesIndexed p)
    {entry : OccurrenceEntry family} (read : p.occEntry? o = some entry) : UsesIndexed q := by
  refine h.toSameNodes.usesIndexed u ?_ ?_
  · intro other k entry' read'
    rw [h.lists]
    by_cases here : (⟨k⟩ : Use) = ⟨o⟩
    · cases here
      rw [h.moved read] at read'
      cases read'
      simp
    · rw [if_neg here]
      exact u.listed (h.others here ▸ read')
  · intro other w k lists
    rw [h.lists] at lists
    by_cases here : (⟨k⟩ : Use) = ⟨o⟩
    · cases here
      rw [if_pos rfl] at lists
      cases lists
      exact ⟨_, h.moved read, rfl⟩
    · rw [if_neg here] at lists
      rw [h.others here]
      exact u.refers lists

theorem kindAt?_of_ne (h : Repointed p o new recursivity q) (u : UsesIndexed p)
    {k : OccId .value} {n : Node} (mem : ⟨k⟩ ∈ p.usesOf n) (ne : (⟨k⟩ : Use) ≠ ⟨o⟩) :
    q.kindAt? k = p.kindAt? k := by
  obtain ⟨entry, read, -⟩ := u.holder mem
  have live := (u.listed read).hasVariable
  rw [kindAt?_eq, kindAt?_eq, h.others ne, read, Option.bind_some, Option.bind_some, h.kind _ live]

/-- The holder of the moved occurrence obeys its rules, which look only at the source of an alias
and at a scrutinee. -/
theorem obeys_holder (h : Repointed p o new recursivity q) (c : Coherent p)
    {entry : OccurrenceEntry family} (read : p.occEntry? o = some entry)
    (known : p.hasVariable new = true) (fits : FitsAt p o entry.holder new) :
    q.Obeys (.expr entry.holder) := by
  intro shape found
  rw [h.shape] at found
  have clean := c.obey (.expr entry.holder) shape found
  obtain ⟨kind, newKind⟩ := Option.isSome_iff_exists.1 (hasVariable_eq p new ▸ known)
  have bound {v : VarId .value} (mem : ⟨v⟩ ∈ p.shapeBinders shape) : q.kindOf? v = p.kindOf? v :=
    h.kind v (c.binders.hasVariable (bindersOf_expr found ▸ mem))
  have seen {s : OccId .value} (same : (⟨s⟩ : Use) = ⟨o⟩) : q.kindAt? s = some kind := by
    cases same
    rw [kindAt?_eq, h.moved read, Option.bind_some, h.kind new known, newKind]
  have unchanged (away : ∀ k : OccId .value, ⟨k⟩ ∈ shape.uses → (⟨k⟩ : Use) ≠ ⟨o⟩) :
      q.shapeViolations entry.holder shape = [] := by
    rw [← clean]
    refine shapeViolations_congr (fun v => bound) (fun k mem => ?_) fun d _ => h.definition d
    exact h.kindAt?_of_ne c.uses (usesOf_expr found ▸ mem) (away k mem)
  cases shape with
  | letIn v value body =>
    have same := bound (v := v) (by simp [shapeBinders])
    rcases value with literal | s | ⟨tag, fields⟩
    · exact unchanged (by simp [Shape.uses, Value.uses])
    · by_cases here : (⟨s⟩ : Use) = ⟨o⟩
      · rw [shapeViolations, letViolations_eq, same]
        cases own : p.kindOf? v with
        | none => rfl
        | some expected => simp [holds, seen here, fits.copy found here own newKind]
      · exact unchanged (by simpa [Shape.uses, Value.uses] using here)
    · rw [← clean, shapeViolations, shapeViolations, letViolations_eq, letViolations_eq, same]
      rfl
  | caseOf s map otherwise =>
    by_cases here : (⟨s⟩ : Use) = ⟨o⟩
    · have ascending : firstDescent map.tags = none := by
        simp only [shapeViolations, caseViolations] at clean
        split at clean
        · split at clean <;> simp at clean
        · assumption
      simp [shapeViolations, caseViolations, ascending, seen here, fits.case found here newKind]
    · exact unchanged (by simpa [Shape.uses] using here)
  | group family members body => exact unchanged (by simp [Shape.uses])
  | _ => rfl

/-- If the holder obeys its rules after the move, the new variable fits there. -/
theorem fitsAt (h : Repointed p o new recursivity q) (c : Coherent p)
    {entry : OccurrenceEntry family} (read : p.occEntry? o = some entry)
    (known : p.hasVariable new = true) (obeys : q.Obeys (.expr entry.holder)) :
    FitsAt p o entry.holder new := by
  constructor
  · intro s map otherwise kind shape same kindNew
    cases same
    have rule := obeys _ ((h.shape _).trans shape)
    have seen : q.kindAt? s = some kind := by
      rw [kindAt?_eq, h.moved read, Option.bind_some, h.kind new known, kindNew]
    simp only [shapeViolations, caseViolations, seen] at rule
    split at rule
    · split at rule <;> cases rule
    · split at rule
      · assumption
      · cases rule
  · intro v s body kind found shape same own kindNew
    cases same
    have rule := obeys _ ((h.shape _).trans shape)
    have seen : q.kindAt? s = some found := by
      rw [kindAt?_eq, h.moved read, Option.bind_some, h.kind new known, kindNew]
    have bound : ⟨v⟩ ∈ p.bindersOf (.expr entry.holder) := by
      rw [bindersOf_expr shape]
      simp [shapeBinders]
    rw [shapeViolations, letViolations_eq, h.kind v (c.binders.hasVariable bound), own] at rule
    simpa [holds, seen] using rule

/-- Moving an occurrence to where it is changes nothing. -/
theorem refl (u : UsesIndexed p) {entry : OccurrenceEntry family}
    (read : p.occEntry? o = some entry) : Repointed p o entry.var entry.recursivity p where
  toSameNodes := .refl p
  root := rfl
  verifying := rfl
  moved := by
    rintro entry' read'
    rw [read] at read'
    cases read'
    exact read
  others _ := rfl
  lists := by
    intro other w k
    split
    · next here =>
      cases here
      constructor
      · intro lists
        obtain ⟨entry', read', rfl⟩ := u.refers lists
        rw [read] at read'
        cases read'
        rfl
      · rintro ⟨⟩
        exact u.listed read
    · rfl

/-- A coherent program stays coherent when a movable occurrence is moved. -/
theorem coherent (h : Repointed p o new recursivity q) (c : Coherent p)
    (movable : Movable p o new recursivity) : Coherent q := by
  obtain ⟨entry, read, -, fits⟩ := movable.place
  exact {
    forest := h.forest c.forest
    uses := h.usesIndexed c.uses read
    binders := h.bindersIndexed c.binders
    obey := by
      intro n
      by_cases holds : ⟨o⟩ ∈ p.usesOf n
      · obtain ⟨entry', read', rfl⟩ := c.uses.holder holds
        rw [read] at read'
        cases read'
        exact h.obeys_holder c read movable.known fits
      · refine h.obeys c fun k mem => h.kindAt?_of_ne c.uses mem ?_
        rintro same
        exact holds (same ▸ mem)
    root := h.rootStands h.root c.root }

/-- Scope is kept: the new variable is in sight of the holder. -/
theorem inScope (h : Repointed p o new recursivity q) (c : Coherent p) (scope : Scoped p)
    (movable : Movable p o new recursivity) : Scoped q := by
  obtain ⟨entry, read, resolved, -⟩ := movable.place
  intro other k entry' read' attached
  by_cases here : (⟨k⟩ : Use) = ⟨o⟩
  · cases here
    have live := hasNode_of_use (c.uses.held read)
    rw [h.moved read] at read'
    cases read'
    exact (h.resolve_iff c.forest live).2 resolved
  · rw [h.others here] at read'
    have live := hasNode_of_use (c.uses.held read')
    rw [h.isAttached h.root c.forest live] at attached
    exact (h.resolve_iff c.forest live).2 (scope read' attached)

end Repointed

/-- The variable of an occurrence fits where the occurrence is. -/
theorem Coherent.fitsAt (c : Coherent p) {entry : OccurrenceEntry family}
    (read : p.occEntry? o = some entry) : FitsAt p o entry.holder entry.var :=
  (Repointed.refl c.uses read).fitsAt c read (c.uses.listed read).hasVariable (c.obey _)

/-- What was checked for an occurrence still holds after others were moved. -/
theorem Movable.transport (movable : Movable p o new recursivity) (c : Coherent p)
    (s : SameNodes p q) : Movable q o new recursivity := by
  obtain ⟨entry, read, resolved, fits⟩ := movable.place
  have held := s.holder o
  rw [read] at held
  obtain ⟨entry', read', eq⟩ := Option.map_eq_some_iff.1 held
  refine ⟨s.hasVariable movable.known, entry', read', ?_, ?_⟩
  · rw [show entry'.holder = entry.holder from eq]
    exact (s.resolve_iff c.forest (hasNode_of_use (c.uses.held read))).2 resolved
  · rw [show entry'.holder = entry.holder from eq]
    constructor
    · intro t map otherwise kind found same known
      rw [s.shape] at found
      rw [s.kind new movable.known] at known
      exact fits.case found same known
    · intro v t body kind kind' found same own known
      rw [s.shape] at found
      have bound : ⟨v⟩ ∈ p.bindersOf (.expr entry.holder) := by
        rw [bindersOf_expr found]
        simp [shapeBinders]
      rw [s.kind v (c.binders.hasVariable bound)] at own
      rw [s.kind new movable.known] at known
      exact fits.copy found same own known

/-- What moving occurrences leaves of the program. -/
structure Moved (p q : Program) : Prop extends SameNodes p q where
  root : q.root = p.root
  verifying : q.verifying = p.verifying
  coherent : Coherent q
  inScope : Scoped p → Scoped q

theorem Moved.consistent (h : Moved p q) (c : Consistent p) : Consistent q :=
  h.toSameNodes.consistent h.root c h.coherent (h.inScope c.inScope)

theorem Moved.refl (c : Coherent p) : Moved p p :=
  { SameNodes.refl p with root := rfl, verifying := rfl, coherent := c, inScope := id }

theorem Moved.trans {middle : Program} (h : Moved p middle) (h' : Moved middle q) : Moved p q where
  toSameNodes := h.toSameNodes.trans h'.toSameNodes
  root := h'.root.trans h.root
  verifying := h'.verifying.trans h.verifying
  coherent := h'.coherent
  inScope scope := h'.inScope (h.inScope scope)

theorem Repointed.isMoved (h : Repointed p o new recursivity q) (c : Coherent p)
    (movable : Movable p o new recursivity) : Moved p q where
  toSameNodes := h.toSameNodes
  root := h.root
  verifying := h.verifying
  coherent := h.coherent c movable
  inScope scope := h.inScope c scope movable

/-- The program `q` is `p` after the occurrences were moved to the new variable, each with the
recursivity of its place. -/
structure Redirected (p : Program) (new : VarId family) (occurrences : List (OccId family))
    (q : Program) : Prop extends Moved p q where
  moved : ∀ {o : OccId family} {entry : OccurrenceEntry family}, o ∈ occurrences →
    p.occEntry? o = some entry → ∃ recursivity, p.resolve none new entry.holder = .ok recursivity ∧
      q.occEntry? o = some ⟨new, recursivity, entry.holder⟩
  others : ∀ {other : Family} {k : OccId other}, (∀ o ∈ occurrences, (⟨k⟩ : Use) ≠ ⟨o⟩) →
    q.occEntry? k = p.occEntry? k

theorem Redirected.nothing (c : Coherent p) : Redirected p new [] p :=
  { Moved.refl c with moved := by simp, others := fun _ => rfl }

theorem Repointed.redirected (h : Repointed p o new recursivity q) (c : Coherent p)
    (movable : Movable p o new recursivity) : Redirected p new [o] q where
  toMoved := h.isMoved c movable
  moved := by
    intro k entry mem read
    obtain rfl := List.mem_singleton.1 mem
    obtain ⟨entry', read', resolved, -⟩ := movable.place
    rw [read] at read'
    cases read'
    exact ⟨recursivity, resolved, h.moved read⟩
  others elsewhere := h.others (elsewhere o (by simp))

/-- What is moved last has the recursivity of its place in the first program. -/
theorem Redirected.moved_after {back : List (OccId family)} {middle : Program}
    (h' : Redirected middle new back q) (h : Moved p middle) (c : Coherent p)
    {entry : OccurrenceEntry family} (mem : o ∈ back) (read : p.occEntry? o = some entry) :
    ∃ recursivity, p.resolve none new entry.holder = .ok recursivity ∧
      q.occEntry? o = some ⟨new, recursivity, entry.holder⟩ := by
  have holder := h.holder o
  rw [read] at holder
  obtain ⟨entry', read', same⟩ := Option.map_eq_some_iff.1 holder
  rw [show entry.holder = entry'.holder from same.symm]
  obtain ⟨tag, resolved, moved⟩ := h'.moved mem read'
  have live := h.hasNode.symm.trans (hasNode_of_use (h.coherent.uses.held read'))
  exact ⟨tag, (h.resolve_iff c.forest live).1 resolved, moved⟩

/-- Some occurrences are moved and then others. -/
theorem Redirected.append {front back : List (OccId family)} {middle : Program} (c : Coherent p)
    (h : Redirected p new front middle) (h' : Redirected middle new back q) :
    Redirected p new (front ++ back) q where
  toMoved := h.toMoved.trans h'.toMoved
  moved := by
    intro k entry mem read
    by_cases again : k ∈ back
    · exact h'.moved_after h.toMoved c again read
    · have before : k ∈ front := by simpa [again] using mem
      obtain ⟨tag, resolved, moved⟩ := h.moved before read
      have stays : ∀ o ∈ back, (⟨k⟩ : Use) ≠ ⟨o⟩ := by
        rintro o mem ⟨⟩
        exact again mem
      exact ⟨tag, resolved, (h'.others stays).trans moved⟩
  others elsewhere :=
    (h'.others fun o mem => elsewhere o (List.mem_append_right _ mem)).trans
      (h.others fun o mem => elsewhere o (List.mem_append_left _ mem))

theorem runs_repoint_redirected (c : Coherent p) (movable : Movable p o new recursivity) :
    (Edit.repoint o new recursivity).Runs p fun _ => Redirected p new [o] := by
  obtain ⟨entry, read, -⟩ := movable.place
  exact (runs_repoint c.uses read movable.known).mono fun _ q repointed =>
    repointed.redirected c movable

/-- Moving occurrences one after the other. -/
theorem runs_repointAll (c : Coherent p) {moves : List (OccId family × Recursivity)}
    (movable : ∀ m ∈ moves, Movable p m.1 new m.2) :
    (repointAll new moves).Runs p fun _ => Redirected p new (moves.map Prod.fst) := by
  refine Edit.runs_forM (fun front => Redirected p new (front.map Prod.fst)) (.nothing c) ?_
  rintro front ⟨o, recursivity⟩ back q split moved
  have there := (movable (o, recursivity) (by simp [split])).transport c moved.toSameNodes
  rw [List.map_append]
  exact (runs_repoint_redirected moved.coherent there).mono fun _ _ => moved.append c

end Repoint

/-! ## The checks of a substitution -/

section Checks

variable {family : Family} {p : Program} {o : OccId family} {new : VarId family}
  {recursivity : Recursivity}

theorem fitsAt_of_checkPosition {o : OccId .value} {new : VarId .value} {holder : ExprId}
    (ok : p.checkPosition holder o new = .ok ()) : FitsAt p o holder new := by
  simp only [checkPosition, bind_eq_ok, orFault_eq_ok] at ok
  obtain ⟨shape, found, ok⟩ := ok
  constructor
  · intro s map otherwise kind shaped same known
    cases same
    rw [fetchShape_ok shaped] at found
    cases found
    simp only [if_true, bind_eq_ok, orFault_eq_ok, orRefuse_eq_ok] at ok
    obtain ⟨entry, fetched, ok⟩ := ok
    rw [kindOf?_of_fetch fetched] at known
    cases known
    exact ok
  · intro v s body kind kind' shaped same own known
    cases same
    rw [fetchShape_ok shaped] at found
    cases found
    simp only [if_true, bind_eq_ok, orFault_eq_ok, require_eq_ok] at ok
    obtain ⟨entry, fetched, entry', fetched', ok⟩ := ok
    rw [kindOf?_of_fetch fetched] at own
    rw [kindOf?_of_fetch fetched'] at known
    cases own
    cases known
    exact ok

/-- A variable that passes the check fits; the rules look at value occurrences only. -/
theorem fitsAt_of_checkFit {holder : ExprId} (ok : p.checkFit holder o new = .ok ()) :
    FitsAt p o holder new := by
  cases family with
  | value => exact fitsAt_of_checkPosition ok
  | continuation =>
    constructor
    · intro _ _ _ _ _ same
      cases same
    · intro _ _ _ _ _ _ same
      cases same

theorem checkPosition_eq_ok (c : Coherent p) {o : OccId .value} {new : VarId .value}
    {holder : ExprId} (live : p.hasNode (.expr holder) = true) (known : p.hasVariable new = true)
    (fits : FitsAt p o holder new) : p.checkPosition holder o new = .ok () := by
  obtain ⟨shape, read⟩ := Option.isSome_iff_exists.1 (hasNode_expr p holder ▸ live)
  obtain ⟨new', fetched, -⟩ := fetchVariable_ok known
  simp only [checkPosition, bind_eq_ok, orFault_eq_ok]
  refine ⟨shape, fetchShape_ok read, ?_⟩
  split
  · split
    · next same =>
      simp only [bind_eq_ok, orFault_eq_ok, orRefuse_eq_ok]
      exact ⟨new', fetched, fits.case read (by rw [same]) (kindOf?_of_fetch fetched)⟩
    · rfl
  · next v source body =>
    have bound : ⟨v⟩ ∈ p.bindersOf (.expr holder) := by
      rw [bindersOf_expr read]
      simp [shapeBinders]
    obtain ⟨own, fetchedOwn, -⟩ := fetchVariable_ok (c.binders.hasVariable bound)
    split
    · next same =>
      simp only [bind_eq_ok, orFault_eq_ok, require_eq_ok]
      exact ⟨own, fetchedOwn, new', fetched, fits.copy read (by rw [same])
        (kindOf?_of_fetch fetchedOwn) (kindOf?_of_fetch fetched)⟩
    · rfl
  · rfl

/-- What a substitution asks for: the occurrence may be moved and its holder is attached. -/
theorem checkSubstitution_eq_ok_iff (c : Coherent p) :
    p.checkSubstitution o new = .ok recursivity ↔ Movable p o new recursivity ∧
      ∀ {entry : OccurrenceEntry family}, p.occEntry? o = some entry →
        p.isAttached (.expr entry.holder) = .ok true := by
  unfold checkSubstitution
  constructor
  · intro ok
    cases read : p.occEntry? o with
    | none => simp [read] at ok
    | some entry =>
      simp only [read, bind_eq_ok, orFault_eq_ok, withReason_eq_ok, pure_eq_ok] at ok
      obtain ⟨⟨⟩, known, attached, found, ⟨⟩, yes, _, resolved, ⟨⟩, fits, rfl⟩ := ok
      refine ⟨⟨require_eq_ok.1 known, entry, read, resolved, fitsAt_of_checkFit fits⟩, ?_⟩
      rintro _ ⟨⟩
      rw [found, require_eq_ok.1 yes]
  · rintro ⟨movable, attached⟩
    obtain ⟨entry, read, resolved, fits⟩ := movable.place
    simp only [read, bind_eq_ok, orFault_eq_ok, withReason_eq_ok, pure_eq_ok]
    refine ⟨(), require_eq_ok.2 movable.known, true, attached read, (), require_eq_ok.2 rfl,
      recursivity, resolved, (), ?_, rfl⟩
    cases family with
    | value =>
      exact checkPosition_eq_ok c (hasNode_of_use (c.uses.held read)) movable.known fits
    | continuation => rfl

theorem checkSubstitution_of_attached (c : Coherent p) {entry : OccurrenceEntry family}
    (known : p.hasVariable new = true) (read : p.occEntry? o = some entry)
    (resolved : p.resolve none new entry.holder = .ok recursivity)
    (fits : FitsAt p o entry.holder new) (attached : p.isAttached (.expr entry.holder) = .ok true) :
    p.checkSubstitution o new = .ok recursivity := by
  refine (checkSubstitution_eq_ok_iff c).2
    ⟨⟨known, entry, read, resolved, fits⟩, fun {entry'} read' => ?_⟩
  rw [read] at read'
  cases read'
  exact attached

theorem checked_of_checkSubstitutions {occurrences : List (OccId family)}
    {moves : List (OccId family × Recursivity)}
    (ok : p.checkSubstitutions new occurrences = .ok moves) {m : OccId family × Recursivity}
    (mem : m ∈ moves) : p.checkSubstitution m.1 new = .ok m.2 := by
  obtain ⟨o, -, checked⟩ := exists_of_mapM ok mem
  simp only [bind_eq_ok, pure_eq_ok] at checked
  obtain ⟨recursivity, checked, rfl⟩ := checked
  exact checked

/-- The recursivities are found in the order of the occurrences. -/
theorem map_fst_of_checkSubstitutions {occurrences : List (OccId family)}
    {moves : List (OccId family × Recursivity)}
    (ok : p.checkSubstitutions new occurrences = .ok moves) : moves.map Prod.fst = occurrences := by
  have each := mapM_eq_ok ok
  clear ok
  induction each with
  | nil => rfl
  | cons first _ ih =>
    simp only [bind_eq_ok, pure_eq_ok] at first
    obtain ⟨_, -, rfl⟩ := first
    rw [List.map_cons, ih]

theorem exists_checkSubstitutions_iff {occurrences : List (OccId family)} :
    (∃ moves, p.checkSubstitutions new occurrences = .ok moves) ↔
      ∀ o ∈ occurrences, ∃ recursivity, p.checkSubstitution o new = .ok recursivity := by
  constructor
  · rintro ⟨moves, ok⟩ o mem
    rw [← map_fst_of_checkSubstitutions ok] at mem
    obtain ⟨m, inside, rfl⟩ := List.mem_map.1 mem
    exact ⟨m.2, checked_of_checkSubstitutions ok inside⟩
  · intro checked
    refine exists_mapM_eq_ok fun o mem => ?_
    obtain ⟨recursivity, found⟩ := checked o mem
    exact ⟨(o, recursivity), bind_eq_ok.2 ⟨recursivity, found, rfl⟩⟩

theorem movable_of_checkSubstitutions (c : Coherent p) {occurrences : List (OccId family)}
    {moves : List (OccId family × Recursivity)}
    (ok : p.checkSubstitutions new occurrences = .ok moves) :
    ∀ m ∈ moves, Movable p m.1 new m.2 :=
  fun _ mem => ((checkSubstitution_eq_ok_iff c).1 (checked_of_checkSubstitutions ok mem)).1

theorem decides_checkPosition (c : Coherent p) {o : OccId .value} {new : VarId .value}
    {holder : ExprId} (live : p.hasNode (.expr holder) = true) (known : p.hasVariable new = true) :
    Decides (p.checkPosition holder o new) := by
  obtain ⟨shape, read⟩ := Option.isSome_iff_exists.1 (hasNode_expr p holder ▸ live)
  obtain ⟨_, fetched, -⟩ := fetchVariable_ok known
  refine (decides_orFault (fetchShape_ok read)).bind fun found fetchedShape => ?_
  rw [orFault_eq_ok, fetchShape_ok read] at fetchedShape
  cases fetchedShape
  split
  · split
    · exact (decides_orFault fetched).bind fun _ _ => decides_orRefuse _ _
    · exact decides_pure ()
  · next v source body =>
    have bound : ⟨v⟩ ∈ p.bindersOf (.expr holder) := by
      rw [bindersOf_expr read]
      simp [shapeBinders]
    obtain ⟨_, fetchedOwn, -⟩ := fetchVariable_ok (c.binders.hasVariable bound)
    split
    · refine (decides_orFault fetchedOwn).bind fun _ _ => ?_
      exact (decides_orFault fetched).bind fun _ _ => decides_require _ _
    · exact decides_pure ()
  · exact decides_pure ()

/-- The check of a substitution accepts or refuses, and never faults. -/
theorem decides_checkSubstitution (c : Coherent p) : Decides (p.checkSubstitution o new) := by
  unfold checkSubstitution
  cases read : p.occEntry? o with
  | none => exact decides_refused _
  | some entry =>
    have live := hasNode_of_use (c.uses.held read)
    obtain ⟨above, lin⟩ := c.forest.ends live
    have here : Lineage (p.graftedEnclosing none) (.expr entry.holder) above := lin
    refine (decides_require _ _).bind fun _ accepted => ?_
    have known : p.hasVariable new = true := require_eq_ok.1 accepted
    refine (decides_orFault (isAttached_eq lin)).bind fun _ _ => ?_
    refine (decides_require _ _).bind fun _ _ => ?_
    refine (decides_withReason _ fun fault =>
      resolve_ne_faulted known here (hasNode_of_lineage lin)).bind fun _ _ => ?_
    refine Decides.bind ?_ fun _ _ => decides_pure _
    cases family with
    | value => exact decides_checkPosition c live known
    | continuation => exact decides_pure ()

end Checks

/-! ## The calls -/

section Calls

variable {family : Family} {p : Program}

/-- A substitution redirects one occurrence, or leaves the program as it was. -/
theorem ends_substitute (c : Coherent p) (o : OccId family) (new : VarId family) :
    (p.substitute o new).Ends p (Redirected p new [o]) := by
  refine Outcome.ends_commit ?_ ?_
  · refine (decides_checkSubstitution c).bind fun _ accepted => ?_
    obtain ⟨entry, read, -⟩ := ((checkSubstitution_eq_ok_iff c).1 accepted).1.place
    exact (decides_orFault (fetchOccurrence_ok read)).bind fun _ _ => decides_pure _
  · rintro ⟨recursivity, old⟩ accepted
    simp only [bind_eq_ok, pure_eq_ok] at accepted
    obtain ⟨_, checked, _, _, eq⟩ := accepted
    cases eq
    have movable := ((checkSubstitution_eq_ok_iff c).1 checked).1
    refine Outcome.ends_after (runs_repoint_redirected c movable) fun _ q redirected => ?_
    exact Outcome.ends_verified redirected redirected.verifying

/-- A substitution of all occurrences moves them, or leaves the program as it was. -/
theorem ends_substituteAll (c : Coherent p) (old new : VarId family) :
    (p.substituteAll old new).Ends p (Moved p) := by
  unfold substituteAll
  cases p.varEntry? old with
  | none => exact .refused
  | some entry =>
    simp only
    split
    · exact .done (.refl c)
    · refine Outcome.ends_commit ?_ fun moves accepted => ?_
      · exact decides_mapM fun o _ =>
          (decides_checkSubstitution c).bind fun _ _ => decides_pure _
      · have movable := movable_of_checkSubstitutions c accepted
        refine Outcome.ends_after (runs_repointAll c movable) fun _ q redirected => ?_
        exact Outcome.ends_verified redirected.toMoved redirected.verifying

end Calls

end Program

end ContinuationIR
