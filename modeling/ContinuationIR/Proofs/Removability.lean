import ContinuationIR.Proofs.Agreement
import ContinuationIR.Proofs.Branches
import ContinuationIR.Proofs.Reach
import ContinuationIR.Proofs.Sweeping

/-!
# When removals succeed

Removing a let, selecting a branch of a case and removing the only member of a group put a child in
the place of its parent. The uses in the tree of the child stay in scope, if they do not refer to what
the parent binds. And where nothing is pending, what goes with the parent is used in what goes only,
since every use is below its binder. So the conditions that each of the calls looks at first are all
that it takes. With pending trees around, a call may also be refused since it would change such a
tree, or since one of them uses what would go, but for no other reason.
-/

namespace ContinuationIR
set_option autoImplicit false

namespace Program

variable {p : Program} {e : ExprId} {d : DefId} {tag : Nat}

/-! ## A child in the place of its parent -/

section Child

variable {target child : ExprId} (c : Consistent p)
  (link : p.enclosing (.expr child) = .ok (some (.expr target)))
  (free : ∀ {family : Family} {o : OccId family} {entry : OccurrenceEntry family},
    p.occEntry? o = some entry → ⟨entry.var⟩ ∈ p.bindersOf (.expr target) →
      ¬ p.Within (.expr child) (.expr entry.holder))
include c link free

/-- A child is refused in the place of its parent only where the parent is detached or what it binds
is still used. -/
theorem refusedOnly_checkReplace_of_child :
    RefusedOnly ChangeError.IsBlocked (p.checkReplace target child) := by
  have live := c.forest.hasNode_parent link
  rcases isAttached_eq_true_or_false c.forest live with attached | unattached
  · obtain ⟨r, s, covers, eq⟩ := checkReplace_of_child c attached link free
    rw [eq]
    exact (refusedOnly_checkSelfContained c.binders covers).bind fun _ _ => refusedOnly_of_ok rfl
  · rw [checkReplace_of_unattached live (hasNode_of_enclosing link) unattached]
    exact refusedOnly_refused trivial

/-- Where nothing is pending, a child that does not use what its parent binds can take the place of
the parent. -/
theorem exists_checkReplace_of_attached (whole : AllAttached p) :
    ∃ s, p.checkReplace target child = .ok s := by
  have f := c.forest
  refine exists_checkReplace_of_child c (whole _ (f.hasNode_parent link)) link ?_
  rintro family _ o entry n gone binds read rfl
  obtain ⟨below, outside⟩ := inside_iff.1 gone
  have attached := whole _ (hasNode_of_use (c.uses.held read))
  have within := (above_enclosing_iff.1 (c.site_above read attached binds)).1
  refine inside_iff.2 ⟨below.trans within, fun inside => ?_⟩
  rcases within.comparable inside with above | inside
  · rcases (f.within_child (f.listed link)).1 above with rfl | above
    · exact outside (f.within_self (hasNode_of_enclosing link))
    · obtain rfl := above.antisymm below
      exact free read binds inside
  · exact outside inside

end Child

/-- A call that puts a child in the place of an expression fails as its validation or as the
replacement does. -/
theorem result_commit_replace (c : Coherent p) (quiet : p.verifying = false)
    (validation : Except (Failure ChangeError) ExprId) :
    (Outcome.commit p validation fun child => (p.replace e child).answer child).result =
      validation >>= fun child => p.checkReplace e child >>= fun _ => .ok child := by
  cases validation with
  | error failure => rfl
  | ok child =>
    show ((p.replace e child).answer child).result = p.checkReplace e child >>= fun _ => .ok child
    cases checked : p.checkReplace e child with
    | ok s => simp [Outcome.answer, replace_eq_ok c quiet checked, Except.map, bind, Except.bind]
    | error failure =>
      simp [Outcome.answer, replace, checked, Outcome.commit, Outcome.failed, Except.map, bind,
        Except.bind]

/-! ## Lets -/

/-- The expression is a let whose variable is not used. -/
def UnusedLet (p : Program) (e : ExprId) : Prop :=
  ∃ v value body, p.shapeOf? e = some (.letIn v value body) ∧ ∀ o, ¬ p.Lists v o

/-- Where everything is attached, a binding can be removed exactly when it is unused. -/
theorem removeDeadLet_succeeds_iff (c : Consistent p) (quiet : p.verifying = false)
    (whole : AllAttached p) : (∃ body, (p.removeDeadLet e).result = .ok body) ↔ UnusedLet p e := by
  constructor
  · rintro ⟨body, ok⟩
    exact ((ends_removeDeadLet c.toCoherent e).holds ok).dead.unused
  · rintro ⟨v, value, body, shape, unused⟩
    have attached := whole (.expr e) (by simp [hasNode_expr, shape])
    exact ⟨body, removeDeadLet_eq_ok c quiet attached shape unused⟩

/-- An unused binding is refused only where it is detached or what it binds is still used. -/
theorem refusedOnly_removeDeadLet (c : Consistent p) (quiet : p.verifying = false)
    (unused : UnusedLet p e) : RefusedOnly ChangeError.IsBlocked (p.removeDeadLet e).result := by
  obtain ⟨v, value, body, shape, unused⟩ := unused
  have checked := (checkDeadLet_eq_ok_iff c.toCoherent).2 ⟨v, value, shape, unused⟩
  have link : p.enclosing (.expr body) = .ok (some (.expr e)) :=
    c.forest.link (by simp [childrenOf_expr shape, Shape.children])
  rw [removeDeadLet, result_commit_replace c.toCoherent quiet]
  refine (refusedOnly_of_ok checked).bind fun body' same => ?_
  rw [checked] at same
  cases same
  refine (refusedOnly_checkReplace_of_child c link ?_).bind fun _ _ => refusedOnly_of_ok rfl
  intro family o entry read binds
  rw [bindersOf_expr shape] at binds
  cases List.mem_singleton.1 binds
  exact absurd (c.uses.listed read) (unused o)

/-! ## Cases -/

/-- The expression is a case with a branch for the tag or a default. -/
def HasBranch (p : Program) (e : ExprId) (tag : Nat) : Prop :=
  ∃ scrutinee map otherwise, p.shapeOf? e = some (.caseOf scrutinee map otherwise) ∧
    (tag ∈ map.tags ∨ otherwise.isSome = true)

/-- A tag selects its own branch, and the default where it has none. -/
theorem checkBranch_eq_ok_iff {branch : ExprId} : p.checkBranch e tag = .ok branch ↔
    ∃ scrutinee map otherwise, p.shapeOf? e = some (.caseOf scrutinee map otherwise) ∧
      (map.get? tag).or otherwise = some branch := by
  unfold checkBranch
  cases read : p.expressions.get? e with
  | none => simp [shapeOf?, read]
  | some entry =>
    obtain ⟨shape, _⟩ := entry
    have found : p.shapeOf? e = some shape := by simp [shapeOf?, read]
    cases shape with
    | caseOf scrutinee map otherwise =>
      have here : (∃ scrutinee' map' otherwise',
          p.shapeOf? e = some (.caseOf scrutinee' map' otherwise') ∧
            (map'.get? tag).or otherwise' = some branch) ↔
          (map.get? tag).or otherwise = some branch := by
        rw [found]
        constructor
        · rintro ⟨_, _, _, ⟨⟩, selected⟩
          exact selected
        · exact fun selected => ⟨_, _, _, rfl, selected⟩
      rw [here]
      cases selected : (map.get? tag).or otherwise <;> simp [selected]
    | _ => simp [found]

theorem exists_checkBranch_iff (c : Coherent p) :
    (∃ branch, p.checkBranch e tag = .ok branch) ↔ HasBranch p e tag := by
  have sorted {scrutinee : OccId .value} {map : CaseMap} {otherwise : Option ExprId}
      (shape : p.shapeOf? e = some (.caseOf scrutinee map otherwise)) : Ascending map.tags :=
    (caseViolations_eq_nil_iff.1 (c.obey (.expr e) _ shape)).1
  have selects {scrutinee : OccId .value} {map : CaseMap} {otherwise : Option ExprId}
      (shape : p.shapeOf? e = some (.caseOf scrutinee map otherwise)) :
      (∃ branch, (map.get? tag).or otherwise = some branch) ↔
        tag ∈ map.tags ∨ otherwise.isSome = true := by
    rw [← Option.isSome_iff_exists, Option.isSome_or, Bool.or_eq_true]
    refine or_congr_left ?_
    rw [← not_iff_not, ← CaseMap.get?_eq_none_iff (sorted shape)]
    simp
  simp only [checkBranch_eq_ok_iff]
  constructor
  · rintro ⟨branch, scrutinee, map, otherwise, shape, selected⟩
    exact ⟨scrutinee, map, otherwise, shape, (selects shape).1 ⟨branch, selected⟩⟩
  · rintro ⟨scrutinee, map, otherwise, shape, has⟩
    obtain ⟨branch, selected⟩ := (selects shape).2 has
    exact ⟨branch, scrutinee, map, otherwise, shape, selected⟩

/-- The selected branch is right below the case, which binds nothing. -/
theorem selected_of_checkBranch (c : Coherent p) {branch : ExprId}
    (checked : p.checkBranch e tag = .ok branch) :
    p.enclosing (.expr branch) = .ok (some (.expr e)) ∧ p.bindersOf (.expr e) = [] := by
  obtain ⟨scrutinee, map, otherwise, shape, selected⟩ := checkBranch_eq_ok_iff.1 checked
  refine ⟨c.forest.link ?_, bindersOf_expr shape⟩
  rw [childrenOf_expr shape, Shape.children, List.mem_append]
  cases found : map.get? tag with
  | some child =>
    rw [found, Option.some_or] at selected
    cases selected
    exact .inl (List.mem_map.2 ⟨_, CaseMap.mem_of_search found, rfl⟩)
  | none =>
    rw [found, Option.none_or] at selected
    simp [selected]

/-- Where everything is attached, a branch can be selected exactly when the case has one for the
tag. -/
theorem selectCaseBranch_succeeds_iff (c : Consistent p) (quiet : p.verifying = false)
    (whole : AllAttached p) :
    (∃ branch, (p.selectCaseBranch e tag).result = .ok branch) ↔ HasBranch p e tag := by
  rw [← exists_checkBranch_iff c.toCoherent, selectCaseBranch,
    result_commit_replace c.toCoherent quiet]
  simp only [bind_eq_ok]
  constructor
  · rintro ⟨_, branch, checked, -⟩
    exact ⟨branch, checked⟩
  · rintro ⟨branch, checked⟩
    obtain ⟨link, binders⟩ := selected_of_checkBranch c.toCoherent checked
    obtain ⟨s, accepted⟩ := exists_checkReplace_of_attached c link (by simp [binders]) whole
    exact ⟨branch, branch, checked, s, accepted, rfl⟩

theorem refusedOnly_selectCaseBranch (c : Consistent p) (quiet : p.verifying = false)
    (has : HasBranch p e tag) :
    RefusedOnly ChangeError.IsBlocked (p.selectCaseBranch e tag).result := by
  obtain ⟨branch, checked⟩ := (exists_checkBranch_iff c.toCoherent).2 has
  obtain ⟨link, binders⟩ := selected_of_checkBranch c.toCoherent checked
  have only := refusedOnly_checkReplace_of_child c link (by simp [binders])
  rw [selectCaseBranch, checked, result_commit_replace c.toCoherent quiet]
  exact only.bind fun _ _ => refusedOnly_of_ok rfl

/-! ## Definitions -/

/-- The definition is neither a root nor a public function, and its name is used in its own tree
only. -/
structure UsedInside (p : Program) (d : DefId) : Prop where
  definition : ∃ definition, p.definitionOf? d = some definition ∧ definition.header.kind ≠ .root ∧
    ∀ name returnTo, definition.header ≠ .function name returnTo .exported
  inside : ∀ {family : Family} {name : VarId family} {o : OccId family}
    {entry : OccurrenceEntry family}, p.nameOf family d = some name → p.occEntry? o = some entry →
      entry.var = name → p.Within (.defn d) (.expr entry.holder)

/-- All definitions but the root and the exported functions may be removed. -/
theorem exists_checkRemovable_iff {header : Header} :
    (∃ named, checkRemovable d header = .ok named) ↔
      header.kind ≠ .root ∧ ∀ name returnTo, header ≠ .function name returnTo .exported := by
  rcases header with _ | ⟨_, _, _ | _⟩ | _ <;> simp [checkRemovable, Header.kind]

/-- Where nothing is pending, the variables that are bound in the tree of a definition are used in it
only. -/
theorem UsedInside.dead (used : UsedInside p d) (c : Consistent p) (whole : AllAttached p) :
    DeadDefinition p d := by
  obtain ⟨definition, found, removable⟩ := used.definition
  constructor
  case attached => exact whole _ (by simp [hasNode_defn, found])
  case removable => exact ⟨definition, found, exists_checkRemovable_iff.2 removable⟩
  case unused =>
    rintro family _ o entry (name | ⟨n, within, binds⟩) read rfl
    · exact used.inside name read rfl
    · have attached := whole _ (hasNode_of_use (c.uses.held read))
      exact within.trans (above_enclosing_iff.1 (c.site_above read attached binds)).1

/-- Where everything is attached, a definition can be removed exactly when only its own body uses
it. -/
theorem removeDeadDefinition_succeeds_iff (c : Consistent p) (quiet : p.verifying = false)
    (whole : AllAttached p) : (p.removeDeadDefinition d).result = .ok () ↔ UsedInside p d := by
  constructor
  · intro ok
    have dead := ((ends_removeDeadDefinition c.toCoherent d).holds ok).dead c.toCoherent
    obtain ⟨definition, found, accepted⟩ := dead.removable
    exact ⟨⟨definition, found, exists_checkRemovable_iff.1 accepted⟩,
      fun name => dead.unused (.inl name)⟩
  · intro used
    obtain ⟨r, accepted⟩ := exists_checkDeadDefinition (used.dead c whole) c
    exact removeDeadDefinition_of_checked c quiet accepted

theorem refusedOnly_removeDeadDefinition (c : Consistent p) (quiet : p.verifying = false)
    (used : UsedInside p d) :
    RefusedOnly ChangeError.IsBlocked (p.removeDeadDefinition d).result := by
  obtain ⟨definition, found, removable⟩ := used.definition
  obtain ⟨entry, read, rfl⟩ := Option.map_eq_some_iff.1 found
  obtain ⟨named, accepted⟩ := exists_checkRemovable_iff.2 removable
  cases checked : p.checkDeadDefinition d with
  | ok r => exact refusedOnly_of_ok (removeDeadDefinition_of_checked c quiet checked)
  | error failure =>
    obtain ⟨reason, rfl, blocked⟩ :=
      refusedOnly_checkDeadDefinition c.toCoherent read accepted failure checked
    rw [removeDeadDefinition, checked]
    exact refusedOnly_refused blocked

/-- Removals succeed when they should. Where nothing is pending, a let can be removed just if its
variable is not used, a branch of a case can be selected just if the case has it or a default, and a
definition can be removed just if it is neither a root nor public and its name is used in its own tree
only. Whatever is pending, a call that meets its condition is refused only because the place is
detached or a variable that would go is still used. -/
theorem removals_succeed_iff (reachable : Reachable p) :
    (AllAttached p →
      (∀ e, (∃ body, (p.removeDeadLet e).result = .ok body) ↔ UnusedLet p e) ∧
      (∀ e tag, (∃ branch, (p.selectCaseBranch e tag).result = .ok branch) ↔ HasBranch p e tag) ∧
      ∀ d, (p.removeDeadDefinition d).result = .ok () ↔ UsedInside p d) ∧
    (∀ e, UnusedLet p e → RefusedOnly ChangeError.IsBlocked (p.removeDeadLet e).result) ∧
    (∀ e tag, HasBranch p e tag →
      RefusedOnly ChangeError.IsBlocked (p.selectCaseBranch e tag).result) ∧
    ∀ d, UsedInside p d → RefusedOnly ChangeError.IsBlocked (p.removeDeadDefinition d).result := by
  obtain ⟨c, quiet⟩ := reachable.consistent
  refine ⟨fun whole => ⟨fun e => ?_, fun e tag => ?_, fun d => ?_⟩, fun e => ?_, fun e tag => ?_,
    fun d => ?_⟩
  · exact removeDeadLet_succeeds_iff c quiet whole
  · exact selectCaseBranch_succeeds_iff c quiet whole
  · exact removeDeadDefinition_succeeds_iff c quiet whole
  · exact refusedOnly_removeDeadLet c quiet
  · exact refusedOnly_selectCaseBranch c quiet
  · exact refusedOnly_removeDeadDefinition c quiet

/-- A loop that nothing enters, and a case with a let in one branch that nothing uses. -/
def untidy : Program :=
  run [.freshContinuation "return", .freshContinuation "loop", .freshValue "x" .any,
    .freshValue "y" .any, .jump ⟨⟨0⟩, .nonRecursive⟩ [⟨⟨0⟩, .nonRecursive⟩],
    .letIn ⟨1⟩ (.constant .unit) ⟨0⟩, .unreachable,
    .caseOf ⟨⟨0⟩, .nonRecursive⟩ [(0, ⟨1⟩)] (some ⟨2⟩), .jump ⟨⟨1⟩, .recursive⟩ [],
    .continuation ⟨1⟩ [] ⟨4⟩, .group .continuation [⟨0⟩] ⟨3⟩, .root ⟨0⟩ [⟨0⟩] ⟨[.any], .any⟩ ⟨5⟩,
    .install ⟨1⟩]

theorem untidy_reachable : Reachable untidy := reachable_run _

/-- The same with a pending jump that uses the variable of the let. -/
def untidyPending : Program :=
  (untidy.perform (.jump ⟨⟨0⟩, .nonRecursive⟩ [⟨⟨1⟩, .nonRecursive⟩])).program

/-- Each of the removals can be made, but not that of the root. With the pending jump around, the
default cannot be selected, since the let would go. -/
theorem untidy_removals :
    (UnusedLet untidy ⟨1⟩ ∧ HasBranch untidy ⟨3⟩ 7 ∧ UsedInside untidy ⟨0⟩ ∧
      ¬ UsedInside untidy ⟨1⟩) ∧
    ∃ reason, (untidyPending.selectCaseBranch ⟨3⟩ 7).result = .error (.refused reason) ∧
      reason.IsBlocked := by
  obtain ⟨c, -⟩ := untidy_reachable.consistent
  have silent : untidy.check = .ok [] := by decide +kernel
  have whole : AllAttached untidy := ((c.check_eq_nil_iff c.marked).1 silent).2
  obtain ⟨lets, branches, definitions⟩ := (removals_succeed_iff untidy_reachable).1 whole
  have body : (untidy.removeDeadLet ⟨1⟩).result = .ok ⟨0⟩ := by decide +kernel
  have default : (untidy.selectCaseBranch ⟨3⟩ 7).result = .ok ⟨2⟩ := by decide +kernel
  have loop : (untidy.removeDeadDefinition ⟨0⟩).result = .ok () := by decide +kernel
  have root : (untidy.removeDeadDefinition ⟨1⟩).result ≠ .ok () := by decide +kernel
  have case : ∃ scrutinee map, untidyPending.shapeOf? ⟨3⟩ = some (.caseOf scrutinee map (some ⟨2⟩)) :=
    ⟨⟨1⟩, ⟨[(0, ⟨1⟩)]⟩, by decide +kernel⟩
  have stuck : (untidyPending.selectCaseBranch ⟨3⟩ 7).result =
      .error (.refused (.binderStillUsed (⟨1⟩ : VarId .value) 1)) := by decide +kernel
  refine ⟨⟨(lets _).1 ⟨_, body⟩, (branches _ _).1 ⟨_, default⟩, (definitions _).1 loop,
    mt (definitions _).2 root⟩, ?_⟩
  obtain ⟨-, -, refused, -⟩ :=
    removals_succeed_iff (.call _ untidy_reachable : Reachable untidyPending)
  obtain ⟨scrutinee, map, shape⟩ := case
  obtain ⟨reason, eq, blocked⟩ := refused ⟨3⟩ 7 ⟨_, _, _, shape, .inr rfl⟩ _ stuck
  exact ⟨reason, eq ▸ stuck, blocked⟩

end Program

end ContinuationIR
