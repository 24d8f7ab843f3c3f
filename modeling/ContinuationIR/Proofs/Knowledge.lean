import ContinuationIR.Proofs.Findings

/-!
# What the checker knows on its way

At each place of the walk the environment of the checker can be told from the path alone: the groups
that are open, what looking a variable up gives, the scopes that functions hide. Entering a node,
meeting its binders and occurrences and leaving it again keep this up, and a node whose binders were
new leaves the environment as it was.
-/

namespace ContinuationIR
set_option autoImplicit false

namespace Program

variable {family : Family} {p : Program} {s : Audit} {node : Node} {path above : List Node}

/-- An environment, as a function of the variable. -/
abbrev Lookup := (family : Family) → VarId family → Option (Option ExprId)

/-- The checker is below the path, has its groups open and finds what `env` finds. -/
structure Knows (path : List Node) (env : Lookup) (hid : List (Environment .continuation))
    (s : Audit) : Prop where
  place : s.path = path
  groups : ∀ {e : ExprId}, e ∈ s.openGroups ↔ e ∈ opened path
  scope : ∀ {family : Family} (v : VarId family), (s.ledger family).scope.lookup v = env family v
  bound : ∀ {family : Family} {v : VarId family}, env family v ≠ none →
    v ∈ (s.ledger family).bound
  hidden : s.continuations.hidden = hid

/-- The environment below a path. -/
def envOf (p : Program) (path : List Node) : Lookup := fun _ v => p.envAt v path

/-- Before the walk nothing is in scope. -/
theorem knows_start (p : Program) : Knows [] (p.envOf []) [] .start := by
  constructor
  case scope => intro family v; cases family <;> rfl
  case bound => intro family v found; exact absurd rfl found
  all_goals simp [Audit.start, opened, Ledger.empty]

/-! ## The state inside a node -/

/-- What remains of an environment inside a node. -/
def envInside (p : Program) (node : Node) (env : Lookup) : Lookup := fun family v =>
  if family = .continuation ∧ p.isBoundary node then none else env family v

/-- An environment with binders brought into it. -/
def envWith (group : Option ExprId) (binders : List Binder) (env : Lookup) : Lookup :=
  fun family v => if (⟨v⟩ : Binder) ∈ binders then some group else env family v

/-- Inside a live node its binders come into scope, over what it lets through. -/
theorem envOf_cons (live : p.hasNode node = true) : p.envOf (node :: above) =
    envWith (p.groupOf node) (p.bindersOf node) (p.envInside node (p.envOf above)) := by
  funext family v
  simp only [envOf, envAt, envWith, envInside, stopsContinuations_eq live]
  congr 1
  simp

/-- Binders of one node come into scope one after the other or all at once. -/
theorem envWith_envWith (group : Option ExprId) (binder : Binder) (binders : List Binder)
    (env : Lookup) : envWith group binders (envWith group [binder] env) =
      envWith group (binder :: binders) env := by
  funext family v
  by_cases later : (⟨v⟩ : Binder) ∈ binders
  · simp [envWith, later]
  · simp [envWith, later]

/-- On a path without repetitions a node does not open a group that is open already. -/
theorem openedBy_ne_of_opened {e : ExprId} (distinct : (node :: above).Nodup)
    (mem : e ∈ opened above) : openedBy node above ≠ some e := by
  intro opens
  obtain ⟨-, head⟩ := openedBy_eq_some.1 opens
  cases above with
  | nil => cases head
  | cons site rest =>
    obtain rfl : site = .expr e := by simpa using head
    exact (List.nodup_cons.1 (List.nodup_cons.1 distinct).2).1 (mem_tail_of_opened mem)

/-- The scopes that are hidden inside a node. -/
def hiddenInside (p : Program) (s : Audit) (node : Node) : List (Environment .continuation) :=
  if p.isBoundary node then s.continuations.scope :: s.continuations.hidden
  else s.continuations.hidden

variable {env : Lookup} {hid : List (Environment .continuation)}

namespace Knows

/-- Entering a node moves the path down and hides what the node does not let through. -/
theorem enter (knows : Knows above env hid s) (live : p.hasNode node = true) :
    Knows (node :: above) (p.envInside node env) (p.hiddenInside s node) (p.enterState s node) := by
  have group : p.groupEntered s node = openedBy node above := by
    cases node with
    | expr e => rfl
    | defn d =>
      simp only [groupEntered, live, if_true, Audit.enclosingGroup, knows.place]
      rcases above with _ | ⟨_ | _, _⟩ <;> rfl
  constructor
  case place => simp [enterState, knows.place]
  case groups =>
    intro e
    simp only [enterState, group, opened, List.mem_append, List.mem_filter, knows.groups,
      decide_eq_true_eq, Option.mem_toList]
    by_cases eq : openedBy node above = some e
    · simp [eq]
    · simp [eq, Ne.symm eq]
  case scope =>
    intro family v
    cases family with
    | value => exact knows.scope v
    | continuation =>
      by_cases boundary : p.isBoundary node = true
      · simp [enterState, Audit.ledger, envInside, boundary, Ledger.hide]
      · simpa [enterState, Audit.ledger, envInside, boundary] using knows.scope v
  case bound =>
    intro family v found
    rw [(noted_enter p s node).bound]
    refine .inr (knows.bound fun nothing => found ?_)
    simp only [envInside, nothing, ite_self]
  case hidden =>
    by_cases boundary : p.isBoundary node = true <;>
      simp [enterState, hiddenInside, boundary, Ledger.hide]

/-- Meeting an occurrence changes nothing that is in scope. -/
theorem use (knows : Knows path env hid s) (o : OccId family) :
    Knows path env hid (useState s o) := by
  unfold useState
  split
  · exact knows
  · constructor
    case place => simpa using knows.place
    case groups => intro e; simpa using knows.groups
    case scope => intro other v; cases family <;> cases other <;> exact knows.scope v
    case bound => intro other v; cases family <;> cases other <;> exact knows.bound
    case hidden => cases family <;> exact knows.hidden

/-- Meeting a binder brings it into scope. -/
theorem bind (knows : Knows path env hid s) (site : Node) {v : VarId family}
    (live : p.hasVariable v = true) :
    Knows path (envWith (p.groupOf site) [⟨v⟩] env) hid (p.bindState s site v) := by
  have effect : p.bindState s site v = s.modifyLedger family fun l =>
      Ledger.introduce { l with bound := v :: l.bound } v (p.groupOf site) := by
    simp only [bindState, live, if_true]
  constructor
  case place => simpa [effect] using knows.place
  case groups => intro e; simpa [effect] using knows.groups
  case scope =>
    intro other w
    by_cases eq : other = family
    · subst eq
      rw [effect, Audit.modifyLedger_self, Ledger.lookup_introduce]
      simp [envWith, knows.scope w]
    · rw [effect, Audit.modifyLedger_ledger_of_ne eq, knows.scope w]
      simp [envWith, eq]
  case bound =>
    intro other w found
    rw [(noted_bind p s site v).bound]
    by_cases here : (⟨w⟩ : Binder) ∈ [(⟨v⟩ : Binder)]
    · exact .inl here
    · exact .inr (knows.bound (by simpa [envWith, here] using found))
  case hidden => rw [effect]; cases family <;> exact knows.hidden

/-- Once the binders of a node are out of scope, variables are looked up as around it, if the node
does not hide their scope. -/
theorem lookup_retired {inner : List (Environment .continuation)}
    (knows : Knows (node :: above)
      (envWith (p.groupOf node) (p.bindersOf node) (p.envInside node env)) inner s)
    (new : ∀ {family : Family} {v : VarId family}, ⟨v⟩ ∈ p.bindersOf node → env family v = none)
    (v : VarId family) (stays : ¬ (family = .continuation ∧ p.isBoundary node = true)) :
    ((s.ledger family).retire (p.boundAt family node)).scope.lookup v = env family v := by
  rw [Ledger.lookup_retire, knows.scope]
  by_cases here : (⟨v⟩ : Binder) ∈ p.bindersOf node
  · rw [if_pos (mem_boundAt.2 here), new here]
  · rw [if_neg fun mem => here (mem_boundAt.1 mem)]
    simp only [envWith, here, if_false, envInside, stays]

/-- Leaving a node whose binders were new returns to the environment around it; after a function
that is the scope it had hidden. -/
theorem leave {inner : List (Environment .continuation)} {saved : Environment .continuation}
    (knows : Knows (node :: above)
      (envWith (p.groupOf node) (p.bindersOf node) (p.envInside node env)) inner s)
    (distinct : (node :: above).Nodup)
    (new : ∀ {family : Family} {v : VarId family}, ⟨v⟩ ∈ p.bindersOf node → env family v = none)
    (hides : inner = if p.isBoundary node then saved :: hid else hid)
    (scope : p.isBoundary node = true → ∀ v, saved.lookup v = env .continuation v)
    (bound : ∀ {family : Family} {v : VarId family}, env family v ≠ none →
      v ∈ (s.ledger family).bound) :
    Knows above env hid (p.leaveState s node) := by
  have group : groupLeft s node = openedBy node above := by
    cases node with
    | expr e => rfl
    | defn d =>
      simp only [groupLeft, Audit.enclosingGroup, knows.place, List.tail_cons]
      rcases above with _ | ⟨_ | _, _⟩ <;> rfl
  constructor
  case place => simp [leaveState, knows.place]
  case groups =>
    intro e
    simp only [leaveState, group, List.mem_filter, knows.groups, decide_eq_true_eq, mem_opened_cons,
      ← openedBy_eq_some]
    constructor
    · rintro ⟨opens | mem, other⟩
      · exact absurd opens.symm other
      · exact mem
    · exact fun mem => ⟨.inr mem, (openedBy_ne_of_opened distinct mem).symm⟩
  case scope =>
    intro family v
    cases family with
    | value => exact knows.lookup_retired new v (by simp)
    | continuation =>
      by_cases boundary : p.isBoundary node = true
      · have held : s.continuations.hidden = inner := knows.hidden
        simp only [leaveState, Audit.ledger, boundary, if_true, Ledger.reveal, Ledger.retire, held,
          hides, List.headD_cons]
        exact scope boundary v
      · have same := knows.lookup_retired new v (by simp [boundary])
        simpa [leaveState, Audit.ledger, boundary] using same
  case bound =>
    intro family v found
    rw [(noted_leave p s node).bound]
    exact .inr (bound found)
  case hidden =>
    have held : s.continuations.hidden = inner := knows.hidden
    by_cases boundary : p.isBoundary node = true
    · simp [leaveState, boundary, Ledger.reveal, Ledger.retire, held, hides]
    · simp [leaveState, boundary, Ledger.retire, held, hides]

end Knows

end Program

end ContinuationIR
