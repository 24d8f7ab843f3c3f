import ContinuationIR.Proofs.Reach
import ContinuationIR.Proofs.Stray

/-!
# What the checker sees at an occurrence

Wherever the checker meets an occurrence, the variables in scope are those whose binders reach the
expression that holds it, and the scopes that it has put aside have the other continuations whose
binders are above. This is so whatever the walk has found before, hence it tells which violation is
reported for an occurrence that does not see its variable.
-/

namespace ContinuationIR
set_option autoImplicit false

/-- The violation says that the occurrence does not see its variable. -/
def Violation.IsUnseen {family : Family} (o : OccId family) (violation : Violation) : Prop :=
  ∃ v, violation = .outOfScope o v ∨ violation = .escapingContinuation o v

namespace Program

variable {family : Family} {p : Program} {v : VarId family} {binding : Binding} {n node : Node}
  {path above : List Node}

/-! ## Visible and hidden variables of a path -/

/-- One step of a lookup, for a variable that is bound once. -/
theorem envAt_cons (b : BindersIndexed p) (bound : p.bindingOf? v = some binding)
    (live : p.hasNode n = true) : p.envAt v (n :: above) ≠ none ↔ n = binding.site ∨
      (p.envAt v above ≠ none ∧ ¬ (family = .continuation ∧ p.isBoundary n = true)) := by
  rw [envAt, stopsContinuations_eq live]
  simp only [b.mem_iff bound]
  by_cases here : n = binding.site
  · simp [here]
  · by_cases stops : family = .continuation ∧ p.isBoundary n = true <;> simp [here, stops]

/-- Below a path one finds the variables whose binders reach there. -/
theorem envAt_ne_none_iff (b : BindersIndexed p) (bound : p.bindingOf? v = some binding)
    (lin : Lineage p.enclosing n above) :
    p.envAt v above ≠ none ↔ p.Reaches p.enclosing family binding.site n := by
  induction lin with
  | top top => simpa [envAt] using fun reached : Reaches .. => not_above_of_top top reached.1
  | @up n parent above up lin ih =>
    rw [envAt_cons b bound (hasNode_of_lineage lin parent List.mem_cons_self)]
    by_cases here : parent = binding.site
    · simp only [here, true_or, true_iff]
      exact reaches_parent (here ▸ lin) (here ▸ up)
    · rw [reaches_up lin up here, ih]
      simp [here]

/-- The variable was in scope above some definition of the path that hides it. -/
def HiddenAt (p : Program) (v : VarId family) : List Node → Prop
  | [] => False
  | d :: above => (family = .continuation ∧ p.isBoundary d = true ∧ p.envAt v above ≠ none) ∨
      p.HiddenAt v above

/-- Where its binder is above, a variable is visible or hidden: what a boundary takes out of sight
it hides, so nothing is lost on the way down. -/
theorem visible_or_hidden_iff (b : BindersIndexed p) (bound : p.bindingOf? v = some binding)
    (lin : Lineage p.enclosing n above) :
    p.envAt v above ≠ none ∨ p.HiddenAt v above ↔ Above p.enclosing binding.site n := by
  induction lin with
  | top top => simpa [envAt, HiddenAt] using not_above_of_top top
  | @up n parent above up lin ih =>
    rw [envAt_cons b bound (hasNode_of_lineage lin parent List.mem_cons_self), lin.above_up up,
      HiddenAt, ← ih, @eq_comm _ binding.site]
    tauto

/-- No path hides a value: function bodies stop continuations only. -/
theorem not_hiddenAt_value (v : VarId .value) (path : List Node) : ¬ p.HiddenAt v path := by
  induction path with
  | nil => exact id
  | cons d above ih => simpa [HiddenAt] using ih

/-! ## The scopes that are put aside -/

/-- The scopes have the continuations that the path hides. -/
def Conceals (p : Program) (path : List Node) (hid : List (Environment .continuation)) : Prop :=
  ∀ v : VarId .continuation,
    (hid.any fun scope => (scope.lookup v).isSome) = true ↔ p.HiddenAt v path

theorem conceals_nil (p : Program) : p.Conceals [] [] := by
  simp [Conceals, HiddenAt]

variable {s : Audit} {env : Lookup} {hid : List (Environment .continuation)}

theorem Conceals.inside (conceals : p.Conceals above hid)
    (knows : Knows above (p.envOf above) hid s) (node : Node) :
    p.Conceals (node :: above) (p.hiddenInside s node) := by
  intro v
  have scope : s.continuations.scope.lookup v = p.envAt v above := knows.scope v
  rw [hiddenInside, knows.hidden, HiddenAt, ← conceals v]
  by_cases boundary : p.isBoundary node = true
  · simp [boundary, scope, Option.isSome_iff_ne_none]
  · simp [boundary]

/-- Below the path the checker has in scope what is visible there and put aside what is hidden. -/
structure Sees (p : Program) (path : List Node) (s : Audit) : Prop where
  scope : ∀ {family : Family} (v : VarId family), (s.ledger family).scope.lookup v = p.envAt v path
  hidden : ∀ v : VarId .continuation, s.continuations.hides v = true ↔ p.HiddenAt v path

/-- An expression hides nothing, so inside it the checker sees what it sees around it. -/
theorem Knows.sees {e : ExprId} (knows : Knows path (p.envInside (.expr e) (p.envOf above)) hid s)
    (conceals : p.Conceals above hid) : p.Sees above s where
  scope v := by simp [knows.scope v, envInside, isBoundary, envOf]
  hidden v := by rw [← conceals v, ← knows.hidden]; rfl

/-! ## Runs in sight -/

/-- At each occurrence that the run meets the checker sees what its place sees, and the run ends as
described. -/
structure Sighted (p : Program) (s : Audit) (events : List Event) (last : Audit → Prop) : Prop where
  met : ∀ {front back : List Event} {e : ExprId} {family : Family} {o : OccId family},
    events = front ++ .mark (.expr e) (.use o) :: back →
      ∃ above, Lineage p.enclosing (.expr e) above ∧ p.Sees above (front.foldl p.advance s)
  after : last (events.foldl p.advance s)

namespace Sighted

variable {first second : List Event} {mid last : Audit → Prop}

theorem nil (here : last s) : Sighted p s [] last :=
  ⟨fun eq => by simp at eq, here⟩

/-- A run goes on from where another ended. -/
theorem followed (one : Sighted p s first mid)
    (rest : Sighted p (first.foldl p.advance s) second last) :
    Sighted p s (first ++ second) last := by
  refine ⟨fun {front back e family o} eq => ?_, by rw [List.foldl_append]; exact rest.after⟩
  rcases List.append_eq_append_iff.1 eq with ⟨more, rfl, later⟩ | ⟨more, rfl, later⟩
  · rw [List.foldl_append]
    exact rest.met later
  · cases more with
    | nil =>
      rw [List.append_nil] at rest
      have start : second = [] ++ .mark (.expr e) (.use o) :: back := later.symm
      exact rest.met start
    | cons event more =>
      cases later
      exact one.met rfl

theorem append (one : Sighted p s first mid) (two : ∀ t, mid t → Sighted p t second last) :
    Sighted p s (first ++ second) last :=
  one.followed (two _ one.after)

theorem single {event : Event}
    (here : ∀ {e : ExprId} {family : Family} {o : OccId family}, event = .mark (.expr e) (.use o) →
      ∃ above, Lineage p.enclosing (.expr e) above ∧ p.Sees above s)
    (after : last (p.advance s event)) : Sighted p s [event] last := by
  refine ⟨fun {front back e family o} eq => ?_, after⟩
  obtain ⟨rfl, rfl, rfl⟩ : front = [] ∧ .mark (.expr e) (.use o) = event ∧ back = [] := by
    simpa [List.singleton_eq_append_iff] using eq
  exact here rfl

end Sighted

/-! ## The walk over a tree -/

section Phases

variable {visit : Node → List Event} {steps : List Step}

theorem sighted_uses (only : ∀ step ∈ steps, IsUse step) (knows : Knows path env hid s)
    (sees : ∀ e t, node = .expr e → Knows path env hid t →
      ∃ above, Lineage p.enclosing (.expr e) above ∧ p.Sees above t) :
    Sighted p s (steps.flatMap (Step.expand visit node)) (Knows path env hid) := by
  induction steps generalizing s with
  | nil => exact .nil knows
  | cons step rest ih =>
    obtain ⟨head, tail⟩ := List.forall_mem_cons.1 only
    rw [List.flatMap_cons]
    cases step with
    | mark m =>
      have one : Sighted p s [.mark node m] (Knows path env hid) := by
        refine .single (fun eq => ?_) ?_
        · cases eq
          exact sees _ s rfl knows
        · cases m with
          | use o =>
            cases node with
            | expr e => exact knows.use o
            | defn d => exact knows
          | value => cases node <;> exact knows
          | _ => cases head
      exact one.append fun t knows => ih tail knows
    | _ => cases head

/-- Binding adds to what is known along the path, and looks nothing up. -/
theorem sighted_binds (only : ∀ step ∈ steps, IsBind step) (knows : Knows path env hid s)
    (live : ∀ binder ∈ steps.filterMap Step.binder?, p.hasVariable binder.var = true) :
    Sighted p s (steps.flatMap (Step.expand visit node))
      (Knows path (envWith (p.groupOf node) (steps.filterMap Step.binder?) env) hid) := by
  induction steps generalizing s env with
  | nil => exact .nil knows
  | cons step rest ih =>
    obtain ⟨head, tail⟩ := List.forall_mem_cons.1 only
    rw [List.flatMap_cons]
    cases step with
    | broken fault =>
      have one : Sighted p s [.broken fault] (Knows path env hid) := .single (by simp) knows
      exact one.append fun t knows => ih tail knows live
    | mark m =>
      cases m with
      | @bind family v =>
        have one : Sighted p s [.mark node (.bind v)]
            (Knows path (envWith (p.groupOf node) [⟨v⟩] env) hid) :=
          .single (by simp) (knows.bind node (live ⟨v⟩ (by simp [Step.binder?])))
        refine one.append fun t knows => ?_
        have later := ih tail knows fun binder mem => live binder (by simp [Step.binder?, mem])
        rwa [envWith_envWith] at later
      | _ => cases head
    | child c => cases head

/-- Children that leave the knowledge as they found it can be walked in a row. -/
theorem sighted_descents (only : ∀ step ∈ steps, IsDescent step) (knows : Knows path env hid s)
    (visits : ∀ c ∈ steps.filterMap Step.child?, ∀ t, Knows path env hid t →
      Sighted p t (visit c) (Knows path env hid)) :
    Sighted p s (steps.flatMap (Step.expand visit node)) (Knows path env hid) := by
  induction steps generalizing s with
  | nil => exact .nil knows
  | cons step rest ih =>
    obtain ⟨head, tail⟩ := List.forall_mem_cons.1 only
    rw [List.flatMap_cons]
    cases step with
    | broken fault => cases head
    | mark m =>
      cases m with
      | branch tag =>
        have one : Sighted p s [.mark node (.branch tag)] (Knows path env hid) :=
          .single (by simp) (by cases node <;> exact knows)
        exact one.append fun t knows => ih tail knows visits
      | _ => cases head
    | child c =>
      have one : Sighted p s (visit c) (Knows path env hid) :=
        visits c (by simp [Step.child?]) s knows
      refine one.append fun t knows => ih tail knows fun c' mem => visits c' ?_
      simp only [List.filterMap_cons, Step.child?, List.mem_cons]
      exact .inr mem

end Phases

/-- A node binds no variable that is visible around it. -/
theorem envAt_eq_none_of_binder (b : BindersIndexed p) (lin : Lineage p.enclosing node above)
    (mem : ⟨v⟩ ∈ p.bindersOf node) : p.envAt v above = none := by
  obtain ⟨role, bound⟩ := b.binding mem
  by_contra found
  exact not_above_self ((envAt_ne_none_iff b bound lin).1 found).1

/-- Everything that happens in a node, given the visits of its children. -/
theorem sighted_inside {visit : Node → List Event} (b : BindersIndexed p)
    (lin : Lineage p.enclosing node above) (knows : Knows above (p.envOf above) hid s)
    (conceals : p.Conceals above hid)
    (visits : ∀ c ∈ p.childrenOf node, ∀ t,
      Knows (node :: above) (p.envOf (node :: above)) (p.hiddenInside s node) t →
      Sighted p t (visit c)
        (Knows (node :: above) (p.envOf (node :: above)) (p.hiddenInside s node))) :
    Sighted p (p.enterState s node) ((p.scriptOf node).flatMap (Step.expand visit node))
      (Knows (node :: above) (p.envOf (node :: above)) (p.hiddenInside s node)) := by
  have live : p.hasNode node = true := hasNode_of_lineage lin node List.mem_cons_self
  obtain ⟨us, bs, cs, script, onlyUses, onlyBinds, onlyDescents, -, binders, children⟩ :=
    exists_parts p node
  rw [script, List.flatMap_append, List.flatMap_append]
  -- occurrences come before the binders of the node, so they see what is visible around it
  have first : Sighted p _ (us.flatMap (Step.expand visit node)) _ :=
    sighted_uses onlyUses (knows.enter live) fun e t here inner => by
      subst here
      refine ⟨above, lin, inner.sees ?_⟩
      simpa [hiddenInside, isBoundary, knows.hidden] using conceals
  refine first.append fun t inner => ?_
  refine (sighted_binds onlyBinds inner fun binder mem => ?_).append fun t inner => ?_
  · exact b.hasVariable (binders ▸ mem)
  · rw [← binders, ← envOf_cons live] at inner
    exact sighted_descents onlyDescents inner fun c mem => visits c (children ▸ mem)

/-- The plain walk over a tree sees at each occurrence what its place sees, whatever it finds. -/
theorem sighted_eventsBy (f : Forest p) (b : BindersIndexed p) {depth : Nat}
    (lin : Lineage p.enclosing node above) (deep : p.nodeSlots < above.length + depth)
    (knows : Knows above (p.envOf above) hid s) (conceals : p.Conceals above hid) :
    Sighted p s (p.eventsBy none depth node) (Knows above (p.envOf above) hid) := by
  induction depth generalizing node above hid s with
  | zero =>
    have := length_le_nodeSlots lin.nodup (hasNode_of_lineage lin)
    rw [List.length_cons] at this
    omega
  | succ depth ih =>
    have live : p.hasNode node = true := hasNode_of_lineage lin node List.mem_cons_self
    have head : Sighted p s [.enter node] (fun _ => True) := .single (by simp) trivial
    have inside : Sighted p (p.enterState s node)
        ((p.scriptOf node).flatMap (Step.expand (p.eventsBy none depth) node)) _ :=
      sighted_inside b lin knows conceals fun c mem t inner =>
        ih (.up (f.link mem) lin) (by rw [List.length_cons]; omega) inner
          (conceals.inside knows node)
    have body := head.followed inside
    rw [eventsBy_of_live live]
    refine body.followed (.single (by simp) ?_)
    exact knows.after_leave body.after live (sited_inside live depth) lin.nodup
      (envAt_eq_none_of_binder b lin)

/-! ## What is reported -/

variable {violation : Violation} {o : OccId family} {entry : OccurrenceEntry family}

/-- A use whose binder is not in sight is reported where it is met first. -/
theorem unseen_mem_useFindings (unseen : Violation.IsUnseen o violation) {e : ExprId}
    (new : o ∉ (s.ledger family).held) (read : p.occEntry? o = some entry)
    (live : p.hasVariable entry.var = true) :
    violation ∈ p.useFindings s e o ↔ violation ∈ scopeFindings s o entry := by
  obtain ⟨var, found⟩ := Slots.contains_iff.1 live
  have known : p.varEntry? entry.var = some var := found
  simp only [useFindings, new, if_false, read, known, List.mem_append, or_iff_right_iff_imp]
  obtain ⟨v, rfl | rfl⟩ := unseen <;> grind

/-- An occurrence is said not to see its variable only where it is met. -/
theorem use_of_unseen_finds (unseen : Violation.IsUnseen o violation) {event : Event}
    (mem : violation ∈ p.finds s event) : event.use? = some ⟨o⟩ := by
  cases event with
  | enter node =>
    rcases List.mem_append.1 mem with mem | mem
    · obtain ⟨v, rfl | rfl⟩ := unseen <;> grind
    · have rule := ofRule_of_node mem
      obtain ⟨v, rfl | rfl⟩ := unseen <;> exact rule.elim
  | mark site m =>
    cases m with
    | bind v =>
      simp only [finds, bindFindings] at mem
      obtain ⟨v, rfl | rfl⟩ := unseen <;> grind
    | use o' =>
      cases site with
      | defn d => cases mem
      | expr e =>
        simp only [finds, useFindings, scopeFindings] at mem
        obtain ⟨v, rfl | rfl⟩ := unseen <;> grind [Event.use?]
    | value => cases mem
    | branch _ => cases mem
  | missing node =>
    obtain ⟨n, -, rfl⟩ := List.mem_map.1 mem
    obtain ⟨v, eq | eq⟩ := unseen <;> cases eq
  | again node =>
    obtain ⟨v, rfl | rfl⟩ := unseen <;> simp [finds] at mem
  | leave _ => cases mem
  | broken _ => cases mem

theorem use_of_unseen_findings (unseen : Violation.IsUnseen o violation) {events : List Event}
    (mem : violation ∈ p.findings s events) : ⟨o⟩ ∈ events.filterMap Event.use? := by
  induction events generalizing s with
  | nil => cases mem
  | cons event rest ih =>
    rcases List.mem_append.1 mem with mem | mem
    · exact List.mem_filterMap.2 ⟨event, List.mem_cons_self, use_of_unseen_finds unseen mem⟩
    · obtain ⟨later, mem, met⟩ := List.mem_filterMap.1 (ih mem)
      exact List.mem_filterMap.2 ⟨later, List.mem_cons_of_mem _ mem, met⟩

/-- What the checker compares of the tables, scoping and the rules of the nodes apart. -/
structure Indexed (p : Program) : Prop where
  forest : Forest p
  uses : UsesIndexed p
  binders : BindersIndexed p
  root : RootStands p

/-- The scopes of the values are never put aside. -/
theorem values_hidden_foldl (p : Program) (s : Audit) (events : List Event) :
    (events.foldl p.advance s).values.hidden = s.values.hidden := by
  induction events generalizing s with
  | nil => rfl
  | cons event rest ih =>
    rw [List.foldl_cons, ih]
    cases event with
    | mark site m =>
      cases m with
      | @bind family v =>
        simp only [advance, bindState]
        split <;> cases family <;> rfl
      | @use family o =>
        cases site with
        | defn d => rfl
        | expr e =>
          simp only [advance, useState]
          split <;> cases family <;> rfl
      | _ => cases site <;> rfl
    | _ => rfl

/-- The walk meets an occurrence once. -/
theorem Follows.met_once {r : DefId} (follows : Follows p r) (u : UsesIndexed p)
    {front back : List Event} (trail : p.auditTrail = front ++ .mark node (.use o) :: back) :
    ⟨o⟩ ∉ front.filterMap Event.use? ∧ ⟨o⟩ ∉ back.filterMap Event.use? := by
  have once : (p.auditTrail.filterMap Event.use?).Nodup :=
    follows.uses.nodup_iff.2 (u.nodup_uses follows.distinct)
  have middle : (Event.mark node (.use o)).use? = some ⟨o⟩ := rfl
  rw [trail, List.filterMap_append, List.filterMap_cons_some middle] at once
  have split := List.nodup_middle.1 once
  simpa using (List.nodup_cons.1 split).1

namespace Indexed

variable (i : Indexed p)
include i

/-- The checker meets an attached occurrence once, with a sight of its place, and says there or
nowhere that the occurrence does not see its variable. -/
theorem exists_sight (read : p.occEntry? o = some entry)
    (attached : p.isAttached (.expr entry.holder) = .ok true) :
    ∃ t above, Lineage p.enclosing (.expr entry.holder) above ∧ p.Sees above t ∧
      t.values.hidden = [] ∧ ∀ violation, Violation.IsUnseen o violation →
        (violation ∈ p.findings .start p.auditTrail ↔ violation ∈ scopeFindings t o entry) := by
  obtain ⟨r, installed, within⟩ :=
    (isAttached_iff i.forest i.root (hasNode_of_isAttached attached)).1 attached
  have top := i.root r installed
  have follows := i.forest.follows installed top
  have walked : p.Walked (.expr entry.holder) := mem_entered_auditTrail.1 (follows.nodes.2 within)
  obtain ⟨front, back, trail⟩ := List.append_of_mem
    (use_mem_auditTrail.2 ⟨walked, i.uses.held read⟩)
  have sighted : Sighted p .start p.auditTrail (Knows [] (p.envOf []) []) := by
    rw [follows.trail]
    exact sighted_eventsBy i.forest i.binders (.top top) (by simp) (knows_start p) (conceals_nil p)
  obtain ⟨above, lin, sees⟩ := sighted.met trail
  obtain ⟨notBefore, notAfter⟩ := follows.met_once i.uses trail
  have sited : Sited front := fun d family o mem =>
    sited_auditTrail p (trail ▸ List.mem_append_left _ mem)
  have new : o ∉ ((front.foldl p.advance .start).ledger family).held := by
    rw [(noted_foldl p .start sited).held, not_or]
    refine ⟨notBefore, ?_⟩
    cases family <;> exact List.not_mem_nil
  refine ⟨_, above, lin, sees, values_hidden_foldl p .start front, fun violation unseen => ?_⟩
  rw [trail, findings_append, List.mem_append, findings, List.mem_append]
  have silent {t : Audit} {events : List Event} (other : ⟨o⟩ ∉ events.filterMap Event.use?) :
      violation ∉ p.findings t events := fun mem => other (use_of_unseen_findings unseen mem)
  simp only [silent notBefore, silent notAfter, false_or, or_false]
  exact unseen_mem_useFindings unseen new read (i.uses.listed read).hasVariable

/-- The checker reports an attached occurrence as out of scope if the binder of its variable is not
above it, and as an escaping continuation if the binder is above and hidden. -/
theorem check_unseen (read : p.occEntry? o = some entry)
    (attached : p.isAttached (.expr entry.holder) = .ok true)
    (bound : p.bindingOf? entry.var = some binding) : ∃ report, p.check = .ok report ∧
      (.outOfScope o entry.var ∈ report ↔
        ¬ Above p.enclosing binding.site (.expr entry.holder)) ∧
      (.escapingContinuation o entry.var ∈ report ↔
        Above p.enclosing binding.site (.expr entry.holder) ∧
          ¬ p.Reaches p.enclosing family binding.site (.expr entry.holder)) := by
  obtain ⟨t, above, lin, sees, plain, speaks⟩ := i.exists_sight read attached
  have hides : (t.ledger family).hides entry.var = true ↔ p.HiddenAt entry.var above := by
    cases family with
    | value => simp [Audit.ledger, Ledger.hides, plain, not_hiddenAt_value]
    | continuation => exact sees.hidden entry.var
  have reported (violation : Violation) (unseen : Violation.IsUnseen o violation) :
      violation ∈ p.findings .start p.auditTrail ++ p.leftovers p.lastState ↔
        violation ∈ scopeFindings t o entry := by
    rw [List.mem_append, speaks violation unseen, or_iff_left]
    obtain ⟨v, rfl | rfl⟩ := unseen <;> simp [mem_leftovers]
  refine ⟨_, i.forest.check_eq_append i.root, ?_⟩
  rw [reported _ ⟨_, .inl rfl⟩, reported _ ⟨_, .inr rfl⟩, scopeFindings, sees.scope,
    ← envAt_ne_none_iff i.binders bound lin, ← visible_or_hidden_iff i.binders bound lin, ← hides]
  cases seen : p.envAt entry.var above with
  | none => by_cases hidden : (t.ledger family).hides entry.var = true <;> simp [hidden]
  | some group =>
    dsimp only
    split <;> simp

end Indexed

end Program

end ContinuationIR
