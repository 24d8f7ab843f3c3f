import ContinuationIR.Proofs.Environment
import ContinuationIR.Proofs.Span

/-!
# What the checker finds

Each event changes the state of the checker and may add to its report, and the two do not depend on
each other: what was reported before has no influence on what follows. So a run of the checker is a
run of states and, beside it, the list of what is found at each of them. A run breaks down only at
an event that is itself broken.
-/

namespace ContinuationIR
set_option autoImplicit false

namespace Audit

variable {family : Family} {s : Audit}

@[simp] theorem report_nil (s : Audit) : s.report [] = s := by simp [report]

/-- Reports add up in their order. -/
@[simp] theorem report_report (s : Audit) (first second : List Violation) :
    (s.report first).report second = s.report (first ++ second) := by
  simp [report]

theorem expect_eq (s : Audit) (condition : Bool) (violation : Violation) :
    s.expect condition violation = s.report (if condition then [] else [violation]) := by
  cases condition <;> simp [expect]

@[simp] theorem report_ledger (s : Audit) (found : List Violation) (family : Family) :
    (s.report found).ledger family = s.ledger family := by
  cases family <;> rfl

@[simp] theorem report_modifyLedger (s : Audit) (found : List Violation) (family : Family)
    (f : Ledger family → Ledger family) :
    (s.report found).modifyLedger family f = (s.modifyLedger family f).report found := by
  cases family <;> rfl

@[simp] theorem modifyLedger_path (s : Audit) (family : Family) (f : Ledger family → Ledger family) :
    (s.modifyLedger family f).path = s.path := by
  cases family <;> rfl

@[simp] theorem modifyLedger_openGroups (s : Audit) (family : Family)
    (f : Ledger family → Ledger family) :
    (s.modifyLedger family f).openGroups = s.openGroups := by
  cases family <;> rfl

@[simp] theorem modifyLedger_entered (s : Audit) (family : Family)
    (f : Ledger family → Ledger family) : (s.modifyLedger family f).entered = s.entered := by
  cases family <;> rfl

@[simp] theorem modifyLedger_self (s : Audit) (family : Family)
    (f : Ledger family → Ledger family) :
    (s.modifyLedger family f).ledger family = f (s.ledger family) := by
  cases family <;> rfl

theorem modifyLedger_ledger_of_ne {other : Family} (ne : other ≠ family)
    (f : Ledger family → Ledger family) :
    (s.modifyLedger family f).ledger other = s.ledger other := by
  cases family <;> cases other <;> first | rfl | exact absurd rfl ne

end Audit

/-- The violation is of a rule for a node on its own. -/
def Violation.OfRule : Violation → Prop
  | .unorderedTags _ | .malformedCase .. | .incompatibleValue .. | .misplacedDefinition ..
  | .definitionTypeMismatch _ => True
  | _ => False

namespace Program

variable {family : Family} {p : Program} {s : Audit}

/-! ## The state and the findings of one event -/

/-- What the rules for single nodes find at a node. -/
def nodeViolations (p : Program) : Node → List Violation
  | .expr e =>
    match p.shapeOf? e with
    | some shape => p.shapeViolations e shape
    | none => []
  | .defn d =>
    match p.definitionOf? d with
    | some definition => p.definitionViolations d definition
    | none => []

/-- The rules for shapes report violations of rules only. -/
theorem ofRule_of_shape {p : Program} {e : ExprId} {shape : Shape} {violation : Violation}
    (mem : violation ∈ p.shapeViolations e shape) : violation.OfRule := by
  cases shape with
  | letIn v value body =>
    simp only [shapeViolations, letViolations] at mem
    repeat' split at mem
    all_goals simp_all [Violation.OfRule]
  | caseOf scrutinee map otherwise =>
    simp only [shapeViolations, caseViolations] at mem
    repeat' split at mem
    all_goals simp_all [Violation.OfRule]
  | group family members body =>
    obtain ⟨d, -, found⟩ := List.mem_filterMap.1 mem
    repeat' split at found
    all_goals cases found
    trivial
  | _ => simp [shapeViolations] at mem

/-- A node on its own can only break a rule for its shape. -/
theorem ofRule_of_node {p : Program} {node : Node} {violation : Violation}
    (mem : violation ∈ p.nodeViolations node) : violation.OfRule := by
  cases node with
  | expr e =>
    simp only [nodeViolations] at mem
    split at mem
    · exact ofRule_of_shape mem
    · cases mem
  | defn d =>
    simp only [nodeViolations, definitionViolations] at mem
    repeat' split at mem
    all_goals simp_all [Violation.OfRule]

/-- A node obeys the rules just if the checker has nothing to say about it on its own. -/
theorem obeys_iff {p : Program} {node : Node} : p.Obeys node ↔ p.nodeViolations node = [] := by
  cases node with
  | expr e => cases read : p.shapeOf? e <;> simp [Obeys, nodeViolations, read]
  | defn d => cases read : p.definitionOf? d <;> simp [Obeys, nodeViolations, read]

/-- The group of which a member is entered. -/
def groupEntered (p : Program) (s : Audit) : Node → Option ExprId
  | .expr _ => none
  | .defn d => if p.hasNode (.defn d) then s.enclosingGroup else none

/-- The state inside a node. -/
def enterState (p : Program) (s : Audit) (node : Node) : Audit :=
  { s with
    path := node :: s.path
    entered := node :: s.entered
    openGroups := (p.groupEntered s node).toList ++
      s.openGroups.filter fun e => some e ≠ p.groupEntered s node
    continuations := if p.isBoundary node then s.continuations.hide else s.continuations }

/-- The group of which a member is left. -/
def groupLeft (s : Audit) : Node → Option ExprId
  | .expr _ => none
  | .defn _ => { s with path := s.path.tail }.enclosingGroup

/-- The state after a node. -/
def leaveState (p : Program) (s : Audit) (node : Node) : Audit :=
  let inner := s.continuations.retire (p.boundAt .continuation node)
  { s with
    path := s.path.tail
    openGroups := s.openGroups.filter fun e => some e ≠ groupLeft s node
    values := s.values.retire (p.boundAt .value node)
    continuations := if p.isBoundary node then inner.reveal else inner }

/-- The state after a binder. -/
def bindState (p : Program) (s : Audit) (site : Node) (var : VarId family) : Audit :=
  s.modifyLedger family fun l =>
    let l := { l with bound := var :: l.bound }
    if p.hasVariable var then l.introduce var (p.groupOf site) else l

/-- The state after an occurrence. -/
def useState (s : Audit) (occurrence : OccId family) : Audit :=
  if occurrence ∈ (s.ledger family).held then s
  else s.modifyLedger family fun l => { l with held := occurrence :: l.held }

/-- The state after an event, leaving out what the event adds to the report. -/
def advance (p : Program) (s : Audit) : Event → Audit
  | .enter node => p.enterState s node
  | .leave node => p.leaveState s node
  | .mark site (.bind var) => p.bindState s site var
  | .mark (.expr _) (.use occurrence) => useState s occurrence
  | .mark (.defn _) (.use _) | .mark _ .value | .mark _ (.branch _) => s
  | .again _ | .missing _ | .broken _ => s

/-- What is found when a node is entered. -/
def enterFindings (p : Program) (s : Audit) (node : Node) : List Violation :=
  (match p.enclosing node with
    | .ok found => if found = s.path.head? then [] else [.wrongEnclosing node s.path.head? found]
    | .error _ => []) ++ p.nodeViolations node

/-- What is found at a binder. -/
def bindFindings (p : Program) (s : Audit) (site : Node) (var : VarId family) : List Violation :=
  (if var ∈ (s.ledger family).bound then [.boundTwice var] else []) ++
    match p.varEntry? var with
    | none => [.danglingVariable var site]
    | some entry =>
      let found := entry.binding.map (·.site)
      if found = some site then [] else [.wrongBindingSite var site found]

/-- What is found when the variable of an occurrence is looked up. -/
def scopeFindings (s : Audit) (occurrence : OccId family) (entry : OccurrenceEntry family) :
    List Violation :=
  match (s.ledger family).scope.lookup entry.var with
  | some group =>
    let expected := recursivityIn s.openGroups group
    if entry.recursivity = expected then []
    else [.wrongRecursivity occurrence expected entry.recursivity]
  | none =>
    if (s.ledger family).hides entry.var then [.escapingContinuation occurrence entry.var]
    else [.outOfScope occurrence entry.var]

/-- What is found at an occurrence. -/
def useFindings (p : Program) (s : Audit) (holder : ExprId) (occurrence : OccId family) :
    List Violation :=
  if occurrence ∈ (s.ledger family).held then [.sharedOccurrence occurrence]
  else
    match p.occEntry? occurrence with
    | none => [.danglingOccurrence occurrence holder]
    | some entry =>
      match p.varEntry? entry.var with
      | none => [.danglingOccurrence occurrence holder]
      | some var =>
        (if entry.holder = holder then [] else [.wrongHolder occurrence holder entry.holder]) ++
        (if var.occurrences.contains occurrence then []
          else [.unregisteredOccurrence occurrence entry.var]) ++
        scopeFindings s occurrence entry

/-- What an event adds to the report. -/
def finds (p : Program) (s : Audit) : Event → List Violation
  | .enter node => p.enterFindings s node
  | .leave _ => []
  | .mark site (.bind var) => p.bindFindings s site var
  | .mark (.expr e) (.use occurrence) => p.useFindings s e occurrence
  | .mark (.defn _) (.use _) | .mark _ .value | .mark _ (.branch _) => []
  | .again node => [.sharedNode node]
  | .missing node => s.path.head?.toList.map (.danglingNode node ·)
  | .broken _ => []

/-- What a run of events adds to the report. -/
def findings (p : Program) : Audit → List Event → List Violation
  | _, [] => []
  | s, event :: rest => p.finds s event ++ p.findings (p.advance s event) rest

theorem auditLink_eq (p : Program) (s : Audit) (node : Node) : p.auditLink s node = s.report
    (match p.enclosing node with
      | .ok found => if found = s.path.head? then [] else [.wrongEnclosing node s.path.head? found]
      | .error _ => []) := by
  unfold auditLink
  cases p.enclosing node with
  | error _ => simp
  | ok found => simp [Audit.expect_eq]

/-- Entering a node is noting it, with what is found about its link and the rules. -/
theorem auditEnter_eq (p : Program) (s : Audit) (node : Node) :
    p.auditEnter s node = (p.enterState s node).report (p.enterFindings s node) := by
  unfold auditEnter enterFindings
  rw [auditLink_eq]
  generalize (match p.enclosing node with
    | .ok found => if found = s.path.head? then [] else [Violation.wrongEnclosing node s.path.head? found]
    | .error _ => []) = link
  cases node with
  | expr e =>
    cases read : p.expressions.get? e <;>
      simp [read, nodeViolations, shapeOf?, enterState, groupEntered, isBoundary, auditPush,
        Audit.report]
  | defn d =>
    cases read : p.definitions.get? d with
    | none =>
      simp [read, nodeViolations, definitionOf?, enterState, groupEntered, isBoundary, auditPush,
        Audit.report, hasNode, Slots.contains]
    | some entry =>
      by_cases boundary : entry.definition.header.isFunctionBoundary = true <;>
        simp [read, nodeViolations, definitionOf?, enterState, groupEntered, isBoundary, auditPush,
          Audit.report, hasNode, Slots.contains, boundary, Audit.modifyLedger]

/-- Leaving a node puts back what was in scope around it. -/
theorem auditLeave_eq (p : Program) (s : Audit) (node : Node) :
    p.auditLeave s node = p.leaveState s node := by
  unfold auditLeave leaveState
  cases node with
  | expr e => simp [groupLeft, isBoundary, Audit.modifyLedger]
  | defn d =>
    dsimp only
    cases read : p.definitions.get? d with
    | none =>
      have stays : p.isBoundary (.defn d) = false := by simp [isBoundary, definitionOf?, read]
      rw [stays]
      rfl
    | some entry =>
      have hides : p.isBoundary (.defn d) = entry.definition.header.isFunctionBoundary := by
        simp [isBoundary, definitionOf?, read]
      rw [hides]
      dsimp only
      cases entry.definition.header.isFunctionBoundary <;> rfl

/-- Meeting a binder is noting it, with what is found about its binding. -/
theorem auditBind_eq (p : Program) (s : Audit) (site : Node) (var : VarId family) :
    p.auditBind s site var = (p.bindState s site var).report (p.bindFindings s site var) := by
  have live : p.hasVariable var = (p.varEntry? var).isSome := by
    simp [hasVariable, Slots.contains, varEntry?]
  unfold auditBind bindState bindFindings
  rw [live]
  cases family <;> cases p.varEntry? var <;>
    simp [Audit.expect_eq, Audit.modifyLedger, Audit.report, Audit.ledger] <;> congr

/-- Whether an occurrence is in scope is judged and not noted. -/
theorem auditScope_eq (s : Audit) (occurrence : OccId family) (entry : OccurrenceEntry family) :
    auditScope s occurrence entry = s.report (scopeFindings s occurrence entry) := by
  unfold auditScope scopeFindings
  cases (s.ledger family).scope.lookup entry.var with
  | none =>
    by_cases hides : (s.ledger family).hides entry.var = true <;> simp [hides]
  | some group => cases group <;> simp [Audit.expect_eq, recursivityIn] <;> congr

theorem scopeFindings_report (s : Audit) (found : List Violation) (occurrence : OccId family)
    (entry : OccurrenceEntry family) :
    scopeFindings (s.report found) occurrence entry = scopeFindings s occurrence entry := by
  cases family <;> rfl

/-- Looking a variable up does not depend on the occurrences met so far. -/
theorem scopeFindings_hold (s : Audit) (held : List (OccId family) → List (OccId family))
    (occurrence : OccId family) (entry : OccurrenceEntry family) :
    scopeFindings (s.modifyLedger family fun l => { l with held := held l.held }) occurrence entry =
      scopeFindings s occurrence entry := by
  cases family <;> rfl

/-- Meeting an occurrence is noting it, with what is found about its entry and its scope. -/
theorem auditUse_eq (p : Program) (s : Audit) (holder : ExprId) (occurrence : OccId family) :
    p.auditUse s holder occurrence =
      (useState s occurrence).report (p.useFindings s holder occurrence) := by
  unfold auditUse useState useFindings
  by_cases again : occurrence ∈ (s.ledger family).held
  · simp [again]
  · simp only [List.contains_iff_mem, again, if_false]
    cases found : p.occEntry? occurrence with
    | none => rfl
    | some entry =>
      cases live : p.varEntry? entry.var with
      | none => simp only [live]
      | some var =>
        simp only [live, Audit.expect_eq, auditScope_eq, Audit.report_report, scopeFindings_report,
          scopeFindings_hold s (occurrence :: ·), decide_eq_true_eq, List.append_assoc]

/-! ## Runs -/

/-- An event that is not broken adds to the report and changes the state. -/
theorem auditEvent_eq (p : Program) (s : Audit) (event : Event) : p.auditEvent s event =
    match event with
    | .broken fault => .error fault
    | event => .ok ((p.advance s event).report (p.finds s event)) := by
  cases event with
  | enter node => simp [auditEvent, advance, finds, auditEnter_eq]
  | leave node => simp [auditEvent, advance, finds, auditLeave_eq]
  | mark site m =>
    cases m with
    | value => simp [auditEvent, advance, finds]
    | branch _ => simp [auditEvent, advance, finds]
    | bind var => simp [auditEvent, advance, finds, auditBind_eq]
    | use occurrence =>
      cases site <;> simp [auditEvent, advance, finds, auditUse_eq]
  | missing node =>
    cases above : s.path.head? <;> simp [auditEvent, advance, finds, above]
  | again node => simp [auditEvent, advance, finds]
  | broken fault => rfl

/-- What was reported before does not matter to how the state goes on. -/
theorem advance_report (p : Program) (s : Audit) (found : List Violation) (event : Event) :
    p.advance (s.report found) event = (p.advance s event).report found := by
  cases event with
  | enter node => cases node <;> rfl
  | leave node => cases node <;> rfl
  | mark site m =>
    cases m with
    | @bind family v => cases family <;> rfl
    | @use family o =>
      cases site with
      | defn _ => rfl
      | expr e =>
        simp only [advance, useState, Audit.report_ledger, Audit.report_modifyLedger]
        split <;> rfl
    | _ => rfl
  | _ => rfl

/-- What was reported before does not matter to what is found. -/
theorem finds_report (p : Program) (s : Audit) (found : List Violation) (event : Event) :
    p.finds (s.report found) event = p.finds s event := by
  cases event with
  | mark site m =>
    cases m with
    | @bind family v => simp only [finds, bindFindings, Audit.report_ledger]
    | @use family o =>
      cases site with
      | defn _ => rfl
      | expr e => simp only [finds, useFindings, Audit.report_ledger, scopeFindings_report]
    | _ => rfl
  | _ => rfl

theorem findings_report (p : Program) (s : Audit) (found : List Violation) (events : List Event) :
    p.findings (s.report found) events = p.findings s events := by
  induction events generalizing s with
  | nil => rfl
  | cons event rest ih => rw [findings, findings, finds_report, advance_report, ih]

theorem foldl_advance_report (p : Program) (s : Audit) (found : List Violation)
    (events : List Event) :
    events.foldl p.advance (s.report found) = (events.foldl p.advance s).report found := by
  induction events generalizing s with
  | nil => rfl
  | cons event rest ih => rw [List.foldl_cons, List.foldl_cons, advance_report, ih]

/-- What is found along two stretches is found along the first, and then along the second. -/
theorem findings_append (p : Program) (s : Audit) (first second : List Event) :
    p.findings s (first ++ second) =
      p.findings s first ++ p.findings (first.foldl p.advance s) second := by
  induction first generalizing s with
  | nil => rfl
  | cons event rest ih => simp [findings, ih]

/-- What an event finds at the state it is met in is part of what the run finds. -/
theorem exists_finds {event : Event} {events : List Event} (mem : event ∈ events) (s : Audit) :
    ∃ t, ∀ violation ∈ p.finds t event, violation ∈ p.findings s events := by
  induction events generalizing s with
  | nil => cases mem
  | cons first rest ih =>
    rcases List.mem_cons.1 mem with rfl | mem
    · exact ⟨s, fun violation found => List.mem_append_left _ found⟩
    · obtain ⟨t, found⟩ := ih mem (p.advance s first)
      exact ⟨t, fun violation here => List.mem_append_right _ (found violation here)⟩

/-- A run without broken events adds what it finds to the report. -/
theorem foldlM_auditEvent {events : List Event} (whole : ∀ fault, .broken fault ∉ events)
    (s : Audit) : events.foldlM p.auditEvent s =
      .ok ((events.foldl p.advance s).report (p.findings s events)) := by
  induction events generalizing s with
  | nil => simp [findings, pure, Except.pure]
  | cons event rest ih =>
    have step : p.auditEvent s event = .ok ((p.advance s event).report (p.finds s event)) := by
      rw [auditEvent_eq]
      cases event with
      | broken fault => exact absurd List.mem_cons_self (whole fault)
      | _ => rfl
    have tail := ih fun fault mem => whole fault (List.mem_cons_of_mem _ mem)
    simp only [List.foldlM_cons, step, bind, Except.bind, tail, findings_report,
      foldl_advance_report, Audit.report_report, List.foldl_cons, findings]

/-- A run breaks down at a broken event. -/
theorem foldlM_auditEvent_of_broken {events : List Event} {fault : Fault}
    (broken : .broken fault ∈ events) (s : Audit) :
    ∃ fault, .broken fault ∈ events ∧ events.foldlM p.auditEvent s = .error fault := by
  induction events generalizing s with
  | nil => simp at broken
  | cons event rest ih =>
    rw [List.foldlM_cons, auditEvent_eq]
    cases event with
    | broken first => exact ⟨first, List.mem_cons_self, rfl⟩
    | _ =>
      have later : .broken fault ∈ rest := by simpa using broken
      obtain ⟨first, mem, run⟩ := ih later _
      exact ⟨first, List.mem_cons_of_mem _ mem, run⟩

/-! ## What a run takes note of -/

/-- What is noted by the end of a run. -/
structure Noted (s t : Audit) (events : List Event) : Prop where
  entered : ∀ {n : Node}, n ∈ t.entered ↔ n ∈ events.filterMap Event.entered? ∨ n ∈ s.entered
  bound : ∀ {family : Family} {v : VarId family}, v ∈ (t.ledger family).bound ↔
    ⟨v⟩ ∈ events.filterMap Event.binder? ∨ v ∈ (s.ledger family).bound
  held : ∀ {family : Family} {o : OccId family}, o ∈ (t.ledger family).held ↔
    ⟨o⟩ ∈ events.filterMap Event.use? ∨ o ∈ (s.ledger family).held

/-- Occurrences are met at expressions only. -/
def Sited (events : List Event) : Prop :=
  ∀ ⦃d : DefId⦄ ⦃family : Family⦄ ⦃o : OccId family⦄, .mark (.defn d) (.use o) ∉ events

/-- An event that enters, binds and holds nothing adds nothing to what was noted. -/
theorem Noted.of_same {t : Audit} {event : Event} (entered : t.entered = s.entered)
    (bound : ∀ family, (t.ledger family).bound = (s.ledger family).bound)
    (held : ∀ family, (t.ledger family).held = (s.ledger family).held)
    (noNode : event.entered? = none) (noBinder : event.binder? = none)
    (noUse : event.use? = none) : Noted s t [event] := by
  constructor <;> simp [entered, bound, held, noNode, noBinder, noUse]

theorem noted_enter (p : Program) (s : Audit) (node : Node) :
    Noted s (p.enterState s node) [.enter node] := by
  have same (family : Family) :
      ((p.enterState s node).ledger family).bound = (s.ledger family).bound ∧
        ((p.enterState s node).ledger family).held = (s.ledger family).held := by
    cases family with
    | value => exact ⟨rfl, rfl⟩
    | continuation =>
      simp only [Audit.ledger, enterState]
      split <;> exact ⟨rfl, rfl⟩
  have entered : (p.enterState s node).entered = node :: s.entered := rfl
  constructor <;> simp [same, entered, Event.entered?, Event.binder?, Event.use?]

theorem noted_leave (p : Program) (s : Audit) (node : Node) :
    Noted s (p.leaveState s node) [.leave node] := by
  have same (family : Family) :
      ((p.leaveState s node).ledger family).bound = (s.ledger family).bound ∧
        ((p.leaveState s node).ledger family).held = (s.ledger family).held := by
    cases family with
    | value => exact ⟨rfl, rfl⟩
    | continuation =>
      simp only [Audit.ledger, leaveState]
      split <;> exact ⟨rfl, rfl⟩
  exact .of_same rfl (fun family => (same family).1) (fun family => (same family).2) rfl rfl rfl

theorem noted_bind (p : Program) (s : Audit) (site : Node) (var : VarId family) :
    Noted s (p.bindState s site var) [.mark site (.bind var)] := by
  constructor
  case entered => simp [bindState, Event.entered?]
  case bound =>
    intro other v
    by_cases eq : other = family
    · subst eq
      by_cases live : p.hasVariable var = true <;>
        simp [bindState, Event.binder?, Ledger.introduce, live, eq_comm]
    · rw [bindState, Audit.modifyLedger_ledger_of_ne eq]
      simp [Event.binder?, eq]
  case held =>
    intro other o
    by_cases eq : other = family
    · subst eq
      by_cases live : p.hasVariable var = true <;>
        simp [bindState, Event.use?, Ledger.introduce, live]
    · rw [bindState, Audit.modifyLedger_ledger_of_ne eq]
      simp [Event.use?]

theorem noted_use (s : Audit) (e : ExprId) (occurrence : OccId family) :
    Noted s (useState s occurrence) [.mark (.expr e) (.use occurrence)] := by
  unfold useState
  split
  case isTrue again =>
    constructor
    case held =>
      intro other o
      simp only [List.filterMap_cons, Event.use?, List.filterMap_nil, List.mem_singleton]
      constructor
      · exact .inr
      · rintro (eq | mem)
        · cases eq
          exact again
        · exact mem
    all_goals simp [Event.entered?, Event.binder?]
  case isFalse new =>
    constructor
    case entered => simp [Event.entered?]
    case bound =>
      intro other v
      by_cases eq : other = family
      · subst eq
        simp [Event.binder?]
      · rw [Audit.modifyLedger_ledger_of_ne eq]
        simp [Event.binder?]
    case held =>
      intro other o
      by_cases eq : other = family
      · subst eq
        simp [Event.use?]
      · rw [Audit.modifyLedger_ledger_of_ne eq]
        simp [Event.use?, eq]

/-- Each event adds to the notes what it enters, binds and holds. -/
theorem noted_advance (p : Program) (s : Audit) {event : Event} (sited : Sited [event]) :
    Noted s (p.advance s event) [event] := by
  cases event with
  | enter node => exact noted_enter p s node
  | leave node => exact noted_leave p s node
  | mark site m =>
    cases m with
    | bind var => exact noted_bind p s site var
    | use occurrence =>
      cases site with
      | expr e => exact noted_use s e occurrence
      | defn d => exact absurd List.mem_cons_self (@sited d _ occurrence)
    | _ => exact .of_same rfl (fun _ => rfl) (fun _ => rfl) rfl rfl rfl
  | _ => exact .of_same rfl (fun _ => rfl) (fun _ => rfl) rfl rfl rfl

/-- A run notes the nodes it enters, the variables it binds and the occurrences it meets. -/
theorem noted_foldl (p : Program) (s : Audit) {events : List Event} (sited : Sited events) :
    Noted s (events.foldl p.advance s) events := by
  induction events generalizing s with
  | nil => constructor <;> simp
  | cons event rest ih =>
    have head : Noted s (p.advance s event) [event] := noted_advance p s fun d family o mem =>
      @sited d family o (List.mem_cons.2 (.inl (List.mem_singleton.1 mem)))
    have tail := ih (p.advance s event) fun d family o mem => sited (List.mem_cons_of_mem _ mem)
    have split : event :: rest = [event] ++ rest := rfl
    constructor
    case entered =>
      intro n
      rw [List.foldl_cons, tail.entered, head.entered, split, List.filterMap_append, List.mem_append]
      tauto
    case bound =>
      intro family v
      rw [List.foldl_cons, tail.bound, head.bound, split, List.filterMap_append, List.mem_append]
      tauto
    case held =>
      intro family o
      rw [List.foldl_cons, tail.held, head.held, split, List.filterMap_append, List.mem_append]
      tauto

end Program

end ContinuationIR
