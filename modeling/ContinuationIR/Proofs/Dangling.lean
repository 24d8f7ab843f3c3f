import ContinuationIR.Proofs.Exactness

/-!
# What the checker says about dead handles

On any table the checker either breaks off, which it does just if it enters a group with a dead
member, or it names every dead child, dead binder and dead occurrence of the nodes it enters, and
no others. A dead root is not entered, and nothing is said about it.
-/

namespace ContinuationIR
set_option autoImplicit false

/-- The violation names a dead handle. -/
def Violation.IsDangling : Violation → Prop
  | .danglingNode .. | .danglingVariable .. | .danglingOccurrence .. => True
  | _ => False

namespace Program

variable {family : Family} {p : Program} {s : Audit} {n c : Node} {event : Event}
  {events : List Event} {violation : Violation}

/-- The occurrence is dead or refers to a dead variable. -/
def Unusable (p : Program) (o : OccId family) : Prop :=
  ∀ entry, p.occEntry? o = some entry → p.hasVariable entry.var = false

/-! ## Where such violations come from -/

/-- The rules for single nodes leave dead handles to the walk. -/
theorem not_isDangling_of_node (mem : violation ∈ p.nodeViolations n) : ¬ violation.IsDangling := by
  have rule := ofRule_of_node mem
  cases violation <;> first | exact id | exact rule.elim

/-- What is found on entering a node does not name anything dead. -/
theorem not_isDangling_of_enter (mem : violation ∈ p.enterFindings s n) :
    ¬ violation.IsDangling := by
  rcases List.mem_append.1 mem with mem | mem
  · repeat' split at mem
    all_goals simp_all [Violation.IsDangling]
  · exact not_isDangling_of_node mem

/-- What is found about the scope of an occurrence does not name anything dead. -/
theorem not_isDangling_of_scope {o : OccId family} {entry : OccurrenceEntry family}
    (mem : violation ∈ scopeFindings s o entry) : ¬ violation.IsDangling := by
  simp only [scopeFindings] at mem
  repeat' split at mem
  all_goals simp_all [Violation.IsDangling]

/-- What the walk leaves over is not reported as dangling. -/
theorem not_isDangling_of_leftover (mem : violation ∈ p.leftovers s) : ¬ violation.IsDangling := by
  rcases mem_leftovers.1 mem with ⟨n, rfl, -⟩ | ⟨_, v, rfl, -⟩ | ⟨_, v, o, rfl, -⟩ | ⟨_, o, rfl, -⟩
  all_goals exact id

/-- What says of a binder that it is dead. -/
theorem mem_bindFindings (dangling : violation.IsDangling) {v : VarId family} :
    violation ∈ p.bindFindings s n v ↔
      violation = .danglingVariable v n ∧ p.hasVariable v = false := by
  rw [hasVariable_eq_false, bindFindings, List.mem_append]
  constructor
  · rintro (mem | mem)
    · split at mem <;> simp_all [Violation.IsDangling]
    · repeat' split at mem
      all_goals simp_all [Violation.IsDangling]
  · rintro ⟨rfl, dead⟩
    simp [dead]

/-- What says of an occurrence that it is dead. -/
theorem mem_useFindings (dangling : violation.IsDangling) {e : ExprId} {o : OccId family} :
    violation ∈ p.useFindings s e o ↔
      violation = .danglingOccurrence o e ∧ o ∉ (s.ledger family).held ∧ p.Unusable o := by
  unfold useFindings Unusable
  by_cases again : o ∈ (s.ledger family).held
  · simp only [again, if_true, List.mem_singleton, not_true_eq_false, false_and, and_false, iff_false]
    rintro rfl
    exact dangling
  · simp only [again, if_false, not_false_eq_true, true_and]
    cases found : p.occEntry? o with
    | none => simp
    | some entry =>
      simp only [Option.some.injEq, forall_eq', hasVariable_eq_false]
      cases live : p.varEntry? entry.var with
      | none => simp
      | some var =>
        simp only [reduceCtorEq, and_false, iff_false, List.mem_append, not_or]
        refine ⟨⟨?_, ?_⟩, fun mem => not_isDangling_of_scope mem dangling⟩
        all_goals
          split
          all_goals simp
        all_goals
          rintro rfl
          exact dangling

/-! ## Runs -/

/-- The three ways in which an event can name a dead handle. -/
theorem mem_finds (dangling : violation.IsDangling) : violation ∈ p.finds s event ↔
    (∃ c n, violation = .danglingNode c n ∧ event = .missing c ∧ s.path.head? = some n) ∨
    (∃ (family : Family) (v : VarId family) (n : Node), violation = .danglingVariable v n ∧
      event = .mark n (.bind v) ∧ p.hasVariable v = false) ∨
    ∃ (family : Family) (o : OccId family) (e : ExprId), violation = .danglingOccurrence o e ∧
      event = .mark (.expr e) (.use o) ∧ o ∉ (s.ledger family).held ∧ p.Unusable o := by
  constructor
  · intro mem
    cases event with
    | enter node => exact absurd dangling (not_isDangling_of_enter mem)
    | missing c =>
      obtain ⟨n, head, rfl⟩ := List.mem_map.1 mem
      exact .inl ⟨c, n, rfl, rfl, Option.mem_toList.1 head⟩
    | mark site m =>
      cases m with
      | bind v =>
        obtain ⟨rfl, dead⟩ := (mem_bindFindings dangling).1 mem
        exact .inr (.inl ⟨_, v, site, rfl, rfl, dead⟩)
      | use o =>
        cases site with
        | defn d => cases mem
        | expr e =>
          obtain ⟨rfl, rest⟩ := (mem_useFindings dangling).1 mem
          exact .inr (.inr ⟨_, o, e, rfl, rfl, rest⟩)
      | _ => cases mem
    | again node =>
      cases List.mem_singleton.1 mem
      exact dangling.elim
    | _ => cases mem
  · rintro (⟨c, n, rfl, rfl, head⟩ | ⟨_, v, n, rfl, rfl, dead⟩ | ⟨_, o, e, rfl, rfl, rest⟩)
    · exact List.mem_map.2 ⟨n, Option.mem_toList.2 head, rfl⟩
    · exact (mem_bindFindings dangling).2 ⟨rfl, dead⟩
    · exact (mem_useFindings dangling).2 ⟨rfl, rest⟩

/-- A dead child is reported where the walk misses it, with the node above. -/
theorem danglingNode_mem_finds : .danglingNode c n ∈ p.finds s event ↔
    event = .missing c ∧ s.path.head? = some n := by
  rw [mem_finds (show (Violation.danglingNode c n).IsDangling from trivial)]
  simp

/-- A dead variable is reported where something binds it. -/
theorem danglingVariable_mem_finds {v : VarId family} : .danglingVariable v n ∈ p.finds s event ↔
    event = .mark n (.bind v) ∧ p.hasVariable v = false := by
  rw [mem_finds (show (Violation.danglingVariable v n).IsDangling from trivial)]
  constructor
  · rintro (⟨_, _, same, -⟩ | ⟨_, _, _, same, met⟩ | ⟨_, _, _, same, -⟩)
    all_goals cases same
    exact met
  · exact fun met => .inr (.inl ⟨_, v, n, rfl, met⟩)

/-- An occurrence that cannot be used is reported where it is held, the first time it is met. -/
theorem danglingOccurrence_mem_finds {o : OccId family} {e : ExprId} :
    .danglingOccurrence o e ∈ p.finds s event ↔
      event = .mark (.expr e) (.use o) ∧ o ∉ (s.ledger family).held ∧ p.Unusable o := by
  rw [mem_finds (show (Violation.danglingOccurrence o e).IsDangling from trivial)]
  constructor
  · rintro (⟨_, _, same, -⟩ | ⟨_, _, _, same, -⟩ | ⟨_, _, _, same, met⟩)
    all_goals cases same
    exact met
  · exact fun met => .inr (.inr ⟨_, o, e, rfl, met⟩)

/-- A run names a dead binder wherever it meets it. -/
theorem danglingVariable_mem_findings {v : VarId family} :
    .danglingVariable v n ∈ p.findings s events ↔
      .mark n (.bind v) ∈ events ∧ p.hasVariable v = false := by
  induction events generalizing s with
  | nil => simp [findings]
  | cons event rest ih =>
    rw [findings, List.mem_append, danglingVariable_mem_finds, ih, List.mem_cons, ← or_and_right,
      eq_comm]

/-- A run names a dead occurrence only where it meets it. -/
theorem mark_of_danglingOccurrence {o : OccId family} {e : ExprId}
    (mem : .danglingOccurrence o e ∈ p.findings s events) :
    .mark (.expr e) (.use o) ∈ events ∧ p.Unusable o := by
  induction events generalizing s with
  | nil => cases mem
  | cons event rest ih =>
    rcases List.mem_append.1 mem with mem | mem
    · obtain ⟨rfl, -, unusable⟩ := danglingOccurrence_mem_finds.1 mem
      exact ⟨List.mem_cons_self, unusable⟩
    · obtain ⟨later, unusable⟩ := ih mem
      exact ⟨List.mem_cons_of_mem _ later, unusable⟩

theorem eq_mark_of_use? {o : OccId family} (met : event.use? = some ⟨o⟩) :
    ∃ site, event = .mark site (.use o) := by
  cases event with
  | mark site m =>
    cases m with
    | use o' =>
      cases met
      exact ⟨site, rfl⟩
    | _ => cases met
  | _ => cases met

/-- A run names a dead occurrence where it meets it first. Later on the occurrence counts as
shared. -/
theorem exists_danglingOccurrence {o : OccId family} {e : ExprId} (unusable : p.Unusable o)
    (new : o ∉ (s.ledger family).held) (mem : .mark (.expr e) (.use o) ∈ events)
    (sited : Sited events) : ∃ e', .danglingOccurrence o e' ∈ p.findings s events := by
  induction events generalizing s with
  | nil => cases mem
  | cons event rest ih =>
    by_cases here : ∃ e', event = .mark (.expr e') (.use o)
    · obtain ⟨e', rfl⟩ := here
      exact ⟨e', List.mem_append_left _ (danglingOccurrence_mem_finds.2 ⟨rfl, new, unusable⟩)⟩
    · have later : .mark (.expr e) (.use o) ∈ rest :=
        (List.mem_cons.1 mem).resolve_left fun same => here ⟨e, same.symm⟩
      have first : Sited [event] := fun d family o mem =>
        @sited d family o (List.mem_cons.2 (.inl (List.mem_singleton.1 mem)))
      have other : event.use? ≠ some ⟨o⟩ := by
        intro same
        obtain ⟨site, rfl⟩ := eq_mark_of_use? same
        cases site with
        | expr e' => exact here ⟨e', rfl⟩
        | defn d => exact first (List.mem_singleton_self _)
      have still : o ∉ ((p.advance s event).ledger family).held := by
        rw [(noted_advance p s first).held]
        simpa [other] using new
      obtain ⟨e', found⟩ := ih still later fun d family o mem =>
        sited (List.mem_cons_of_mem _ mem)
      exact ⟨e', List.mem_append_right _ found⟩

/-! ## Dead children -/

/-- A part of the walk that visits the heads: it comes back to where it started, and the dead nodes
it names are heads, as children of the node it started at, and children of the nodes it enters. -/
structure Misses (p : Program) (heads : List Node) (events : List Event) : Prop where
  path : ∀ s, (events.foldl p.advance s).path = s.path
  named : ∀ {s : Audit} {c n : Node}, .danglingNode c n ∈ p.findings s events ↔
    p.hasNode c = false ∧ (s.path.head? = some n ∧ c ∈ heads ∨
      n ∈ events.filterMap Event.entered? ∧ c ∈ p.childrenOf n)

namespace Misses

variable {heads heads' : List Node} {events' : List Event}

theorem nil : Misses p [] [] := by
  constructor <;> simp [findings]

/-- What two runs miss together is what each of them misses. -/
theorem append (one : Misses p heads events) (two : Misses p heads' events') :
    Misses p (heads ++ heads') (events ++ events') := by
  constructor
  case path =>
    intro s
    rw [List.foldl_append, two.path, one.path]
  case named =>
    intro s c n
    rw [findings_append, List.mem_append, one.named, two.named, one.path, List.filterMap_append,
      List.mem_append, List.mem_append]
    tauto

/-- An event that does not visit a dead node and stays where it is. -/
theorem of_single (stays : ∀ s, (p.advance s event).path = s.path)
    (silent : event.entered? = none) (other : ∀ c, event ≠ .missing c) : Misses p [] [event] := by
  constructor
  case path => exact stays
  case named =>
    intro s c n
    simp [findings, danglingNode_mem_finds, other, silent]

/-- A dead node is missed where the walk comes to it. -/
theorem missing (dead : p.hasNode c = false) : Misses p [c] [.missing c] := by
  constructor
  case path => exact fun s => rfl
  case named =>
    intro s c' n
    simp only [findings, List.append_nil, danglingNode_mem_finds, Event.missing.injEq,
      List.mem_singleton, List.filterMap_cons, Event.entered?, List.filterMap_nil, List.not_mem_nil,
      false_and, or_false]
    constructor
    · rintro ⟨rfl, head⟩
      exact ⟨dead, head, rfl⟩
    · rintro ⟨-, head, rfl⟩
      exact ⟨rfl, head⟩

/-- A head that is live is not named. -/
theorem of_live (live : p.hasNode c = true) (misses : Misses p [] events) :
    Misses p [c] events := by
  refine ⟨misses.path, fun {s c' n} => ?_⟩
  rw [misses.named]
  refine and_congr_right fun dead => or_congr_left ?_
  have other : c' ≠ c := by
    rintro rfl
    rw [live] at dead
    cases dead
  simp [other]

/-- Entering a node around a walk over its children. -/
theorem enter (inner : Misses p (p.childrenOf n) events) :
    Misses p [] (.enter n :: events ++ [.leave n]) := by
  have nodes : (Event.enter n :: events ++ [Event.leave n]).filterMap Event.entered? =
      n :: events.filterMap Event.entered? := by
    simp [Event.entered?, List.filterMap_append]
  constructor
  case path =>
    intro s
    rw [List.foldl_append, List.foldl_cons]
    change ((events.foldl p.advance (p.enterState s n)).path).tail = s.path
    rw [inner.path]
    rfl
  case named =>
    intro s c m
    have head : (p.advance s (.enter n)).path.head? = some n := rfl
    rw [nodes, List.cons_append, findings, findings_append]
    simp only [List.mem_append, danglingNode_mem_finds, inner.named, head, findings, List.append_nil,
      reduceCtorEq, false_and, false_or, or_false, List.not_mem_nil, and_false, List.mem_cons,
      Option.some.injEq]
    constructor
    · rintro ⟨dead, ⟨rfl, child⟩ | rest⟩
      · exact ⟨dead, .inl rfl, child⟩
      · exact ⟨dead, .inr rest.1, rest.2⟩
    · rintro ⟨dead, rfl | inside, child⟩
      · exact ⟨dead, .inl ⟨rfl, child⟩⟩
      · exact ⟨dead, .inr ⟨inside, child⟩⟩

end Misses

/-- Marks do not change where the walk is. -/
theorem advance_mark_path (p : Program) (s : Audit) (site : Node) (m : Mark) :
    (p.advance s (.mark site m)).path = s.path := by
  cases m with
  | bind v => exact Audit.modifyLedger_path ..
  | use o =>
    cases site with
    | defn d => rfl
    | expr e =>
      simp only [advance, useState]
      split
      · rfl
      · exact Audit.modifyLedger_path ..
  | _ => rfl

/-- The walk along a script misses what is dead below it, if the visits of the children do. -/
theorem misses_spanScript (site : Node) {visit : List Node → Node → List Event × List Node}
    (visits : ∀ seen c, (∀ fault, .broken fault ∉ (visit seen c).1) →
      Misses p [c] (visit seen c).1)
    (script : List Step) (seen : List Node)
    (whole : ∀ fault, .broken fault ∉ (spanScript visit site script seen).1) :
    Misses p (script.filterMap Step.child?) (spanScript visit site script seen).1 := by
  induction script generalizing seen with
  | nil => exact .nil
  | cons step rest ih =>
    cases step with
    | mark m =>
      have here : Misses p [] [.mark site m] :=
        .of_single (fun s => advance_mark_path p s site m) rfl (by simp)
      exact here.append (ih seen fun fault mem => whole fault (List.mem_cons_of_mem _ mem))
    | broken f => exact absurd List.mem_cons_self (whole f)
    | child c =>
      have here := visits seen c fun fault mem => whole fault (List.mem_append_left _ mem)
      exact here.append (ih _ fun fault mem => whole fault (List.mem_append_right _ mem))

/-- A walk that does not break off names its dead nodes. -/
theorem misses_spanBy {depth : Nat} {seen : List Node}
    (whole : ∀ fault, .broken fault ∉ (p.spanBy depth seen n).1) :
    Misses p [n] (p.spanBy depth seen n).1 := by
  induction depth generalizing seen n with
  | zero => exact absurd List.mem_cons_self (whole (.endless n))
  | succ depth ih =>
    rw [spanBy] at whole ⊢
    cases read : p.script? n with
    | none => exact .missing (by rw [← script?_isSome, read]; rfl)
    | some script =>
      have live : p.hasNode n = true := by rw [← script?_isSome, read]; rfl
      have children : script.filterMap Step.child? = p.childrenOf n := by
        simp [childrenOf, scriptOf, read]
      simp only [read] at whole ⊢
      refine .of_live live ?_
      split at whole
      · next old =>
        rw [if_pos old]
        exact .of_single (fun s => rfl) rfl (by simp)
      · next new =>
        rw [if_neg new]
        refine .enter (children ▸ misses_spanScript n (fun seen c => ih) script _ ?_)
        intro fault mem
        exact whole fault (by simp [mem])

/-! ## The whole check -/

/-- The whole walk reports just the dead children of the nodes it visits. -/
theorem danglingNode_mem_trail (whole : ∀ fault, .broken fault ∉ p.auditTrail) :
    .danglingNode c n ∈ p.findings .start p.auditTrail ↔
      p.Walked n ∧ c ∈ p.childrenOf n ∧ p.hasNode c = false := by
  unfold auditTrail at whole ⊢
  cases installed : p.root with
  | none => simp [Walked, installed, findings]
  | some r =>
    simp only [installed] at whole ⊢
    have misses : Misses p [.defn r] (p.span (.defn r)) := misses_spanBy whole
    rw [misses.named, walked_iff installed, ← mem_entered_span]
    have top : (Audit.start.path).head? = none := rfl
    simp only [top, reduceCtorEq, false_and, false_or]
    exact and_comm.trans and_assoc

/-- A group that the checker enters has a dead member. -/
def DeadMember (p : Program) (n : Node) (d : DefId) : Prop :=
  p.Walked n ∧ .defn d ∈ p.childrenOf n ∧ p.hasNode (.defn d) = false

/-- The report names the dead children, the dead binders and the dead occurrences of the nodes that
the checker enters, each child and binder with its node and each occurrence with one of its
holders. -/
structure NamesDead (p : Program) (report : List Violation) : Prop where
  nodes : ∀ {c n : Node}, .danglingNode c n ∈ report ↔
    p.Walked n ∧ c ∈ p.childrenOf n ∧ p.hasNode c = false
  binders : ∀ {family : Family} {v : VarId family} {n : Node}, .danglingVariable v n ∈ report ↔
    p.Walked n ∧ ⟨v⟩ ∈ p.bindersOf n ∧ p.hasVariable v = false
  occurrences : ∀ {family : Family} {o : OccId family}, (∃ e, .danglingOccurrence o e ∈ report) ↔
    p.Unusable o ∧ ∃ e, p.Walked (.expr e) ∧ ⟨o⟩ ∈ p.usesOf (.expr e)
  holders : ∀ {family : Family} {o : OccId family} {e : ExprId},
    .danglingOccurrence o e ∈ report → p.Walked (.expr e) ∧ ⟨o⟩ ∈ p.usesOf (.expr e)

/-- What is left over after the walk adds nothing to the dead handles. -/
theorem dangling_mem_check (violation : Violation) (dangling : violation.IsDangling) :
    violation ∈ p.findings .start p.auditTrail ++ p.leftovers p.lastState ↔
      violation ∈ p.findings .start p.auditTrail := by
  rw [List.mem_append, or_iff_left fun mem => not_isDangling_of_leftover mem dangling]

/-- A walk that does not break off names the dead in its report. -/
theorem check_of_whole (whole : ∀ fault, .broken fault ∉ p.auditTrail) :
    ∃ report, p.check = .ok report ∧ NamesDead p report := by
  refine ⟨_, check_eq_ok whole, ?_⟩
  constructor
  case nodes =>
    intro c n
    rw [dangling_mem_check (.danglingNode c n) trivial, danglingNode_mem_trail whole]
  case binders =>
    intro family v n
    rw [dangling_mem_check (.danglingVariable v n) trivial, danglingVariable_mem_findings,
      mark_mem_auditTrail, mem_bindersOf, and_assoc]
  case occurrences =>
    intro family o
    constructor
    · rintro ⟨e, mem⟩
      rw [dangling_mem_check (.danglingOccurrence o e) trivial] at mem
      obtain ⟨met, unusable⟩ := mark_of_danglingOccurrence mem
      exact ⟨unusable, e, use_mem_auditTrail.1 met⟩
    · rintro ⟨unusable, e, held⟩
      have met := use_mem_auditTrail.2 held
      have new : o ∉ (Audit.start.ledger family).held := by
        cases family <;> exact List.not_mem_nil
      obtain ⟨e', found⟩ := exists_danglingOccurrence unusable new met (sited_auditTrail p)
      exact ⟨e', List.mem_append_left _ found⟩
  case holders =>
    intro family o e mem
    rw [dangling_mem_check (.danglingOccurrence o e) trivial] at mem
    obtain ⟨met, -⟩ := mark_of_danglingOccurrence mem
    exact use_mem_auditTrail.1 met

/-- A dead root is no root to the checker. -/
theorem check_of_dead_root {r : DefId} (installed : p.root = some r)
    (dead : p.hasNode (.defn r) = false) : p.check = .ok (p.leftovers .start) := by
  have unread : p.script? (.defn r) = none := by
    rw [← Option.not_isSome_iff_eq_none, script?_isSome, dead]
    exact Bool.false_ne_true
  have trail : p.auditTrail = [.missing (.defn r)] := by
    simp [auditTrail, installed, span, spanBy, unread]
  have whole : ∀ fault, .broken fault ∉ p.auditTrail := by
    simp [trail]
  rw [check_eq_ok whole, lastState, trail]
  rfl

/-- Whatever the tables hold, the checker breaks off at a dead member if it enters a group that has
one, and otherwise it yields a report that names the dead children, binders and occurrences of the
nodes it enters. A dead root is left out: the checker goes on as if there were none. -/
theorem check_names_dead_handles (p : Program) :
    ((∃ n d, p.DeadMember n d) → ∃ n d, p.DeadMember n d ∧ p.check = .error (.stale d)) ∧
    ((∀ n d, ¬ p.DeadMember n d) → ∃ report, p.check = .ok report ∧ NamesDead p report) ∧
    ∀ r, p.root = some r → p.hasNode (.defn r) = false → p.check = .ok (p.leftovers .start) := by
  refine ⟨?_, fun none => ?_, fun r => check_of_dead_root⟩
  · rintro ⟨n, d, walked, child, dead⟩
    obtain ⟨fault, broken, failed⟩ :=
      check_eq_error (broken_mem_auditTrail.2 ⟨n, d, walked, rfl, child, dead⟩)
    obtain ⟨n', d', walked', rfl, member⟩ := broken_mem_auditTrail.1 broken
    exact ⟨n', d', ⟨walked', member⟩, failed⟩
  · refine check_of_whole fun fault broken => ?_
    obtain ⟨n, d, walked, -, member⟩ := broken_mem_auditTrail.1 broken
    exact none n d ⟨walked, member⟩

/-- The installed loop without the jump into it: no group has a dead member, and the jump is named
with the group that it was the body of. -/
theorem loopInstalled_without_jump :
    (∀ n d, ¬ (loopInstalled.removeExpression ⟨1⟩).DeadMember n d) ∧
    ∃ report, (loopInstalled.removeExpression ⟨1⟩).check = .ok report ∧
      .danglingNode (.expr ⟨1⟩) (.expr ⟨2⟩) ∈ report := by
  obtain ⟨breaks, reports, -⟩ := check_names_dead_handles (loopInstalled.removeExpression ⟨1⟩)
  have none : ∀ n d, ¬ (loopInstalled.removeExpression ⟨1⟩).DeadMember n d := by
    intro n d dead
    obtain ⟨_, _, -, failed⟩ := breaks ⟨n, d, dead⟩
    cases failed
  obtain ⟨report, checked, names⟩ := reports none
  have group : (loopInstalled.removeExpression ⟨1⟩).Walked (.expr ⟨2⟩) :=
    ⟨_, rfl, .child (.start rfl) List.mem_cons_self rfl⟩
  exact ⟨none, report, checked, names.nodes.2 ⟨group, by decide, rfl⟩⟩

/-- The installed loop without its continuation, and without its root: the first has no report, and
the report on the second names no dead handle. -/
theorem loopInstalled_pulled_apart :
    (loopInstalled.removeDefinition ⟨0⟩).check = .error (.stale (⟨0⟩ : DefId)) ∧
    (loopInstalled.removeDefinition ⟨1⟩).root = some ⟨1⟩ ∧
    (loopInstalled.removeDefinition ⟨1⟩).hasNode (.defn ⟨1⟩) = false ∧
    ∃ report, (loopInstalled.removeDefinition ⟨1⟩).check = .ok report ∧
      ∀ violation ∈ report, ¬ violation.IsDangling :=
  ⟨rfl, rfl, rfl, _, check_of_dead_root rfl rfl, fun _ => not_isDangling_of_leftover⟩

end Program

end ContinuationIR
