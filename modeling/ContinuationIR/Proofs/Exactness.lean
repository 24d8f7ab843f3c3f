import ContinuationIR.Proofs.WellFormed

/-!
# The checker reports nothing just about well-formed programs

Whatever the tables hold, a report without violations means that the program is well-formed, and a
well-formed program gets such a report. In between stands what the checker itself has made sure of:
each node stands, the nodes form a tree, and nothing is bound or held without a node.
-/

namespace ContinuationIR
set_option autoImplicit false

namespace Program

variable {family : Family} {p : Program} {r : DefId} {n : Node}

/-- What an empty report says, in the words of the checker. -/
structure Passed (p : Program) : Prop where
  tree : Rooted p
  stands : ∀ {n : Node}, p.hasNode n = true → Stands p n
  bindersOnce : ∀ n : Node, (p.bindersOf n).Nodup
  usesOnce : ∀ n : Node, (p.usesOf n).Nodup
  bound : ∀ {family : Family} {v : VarId family}, p.Tied v → ∃ n, ⟨v⟩ ∈ p.bindersOf n
  held : ∀ {family : Family} {o : OccId family}, p.hasOccurrence o = true → ∃ n, ⟨o⟩ ∈ p.usesOf n
  proper : ∀ {family : Family} (v : VarId family) (o : OccId family), ¬ p.Foreign v o

namespace Passed

variable (passed : Passed p)
include passed

/-- A binder that is met once has one site. -/
theorem binder_unique {binder : Binder} {n m : Node} (one : binder ∈ p.bindersOf n)
    (two : binder ∈ p.bindersOf m) : n = m := by
  have site := (passed.stands (hasNode_of_binder one)).binders _ one
  rw [(passed.stands (hasNode_of_binder two)).binders _ two] at site
  exact (Option.some.inj site).symm

/-- An occurrence that was passed has an entry with its holder, and its variable lists it. -/
theorem holder {o : OccId family} {n : Node} (mem : ⟨o⟩ ∈ p.usesOf n) :
    ∃ entry, p.occEntry? o = some entry ∧ n = .expr entry.holder ∧ p.Lists entry.var o := by
  obtain ⟨entry, above, found, site, lists, -⟩ := (passed.stands (hasNode_of_use mem)).uses _ mem
  exact ⟨entry, found, site.symm, lists⟩

/-- An occurrence that is met once has one holder. -/
theorem use_unique {use : Use} {n m : Node} (one : use ∈ p.usesOf n) (two : use ∈ p.usesOf m) :
    n = m := by
  obtain ⟨entry, found, rfl, -⟩ := passed.holder one
  obtain ⟨entry', found', rfl, -⟩ := passed.holder two
  rw [found] at found'
  cases found'
  rfl

/-! ## From the checker to the tables -/

/-- What the checker passed has its uses indexed. -/
theorem usesIndexed : UsesIndexed p where
  holder mem := by
    obtain ⟨entry, found, site, -⟩ := passed.holder mem
    exact ⟨entry, found, site⟩
  held found := by
    obtain ⟨n, mem⟩ := passed.held (Slots.contains_iff.2 ⟨_, found⟩)
    obtain ⟨entry', found', rfl, -⟩ := passed.holder mem
    rw [found] at found'
    cases found'
    exact mem
  once := passed.usesOnce
  listed found := by
    obtain ⟨n, mem⟩ := passed.held (Slots.contains_iff.2 ⟨_, found⟩)
    obtain ⟨entry', found', -, lists⟩ := passed.holder mem
    rw [found] at found'
    cases found'
    exact lists
  refers {family v o} lists := by
    by_contra none
    refine passed.proper v o ⟨lists, fun entry found eq => none ⟨entry, found, eq⟩⟩

theorem parameters_live {d : DefId} {definition : Definition}
    (read : p.definitionOf? d = some definition) (v : VarId .value)
    (mem : v ∈ definition.parameters) : p.hasVariable v = true := by
  have binds : ⟨v⟩ ∈ p.bindersOf (.defn d) := by
    rw [bindersOf_defn read]
    simp [Definition.binders, mem]
  exact hasVariable_of_site ((passed.stands (hasNode_of_binder binds)).binders _ binds)

/-- What the checker passed obeys the rules, dead nodes trivially. -/
theorem rules (n : Node) : p.nodeViolations n = [] := by
  cases live : p.hasNode n with
  | true => exact (passed.stands live).rules
  | false =>
    cases n with
    | expr e =>
      have dead : p.shapeOf? e = none := by simpa [hasNode_expr] using live
      simp [nodeViolations, dead]
    | defn d =>
      have dead : p.definitionOf? d = none := by simpa [hasNode_defn] using live
      simp [nodeViolations, dead]

/-- What the checker passed is well-formed in the declarative sense. -/
theorem wellFormed : WellFormed p where
  tree := passed.tree
  uses := passed.usesIndexed
  binders := {
    site := fun mem => (passed.stands (hasNode_of_binder mem)).binders _ mem
    once := passed.bindersOnce
    bound := passed.bound }
  inScope {family o entry} found := by
    have mem := passed.usesIndexed.held found
    obtain ⟨entry', above, found', -, -, lin, seen⟩ :=
      (passed.stands (hasNode_of_use mem)).uses _ mem
    rw [found] at found'
    cases found'
    exact (inScope_iff lin passed.binder_unique).2 seen
  rules := (nodeViolations_eq_nil_iff passed.parameters_live).1 passed.rules

omit passed in
/-- What is well-formed in the declarative sense passes the checker. -/
theorem of_wellFormed (w : WellFormed p) : Passed p := by
  have f := w.tree.forest
  have unique {family : Family} {v : VarId family} {n m : Node} (one : ⟨v⟩ ∈ p.bindersOf n)
      (two : ⟨v⟩ ∈ p.bindersOf m) : n = m := by
    have site := w.binders.site one
    rw [w.binders.site two] at site
    exact (Option.some.inj site).symm
  have live {d : DefId} {definition : Definition} (read : p.definitionOf? d = some definition)
      (v : VarId .value) (mem : v ∈ definition.parameters) : p.hasVariable v = true := by
    refine hasVariable_of_site (w.binders.site (n := .defn d) ?_)
    rw [bindersOf_defn read]
    simp [Definition.binders, mem]
  constructor
  case tree => exact w.tree
  case stands =>
    intro n here
    constructor
    case rules => exact (nodeViolations_eq_nil_iff live).2 w.rules n
    case children => exact fun c mem => w.tree.link mem
    case binders => exact fun binder mem => w.binders.site mem
    case uses =>
      intro use mem
      obtain ⟨entry, found, rfl⟩ := w.uses.holder mem
      obtain ⟨above, lin⟩ := f.ends here
      exact ⟨entry, above, found, rfl, w.uses.listed found, lin,
        (inScope_iff lin unique).1 (w.inScope found)⟩
  case bindersOnce => exact w.binders.once
  case usesOnce => exact w.uses.once
  case bound => exact w.binders.bound
  case held =>
    intro family o live
    obtain ⟨entry, found⟩ := Slots.contains_iff.1 live
    exact ⟨_, w.uses.held found⟩
  case proper =>
    rintro family v o ⟨lists, other⟩
    obtain ⟨entry, found, var⟩ := w.uses.refers lists
    exact other entry found var

/-- A program that passes gets an empty report. -/
theorem check_eq : p.check = .ok [] := by
  have f := passed.tree.forest
  cases root : p.root with
  | none =>
    have trail : p.auditTrail = [] := by simp only [auditTrail, root]
    have dead (n : Node) : p.hasNode n ≠ true := by
      intro live
      obtain ⟨r, installed, -⟩ := passed.tree.reached live
      rw [root] at installed
      cases installed
    refine check_eq_nil_iff.2 ⟨by simp [trail], by rw [trail]; rfl, leftovers_eq_nil_iff.2 ?_⟩
    refine ⟨fun n live => absurd live (dead n), fun family v tied => ?_,
      fun family => passed.proper, fun family o live => ?_⟩
    · obtain ⟨n, mem⟩ := passed.bound tied
      exact absurd (hasNode_of_binder mem) (dead n)
    · obtain ⟨n, mem⟩ := passed.held live
      exact absurd (hasNode_of_use mem) (dead n)
  | some r =>
    have top := passed.tree.top root
    have follows := f.follows root top
    have inside {n : Node} (live : p.hasNode n = true) : p.Within (.defn r) n := by
      obtain ⟨r', installed, within⟩ := passed.tree.within live
      rw [root] at installed
      cases installed
      exact within
    refine check_eq_nil_iff.2 ⟨follows.whole, ?_, leftovers_eq_nil_iff.2 ?_⟩
    · refine (follows.findings_eq_nil_iff top).2 ⟨?_, ?_, fun n within => ?_⟩
      · exact nodup_flatMap passed.bindersOnce passed.binder_unique follows.distinct
      · exact nodup_flatMap passed.usesOnce passed.use_unique follows.distinct
      · exact passed.stands within.hasNode
    · refine ⟨fun n live => follows.mem_entered.2 (inside live), fun family v tied => ?_,
        fun family => passed.proper, fun family o live => ?_⟩
      · obtain ⟨n, mem⟩ := passed.bound tied
        exact follows.mem_bound.2 ⟨n, inside (hasNode_of_binder mem), mem⟩
      · obtain ⟨n, mem⟩ := passed.held live
        exact follows.mem_held.2 ⟨n, inside (hasNode_of_use mem), mem⟩

end Passed

/-! ## From the report to the checker -/

theorem mem_eventsBy_of_child {depth : Nat} {head c : Node} {event : Event}
    (child : c ∈ p.childrenOf head) (mem : event ∈ p.eventsBy none depth c) :
    event ∈ p.eventsBy none (depth + 1) head := by
  obtain ⟨step, inScript, here⟩ := List.mem_filterMap.1 child
  obtain ⟨script, read⟩ :=
    Option.isSome_iff_exists.1 (script?_isSome p head ▸ hasNode_of_child child)
  have entering : p.scriptOf head = script := by simp [scriptOf, read]
  cases step with
  | child c' =>
    cases here
    simp only [eventsBy, Option.map_none, reduceCtorEq, if_false, read, List.mem_append,
      List.mem_cons, List.mem_flatMap]
    exact .inl (.inr ⟨.child c, entering ▸ inScript, mem⟩)
  | _ => cases here

/-- A walk that enters no node twice and does not break off meets no child twice at one node: a live
child is entered wherever it is met. -/
theorem childrenOf_nodup {depth : Nat} {head : Node}
    (whole : ∀ fault, .broken fault ∉ p.eventsBy none depth head)
    (once : ((p.eventsBy none depth head).filterMap Event.entered?).Nodup)
    (live : ∀ n ∈ (p.eventsBy none depth head).filterMap Event.entered?,
      ∀ c ∈ p.childrenOf n, p.hasNode c = true)
    (mem : n ∈ (p.eventsBy none depth head).filterMap Event.entered?) :
    (p.childrenOf n).Nodup := by
  induction depth generalizing head with
  | zero => simp [eventsBy, Event.entered?] at mem
  | succ depth ih =>
    have inner (c : Node) (child : c ∈ p.childrenOf head) (fault : Fault) :
        .broken fault ∉ p.eventsBy none depth c :=
      fun broken => whole fault (mem_eventsBy_of_child child broken)
    rw [entered_eventsBy_succ] at once live mem
    split at mem
    · cases mem
    · next alive =>
      rw [if_neg alive] at once live
      obtain ⟨-, below⟩ := List.nodup_cons.1 once
      obtain ⟨each, apart⟩ := List.nodup_flatMap.1 below
      rcases List.mem_cons.1 mem with rfl | mem
      · refine apart.imp_of_mem fun {a b} ha _ disjoint eq => ?_
        subst eq
        have entered : a ∈ (p.eventsBy none depth a).filterMap Event.entered? := by
          have here := live n List.mem_cons_self a ha
          cases depth with
          | zero => exact absurd (by simp [eventsBy]) (inner a ha (.endless a))
          | succ k =>
            rw [entered_eventsBy_succ, if_neg (by simp [here])]
            exact List.mem_cons_self
        exact disjoint entered entered
      · obtain ⟨c, child, mem⟩ := List.mem_flatMap.1 mem
        refine ih (inner c child) (each c child) (fun m inside => live m ?_) mem
        exact List.mem_cons_of_mem _ (List.mem_flatMap.2 ⟨c, child, inside⟩)

/-- Where all live nodes stand and are reached, each with distinct children, they form a tree. -/
theorem rooted_of_stands (stands : ∀ {n : Node}, p.hasNode n = true → Stands p n)
    (top : ∀ {r : DefId}, p.root = some r → p.enclosing (.defn r) = .ok none)
    (reached : ∀ {n : Node}, p.hasNode n = true → ∃ r, p.root = some r ∧ Reached p (.defn r) n)
    (once : ∀ {n : Node}, p.hasNode n = true → (p.childrenOf n).Nodup) : Rooted p := by
  have link {n c : Node} (mem : c ∈ p.childrenOf n) : p.enclosing c = .ok (some n) :=
    (stands (hasNode_of_child mem)).children c mem
  have forest : Forest p := {
    link := link
    listed := by
      intro node parent enclosing
      obtain ⟨r, root, reached⟩ := reached (hasNode_of_enclosing enclosing)
      cases reached with
      | start _ =>
        rw [top root] at enclosing
        cases enclosing
      | child _ mem _ =>
        rw [link mem] at enclosing
        cases enclosing
        exact mem
    once := by
      intro node
      cases live : p.hasNode node with
      | true => exact once live
      | false =>
        rw [childrenOf_of_dead live]
        exact List.nodup_nil
    ends := by
      intro node live
      obtain ⟨r, root, reached⟩ := reached live
      obtain ⟨positions, descends⟩ := reached.descends
      exact descends.lineage link (top root) }
  exact forest.rooted top reached

/-- Without a root there is nothing to walk over, so nothing may be left over. -/
theorem passed_of_no_root (installed : p.root = none) (nothing : p.leftovers p.lastState = []) :
    Passed p := by
  have last : p.lastState = .start := by
    simp only [lastState, auditTrail, installed, List.foldl_nil]
  obtain ⟨nodes, bound, proper, held⟩ := leftovers_eq_nil_iff.1 (last ▸ nothing)
  have dead (n : Node) : p.hasNode n = false := by
    rw [← Bool.not_eq_true]
    intro live
    cases nodes n live
  constructor
  case tree =>
    constructor
    case reached => simp [dead]
    case link => simp [childrenOf_of_dead (dead _)]
    case top => simp [installed]
  case stands => simp [dead]
  case bindersOnce => simp [bindersOf_of_dead (dead _)]
  case usesOnce => simp [usesOf_of_dead (dead _)]
  case bound =>
    intro family v tied
    cases family <;> cases bound _ v tied
  case held =>
    intro family o live
    cases family <;> cases held _ o live
  case proper => exact proper _

/-- The walk that finds nothing is the plain one, and each node it enters stands. -/
theorem stands_of_silent (installed : p.root = some r) (live : p.hasNode (.defn r) = true)
    (silent : p.findings .start p.auditTrail = []) :
    p.auditTrail = p.eventsBy none (p.nodeSlots + 1) (.defn r) ∧
      p.enclosing (.defn r) = .ok none ∧ ∀ n, p.Walked n → Stands p n := by
  have trail : p.auditTrail = p.span (.defn r) := by simp only [auditTrail, installed]
  have plain : p.auditTrail = p.eventsBy none (p.nodeSlots + 1) (.defn r) := by
    rw [trail]
    refine spanBy_eq_of_new fun n again => ?_
    have met : .again n ∈ p.auditTrail := trail ▸ again
    obtain ⟨t, found⟩ := exists_finds (p := p) met .start
    have shared := found (.sharedNode n) (by simp [finds])
    rw [silent] at shared
    cases shared
  have quiet : Quiet p .start (p.eventsBy none (p.nodeSlots + 1) (.defn r)) _ _ :=
    quiet_eventsBy live (by simp) (by simp) (knows_start p)
  rw [← plain] at quiet
  obtain ⟨-, top, entered⟩ := quiet.iff.1 silent
  exact ⟨plain, top, fun n walked => entered n (mem_entered_auditTrail.2 walked)⟩

/-- If moreover every live node is met, the nodes form a tree. -/
theorem rooted_of_silent (installed : p.root = some r) (live : p.hasNode (.defn r) = true)
    (whole : ∀ fault, .broken fault ∉ p.auditTrail) (silent : p.findings .start p.auditTrail = [])
    (met : ∀ n, p.hasNode n = true → p.Walked n) : Rooted p := by
  obtain ⟨plain, top, stands⟩ := stands_of_silent installed live silent
  have once {n : Node} (here : p.hasNode n = true) : (p.childrenOf n).Nodup := by
    have distinct := entered_auditTrail_nodup p
    have mem := mem_entered_auditTrail.2 (met n here)
    rw [plain] at distinct mem whole
    refine childrenOf_nodup whole distinct (fun m inside c child => ?_) mem
    rw [← plain, mem_entered_auditTrail] at inside
    exact hasNode_of_enclosing ((stands m inside).children c child)
  refine rooted_of_stands (fun here => stands _ (met _ here)) ?_ (met _) once
  intro r' installed'
  rw [installed] at installed'
  cases installed'
  exact top

/-- A walk that finds nothing and leaves nothing over has passed the program. -/
theorem passed_of_root (installed : p.root = some r) (live : p.hasNode (.defn r) = true)
    (whole : ∀ fault, .broken fault ∉ p.auditTrail) (silent : p.findings .start p.auditTrail = [])
    (nothing : p.leftovers p.lastState = []) : Passed p := by
  obtain ⟨-, top, stands⟩ := stands_of_silent installed live silent
  obtain ⟨nodes, bound, proper, held⟩ := leftovers_eq_nil_iff.1 nothing
  have met (n : Node) (here : p.hasNode n = true) : p.Walked n :=
    mem_entered_lastState.1 (nodes n here)
  have rooted := rooted_of_silent installed live whole silent met
  have follows := rooted.forest.follows installed top
  obtain ⟨binders, uses, -⟩ := (follows.findings_eq_nil_iff top).1 silent
  have inside {n : Node} (here : p.hasNode n = true) :
      n ∈ p.auditTrail.filterMap Event.entered? := mem_entered_auditTrail.2 (met n here)
  constructor
  case tree => exact rooted
  case stands => exact fun here => stands _ (met _ here)
  case bindersOnce =>
    intro n
    cases here : p.hasNode n with
    | true => exact (List.nodup_flatMap.1 binders).1 n (inside here)
    | false => simp [bindersOf_of_dead here]
  case usesOnce =>
    intro n
    cases here : p.hasNode n with
    | true => exact (List.nodup_flatMap.1 uses).1 n (inside here)
    | false => simp [usesOf_of_dead here]
  case bound =>
    intro family v tied
    obtain ⟨n, -, mem⟩ := follows.mem_bound.1 (bound _ v tied)
    exact ⟨n, mem⟩
  case held =>
    intro family o live
    obtain ⟨n, -, mem⟩ := follows.mem_held.1 (held _ o live)
    exact ⟨n, mem⟩
  case proper => exact proper _

/-- A program with an empty report has passed, if its root is live. -/
theorem passed_of_check (root : ∀ r, p.root = some r → p.hasNode (.defn r) = true)
    (checked : p.check = .ok []) : Passed p := by
  obtain ⟨whole, silent, nothing⟩ := check_eq_nil_iff.1 checked
  cases installed : p.root with
  | none => exact passed_of_no_root installed nothing
  | some r => exact passed_of_root installed (root r installed) whole silent nothing

/-- Whatever the tables hold, if no root is installed or it is live, the checker reports nothing just
if the program is well-formed. -/
theorem check_eq_nil_iff_wellFormed (root : ∀ r, p.root = some r → p.hasNode (.defn r) = true) :
    p.check = .ok [] ↔ WellFormed p := by
  constructor
  · exact fun checked => (passed_of_check root checked).wellFormed
  · exact fun wellFormed => (Passed.of_wellFormed wellFormed).check_eq

/-- A root whose body is a group with a continuation that jumps to itself, and a jump into it. -/
def loopInstalled : Program :=
  run [.freshContinuation "return", .freshContinuation "loop", .jump ⟨⟨1⟩, .recursive⟩ [],
    .continuation ⟨1⟩ [] ⟨0⟩, .jump ⟨⟨1⟩, .nonRecursive⟩ [], .group .continuation [⟨0⟩] ⟨1⟩,
    .root ⟨0⟩ [] ⟨[], .any⟩ ⟨2⟩, .install ⟨1⟩]

/-- The root of the loop is live, nothing is reported, and both jumps are in scope with the
recursivity that they have. -/
theorem loopInstalled_wellFormed : loopInstalled.root = some ⟨1⟩ ∧
    loopInstalled.hasNode (.defn ⟨1⟩) = true ∧ loopInstalled.check = .ok [] ∧
    WellFormed loopInstalled := by
  refine ⟨rfl, rfl, rfl, (check_eq_nil_iff_wellFormed ?_).1 rfl⟩
  rintro r ⟨⟩
  rfl

end Program

end ContinuationIR
