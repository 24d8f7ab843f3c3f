import ContinuationIR.Overwrite
import ContinuationIR.Proofs.Exactness
import ContinuationIR.Proofs.Stray

/-!
# The calls agree with the checker

Installing a root and substituting a variable look for the binder of a use from the inside out, and
the checker looks for it from the outside in. They come to the same answer: a call is accepted just
if the checker has nothing to say about the program that the call, forced through, would leave.
-/

namespace ContinuationIR
set_option autoImplicit false

namespace Program

variable {family : Family} {p q : Program} {o : OccId family} {new : VarId family}
  {recursivity : Recursivity}

/-! ## Empty reports -/

/-- Every live node belongs to the installed tree. -/
def AllAttached (p : Program) : Prop := ∀ n, p.hasNode n = true → p.isAttached n = .ok true

/-- Whether a node is attached depends on the links and the root alone. -/
theorem SameNodes.allAttached (s : SameNodes p q) (root : q.root = p.root) (f : Forest p)
    (whole : AllAttached p) : AllAttached q := by
  intro n live
  rw [s.hasNode] at live
  rw [s.isAttached root f live]
  exact whole n live

/-- What the checker has passed in every part is coherent. -/
theorem Passed.coherent (passed : Passed p) : Coherent p where
  forest := passed.tree.forest
  uses := passed.usesIndexed
  binders := {
    binding := by
      intro family v n mem
      have site := (passed.stands (hasNode_of_binder mem)).binders _ mem
      obtain ⟨⟨n, role⟩, found, rfl⟩ := Option.map_eq_some_iff.1 site
      exact ⟨role, found⟩
    site := by
      intro family v b bound
      obtain ⟨n, mem⟩ := passed.bound (.inl ⟨b, bound⟩ : p.Tied v)
      have site := (passed.stands (hasNode_of_binder mem)).binders _ mem
      rw [bound, Option.map_some, Option.some.injEq] at site
      rwa [site]
    once := passed.bindersOnce }
  obey n := obeys_iff.2 (passed.rules n)
  root _ installed := passed.tree.top installed

namespace Coherent

variable (c : Coherent p) (marked : NamesMarked p)
include c marked

/-- Nothing is reported just if the installed tree is in scope and there is nothing else. -/
theorem check_eq_nil_iff : p.check = .ok [] ↔ Scoped p ∧ AllAttached p := by
  rw [c.forest.check_eq_append c.root, Except.ok.injEq, List.append_eq_nil_iff,
    c.findings_eq_nil_iff marked]
  exact and_congr_right fun inScope => c.leftovers_eq_nil_iff inScope

/-- Nothing is reported about the installed tree just if it is in scope. -/
theorem check_isStray_iff : ∃ report, p.check = .ok report ∧
    ((∀ violation ∈ report, violation.IsStray) ↔ Scoped p) := by
  refine ⟨_, c.forest.check_eq_append c.root, ?_⟩
  rw [← c.findings_eq_nil_iff marked]
  constructor
  · intro stray
    refine List.eq_nil_iff_forall_not_mem.2 fun violation mem => ?_
    exact not_isStray_of_findings mem (stray violation (List.mem_append_left _ mem))
  · intro silent violation mem
    rw [silent, List.nil_append] at mem
    exact c.isStray_of_mem mem

end Coherent

/-! ## Roots -/

/-- Installing succeeds just if the checks do, and answers the root. -/
theorem install_eq_ok_iff {d answer : DefId} : (p.install d).result = .ok answer ↔
    d = answer ∧ p.checkInstall d = .ok () := by
  unfold install Outcome.commit
  cases p.checkInstall d with
  | ok => simp
  | error failure => simp [Outcome.failed]

/-- If no root is installed, a root definition is accepted as the root just if the checker, run with
it in place, reports nothing but what lies outside of its tree. What changes then is the root. -/
theorem install_accepts_iff_checked (reachable : Reachable p) (free : p.root = none) {d : DefId}
    {definition : Definition} (read : p.definitionOf? d = some definition)
    (kind : definition.header.kind = .root) :
    (∃ report, check { p with root := some d } = .ok report ∧
      ((p.install d).result = .ok d ↔ ∀ violation ∈ report, violation.IsStray)) ∧
    ∀ answer, (p.install d).result = .ok answer →
      (p.install d).program = { p with root := some d } := by
  obtain ⟨c, -⟩ := reachable.consistent
  have marked : NamesMarked { p with root := some d } :=
    (sameNodes_withRoot p d).namesMarked c.marked
  obtain ⟨report, checked, stray⟩ :=
    (coherent_withRoot c.toCoherent read kind).check_isStray_iff marked
  refine ⟨⟨report, checked, ?_⟩, fun answer ok => ?_⟩
  · rw [stray, scoped_withRoot_iff c.toCoherent read kind, install_eq_ok_iff,
      checkInstall_eq_ok_iff c.toCoherent]
    exact ⟨fun accepted => accepted.2.2.2, fun each => ⟨rfl, free, ⟨definition, read, kind⟩, each⟩⟩
  · rw [install, (install_eq_ok_iff.1 ok).2]
    rfl

/-- The root of the loop before it is installed, and a pending leaf. -/
def loopPending : Program :=
  run [.freshContinuation "return", .freshContinuation "loop", .jump ⟨⟨1⟩, .recursive⟩ [],
    .continuation ⟨1⟩ [] ⟨0⟩, .jump ⟨⟨1⟩, .nonRecursive⟩ [], .group .continuation [⟨0⟩] ⟨1⟩,
    .root ⟨0⟩ [] ⟨[], .any⟩ ⟨2⟩, .unreachable]

/-- The leaf is reported, and does not keep the root from being installed. -/
theorem loopPending_accepted : (loopPending.install ⟨1⟩).result = .ok ⟨1⟩ ∧
    (loopPending.install ⟨1⟩).program = { loopPending with root := some ⟨1⟩ } ∧
    check { loopPending with root := some ⟨1⟩ } = .ok [.unreachableNode (.expr ⟨3⟩)] := by
  have reachable : Reachable loopPending := reachable_run _
  obtain ⟨⟨report, checked, accepts⟩, changes⟩ :=
    install_accepts_iff_checked reachable rfl (d := ⟨1⟩) rfl rfl
  have ok : (loopPending.install ⟨1⟩).result = .ok ⟨1⟩ := by
    cases checked
    exact accepts.2 fun violation mem => List.mem_singleton.1 mem ▸ trivial
  exact ⟨ok, changes _ ok, rfl⟩

/-! ## Substitutions -/

/-- Re-pointing an occurrence by an overwrite does what a substitution writes. -/
theorem overwrite_repoint (c : Coherent p) {entry : OccurrenceEntry family}
    (read : p.occEntry? o = some entry) (known : p.hasVariable new = true)
    (recursivity : Recursivity) :
    ∃ q, Repointed p o new recursivity q ∧ Edit.repoint o new recursivity p = (.ok (), q) ∧
      p.overwrite (.repoint o new recursivity) = ⟨.ok none, q⟩ := by
  have run : (Edit.repoint o new recursivity).Runs p _ := runs_repoint c.uses read known
  obtain ⟨⟨⟩, q, run, repointed⟩ := run
  refine ⟨q, repointed, run, ?_⟩
  simp only [overwrite, run]
  rfl

/-- An accepted substitution does what forcing the recursivity that it finds does. -/
theorem substitute_of_checked (c : Coherent p) (quiet : p.verifying = false)
    (checked : p.checkSubstitution o new = .ok recursivity) :
    (p.substitute o new).result = .ok () ∧
      (p.substitute o new).program = (p.overwrite (.repoint o new recursivity)).program := by
  have movable := ((checkSubstitution_eq_ok_iff c).1 checked).1
  obtain ⟨entry, read, -⟩ := movable.place
  obtain ⟨q, repointed, run, forced⟩ := overwrite_repoint c read movable.known recursivity
  have still : q.verifying = false := repointed.verifying.trans quiet
  rw [forced]
  simp only [substitute, checked, fetchOccurrence_ok read, orFault, bind, Except.bind, pure,
    Except.pure, Outcome.commit, Outcome.after, run, Outcome.verified, still]
  exact ⟨rfl, rfl⟩

/-- A substitution whose checks fail changes nothing. -/
theorem substitute_of_failed {failure : Failure ChangeError}
    (failed : p.checkSubstitution o new = .error failure) :
    p.substitute o new = .failed p failure := by
  simp only [substitute, failed, bind, Except.bind, Outcome.commit]

/-- A substitution that succeeds has passed its checks. -/
theorem checked_of_substitute (ok : (p.substitute o new).result = .ok ()) :
    ∃ recursivity, p.checkSubstitution o new = .ok recursivity := by
  cases checked : p.checkSubstitution o new with
  | ok recursivity => exact ⟨recursivity, rfl⟩
  | error failure =>
    rw [substitute_of_failed checked] at ok
    cases ok

/-- The checker finds the moved occurrence in order just if the substitution does. -/
theorem Repointed.check_eq_nil_iff (h : Repointed p o new recursivity q) (c : Consistent p)
    (whole : AllAttached p) {entry : OccurrenceEntry family} (read : p.occEntry? o = some entry)
    (known : p.hasVariable new = true) :
    q.check = .ok [] ↔ p.checkSubstitution o new = .ok recursivity := by
  have marked : NamesMarked q := h.namesMarked c.marked
  have live := hasNode_of_use (c.uses.held read)
  rw [checkSubstitution_eq_ok_iff c.toCoherent]
  constructor
  · -- Whether the moved occurrence fits is not known here, so `q` is coherent by the report alone.
    intro checked
    have standing : ∀ r, q.root = some r → q.hasNode (.defn r) = true := by
      intro r installed
      rw [h.hasNode]
      exact hasNode_of_enclosing (c.root r (h.root ▸ installed))
    have coherent := (passed_of_check standing checked).coherent
    obtain ⟨inScope, attached⟩ := (coherent.check_eq_nil_iff marked).1 checked
    have resolved := inScope (h.moved read) (attached _ (h.hasNode.trans live))
    refine ⟨⟨known, entry, read, (h.resolve_iff c.forest live).1 resolved, ?_⟩, ?_⟩
    · exact h.fitsAt c.toCoherent read known (coherent.obey _)
    · exact fun found => whole _ (hasNode_of_use (c.uses.held found))
  · rintro ⟨movable, -⟩
    have coherent := h.coherent c.toCoherent movable
    exact (coherent.check_eq_nil_iff marked).2
      ⟨h.inScope c.toCoherent c.inScope movable, h.allAttached h.root c.forest whole⟩

/-- Where the checker reports nothing, a substitution at a live occurrence by a live variable is
accepted just if with some recursivity the checker reports nothing about the occurrence forced to
refer to the variable. There is at most one such recursivity, and it is the one that the
substitution gives the occurrence. -/
theorem substitute_accepts_iff_checked (reachable : Reachable p) (checked : p.check = .ok [])
    (live : p.hasOccurrence o = true) (known : p.hasVariable new = true) :
    (∀ recursivity, (p.overwrite (.repoint o new recursivity)).result = .ok none) ∧
    ((p.substitute o new).result = .ok () ↔
      ∃ recursivity, (p.overwrite (.repoint o new recursivity)).program.check = .ok []) ∧
    ∀ recursivity, (p.overwrite (.repoint o new recursivity)).program.check = .ok [] →
      (∀ other, (p.overwrite (.repoint o new other)).program.check = .ok [] →
        other = recursivity) ∧
      (p.substitute o new).program = (p.overwrite (.repoint o new recursivity)).program ∧
      ∃ holder, (p.substitute o new).program.occEntry? o = some ⟨new, recursivity, holder⟩ := by
  obtain ⟨c, quiet⟩ := reachable.consistent
  obtain ⟨-, whole⟩ := (c.check_eq_nil_iff c.marked).1 checked
  obtain ⟨entry, read⟩ := Slots.contains_iff.1 live
  have accepts (recursivity : Recursivity) :
      (p.overwrite (.repoint o new recursivity)).program.check = .ok [] ↔
        p.checkSubstitution o new = .ok recursivity := by
    obtain ⟨q, repointed, -, forced⟩ := overwrite_repoint c.toCoherent read known recursivity
    rw [forced]
    exact repointed.check_eq_nil_iff c whole read known
  refine ⟨fun recursivity => ?_, ?_, fun recursivity forced => ⟨fun other forced' => ?_, ?_⟩⟩
  · obtain ⟨q, -, -, forced⟩ := overwrite_repoint c.toCoherent read known recursivity
    rw [forced]
  · simp only [accepts]
    constructor
    · exact checked_of_substitute
    · rintro ⟨recursivity, found⟩
      exact (substitute_of_checked c.toCoherent quiet found).1
  · rw [accepts] at forced forced'
    rw [forced] at forced'
    cases forced'
    rfl
  · have same := (substitute_of_checked c.toCoherent quiet ((accepts recursivity).1 forced)).2
    obtain ⟨q, repointed, -, eq⟩ := overwrite_repoint c.toCoherent read known recursivity
    refine ⟨same, entry.holder, ?_⟩
    rw [same, eq]
    exact repointed.moved read

/-- The jump back can be sent to the return continuation instead, and is not recursive then. -/
theorem loopInstalled_jump_substituted :
    (loopInstalled.substitute (⟨0⟩ : OccId .continuation) ⟨0⟩).result = .ok () ∧
    (∃ holder, (loopInstalled.substitute (⟨0⟩ : OccId .continuation) ⟨0⟩).program.occEntry?
      (⟨0⟩ : OccId .continuation) = some ⟨⟨0⟩, .nonRecursive, holder⟩) ∧
    (loopInstalled.overwrite (.repoint (⟨0⟩ : OccId .continuation) ⟨0⟩ .recursive)).program.check ≠
      .ok [] := by
  have reachable : Reachable loopInstalled := reachable_run _
  have live : loopInstalled.hasOccurrence (⟨0⟩ : OccId .continuation) = true := rfl
  have known : loopInstalled.hasVariable (⟨0⟩ : VarId .continuation) = true := rfl
  obtain ⟨-, accepts, stored⟩ := substitute_accepts_iff_checked reachable rfl live known
  obtain ⟨only, -, tagged⟩ := stored .nonRecursive rfl
  refine ⟨accepts.2 ⟨.nonRecursive, rfl⟩, tagged, fun silent => ?_⟩
  cases only .recursive silent

end Program

end ContinuationIR
