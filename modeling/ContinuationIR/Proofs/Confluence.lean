import Mathlib.Logic.Relation
import ContinuationIR.Proofs.Contraction
import ContinuationIR.Proofs.Sweeping

/-!
# Sweeping is confluent

Removing dead lets and dead definitions, one after the other, ends after finitely many steps, and
what is left does not depend on the order. What is dead stays dead as long as it is there, whatever
else is removed. So a program in which nothing is dead any more has lost all that some other order
of removals takes away.
-/

namespace ContinuationIR
set_option autoImplicit false

namespace Program

variable {p q r s : Program} {place next : ExprId → ExprId} {e : ExprId} {d : DefId}

/-! ## One sweep -/

theorem Pruned.hasNode_eq_false_iff {cut : Cut} (h : Pruned p cut q) {n : Node}
    (live : p.hasNode n = true) : q.hasNode n = false ↔ cut.gone n := by
  refine ⟨fun dead => ?_, h.dead⟩
  by_contra stays
  rw [h.hasNode stays, live] at dead
  cases dead

/-- Putting a child into the place of its parent is a contraction. -/
theorem Replaced.contracts {target replacement : ExprId}
    (replaced : Replaced p target replacement q) (c : Consistent p)
    (child : .expr replacement ∈ p.childrenOf (.expr target))
    (settled : Settled p q) : ∃ place, Contracts p place q := by
  obtain ⟨s, replaceable, pruned⟩ := replaced
  refine ⟨_, pruned.contracts (replaceable.clean c.toCoherent) ?_ c settled⟩
  rintro _ ⟨⟩
  exact ⟨c.forest.link child, replaceable.attached⟩

namespace Sweeps

theorem reachable (sweeps : Sweeps p q) (reachable : Reachable p) : Reachable q := by
  cases sweeps <;> exact .call _ reachable

theorem settled (sweeps : Sweeps p q) : Settled p q := by
  cases sweeps <;> exact settled_perform p trivial

/-- Each sweep is a contraction. -/
theorem contracts (sweeps : Sweeps p q) (c : Consistent p) : ∃ place, Contracts p place q := by
  have settled := sweeps.settled
  rcases sweeps.removed c.toCoherent with ⟨e, v, value, body, read, -, replaced⟩ |
    ⟨d, r, dead, ⟨-, replaced⟩ | ⟨several, pruned⟩⟩
  · exact replaced.contracts c (by simp [childrenOf_expr read, Shape.children]) settled
  · have read := (dead.family c.toCoherent).1
    exact replaced.contracts c (by simp [childrenOf_expr read, Shape.children]) settled
  · have clean := (dead.removable c.toCoherent several).clean c.toCoherent
    refine ⟨_, pruned.contracts clean ?_ c settled⟩
    rintro _ ⟨⟩

/-- With a dead let nothing else goes. With a dead definition go its tree and its group, if the
group has no other member. -/
theorem gone (sweeps : Sweeps p q) (c : Consistent p) :
    (∃ e, DeadLet p e ∧ ∀ {n : Node}, p.hasNode n = true → (q.hasNode n = false ↔ n = .expr e)) ∨
      ∃ d, DeadDefinition p d ∧ ∀ {n : Node}, p.hasNode n = true → (q.hasNode n = false ↔
        p.Within (.defn d) n ∨
          ∃ e family body, n = .expr e ∧ p.shapeOf? e = some (.group family [d] body)) := by
  rcases sweeps.removed c.toCoherent with ⟨e, removed⟩ | ⟨d, removed⟩
  · have dead := removed.dead
    obtain ⟨v, value, body, read, -, s, -, pruned⟩ := removed
    refine .inl ⟨e, dead, fun live => ?_⟩
    exact (pruned.hasNode_eq_false_iff live).trans (inside_let_iff c.forest read)
  · have dead := removed.dead c.toCoherent
    obtain ⟨r, member, removed⟩ := removed
    refine .inr ⟨d, dead, fun live => ?_⟩
    rcases removed with ⟨alone, s, -, pruned⟩ | ⟨several, pruned⟩
    · rw [pruned.hasNode_eq_false_iff live]
      refine (member.inside_iff c.toCoherent alone).trans ?_
      rw [or_comm]
      refine or_congr_right ⟨?_, ?_⟩
      · rintro rfl
        have read := (member.family c.toCoherent).1
        exact ⟨_, _, _, rfl, member.members_eq c.toCoherent alone ▸ read⟩
      · rintro ⟨e, family, body, rfl, read⟩
        rw [(member.group_eq c.toCoherent read).1]
    · rw [pruned.hasNode_eq_false_iff live]
      refine (or_iff_left ?_).symm
      rintro ⟨e, family, body, -, read⟩
      exact several (member.group_eq c.toCoherent read).2

end Sweeps

/-! ## What is dead stays dead -/

namespace Contracts

/-- The shape of an expression after a contraction is the old one with what is gone left out. -/
theorem exists_shape (h : Contracts p place q) {shape : Shape} (read : q.shapeOf? e = some shape) :
    ∃ old, p.shapeOf? e = some old ∧ old.contract (fun d => q.hasNode (.defn d)) place = shape := by
  have live : q.hasNode (.expr e) = true := by simp [hasNode_expr, read]
  rw [h.shape live] at read
  exact Option.map_eq_some_iff.1 read

end Contracts

section Fewer

variable (c : Coherent p) (one : Contracts p place q) (two : Contracts p next r) (c₁ : Coherent q)
  (c₂ : Coherent r) (fewer : ∀ {n : Node}, r.hasNode n = true → q.hasNode n = true)
include c one two c₁ c₂ fewer

/-- In the smaller of two contractions, what is left of the installed tree is installed. -/
theorem attached_of_fewer {n : Node} (attached : q.isAttached n = .ok true)
    (live : r.hasNode n = true) : r.isAttached n = .ok true := by
  rw [two.attached_iff c c₂ live, ← one.attached_iff c c₁ (fewer live)]
  exact attached

/-- A let that is dead in the larger of two contractions is dead in the smaller one. -/
theorem DeadLet.of_fewer (dead : DeadLet q e) (live : r.hasNode (.expr e) = true) :
    DeadLet r e := by
  obtain ⟨attached, v, value, body, read, unused⟩ := dead
  refine ⟨attached_of_fewer c one two c₁ c₂ fewer attached live, ?_⟩
  obtain ⟨old, before, becomes⟩ := one.exists_shape read
  cases old with
  | letIn v' value' body' =>
    cases becomes
    have after := two.shape live
    rw [before] at after
    refine ⟨v, value, _, after, fun o lists => ?_⟩
    obtain ⟨entry, found, rfl⟩ := c₂.uses.refers lists
    obtain ⟨held, stays⟩ := two.occurrence.1 found
    exact unused o (c₁.uses.listed (one.occurrence.2 ⟨held, fewer stays⟩))
  | _ => cases becomes

/-- What the definition brings with it in the second it brings with it in the first, if it is known
there. -/
theorem Brings.of_fewer {family : Family} {v : VarId family} (brings : r.Brings d v)
    (live : r.hasNode (.defn d) = true) (known : q.hasVariable v = true) : q.Brings d v := by
  rcases brings with name | ⟨n, within, binds⟩
  · refine .inl ?_
    rw [one.nameOf (fewer live), ← two.nameOf live]
    exact name
  · have stays := within.hasNode
    have before := ((two.within_iff c.forest stays).1 within).2
    obtain ⟨role, bound⟩ := c₂.binders.binding binds
    have same : q.bindingOf? v = r.bindingOf? v :=
      (one.binding known).2.trans (two.binding (c₂.binders.hasVariable binds)).2.symm
    refine .inr ⟨n, (one.within_iff c.forest (fewer stays)).2 ⟨fewer live, before⟩, ?_⟩
    exact c₁.binders.site (same.trans bound)

/-- A definition that is dead in the larger of two contractions is dead in the smaller one. -/
theorem DeadDefinition.of_fewer (dead : DeadDefinition q d) (live : r.hasNode (.defn d) = true) :
    DeadDefinition r d := by
  constructor
  case attached => exact attached_of_fewer c one two c₁ c₂ fewer dead.attached live
  case removable =>
    obtain ⟨definition, found, named⟩ := dead.removable
    rw [one.definition (fewer live)] at found
    obtain ⟨old, before, rfl⟩ := Option.map_eq_some_iff.1 found
    have after := two.definition live
    rw [before] at after
    exact ⟨_, after, named⟩
  case unused =>
    intro family v o entry brings read refers
    obtain ⟨held, stays⟩ := two.occurrence.1 read
    have there := one.occurrence.2 ⟨held, fewer stays⟩
    have known : q.hasVariable v = true := refers ▸ (c₁.uses.listed there).hasVariable
    have within := dead.unused (brings.of_fewer c one two c₁ c₂ fewer live known) there refers
    have before := ((one.within_iff c.forest (fewer stays)).1 within).2
    exact (two.within_iff c.forest stays).2 ⟨live, before⟩

omit c c₁ c₂ in
/-- A group that has one member in the first has it in the second, since it does not stay empty. -/
theorem member_of_fewer (peopled : Peopled r) {family : Family} {body : ExprId}
    (read : q.shapeOf? e = some (.group family [d] body)) (live : r.hasNode (.expr e) = true) :
    r.hasNode (.defn d) = true := by
  obtain ⟨old, before, becomes⟩ := one.exists_shape read
  cases old with
  | group family' members body' =>
    injection becomes with _ alone
    have after := two.shape live
    rw [before] at after
    obtain ⟨d', mem⟩ := List.exists_mem_of_ne_nil _ (peopled after)
    obtain ⟨member, stays⟩ := List.mem_filter.1 mem
    have mem' : d' ∈ members.filter fun d => q.hasNode (.defn d) :=
      List.mem_filter.2 ⟨member, fewer stays⟩
    rw [alone, List.mem_singleton] at mem'
    exact mem' ▸ stays
  | _ => cases becomes

end Fewer

/-- A sweep takes nothing away that is left where nothing is dead any more. -/
theorem Sweeps.fewer (sweeps : Sweeps q s) (c : Coherent p) (one : Contracts p place q)
    (two : Contracts p next r) (c₁ : Consistent q) (c₂ : Consistent r) (quiet : r.verifying = false)
    (finished : ∀ s, ¬ Sweeps r s)
    (fewer : ∀ {n : Node}, r.hasNode n = true → q.hasNode n = true) {n : Node}
    (live : r.hasNode n = true) : s.hasNode n = true := by
  have b₁ := c₁.toCoherent
  have b₂ := c₂.toCoherent
  by_contra gone
  rw [Bool.not_eq_true] at gone
  rcases sweeps.gone c₁ with ⟨e, dead, gone_iff⟩ | ⟨d, dead, gone_iff⟩
  · obtain rfl := (gone_iff (fewer live)).1 gone
    obtain ⟨s, sweeps⟩ := (dead.of_fewer c one two b₁ b₂ fewer live).sweeps c₂ quiet
    exact finished s sweeps
  · have stays : r.hasNode (.defn d) = true := by
      rcases (gone_iff (fewer live)).1 gone with within | ⟨e, family, body, rfl, read⟩
      · exact two.whole live ((one.within_iff c.forest (fewer live)).1 within).2
      · exact member_of_fewer one two fewer c₂.peopled read live
    obtain ⟨s, sweeps⟩ := (dead.of_fewer c one two b₁ b₂ fewer stays).sweeps c₂ quiet
    exact finished s sweeps

/-! ## Runs -/

open Relation (ReflTransGen)

/-- The program `q` is what sweeps lead to from `p`, and nothing in it can be swept any more. -/
def Swept (p q : Program) : Prop := ReflTransGen Sweeps p q ∧ ∀ r, ¬ Sweeps q r

/-- A run of sweeps is one contraction. -/
theorem Reachable.sweeps (reachable : Reachable p) (run : ReflTransGen Sweeps p q) :
    Reachable q ∧ ∃ place, Contracts p place q := by
  have c := reachable.consistent.1
  induction run with
  | refl => exact ⟨reachable, id, .refl c.toCoherent⟩
  | tail _ sweeps ih =>
    obtain ⟨reached, place, h⟩ := ih
    obtain ⟨next, h'⟩ := sweeps.contracts reached.consistent.1
    exact ⟨sweeps.reachable reached, _, h.trans c.forest h'⟩

/-- What is left at the end of one run is there all along every other. -/
theorem Swept.live (swept : Swept p r) (reachable : Reachable p) (run : ReflTransGen Sweeps p q)
    {n : Node} (live : r.hasNode n = true) : q.hasNode n = true := by
  obtain ⟨reached, next, two⟩ := reachable.sweeps swept.1
  obtain ⟨c₂, quiet⟩ := reached.consistent
  induction run generalizing n with
  | refl => exact two.live live
  | tail run sweeps ih =>
    obtain ⟨reached, place, one⟩ := reachable.sweeps run
    exact sweeps.fewer reachable.consistent.1.toCoherent one two reached.consistent.1 c₂ quiet
      swept.2 ih live

/-- Two runs that can go no further end in the same program. -/
theorem Swept.unique (one : Swept p q) (two : Swept p r) (reachable : Reachable p) : q = r := by
  obtain ⟨reached, place, h⟩ := reachable.sweeps one.1
  obtain ⟨reached', next, h'⟩ := reachable.sweeps two.1
  refine h.unique reachable.consistent.1.toCoherent h' reached.consistent.1.toCoherent
    reached'.consistent.1.toCoherent fun n => ?_
  rw [Bool.eq_iff_iff]
  exact ⟨one.live reachable two.1, two.live reachable one.1⟩

/-! ## Every run ends -/

/-- At least so many nodes of `p` are gone in `q`. -/
def Sheds (p : Program) (count : Nat) (q : Program) : Prop :=
  ∃ gone : List Node, gone.Nodup ∧ gone.length = count ∧
    ∀ n ∈ gone, p.hasNode n = true ∧ q.hasNode n = false

variable {count : Nat}

/-- A run sheds no more nodes than there are slots. -/
theorem Sheds.le_nodeSlots (sheds : Sheds p count q) : count ≤ p.nodeSlots := by
  obtain ⟨gone, distinct, rfl, went⟩ := sheds
  exact length_le_nodeSlots distinct fun n mem => (went n mem).1

/-- Each sweep takes a node away. -/
theorem Sweeps.exists_gone (sweeps : Sweeps p q) (c : Consistent p) :
    ∃ n, p.hasNode n = true ∧ q.hasNode n = false := by
  rcases sweeps.gone c with ⟨e, dead, gone_iff⟩ | ⟨d, dead, gone_iff⟩
  · have live := hasNode_of_isAttached dead.attached
    exact ⟨_, live, (gone_iff live).2 rfl⟩
  · have live := hasNode_of_isAttached dead.attached
    exact ⟨_, live, (gone_iff live).2 (.inl (c.forest.within_self live))⟩

/-- Every sweep takes a node away, and none comes back. -/
theorem Sheds.sweeps (sheds : Sheds p count q) (reachable : Reachable p)
    (run : ReflTransGen Sweeps p q) (sweeps : Sweeps q r) : Sheds p (count + 1) r := by
  obtain ⟨reached, place, contracts⟩ := reachable.sweeps run
  have c := reached.consistent.1
  obtain ⟨m, live, dead⟩ := sweeps.exists_gone c
  obtain ⟨next, contracts'⟩ := sweeps.contracts c
  obtain ⟨gone, distinct, rfl, went⟩ := sheds
  have new : m ∉ gone := by
    intro mem
    rw [(went m mem).2] at live
    cases live
  refine ⟨m :: gone, List.nodup_cons.2 ⟨new, distinct⟩, rfl, List.forall_mem_cons.2 ⟨?_, ?_⟩⟩
  · exact ⟨contracts.live live, dead⟩
  · intro n mem
    obtain ⟨before, between⟩ := went n mem
    refine ⟨before, ?_⟩
    by_contra back
    rw [Bool.not_eq_false] at back
    rw [contracts'.live back] at between
    cases between

theorem Sheds.nothing (p : Program) : Sheds p 0 p := ⟨[], List.nodup_nil, rfl, by simp⟩

/-- A run of sweeps has no more steps than the program has slots for nodes. -/
theorem Reachable.run_ends (reachable : Reachable p) {run : Nat → Program} (start : run 0 = p) :
    ∃ i ≤ p.nodeSlots, ¬ Sweeps (run i) (run (i + 1)) := by
  by_contra onward
  simp only [not_exists, not_and, not_not] at onward
  have long (count : Nat) (le : count ≤ p.nodeSlots + 1) :
      ReflTransGen Sweeps p (run count) ∧ Sheds p count (run count) := by
    induction count with
    | zero => exact start ▸ ⟨.refl, .nothing _⟩
    | succ count ih =>
      obtain ⟨steps, sheds⟩ := ih (by omega)
      have sweeps := onward count (by omega)
      exact ⟨steps.tail sweeps, sheds.sweeps reachable steps sweeps⟩
  have most := (long _ (Nat.le_refl _)).2.le_nodeSlots
  omega

/-- Some run can go no further. -/
theorem Reachable.exists_swept (reachable : Reachable p) : ∃ q, Swept p q := by
  by_contra none
  have onward {q : Program} (run : ReflTransGen Sweeps p q) : ∃ r, Sweeps q r := by
    by_contra finished
    exact none ⟨q, run, fun r sweeps => finished ⟨r, sweeps⟩⟩
  have long (count : Nat) : ∃ q, ReflTransGen Sweeps p q ∧ Sheds p count q := by
    induction count with
    | zero => exact ⟨p, .refl, .nothing p⟩
    | succ count ih =>
      obtain ⟨q, run, sheds⟩ := ih
      obtain ⟨r, sweeps⟩ := onward run
      exact ⟨r, run.tail sweeps, sheds.sweeps reachable run sweeps⟩
  obtain ⟨q, -, sheds⟩ := long (p.nodeSlots + 1)
  have most := sheds.le_nodeSlots
  omega

/-- Below a constant a group of two continuations that nothing enters from outside: a loop, and an
exit that returns the constant. -/
def exitUnused : Program :=
  run [.freshValue "code" .any, .freshContinuation "return", .freshContinuation "loop",
    .freshContinuation "exit", .jump ⟨⟨1⟩, .recursive⟩ [], .continuation ⟨1⟩ [] ⟨0⟩,
    .jump ⟨⟨0⟩, .nonRecursive⟩ [⟨⟨0⟩, .nonRecursive⟩], .continuation ⟨2⟩ [] ⟨1⟩, .unreachable,
    .group .continuation [⟨0⟩, ⟨1⟩] ⟨2⟩, .letIn ⟨0⟩ (.constant .unit) ⟨3⟩,
    .root ⟨0⟩ [] ⟨[], .any⟩ ⟨4⟩, .install ⟨2⟩]

/-- The exit goes first, then the constant that only it used, and the loop with its group last. -/
def exitSwept : Program :=
  exitUnused.performAll [.removeDeadDefinition ⟨1⟩, .removeDeadLet ⟨4⟩, .removeDeadDefinition ⟨0⟩]

theorem exitUnused_reachable : Reachable exitUnused := reachable_run _

/-- Nothing is left to sweep: the root is no dead definition, and its body is no let. -/
theorem exitSwept_swept : Swept exitUnused exitSwept := by
  have run : ReflTransGen Sweeps exitUnused exitSwept :=
    .tail (.tail (.tail .refl (.deadDefinition ⟨1⟩ rfl)) (.deadLet ⟨4⟩ rfl))
      (.deadDefinition ⟨0⟩ rfl)
  refine ⟨run, fun r sweeps => ?_⟩
  have c := (exitUnused_reachable.sweeps run).1.consistent.1
  rcases sweeps.gone c with ⟨e, dead, -⟩ | ⟨d, dead, -⟩
  · obtain ⟨v, value, body, read, -⟩ := dead.unused
    rcases e with ⟨_ | _ | _ | _ | _ | _⟩ <;> cases read
  · obtain ⟨definition, found, named, accepted⟩ := dead.removable
    rcases d with ⟨_ | _ | _ | _⟩ <;> cases found
    cases accepted

/-- Whatever calls led to a program, every sequence of sweeps from it ends, after as many as there
are slots for nodes at the latest, and all that are continued until nothing is dead end in the same
program. -/
theorem reachable_sweeping_confluent (reachable : Reachable p) :
    (∀ run : Nat → Program, run 0 = p → ∃ i ≤ p.nodeSlots, ¬ Sweeps (run i) (run (i + 1))) ∧
      ∃! q, Swept p q := by
  refine ⟨fun run start => reachable.run_ends start, ?_⟩
  obtain ⟨q, swept⟩ := reachable.exists_swept
  exact ⟨q, swept, fun r other => other.unique swept reachable⟩

/-- The constant is dead only once the exit is gone, but the loop may go first, second or last: what
is left is the root with its unreachable body. -/
theorem exitUnused_confluent : Reachable exitUnused ∧
    (∀ run : Nat → Program, run 0 = exitUnused →
      ∃ i ≤ exitUnused.nodeSlots, ¬ Sweeps (run i) (run (i + 1))) ∧
    (∀ q, Swept exitUnused q ↔ q = exitSwept) ∧
    exitSwept.shapeOf? ⟨2⟩ = some .unreachable ∧
    exitSwept.childrenOf (.defn ⟨2⟩) = [.expr ⟨2⟩] := by
  obtain ⟨ends, confluent⟩ := reachable_sweeping_confluent exitUnused_reachable
  refine ⟨exitUnused_reachable, ends, fun q => ⟨fun swept => ?_, ?_⟩,
    by decide +kernel, by decide +kernel⟩
  · exact confluent.unique swept exitSwept_swept
  · intro eq
    rw [eq]
    exact exitSwept_swept

end Program

end ContinuationIR
