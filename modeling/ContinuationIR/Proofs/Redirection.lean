import ContinuationIR.Proofs.Agreement
import ContinuationIR.Proofs.Contraction

/-!
# Substitutions one by one and all at once

A substitution moves occurrences to another variable and leaves the rest alone, so the program after
it is known from where the occurrences are. Moving one occurrence changes neither whether another may
be moved nor the recursivity that it gets. Hence the occurrences of a variable can be moved in any
order, and all at once if each of them can be moved. What was moved can be moved back, since the
occurrence was in scope where it was.
-/

namespace ContinuationIR
set_option autoImplicit false

namespace Program

variable {family : Family} {p q r : Program} {o : OccId family} {old new : VarId family}
  {recursivity : Recursivity} {front order : List (OccId family)}

/-! ## Occurrences determine the program -/

/-- Moving occurrences frees no variable and makes none. -/
theorem Moved.hasVariable_eq (moved : Moved p q) (settled : Settled p q) (v : VarId family) :
    q.hasVariable v = p.hasVariable v := by
  refine Bool.eq_iff_iff.2 ⟨fun live => ?_, moved.hasVariable⟩
  obtain ⟨entry, read⟩ := Slots.contains_iff.1 live
  have given : v.index < (p.table family).vars.size :=
    Nat.lt_of_lt_of_eq (Slots.index_lt_size read) (congrFun settled.issued (.var family))
  obtain ⟨before, found, -⟩ := (settled.table family).vars.entry read given
  exact Slots.contains_iff.2 ⟨before, found⟩

/-- Two programs that come from one by moving occurrences are equal if the occurrences are. -/
theorem Moved.eq_of_occurrences (one : Moved p q) (two : Moved p r) (settled : Settled p q)
    (settled' : Settled p r)
    (same : ∀ {family : Family} (o : OccId family), q.occEntry? o = r.occEntry? o) : q = r :=
  eq_of_views settled settled' one.coherent.uses two.coherent.uses
    (fun v => (one.hasVariable_eq settled v).trans (two.hasVariable_eq settled' v).symm)
    (fun v => (one.binding v).trans (two.binding v).symm) same (one.root.trans two.root.symm)
    (one.verifying.trans two.verifying.symm)
    (fun n => (one.enclosing n).trans (two.enclosing n).symm)
    (fun e => (one.shape e).trans (two.shape e).symm)
    fun d => (one.definition d).trans (two.definition d).symm

/-- The recursivity of a moved occurrence is that of its place, so which occurrences were moved
determines the program. -/
theorem Redirected.unique (one : Redirected p new front q) (two : Redirected p new order r)
    (settled : Settled p q) (settled' : Settled p r) (same : ∀ o, o ∈ front ↔ o ∈ order) : q = r := by
  refine one.toMoved.eq_of_occurrences two.toMoved settled settled' fun {other} k => ?_
  by_cases moved : ∃ o ∈ front, (⟨k⟩ : Use) = ⟨o⟩
  · obtain ⟨o, mem, eq⟩ := moved
    cases eq
    cases read : p.occEntry? o with
    | none =>
      have dead := one.holder o
      have dead' := two.holder o
      rw [read, Option.map_none, Option.map_eq_none_iff] at dead dead'
      rw [dead, dead']
    | some entry =>
      obtain ⟨tag, resolved, moved⟩ := one.moved mem read
      obtain ⟨tag', resolved', moved'⟩ := two.moved ((same o).1 mem) read
      rw [resolved] at resolved'
      cases resolved'
      rw [moved, moved']
  · have stays : ∀ o ∈ front, (⟨k⟩ : Use) ≠ ⟨o⟩ := fun o mem eq => moved ⟨o, mem, eq⟩
    rw [one.others stays, two.others fun o mem => stays o ((same o).2 mem)]

/-! ## Substitutions after others -/

/-- What a substitution asks for does not depend on where other occurrences are. -/
theorem Moved.checkSubstitution (moved : Moved p q) (c : Coherent p)
    (checked : p.checkSubstitution o new = .ok recursivity) :
    q.checkSubstitution o new = .ok recursivity := by
  obtain ⟨movable, attached⟩ := (checkSubstitution_eq_ok_iff c).1 checked
  obtain ⟨entry, read, -⟩ := movable.place
  refine (checkSubstitution_eq_ok_iff moved.coherent).2
    ⟨movable.transport c moved.toSameNodes, fun {entry'} read' => ?_⟩
  have holder := moved.holder o
  rw [read, read'] at holder
  rw [show entry'.holder = entry.holder from Option.some.inj holder,
    moved.isAttached moved.root c.forest (hasNode_of_use (c.uses.held read))]
  exact attached read

/-- In the installed tree an occurrence may be moved to the variable that it refers to. -/
theorem Consistent.checkSubstitution_self (c : Consistent p) {entry : OccurrenceEntry family}
    (read : p.occEntry? o = some entry) (attached : p.isAttached (.expr entry.holder) = .ok true) :
    p.checkSubstitution o entry.var = .ok entry.recursivity :=
  checkSubstitution_of_attached c.toCoherent (c.uses.listed read).hasVariable read
    (c.inScope read attached) (c.fitsAt read) attached

/-- Where the occurrences were in between is forgotten when all of them are moved again. -/
theorem Redirected.again {other : VarId family} (c : Coherent p) (h : Redirected p new front q)
    (h' : Redirected q other front r) : Redirected p other front r where
  toMoved := h.toMoved.trans h'.toMoved
  moved := h'.moved_after h.toMoved c
  others elsewhere := (h'.others elsewhere).trans (h.others elsewhere)

/-- A substitution that succeeds redirects one occurrence. -/
theorem redirected_substitute (c : Coherent p) (ok : (p.substitute o new).result = .ok ()) :
    Redirected p new [o] (p.substitute o new).program :=
  (ends_substitute c o new).holds ok

theorem settled_substitute (p : Program) (o : OccId family) (new : VarId family) :
    Settled p (p.substitute o new).program := by
  have settled : Settled p (p.perform (.substitute o new)).program := settled_perform p trivial
  exact settled

theorem settled_substituteAll (p : Program) (old new : VarId family) :
    Settled p (p.substituteAll old new).program := by
  have settled : Settled p (p.perform (.substituteAll old new)).program := settled_perform p trivial
  exact settled

/-- A substitution that succeeds can be undone: substituting the variable that the occurrence referred
to succeeds after it and leaves the program as it was before. -/
theorem substitute_undone (reachable : Reachable p) {entry : OccurrenceEntry family}
    (read : p.occEntry? o = some entry) (ok : (p.substitute o new).result = .ok ()) :
    ((p.substitute o new).program.substitute o entry.var).result = .ok () ∧
      ((p.substitute o new).program.substitute o entry.var).program = p := by
  obtain ⟨c, quiet⟩ := reachable.consistent
  obtain ⟨tag, checked⟩ := checked_of_substitute ok
  have attached := ((checkSubstitution_eq_ok_iff c.toCoherent).1 checked).2 read
  have redirected := redirected_substitute c.toCoherent ok
  have settled := settled_substitute p o new
  generalize (p.substitute o new).program = q at redirected settled
  have here := c.checkSubstitution_self read attached
  have way := redirected.toMoved.checkSubstitution c.toCoherent here
  have back := (substitute_of_checked redirected.coherent (redirected.verifying.trans quiet) way).1
  refine ⟨back, ?_⟩
  have returned := redirected.again c.toCoherent (redirected_substitute redirected.coherent back)
  -- so does moving the occurrence to where it is, and that leaves `p`
  have movable := ((checkSubstitution_eq_ok_iff c.toCoherent).1 here).1
  have unmoved : Redirected p entry.var [o] p :=
    (Repointed.refl c.uses read).redirected c.toCoherent movable
  exact returned.unique unmoved (settled.trans (settled_substitute q o entry.var)) (.refl p)
    fun _ => Iff.rfl

/-- The jump back is recursive, is sent to the return continuation and comes back as it was. -/
theorem loopInstalled_jump_restored :
    (loopInstalled.substitute (⟨0⟩ : OccId .continuation) ⟨0⟩).program ≠ loopInstalled ∧
    ((loopInstalled.substitute (⟨0⟩ : OccId .continuation) ⟨0⟩).program.substitute
      (⟨0⟩ : OccId .continuation) ⟨1⟩).program = loopInstalled := by
  have reachable : Reachable loopInstalled := reachable_run _
  have read : loopInstalled.occEntry? (⟨0⟩ : OccId .continuation) = some ⟨⟨1⟩, .recursive, ⟨0⟩⟩ := rfl
  have ok : (loopInstalled.substitute (⟨0⟩ : OccId .continuation) ⟨0⟩).result = .ok () := rfl
  refine ⟨fun same => ?_, (substitute_undone reachable read ok).2⟩
  have moved : (loopInstalled.substitute (⟨0⟩ : OccId .continuation) ⟨0⟩).program.occEntry?
    (⟨0⟩ : OccId .continuation) = some ⟨⟨0⟩, .nonRecursive, ⟨0⟩⟩ := rfl
  rw [same, read] at moved
  cases moved

/-! ## All occurrences of a variable -/

/-- The substitutions at the occurrences, made one after another in this order, all succeed and lead
from the first program to the second. -/
inductive Substitutes (new : VarId family) : List (OccId family) → Program → Program → Prop where
  | done (p : Program) : Substitutes new [] p p
  | step {p q : Program} {o : OccId family} {order : List (OccId family)}
      (ok : (p.substitute o new).result = .ok ())
      (rest : Substitutes new order (p.substitute o new).program q) :
      Substitutes new (o :: order) p q

/-- After some substitutions those that could be made before can still be made. -/
theorem Redirected.exists_substitutes (c : Coherent p) (quiet : p.verifying = false)
    (redirected : Redirected p new front q) (settled : Settled p q)
    (checked : ∀ o ∈ order, ∃ recursivity, p.checkSubstitution o new = .ok recursivity) :
    ∃ r, Substitutes new order q r ∧ Redirected p new (front ++ order) r ∧ Settled p r := by
  induction order generalizing front q with
  | nil => exact ⟨q, .done q, by rwa [List.append_nil], settled⟩
  | cons o order ih =>
    obtain ⟨⟨recursivity, first⟩, rest⟩ := List.forall_mem_cons.1 checked
    have still := redirected.toMoved.checkSubstitution c first
    have ok := (substitute_of_checked redirected.coherent (redirected.verifying.trans quiet) still).1
    have next := redirected.append c (redirected_substitute redirected.coherent ok)
    obtain ⟨r, substitutes, all, later⟩ :=
      ih next (settled.trans (settled_substitute q o new)) rest
    rw [List.append_assoc, List.singleton_append] at all
    exact ⟨r, .step ok substitutes, all, later⟩

/-- The moved occurrences are now those of the new variable and no longer those of another. -/
theorem Redirected.exists_varEntry? (redirected : Redirected p new front q) (settled : Settled p q)
    (u : UsesIndexed p) (live : ∀ o ∈ front, p.hasOccurrence o = true) {v : VarId family}
    {entry : VariableEntry family} (read : p.varEntry? v = some entry) :
    ∃ occurrences, q.varEntry? v = some { entry with occurrences := occurrences } ∧
      ∀ o, o ∈ occurrences ↔ if o ∈ front then v = new else o ∈ entry.occurrences := by
  have uses := redirected.coherent.uses
  have known := redirected.hasVariable (Slots.contains_iff.2 ⟨entry, read⟩)
  obtain ⟨occurrences, read'⟩ := settled.exists_varEntry? read known (redirected.binding v)
  refine ⟨occurrences, read', fun o => ?_⟩
  rw [uses.mem_iff read', u.mem_iff read]
  split
  · next mem =>
    obtain ⟨use, found⟩ := Slots.contains_iff.1 (live o mem)
    obtain ⟨_, -, moved⟩ := redirected.moved mem found
    rw [moved]
    simp [eq_comm]
  · next away =>
    have stays : ∀ k ∈ front, (⟨o⟩ : Use) ≠ ⟨k⟩ := by
      rintro k mem ⟨⟩
      exact away mem
    rw [redirected.others stays]

theorem UsesIndexed.hasOccurrence (u : UsesIndexed p) {v : VarId family}
    {entry : VariableEntry family} (read : p.varEntry? v = some entry) :
    ∀ o ∈ entry.occurrences.toList, p.hasOccurrence o = true := by
  intro o mem
  obtain ⟨use, found, -⟩ := (u.mem_iff read).1 mem
  exact Slots.contains_iff.2 ⟨use, found⟩

/-- Once all its occurrences are redirected, the old variable lists none. -/
theorem Redirected.varEntry?_old (redirected : Redirected p new front q) (settled : Settled p q)
    (u : UsesIndexed p) {entry : VariableEntry family} (read : p.varEntry? old = some entry)
    (all : front = entry.occurrences.toList) (differ : old ≠ new) :
    q.varEntry? old = some { entry with occurrences := .empty } := by
  subst all
  obtain ⟨occurrences, read', members⟩ :=
    redirected.exists_varEntry? settled u (u.hasOccurrence read) read
  have none : occurrences = .empty := by
    refine HandleSet.ext_mem fun o => ?_
    rw [members, HandleSet.mem_def]
    simp [differ]
  rw [read', none]

section All

variable {entry : VariableEntry family} (read : p.varEntry? old = some entry) (differ : old ≠ new)
include read differ

/-- If each occurrence can be moved, all are. -/
theorem substituteAll_of_checked (c : Coherent p) (quiet : p.verifying = false)
    (checked : ∀ o ∈ entry.occurrences, ∃ recursivity,
      p.checkSubstitution o new = .ok recursivity) :
    (p.substituteAll old new).result = .ok entry.occurrences.size ∧
      Redirected p new entry.occurrences.toList (p.substituteAll old new).program := by
  obtain ⟨moves, accepted⟩ := exists_checkSubstitutions_iff.2 checked
  have same := map_fst_of_checkSubstitutions accepted
  obtain ⟨⟨⟩, q, run, redirected⟩ := runs_repointAll c (movable_of_checkSubstitutions c accepted)
  have still : q.verifying = false := redirected.verifying.trans quiet
  have size : moves.length = entry.occurrences.size := by
    rw [HandleSet.size, ← same, List.length_map]
  rw [same] at redirected
  simp only [substituteAll, read, if_neg differ, accepted, Outcome.commit, Outcome.after, run,
    Outcome.verified, still, size]
  exact ⟨rfl, redirected⟩

/-- If an occurrence cannot be moved, the first such one says why. -/
theorem substituteAll_of_failed {failure : Failure ChangeError}
    (failed : p.checkSubstitutions new entry.occurrences.toList = .error failure) :
    p.substituteAll old new = .failed p failure ∧
      ∃ o ∈ entry.occurrences, p.checkSubstitution o new = .error failure ∧
        ∀ k ∈ entry.occurrences, k.index < o.index →
          ∃ recursivity, p.checkSubstitution k new = .ok recursivity := by
  refine ⟨by simp only [substituteAll, read, if_neg differ, failed, Outcome.commit], ?_⟩
  obtain ⟨front, o, back, split, passed, stopped⟩ := mapM_eq_error failed
  have here : p.checkSubstitution o new = .error failure := by
    rcases bind_eq_error.1 stopped with here | ⟨_, -, impossible⟩
    · exact here
    · cases impossible
  refine ⟨o, ?_, here, fun k mem below => ?_⟩
  · rw [HandleSet.mem_def, split]
    simp
  · have ascending := entry.occurrences.ascending
    rw [HandleSet.mem_def, split] at mem
    rw [split, List.pairwise_append, List.pairwise_cons] at ascending
    rcases List.mem_append.1 mem with before | after
    · obtain ⟨_, found⟩ := passed k before
      simp only [bind_eq_ok] at found
      obtain ⟨recursivity, found, -⟩ := found
      exact ⟨recursivity, found⟩
    · rcases List.mem_cons.1 after with rfl | after
      · omega
      · have := ascending.2.1.1 k after
        omega

end All

/-- Substituting at all occurrences of a variable succeeds just if the substitution at each of them
would. It then answers how many there were and leaves the variable without occurrences, and the
program is the one that the single substitutions lead to in any order. Otherwise it fails as the
substitution at the first occurrence that cannot be moved does, and changes nothing. -/
theorem substituteAll_in_any_order (reachable : Reachable p) {entry : VariableEntry family}
    (read : p.varEntry? old = some entry) (differ : old ≠ new) :
    ((∃ count, (p.substituteAll old new).result = .ok count) ↔
      ∀ o ∈ entry.occurrences, (p.substitute o new).result = .ok ()) ∧
    (∀ count, (p.substituteAll old new).result = .ok count →
      count = entry.occurrences.size ∧
      (p.substituteAll old new).program.varEntry? old =
        some { entry with occurrences := .empty } ∧
      ∀ order : List (OccId family), order.Perm entry.occurrences.toList →
        Substitutes new order p (p.substituteAll old new).program) ∧
    ((¬ ∀ o ∈ entry.occurrences, (p.substitute o new).result = .ok ()) →
      (p.substituteAll old new).program = p ∧
      ∃ o ∈ entry.occurrences, ∃ reason,
        (p.substituteAll old new).result = .error (.refused reason) ∧
        (p.substitute o new).result = .error (.refused reason) ∧
        ∀ k ∈ entry.occurrences, k.index < o.index → (p.substitute k new).result = .ok ()) := by
  obtain ⟨c, quiet⟩ := reachable.consistent
  have accepts (o : OccId family) : (p.substitute o new).result = .ok () ↔
      ∃ recursivity, p.checkSubstitution o new = .ok recursivity :=
    ⟨checked_of_substitute, fun ⟨_, checked⟩ => (substitute_of_checked c.toCoherent quiet checked).1⟩
  simp only [accepts]
  by_cases all : ∀ o ∈ entry.occurrences, ∃ recursivity, p.checkSubstitution o new = .ok recursivity
  · have size := (substituteAll_of_checked read differ c.toCoherent quiet all).1
    have redirected := (substituteAll_of_checked read differ c.toCoherent quiet all).2
    have settled := settled_substituteAll p old new
    refine ⟨iff_of_true ⟨_, size⟩ all, fun count ok => ⟨?_, ?_, fun order perm => ?_⟩,
      absurd all⟩
    · rw [size] at ok
      cases ok
      rfl
    · exact redirected.varEntry?_old settled c.uses read rfl differ
    · obtain ⟨r, substitutes, moved, settled'⟩ :=
        (Redirected.nothing c.toCoherent).exists_substitutes c.toCoherent quiet (.refl p)
          fun o mem => all o (perm.mem_iff.1 mem)
      rwa [redirected.unique moved settled settled' fun o => perm.symm.mem_iff]
  · cases failed : p.checkSubstitutions new entry.occurrences.toList with
    | ok moves => exact absurd (exists_checkSubstitutions_iff.1 ⟨moves, failed⟩) all
    | error failure =>
      obtain ⟨eq, o, mem, here, earlier⟩ := substituteAll_of_failed read differ failed
      cases failure with
      | faulted fault => exact absurd here (decides_checkSubstitution c.toCoherent fault)
      | refused reason =>
        rw [eq]
        refine ⟨iff_of_false ?_ all, ?_, fun _ => ⟨rfl, o, mem, reason, rfl, ?_, earlier⟩⟩
        · rintro ⟨_, ⟨⟩⟩
        · rintro _ ⟨⟩
        · rw [substitute_of_failed here]
          rfl

/-- Both jumps of the loop can be sent to the return continuation, the later one first. -/
theorem loopInstalled_jumps_substituted :
    (loopInstalled.substituteAll (⟨1⟩ : VarId .continuation) ⟨0⟩).result = .ok 2 ∧
    Substitutes (⟨0⟩ : VarId .continuation) [⟨1⟩, ⟨0⟩] loopInstalled
      (loopInstalled.substituteAll (⟨1⟩ : VarId .continuation) ⟨0⟩).program := by
  have reachable : Reachable loopInstalled := reachable_run _
  have read : loopInstalled.varEntry? (⟨1⟩ : VarId .continuation) =
    some ⟨"loop", .any, some ⟨.expr ⟨2⟩, .groupName⟩, .ofList [⟨0⟩, ⟨1⟩]⟩ := rfl
  have differ : (⟨1⟩ : VarId .continuation) ≠ ⟨0⟩ := by decide
  obtain ⟨-, made, -⟩ := substituteAll_in_any_order reachable read differ
  exact ⟨rfl, (made 2 rfl).2.2 _ (.swap _ _ _)⟩

end Program

end ContinuationIR
