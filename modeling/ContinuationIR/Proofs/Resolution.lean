import ContinuationIR.Proofs.Region

/-!
# Scope resolution along a lineage

Resolving a use climbs from its holder. Where the climb comes to its end, the answer is a function of
the lineage alone: which of its nodes binds the variable, and whether a continuation would have to
cross a function on the way there.
-/

namespace ContinuationIR
set_option autoImplicit false

namespace Program

variable {family : Family} {p q : Program} {graft : Option Graft} {var : VarId family}
  {holder : ExprId} {above : List Node}

@[simp] theorem graftedEnclosing_none (p : Program) : p.graftedEnclosing none = p.enclosing := rfl

theorem stopsContinuations_ok {node : Node} (live : p.hasNode node = true) :
    ∃ stops, p.stopsContinuations node = .ok stops := by
  cases node with
  | expr e => exact ⟨false, rfl⟩
  | defn d =>
    obtain ⟨entry, read⟩ := hasNode_defn_iff.1 live
    simp [stopsContinuations, fetchDefinition, Slots.fetch_of_get? read, bind, Except.bind, pure,
      Except.pure]

/-- A use of a bound variable resolves along the lineage of its holder. -/
theorem resolve_of_bound {binding : Binding} (bound : p.bindingOf? var = some binding)
    (lin : Lineage (p.graftedEnclosing graft) (.expr holder) above)
    (live : ∀ n ∈ Node.expr holder :: above, p.hasNode n = true) :
    p.resolve graft var holder = p.resolveAlong binding var holder none (.expr holder) above := by
  have short := length_le_nodeSlots lin.nodup live
  rw [List.length_cons] at short
  have climbed := lin.climbBy_eq (show above.length < p.nodeSlots + 1 by omega)
  obtain ⟨entry, read, found⟩ := Option.bind_eq_some_iff.1 bound
  have fetched : p.fetchVariable var = .ok entry := Slots.fetch_of_get? read
  simp only [resolve, fetched, orFault, bind, Except.bind, found, climbed]

/-- A variable without a binder is refused at every holder. -/
theorem resolve_of_unbound (live : p.hasVariable var = true) (unbound : p.bindingOf? var = none) :
    p.resolve graft var holder = .error (.refused (.unbound var holder)) := by
  obtain ⟨entry, read⟩ := Slots.contains_iff.1 live
  have fetched : p.fetchVariable var = .ok entry := Slots.fetch_of_get? read
  have found : entry.binding = none := by simpa [bindingOf?, varEntry?, read] using unbound
  simp [resolve, fetched, orFault, bind, Except.bind, found]

/-- Only bound variables resolve. -/
theorem exists_binding_of_resolve {recursivity : Recursivity}
    (resolved : p.resolve graft var holder = .ok recursivity) :
    ∃ binding, p.bindingOf? var = some binding := by
  cases bound : p.bindingOf? var with
  | some binding => exact ⟨binding, rfl⟩
  | none =>
    cases live : p.hasVariable var with
    | true => rw [resolve_of_unbound live bound] at resolved; cases resolved
    | false =>
      have dead : (p.table family).vars.get? var = none := by
        simpa [hasVariable, Slots.contains] using live
      simp [resolve, fetchVariable, Slots.fetch, dead, orFault, bind, Except.bind] at resolved

/-- Resolving along live nodes does not break down. -/
theorem resolveAlong_ne_faulted {binding : Binding} {child : Node} {fault : Fault}
    (live : ∀ n ∈ above, p.hasNode n = true) :
    p.resolveAlong binding var holder none child above ≠ .error (.faulted fault) := by
  induction above generalizing child with
  | nil => simp [resolveAlong]
  | cons n rest ih =>
    have next := @ih n fun m mem => live m (List.mem_cons_of_mem _ mem)
    obtain ⟨stops, crossing⟩ := stopsContinuations_ok (live n List.mem_cons_self)
    rw [resolveAlong]
    split
    · split <;> simp
    · split
      · rw [crossing]
        cases stops with
        | true => simp
        | false => exact next
      · exact next

/-- Resolution along a live lineage never faults. -/
theorem resolve_ne_faulted {fault : Fault} (known : p.hasVariable var = true)
    (lin : Lineage (p.graftedEnclosing graft) (.expr holder) above)
    (live : ∀ n ∈ Node.expr holder :: above, p.hasNode n = true) :
    p.resolve graft var holder ≠ .error (.faulted fault) := by
  cases bound : p.bindingOf? var with
  | none => simp [resolve_of_unbound known bound]
  | some binding =>
    rw [resolve_of_bound bound lin live]
    exact resolveAlong_ne_faulted fun n mem => live n (List.mem_cons_of_mem _ mem)

/-- A use that resolves does so in another program too, if the lineage of its holder, the binding of
its variable and the definitions on the way are the same there. -/
theorem resolve_transfer {recursivity : Recursivity}
    (resolved : p.resolve graft var holder = .ok recursivity)
    (binding : q.bindingOf? var = p.bindingOf? var)
    (lin : Lineage (p.graftedEnclosing graft) (.expr holder) above)
    (linAfter : Lineage q.enclosing (.expr holder) above)
    (live : ∀ n ∈ Node.expr holder :: above, p.hasNode n = true)
    (crossing : ∀ n ∈ above, q.stopsContinuations n = p.stopsContinuations n) :
    q.resolve none var holder = .ok recursivity := by
  obtain ⟨b, bound⟩ := exists_binding_of_resolve resolved
  have after : q.resolve none var holder = _ :=
    resolve_of_bound (binding.trans bound) linAfter (hasNode_of_lineage linAfter)
  rw [after, ← resolved, resolve_of_bound bound lin live]
  generalize Node.expr holder = child
  clear lin linAfter live after resolved
  induction above generalizing child with
  | nil => rfl
  | cons n rest ih =>
    have next := ih (fun m mem => crossing m (List.mem_cons_of_mem _ mem)) n
    simp only [resolveAlong, crossing n List.mem_cons_self, next]

/-- The recursivity that a use has whose holder has the given lineage, by what the nodes bind: the
first node that binds the variable decides, and a continuation is not looked for beyond a
function. -/
def seenAlong (p : Program) (var : VarId family) : Node → List Node → Option Recursivity
  | _, [] => none
  | child, site :: above =>
    if ⟨var⟩ ∈ p.bindersOf site then
      some (if (p.groupOf site).isSome ∧ child.isDefinition then .recursive else .nonRecursive)
    else if family = .continuation ∧ p.stopsContinuations site ≠ .ok false then none
    else p.seenAlong var site above

/-- What is found along a lineage is bound by one of its nodes. -/
theorem exists_binder_of_seenAlong {child : Node} {recursivity : Recursivity}
    (seen : p.seenAlong var child above = some recursivity) : ∃ n, ⟨var⟩ ∈ p.bindersOf n := by
  induction above generalizing child with
  | nil => cases seen
  | cons n rest ih =>
    rw [seenAlong] at seen
    split at seen
    · next binds => exact ⟨n, binds⟩
    · split at seen
      · cases seen
      · exact ih seen

/-- Where the names of members are recorded as such and definitions stand below groups only, resolving
a use is looking for the node that binds it. -/
theorem resolveAlong_eq_ok_iff {binding : Binding} {child : Node} {recursivity : Recursivity}
    (lin : Lineage p.enclosing child above)
    (site : ∀ n : Node, ⟨var⟩ ∈ p.bindersOf n ↔ n = binding.site)
    (role : (p.groupOf binding.site).isSome = true → binding.role = .groupName)
    (member : ∀ {d : DefId} {n : Node}, p.enclosing (.defn d) = .ok (some n) →
      (p.groupOf n).isSome = true) :
    p.resolveAlong binding var holder none child above = .ok recursivity ↔
      p.seenAlong var child above = some recursivity := by
  induction lin with
  | top => simp [resolveAlong, seenAlong]
  | @up child n rest link lin next =>
    obtain ⟨stops, crossing⟩ := stopsContinuations_ok (hasNode_of_lineage lin n List.mem_cons_self)
    simp only [resolveAlong, seenAlong, site]
    by_cases here : n = binding.site
    · subst here
      have same : binding.role = .groupName ∧ child.isDefinition = true ↔
          (p.groupOf binding.site).isSome = true ∧ child.isDefinition = true := by
        refine and_congr_left fun inside => ⟨fun _ => ?_, role⟩
        cases child with
        | expr e => cases inside
        | defn d => exact member link
      simp only [if_true, same]
      split <;> simp
    · simp only [here, if_false]
      by_cases second : family = .continuation
      · rw [crossing]
        cases stops with
        | true => simp [second]
        | false => simpa [second] using next
      · simpa [second] using next

end Program

end ContinuationIR
