import ContinuationIR.Proofs.Reach
import ContinuationIR.Proofs.Redirection
import ContinuationIR.Proofs.Sufficiency
import ContinuationIR.Proofs.Sweeping

/-!
# Copy propagation

A let that binds a variable to another one makes a copy of it. Where the copy can be used, the
original can: the original is bound above the let, and the let is above all uses of the copy. If both
have the same kind, the original fits wherever the copy does. So the copy can be replaced by the
original at all its uses, and then nothing stands in the way of removing the let.
-/

namespace ContinuationIR
set_option autoImplicit false

namespace Program

variable {p q : Program} {e body : ExprId} {copy : VarId .value} {o : OccId .value}

/-! ## The original is in scope where the copy is -/

section Copy

variable {use : OccurrenceEntry .value} (c : Consistent p)
  (shape : p.shapeOf? e = some (.letIn copy (.alias o) body)) (read : p.occEntry? o = some use)

include shape in
/-- A copy is bound by the let that makes it. -/
theorem copy_mem_bindersOf : ⟨copy⟩ ∈ p.bindersOf (.expr e) := by
  simp [bindersOf_expr shape, shapeBinders]

include c shape read

/-- The occurrence that is copied is held by the let. -/
theorem Consistent.holder_of_copy : use.holder = e := by
  have held : ⟨o⟩ ∈ p.usesOf (.expr e) := by simp [usesOf_expr shape, Shape.uses, Value.uses]
  exact (Node.expr.inj (c.uses.eq_holder read held)).symm

/-- The original is bound above the let. -/
theorem Consistent.original_above (attached : p.isAttached (.expr e) = .ok true) :
    ∃ binding, p.bindingOf? use.var = some binding ∧ Above p.enclosing binding.site (.expr e) := by
  obtain rfl := c.holder_of_copy shape read
  obtain ⟨binding, bound, above, -⟩ :=
    (c.forest.exists_resolve_iff (hasNode_of_isAttached attached)).1 ⟨_, c.inScope read attached⟩
  exact ⟨binding, bound, above⟩

/-- No variable is a copy of itself, since a let does not bind in its own value. -/
theorem Consistent.copy_ne_original (attached : p.isAttached (.expr e) = .ok true) :
    copy ≠ use.var := by
  rintro rfl
  obtain ⟨binding, bound, above⟩ := c.original_above shape read attached
  have site := c.binders.site_unique (c.binders.site bound) (copy_mem_bindersOf shape)
  rw [site] at above
  exact not_above_self above

/-- Each use of the copy can be made one of the original. -/
theorem Consistent.checkSubstitution_original (whole : AllAttached p)
    (alike : p.kindOf? use.var = p.kindOf? copy) {k : OccId .value}
    {entry : OccurrenceEntry .value} (found : p.occEntry? k = some entry)
    (refers : entry.var = copy) :
    ∃ recursivity, p.checkSubstitution k use.var = .ok recursivity := by
  subst refers
  have live := hasNode_of_use (c.uses.held found)
  have attached : p.isAttached (.expr entry.holder) = .ok true := whole _ live
  have here := whole (.expr e) (by simp [hasNode_expr, shape])
  obtain ⟨binding, bound, above⟩ := c.original_above shape read here
  have below := c.site_above found attached (copy_mem_bindersOf shape)
  have reached : p.Reaches p.enclosing .value binding.site (.expr entry.holder) :=
    ⟨above.trans below, nofun⟩
  obtain ⟨recursivity, resolved⟩ := (c.forest.exists_resolve_iff live).2 ⟨binding, bound, reached⟩
  have fits : FitsAt p k entry.holder use.var := (c.fitsAt found).congr alike
  have known := (c.uses.listed read).hasVariable
  exact ⟨recursivity,
    checkSubstitution_of_attached c.toCoherent known found resolved fits attached⟩

/-- Every use of the copy may be sent to the original: whatever stands above the let stands above
the use. -/
theorem Consistent.checkSubstitutions_original (whole : AllAttached p)
    {copied original : VariableEntry .value} (readCopy : p.varEntry? copy = some copied)
    (readOriginal : p.varEntry? use.var = some original) (alike : copied.kind = original.kind) :
    ∀ k ∈ copied.occurrences, ∃ recursivity, p.checkSubstitution k use.var = .ok recursivity := by
  intro k mem
  obtain ⟨entry, found, refers⟩ := (c.uses.mem_iff readCopy).1 mem
  refine c.checkSubstitution_original shape read whole ?_ found refers
  simp [kindOf?, readCopy, readOriginal, alike]

end Copy

/-! ## What a removed let takes along -/

section Let

variable {v : VarId .value} {value : Value (OccId .value)} (removed : LetRemoved p e q)
  (c : Coherent p) (shape : p.shapeOf? e = some (.letIn v value body))
include removed c shape

/-- Removing a let is a cut by which one node and one variable go. -/
theorem LetRemoved.pruned : ∃ cut, Pruned p cut q ∧ (∀ {n : Node}, cut.gone n ↔ n = .expr e) ∧
    ∀ {w : VarId .value}, p.Lost cut.gone ⟨w⟩ ↔ w = v := by
  obtain ⟨_, _, _, shape', -, s, -, pruned⟩ := removed
  rw [shape] at shape'
  cases shape'
  refine ⟨_, pruned, inside_let_iff c.forest shape, fun {w} => ?_⟩
  have lost : p.Lost (p.Inside (.expr e) (some body)) ⟨w⟩ ↔ _ := lost_iff c.forest.inside_of_member
  refine lost.trans ?_
  simp [inside_let_iff c.forest shape, bindersOf_expr shape, shapeBinders]

theorem LetRemoved.hasNode_eq_false : q.hasNode (.expr e) = false := by
  obtain ⟨cut, pruned, gone, -⟩ := removed.pruned c shape
  exact pruned.dead (gone.2 rfl)

theorem LetRemoved.hasVariable_eq_false : q.hasVariable v = false := by
  obtain ⟨cut, pruned, -, lost⟩ := removed.pruned c shape
  have dead : ¬ q.hasVariable v = true := fun live => (pruned.hasVariable_iff.1 live).2 (lost.2 rfl)
  simpa using dead

/-- With a let go the occurrences in its value. -/
theorem LetRemoved.hasOccurrence_iff {k : OccId .value} :
    q.hasOccurrence k = true ↔ p.hasOccurrence k = true ∧ k ∉ value.uses := by
  obtain ⟨cut, pruned, gone, -⟩ := removed.pruned c shape
  have uses : k ∈ value.uses ↔ ⟨k⟩ ∈ p.usesOf (.expr e) := by simp [usesOf_expr shape, Shape.uses]
  rw [pruned.hasOccurrence_iff, uses]
  constructor
  · rintro ⟨entry, read, stays⟩
    refine ⟨Slots.contains_iff.2 ⟨entry, read⟩, fun held => ?_⟩
    exact stays (gone.2 (c.uses.eq_holder read held).symm)
  · rintro ⟨live, free⟩
    obtain ⟨entry, read⟩ := Slots.contains_iff.1 live
    refine ⟨entry, read, fun goes => free ?_⟩
    rw [← gone.1 goes]
    exact c.uses.held read

/-- Another variable loses the uses that the value of the let made of it. -/
theorem LetRemoved.exists_varEntry? (settled : Settled p q) {w : VarId .value}
    {entry : VariableEntry .value} (read : p.varEntry? w = some entry) (other : w ≠ v) :
    ∃ occurrences, q.varEntry? w = some { entry with occurrences := occurrences } ∧
      ∀ k, k ∈ occurrences ↔ k ∈ entry.occurrences ∧ k ∉ value.uses := by
  obtain ⟨cut, pruned, -, lost⟩ := removed.pruned c shape
  have kept : ¬ p.Lost cut.gone ⟨w⟩ := fun goes => other (lost.1 goes)
  have live := pruned.hasVariable_iff.2 ⟨Slots.contains_iff.2 ⟨entry, read⟩, kept⟩
  obtain ⟨occurrences, read'⟩ := settled.exists_varEntry? read live (pruned.binding kept)
  refine ⟨occurrences, read', fun k => ?_⟩
  have before : k ∈ entry.occurrences ↔ p.Lists w k := by simp [Lists, read]
  have after : k ∈ occurrences ↔ q.Lists w k := by simp [Lists, read']
  rw [before, after, pruned.lists]
  constructor
  · rintro ⟨lists, stays, -⟩
    exact ⟨lists, ((removed.hasOccurrence_iff c shape).1 stays).2⟩
  · rintro ⟨lists, free⟩
    obtain ⟨use, found, -⟩ := c.uses.refers lists
    have stays := (removed.hasOccurrence_iff c shape).2 ⟨Slots.contains_iff.2 ⟨use, found⟩, free⟩
    exact ⟨lists, stays, kept⟩

end Let

/-- Once the copy is replaced and the let is gone, the original is used where it was, apart from the
let, and where the copy was. -/
theorem LetRemoved.original_uses {r : Program} {use : OccurrenceEntry .value}
    {copied original : VariableEntry .value} (removed : LetRemoved q e r) (u : UsesIndexed p)
    (read : p.occEntry? o = some use) (readCopy : p.varEntry? copy = some copied)
    (readOriginal : p.varEntry? use.var = some original) (differ : copy ≠ use.var)
    (redirected : Redirected p use.var copied.occurrences.toList q) (settled : Settled p q)
    (shape : q.shapeOf? e = some (.letIn copy (.alias o) body)) (settled' : Settled q r) :
    ∃ after, r.varEntry? use.var = some { original with occurrences := after } ∧
      ∀ k, k ∈ after ↔ k ∈ original.occurrences ∧ k ≠ o ∨ k ∈ copied.occurrences := by
  obtain ⟨all, readAll, moved⟩ :=
    redirected.exists_varEntry? settled u (u.hasOccurrence readCopy) readOriginal
  obtain ⟨after, readAfter, members⟩ :=
    removed.exists_varEntry? redirected.coherent shape settled' readAll differ.symm
  have elsewhere : o ∉ copied.occurrences := by
    rw [u.mem_iff readCopy, read]
    simpa using differ.symm
  refine ⟨after, readAfter, fun k => ?_⟩
  rw [members, moved]
  by_cases copies : k ∈ copied.occurrences
  · have ne : k ≠ o := fun eq => elsewhere (eq ▸ copies)
    simp [← HandleSet.mem_def, copies, ne, Value.uses]
  · simp [← HandleSet.mem_def, copies, Value.uses]

/-- A copy can always be propagated. If a let in the installed tree, with nothing pending, binds a
variable to another one of the same kind, then the original can be substituted at all uses of the copy
and the let can be removed. With it go the copy and the use that the let made of the original, which
is then used wherever the copy was, and the checker reports nothing. -/
theorem copy_propagates (reachable : Reachable p) (whole : AllAttached p)
    {use : OccurrenceEntry .value} {copied original : VariableEntry .value}
    (shape : p.shapeOf? e = some (.letIn copy (.alias o) body)) (read : p.occEntry? o = some use)
    (readCopy : p.varEntry? copy = some copied) (readOriginal : p.varEntry? use.var = some original)
    (alike : copied.kind = original.kind) :
    (p.substituteAll copy use.var).result = .ok copied.occurrences.size ∧
    ((p.substituteAll copy use.var).program.removeDeadLet e).result = .ok body ∧
    ∀ r, ((p.substituteAll copy use.var).program.removeDeadLet e).program = r →
      r.hasVariable copy = false ∧ r.hasNode (.expr e) = false ∧ r.hasOccurrence o = false ∧
      (∃ after, r.varEntry? use.var = some { original with occurrences := after } ∧
        ∀ k, k ∈ after ↔ k ∈ original.occurrences ∧ k ≠ o ∨ k ∈ copied.occurrences) ∧
      r.check = .ok [] := by
  obtain ⟨c, quiet⟩ := reachable.consistent
  have here := whole (.expr e) (by simp [hasNode_expr, shape])
  have differ := c.copy_ne_original shape read here
  obtain ⟨size, redirected⟩ := substituteAll_of_checked readCopy differ c.toCoherent quiet
    (c.checkSubstitutions_original shape read whole readCopy readOriginal alike)
  have settled := settled_substituteAll p copy use.var
  refine ⟨size, ?_⟩
  generalize (p.substituteAll copy use.var).program = q at redirected settled
  have sound : Sound p :=
    { toCoherent := c.toCoherent, marked := c.marked, inScope := c.inScope, attached := whole }
  obtain ⟨sound', -⟩ := (Changed.moved redirected.toMoved).sound sound
  have c' := redirected.toMoved.consistent c
  have shape' : q.shapeOf? e = some (.letIn copy (.alias o) body) := (redirected.shape e).trans shape
  have here' := sound'.attached (.expr e) (by simp [hasNode_expr, shape'])
  have unused : ∀ k, ¬ q.Lists copy k := by
    simp [Lists, redirected.varEntry?_old settled c.uses readCopy rfl differ]
  have ok := removeDeadLet_eq_ok c' (redirected.verifying.trans quiet) here' shape' unused
  refine ⟨ok, ?_⟩
  rintro r rfl
  have removed := (ends_removeDeadLet c'.toCoherent e).holds ok
  have settled' : Settled q (q.perform (.removeDeadLet e)).program := settled_perform q trivial
  refine ⟨removed.hasVariable_eq_false c'.toCoherent shape',
    removed.hasNode_eq_false c'.toCoherent shape', ?_, ?_, ?_⟩
  · have gone := (removed.hasOccurrence_iff c'.toCoherent shape' (k := o)).not
    simpa [Value.uses] using gone
  · exact removed.original_uses c.uses read readCopy readOriginal differ redirected settled shape'
      settled'
  · exact ((Changed.trimmed (removed.trimmed c'.toCoherent)).sound sound').1.check_eq

/-- A function that calls itself through a copy of its name. -/
def callThroughCopy : Program :=
  run [.freshContinuation "return", .freshContinuation "r", .freshValue "f" .any,
    .freshValue "g" .any, .apply ⟨⟨1⟩, .nonRecursive⟩ [] ⟨⟨1⟩, .nonRecursive⟩,
    .letIn ⟨1⟩ (.alias ⟨⟨0⟩, .recursive⟩) ⟨0⟩, .function ⟨0⟩ ⟨1⟩ [] ⟨[], .any⟩ .internal ⟨1⟩,
    .jump ⟨⟨0⟩, .nonRecursive⟩ [], .group .value [⟨0⟩] ⟨2⟩, .root ⟨0⟩ [] ⟨[], .any⟩ ⟨3⟩,
    .install ⟨1⟩]

theorem callThroughCopy_reachable : Reachable callThroughCopy := reachable_run _

/-- The call through the copy becomes a recursive call. -/
theorem callThroughCopy_propagated :
    (callThroughCopy.substituteAll (⟨1⟩ : VarId .value) ⟨0⟩).result = .ok 1 ∧
    ((callThroughCopy.substituteAll (⟨1⟩ : VarId .value) ⟨0⟩).program.removeDeadLet ⟨1⟩).result =
      .ok ⟨0⟩ ∧
    (((callThroughCopy.substituteAll (⟨1⟩ : VarId .value) ⟨0⟩).program.removeDeadLet
      ⟨1⟩).program.occEntry? (⟨0⟩ : OccId .value) = some ⟨⟨0⟩, .recursive, ⟨0⟩⟩) ∧
    ((callThroughCopy.substituteAll (⟨1⟩ : VarId .value) ⟨0⟩).program.removeDeadLet
      ⟨1⟩).program.check = .ok [] := by
  obtain ⟨c, -⟩ := callThroughCopy_reachable.consistent
  have whole : AllAttached callThroughCopy := ((c.check_eq_nil_iff c.marked).1 rfl).2
  have shape : callThroughCopy.shapeOf? ⟨1⟩ = some (.letIn ⟨1⟩ (.alias ⟨1⟩) ⟨0⟩) := rfl
  have read : callThroughCopy.occEntry? (⟨1⟩ : OccId .value) = some ⟨⟨0⟩, .recursive, ⟨1⟩⟩ := rfl
  obtain ⟨moved, removed, left⟩ :=
    copy_propagates callThroughCopy_reachable whole shape read rfl rfl rfl
  exact ⟨moved, removed, rfl, (left _ rfl).2.2.2.2⟩

end Program

end ContinuationIR
