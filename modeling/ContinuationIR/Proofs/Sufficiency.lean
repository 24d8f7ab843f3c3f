import ContinuationIR.Proofs.Agreement

/-!
# Changes of checked programs

An overwrite can leave tables that no calls lead to and that the checker has nothing to say about: it
does not look at the role that a variable records, and scoping does. Where the names of members are
marked as such, nothing else is needed, also where other variables are marked so too: what changes ask
of a program is what the checker looks at, and they leave a program of the same kind.
-/

namespace ContinuationIR
set_option autoImplicit false

namespace Program

variable {p q : Program} {cut : Cut}

/-! ## What is left stays attached -/

/-- A cut hangs the replacement under another node and leaves the other links, so at the end of a
lineage still stands the root. -/
theorem Pruned.allAttached (h : Pruned p cut q) (clean : Clean p cut) (f : Forest p)
    (whole : AllAttached p) : AllAttached q := by
  intro n live
  have stays := h.stays live
  obtain ⟨above, lin, -⟩ := clean.lineage f ((h.hasNode stays).symm.trans live)
  have last := lin.link_last
  rw [graftedEnclosing_of_ne] at last
  · have attached := whole _ (hasNode_of_enclosing last)
    rw [isAttached_eq (.top last)] at attached
    rw [isAttached_eq (h.lineage clean lin stays), ← attached, List.getLastD_nil, isRoot, isRoot,
      h.root]
  · rintro s swap eq
    rw [eq, graftedEnclosing_replacement swap] at last
    cases last

/-! ## Changes -/

/-- No binding is new, and the site of a binding that is left is a group just if it was one. -/
def BindingsKept (p q : Program) : Prop :=
  ∀ {family : Family} {v : VarId family} {b : Binding}, q.bindingOf? v = some b →
    p.bindingOf? v = some b ∧ q.groupOf b.site = p.groupOf b.site

theorem BindingsKept.namesMarked (kept : BindingsKept p q) (marked : NamesMarked p) :
    NamesMarked q := by
  intro family v b bound group
  obtain ⟨before, same⟩ := kept bound
  exact marked before (same ▸ group)

/-- A change records no bindings. -/
theorem Changed.bindingsKept (changed : Changed p q) (binders : BindersIndexed p) :
    BindingsKept p q := by
  intro family v b bound
  cases changed with
  | moved h => exact ⟨(h.binding v).symm.trans bound, h.groupOf⟩
  | trimmed h =>
    obtain ⟨cut, -, pruned⟩ := h
    obtain ⟨before, stays⟩ := pruned.binding_before binders bound
    exact ⟨before, pruned.groupOf stays⟩

/-- What the checker looks at is in order, and names of members are marked. -/
structure Sound (p : Program) : Prop extends Coherent p where
  marked : NamesMarked p
  inScope : Scoped p
  attached : AllAttached p

theorem Sound.check_eq (sound : Sound p) : p.check = .ok [] :=
  (sound.toCoherent.check_eq_nil_iff sound.marked).2 ⟨sound.inScope, sound.attached⟩

/-- A program with a standing root and marked names that passes the check is sound. -/
theorem sound_of_check (standing : ∀ r, p.root = some r → p.hasNode (.defn r) = true)
    (marked : NamesMarked p) (checked : p.check = .ok []) : Sound p := by
  have coherent := (passed_of_check standing checked).coherent
  obtain ⟨inScope, attached⟩ := (coherent.check_eq_nil_iff marked).1 checked
  exact { toCoherent := coherent, marked, inScope, attached }

/-- A change of a sound program leaves a sound program. -/
theorem Changed.sound (changed : Changed p q) (sound : Sound p) : Sound q ∧ q.root = p.root := by
  have kept : BindingsKept p q := changed.bindingsKept sound.binders
  have marked : NamesMarked q := kept.namesMarked sound.marked
  cases changed with
  | moved h =>
    refine ⟨?_, h.root⟩
    exact {
      toCoherent := h.coherent
      marked
      inScope := h.inScope sound.inScope
      attached := h.allAttached h.root sound.forest sound.attached }
  | trimmed h =>
    obtain ⟨cut, clean, pruned⟩ := h
    refine ⟨?_, pruned.root⟩
    exact {
      toCoherent := pruned.coherent clean sound.toCoherent
      marked
      inScope := pruned.inScope clean sound.toCoherent sound.inScope
      attached := pruned.allAttached clean sound.forest sound.attached }

/-- Whatever the tables hold: if nothing is reported about a program with a live root, and the names of
members are marked as such, then nothing is reported after a change that succeeds. The names are still
marked, as no binding is new. -/
theorem change_keeps_checked {r : DefId} (installed : p.root = some r)
    (live : p.hasNode (.defn r) = true) (marked : NamesMarked p) (checked : p.check = .ok [])
    {call : Call} (change : call.IsChange) {answer : Answer}
    (ok : (p.perform call).result = .ok answer) :
    (p.perform call).program.check = .ok [] ∧ NamesMarked (p.perform call).program ∧
      BindingsKept p (p.perform call).program ∧ (p.perform call).program.root = some r ∧
      (p.perform call).program.hasNode (.defn r) = true := by
  have sound : Sound p := by
    refine sound_of_check ?_ marked checked
    intro r' installed'
    rw [installed] at installed'
    cases installed'
    exact live
  have ends := ends_perform sound.toCoherent change
  generalize p.perform call = outcome at ok ends
  cases ends with
  | done changed =>
    obtain ⟨after, same⟩ := changed.sound sound
    have root := same.trans installed
    exact ⟨after.check_eq, after.marked, changed.bindingsKept sound.binders, root,
      hasNode_of_enclosing (after.root r root)⟩
  | refused => cases ok
  | halted => cases ok

/-- The loop with its return continuation recorded as the name of a member. -/
def loopMisrecorded : Program :=
  (loopInstalled.overwrite
    (.binding (⟨0⟩ : VarId .continuation) (some ⟨.defn ⟨1⟩, .groupName⟩))).program

/-- No calls record such a role, but the names of members are marked: the jump back can be sent to the
return continuation. -/
theorem loopMisrecorded_jump_substituted : ¬ RolesRecorded loopMisrecorded ∧
    check (loopMisrecorded.perform (.substitute (⟨0⟩ : OccId .continuation) ⟨0⟩)).program =
      .ok [] := by
  have marked : NamesMarked loopMisrecorded := by
    intro family v binding bound
    cases family with
    | value => cases bound
    | continuation =>
      rcases v with ⟨_ | _ | i⟩ <;> cases bound
      · decide
      · decide
  have change : (Call.substitute (⟨0⟩ : OccId .continuation) ⟨0⟩).IsChange := trivial
  have ok : (loopMisrecorded.perform (.substitute (⟨0⟩ : OccId .continuation) ⟨0⟩)).result =
      .ok .nothing := rfl
  refine ⟨fun recorded => ?_, (change_keeps_checked rfl rfl marked rfl change ok).1⟩
  have role := recorded (v := (⟨0⟩ : VarId .continuation)) rfl
  cases role

/-- The loop with its name recorded as the variable of a let. -/
def loopMismarked : Program :=
  (loopInstalled.overwrite
    (.binding (⟨1⟩ : VarId .continuation) (some ⟨.expr ⟨2⟩, .letVariable⟩))).program

/-- Nothing is reported about the name that is not marked, and yet the jump back is no longer
recursive once it is sent to where it goes already. -/
theorem loopMismarked_jump_substituted : loopMismarked.root = some ⟨1⟩ ∧
    loopMismarked.hasNode (.defn ⟨1⟩) = true ∧ loopMismarked.check = .ok [] ∧
    (loopMismarked.perform (.substitute (⟨0⟩ : OccId .continuation) ⟨1⟩)).result = .ok .nothing ∧
    check (loopMismarked.perform (.substitute (⟨0⟩ : OccId .continuation) ⟨1⟩)).program =
      .ok [.wrongRecursivity (⟨0⟩ : OccId .continuation) .recursive .nonRecursive] :=
  ⟨rfl, rfl, rfl, rfl, rfl⟩

end Program

end ContinuationIR
