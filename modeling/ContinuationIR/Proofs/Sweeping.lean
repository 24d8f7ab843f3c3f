import ContinuationIR.Proofs.Invariant
import ContinuationIR.Proofs.Lifting

/-!
# Sweeping out dead code

An attached let is dead if nothing uses its variable, and an attached definition that may be removed
is dead if its name and what its tree binds are used in its tree only. Uses in pending trees count
as well. Removing a let or a definition succeeds exactly if it is dead.
-/

namespace ContinuationIR
set_option autoImplicit false

namespace Program

variable {family : Family} {p q : Program} {e : ExprId} {d : DefId}

/-- The let is attached and its variable is not used. -/
structure DeadLet (p : Program) (e : ExprId) : Prop where
  attached : p.isAttached (.expr e) = .ok true
  unused : ∃ v value body, p.shapeOf? e = some (.letIn v value body) ∧ ∀ o, ¬ p.Lists v o

/-- The variable is the name of the definition or bound in its tree. -/
def Brings (p : Program) (d : DefId) (v : VarId family) : Prop :=
  p.nameOf family d = some v ∨ ∃ n, p.Within (.defn d) n ∧ ⟨v⟩ ∈ p.bindersOf n

/-- The definition is attached, neither the root nor public, and used in its own tree only. -/
structure DeadDefinition (p : Program) (d : DefId) : Prop where
  attached : p.isAttached (.defn d) = .ok true
  removable : ∃ definition, p.definitionOf? d = some definition ∧
    ∃ named, checkRemovable d definition.header = .ok named
  unused : ∀ {family : Family} {v : VarId family} {o : OccId family}
    {entry : OccurrenceEntry family}, p.Brings d v → p.occEntry? o = some entry →
      entry.var = v → p.Within (.defn d) (.expr entry.holder)

/-- The program `q` is `p` after a dead let or a dead definition was removed. -/
inductive Sweeps (p : Program) : Program → Prop where
  | deadLet (e : ExprId) {answer : Answer}
      (removed : (p.perform (.removeDeadLet e)).result = .ok answer) :
      Sweeps p (p.perform (.removeDeadLet e)).program
  | deadDefinition (d : DefId) {answer : Answer}
      (removed : (p.perform (.removeDeadDefinition d)).result = .ok answer) :
      Sweeps p (p.perform (.removeDeadDefinition d)).program

/-! ## What was removed was dead -/

theorem LetRemoved.dead (removed : LetRemoved p e q) : DeadLet p e := by
  obtain ⟨v, value, body, read, unused, s, replaceable, -⟩ := removed
  exact ⟨replaceable.attached, v, value, body, read, unused⟩

theorem Dead.dead {r : Removal} (h : Dead p d r) (c : Coherent p) : DeadDefinition p d := by
  obtain ⟨definition, found, accepted⟩ := h.definition
  refine ⟨h.attached, ⟨definition, found, _, accepted⟩, ?_⟩
  rintro family v o entry (name | ⟨n, here, binds⟩) read refers
  · cases h.name_eq name
    obtain ⟨n, within, holds⟩ := h.covers.mem_held.1 (h.unused o (refers ▸ c.uses.listed read))
    obtain ⟨entry', read', rfl⟩ := c.uses.holder holds
    rw [read] at read'
    cases read'
    exact within
  · exact h.contained.gone c.uses h.covers here binds read refers

theorem DefinitionRemoved.dead (removed : DefinitionRemoved p d q) (c : Coherent p) :
    DeadDefinition p d := by
  obtain ⟨r, dead, -⟩ := removed
  exact dead.dead c

/-- What a sweep removes and what it leaves. -/
theorem Sweeps.removed (sweeps : Sweeps p q) (c : Coherent p) :
    (∃ e, LetRemoved p e q) ∨ ∃ d, DefinitionRemoved p d q := by
  cases sweeps with
  | deadLet e removed => exact .inl ⟨e, (ends_removeDeadLet c e).map.holds removed⟩
  | deadDefinition d removed => exact .inr ⟨d, (ends_removeDeadDefinition c d).map.holds removed⟩

/-! ## What is dead can be removed -/

theorem replace_eq_ok (c : Coherent p) (quiet : p.verifying = false) {target replacement : ExprId}
    {s : Splice} (accepted : p.checkReplace target replacement = .ok s) :
    (p.replace target replacement).result = .ok () := by
  obtain ⟨_, q, run, pruned⟩ := (replaceable_of_checkReplace c accepted).runs_splice c
  simp [replace, Outcome.commit, accepted, Outcome.after, run, Outcome.verified, pruned.verifying,
    quiet]

/-- An attached expression can be replaced by a child that does not use what it binds, unless something
uses what goes with it: the uses in the tree of the child stay in scope. -/
theorem checkReplace_of_child (c : Consistent p) {target child : ExprId}
    (attached : p.isAttached (.expr target) = .ok true)
    (link : p.enclosing (.expr child) = .ok (some (.expr target)))
    (free : ∀ {family : Family} {o : OccId family} {entry : OccurrenceEntry family},
      p.occEntry? o = some entry → ⟨entry.var⟩ ∈ p.bindersOf (.expr target) →
        ¬ p.Within (.expr child) (.expr entry.holder)) :
    ∃ r s, Covers p r (p.Inside (.expr target) (some child)) ∧
      p.checkReplace target child = p.checkSelfContained r >>= fun _ => .ok s := by
  have f := c.forest
  have below := f.within_node_child (f.listed link)
  obtain ⟨parent, up⟩ := exists_parent_of_attached attached
  have differ : target ≠ child := by
    rintro rfl
    exact not_within_parent link below
  refine checkReplace_eq c.toCoherent attached up differ (hasNode_of_enclosing link) (.inr below)
    fun {_ _ entry} read within => ?_
  have scope := c.inScope read (c.attached_below attached (below.trans within))
  obtain ⟨binding, bound⟩ := exists_binding_of_resolve scope
  refine ⟨_, (resolve_lift link up within bound fun site => ?_).trans scope⟩
  have binds := c.binders.site bound
  rw [← site] at binds
  exact free read binds within

/-- An attached expression can be replaced by its child when what goes binds nothing used elsewhere. -/
theorem exists_checkReplace_of_child (c : Consistent p) {target child : ExprId}
    (attached : p.isAttached (.expr target) = .ok true)
    (link : p.enclosing (.expr child) = .ok (some (.expr target)))
    (keeps : ∀ {family : Family} {v : VarId family} {o : OccId family}
      {entry : OccurrenceEntry family} {n : Node}, p.Inside (.expr target) (some child) n →
        ⟨v⟩ ∈ p.bindersOf n → p.occEntry? o = some entry → entry.var = v →
          p.Inside (.expr target) (some child) (.expr entry.holder)) :
    ∃ s, p.checkReplace target child = .ok s := by
  have here : p.Inside (.expr target) (some child) (.expr target) :=
    inside_iff.2 ⟨c.forest.within_self (hasNode_of_isAttached attached), not_within_parent link⟩
  refine exists_checkReplace c.toCoherent (checkReplace_of_child c attached link ?_) keeps
  exact fun read binds within => (inside_iff.1 (keeps here binds read rfl)).2 within

/-- With a let that its body replaces only the let itself goes. -/
theorem inside_let_iff (f : Forest p) {v : VarId .value} {value : Value (OccId .value)}
    {body : ExprId} (read : p.shapeOf? e = some (.letIn v value body)) {n : Node} :
    p.Inside (.expr e) (some body) n ↔ n = .expr e := by
  have children : p.childrenOf (.expr e) = [.expr body] := childrenOf_expr read
  have live : p.hasNode (.expr e) = true := by simp [hasNode_expr, read]
  rw [inside_iff]
  constructor
  · rintro ⟨within, outside⟩
    rcases f.within_iff_child.1 within with ⟨rfl, -⟩ | ⟨child, mem, inside⟩
    · rfl
    · rw [children] at mem
      cases List.mem_singleton.1 mem
      exact absurd inside outside
  · rintro rfl
    exact ⟨f.within_self live, not_within_parent (f.link (by simp [children]))⟩

theorem removeDeadLet_eq_ok (c : Consistent p) (quiet : p.verifying = false)
    (attached : p.isAttached (.expr e) = .ok true) {v : VarId .value} {value : Value (OccId .value)}
    {body : ExprId} (read : p.shapeOf? e = some (.letIn v value body))
    (unused : ∀ o, ¬ p.Lists v o) : (p.removeDeadLet e).result = .ok body := by
  have link : p.enclosing (.expr body) = .ok (some (.expr e)) :=
    c.forest.link (by simp [childrenOf_expr read, Shape.children])
  obtain ⟨s, accepted⟩ := exists_checkReplace_of_child c attached link (by
    intro family w o entry n gone binds found refers
    obtain rfl := (inside_let_iff c.forest read).1 gone
    rw [bindersOf_expr read] at binds
    cases List.mem_singleton.1 binds
    exact absurd (refers ▸ c.uses.listed found) (unused o))
  have replaced := replace_eq_ok c.toCoherent quiet accepted
  have checked := (checkDeadLet_eq_ok_iff c.toCoherent).2 ⟨v, value, read, unused⟩
  simp [removeDeadLet, Outcome.commit, checked, Outcome.answer, replaced, Except.map]

/-- A dead binding can be swept away. -/
theorem DeadLet.sweeps (dead : DeadLet p e) (c : Consistent p) (quiet : p.verifying = false) :
    ∃ q, Sweeps p q := by
  obtain ⟨attached, v, value, body, read, unused⟩ := dead
  have removed : (p.perform (.removeDeadLet e)).result = .ok (.ofHandle body) := by
    simp [perform, changed, Outcome.map, removeDeadLet_eq_ok c quiet attached read unused, Except.map,
      withReason]
  exact ⟨_, .deadLet e removed⟩

theorem exists_checkDeadDefinition (dead : DeadDefinition p d) (c : Consistent p) :
    ∃ r, p.checkDeadDefinition d = .ok r := by
  obtain ⟨definition, found, ⟨family, name⟩, accepted⟩ := dead.removable
  obtain ⟨entry, read, rfl⟩ := Option.map_eq_some_iff.1 found
  have named := checkRemovable_eq_ok accepted
  have nameOf : p.nameOf family d = some name := by simp [Program.nameOf, found, named]
  have live := hasNode_of_isAttached dead.attached
  obtain ⟨parent, linked⟩ := c.exists_parent_of_named dead.attached nameOf
  rw [enclosing_defn read] at linked
  cases enclosed : entry.enclosing with
  | none =>
    rw [enclosed] at linked
    cases linked
  | some group =>
    obtain ⟨members, body, link, shape, mem, binds⟩ := exists_group c.toCoherent read named enclosed
    have known := c.binders.hasVariable binds
    obtain ⟨region, walked, covers⟩ := region_all c.forest live
    have contained : p.checkSelfContained region = .ok () := by
      refine (checkSelfContained_eq_ok_iff c.binders covers).2 ?_
      refine selfContained_of_gone c.uses covers fun here binds read refers => ?_
      exact dead.unused (.inr ⟨_, here, binds⟩) read refers
    have unused : p.checkUnused (.ofList (region.held family)) name = .ok () := by
      refine (checkUnused_eq_ok_iff _ known).2 fun o lists => ?_
      obtain ⟨use, read, refers⟩ := c.uses.refers lists
      exact covers.mem_held.2 ⟨_, dead.unused (.inl nameOf) read refers, c.uses.held read⟩
    refine ⟨⟨name, group, members, body, region⟩, ?_⟩
    simp [checkDeadDefinition, read, accepted, dead.attached, require, enclosed, walked, contained,
      unused, fetchShape_ok shape, orFault, bind, Except.bind, pure, Except.pure]

theorem Dead.members_eq {r : Removal} (h : Dead p d r) (c : Coherent p)
    (alone : r.members.length = 1) : r.members = [d] := by
  obtain ⟨d', eq⟩ := List.length_eq_one_iff.1 alone
  have mem := h.member c
  rw [eq] at mem ⊢
  rw [List.mem_singleton.1 mem]

/-- A definition is a member of one group only. -/
theorem Dead.group_eq {r : Removal} (h : Dead p d r) (c : Coherent p) {body : ExprId}
    (read : p.shapeOf? e = some (.group family [d] body)) :
    e = r.group ∧ r.members.length = 1 := by
  have child : .defn d ∈ p.childrenOf (.expr e) := by
    simp [childrenOf_expr read, Shape.children]
  cases c.forest.parent_unique child h.link
  rw [(h.family c).1] at read
  injection read with shape
  injection shape with _ members
  exact ⟨rfl, by rw [members]; rfl⟩

/-- With a group that its body replaces go the group itself and the tree of its only member. -/
theorem Dead.inside_iff {r : Removal} (h : Dead p d r) (c : Coherent p)
    (alone : r.members.length = 1) {n : Node} :
    p.Inside (.expr r.group) (some r.body) n ↔ n = .expr r.group ∨ p.Within (.defn d) n := by
  have f := c.forest
  have children : p.childrenOf (.expr r.group) = [.defn d, .expr r.body] := by
    rw [childrenOf_expr (h.family c).1, h.members_eq c alone]
    rfl
  have member : .defn d ∈ p.childrenOf (.expr r.group) := by simp [children]
  have body : .expr r.body ∈ p.childrenOf (.expr r.group) := by simp [children]
  rw [Program.inside_iff]
  constructor
  · rintro ⟨within, outside⟩
    rcases f.within_iff_child.1 within with ⟨rfl, -⟩ | ⟨child, mem, inside⟩
    · exact .inl rfl
    · rw [children] at mem
      rcases List.mem_cons.1 mem with rfl | mem
      · exact .inr inside
      · cases List.mem_singleton.1 mem
        exact absurd inside outside
  · rintro (rfl | here)
    · exact ⟨f.within_self (hasNode_of_child member), not_within_parent (f.link body)⟩
    · exact ⟨(f.within_node_child member).trans here,
        f.children_disjoint member body (by simp) here⟩

/-- With its only member a group can be replaced by its body. -/
theorem Dead.exists_checkReplace {r : Removal} (h : Dead p d r) (c : Consistent p)
    (alone : r.members.length = 1) : ∃ s, p.checkReplace r.group r.body = .ok s := by
  have f := c.forest
  have dead := h.dead c.toCoherent
  have shape := (h.family c.toCoherent).1
  have attached := c.attached_above h.attached (f.within_node_child (f.listed h.link))
  have body : p.enclosing (.expr r.body) = .ok (some (.expr r.group)) :=
    f.link (by simp [childrenOf_expr shape, Shape.children])
  refine exists_checkReplace_of_child c attached body ?_
  intro family v o entry n gone binds read refers
  have brings : p.Brings d v := by
    rcases (h.inside_iff c.toCoherent alone).1 gone with rfl | inside
    · rw [bindersOf_expr shape, h.members_eq c.toCoherent alone] at binds
      obtain ⟨d', mem, named⟩ := List.mem_filterMap.1 binds
      obtain ⟨w, name, same⟩ := Option.map_eq_some_iff.1 named
      cases List.mem_singleton.1 mem
      cases same
      exact .inl name
    · exact .inr ⟨n, inside, binds⟩
  exact (h.inside_iff c.toCoherent alone).2 (.inr (dead.unused brings read refers))

/-- A definition that passes the checks is removed, with its group or out of it. -/
theorem removeDeadDefinition_of_checked (c : Consistent p) (quiet : p.verifying = false)
    {r : Removal} (accepted : p.checkDeadDefinition d = .ok r) :
    (p.removeDeadDefinition d).result = .ok () := by
  have h := dead_of_checkDeadDefinition c.toCoherent accepted
  by_cases alone : r.members.length = 1
  · obtain ⟨s, replaceable⟩ := h.exists_checkReplace c alone
    simpa [removeDeadDefinition, Outcome.commit, accepted, alone] using
      replace_eq_ok c.toCoherent quiet replaceable
  · obtain ⟨_, q, run, pruned⟩ := h.runs_shrink c.toCoherent
    simp [removeDeadDefinition, Outcome.commit, accepted, alone, Outcome.after, run,
      Outcome.verified, pruned.verifying, quiet]

/-- A dead definition can be swept away. -/
theorem DeadDefinition.sweeps (dead : DeadDefinition p d) (c : Consistent p)
    (quiet : p.verifying = false) : ∃ q, Sweeps p q := by
  obtain ⟨r, accepted⟩ := exists_checkDeadDefinition dead c
  have performed : (p.perform (.removeDeadDefinition d)).result = .ok .nothing := by
    simp [perform, changedOnly, Outcome.map, removeDeadDefinition_of_checked c quiet accepted,
      Except.map, withReason]
  exact ⟨_, .deadDefinition d performed⟩

end Program

end ContinuationIR
