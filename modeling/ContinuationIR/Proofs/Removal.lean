import ContinuationIR.Proofs.Acceptance
import ContinuationIR.Proofs.Installation
import ContinuationIR.Proofs.Mending
import ContinuationIR.Proofs.Substitution

/-!
# Removal keeps programs consistent

Discarding a pending tree and dropping a member of a group take a whole tree away and put nothing in
its place. The cut is clean since the tree is pending or leaves its group, and since nothing outside
uses what it binds.
-/

namespace ContinuationIR
set_option autoImplicit false

namespace Program

/-! ## Trees that go as a whole -/

section Tree

variable {p : Program} {node : Node} {member : Option DefId} {r : Region}

/-- The cut that takes the whole tree of a node away, which may be a member of a group. -/
def treeCut (p : Program) (node : Node) (member : Option DefId) : Cut :=
  ⟨p.Within node, member, none⟩

/-- Only the head of a tree has a parent that is not in the tree. -/
theorem Forest.eq_of_parent (f : Forest p) {n parent : Node}
    (link : p.enclosing n = .ok (some parent)) (stays : ¬ p.Within node parent)
    (within : p.Within node n) : node = n :=
  ((f.within_child (f.listed link)).1 within).resolve_right stays

/-- What has to be seen for taking a tree away: it is pending or it leaves its group, the group does
not stay empty, and neither what it binds nor its name is used outside. -/
structure Removable (p : Program) (node : Node) (member : Option DefId) (r : Region) : Prop where
  live : p.hasNode node = true
  covers : Covers p r (p.Within node)
  contained : SelfContained p r
  notRoot : p.isRoot node = false
  head : ∀ {d : DefId}, member = some d → node = .defn d
  edge : ∀ {parent : Node}, p.enclosing node = .ok (some parent) → ∃ d, member = some d
  nameless : ∀ {d : DefId}, member = some d → ∀ {family : Family} {v : VarId family}
    {o : OccId family}, p.nameOf family d = some v → p.Lists v o → o ∈ r.held family
  peopled : ∀ {e : ExprId} {family : Family} {members : List DefId} {body : ExprId},
    p.shapeOf? e = some (.group family members body) → members ≠ [] → ∃ d ∈ members, member ≠ some d

/-- Taking a removable tree out is a clean cut. -/
theorem Removable.clean (h : Removable p node member r) (c : Coherent p) :
    Clean p (p.treeCut node member) := by
  constructor
  case down =>
    intro n parent link gone stays
    exact absurd ((c.forest.within_child (c.forest.listed link)).2 (.inr gone)) stays
  case up =>
    intro n parent link stays gone
    obtain rfl := c.forest.eq_of_parent link stays gone
    obtain ⟨d, leaves⟩ := h.edge link
    simp [h.head leaves, treeCut, Cut.child?, leaves]
  case leaves =>
    intro n leaves
    cases n with
    | expr e => exact absurd rfl leaves
    | defn d =>
      by_cases leaving : member = some d
      · exact h.head leaving ▸ c.forest.within_self h.live
      · simp [treeCut, Cut.child?, leaving] at leaves
  case root =>
    intro d installed within
    have notRoot := h.notRoot
    rw [c.root.eq_of_within installed within] at notRoot
    simp [isRoot, installed] at notRoot
  case unused =>
    intro family v o entry lost read refers
    obtain ⟨n, binds, gone | ⟨d, gone, child, name⟩⟩ := lost
    · exact h.contained.gone c.uses h.covers gone binds read refers
    · by_cases gone' : p.Within node n
      · exact h.contained.gone c.uses h.covers gone' binds read refers
      · have link := c.forest.link child
        obtain rfl := c.forest.eq_of_parent link gone' gone
        obtain ⟨d', leaves⟩ := h.edge link
        cases h.head leaves
        have held := h.nameless leaves name (refers ▸ c.uses.listed read)
        obtain ⟨m, inside, holds⟩ := h.covers.mem_held.1 held
        obtain rfl := c.uses.eq_holder read holds
        exact inside
  case peopled => exact fun read _ inhabited => h.peopled read inhabited
  all_goals
    intro s swap
    cases swap

end Tree

/-! ## Discarding a pending tree -/

section Discard

variable {p : Program} {node : Node} {r : Region}

theorem mended_discard (p : Program) (node : Node) : Mended p (p.treeCut node none) p := by
  constructor
  case shape =>
    intro e _
    have same (shape : Shape) : (p.treeCut node none).shape shape = shape :=
      Cut.shape_eq_self _ fun c _ => by cases c <;> rfl
    cases p.shapeOf? e <;> simp [same]
  case definition =>
    intro d _
    cases p.definitionOf? d <;> rfl
  case kept =>
    intro family o entry read
    refine ⟨entry.recursivity, read, .inr ⟨rfl, ?_⟩⟩
    rintro s ⟨⟩
  all_goals simp [Cut.graft, treeCut]

/-- The check of a discard accepts or refuses, and never faults. -/
theorem decides_checkDiscard (c : Coherent p) (node : Node) : Decides (p.checkDiscard node) := by
  unfold checkDiscard
  cases link : p.enclosing node with
  | error fault => exact decides_refused _
  | ok enclosing =>
    obtain ⟨r, found, covers⟩ := region_all c.forest (hasNode_of_enclosing link)
    refine (decides_require _ _).bind fun _ _ => ?_
    refine (decides_orFault found).bind fun r' found' => ?_
    rw [orFault_eq_ok, found] at found'
    cases found'
    exact (refusedOnly_checkSelfContained c.binders covers).decides.bind fun _ _ => decides_pure _

/-- What the check of a discard accepts is removable. -/
theorem removable_of_checkDiscard (c : Coherent p) (ok : p.checkDiscard node = .ok r) :
    Removable p node none r := by
  unfold checkDiscard at ok
  cases link : p.enclosing node with
  | error fault => simp [link] at ok
  | ok enclosing =>
    simp only [link, bind_eq_ok, orFault_eq_ok, pure_eq_ok] at ok
    obtain ⟨⟨⟩, accepted, r', found, ⟨⟩, contained, rfl⟩ := ok
    have accepted := require_eq_ok.1 accepted
    simp only [Bool.and_eq_true, Option.isNone_iff_eq_none, Bool.not_eq_true'] at accepted
    obtain ⟨rfl, notRoot⟩ := accepted
    have live := hasNode_of_enclosing link
    obtain ⟨r, region, covers⟩ := region_all c.forest live
    rw [region] at found
    cases found
    exact {
      live
      covers
      contained := (checkSelfContained_eq_ok_iff c.binders covers).1 contained
      notRoot
      head := by simp
      edge := by
        intro parent up
        rw [link] at up
        cases up
      nameless := by simp
      peopled := fun _ inhabited =>
        (List.exists_mem_of_ne_nil _ inhabited).imp fun d mem => ⟨mem, by simp⟩ }

/-- The program `q` is `p` without a pending tree. -/
def Discarded (p : Program) (node : Node) (q : Program) : Prop :=
  (∃ r, Removable p node none r) ∧ Pruned p (p.treeCut node none) q

namespace Discarded

variable {q : Program} (discarded : Discarded p node q)
include discarded

/-- Discarding a tree only trims the program. -/
theorem trimmed (c : Coherent p) : Trimmed p q := by
  obtain ⟨⟨r, removable⟩, pruned⟩ := discarded
  exact ⟨_, removable.clean c, pruned⟩

theorem shapeOf?_eq {e : ExprId} (stays : ¬ p.Within node (.expr e)) :
    q.shapeOf? e = p.shapeOf? e := by
  have same := (mended_discard p node).shape stays
  rw [discarded.2.shape stays, ← same]

theorem definitionOf?_eq {d : DefId} (stays : ¬ p.Within node (.defn d)) :
    q.definitionOf? d = p.definitionOf? d := by
  have same := (mended_discard p node).definition stays
  rw [discarded.2.definition stays, ← same]

theorem enclosing_eq {n : Node} (stays : ¬ p.Within node n) : q.enclosing n = p.enclosing n :=
  discarded.2.enclosing stays

/-- The occurrences that stay are those outside of the tree, with the tags that they had. -/
theorem occEntry?_eq_some_iff {family : Family} {o : OccId family}
    {entry : OccurrenceEntry family} : q.occEntry? o = some entry ↔
      p.occEntry? o = some entry ∧ ¬ p.Within node (.expr entry.holder) := by
  obtain ⟨-, pruned⟩ := discarded
  have kept {entry : OccurrenceEntry family} (read : p.occEntry? o = some entry)
      (stays : ¬ p.Within node (.expr entry.holder)) : q.occEntry? o = some entry := by
    obtain ⟨recursivity, after, ⟨s, swapped, -⟩ | ⟨rfl, -⟩⟩ := pruned.kept read stays
    · cases swapped
    · exact after
  constructor
  · intro read
    obtain ⟨old, found, stays⟩ := pruned.known read
    rw [kept found stays] at read
    cases read
    exact ⟨found, stays⟩
  · rintro ⟨read, stays⟩
    exact kept read stays

end Discarded

/-- The head of a pending tree is no member, so a group goes with each of its members. -/
theorem Removable.within_group (h : Removable p node none r) (c : Coherent p) (d : DefId) (n : Node)
    (gone : p.Within node (.defn d)) (child : .defn d ∈ p.childrenOf n) : p.Within node n := by
  by_contra stays
  have link := c.forest.link child
  obtain rfl := c.forest.eq_of_parent link stays gone
  obtain ⟨d, impossible⟩ := h.edge link
  cases impossible

/-- A discard takes the pending tree away, or leaves the program as it was. -/
theorem ends_discard (c : Coherent p) (node : Node) :
    (p.discard node).Ends p (Discarded p node) := by
  refine Outcome.ends_commit (decides_checkDiscard c node) fun r accepted => ?_
  have removable := removable_of_checkDiscard c accepted
  have mended := mended_discard p node
  have run := runs_destroy (mended.setsRefer c.uses) removable.contained
  refine Outcome.ends_after run fun _ q razed => ?_
  have pruned := mended.pruned c.uses removable.covers razed
    (mem_binders_iff_lost removable.covers (removable.within_group c))
  exact Outcome.ends_verified ⟨⟨r, removable⟩, pruned⟩ pruned.verifying

end Discard

/-! ## Dropping a member of a group -/

section Drop

variable {p : Program} {d : DefId} {r : Removal}

/-- The definition is a member of a group that it may leave. -/
structure Dead (p : Program) (d : DefId) (r : Removal) : Prop where
  definition : ∃ definition, p.definitionOf? d = some definition ∧
    checkRemovable d definition.header = .ok ⟨r.family, r.name⟩
  attached : p.isAttached (.defn d) = .ok true
  link : p.enclosing (.defn d) = .ok (some (.expr r.group))
  group : ∃ family, p.shapeOf? r.group = some (.group family r.members r.body)
  covers : Covers p r.region (p.Within (.defn d))
  contained : SelfContained p r.region
  unused : ∀ o, p.Lists r.name o → o ∈ r.region.held r.family

theorem checkRemovable_eq_ok {header : Header} {family : Family} {name : VarId family}
    (ok : checkRemovable d header = .ok ⟨family, name⟩) : header.name? family = some name := by
  rcases header with _ | ⟨_, _, _ | _⟩ | _ <;> cases ok <;> rfl

theorem decides_checkRemovable (d : DefId) (header : Header) : Decides (checkRemovable d header) := by
  intro fault
  rcases header with _ | ⟨_, _, _ | _⟩ | _ <;> simp [checkRemovable]

/-- A member of a group has the kind of the group, so the group binds its name. -/
theorem name_mem_bindersOf (c : Coherent p) {e : ExprId} {family other : Family}
    {members : List DefId} {body : ExprId} {definition : Definition} {name : VarId other}
    (read : p.shapeOf? e = some (.group family members body)) (mem : d ∈ members)
    (found : p.definitionOf? d = some definition)
    (named : definition.header.name? other = some name) :
    family = other ∧ ⟨name⟩ ∈ p.bindersOf (.expr e) := by
  have clear := c.obey (.expr e) _ read
  simp only [shapeViolations, groupViolations_eq, List.filterMap_eq_nil_iff] at clear
  have rule : definition.header.kind = family.memberKind := by simpa [found] using clear d mem
  rw [kind_of_name? named] at rule
  obtain rfl : family = other := by cases family <;> cases other <;> simp_all [Family.memberKind]
  refine ⟨rfl, ?_⟩
  rw [bindersOf_expr read]
  exact List.mem_filterMap.2 ⟨d, mem, by simp [nameOf, found, named]⟩

/-- Of the attached definitions only the root has nothing around it, and a root has no name. -/
theorem Consistent.exists_parent_of_named (c : Consistent p) {family : Family} {v : VarId family}
    (attached : p.isAttached (.defn d) = .ok true) (name : p.nameOf family d = some v) :
    ∃ parent, p.enclosing (.defn d) = .ok (some parent) := by
  obtain ⟨link, linked⟩ := enclosing_ok_iff_hasNode.2 (hasNode_of_isAttached attached)
  cases link with
  | some parent => exact ⟨parent, linked⟩
  | none =>
    have root : p.root = some d := by simpa [isRoot] using isRoot_of_attached attached linked
    obtain ⟨definition, found, kind⟩ := c.rootKind d root
    have named : definition.header.name? family = some v := by simpa [nameOf, found] using name
    rw [kind_of_name? named] at kind
    cases family <;> cases kind

/-- What is read about a definition with a name that something encloses. -/
theorem exists_group (c : Coherent p) {entry : DefinitionEntry} {family : Family}
    {name : VarId family} {group : ExprId} (read : p.definitions.get? d = some entry)
    (named : entry.definition.header.name? family = some name)
    (enclosed : entry.enclosing = some group) :
    ∃ members body, p.enclosing (.defn d) = .ok (some (.expr group)) ∧
      p.shapeOf? group = some (.group family members body) ∧ d ∈ members ∧
      ⟨name⟩ ∈ p.bindersOf (.expr group) := by
  have link : p.enclosing (.defn d) = .ok (some (.expr group)) := by
    rw [enclosing_defn read, enclosed]
    rfl
  have found : p.definitionOf? d = some entry.definition := by simp [definitionOf?, read]
  obtain ⟨e, family', members, body, eq, shape, mem⟩ :=
    exists_group_of_child (c.forest.listed link)
  cases eq
  obtain ⟨rfl, binds⟩ := name_mem_bindersOf c shape mem found named
  exact ⟨members, body, link, shape, mem, binds⟩

/-- A definition that may be removed is kept only because it is pending or still used. -/
theorem refusedOnly_checkDeadDefinition (c : Coherent p) {entry : DefinitionEntry}
    {named : Σ family, VarId family} (read : p.definitions.get? d = some entry)
    (accepted : checkRemovable d entry.definition.header = .ok named) :
    RefusedOnly ChangeError.IsBlocked (p.checkDeadDefinition d) := by
  obtain ⟨family, name⟩ := named
  have live : p.hasNode (.defn d) = true := hasNode_defn_iff.2 ⟨entry, read⟩
  obtain ⟨above, lin⟩ := c.forest.ends live
  simp only [checkDeadDefinition, read, accepted]
  refine (refusedOnly_of_ok (orFault_eq_ok.2 (isAttached_eq lin))).bind fun _ _ => ?_
  refine (refusedOnly_require _ trivial).bind fun _ _ => ?_
  cases enclosed : entry.enclosing with
  | none => exact refusedOnly_refused trivial
  | some group =>
    obtain ⟨members, body, -, shape, -, binds⟩ :=
      exists_group c read (checkRemovable_eq_ok accepted) enclosed
    have known := c.binders.hasVariable binds
    obtain ⟨r, region, covers⟩ := region_all c.forest live
    simp only [region, fetchShape_ok shape]
    refine (refusedOnly_checkSelfContained c.binders covers).bind fun _ _ => ?_
    refine (refusedOnly_checkUnused known _).bind fun _ _ => ?_
    exact refusedOnly_of_ok rfl

/-- The check of a dead definition accepts or refuses, and never faults. -/
theorem decides_checkDeadDefinition (c : Coherent p) (d : DefId) :
    Decides (p.checkDeadDefinition d) := by
  cases read : p.definitions.get? d with
  | none =>
    simp only [checkDeadDefinition, read]
    exact decides_refused _
  | some entry =>
    cases accepted : checkRemovable d entry.definition.header with
    | ok named => exact (refusedOnly_checkDeadDefinition c read accepted).decides
    | error failure =>
      intro fault failed
      simp only [checkDeadDefinition, read, accepted] at failed
      cases failed
      exact decides_checkRemovable d _ fault accepted

/-- What the check of a dead definition accepts is dead. -/
theorem dead_of_checkDeadDefinition (c : Coherent p) (ok : p.checkDeadDefinition d = .ok r) :
    Dead p d r := by
  unfold checkDeadDefinition at ok
  cases read : p.definitions.get? d with
  | none => simp [read] at ok
  | some entry =>
    simp only [read, bind_eq_ok, orFault_eq_ok] at ok
    obtain ⟨⟨family, name⟩, accepted, attached, found, ⟨⟩, yes, ok⟩ := ok
    have named := checkRemovable_eq_ok accepted
    obtain rfl : attached = true := require_eq_ok.1 yes
    have live : p.hasNode (.defn d) = true := hasNode_defn_iff.2 ⟨entry, read⟩
    cases enclosed : entry.enclosing with
    | none => simp [enclosed] at ok
    | some group =>
      obtain ⟨members, body, link, shape, -, binds⟩ := exists_group c read named enclosed
      have known := c.binders.hasVariable binds
      obtain ⟨region, walked, covers⟩ := region_all c.forest live
      simp only [enclosed, bind_eq_ok, orFault_eq_ok, walked, fetchShape_ok shape] at ok
      obtain ⟨_, same, ⟨⟩, contained, ⟨⟩, unused, _, same', ok⟩ := ok
      cases same
      cases same'
      rw [pure_eq_ok] at ok
      subst ok
      exact {
        definition := ⟨_, by simp [definitionOf?, read], accepted⟩
        attached := found
        link
        group := ⟨_, shape⟩
        covers
        contained := (checkSelfContained_eq_ok_iff c.binders covers).1 contained
        unused := (checkUnused_eq_ok_iff _ known).1 unused }

theorem Dead.named (h : Dead p d r) : ∃ definition, p.definitionOf? d = some definition ∧
    definition.header.name? r.family = some r.name :=
  h.definition.imp fun _ found => ⟨found.1, checkRemovable_eq_ok found.2⟩

theorem Dead.member (h : Dead p d r) (c : Coherent p) : d ∈ r.members := by
  obtain ⟨family, shape⟩ := h.group
  have child := c.forest.listed h.link
  rw [childrenOf_expr shape] at child
  simpa [Shape.children] using child

theorem Dead.family (h : Dead p d r) (c : Coherent p) :
    p.shapeOf? r.group = some (.group r.family r.members r.body) ∧
      ⟨r.name⟩ ∈ p.bindersOf (.expr r.group) := by
  obtain ⟨family, shape⟩ := h.group
  obtain ⟨definition, found, named⟩ := h.named
  obtain ⟨rfl, binds⟩ := name_mem_bindersOf c shape (h.member c) found named
  exact ⟨shape, binds⟩

theorem Dead.nameOf (h : Dead p d r) : p.nameOf r.family d = some r.name := by
  obtain ⟨definition, found, named⟩ := h.named
  simp [Program.nameOf, found, named]

/-- A definition has one name, of one family. -/
theorem Dead.name_eq (h : Dead p d r) {family : Family} {v : VarId family}
    (named : p.nameOf family d = some v) : (⟨v⟩ : Binder) = ⟨r.name⟩ := by
  obtain ⟨definition, found, name⟩ := h.named
  have named : definition.header.name? family = some v := by
    simpa [Program.nameOf, found] using named
  obtain rfl : family = r.family := by
    have kind := (kind_of_name? named).symm.trans (kind_of_name? name)
    revert kind
    cases family <;> cases r.family <;> simp [Family.memberKind]
  rw [name] at named
  cases named
  rfl

/-- A dead definition with other members beside it is a removable tree. -/
theorem Dead.removable (h : Dead p d r) (c : Coherent p) (several : r.members.length ≠ 1) :
    Removable p (.defn d) (some d) r.region where
  live := hasNode_of_enclosing h.link
  covers := h.covers
  contained := h.contained
  notRoot := by
    simp only [isRoot, decide_eq_false_iff_not, Option.map_eq_some_iff, not_exists, not_and]
    rintro r installed eq
    cases eq
    have top := c.root d installed
    rw [h.link] at top
    cases top
  head := by
    rintro d' ⟨⟩
    rfl
  edge := fun _ => ⟨d, rfl⟩
  nameless := by
    rintro d' ⟨⟩ family v o named lists
    cases h.name_eq named
    exact h.unused o lists
  peopled := by
    intro e family members body read inhabited
    by_contra alone
    simp only [not_exists, not_and, not_not, Option.some.injEq] at alone
    obtain ⟨d', mem⟩ := List.exists_mem_of_ne_nil _ inhabited
    obtain rfl := alone d' mem
    have child : .defn d ∈ p.childrenOf (.expr e) := by
      rw [childrenOf_expr read]
      simp [Shape.children, mem]
    cases c.forest.parent_unique child h.link
    rw [(h.family c).1] at read
    cases read
    have distinct := c.forest.once (.expr r.group)
    rw [childrenOf_expr (h.family c).1, Shape.children, List.nodup_append] at distinct
    have same : r.members = List.replicate r.members.length d :=
      List.eq_replicate_of_mem fun d' mem => (alone d' mem).symm
    have short := List.nodup_replicate.1 (same ▸ distinct.1.of_map)
    have long := List.length_pos_of_mem mem
    omega

/-- Taking the member out of its group mends the program around the cut. -/
theorem Dead.mended (h : Dead p d r) (c : Coherent p) :
    Mended p (p.treeCut (.defn d) (some d))
      (p.setShape r.group (.group r.family (r.members.filter (· ≠ d)) r.body)) := by
  constructor
  case shape =>
    intro e _
    rw [shapeOf?_setShape]
    by_cases here : e = r.group
    · subst here
      simp [(h.family c).1, Cut.shape, Shape.contract, treeCut, Cut.expression, eq_comm]
    · rw [if_neg here]
      cases read : p.shapeOf? e with
      | none => rfl
      | some shape =>
        refine congrArg some (Cut.shape_eq_self _ fun n child => ?_).symm
        cases n with
        | expr e' => rfl
        | defn d' =>
          rw [← childrenOf_expr read] at child
          have other : d ≠ d' := by
            rintro rfl
            cases c.forest.parent_unique child h.link
            exact here rfl
          simp [Cut.child?, treeCut, other]
  case definition =>
    intro d' _
    show p.definitionOf? d' = _
    cases p.definitionOf? d' <;> rfl
  case kept =>
    intro family o entry read
    refine ⟨entry.recursivity, (occEntry?_of_table table_setShape o).trans read, .inr ⟨rfl, ?_⟩⟩
    rintro s ⟨⟩
  case enclosing =>
    intro n _
    rw [enclosing_setShape]
    rfl
  case known => exact fun dead => (occEntry?_of_table table_setShape _).trans dead
  case lists => exact lists_of_table table_setShape
  case binding => exact bindingOf?_of_table table_setShape _
  case kind => exact kindOf?_of_table table_setShape _
  all_goals rfl

/-- With the member go what its tree binds and its name. -/
theorem Dead.lost_iff (h : Dead p d r) (c : Coherent p) (binder : Binder) :
    binder ∈ r.region.binders ++ [⟨r.name⟩] ↔ p.Lost (p.Within (.defn d)) binder := by
  rcases binder with @⟨family, v⟩
  rw [List.mem_append, List.mem_singleton, ← Region.mem_bound, h.covers.mem_bound]
  constructor
  · rintro (⟨n, gone, binds⟩ | eq)
    · exact ⟨n, binds, .inl gone⟩
    · cases eq
      refine ⟨_, (h.family c).2, .inr ⟨d, ?_, c.forest.listed h.link, h.nameOf⟩⟩
      exact c.forest.within_self (hasNode_of_enclosing h.link)
  · rintro ⟨n, binds, gone | ⟨d', gone, child, named⟩⟩
    · exact .inl ⟨n, gone, binds⟩
    · by_cases gone' : p.Within (.defn d) n
      · exact .inl ⟨n, gone', binds⟩
      · cases c.forest.eq_of_parent (c.forest.link child) gone' gone
        exact .inr (h.name_eq named)

/-- Shrinking the group of a dead definition cuts the definition and nothing else. -/
theorem Dead.runs_shrink (h : Dead p d r) (c : Coherent p) :
    (shrink d r).Runs p fun _ => Pruned p (p.treeCut (.defn d) (some d)) := by
  have mended := h.mended c
  have drop : (dropMember r.group d).Runs p fun _ mid =>
      mid = p.setShape r.group (.group r.family (r.members.filter (· ≠ d)) r.body) := by
    refine (Edit.runs_read (fetchShape_ok (h.family c).1)).andThen ?_
    rintro shape q ⟨rfl, rfl⟩
    exact Edit.runs_write rfl
  refine drop.andThen ?_
  rintro _ mid rfl
  have contained := mended.selfContained h.contained
  refine (runs_destroy (mended.setsRefer c.uses) contained).andThen fun _ q razed => ?_
  have unused (o : OccId r.family) (lists : Lists _ r.name o) : ⟨o⟩ ∈ r.region.uses :=
    Region.mem_held.1 (h.unused o (mended.lists.1 lists))
  refine (razed.runs_free unused).mono fun _ q razed => ?_
  exact mended.pruned c.uses h.covers razed (h.lost_iff c)

theorem ends_shrink (c : Coherent p) (dead : Dead p d r) {log : List LogEntry} :
    (Outcome.after p log (shrink d r) fun _ p =>
      Outcome.verified .removeDeadDefinition p log ()).Ends p
        (Pruned p (p.treeCut (.defn d) (some d))) := by
  refine Outcome.ends_after (dead.runs_shrink c) fun _ q pruned => ?_
  exact Outcome.ends_verified pruned pruned.verifying

end Drop

end Program

end ContinuationIR
