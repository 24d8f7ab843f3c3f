import ContinuationIR.Proofs.Draft

/-!
# Growth

A program that grew by one node: the node takes the pending trees of its draft as children, binds the
variables of its draft and holds the occurrences that were made for it. If the draft took pending
trees and unbound variables only, and the new node obeys the rules for it on its own, a consistent
program stays consistent. All building calls rest on this one argument.
-/

namespace ContinuationIR
set_option autoImplicit false

namespace Program

/-- The program `q` is `p` with a new pending node as drafted. -/
structure Grown (p : Program) (node : Node) (role : Family → BinderRole) (draft : Draft)
    (q : Program) : Prop extends Registered p node role draft q where
  root : q.root = p.root
  verifying : q.verifying = p.verifying
  fresh : p.hasNode node = false
  shape : ∀ e, .expr e ≠ node → q.shapeOf? e = p.shapeOf? e
  definition : ∀ d, .defn d ≠ node → q.definitionOf? d = p.definitionOf? d
  enclosing : ∀ n, q.enclosing n =
    if n = node then .ok none
    else if n ∈ draft.children then .ok (some node) else p.enclosing n
  children : (q.childrenOf node).Perm draft.children
  binders : (q.bindersOf node).Perm draft.binders
  uses : (q.usesOf node).Perm (draft.minted.map Minted.use)
  role : ∀ family, q.roleAt family node = role family

/-- The draft takes pending trees and unbound variables only, each once. -/
structure Admissible (p : Program) (draft : Draft) : Prop where
  pending : Pending p draft.children
  bindable : Bindable p draft.binders

namespace Grown

variable {family : Family} {p q : Program} {node n : Node} {role : Family → BinderRole}
  {draft : Draft}

/-- The new node was not there before. -/
theorem ne_of_live (g : Grown p node role draft q) (live : p.hasNode n = true) : n ≠ node := by
  rintro rfl
  rw [g.fresh] at live
  cases live

/-- The nodes that were there keep their scripts. -/
theorem scriptOf (g : Grown p node role draft q) (f : Forest p) (ne : n ≠ node) :
    q.scriptOf n = p.scriptOf n := by
  cases n with
  | expr e =>
    refine scriptOf_expr_congr (g.shape e ne) fun d mem => ?_
    exact g.definition d (g.ne_of_live (f.hasNode_child mem))
  | defn d => exact scriptOf_defn_congr (g.definition d ne)

/-- The other nodes keep their children. -/
theorem childrenOf (g : Grown p node role draft q) (f : Forest p) (ne : n ≠ node) :
    q.childrenOf n = p.childrenOf n := by
  simp only [Program.childrenOf, g.scriptOf f ne]

theorem bindersOf (g : Grown p node role draft q) (f : Forest p) (ne : n ≠ node) :
    q.bindersOf n = p.bindersOf n := by
  simp only [Program.bindersOf, g.scriptOf f ne]

theorem usesOf (g : Grown p node role draft q) (f : Forest p) (ne : n ≠ node) :
    q.usesOf n = p.usesOf n := by
  simp only [Program.usesOf, g.scriptOf f ne]

/-- What is not put under the new node keeps its link. -/
theorem enclosing_old (g : Grown p node role draft q) (ne : n ≠ node) (old : n ∉ draft.children) :
    q.enclosing n = p.enclosing n := by
  rw [g.enclosing, if_neg ne, if_neg old]

/-- One node is new. -/
theorem hasNode_iff (g : Grown p node role draft q) (a : Admissible p draft) :
    q.hasNode n = true ↔ n = node ∨ p.hasNode n = true := by
  rw [← enclosing_ok_iff_hasNode, ← enclosing_ok_iff_hasNode, g.enclosing]
  by_cases new : n = node
  · simp [new]
  · by_cases child : n ∈ draft.children
    · simp [new, child, (a.pending.top n child).1]
    · simp [new, child]

/-- Lineages stay as they are or end at the new node. -/
theorem lineage (g : Grown p node role draft q) (a : Admissible p draft) {above : List Node}
    (lin : Lineage p.enclosing n above) :
    Lineage q.enclosing n above ∨ Lineage q.enclosing n (above ++ [node]) := by
  have top : Lineage q.enclosing node [] := .top (by rw [g.enclosing, if_pos rfl])
  induction lin with
  | @top n link =>
    have ne := g.ne_of_live (hasNode_of_enclosing link)
    by_cases child : n ∈ draft.children
    · exact .inr (.up (by rw [g.enclosing, if_neg ne, if_pos child]) top)
    · exact .inl (.top ((g.enclosing_old ne child).trans link))
  | @up n parent above link _ ih =>
    have ne := g.ne_of_live (hasNode_of_enclosing link)
    have old : n ∉ draft.children := by
      intro child
      rw [(a.pending.top n child).1] at link
      cases link
    have link' := (g.enclosing_old ne old).trans link
    exact ih.imp (.up link') (.up link')

/-- A node above pending trees is the head of one larger tree. -/
theorem forest (g : Grown p node role draft q) (a : Admissible p draft) (f : Forest p) :
    Forest q := by
  constructor
  case link =>
    intro n child mem
    by_cases new : n = node
    · subst new
      have mem := g.children.mem_iff.1 mem
      have live := hasNode_of_enclosing (a.pending.top child mem).1
      rw [g.enclosing, if_neg (g.ne_of_live live), if_pos mem]
    · rw [g.childrenOf f new] at mem
      have link := f.link mem
      have old : child ∉ draft.children := by
        intro taken
        rw [(a.pending.top child taken).1] at link
        cases link
      rw [g.enclosing_old (g.ne_of_live (f.hasNode_child mem)) old, link]
  case listed =>
    intro n parent link
    rw [g.enclosing] at link
    split at link
    · cases link
    · split at link
      · next taken =>
        cases link
        exact g.children.mem_iff.2 taken
      · rw [g.childrenOf f (g.ne_of_live (f.hasNode_parent link))]
        exact f.listed link
  case once =>
    intro n
    by_cases new : n = node
    · subst new
      exact g.children.nodup_iff.2 a.pending.apart
    · rw [g.childrenOf f new]
      exact f.once n
  case ends =>
    intro n live
    rcases (g.hasNode_iff a).1 live with rfl | live
    · exact ⟨[], .top (by rw [g.enclosing, if_pos rfl])⟩
    · obtain ⟨above, lin⟩ := f.ends live
      rcases g.lineage a lin with same | longer
      · exact ⟨_, same⟩
      · exact ⟨_, longer⟩

/-- The occurrences of the draft are those that the new node holds. -/
theorem usesIndexed (g : Grown p node role draft q) (f : Forest p) (u : UsesIndexed p) :
    UsesIndexed q := by
  have old {family : Family} {o : OccId family} {entry : OccurrenceEntry family}
      (read : p.occEntry? o = some entry) (m : Mention family) : ⟨o, m⟩ ∉ draft.minted := by
    intro mem
    rw [(g.minted mem).1] at read
    cases read
  constructor
  case holder =>
    intro family o n mem
    by_cases new : n = node
    · subst new
      obtain ⟨⟨o', m⟩, made, same⟩ := List.mem_map.1 (g.uses.mem_iff.1 mem)
      cases same
      obtain ⟨-, e, eq, found⟩ := g.minted made
      exact ⟨_, found, eq⟩
    · rw [g.usesOf f new] at mem
      obtain ⟨entry, read, eq⟩ := u.holder mem
      exact ⟨entry, (g.kept (old read)).trans read, eq⟩
  case held =>
    intro family o entry read
    by_cases made : ∃ m, ⟨o, m⟩ ∈ draft.minted
    · obtain ⟨m, made⟩ := made
      obtain ⟨-, e, eq, found⟩ := g.minted made
      rw [read] at found
      cases found
      rw [← eq]
      exact g.uses.mem_iff.2 (List.mem_map.2 ⟨_, made, rfl⟩)
    · rw [g.kept fun m mem => made ⟨m, mem⟩] at read
      have mem := u.held read
      rwa [g.usesOf f (g.ne_of_live (hasNode_of_use mem))]
  case once =>
    intro n
    by_cases new : n = node
    · subst new
      exact g.uses.nodup_iff.2 g.distinct
    · rw [g.usesOf f new]
      exact u.once n
  case listed =>
    intro family o entry read
    rw [g.lists]
    by_cases made : ∃ m, ⟨o, m⟩ ∈ draft.minted
    · obtain ⟨m, made⟩ := made
      obtain ⟨-, e, -, found⟩ := g.minted made
      rw [read] at found
      cases found
      exact .inr ⟨m.recursivity, made⟩
    · rw [g.kept fun m mem => made ⟨m, mem⟩] at read
      exact .inl (u.listed read)
  case refers =>
    intro family v o lists
    rcases g.lists.1 lists with lists | ⟨r, made⟩
    · obtain ⟨entry, read, eq⟩ := u.refers lists
      exact ⟨entry, (g.kept (old read)).trans read, eq⟩
    · obtain ⟨-, e, -, found⟩ := g.minted made
      exact ⟨_, found, rfl⟩

/-- The other sites keep their roles. -/
theorem roleAt (g : Grown p node role draft q) (ne : n ≠ node) :
    q.roleAt family n = p.roleAt family n := by
  cases n with
  | defn d => rfl
  | expr e => simp only [Program.roleAt, groupOf_congr (g.shape e ne)]

/-- The binders of the draft are those of the new node. -/
theorem bindersIndexed (g : Grown p node role draft q) (a : Admissible p draft) (f : Forest p)
    (b : BindersIndexed p) : BindersIndexed q := by
  constructor
  case binding =>
    intro family v n mem
    rw [g.binding]
    by_cases new : n = node
    · subst new
      exact ⟨_, if_pos (g.binders.mem_iff.1 mem)⟩
    · rw [g.bindersOf f new] at mem
      obtain ⟨recorded, bound⟩ := b.binding mem
      have old : ⟨v⟩ ∉ draft.binders := by
        intro taken
        rw [a.bindable.unbound taken] at bound
        cases bound
      exact ⟨recorded, by rw [if_neg old, bound]⟩
  case site =>
    intro family v binding bound
    rw [g.binding] at bound
    split at bound
    · next taken =>
      cases bound
      exact g.binders.mem_iff.2 taken
    · have mem := b.site bound
      rwa [g.bindersOf f (g.ne_of_live (hasNode_of_binder mem))]
  case once =>
    intro n
    by_cases new : n = node
    · subst new
      exact g.binders.nodup_iff.2 a.bindable.distinct
    · rw [g.bindersOf f new]
      exact b.once n

/-- The new binders are recorded in the role of the new node. -/
theorem rolesRecorded (g : Grown p node role draft q) (b : BindersIndexed p)
    (roles : RolesRecorded p) : RolesRecorded q := by
  intro family v binding bound
  rw [g.binding] at bound
  split at bound
  · cases bound
    exact (g.role family).symm
  · rw [roles bound, g.roleAt (g.ne_of_live (hasNode_of_binder (b.site bound)))]

/-- The nodes that were there still obey the rules for them. -/
theorem obeys (g : Grown p node role draft q) (f : Forest p) (u : UsesIndexed p) (ne : n ≠ node)
    (obey : p.Obeys n) : q.Obeys n := by
  cases n with
  | defn d =>
    intro definition read
    rw [definitionViolations_congr fun v _ => g.kind v]
    exact obey definition (g.definition d ne ▸ read)
  | expr e =>
    intro shape read
    rw [g.shape e ne] at read
    have same : q.shapeViolations e shape = p.shapeViolations e shape := by
      refine shapeViolations_congr (fun v _ => g.kind v) (fun o mem => ?_) fun d mem => ?_
      · rw [← usesOf_expr read] at mem
        obtain ⟨entry, found, -⟩ := u.holder mem
        have kept : q.occEntry? o = some entry := by
          rw [g.kept, found]
          intro m made
          rw [(g.minted made).1] at found
          cases found
        simp only [kindAt?_eq, found, kept, Option.bind_some, g.kind]
      · have child : .defn d ∈ p.childrenOf (.expr e) := by
          rw [childrenOf_expr read]
          cases shape <;> simp_all [Shape.members, Shape.children]
        exact g.definition d (g.ne_of_live (f.hasNode_child child))
    rw [same]
    exact obey shape read

/-- The root is not put under the new node. -/
theorem rootStands (g : Grown p node role draft q) (a : Admissible p draft) (root : RootStands p) :
    RootStands q := by
  intro r installed
  rw [g.root] at installed
  have top := root r installed
  have ne := g.ne_of_live (hasNode_of_enclosing top)
  have old : .defn r ∉ draft.children := by
    intro taken
    have := (a.pending.top _ taken).2
    simp [isRoot, installed] at this
  exact (g.enclosing_old ne old).trans top

/-- The root keeps its kind. -/
theorem rootKind (g : Grown p node role draft q) (root : RootStands p) (kind : RootKind p) :
    RootKind q := by
  intro r installed
  rw [g.root] at installed
  obtain ⟨definition, read, isRoot⟩ := kind r installed
  have ne := g.ne_of_live (hasNode_of_enclosing (root r installed))
  exact ⟨definition, (g.definition r ne).trans read, isRoot⟩

/-- What was attached is attached, and nothing else. -/
theorem lineage_of_attached (g : Grown p node role draft q) (a : Admissible p draft)
    (c : Consistent p) (attached : q.isAttached n = .ok true) :
    ∃ above, Lineage p.enclosing n above ∧ Lineage q.enclosing n above ∧
      p.isAttached n = .ok true := by
  have notRoot : q.isRoot node = false := by
    simp only [isRoot, g.root, decide_eq_false_iff_not]
    intro installed
    obtain ⟨r, root, eq⟩ := Option.map_eq_some_iff.1 installed
    exact g.ne_of_live (hasNode_of_enclosing (c.root r root)) eq
  have sameRoot (m : Node) : q.isRoot m = p.isRoot m := by simp only [isRoot, g.root]
  have live : q.hasNode n = true := hasNode_of_isAttached attached
  rcases (g.hasNode_iff a).1 live with rfl | live
  · have lin : Lineage q.enclosing n [] := .top (by rw [g.enclosing, if_pos rfl])
    rw [isAttached_eq lin] at attached
    simp [notRoot] at attached
  · obtain ⟨above, lin⟩ := c.forest.ends live
    rcases g.lineage a lin with same | longer
    · refine ⟨above, lin, same, ?_⟩
      rwa [isAttached_eq lin, ← sameRoot, ← isAttached_eq same]
    · rw [isAttached_eq longer] at attached
      simp [notRoot] at attached

theorem stopsContinuations (g : Grown p node role draft q) (ne : n ≠ node) :
    q.stopsContinuations n = p.stopsContinuations n := by
  cases n with
  | expr e => rfl
  | defn d => exact stopsContinuations_congr (g.definition d ne)

/-- The new node is pending, and nothing in the installed tree can tell it is there. -/
theorem inScope (g : Grown p node role draft q) (a : Admissible p draft) (c : Consistent p) :
    Scoped q := by
  intro family o entry read attached
  obtain ⟨above, lin, same, attached⟩ := g.lineage_of_attached a c attached
  have live := hasNode_of_lineage lin
  have old (m : Mention family) : ⟨o, m⟩ ∉ draft.minted := by
    intro made
    obtain ⟨-, e, eq, found⟩ := g.minted made
    rw [read] at found
    cases found
    exact g.ne_of_live (live _ List.mem_cons_self) eq.symm
  rw [g.kept old] at read
  have resolved := c.inScope read attached
  obtain ⟨b, bound⟩ := exists_binding_of_resolve resolved
  have sameBinding : q.bindingOf? entry.var = p.bindingOf? entry.var := by
    rw [g.binding, if_neg]
    intro taken
    rw [a.bindable.unbound taken] at bound
    cases bound
  refine resolve_transfer resolved sameBinding lin same live fun m mem => ?_
  exact g.stopsContinuations (g.ne_of_live (live m (List.mem_cons_of_mem _ mem)))

/-- The new node is not a group without members. -/
theorem peopled (g : Grown p node role draft q) (peopled : Peopled p)
    (new : ∀ {e : ExprId} {family : Family} {members : List DefId} {body : ExprId}, node = .expr e →
      q.shapeOf? e = some (.group family members body) → members ≠ []) : Peopled q := by
  intro e family members body read
  by_cases eq : node = .expr e
  · exact new eq read
  · exact peopled ((g.shape e (Ne.symm eq)).symm.trans read)

/-- Growing by an admissible draft keeps a program consistent. -/
theorem consistent (g : Grown p node role draft q) (a : Admissible p draft) (c : Consistent p)
    (new : q.Obeys node) (inhabited : ∀ {e : ExprId} {family : Family} {members : List DefId}
      {body : ExprId}, node = .expr e → q.shapeOf? e = some (.group family members body) →
        members ≠ []) : Consistent q where
  forest := g.forest a c.forest
  uses := g.usesIndexed c.forest c.uses
  binders := g.bindersIndexed a c.forest c.binders
  obey n := by
    by_cases eq : n = node
    · exact eq ▸ new
    · exact g.obeys c.forest c.uses eq (c.obey n)
  root := g.rootStands a c.root
  inScope := g.inScope a c
  roles := g.rolesRecorded c.binders c.roles
  peopled := g.peopled c.peopled inhabited
  rootKind := g.rootKind c.root c.rootKind

end Grown

end Program

end ContinuationIR
