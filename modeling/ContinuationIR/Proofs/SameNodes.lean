import ContinuationIR.Proofs.Verdicts

/-!
# Calls that leave the nodes alone

A fresh variable and a substitution change variables and occurrences, but no node and no binding. So
the forest, the binder index and who holds what stay as they are, and only the rules and the scope of
the occurrences that changed have to be looked at again.
-/

namespace ContinuationIR
set_option autoImplicit false

namespace Program

/-- The nodes of `q` are those of `p`, and so are bindings, the kinds of variables and the holders of
occurrences. The root may be another. -/
structure SameNodes (p q : Program) : Prop where
  shape : ∀ e, q.shapeOf? e = p.shapeOf? e
  definition : ∀ d, q.definitionOf? d = p.definitionOf? d
  enclosing : ∀ n, q.enclosing n = p.enclosing n
  binding : ∀ {family : Family} (v : VarId family), q.bindingOf? v = p.bindingOf? v
  kind : ∀ {family : Family} (v : VarId family), p.hasVariable v = true →
    q.kindOf? v = p.kindOf? v
  holder : ∀ {family : Family} (o : OccId family),
    (q.occEntry? o).map (·.holder) = (p.occEntry? o).map (·.holder)

namespace SameNodes

variable {family : Family} {p q r : Program} {n : Node}

theorem refl (p : Program) : SameNodes p p := by
  constructor <;> simp

theorem hasVariable (s : SameNodes p q) {v : VarId family} (live : p.hasVariable v = true) :
    q.hasVariable v = true := by
  rwa [hasVariable_eq, s.kind v live, ← hasVariable_eq]

theorem trans (s : SameNodes p q) (t : SameNodes q r) : SameNodes p r where
  shape e := (t.shape e).trans (s.shape e)
  definition d := (t.definition d).trans (s.definition d)
  enclosing n := (t.enclosing n).trans (s.enclosing n)
  binding v := (t.binding v).trans (s.binding v)
  kind v live := (t.kind v (s.hasVariable live)).trans (s.kind v live)
  holder o := (t.holder o).trans (s.holder o)

theorem scriptOf (s : SameNodes p q) : q.scriptOf n = p.scriptOf n := by
  cases n with
  | expr e => exact scriptOf_expr_congr (s.shape e) fun d _ => s.definition d
  | defn d => exact scriptOf_defn_congr (s.definition d)

theorem childrenOf (s : SameNodes p q) : q.childrenOf n = p.childrenOf n := by
  simp only [Program.childrenOf, s.scriptOf]

theorem bindersOf (s : SameNodes p q) : q.bindersOf n = p.bindersOf n := by
  simp only [Program.bindersOf, s.scriptOf]

theorem usesOf (s : SameNodes p q) : q.usesOf n = p.usesOf n := by
  simp only [Program.usesOf, s.scriptOf]

theorem hasNode (s : SameNodes p q) : q.hasNode n = p.hasNode n := by
  cases n with
  | expr e => rw [hasNode_expr, hasNode_expr, s.shape]
  | defn d => rw [hasNode_defn, hasNode_defn, s.definition]

theorem lineage (s : SameNodes p q) {above : List Node} (lin : Lineage p.enclosing n above) :
    Lineage q.enclosing n above :=
  lin.congr fun m _ => s.enclosing m

theorem forest (s : SameNodes p q) (f : Forest p) : Forest q where
  link mem := (s.enclosing _).trans (f.link (s.childrenOf ▸ mem))
  listed link := s.childrenOf ▸ f.listed ((s.enclosing _).symm.trans link)
  once n := s.childrenOf ▸ f.once n
  ends live := (f.ends (s.hasNode ▸ live)).imp fun _ lin => s.lineage lin

theorem groupOf (s : SameNodes p q) : q.groupOf n = p.groupOf n := by
  cases n with
  | defn d => rfl
  | expr e => exact groupOf_congr (s.shape e)

theorem roleAt (s : SameNodes p q) : q.roleAt family n = p.roleAt family n := by
  cases n with
  | defn d => rfl
  | expr e => simp only [Program.roleAt, s.groupOf]

theorem bindersIndexed (s : SameNodes p q) (b : BindersIndexed p) : BindersIndexed q where
  binding mem := (b.binding (s.bindersOf ▸ mem)).imp fun _ bound => (s.binding _).trans bound
  site bound := by
    rw [s.bindersOf]
    exact b.site (s.binding _ ▸ bound)
  once n := s.bindersOf ▸ b.once n

theorem rootStands (s : SameNodes p q) (same : q.root = p.root) (root : RootStands p) :
    RootStands q := by
  intro r installed
  rw [s.enclosing]
  exact root r (same ▸ installed)

theorem isAttached (s : SameNodes p q) (same : q.root = p.root) (f : Forest p)
    (live : p.hasNode n = true) : q.isAttached n = p.isAttached n := by
  obtain ⟨above, lin⟩ := f.ends live
  rw [isAttached_eq lin, isAttached_eq (s.lineage lin)]
  simp only [isRoot, same]

theorem stopsContinuations (s : SameNodes p q) : q.stopsContinuations n = p.stopsContinuations n := by
  cases n with
  | expr e => rfl
  | defn d => exact stopsContinuations_congr (s.definition d)

/-- Resolution sees only the nodes and the bindings, so it gives the same answer. -/
theorem resolve_iff (s : SameNodes p q) (f : Forest p) {v : VarId family} {holder : ExprId}
    {recursivity : Recursivity} (live : p.hasNode (.expr holder) = true) :
    q.resolve none v holder = .ok recursivity ↔ p.resolve none v holder = .ok recursivity := by
  obtain ⟨above, lin⟩ := f.ends live
  have lin' := s.lineage lin
  constructor
  · intro resolved
    exact resolve_transfer resolved (s.binding v).symm lin' lin (hasNode_of_lineage lin')
      fun _ _ => s.stopsContinuations.symm
  · intro resolved
    exact resolve_transfer resolved (s.binding v) lin lin' (hasNode_of_lineage lin)
      fun _ _ => s.stopsContinuations

/-- If the sets fit the occurrences, the index of uses is right again. -/
theorem usesIndexed (s : SameNodes p q) (u : UsesIndexed p)
    (listed : ∀ {family : Family} {o : OccId family} {entry : OccurrenceEntry family},
      q.occEntry? o = some entry → q.Lists entry.var o)
    (refers : ∀ {family : Family} {v : VarId family} {o : OccId family}, q.Lists v o →
      ∃ entry, q.occEntry? o = some entry ∧ entry.var = v) : UsesIndexed q where
  holder := by
    intro family o n mem
    rw [s.usesOf] at mem
    obtain ⟨entry, read, eq⟩ := u.holder mem
    have same := s.holder o
    rw [read] at same
    obtain ⟨entry', read', held⟩ := Option.map_eq_some_iff.1 same
    exact ⟨entry', read', eq.trans (by rw [held])⟩
  held := by
    intro family o entry read
    have same := s.holder o
    rw [read] at same
    obtain ⟨entry', read', held⟩ := Option.map_eq_some_iff.1 same.symm
    rw [s.usesOf, show entry.holder = entry'.holder from held.symm]
    exact u.held read'
  once n := s.usesOf ▸ u.once n
  listed := listed
  refers := refers

/-- A node still obeys its rules if the kinds at its occurrences are the same. -/
theorem obeys (s : SameNodes p q) (c : Coherent p)
    (uses : ∀ o : OccId .value, ⟨o⟩ ∈ p.usesOf n → q.kindAt? o = p.kindAt? o) :
    q.Obeys n := by
  have bound {v : VarId .value} (mem : ⟨v⟩ ∈ p.bindersOf n) : q.kindOf? v = p.kindOf? v :=
    s.kind v (c.binders.hasVariable mem)
  cases n with
  | defn d =>
    intro definition read
    rw [s.definition] at read
    rw [definitionViolations_congr fun v mem => bound ?_]
    · exact c.obey (.defn d) definition read
    · rw [bindersOf_defn read]
      simp [Definition.binders, mem]
  | expr e =>
    intro shape read
    rw [s.shape] at read
    rw [shapeViolations_congr (p := p) (fun v mem => bound ?_) (fun o mem => uses o ?_)
      fun d _ => s.definition d]
    · exact c.obey (.expr e) shape read
    · rwa [bindersOf_expr read]
    · rwa [usesOf_expr read]

theorem namesMarked (s : SameNodes p q) (marked : NamesMarked p) : NamesMarked q := by
  intro family v b bound group
  rw [s.binding] at bound
  rw [s.groupOf] at group
  exact marked bound group

/-- Roles, members of groups and the kind of the root are not touched either. -/
theorem consistent (s : SameNodes p q) (same : q.root = p.root) (c : Consistent p)
    (coherent : Coherent q) (inScope : Scoped q) : Consistent q where
  toCoherent := coherent
  inScope := inScope
  roles bound := by
    rw [s.binding] at bound
    rw [c.roles bound, s.roleAt]
  peopled read := c.peopled ((s.shape _).symm.trans read)
  rootKind r installed := by
    rw [s.definition]
    exact c.rootKind r (same ▸ installed)

end SameNodes

section Fresh

variable {family other : Family} {p : Program} {name : String} {kind : Kind} {w : VarId other}

theorem varEntry?_fresh_of_ne (ne : (⟨w⟩ : Binder) ≠ ⟨(p.table family).vars.next⟩) :
    varEntry? (p.modifyTable family (·.fresh name kind)) w = p.varEntry? w := by
  by_cases same : other = family
  · subst same
    rw [varEntry?_modifyTable]
    exact Slots.get?_push_of_ne _ fun eq => ne (by rw [eq])
  · exact varEntry?_modifyTable_of_ne _ _ same _

theorem varEntry?_fresh_self :
    varEntry? (p.modifyTable family (·.fresh name kind)) (p.table family).vars.next =
      some ⟨name, kind, none, .empty⟩ := by
  rw [varEntry?_modifyTable]
  exact Slots.get?_push_next _ _

theorem varEntry?_next : p.varEntry? (p.table family).vars.next = none := Slots.get?_next _

/-- A fresh variable is not bound and not used, so nothing else sees it. -/
theorem sameNodes_fresh : SameNodes p (p.freshVariable family name kind).1 := by
  simp only [freshVariable]
  constructor
  case binding =>
    intro other v
    by_cases new : (⟨v⟩ : Binder) = ⟨(p.table family).vars.next⟩
    · cases new
      rw [bindingOf?, bindingOf?, varEntry?_fresh_self, varEntry?_next]
      rfl
    · rw [bindingOf?, bindingOf?, varEntry?_fresh_of_ne new]
  case kind =>
    intro other v live
    by_cases new : (⟨v⟩ : Binder) = ⟨(p.table family).vars.next⟩
    · cases new
      simp [hasVariable_eq, kindOf?, varEntry?_next] at live
    · rw [kindOf?, kindOf?, varEntry?_fresh_of_ne new]
  case holder =>
    intro other o
    rw [occEntry?_keep rfl]
  all_goals simp

theorem lists_fresh {o : OccId other} :
    (p.freshVariable family name kind).1.Lists w o ↔ p.Lists w o := by
  by_cases new : (⟨w⟩ : Binder) = ⟨(p.table family).vars.next⟩
  · cases new
    simp [Lists, freshVariable, varEntry?_fresh_self, varEntry?_next]
  · simp [Lists, freshVariable, varEntry?_fresh_of_ne new]

/-- A fresh variable keeps a program consistent. -/
theorem consistent_fresh (c : Consistent p) : Consistent (p.freshVariable family name kind).1 := by
  have same : SameNodes p (p.freshVariable family name kind).1 := sameNodes_fresh
  have occ {other : Family} (o : OccId other) :
      occEntry? (p.freshVariable family name kind).1 o = p.occEntry? o :=
    occEntry?_keep rfl
  refine same.consistent (root_modifyTable _ _) c {
    forest := same.forest c.forest
    uses := same.usesIndexed c.uses
      (fun read => lists_fresh.2 (c.uses.listed (occ _ ▸ read)))
      (fun lists => (c.uses.refers (lists_fresh.1 lists)).imp fun _ h => ⟨(occ _).trans h.1, h.2⟩)
    binders := same.bindersIndexed c.binders
    obey := fun n => same.obeys c.toCoherent fun o mem => by
      obtain ⟨entry, read, -⟩ := c.uses.holder mem
      have live := (c.uses.listed read).hasVariable
      rw [kindAt?_eq, kindAt?_eq, occ, read, Option.bind_some, Option.bind_some, same.kind _ live]
    root := same.rootStands (root_modifyTable _ _) c.root } ?_
  intro other o entry read attached
  rw [occ] at read
  have live := hasNode_of_use (c.uses.held read)
  rw [same.isAttached (root_modifyTable _ _) c.forest live] at attached
  exact (same.resolve_iff c.forest live).2 (c.inScope read attached)

end Fresh

end Program

end ContinuationIR
