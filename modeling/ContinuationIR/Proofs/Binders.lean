import ContinuationIR.Proofs.Trees

/-!
# The binders of a reachable program

A let binds its variable, a group the names of its members, a definition its parameters and the
continuation it returns to. Whatever calls led to a program, a variable that a live node binds is
live and bound nowhere else, and the binding it records is that node with the role it has there. A
definition only brings its name along: until a group takes it in, the name is bound by whatever else
binds it, or freed.
-/

namespace ContinuationIR
set_option autoImplicit false

namespace Program

variable {family : Family} {p : Program} {node n m : Node} {v : VarId family} {role : BinderRole}

/-- A live node binds a variable, as what its structure makes of it. -/
inductive BindsAs (p : Program) : {family : Family} → Node → BinderRole → VarId family → Prop where
  | letVariable {e v value body} : p.shapeOf? e = some (.letIn v value body) →
      BindsAs p (.expr e) .letVariable v
  | groupName {e kind members body d definition} {family : Family} {v : VarId family} :
      p.shapeOf? e = some (.group kind members body) → d ∈ members →
      p.definitionOf? d = some definition → definition.header.name? family = some v →
      BindsAs p (.expr e) .groupName v
  | parameter {d definition v} : p.definitionOf? d = some definition →
      v ∈ definition.parameters → BindsAs p (.defn d) .parameter v
  | returnContinuation {d definition k} : p.definitionOf? d = some definition →
      definition.header.returnTo? = some k → BindsAs p (.defn d) .returnContinuation k

/-- The bindings that variables record agree with the structure of the live nodes. -/
structure BindersExact (p : Program) : Prop where
  live : ∀ {family : Family} {v : VarId family} {node role}, p.BindsAs node role v →
    p.hasNode node = true ∧ p.hasVariable v = true
  unique : ∀ {family : Family} {v : VarId family} {n m role role'}, p.BindsAs n role v →
    p.BindsAs m role' v → n = m ∧ role = role'
  /-- No node binds a variable in two places. -/
  once : ∀ node, (p.bindersOf node).Nodup
  recorded : ∀ {family : Family} {v : VarId family} {entry}, p.varEntry? v = some entry →
    ∀ site role, entry.binding = some ⟨site, role⟩ ↔ p.BindsAs site role v
  unbound : ∀ {family : Family} {v : VarId family} {entry}, p.varEntry? v = some entry →
    (entry.binding = none ↔ ∀ site role, ¬ p.BindsAs site role v)

/-- A binder in the sense of the shapes is a binder in the sense of the scripts. -/
theorem BindsAs.mem_bindersOf (c : Coherent p) (binds : p.BindsAs node role v) :
    ⟨v⟩ ∈ p.bindersOf node := by
  cases binds with
  | letVariable read => simp [bindersOf_expr read, shapeBinders]
  | groupName read mem found named => exact (name_mem_bindersOf c read mem found named).2
  | parameter read mem => simp [bindersOf_defn read, Definition.binders, mem]
  | returnContinuation read returns =>
    simp [bindersOf_defn read, Definition.binders, returns]

/-- The role of a binder is that of the site. -/
theorem BindsAs.role_eq (binds : p.BindsAs node role v) : role = p.roleAt family node := by
  cases binds with
  | letVariable read => simp [roleAt, groupOf_expr, read]
  | groupName read mem found named => simp [roleAt, groupOf_expr, read]
  | parameter read mem => rfl
  | returnContinuation read returns => rfl

/-- What a script binds, its node binds in the role of the site. -/
theorem bindsAs_of_mem_bindersOf (mem : ⟨v⟩ ∈ p.bindersOf node) :
    p.BindsAs node (p.roleAt family node) v := by
  have live := hasNode_of_binder mem
  cases node with
  | expr e =>
    obtain ⟨shape, read⟩ := Option.isSome_iff_exists.1 (hasNode_expr p e ▸ live)
    rw [bindersOf_expr read] at mem
    cases shape with
    | letIn w value body =>
      cases List.mem_singleton.1 mem
      simpa [roleAt, groupOf_expr, read] using BindsAs.letVariable read
    | group kind members body =>
      simp only [shapeBinders, List.mem_filterMap, Option.map_eq_some_iff] at mem
      obtain ⟨d, inside, w, named, eq⟩ := mem
      cases eq
      obtain ⟨definition, found, named⟩ := Option.bind_eq_some_iff.1 named
      simpa [roleAt, groupOf_expr, read] using BindsAs.groupName read inside found named
    | _ => simp [shapeBinders] at mem
  | defn d =>
    obtain ⟨definition, read⟩ := Option.isSome_iff_exists.1 (hasNode_defn p d ▸ live)
    rw [bindersOf_defn read, Definition.binders, List.mem_append, List.mem_map, List.mem_map] at mem
    rcases mem with ⟨k, returns, eq⟩ | ⟨w, inside, eq⟩
    · cases eq
      exact .returnContinuation read (Option.mem_toList.1 returns)
    · cases eq
      exact .parameter read inside

/-- A node binds a variable in the role that it gives to the variables of that family. -/
theorem bindsAs_iff (c : Coherent p) :
    p.BindsAs node role v ↔ ⟨v⟩ ∈ p.bindersOf node ∧ role = p.roleAt family node := by
  constructor
  · exact fun binds => ⟨binds.mem_bindersOf c, binds.role_eq⟩
  · rintro ⟨mem, rfl⟩
    exact bindsAs_of_mem_bindersOf mem

/-- A live variable records where it is bound and as what. -/
theorem Consistent.bindingOf?_eq_iff (c : Consistent p) :
    p.bindingOf? v = some ⟨node, role⟩ ↔ p.BindsAs node role v := by
  rw [bindsAs_iff c.toCoherent]
  constructor
  · exact fun bound => ⟨c.binders.site bound, c.roles bound⟩
  · rintro ⟨mem, rfl⟩
    obtain ⟨role, bound⟩ := c.binders.binding mem
    have same : role = p.roleAt family node := c.roles bound
    rw [bound, same]

/-- In a consistent program bindings are recorded just where something binds. -/
theorem Consistent.bindersExact (c : Consistent p) : BindersExact p := by
  have recorded {family : Family} {v : VarId family} {entry : VariableEntry family}
      (read : p.varEntry? v = some entry) (site : Node) (role : BinderRole) :
      entry.binding = some ⟨site, role⟩ ↔ p.BindsAs site role v := by
    rw [← c.bindingOf?_eq_iff, bindingOf?, read, Option.bind_some]
  constructor
  case live =>
    intro family v node role binds
    have mem := binds.mem_bindersOf c.toCoherent
    exact ⟨hasNode_of_binder mem, c.binders.hasVariable mem⟩
  case unique =>
    intro family v n m role role' one two
    rw [← c.bindingOf?_eq_iff] at one two
    rw [one] at two
    cases two
    exact ⟨rfl, rfl⟩
  case once => exact c.binders.once
  case recorded => exact recorded
  case unbound =>
    intro family v entry read
    rw [Option.eq_none_iff_forall_ne_some]
    constructor
    · exact fun none site role binds => none _ ((recorded read site role).2 binds)
    · exact fun none b bound => none _ _ ((recorded read b.site b.role).1 bound)

/-- A live definition brings a name along, and no group holds it. -/
def Loose (p : Program) (d : DefId) (v : VarId family) : Prop :=
  (∃ definition, p.definitionOf? d = some definition ∧ definition.header.name? family = some v) ∧
    ∀ e kind members body, p.shapeOf? e = some (.group kind members body) → d ∉ members

/-- A definition that stands under nothing is a member of no group. -/
theorem Forest.not_mem_members (f : Forest p) {d : DefId} (free : p.enclosing (.defn d) = .ok none)
    {e : ExprId} {kind : Family} {members : List DefId} {body : ExprId}
    (read : p.shapeOf? e = some (.group kind members body)) : d ∉ members := by
  intro mem
  have child : .defn d ∈ p.childrenOf (.expr e) := by
    rw [childrenOf_expr read]
    simp [Shape.children, mem]
  have link := f.link child
  rw [free] at link
  cases link

/-- Two functions with one name, the first of them in a pending group. -/
def nameShared : Program :=
  run [.freshValue "f" .any, .freshContinuation "k", .freshContinuation "k", .unreachable,
    .function ⟨0⟩ ⟨0⟩ [] ⟨[], .any⟩ .internal ⟨0⟩, .unreachable,
    .function ⟨0⟩ ⟨1⟩ [] ⟨[], .any⟩ .internal ⟨1⟩, .unreachable, .group .value [⟨0⟩] ⟨2⟩]

/-- The second function, left behind by the group that took the name with it. -/
def nameFreed : Program := (nameShared.perform (.discard (.expr ⟨3⟩))).program

theorem nameShared_reachable : Reachable nameShared := reachable_run _

/-- In both programs the second function is in no group. -/
theorem name_loose : nameShared.Loose ⟨1⟩ (⟨0⟩ : VarId .value) ∧
    nameFreed.Loose ⟨1⟩ (⟨0⟩ : VarId .value) := by
  have shared := nameShared_reachable.consistent.1.forest
  have freed := (Reachable.call (.discard (.expr ⟨3⟩)) nameShared_reachable).consistent.1.forest
  exact ⟨⟨⟨_, rfl, rfl⟩, fun _ _ _ _ read => shared.not_mem_members rfl read⟩,
    ⟨⟨_, rfl, rfl⟩, fun _ _ _ _ read => freed.not_mem_members rfl read⟩⟩

/-- Whatever calls led to a program, its binders are indexed exactly, those of pending trees too. The
name of a definition in no group may be bound elsewhere, and it may be dead. -/
theorem reachable_binders_exact : (∀ p, Reachable p → BindersExact p) ∧
    (∃ p d, ∃ v : VarId .value, Reachable p ∧ p.Loose d v ∧ ∃ site role, p.BindsAs site role v) ∧
    ∃ p d, ∃ v : VarId .value, Reachable p ∧ p.Loose d v ∧ p.hasVariable v = false := by
  refine ⟨fun p reachable => reachable.consistent.1.bindersExact, ?_, ?_⟩
  · exact ⟨nameShared, ⟨1⟩, ⟨0⟩, nameShared_reachable, name_loose.1, .expr ⟨3⟩, .groupName,
      .groupName rfl List.mem_cons_self rfl rfl⟩
  · exact ⟨nameFreed, ⟨1⟩, ⟨0⟩, .call _ nameShared_reachable, name_loose.2, rfl⟩

/-- The shared name is bound by the group and by nothing else, and it records that. -/
theorem nameShared_binders_exact : Reachable nameShared ∧ BindersExact nameShared ∧
    nameShared.bindingOf? (⟨0⟩ : VarId .value) = some ⟨.expr ⟨3⟩, .groupName⟩ ∧
    ∀ site role, nameShared.BindsAs site role (⟨0⟩ : VarId .value) →
      site = .expr ⟨3⟩ ∧ role = .groupName := by
  have binders := reachable_binders_exact.1 nameShared nameShared_reachable
  refine ⟨nameShared_reachable, binders, rfl, fun site role binds => ?_⟩
  exact binders.unique binds ((binders.recorded rfl _ _).1 rfl)

end Program

end ContinuationIR
