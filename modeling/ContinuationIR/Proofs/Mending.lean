import ContinuationIR.Proofs.Pruning

/-!
# Mending and destroying

A change that takes nodes away first mends the nodes around them and then destroys a region. It is
checked before that no variable bound in the region is used outside of it, so the region can be
destroyed, and what is left is the program after the cut.
-/

namespace ContinuationIR
set_option autoImplicit false

namespace Program

/-! ## Writes to one node -/

section Nodes

variable {family : Family} {p : Program} {e : ExprId} {shape : Shape} {d : DefId}
  {definition : Definition}

@[simp] theorem table_setShape : (p.setShape e shape).table family = p.table family := by
  cases family <;> rfl

/-- Writing a shape is read back at its expression and nowhere else. -/
theorem shapeOf?_setShape (e' : ExprId) : (p.setShape e shape).shapeOf? e' =
    if e' = e then (p.shapeOf? e).map fun _ => shape else p.shapeOf? e' := by
  unfold shapeOf? setShape
  simp only [Slots.get?_modify]
  split
  · next eq => simp [eq, Function.comp_def]
  · rfl

/-- Writing a shape moves no parent link. -/
theorem enclosing_setShape : (p.setShape e shape).enclosing = p.enclosing := by
  funext n
  cases n with
  | defn d => rfl
  | expr e' =>
    simp only [enclosing, setShape, Slots.fetch, Slots.get?_modify]
    by_cases eq : e' = e
    · subst eq
      cases p.expressions.get? e' <;> simp [bind, Except.bind, pure, Except.pure]
    · simp [eq]

@[simp] theorem table_setDefinition : (p.setDefinition d definition).table family = p.table family := by
  cases family <;> rfl

/-- Writing a definition is read back at its handle and nowhere else. -/
theorem definitionOf?_setDefinition (d' : DefId) : (p.setDefinition d definition).definitionOf? d' =
    if d' = d then (p.definitionOf? d).map fun _ => definition else p.definitionOf? d' := by
  unfold definitionOf? setDefinition
  simp only [Slots.get?_modify]
  split
  · next eq => simp [eq, Function.comp_def]
  · rfl

/-- Writing a definition moves no parent link. -/
theorem enclosing_setDefinition : (p.setDefinition d definition).enclosing = p.enclosing := by
  funext n
  cases n with
  | expr e => rfl
  | defn d' =>
    simp only [enclosing, setDefinition, Slots.fetch, Slots.get?_modify]
    by_cases eq : d' = d
    · subst eq
      cases p.definitions.get? d' <;> simp [bind, Except.bind, pure, Except.pure]
    · simp [eq]

end Nodes

/-! ## Mending, then destroying -/

/-- The program `mid` is `p` with the nodes around the cut mended; what goes is still there. -/
structure Mended (p : Program) (cut : Cut) (mid : Program) : Prop where
  root : mid.root = p.root
  verifying : mid.verifying = p.verifying
  enclosing : ∀ {n : Node}, ¬ cut.gone n → mid.enclosing n = p.graftedEnclosing cut.graft n
  shape : ∀ {e : ExprId}, ¬ cut.gone (.expr e) → mid.shapeOf? e = (p.shapeOf? e).map cut.shape
  definition : ∀ {d : DefId}, ¬ cut.gone (.defn d) →
    mid.definitionOf? d = (p.definitionOf? d).map cut.definition
  kept : ∀ {family : Family} {o : OccId family} {entry : OccurrenceEntry family},
    p.occEntry? o = some entry → ∃ recursivity, mid.occEntry? o = some { entry with recursivity } ∧
      p.Retagged cut entry recursivity
  known : ∀ {family : Family} {o : OccId family}, p.occEntry? o = none → mid.occEntry? o = none
  lists : ∀ {family : Family} {v : VarId family} {o : OccId family}, mid.Lists v o ↔ p.Lists v o
  binding : ∀ {family : Family} {v : VarId family}, mid.bindingOf? v = p.bindingOf? v
  kind : ∀ {family : Family} {v : VarId family}, mid.kindOf? v = p.kindOf? v

namespace Mended

variable {p q mid : Program} {cut : Cut} {r : Region}

theorem setsRefer (m : Mended p cut mid) (u : UsesIndexed p) : SetsRefer mid := by
  intro family v o lists
  obtain ⟨entry, read, eq⟩ := u.refers (m.lists.1 lists)
  obtain ⟨recursivity, after, -⟩ := m.kept read
  exact ⟨_, after, eq⟩

/-- A region that nothing outside uses before the mending has no use outside after it. -/
theorem selfContained (m : Mended p cut mid) (contained : SelfContained p r) :
    SelfContained mid r :=
  fun _ _ _ bound lists => contained bound (m.lists.1 lists)

/-- The occurrences of a region are those that its nodes hold. -/
theorem mem_uses_iff (u : UsesIndexed p) (covers : Covers p r cut.gone) {family : Family}
    {o : OccId family} {entry : OccurrenceEntry family} (read : p.occEntry? o = some entry) :
    ⟨o⟩ ∈ r.uses ↔ cut.gone (.expr entry.holder) := by
  rw [← Region.mem_held, covers.mem_held]
  constructor
  · rintro ⟨n, gone, held⟩
    obtain rfl := u.eq_holder read held
    exact gone
  · exact fun gone => ⟨_, gone, u.held read⟩

/-- Destroying the region makes the cut. -/
theorem pruned (m : Mended p cut mid) (u : UsesIndexed p) (covers : Covers p r cut.gone)
    {vars : List Binder} (razed : Razed mid r.uses vars r.nodes q)
    (lost : ∀ b, b ∈ vars ↔ p.Lost cut.gone b) : Pruned p cut q := by
  constructor
  case root => exact razed.root.trans m.root
  case verifying => exact razed.verifying.trans m.verifying
  case dead =>
    intro n gone
    have mem := covers.nodes.2 gone
    cases n with
    | expr e => rw [hasNode_expr, razed.shape, if_pos mem, Option.isSome_none]
    | defn d => rw [hasNode_defn, razed.definition, if_pos mem, Option.isSome_none]
  case enclosing =>
    intro n stays
    rw [razed.enclosing (mt covers.nodes.1 stays), m.enclosing stays]
  case shape =>
    intro e stays
    rw [razed.shape, if_neg (mt covers.nodes.1 stays), m.shape stays]
  case definition =>
    intro d stays
    rw [razed.definition, if_neg (mt covers.nodes.1 stays), m.definition stays]
  case kept =>
    intro family o entry read stays
    rw [razed.occurrence, if_neg (mt (mem_uses_iff u covers read).1 stays)]
    exact m.kept read
  case known =>
    intro family o entry read
    rw [razed.occurrence] at read
    split at read
    · cases read
    · next here =>
      cases found : p.occEntry? o with
      | none =>
        rw [m.known found] at read
        cases read
      | some old => exact ⟨old, rfl, mt (mem_uses_iff u covers found).2 here⟩
  case lists =>
    intro family v o
    rw [razed.lists, m.lists, lost, razed.occurrence]
    refine and_congr_right fun lists => and_congr_left fun _ => ?_
    obtain ⟨entry, read, -⟩ := u.refers lists
    obtain ⟨recursivity, after, -⟩ := m.kept read
    by_cases here : ⟨o⟩ ∈ r.uses <;> simp [here, after]
  case freed =>
    intro family v goes
    rw [razed.kind, if_pos ((lost _).2 goes)]
  case binding =>
    intro family v kept
    rw [razed.binding, if_neg (mt (lost _).1 kept), m.binding]
  case kind =>
    intro family v kept
    rw [razed.kind, if_neg (mt (lost _).1 kept), m.kind]

end Mended

/-! ## Regions that nothing outside uses -/

section Unused

variable {family : Family} {p : Program} {v : VarId family} {r : Region}

/-- The list of uses of a live variable can be read. -/
theorem uses_ok (known : p.hasVariable v = true) :
    ∃ entry, p.varEntry? v = some entry ∧ (p.table family).uses v = .ok entry.occurrences.toList := by
  obtain ⟨entry, fetched, read⟩ := fetchVariable_ok known
  have fetched : (p.table family).vars.fetch v = .ok entry := fetched
  refine ⟨entry, read, ?_⟩
  simp [VariableTable.uses, fetched, bind, Except.bind, pure, Except.pure]

/-- The check of one variable refuses or passes, and never faults on a live variable. -/
theorem refusedOnly_checkUnused (known : p.hasVariable v = true) (inside : HandleSet (.occ family)) :
    RefusedOnly ChangeError.IsBlocked (p.checkUnused inside v) := by
  obtain ⟨entry, -, uses⟩ := uses_ok known
  have counted : ∃ count, p.usesOutside inside v = .ok count := by
    simp [usesOutside, uses, bind, Except.bind, pure, Except.pure]
  obtain ⟨count, counted⟩ := counted
  exact (refusedOnly_of_ok (orFault_eq_ok.2 counted)).bind fun _ _ => refusedOnly_require _ trivial

/-- The check passes exactly when every listed use of the variable is among the given ones. -/
theorem checkUnused_eq_ok_iff (held : List (OccId family)) (known : p.hasVariable v = true) :
    p.checkUnused (.ofList held) v = .ok () ↔ ∀ o, p.Lists v o → o ∈ held := by
  obtain ⟨entry, read, uses⟩ := uses_ok known
  have counted : p.checkUnused (.ofList held) v = .ok () ↔ ∀ o ∈ entry.occurrences, o ∈ held := by
    simp only [checkUnused, usesOutside, uses, bind_eq_ok, orFault_eq_ok, pure_eq_ok, require_eq_ok]
    simp [List.countP_eq_zero, ← HandleSet.mem_def]
  rw [counted]
  constructor
  · rintro all o ⟨entry', read', mem⟩
    rw [read] at read'
    cases read'
    exact all o mem
  · exact fun all o mem => all o ⟨entry, read, mem⟩

variable {inside : Node → Prop}

theorem hasVariable_of_bound (b : BindersIndexed p) (covers : Covers p r inside)
    (mem : v ∈ r.bound family) : p.hasVariable v = true := by
  obtain ⟨n, -, binds⟩ := covers.mem_bound.1 mem
  exact b.hasVariable binds

/-- The check of a region refuses or passes, and never faults. -/
theorem refusedOnly_checkSelfContained (b : BindersIndexed p) (covers : Covers p r inside) :
    RefusedOnly ChangeError.IsBlocked (p.checkSelfContained r) := by
  have each {family : Family} (v : VarId family) (mem : v ∈ r.bound family) :
      RefusedOnly ChangeError.IsBlocked (p.checkUnused (.ofList (r.held family)) v) :=
    refusedOnly_checkUnused (hasVariable_of_bound b covers mem) _
  exact (refusedOnly_forM each).bind fun _ _ => refusedOnly_forM each

/-- The check passes exactly on the regions whose variables nothing outside uses. -/
theorem checkSelfContained_eq_ok_iff (b : BindersIndexed p) (covers : Covers p r inside) :
    p.checkSelfContained r = .ok () ↔ SelfContained p r := by
  have unused {family : Family} {v : VarId family} (mem : v ∈ r.bound family) :=
    checkUnused_eq_ok_iff (r.held family) (hasVariable_of_bound b covers mem)
  simp only [checkSelfContained, bind_eq_ok]
  constructor
  · rintro ⟨⟨⟩, values, continuations⟩ family v o mem lists
    cases family with
    | value => exact (unused mem).1 (forM_eq_ok.1 values v mem) o lists
    | continuation => exact (unused mem).1 (forM_eq_ok.1 continuations v mem) o lists
  · intro contained
    exact ⟨(), forM_eq_ok.2 fun v mem => (unused mem).2 fun o => contained mem,
      forM_eq_ok.2 fun v mem => (unused mem).2 fun o => contained mem⟩

/-- Occurrences of what a self-contained region binds are held in it. -/
theorem SelfContained.gone (contained : SelfContained p r) (u : UsesIndexed p)
    (covers : Covers p r inside) {n : Node} (here : inside n) (binds : ⟨v⟩ ∈ p.bindersOf n)
    {o : OccId family} {entry : OccurrenceEntry family} (read : p.occEntry? o = some entry)
    (refers : entry.var = v) : inside (.expr entry.holder) := by
  have held := contained (covers.mem_bound.2 ⟨n, here, binds⟩) (refers ▸ u.listed read)
  obtain ⟨m, inside, holds⟩ := covers.mem_held.1 held
  obtain rfl := u.eq_holder read holds
  exact inside

/-- A region is self-contained when every use of what it binds is held by nodes that go. -/
theorem selfContained_of_gone (u : UsesIndexed p) (covers : Covers p r inside)
    (keeps : ∀ {family : Family} {v : VarId family} {o : OccId family}
      {entry : OccurrenceEntry family} {n : Node}, inside n → ⟨v⟩ ∈ p.bindersOf n →
        p.occEntry? o = some entry → entry.var = v → inside (.expr entry.holder)) :
    SelfContained p r := by
  intro family v o mem lists
  obtain ⟨n, here, binds⟩ := covers.mem_bound.1 mem
  obtain ⟨entry, read, refers⟩ := u.refers lists
  exact covers.mem_held.2 ⟨_, keeps here binds read refers, u.held read⟩

/-- If no member leaves a group that stays, only what is bound at a node that goes is lost. -/
theorem lost_iff {gone : Node → Prop} {binder : Binder}
    (whole : ∀ d n, gone (.defn d) → .defn d ∈ p.childrenOf n → gone n) :
    p.Lost gone binder ↔ ∃ n, gone n ∧ binder ∈ p.bindersOf n := by
  constructor
  · rintro ⟨n, binds, goes | ⟨d, goes, child, -⟩⟩
    · exact ⟨n, goes, binds⟩
    · exact ⟨n, whole d n goes child, binds⟩
  · rintro ⟨n, goes, binds⟩
    exact ⟨n, binds, .inl goes⟩

/-- The variables freed with a region are those the lost nodes bind. -/
theorem mem_binders_iff_lost {gone : Node → Prop} (covers : Covers p r gone)
    (whole : ∀ d n, gone (.defn d) → .defn d ∈ p.childrenOf n → gone n) (binder : Binder) :
    binder ∈ r.binders ↔ p.Lost gone binder := by
  rw [lost_iff whole]
  rcases binder with ⟨v⟩
  rw [← Region.mem_bound, covers.mem_bound]

end Unused

end Program

end ContinuationIR
