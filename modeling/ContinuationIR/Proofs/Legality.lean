import ContinuationIR.Proofs.Exchange
import ContinuationIR.Proofs.Reach
import ContinuationIR.Proofs.Sweeping

/-!
# The replacements that are accepted

A replacement is accepted exactly if it is legal. In the tree that moves every use has to find its
binder above it in the new place: inside of the tree, or above the target. And what goes may not bind
a variable that is used in what stays. The recursivities are those of the new place.
-/

namespace ContinuationIR
set_option autoImplicit false

namespace Program

variable {family : Family} {p q : Program} {target replacement : ExprId} {a n parent : Node}

/-! ## Above in the new place -/

/-- The node `a` is above `n` once the tree at the replacement hangs in the place of the target: in
the tree as it is, and beyond its head what is above the target. -/
def AboveMoved (p : Program) (target replacement : ExprId) (a n : Node) : Prop :=
  ¬ p.Within (.expr replacement) n ∧ Above p.enclosing a n ∨
    p.Within (.expr replacement) n ∧
      (p.Within (.expr replacement) a ∧ Above p.enclosing a n ∨ Above p.enclosing a (.expr target))

section Grafted

variable (f : Forest p)

include f

/-- Outside of the replacement the graft is not seen. -/
theorem above_graft_iff_of_outside (live : p.hasNode n = true)
    (outside : ¬ p.Within (.expr replacement) n) :
    Above (p.graftedEnclosing (some ⟨replacement, some parent⟩)) a n ↔ Above p.enclosing a n := by
  obtain ⟨above, lin⟩ := f.ends live
  rw [within_iff lin] at outside
  have same : Lineage (p.graftedEnclosing (some ⟨replacement, some parent⟩)) n above := by
    refine lin.congr fun m mem => ?_
    have other : m ≠ .expr replacement := fun eq => outside (eq ▸ mem)
    exact if_neg other
  rw [same.above_iff, lin.above_iff]

variable (link : p.enclosing (.expr target) = .ok (some parent))
  (apart : ¬ p.Within (.expr replacement) (.expr target))

include link apart

/-- At the head of the tree the way goes on to the parent of the target. -/
theorem above_graft_head :
    Above (p.graftedEnclosing (some ⟨replacement, some parent⟩)) a (.expr replacement) ↔
      Above p.enclosing a (.expr target) := by
  have known := f.hasNode_parent link
  have outside := not_within_parent_of_apart f link apart
  obtain ⟨above, lin, -⟩ := f.lineage_graft known outside known
  obtain ⟨above', lin'⟩ := f.ends known
  rw [lin.above_up (if_pos rfl), lin'.above_up link, above_graft_iff_of_outside f known outside]

/-- From inside the replacement the way up leads through its head to what is above the target. -/
theorem above_graft_iff_of_within (within : p.Within (.expr replacement) n) :
    Above (p.graftedEnclosing (some ⟨replacement, some parent⟩)) a n ↔
      p.Within (.expr replacement) a ∧ Above p.enclosing a n ∨
        Above p.enclosing a (.expr target) := by
  have head := above_graft_head f link apart (a := a)
  obtain ⟨above, lin, mem⟩ := within
  induction lin with
  | @top n top =>
    obtain rfl : .expr replacement = n := by simpa using mem
    simp [head, not_above_of_top top]
  | @up n m above up lin ih =>
    by_cases here : n = .expr replacement
    · subst here
      refine head.trans ⟨.inr, ?_⟩
      rintro (⟨within, higher⟩ | higher)
      · obtain ⟨above, ne⟩ := above_enclosing_iff.1 higher
        exact absurd (above.antisymm within) ne
      · exact higher
    · have inside : .expr replacement ∈ m :: above :=
        (List.mem_cons.1 mem).resolve_left (Ne.symm here)
      have within : p.Within (.expr replacement) m := (within_iff lin).2 inside
      obtain ⟨above', lin', -⟩ := f.lineage_graft (f.hasNode_parent link)
        (not_within_parent_of_apart f link apart) within.hasNode
      rw [lin'.above_up ((if_neg here).trans up), lin.above_up up]
      refine (or_congr_right (ih inside)).trans ?_
      constructor
      · rintro (rfl | ⟨below, higher⟩ | higher)
        · exact .inl ⟨within, .inl rfl⟩
        · exact .inl ⟨below, .inr higher⟩
        · exact .inr higher
      · rintro (⟨below, rfl | higher⟩ | higher)
        · exact .inl rfl
        · exact .inr (.inl ⟨below, higher⟩)
        · exact .inr (.inr higher)

/-- A climb that takes the tree to hang in the new place goes through what will be above. -/
theorem above_graft_iff (live : p.hasNode n = true) :
    Above (p.graftedEnclosing (some ⟨replacement, some parent⟩)) a n ↔
      p.AboveMoved target replacement a n := by
  by_cases within : p.Within (.expr replacement) n
  · simp [above_graft_iff_of_within f link apart within, AboveMoved, within]
  · simp [above_graft_iff_of_outside f live within, AboveMoved, within]

/-- With the graft a site is reached just if it is above after the move and no function is in the
way. -/
theorem reaches_graft_iff {site : Node} (live : p.hasNode n = true) :
    p.Reaches (p.graftedEnclosing (some ⟨replacement, some parent⟩)) family site n ↔
      p.AboveMoved target replacement site n ∧ (family = .continuation → ∀ d,
        p.isBoundary d = true → p.AboveMoved target replacement d n →
          ¬ p.AboveMoved target replacement site d) := by
  rw [Reaches, above_graft_iff f link apart live]
  refine and_congr_right fun _ => imp_congr_right fun _ => forall_congr' fun d => ?_
  rw [above_graft_iff f link apart live]
  cases boundary : p.isBoundary d with
  | false => simp
  | true => simp [above_graft_iff f link apart (hasNode_of_isBoundary boundary)]

end Grafted

/-! ## Legal replacements -/

/-- The tree at the replacement may take the place of the target. -/
structure Legal (p : Program) (target replacement : ExprId) : Prop where
  /-- A use in the tree that moves finds its binder above it, in the tree or above the target, and no
  function or root hides a continuation on the way there. -/
  inScope : ∀ {family : Family} {o : OccId family} {entry : OccurrenceEntry family},
    p.occEntry? o = some entry → p.Within (.expr replacement) (.expr entry.holder) →
      ∃ binding, p.bindingOf? entry.var = some binding ∧
        (p.Within (.expr replacement) binding.site ∧
            Above p.enclosing binding.site (.expr entry.holder) ∨
          Above p.enclosing binding.site (.expr target)) ∧
        (family = .continuation → ∀ d, p.isBoundary d = true →
          p.AboveMoved target replacement d (.expr entry.holder) →
            ¬ p.AboveMoved target replacement binding.site d)
  /-- What is bound in the part that goes is used there only. -/
  contained : ∀ {family : Family} {v : VarId family} {o : OccId family}
    {entry : OccurrenceEntry family} {n : Node}, p.Inside (.expr target) (some replacement) n →
      ⟨v⟩ ∈ p.bindersOf n → p.occEntry? o = some entry → entry.var = v →
        p.Inside (.expr target) (some replacement) (.expr entry.holder)

/-- The uses in the tree at the replacement have the recursivities of their places in `q`: those that
resolving computes there. A use is recursive if its variable is the name of a group that the way up
comes to out of a member. -/
def MovedResolved (p : Program) (replacement : ExprId) (q : Program) : Prop :=
  ∀ {family : Family} {o : OccId family} {old : OccurrenceEntry family},
    p.occEntry? o = some old → p.Within (.expr replacement) (.expr old.holder) →
      ∃ recursivity binding, q.occEntry? o = some { old with recursivity } ∧
        q.resolve none old.var old.holder = .ok recursivity ∧
        q.bindingOf? old.var = some binding ∧
        (recursivity = .recursive ↔ binding.role = .groupName ∧
          Enters q.enclosing binding.site (.expr old.holder))

namespace Replaceable

variable {s : Splice}

/-- What the checks accept is legal. -/
theorem legal (h : Replaceable p target replacement s) (c : Coherent p) :
    Legal p target replacement := by
  have f := c.forest
  constructor
  case inScope =>
    intro family o entry read within
    obtain ⟨recursivity, mem⟩ := h.resolves.complete read within
    obtain ⟨entry', read', -, resolved⟩ := h.resolves.sound mem
    rw [read] at read'
    cases read'
    obtain ⟨above, lin, live⟩ := lineages_of_replacement f h.link h.apart entry.holder within
    obtain ⟨binding, bound, reached, -⟩ := (resolve_eq_ok_iff_reaches lin live).1 resolved
    rw [reaches_graft_iff f h.link h.apart within.hasNode] at reached
    obtain ⟨higher, clear⟩ := reached
    refine ⟨binding, bound, ?_, clear⟩
    simpa [AboveMoved, within] using higher
  case contained =>
    intro family v o entry n gone binds read refers
    exact h.contained.gone c.uses h.covers gone binds read refers

/-- In its new place each use of the replacement has the recursivity of that place. -/
theorem movedResolved (h : Replaceable p target replacement s) (c : Coherent p)
    (pruned : Pruned p (p.replaceCut target replacement s.parent) q) :
    MovedResolved p replacement q := by
  intro family o old read within
  have stays : ¬ p.Inside (.expr target) (some replacement) (.expr old.holder) :=
    fun gone => (inside_iff.1 gone).2 within
  obtain ⟨recursivity, after, ⟨swap, same, -, resolved⟩ | ⟨-, outside⟩⟩ := pruned.kept read stays
  · have resolved := pruned.resolve_of_graft (h.clean c) c read stays resolved
    have live := (pruned.hasNode stays).trans within.hasNode
    obtain ⟨above, lin⟩ := (pruned.forest (h.clean c) c.forest).ends live
    rw [← graftedEnclosing_none] at lin ⊢
    obtain ⟨binding, bound, -, tag⟩ :=
      (resolve_eq_ok_iff_reaches lin (hasNode_of_lineage lin)).1 resolved
    exact ⟨recursivity, binding, after, resolved, bound, tag⟩
  · exact absurd within (outside _ rfl)

end Replaceable

/-- What is legal passes the checks. -/
theorem Legal.exists_checkReplace (legal : Legal p target replacement) (c : Coherent p)
    (attached : p.isAttached (.expr target) = .ok true) (differ : target ≠ replacement)
    (source : p.enclosing (.expr replacement) = .ok none ∨
      p.Within (.expr target) (.expr replacement)) :
    ∃ s, p.checkReplace target replacement = .ok s := by
  have f := c.forest
  have known : p.hasNode (.expr replacement) = true := by
    rcases source with top | below
    · exact hasNode_of_enclosing top
    · exact below.hasNode
  have apart := not_within_replacement c attached differ source
  obtain ⟨parent, link⟩ := exists_parent_of_attached attached
  refine Program.exists_checkReplace c (checkReplace_eq c attached link differ known source
    fun {family o entry} read within => ?_) legal.contained
  obtain ⟨binding, bound, higher, clear⟩ := legal.inScope read within
  obtain ⟨above, lin, live⟩ := lineages_of_replacement f link apart entry.holder within
  refine (exists_resolve_iff_reaches lin live).2 ⟨binding, bound, ?_⟩
  rw [reaches_graft_iff f link apart within.hasNode]
  exact ⟨by simpa [AboveMoved, within] using higher, clear⟩

/-- A replacement of an attached expression by a pending tree or by a part of it is accepted exactly
if it is legal. The uses in the tree that moves get the recursivities of the new place. -/
theorem replace_accepts_iff_legal (reachable : Reachable p)
    (attached : p.isAttached (.expr target) = .ok true) (differ : target ≠ replacement)
    (source : p.enclosing (.expr replacement) = .ok none ∨
      p.Within (.expr target) (.expr replacement)) :
    ((p.perform (.replace target replacement)).result = .ok .nothing ↔
      Legal p target replacement) ∧
    ((p.perform (.replace target replacement)).result = .ok .nothing →
      MovedResolved p replacement (p.perform (.replace target replacement)).program) := by
  obtain ⟨c, quiet⟩ := reachable.consistent
  have ends : (p.perform (.replace target replacement)).Ends p (Replaced p target replacement) :=
    (ends_replace c.toCoherent target replacement).map
  refine ⟨⟨fun ok => ?_, fun legal => ?_⟩, fun ok => ?_⟩
  · obtain ⟨s, replaceable, -⟩ := ends.holds ok
    exact replaceable.legal c.toCoherent
  · obtain ⟨s, accepted⟩ := legal.exists_checkReplace c.toCoherent attached differ source
    have replaced := replace_eq_ok c.toCoherent quiet accepted
    simp [perform, changedOnly, Outcome.map, replaced, Except.map, withReason]
  · obtain ⟨s, replaceable, pruned⟩ := ends.holds ok
    exact replaceable.movedResolved c.toCoherent pruned

/-- The pending jump may take the place of the body of the loop. The jump after the loop may not take
the place of the loop: it would go on using a name that is gone. -/
theorem loopWithLet_legal : Legal loopWithLet ⟨1⟩ ⟨4⟩ ∧
    MovedResolved loopWithLet ⟨4⟩ (loopWithLet.perform (.replace ⟨1⟩ ⟨4⟩)).program ∧
    ¬ Legal loopWithLet ⟨3⟩ ⟨2⟩ := by
  have attached : loopWithLet.isAttached (.expr ⟨1⟩) = .ok true := rfl
  have pending : loopWithLet.enclosing (.expr ⟨4⟩) = .ok none := rfl
  obtain ⟨accepts, moved⟩ :=
    replace_accepts_iff_legal loopWithLet_reachable attached (by decide) (.inl pending)
  have inside : loopWithLet.Within (.expr ⟨3⟩) (.expr ⟨2⟩) :=
    ⟨[.expr ⟨3⟩, .defn ⟨1⟩], .up rfl (.up rfl (.top rfl)), by simp⟩
  have refuses :=
    (replace_accepts_iff_legal loopWithLet_reachable rfl (by decide) (.inr inside)).1
  have refused : (loopWithLet.perform (.replace ⟨3⟩ ⟨2⟩)).result ≠ .ok .nothing := by
    have result : (loopWithLet.perform (.replace ⟨3⟩ ⟨2⟩)).result =
        .error (.refused (.change (.scope
          (.escapingContinuation (⟨1⟩ : VarId .continuation) ⟨2⟩)))) := rfl
    simp [result]
  exact ⟨accepts.1 loopWithLet_replaced, moved loopWithLet_replaced,
    fun legal => refused (refuses.2 legal)⟩

end Program

end ContinuationIR
