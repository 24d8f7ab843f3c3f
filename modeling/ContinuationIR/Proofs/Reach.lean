import ContinuationIR.Proofs.Consistency

/-!
# What a climb finds

Going up from a use ends at the node that binds its variable, at the first function or root that hides
continuations, or at the top. Which of the three it is can be told from what lies above what: the
binder has to be above the use, with no such definition in between if the variable is a continuation.
The use is recursive if the way up comes to a group out of one of its members.
-/

namespace ContinuationIR
set_option autoImplicit false

/-! ## Above -/

/-- Following `link` from `n` meets `a`. -/
def Above (link : Node → Except Fault (Option Node)) (a n : Node) : Prop :=
  ∃ above, Lineage link n above ∧ a ∈ above

section Above

variable {link : Node → Except Fault (Option Node)} {a n parent : Node} {above : List Node}

/-- The nodes above a node are those of its lineage. -/
theorem Lineage.above_iff (lin : Lineage link n above) : Above link a n ↔ a ∈ above := by
  constructor
  · rintro ⟨rest, other, mem⟩
    rwa [lin.unique other]
  · exact fun mem => ⟨above, lin, mem⟩

/-- Above a node are its parent and what is above the parent. -/
theorem Lineage.above_up (lin : Lineage link parent above) (up : link n = .ok (some parent)) :
    Above link a n ↔ a = parent ∨ Above link a parent := by
  rw [(Lineage.up up lin).above_iff, lin.above_iff, List.mem_cons]

theorem not_above_of_top (top : link n = .ok none) : ¬ Above link a n := by
  rw [(Lineage.top top).above_iff]
  exact List.not_mem_nil

theorem not_above_self : ¬ Above link n n := by
  rintro ⟨above, lin, mem⟩
  exact lin.not_mem_self mem

/-- What lies above a node above another lies above that one. -/
theorem Above.trans {b : Node} (one : Above link b a) (two : Above link a n) : Above link b n := by
  obtain ⟨above, lin, mem⟩ := two
  obtain ⟨front, back, rfl⟩ := List.append_of_mem mem
  refine ⟨_, lin, ?_⟩
  have upper := (lin.drop rfl).above_iff.1 one
  exact List.mem_append_right _ (List.mem_cons_of_mem _ upper)

/-- Two nodes are not each above the other. -/
theorem Above.asymm (one : Above link a n) : ¬ Above link n a :=
  fun two => not_above_self (one.trans two)

/-- The way up from `n` comes to the site out of a definition right below it. -/
def Enters (link : Node → Except Fault (Option Node)) (site n : Node) : Prop :=
  ∃ d : DefId, link (.defn d) = .ok (some site) ∧ (.defn d = n ∨ Above link (.defn d) n)

/-- Right below the site it is the node itself that has to be a definition. -/
theorem Lineage.enters_parent (lin : Lineage link parent above) (up : link n = .ok (some parent)) :
    Enters link parent n ↔ n.isDefinition = true := by
  constructor
  · rintro ⟨d, link, rfl | higher⟩
    · rfl
    · have below : Above _ parent (.defn d) := (lin.above_up link).2 (.inl rfl)
      rcases (lin.above_up up).1 higher with eq | higher
      · exact absurd (eq ▸ below) not_above_self
      · exact absurd higher below.asymm
  · intro isDefinition
    cases n with
    | expr e => cases isDefinition
    | defn d => exact ⟨d, up, .inl rfl⟩

/-- Leaving the node for its parent does not change where a site is entered, unless the parent is
the site. -/
theorem Lineage.enters_up {site : Node} (lin : Lineage link parent above)
    (up : link n = .ok (some parent)) (ne : parent ≠ site) :
    Enters link site n ↔ Enters link site parent := by
  refine exists_congr fun d => and_congr_right fun child => ?_
  rw [lin.above_up up]
  constructor
  · rintro (rfl | higher)
    · rw [up] at child
      cases child
      exact absurd rfl ne
    · exact higher
  · exact .inr

end Above

/-! ## Reach -/

namespace Program

variable {family : Family} {p : Program} {link : Node → Except Fault (Option Node)}
  {site n parent : Node} {above : List Node}

/-- Above, for the parent links of a program, is strict containment. -/
theorem above_enclosing_iff : Above p.enclosing site n ↔ p.Within site n ∧ site ≠ n := by
  constructor
  · rintro ⟨above, lin, mem⟩
    refine ⟨⟨above, lin, List.mem_cons_of_mem _ mem⟩, ?_⟩
    rintro rfl
    exact lin.not_mem_self mem
  · rintro ⟨⟨above, lin, mem⟩, ne⟩
    exact ⟨above, lin, (List.mem_cons.1 mem).resolve_left ne⟩

/-- What is bound at the site can be used at `n`: the site is above, and no definition in between
hides it if it is a continuation. -/
def Reaches (p : Program) (link : Node → Except Fault (Option Node)) (family : Family)
    (site n : Node) : Prop :=
  Above link site n ∧ (family = .continuation → ∀ d, Above link d n → Above link site d →
    p.isBoundary d = false)

/-- A parent reaches its children, whatever the family. -/
theorem reaches_parent (lin : Lineage link parent above)
    (up : link n = .ok (some parent)) : p.Reaches link family parent n := by
  refine ⟨(lin.above_up up).2 (.inl rfl), fun _ d higher below => ?_⟩
  rcases (lin.above_up up).1 higher with rfl | higher
  · exact absurd below not_above_self
  · exact absurd higher below.asymm

/-- A site reaches a node when it reaches its parent and no function body stands between for a
continuation. -/
theorem reaches_up (lin : Lineage link parent above) (up : link n = .ok (some parent))
    (ne : parent ≠ site) : p.Reaches link family site n ↔
      p.Reaches link family site parent ∧ (family = .continuation → p.isBoundary parent = false) := by
  constructor
  · rintro ⟨higher, clear⟩
    have higher := ((lin.above_up up).1 higher).resolve_left fun eq => ne eq.symm
    refine ⟨⟨higher, fun second d between => clear second d ((lin.above_up up).2 (.inr between))⟩, ?_⟩
    exact fun second => clear second parent ((lin.above_up up).2 (.inl rfl)) higher
  · rintro ⟨⟨higher, clear⟩, open_⟩
    refine ⟨(lin.above_up up).2 (.inr higher), fun second d between below => ?_⟩
    rcases (lin.above_up up).1 between with rfl | between
    · exact open_ second
    · exact clear second d between below

/-- Some definition above the node hides continuations. -/
def Enclosed (p : Program) (link : Node → Except Fault (Option Node)) (n : Node) : Prop :=
  ∃ d, Above link d n ∧ p.isBoundary d = true

/-- A node is enclosed in a function body when its parent is one or is itself enclosed. -/
theorem enclosed_up (lin : Lineage link parent above) (up : link n = .ok (some parent)) :
    p.Enclosed link n ↔ p.isBoundary parent = true ∨ p.Enclosed link parent := by
  simp only [Enclosed, lin.above_up up, or_and_right, exists_or, exists_eq_left]

open Classical in
/-- What a climb finds: the site if it reaches the node. Otherwise a use of a continuation is taken
for an escaping one as soon as it stands in a function or in the root. -/
theorem resolveAlong_eq {binding : Binding} {var : VarId family} {holder : ExprId}
    (lin : Lineage link n above) (live : ∀ m ∈ above, p.hasNode m = true) :
    p.resolveAlong binding var holder none n above =
      if p.Reaches link family binding.site n then
        .ok (if binding.role = .groupName ∧ Enters link binding.site n then .recursive
          else .nonRecursive)
      else if family = .continuation ∧ p.Enclosed link n then
        .error (.refused (.escapingContinuation var holder))
      else .error (.refused (.outOfScope var holder)) := by
  induction lin with
  | top top =>
    have unreached : ¬ p.Reaches link family binding.site _ := fun h => not_above_of_top top h.1
    have free : ¬ p.Enclosed link _ := fun ⟨d, higher, _⟩ => not_above_of_top top higher
    rw [resolveAlong, if_neg unreached, if_neg fun h => free h.2]
  | @up n parent above up lin ih =>
    have next := ih fun m mem => live m (List.mem_cons_of_mem _ mem)
    rw [resolveAlong, stopsContinuations_eq (live parent List.mem_cons_self)]
    by_cases here : parent = binding.site
    · subst here
      rw [if_pos rfl, if_pos (reaches_parent lin up), lin.enters_parent up]
      split <;> rfl
    · rw [if_neg here, reaches_up lin up here, enclosed_up lin up,
        lin.enters_up up here, next]
      by_cases second : family = .continuation
      · cases boundary : p.isBoundary parent <;> simp [second]
      · simp [second]

/-- A use resolves if the site of its variable reaches it. -/
theorem resolve_eq_ok_iff_reaches {graft : Option Graft} {var : VarId family} {holder : ExprId}
    {recursivity : Recursivity} (lin : Lineage (p.graftedEnclosing graft) (.expr holder) above)
    (live : ∀ m ∈ Node.expr holder :: above, p.hasNode m = true) :
    p.resolve graft var holder = .ok recursivity ↔ ∃ binding, p.bindingOf? var = some binding ∧
      p.Reaches (p.graftedEnclosing graft) family binding.site (.expr holder) ∧
        (recursivity = .recursive ↔ binding.role = .groupName ∧
          Enters (p.graftedEnclosing graft) binding.site (.expr holder)) := by
  have found {binding : Binding} (bound : p.bindingOf? var = some binding) :=
    (resolve_of_bound bound lin live).trans
      (resolveAlong_eq lin fun m mem => live m (List.mem_cons_of_mem _ mem))
  constructor
  · intro resolved
    obtain ⟨binding, bound⟩ := exists_binding_of_resolve resolved
    rw [found bound] at resolved
    refine ⟨binding, bound, ?_⟩
    split at resolved
    · next reached =>
      refine ⟨reached, ?_⟩
      split at resolved <;> cases resolved <;> simp [*]
    · split at resolved <;> cases resolved
  · rintro ⟨binding, bound, reached, tag⟩
    rw [found bound, if_pos reached]
    cases recursivity <;> simp_all

/-- Resolution along a grafted lineage succeeds exactly when the recorded binder reaches the use. -/
theorem exists_resolve_iff_reaches {graft : Option Graft} {var : VarId family} {holder : ExprId}
    (lin : Lineage (p.graftedEnclosing graft) (.expr holder) above)
    (live : ∀ m ∈ Node.expr holder :: above, p.hasNode m = true) :
    (∃ recursivity, p.resolve graft var holder = .ok recursivity) ↔
      ∃ binding, p.bindingOf? var = some binding ∧
        p.Reaches (p.graftedEnclosing graft) family binding.site (.expr holder) := by
  constructor
  · rintro ⟨recursivity, resolved⟩
    obtain ⟨binding, bound, reached, -⟩ := (resolve_eq_ok_iff_reaches lin live).1 resolved
    exact ⟨binding, bound, reached⟩
  · rintro ⟨binding, bound, reached⟩
    by_cases entered : binding.role = .groupName ∧
        Enters (p.graftedEnclosing graft) binding.site (.expr holder)
    · exact ⟨.recursive, (resolve_eq_ok_iff_reaches lin live).2
        ⟨binding, bound, reached, fun _ => entered, fun _ => rfl⟩⟩
    · exact ⟨.nonRecursive, (resolve_eq_ok_iff_reaches lin live).2
        ⟨binding, bound, reached, nofun, fun yes => absurd yes entered⟩⟩

/-- Resolution succeeds exactly when the variable is bound and its binder reaches the use. -/
theorem Forest.exists_resolve_iff (f : Forest p) {var : VarId family} {holder : ExprId}
    (live : p.hasNode (.expr holder) = true) :
    (∃ recursivity, p.resolve none var holder = .ok recursivity) ↔
      ∃ binding, p.bindingOf? var = some binding ∧
        p.Reaches p.enclosing family binding.site (.expr holder) := by
  obtain ⟨above, lin⟩ := f.ends live
  exact exists_resolve_iff_reaches lin (hasNode_of_lineage lin)

/-- An attached use is below the node that binds its variable. -/
theorem Consistent.site_above (c : Consistent p) {o : OccId family} {entry : OccurrenceEntry family}
    (read : p.occEntry? o = some entry) (attached : p.isAttached (.expr entry.holder) = .ok true)
    (binds : ⟨entry.var⟩ ∈ p.bindersOf n) : Above p.enclosing n (.expr entry.holder) := by
  obtain ⟨role, bound⟩ := c.binders.binding binds
  obtain ⟨binding, bound', reached, -⟩ :=
    (c.forest.exists_resolve_iff (hasNode_of_isAttached attached)).1 ⟨_, c.inScope read attached⟩
  rw [bound] at bound'
  cases bound'
  exact reached

end Program

end ContinuationIR
