import ContinuationIR.Proofs.SameNodes

/-!
# Installing a root keeps programs consistent

Resolving a tree finds the recursivity of each occurrence in it, or refuses. It does not break down
where every holder in the tree has a lineage, on the spot or after a graft. A root is installed if
what is found agrees with what the occurrences record, which is just what an installed tree has to
satisfy.
-/

namespace ContinuationIR
set_option autoImplicit false

namespace Program

/-- What was found for the occurrences of a family. -/
def Resolution.tags (resolution : Resolution) :
    (family : Family) → List (OccId family × Recursivity)
  | .value => resolution.values
  | .continuation => resolution.continuations

/-! ## Resolving a tree -/

section Tree

variable {family : Family} {p : Program} {graft : Option Graft} {node : Node}
  {resolution : Resolution}

/-- Every occurrence in the tree has been resolved. -/
structure ResolvesTree (p : Program) (graft : Option Graft) (node : Node)
    (resolution : Resolution) : Prop where
  complete : ∀ {family : Family} {o : OccId family} {entry : OccurrenceEntry family},
    p.occEntry? o = some entry → p.Within node (.expr entry.holder) →
      ∃ recursivity, (o, recursivity) ∈ resolution.tags family
  sound : ∀ {family : Family} {o : OccId family} {recursivity : Recursivity},
    (o, recursivity) ∈ resolution.tags family → ∃ entry, p.occEntry? o = some entry ∧
      p.Within node (.expr entry.holder) ∧
      p.resolve graft entry.var entry.holder = .ok recursivity

/-- Occurrences are resolved in their order, each on its own. -/
theorem resolveEach_eq_ok {occurrences : List (OccId family)}
    {tags : List (OccId family × Recursivity)} (ok : p.resolveEach graft occurrences = .ok tags) :
    tags.map Prod.fst = occurrences ∧
      ∀ tag ∈ tags, p.resolveOccurrence graft tag.1 = .ok tag.2 := by
  have each := mapM_eq_ok ok
  clear ok
  induction each with
  | nil => simp
  | cons first _ ih =>
    simp only [bind_eq_ok, pure_eq_ok] at first
    obtain ⟨recursivity, found, rfl⟩ := first
    exact ⟨by simp [ih.1], List.forall_mem_cons.2 ⟨found, ih.2⟩⟩

/-- The whole tree below a live node, on a forest. -/
theorem region_all (f : Forest p) (live : p.hasNode node = true) :
    ∃ r, p.region node none = .ok r ∧ p.Covers r (p.Within node) := by
  obtain ⟨r, ok, covers⟩ := f.region_eq_ok live (show p.Clear none node by rintro s ⟨⟩)
  have same : p.Inside node none = p.Within node := by
    funext n
    simp [Inside]
  exact ⟨r, ok, same ▸ covers⟩

/-- A tree that resolves has an answer for each occurrence that stands in it. -/
theorem resolvesTree_of_ok (c : Coherent p) (live : p.hasNode node = true)
    (ok : p.resolveTree graft node = .ok resolution) : ResolvesTree p graft node resolution := by
  obtain ⟨r, region, covers⟩ := region_all c.forest live
  simp only [resolveTree, bind_eq_ok, orFault_eq_ok, pure_eq_ok, region] at ok
  obtain ⟨r', same, values, resolvedValues, continuations, resolvedContinuations, rfl⟩ := ok
  cases same
  have each (family : Family) : ((⟨values, continuations⟩ : Resolution).tags family).map Prod.fst =
        r.held family ∧ ∀ tag ∈ (⟨values, continuations⟩ : Resolution).tags family,
          p.resolveOccurrence graft tag.1 = .ok tag.2 := by
    cases family with
    | value => exact resolveEach_eq_ok resolvedValues
    | continuation => exact resolveEach_eq_ok resolvedContinuations
  constructor
  · intro family o entry read within
    have held : o ∈ r.held family := covers.mem_held.2 ⟨_, within, c.uses.held read⟩
    rw [← (each family).1] at held
    obtain ⟨⟨_, recursivity⟩, mem, rfl⟩ := List.mem_map.1 held
    exact ⟨recursivity, mem⟩
  · intro family o recursivity mem
    have held : o ∈ r.held family := by
      rw [← (each family).1]
      exact List.mem_map.2 ⟨_, mem, rfl⟩
    obtain ⟨n, within, holds⟩ := covers.mem_held.1 held
    obtain ⟨entry, read, rfl⟩ := c.uses.holder holds
    have found := (each family).2 _ mem
    simp only [resolveOccurrence, fetchOccurrence_ok read, bind_eq_ok, orFault_eq_ok] at found
    obtain ⟨_, same, found⟩ := found
    cases same
    exact ⟨entry, read, within, found⟩

/-- A tree is resolved if each of its occurrences is. -/
theorem resolveTree_eq_ok (c : Coherent p) (live : p.hasNode node = true)
    (each : ∀ {family : Family} {o : OccId family} {entry : OccurrenceEntry family},
      p.occEntry? o = some entry → p.Within node (.expr entry.holder) →
        ∃ recursivity, p.resolve graft entry.var entry.holder = .ok recursivity) :
    ∃ resolution, p.resolveTree graft node = .ok resolution := by
  obtain ⟨r, region, covers⟩ := region_all c.forest live
  have resolved (family : Family) : ∃ tags, p.resolveEach graft (r.held family) = .ok tags := by
    refine exists_mapM_eq_ok fun o mem => ?_
    obtain ⟨n, within, holds⟩ := covers.mem_held.1 mem
    obtain ⟨entry, read, rfl⟩ := c.uses.holder holds
    obtain ⟨recursivity, found⟩ := each read within
    refine ⟨(o, recursivity), ?_⟩
    simp only [resolveOccurrence, bind_eq_ok, orFault_eq_ok, pure_eq_ok]
    exact ⟨recursivity, ⟨entry, fetchOccurrence_ok read, found⟩, rfl⟩
  obtain ⟨values, first⟩ := resolved .value
  obtain ⟨continuations, second⟩ := resolved .continuation
  refine ⟨⟨values, continuations⟩, ?_⟩
  simp only [resolveTree, bind_eq_ok, orFault_eq_ok, pure_eq_ok]
  exact ⟨r, region, values, first, continuations, second, rfl⟩

/-- Along lineages that end, a tree resolves or it is refused. -/
theorem decides_resolveTree (c : Coherent p) (live : p.hasNode node = true)
    (lineages : ∀ e, p.Within node (.expr e) → ∃ above,
      Lineage (p.graftedEnclosing graft) (.expr e) above ∧
        ∀ n ∈ Node.expr e :: above, p.hasNode n = true) :
    Decides (p.resolveTree graft node) := by
  obtain ⟨r, region, covers⟩ := region_all c.forest live
  have each (family : Family) : Decides (p.resolveEach graft (r.held family)) := by
    refine decides_mapM fun o mem => ?_
    obtain ⟨n, within, holds⟩ := covers.mem_held.1 mem
    obtain ⟨entry, read, rfl⟩ := c.uses.holder holds
    obtain ⟨above, lin, live⟩ := lineages entry.holder within
    have known := (c.uses.listed read).hasVariable
    refine Decides.bind ?_ fun _ _ => decides_pure _
    refine (decides_orFault (fetchOccurrence_ok read)).bind fun entry' found => ?_
    rw [orFault_eq_ok, fetchOccurrence_ok read] at found
    cases found
    exact fun fault => resolve_ne_faulted known lin live
  refine (decides_orFault region).bind fun r' found => ?_
  rw [orFault_eq_ok, region] at found
  cases found
  refine (each .value).bind fun _ _ => (each .continuation).bind fun _ _ => decides_pure _

end Tree

/-! ## The root -/

section Install

variable {family : Family} {p : Program} {root : DefId}

/-- Tags are accepted just if they are the ones recorded. -/
theorem checkTags_eq_ok_iff {tags : List (OccId family × Recursivity)} :
    p.checkTags tags = .ok () ↔ ∀ o recursivity, (o, recursivity) ∈ tags →
      ∃ entry, p.occEntry? o = some entry ∧ entry.recursivity = recursivity := by
  simp only [checkTags, forM_eq_ok, Prod.forall, bind_eq_ok, orFault_eq_ok, require_eq_ok,
    fetchOccurrence, Slots.fetch_eq_ok_iff, decide_eq_true_eq]
  rfl

/-- Setting the root changes no node and no variable. -/
theorem sameNodes_withRoot (p : Program) (root : DefId) :
    SameNodes p { p with root := some root } := by
  constructor <;> intros <;> rfl

/-- A root definition is not a member of a group, so nothing encloses it. -/
theorem enclosing_of_root (c : Coherent p) {definition : Definition}
    (read : p.definitionOf? root = some definition) (kind : definition.header.kind = .root) :
    p.enclosing (.defn root) = .ok none := by
  have live : p.hasNode (.defn root) = true := by simp [hasNode_defn, read]
  obtain ⟨link, linked⟩ := enclosing_ok_iff_hasNode.2 live
  cases link with
  | none => exact linked
  | some parent =>
    obtain ⟨e, family, members, body, rfl, shape, mem⟩ :=
      exists_group_of_child (c.forest.listed linked)
    have clean := c.obey (.expr e) _ shape
    rw [shapeViolations, groupViolations_eq, List.filterMap_eq_nil_iff] at clean
    have rule := clean root mem
    cases family <;> simp [read, kind, Family.memberKind] at rule

/-- What installing a root asks for: every occurrence of its tree has the recursivity of its
place. -/
theorem checkInstall_eq_ok_iff (c : Coherent p) :
    p.checkInstall root = .ok () ↔ p.root = none ∧
      (∃ definition, p.definitionOf? root = some definition ∧ definition.header.kind = .root) ∧
      ∀ {family : Family} {o : OccId family} {entry : OccurrenceEntry family},
        p.occEntry? o = some entry → p.Within (.defn root) (.expr entry.holder) →
          p.resolve none entry.var entry.holder = .ok entry.recursivity := by
  simp only [checkInstall, bind_eq_ok]
  constructor
  · rintro ⟨⟨⟩, free, ok⟩
    refine ⟨by simpa using require_eq_ok.1 free, ?_⟩
    cases read : p.definitions.get? root with
    | none => simp [read] at ok
    | some entry =>
      simp only [read, bind_eq_ok, withReason_eq_ok] at ok
      obtain ⟨⟨⟩, kind, resolution, resolved, ⟨⟩, values, continuations⟩ := ok
      have known : p.definitionOf? root = some entry.definition := by simp [definitionOf?, read]
      have live : p.hasNode (.defn root) = true := by simp [hasNode_defn, known]
      have resolves := resolvesTree_of_ok c live resolved
      have isRoot := of_decide_eq_true (require_eq_ok.1 kind)
      refine ⟨⟨_, known, isRoot⟩, fun {family o entry} found within => ?_⟩
      obtain ⟨recursivity, mem⟩ := resolves.complete found within
      obtain ⟨entry', found', -, here⟩ := resolves.sound mem
      obtain ⟨entry'', found'', recorded⟩ : ∃ entry, p.occEntry? o = some entry ∧
          entry.recursivity = recursivity := by
        cases family with
        | value => exact checkTags_eq_ok_iff.1 values _ _ mem
        | continuation => exact checkTags_eq_ok_iff.1 continuations _ _ mem
      rw [found] at found' found''
      cases found'
      cases found''
      rw [recorded, here]
  · rintro ⟨free, ⟨definition, known, kind⟩, each⟩
    have live : p.hasNode (.defn root) = true := by simp [hasNode_defn, known]
    obtain ⟨resolution, resolved⟩ := resolveTree_eq_ok c live fun found within =>
      ⟨_, each found within⟩
    have resolves := resolvesTree_of_ok c live resolved
    have recorded (family : Family) : p.checkTags (resolution.tags family) = .ok () := by
      refine checkTags_eq_ok_iff.2 fun o recursivity mem => ?_
      obtain ⟨entry, found, within, here⟩ := resolves.sound mem
      rw [each found within] at here
      exact ⟨entry, found, by simpa using here⟩
    obtain ⟨entry, read, rfl⟩ := Option.map_eq_some_iff.1 known
    refine ⟨(), require_eq_ok.2 (by simp [free]), ?_⟩
    simp only [read, bind_eq_ok, withReason_eq_ok]
    exact ⟨(), require_eq_ok.2 (decide_eq_true kind), resolution, resolved, (), recorded .value,
      recorded .continuation⟩

theorem decides_checkTags (family : Family) {node : Node} {graft : Option Graft}
    {resolution : Resolution} (resolves : ResolvesTree p graft node resolution) :
    Decides (p.checkTags (resolution.tags family)) := by
  refine decides_forM fun ⟨o, recursivity⟩ mem => ?_
  obtain ⟨entry, read, -⟩ := resolves.sound mem
  exact (decides_orFault (fetchOccurrence_ok read)).bind fun _ _ => decides_require _ _

/-- On coherent tables installing is accepted or refused. -/
theorem decides_checkInstall (c : Coherent p) : Decides (p.checkInstall root) := by
  refine (decides_require _ _).bind fun _ _ => ?_
  cases read : p.definitions.get? root with
  | none => exact decides_refused _
  | some entry =>
    have live : p.hasNode (.defn root) = true := hasNode_defn_iff.2 ⟨entry, read⟩
    refine (decides_require _ _).bind fun _ _ => ?_
    refine (decides_withReason _ (decides_resolveTree c live ?_)).bind fun resolution found => ?_
    · intro e within
      obtain ⟨above, lin⟩ := c.forest.ends within.hasNode
      exact ⟨above, lin, hasNode_of_lineage lin⟩
    · have resolves := resolvesTree_of_ok c live (withReason_eq_ok.1 found)
      exact (decides_checkTags .value resolves).bind fun _ _ =>
        decides_checkTags .continuation resolves

/-- With a root definition put in the place of the root, all but the scoping is still in order. -/
theorem coherent_withRoot (c : Coherent p) {definition : Definition}
    (read : p.definitionOf? root = some definition) (kind : definition.header.kind = .root) :
    Coherent { p with root := some root } := by
  have same := sameNodes_withRoot p root
  exact {
    forest := same.forest c.forest
    uses := same.usesIndexed c.uses c.uses.listed c.uses.refers
    binders := same.bindersIndexed c.binders
    obey := fun n => same.obeys c fun _ _ => rfl
    root := by
      rintro r ⟨⟩
      rw [same.enclosing]
      exact enclosing_of_root c read kind }

/-- What is attached once the root is in its place is the tree of the root. -/
theorem scoped_withRoot_iff (c : Coherent p) {definition : Definition}
    (read : p.definitionOf? root = some definition) (kind : definition.header.kind = .root) :
    Scoped { p with root := some root } ↔
      ∀ {family : Family} {o : OccId family} {entry : OccurrenceEntry family},
        p.occEntry? o = some entry → p.Within (.defn root) (.expr entry.holder) →
          p.resolve none entry.var entry.holder = .ok entry.recursivity := by
  have same := sameNodes_withRoot p root
  have coherent := coherent_withRoot c read kind
  have attached {e : ExprId} (live : p.hasNode (.expr e) = true) :
      isAttached { p with root := some root } (.expr e) = .ok true ↔
        p.Within (.defn root) (.expr e) := by
    rw [isAttached_iff coherent.forest coherent.root (same.hasNode.trans live)]
    simp only [Option.some.injEq, exists_eq_left']
    rfl
  constructor
  · intro inScope family o entry found within
    have live := hasNode_of_use (c.uses.held found)
    exact (same.resolve_iff c.forest live).1 (inScope found ((attached live).2 within))
  · intro each family o entry found inside
    have live := hasNode_of_use (c.uses.held found)
    exact (same.resolve_iff c.forest live).2 (each found ((attached live).1 inside))

/-- An installed root leaves a consistent program, and a refused one leaves all as it was. -/
theorem keeps_install (c : Consistent p) (root : DefId) : (p.install root).Keeps p := by
  refine Outcome.keeps_commit (decides_checkInstall c.toCoherent) fun _ accepted => .done ?_ rfl
  obtain ⟨-, ⟨definition, read, kind⟩, each⟩ := (checkInstall_eq_ok_iff c.toCoherent).1 accepted
  exact {
    toCoherent := coherent_withRoot c.toCoherent read kind
    roles := c.roles
    peopled := c.peopled
    rootKind := by
      rintro r ⟨⟩
      exact ⟨definition, read, kind⟩
    inScope := (scoped_withRoot_iff c.toCoherent read kind).2 each }

end Install

end Program

end ContinuationIR
