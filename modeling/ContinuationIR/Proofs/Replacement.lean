import ContinuationIR.Proofs.Removal

/-!
# Replacement keeps programs consistent

The target is exchanged for a pending tree or for a tree from inside it. What goes is the tree of the
target without the replacement. The replacement is hung under the parent of the target and its
occurrences get the recursivity of the new place, which was computed before the first write.
-/

namespace ContinuationIR
set_option autoImplicit false

namespace Program

/-! ## Exchanging a child -/

section Exchange

variable {target replacement : ExprId} {parent : Node} {gone : Node → Prop}

theorem replaceFirst?_of_not_mem {branches : List (Nat × ExprId)}
    (absent : ∀ branch ∈ branches, branch.2 ≠ target) :
    CaseMap.replaceFirst? target replacement branches = none := by
  induction branches with
  | nil => rfl
  | cons branch rest ih =>
    rw [List.forall_mem_cons] at absent
    simp [CaseMap.replaceFirst?, absent.1, ih absent.2]

/-- Exchanging the first branch is exchanging all of them, if the branch stands once. -/
theorem replaceFirst?_of_mem {f : ExprId → ExprId} (here : f target = replacement)
    (others : ∀ e, e ≠ target → f e = e) {branches : List (Nat × ExprId)}
    (mem : ∃ branch ∈ branches, branch.2 = target) (once : (branches.map Prod.snd).Nodup) :
    CaseMap.replaceFirst? target replacement branches =
      some (branches.map fun branch => (branch.1, f branch.2)) := by
  induction branches with
  | nil => simp at mem
  | cons branch rest ih =>
    obtain ⟨tag, e⟩ := branch
    simp only [List.map_cons, List.nodup_cons] at once
    by_cases eq : e = target
    · subst eq
      have same : rest.map (fun branch => (branch.1, f branch.2)) = rest := by
        refine (List.map_congr_left fun branch inside => ?_).trans (List.map_id _)
        have ne : branch.2 ≠ e := by
          rintro rfl
          exact once.1 (List.mem_map.2 ⟨branch, inside, rfl⟩)
        rw [others _ ne]
        rfl
      simp [CaseMap.replaceFirst?, here, same]
    · have mem : ∃ branch ∈ rest, branch.2 = target := by simpa [eq] using mem
      simp [CaseMap.replaceFirst?, eq, others e eq, ih mem once.2]

/-- The cut that exchanges the target for the replacement below the parent. -/
def replaceCut (p : Program) (target replacement : ExprId) (parent : Node) : Cut :=
  ⟨p.Inside (.expr target) (some replacement), none, some ⟨target, replacement, parent⟩⟩

variable {p : Program}

@[simp] theorem expression_replaceCut (e : ExprId) :
    (p.replaceCut target replacement parent).expression e = if e = target then replacement else e :=
  rfl

@[simp] theorem member_replaceCut : (p.replaceCut target replacement parent).member = none := rfl

/-- In a case the exchange of a child finds it, whether it is the default or a branch. -/
theorem replaceChild?_caseOf {scrutinee : OccId .value} {map : CaseMap} {otherwise : Option ExprId}
    (mem : .expr target ∈ (Shape.caseOf scrutinee map otherwise).children)
    (once : (Shape.caseOf scrutinee map otherwise).children.Nodup) :
    (Shape.caseOf scrutinee map otherwise).replaceChild? target replacement =
      some ((p.replaceCut target replacement parent).shape (.caseOf scrutinee map otherwise)) := by
  rw [Shape.children, List.nodup_append] at once
  obtain ⟨branches, -, apart⟩ := once
  by_cases inside : ∃ branch ∈ map.branches, branch.2 = target
  · have distinct : (map.branches.map Prod.snd).Nodup := by
      refine List.Nodup.of_map Node.expr ?_
      rwa [List.map_map]
    have default : otherwise.map (p.replaceCut target replacement parent).expression =
        otherwise := by
      obtain ⟨branch, member, eq⟩ := inside
      cases otherwise with
      | none => rfl
      | some e =>
        have ne : e ≠ target := by
          rintro rfl
          exact apart (.expr branch.2) (List.mem_map.2 ⟨branch, member, rfl⟩) (.expr e) (by simp)
            (by rw [eq])
        simp [ne]
    have replaced := replaceFirst?_of_mem
      (f := (p.replaceCut target replacement parent).expression)
      (if_pos rfl) (fun _ ne => if_neg ne) inside distinct
    simp only [Shape.replaceChild?, replaced, Cut.shape, Shape.contract, default]
  · have absent : ∀ branch ∈ map.branches, branch.2 ≠ target :=
      fun branch mem eq => inside ⟨branch, mem, eq⟩
    have default : otherwise = some target := by
      simp only [Shape.children, List.mem_append, List.mem_map] at mem
      rcases mem with ⟨branch, mem, eq⟩ | ⟨e, mem, eq⟩
      · cases eq
        exact absurd rfl (absent branch mem)
      · cases eq
        simpa using mem
    have same : map.branches.map (fun branch =>
        (branch.1, (p.replaceCut target replacement parent).expression branch.2)) =
          map.branches := by
      refine (List.map_congr_left fun branch inside => ?_).trans (List.map_id _)
      simp [absent branch inside]
    have here : (p.replaceCut target replacement parent).expression target = replacement :=
      if_pos rfl
    simp only [Shape.replaceChild?, replaceFirst?_of_not_mem absent, default, if_true, Cut.shape,
      Shape.contract,
      same, Option.map_some, here]

/-- Exchanging the target where it stands is what the cut does to a shape. -/
theorem replaceChild?_eq {shape : Shape} (mem : .expr target ∈ shape.children)
    (once : shape.children.Nodup) :
    shape.replaceChild? target replacement =
      some ((p.replaceCut target replacement parent).shape shape) := by
  cases shape with
  | letIn v value body =>
    obtain rfl : target = body := by simpa [Shape.children] using mem
    simp [Shape.replaceChild?, Cut.shape, Shape.contract]
  | group family members body =>
    obtain rfl : target = body := by simpa [Shape.children] using mem
    simp [Shape.replaceChild?, Cut.shape, Shape.contract]
  | caseOf scrutinee map otherwise => exact replaceChild?_caseOf mem once
  | _ => simp [Shape.children] at mem

/-- What does not have the target below it stays as it is. -/
theorem shape_replaceCut {shape : Shape} (absent : .expr target ∉ shape.children) :
    (p.replaceCut target replacement parent).shape shape = shape := by
  refine Cut.shape_eq_self _ fun c mem => ?_
  cases c with
  | defn d => rfl
  | expr e =>
    have ne : e ≠ target := fun eq => absent (eq ▸ mem)
    simp [Cut.child?, ne]

end Exchange

/-! ## The recursivity of what is moved -/

/-- A recursivity that an occurrence is given. -/
structure Tag where
  {family : Family}
  occurrence : OccId family
  recursivity : Recursivity

/-- The program `q` is `p` with some recursivities given. -/
structure Tagged (p : Program) (tags : List Tag) (q : Program) : Prop where
  root : q.root = p.root
  verifying : q.verifying = p.verifying
  shape : ∀ e, q.shapeOf? e = p.shapeOf? e
  definition : ∀ d, q.definitionOf? d = p.definitionOf? d
  enclosing : ∀ n, q.enclosing n = p.enclosing n
  vars : ∀ {family : Family} (v : VarId family), q.varEntry? v = p.varEntry? v
  known : ∀ {family : Family} {o : OccId family}, p.occEntry? o = none → q.occEntry? o = none
  kept : ∀ {family : Family} {o : OccId family} {entry : OccurrenceEntry family},
    p.occEntry? o = some entry → ∃ recursivity, q.occEntry? o = some { entry with recursivity } ∧
      (⟨o, recursivity⟩ ∈ tags ∨
        recursivity = entry.recursivity ∧ ∀ given, ⟨o, given⟩ ∉ tags)

namespace Tagged

variable {family : Family} {p q : Program} {tags : List Tag}

theorem nothing (p : Program) : Tagged p [] p := by
  constructor
  case kept => exact fun read => ⟨_, read, .inr ⟨rfl, by simp⟩⟩
  all_goals simp

/-- One more occurrence takes the recursivity it was given. -/
theorem retag (h : Tagged p tags q) {o : OccId family} (recursivity : Recursivity)
    {entry : OccurrenceEntry family} (read : p.occEntry? o = some entry) :
    (Edit.retag o recursivity).Runs q fun _ => Tagged p (tags ++ [⟨o, recursivity⟩]) := by
  obtain ⟨before, found, -⟩ := h.kept read
  refine (Edit.runs_read (fetchOccurrence_ok found)).andThen fun _ r same => ?_
  rw [same.2]
  refine Edit.runs_write ?_
  show Tagged p _ (q.modifyTable family (·.modifyOccurrence o fun entry => { entry with recursivity }))
  constructor
  case vars =>
    intro other v
    rw [varEntry?_modifyOccurrence, h.vars]
  case known =>
    intro other k dead
    have ne : (⟨k⟩ : Use) ≠ ⟨o⟩ := by
      rintro ⟨⟩
      rw [read] at dead
      cases dead
    rw [occEntry?_modify_of_ne ne, h.known dead]
  case kept =>
    intro other k old found'
    by_cases here : (⟨k⟩ : Use) = ⟨o⟩
    · cases here
      rw [read] at found'
      cases found'
      refine ⟨recursivity, ?_, .inl (by simp)⟩
      rw [occEntry?_modify_self, found]
      rfl
    · obtain ⟨given, after, tag⟩ := h.kept found'
      refine ⟨given, (occEntry?_modify_of_ne here).trans after, ?_⟩
      have other (r : Recursivity) : (⟨k, r⟩ : Tag) ≠ ⟨o, recursivity⟩ := by
        rintro ⟨⟩
        exact here rfl
      simpa [other] using tag
  all_goals simp only [root_modifyTable, verifying_modifyTable, shapeOf?_modifyTable,
    definitionOf?_modifyTable, enclosing_modifyTable]
  exacts [h.root, h.verifying, h.shape, h.definition, h.enclosing]

theorem retagAll (h : Tagged p tags q) {given : List (OccId family × Recursivity)}
    (live : ∀ tag ∈ given, ∃ entry, p.occEntry? tag.1 = some entry) :
    (Program.retagAll given).Runs q fun _ =>
      Tagged p (tags ++ given.map fun tag => ⟨tag.1, tag.2⟩) := by
  refine Edit.runs_forM (fun front : List (OccId family × Recursivity) =>
    Tagged p (tags ++ front.map fun tag => ⟨tag.1, tag.2⟩)) (by simpa using h) ?_
  rintro front ⟨o, recursivity⟩ back r split h
  obtain ⟨entry, read⟩ := live (o, recursivity) (by simp [split])
  simpa using h.retag recursivity read

end Tagged

/-! ## The cut of a replacement -/

section Replace

variable {p : Program} {target replacement : ExprId} {s : Splice}

/-- What the checks of a replacement find. -/
structure Replaceable (p : Program) (target replacement : ExprId) (s : Splice) : Prop where
  attached : p.isAttached (.expr target) = .ok true
  differ : target ≠ replacement
  known : p.hasNode (.expr replacement) = true
  link : p.enclosing (.expr target) = .ok (some s.parent)
  apart : ¬ p.Within (.expr replacement) (.expr target)
  source : p.enclosing (.expr replacement) = .ok none ∨ p.Within (.expr target) (.expr replacement)
  resolves : ResolvesTree p (some ⟨replacement, some s.parent⟩) (.expr replacement) s.resolution
  covers : Covers p s.region (p.Inside (.expr target) (some replacement))
  contained : SelfContained p s.region

/-- Outside of the target nothing is in the tree of the replacement. -/
theorem not_within_parent_of_apart (f : Forest p) {parent : Node}
    (link : p.enclosing (.expr target) = .ok (some parent))
    (apart : ¬ p.Within (.expr replacement) (.expr target)) :
    ¬ p.Within (.expr replacement) parent :=
  fun within => apart ((f.within_child (f.listed link)).2 (.inr within))

/-- The nodes that go in a replacement are those of the target that are not of the replacement. -/
theorem inside_iff {n : Node} : p.Inside (.expr target) (some replacement) n ↔
    p.Within (.expr target) n ∧ ¬ p.Within (.expr replacement) n := by
  simp [Inside]

/-- A member of a group goes with its group. -/
theorem Forest.inside_of_member (f : Forest p) (d : DefId) (n : Node)
    (gone : p.Inside (.expr target) (some replacement) (.defn d)) (child : .defn d ∈ p.childrenOf n) :
    p.Inside (.expr target) (some replacement) n := by
  rw [inside_iff, f.within_child child, f.within_child child] at gone
  obtain ⟨eq | within, outside⟩ := gone
  · cases eq
  · exact inside_iff.2 ⟨within, fun inside => outside (.inr inside)⟩

namespace Replaceable

/-- An accepted replacement is a clean cut with a graft. -/
theorem clean (h : Replaceable p target replacement s) (c : Coherent p) :
    Clean p (p.replaceCut target replacement s.parent) := by
  have f := c.forest
  have live := hasNode_of_enclosing h.link
  constructor
  case down =>
    intro n parent link gone stays
    obtain ⟨within, outside⟩ := inside_iff.1 gone
    have child := f.listed link
    have inTarget : p.Within (.expr target) n := (f.within_child child).2 (.inr within)
    have inReplacement : p.Within (.expr replacement) n := by
      by_contra out
      exact stays (inside_iff.2 ⟨inTarget, out⟩)
    have eq := ((f.within_child child).1 inReplacement).resolve_right outside
    exact ⟨_, rfl, eq.symm⟩
  case up =>
    intro n parent link stays gone
    obtain ⟨within, outside⟩ := inside_iff.1 gone
    have child := f.listed link
    rw [f.within_child child] at within outside
    rcases within with rfl | within
    · simp [Cut.child?, h.differ.symm]
    · exact absurd (inside_iff.2 ⟨within, fun inside => outside (.inr inside)⟩) stays
  case leaves =>
    intro n leaves
    cases n with
    | defn d => exact absurd rfl leaves
    | expr e =>
      by_cases eq : e = target
      · rw [eq]
        exact inside_iff.2 ⟨f.within_self live, h.apart⟩
      · simp [Cut.child?, eq] at leaves
  case target =>
    rintro _ ⟨⟩
    exact h.link
  case parent =>
    rintro _ ⟨⟩
    refine ⟨fun gone => ?_, not_within_parent_of_apart f h.link h.apart⟩
    exact not_within_parent h.link (inside_iff.1 gone).1
  case replacement =>
    rintro _ ⟨⟩
    refine ⟨fun gone => (inside_iff.1 gone).2 (f.within_self h.known), h.known, ?_⟩
    intro parent link
    rcases h.source with top | below
    · rw [top] at link
      cases link
    · have child := f.listed link
      refine inside_iff.2 ⟨?_, not_within_parent link⟩
      exact ((f.within_child child).1 below).resolve_left fun eq => h.differ (by simpa using eq)
  case root =>
    intro r installed gone
    cases c.root.eq_of_within installed (inside_iff.1 gone).1
  case unused =>
    intro family v o entry lost read refers
    obtain ⟨n, gone, binds⟩ := (lost_iff f.inside_of_member).1 lost
    exact h.contained.gone c.uses h.covers gone binds read refers
  case peopled =>
    intro e family members body _ _ inhabited
    exact (List.exists_mem_of_ne_nil _ inhabited).imp fun d mem => ⟨mem, by simp⟩

/-- The child is exchanged where it stands; nothing else changes. -/
structure Exchanged (p : Program) (cut : Cut) (q : Program) : Prop where
  root : q.root = p.root
  verifying : q.verifying = p.verifying
  table : ∀ family, q.table family = p.table family
  enclosing : q.enclosing = p.enclosing
  shape : ∀ e, q.shapeOf? e = (p.shapeOf? e).map cut.shape
  definition : ∀ d, q.definitionOf? d = (p.definitionOf? d).map cut.definition

/-- Only the parent has the target as a child, so no other expression changes its shape. -/
theorem shapeOf?_replaceCut (f : Forest p) {parent : Node} {e : ExprId}
    (link : p.enclosing (.expr target) = .ok (some parent)) (ne : .expr e ≠ parent) :
    p.shapeOf? e = (p.shapeOf? e).map (p.replaceCut target replacement parent).shape := by
  cases read : p.shapeOf? e with
  | none => rfl
  | some shape =>
    have apart : .expr target ∉ shape.children := by
      intro mem
      rw [← childrenOf_expr read] at mem
      exact ne (f.parent_unique mem link)
    exact congrArg some (shape_replaceCut apart).symm

theorem definitionOf?_replaceCut (f : Forest p) {parent : Node} {d : DefId}
    (link : p.enclosing (.expr target) = .ok (some parent)) (ne : .defn d ≠ parent) :
    p.definitionOf? d =
      (p.definitionOf? d).map (p.replaceCut target replacement parent).definition := by
  cases read : p.definitionOf? d with
  | none => rfl
  | some definition =>
    have other : definition.body ≠ target := by
      rintro rfl
      exact ne (f.parent_unique (by simp [childrenOf_defn read]) link)
    simp [Cut.definition, other]

/-- The parent of the target comes to hold the replacement in its place. -/
theorem runs_exchangeChild (f : Forest p) {parent : Node}
    (link : p.enclosing (.expr target) = .ok (some parent)) :
    (Edit.exchangeChild parent target replacement).Runs p fun _ =>
      Exchanged p (p.replaceCut target replacement parent) := by
  have child := f.listed link
  cases parent with
  | expr e =>
    obtain ⟨shape, read⟩ := Option.isSome_iff_exists.1 (hasNode_expr p e ▸ hasNode_of_child child)
    have once := f.once (.expr e)
    rw [childrenOf_expr read] at child once
    refine (Edit.runs_read (fetchShape_ok read)).andThen ?_
    rintro _ _ ⟨rfl, rfl⟩
    rw [replaceChild?_eq child once]
    refine Edit.runs_write ?_
    constructor
    case shape =>
      intro e'
      rw [shapeOf?_setShape]
      split
      · next eq => rw [eq, read]; rfl
      · next ne => exact shapeOf?_replaceCut f link (by simpa using ne)
    case definition => exact fun d => definitionOf?_replaceCut f link (by simp)
    case table => exact fun _ => table_setShape
    case enclosing => exact enclosing_setShape
    all_goals rfl
  | defn d =>
    obtain ⟨definition, read⟩ :=
      Option.isSome_iff_exists.1 (hasNode_defn p d ▸ hasNode_of_child child)
    rw [childrenOf_defn read] at child
    obtain rfl : target = definition.body := by simpa using child
    refine (Edit.runs_read (fetchDefinition_ok read)).andThen ?_
    rintro _ _ ⟨rfl, rfl⟩
    refine Edit.runs_write ?_
    constructor
    case definition =>
      intro d'
      rw [definitionOf?_setDefinition]
      split
      · next eq => rw [eq, read]; simp [Cut.definition]
      · next ne => exact definitionOf?_replaceCut f link (by simpa using ne)
    case shape => exact fun e => shapeOf?_replaceCut f link (by simp)
    case table => exact fun _ => table_setDefinition
    case enclosing => exact enclosing_setDefinition
    all_goals rfl

/-- Exchanging the child, hanging the replacement there and retagging it mends the program around the
cut. -/
theorem mended (h : Replaceable p target replacement s) {q r : Program} {tags : List Tag}
    (exchanged : Exchanged p (p.replaceCut target replacement s.parent) q)
    (tagged : Tagged (q.setEnclosing (.expr replacement) (some s.parent)) tags r)
    (given : ∀ {family : Family} {o : OccId family} {recursivity : Recursivity},
      ⟨o, recursivity⟩ ∈ tags ↔ (o, recursivity) ∈ s.resolution.tags family) :
    Mended p (p.replaceCut target replacement s.parent) r := by
  have table (family : Family) :
      (q.setEnclosing (.expr replacement) (some s.parent)).table family = p.table family :=
    table_setEnclosing.trans (exchanged.table family)
  have live : q.hasNode (.expr replacement) = true := by
    rw [← enclosing_ok_iff_hasNode, exchanged.enclosing, enclosing_ok_iff_hasNode]
    exact h.known
  have vars {family : Family} (v : VarId family) : r.varEntry? v = p.varEntry? v := by
    rw [tagged.vars, varEntry?, table, varEntry?]
  constructor
  case root => rw [tagged.root, root_setEnclosing, exchanged.root]
  case verifying => rw [tagged.verifying, verifying_setEnclosing, exchanged.verifying]
  case enclosing =>
    intro n _
    rw [tagged.enclosing, enclosing_setEnclosing live (by simp [Node.isDefinition]),
      exchanged.enclosing]
    rfl
  case shape =>
    intro e _
    rw [tagged.shape, shapeOf?_setEnclosing, exchanged.shape]
  case definition =>
    intro d _
    rw [tagged.definition, definitionOf?_setEnclosing, exchanged.definition]
  case kept =>
    intro family o entry read
    obtain ⟨recursivity, after, tag⟩ := tagged.kept ((occEntry?_of_table (table family) o).trans read)
    refine ⟨recursivity, after, ?_⟩
    rcases tag with mem | ⟨same, none⟩
    · obtain ⟨entry', read', within, resolved⟩ := h.resolves.sound (given.1 mem)
      rw [read] at read'
      cases read'
      exact .inl ⟨_, rfl, within, resolved⟩
    · refine .inr ⟨same, ?_⟩
      rintro _ ⟨⟩ within
      obtain ⟨recursivity, mem⟩ := h.resolves.complete read within
      exact none recursivity (given.2 mem)
  case known =>
    intro family o dead
    exact tagged.known ((occEntry?_of_table (table family) o).trans dead)
  case lists =>
    intro family v o
    simp only [Lists, vars]
  case binding =>
    intro family v
    simp only [bindingOf?, vars]
  case kind =>
    intro family v
    simp only [kindOf?, vars]

/-- Splicing in an accepted replacement cuts the target and grafts the replacement. -/
theorem runs_splice (h : Replaceable p target replacement s) (c : Coherent p) :
    (splice target replacement s).Runs p fun _ =>
      Pruned p (p.replaceCut target replacement s.parent) := by
  refine (runs_exchangeChild c.forest h.link).andThen fun _ q exchanged => ?_
  have attach : (Edit.attach s.parent (.expr replacement)).Runs q fun _ r =>
      r = q.setEnclosing (.expr replacement) (some s.parent) := by
    obtain ⟨link, linked⟩ := enclosing_ok_iff_hasNode.2 h.known
    refine (Edit.runs_read (exchanged.enclosing ▸ linked)).andThen ?_
    rintro _ _ ⟨-, rfl⟩
    exact Edit.runs_write rfl
  refine attach.andThen ?_
  rintro _ _ rfl
  have live (family : Family) (tag) (mem : tag ∈ s.resolution.tags family) :
      ∃ entry, occEntry? (q.setEnclosing (.expr replacement) (some s.parent)) tag.1 = some entry := by
    obtain ⟨entry, read, -⟩ := h.resolves.sound mem
    exact ⟨entry, (occEntry?_of_table (table_setEnclosing.trans (exchanged.table family)) _).trans read⟩
  refine ((Tagged.nothing _).retagAll (live .value)).andThen fun _ _ tagged => ?_
  refine (tagged.retagAll (live .continuation)).andThen fun _ r tagged => ?_
  have mended := h.mended exchanged tagged (by
    intro family o recursivity
    cases family <;> simp [Resolution.tags])
  have contained := mended.selfContained h.contained
  refine (runs_destroy (mended.setsRefer c.uses) contained).mono fun _ q razed => ?_
  exact mended.pruned c.uses h.covers razed (mem_binders_iff_lost h.covers c.forest.inside_of_member)

end Replaceable

/-! ## The checks -/

/-- A pending tree does not have an attached node in it, and a proper part of a tree not its head. -/
theorem not_within_replacement (c : Coherent p)
    (attached : p.isAttached (.expr target) = .ok true) (differ : target ≠ replacement)
    (source : p.enclosing (.expr replacement) = .ok none ∨
      p.Within (.expr target) (.expr replacement)) :
    ¬ p.Within (.expr replacement) (.expr target) := by
  intro within
  rcases source with top | below
  · obtain ⟨r, installed, inRoot⟩ :=
      (isAttached_iff c.forest c.root (hasNode_of_isAttached attached)).1 attached
    rcases within.comparable inRoot with above | below
    · cases c.root.eq_of_within installed above
    · simpa using (within_iff (.top top)).1 below
  · exact differ (by simpa using below.antisymm within)

/-- Every climb from the replacement ends once it hangs under the parent of the target. -/
theorem lineages_of_replacement (f : Forest p) {parent : Node}
    (link : p.enclosing (.expr target) = .ok (some parent))
    (apart : ¬ p.Within (.expr replacement) (.expr target)) (e : ExprId)
    (within : p.Within (.expr replacement) (.expr e)) :
    ∃ above, Lineage (p.graftedEnclosing (some ⟨replacement, some parent⟩)) (.expr e) above ∧
      ∀ n ∈ Node.expr e :: above, p.hasNode n = true :=
  f.lineage_graft (f.hasNode_parent link) (not_within_parent_of_apart f link apart) within.hasNode

/-- What the first checks of a replacement establish. -/
theorem source_of_checks (c : Coherent p) {enclosing : Option Node} {below : Bool}
    (linked : p.enclosing (.expr replacement) = .ok enclosing)
    (lies : p.liesBelow (.expr replacement) (.expr target) = .ok below)
    (accepted : target ≠ replacement ∧ (enclosing.isNone = true ∨ below = true)) :
    p.enclosing (.expr replacement) = .ok none ∨ p.Within (.expr target) (.expr replacement) := by
  rcases accepted.2 with none | yes
  · left
    rw [linked, Option.isNone_iff_eq_none.1 none]
  · right
    obtain ⟨above, lin⟩ := c.forest.ends (hasNode_of_enclosing linked)
    rw [liesBelow_eq lin, yes] at lies
    rw [within_iff lin]
    exact List.mem_cons_of_mem _ (by simpa using lies)

theorem region_of_target (f : Forest p) (live : p.hasNode (.expr target) = true)
    (apart : ¬ p.Within (.expr replacement) (.expr target)) :
    ∃ r, p.region (.expr target) (some replacement) = .ok r ∧
      Covers p r (p.Inside (.expr target) (some replacement)) := by
  refine f.region_eq_ok live ?_
  rintro _ ⟨⟩ within
  exact absurd within apart

/-- The check of a replacement accepts or refuses, and never faults. -/
theorem decides_checkReplace (c : Coherent p) (target replacement : ExprId) :
    Decides (p.checkReplace target replacement) := by
  refine (decides_require _ _).bind fun _ known => ?_
  refine (decides_require _ _).bind fun _ known' => ?_
  have live : p.hasNode (.expr target) = true := require_eq_ok.1 known
  have live' : p.hasNode (.expr replacement) = true := require_eq_ok.1 known'
  obtain ⟨above, lin⟩ := c.forest.ends live
  obtain ⟨above', lin'⟩ := c.forest.ends live'
  obtain ⟨enclosing, linked⟩ := enclosing_ok_iff_hasNode.2 live
  obtain ⟨enclosing', linked'⟩ := enclosing_ok_iff_hasNode.2 live'
  refine (decides_orFault (isAttached_eq lin)).bind fun attached found => ?_
  refine (decides_require _ _).bind fun _ yes => ?_
  refine (decides_orFault linked').bind fun enclosing'' same => ?_
  refine (decides_orFault (liesBelow_eq lin' _)).bind fun below lies => ?_
  refine (decides_require _ _).bind fun _ accepted => ?_
  refine (decides_orFault linked).bind fun parent same' => ?_
  simp only [orFault_eq_ok] at found same same' lies
  obtain rfl : attached = true := require_eq_ok.1 yes
  have accepted := of_decide_eq_true (require_eq_ok.1 accepted)
  have source := source_of_checks c same lies accepted
  have apart := not_within_replacement c found accepted.1 source
  cases parent with
  | none => exact decides_refused _
  | some parent =>
    obtain ⟨r, region, covers⟩ := region_of_target c.forest live apart
    refine (decides_withReason _ (decides_resolveTree c live'
      (lineages_of_replacement c.forest same' apart))).bind fun _ _ => ?_
    refine (decides_orFault region).bind fun r' found => ?_
    rw [orFault_eq_ok, region] at found
    cases found
    exact (refusedOnly_checkSelfContained c.binders covers).decides.bind fun _ _ => decides_pure _

/-- What the check of a replacement accepts can be spliced in. -/
theorem replaceable_of_checkReplace (c : Coherent p)
    (ok : p.checkReplace target replacement = .ok s) : Replaceable p target replacement s := by
  simp only [checkReplace, bind_eq_ok, orFault_eq_ok] at ok
  obtain ⟨⟨⟩, live, ⟨⟩, known, attached, found, ⟨⟩, yes, enclosing, linked, below, lies, ⟨⟩, accepted,
    parent, link, ok⟩ := ok
  have live : p.hasNode (.expr target) = true := require_eq_ok.1 live
  have known : p.hasNode (.expr replacement) = true := require_eq_ok.1 known
  obtain rfl : attached = true := require_eq_ok.1 yes
  have accepted := of_decide_eq_true (require_eq_ok.1 accepted)
  have source := source_of_checks c linked lies accepted
  have apart := not_within_replacement c found accepted.1 source
  cases parent with
  | none => simp at ok
  | some parent =>
    obtain ⟨r, region, covers⟩ := region_of_target c.forest live apart
    simp only [bind_eq_ok, orFault_eq_ok, withReason_eq_ok, pure_eq_ok, region] at ok
    obtain ⟨resolution, resolved, _, same, ⟨⟩, contained, rfl⟩ := ok
    cases same
    exact {
      attached := found
      differ := accepted.1
      known
      link
      apart
      source
      resolves := resolvesTree_of_ok c known resolved
      covers
      contained := (checkSelfContained_eq_ok_iff c.binders covers).1 contained }

/-- If the uses of a replacement resolve at the new place, only a use of what goes can prevent it. -/
theorem checkReplace_eq (c : Coherent p) {parent : Node}
    (attached : p.isAttached (.expr target) = .ok true)
    (link : p.enclosing (.expr target) = .ok (some parent)) (differ : target ≠ replacement)
    (known : p.hasNode (.expr replacement) = true)
    (source : p.enclosing (.expr replacement) = .ok none ∨
      p.Within (.expr target) (.expr replacement))
    (resolves : ∀ {family : Family} {o : OccId family} {entry : OccurrenceEntry family},
      p.occEntry? o = some entry → p.Within (.expr replacement) (.expr entry.holder) →
        ∃ recursivity, p.resolve (some ⟨replacement, some parent⟩) entry.var entry.holder =
          .ok recursivity) :
    ∃ r s, Covers p r (p.Inside (.expr target) (some replacement)) ∧
      p.checkReplace target replacement = p.checkSelfContained r >>= fun _ => .ok s := by
  have f := c.forest
  have live := hasNode_of_isAttached attached
  have apart := not_within_replacement c attached differ source
  obtain ⟨above, lin⟩ := f.ends known
  obtain ⟨enclosing, linked⟩ := enclosing_ok_iff_hasNode.2 known
  have movable : enclosing = none ∨ .expr target ∈ above := by
    rcases source with top | below
    · rw [linked] at top
      cases top
      exact .inl rfl
    · right
      simpa [differ] using (within_iff lin).1 below
  obtain ⟨resolution, resolved⟩ := resolveTree_eq_ok c known resolves
  obtain ⟨r, region, covers⟩ := region_of_target f live apart
  refine ⟨r, ⟨parent, resolution, r⟩, covers, ?_⟩
  simp [checkReplace, require, live, known, attached, link, linked, liesBelow_eq lin, differ,
    movable, resolved, region, orFault, withReason, bind, Except.bind, pure, Except.pure]

/-- Such a replacement passes the checks if what goes is used in what goes only. -/
theorem exists_checkReplace (c : Coherent p)
    (checked : ∃ r s, Covers p r (p.Inside (.expr target) (some replacement)) ∧
      p.checkReplace target replacement = p.checkSelfContained r >>= fun _ => .ok s)
    (keeps : ∀ {family : Family} {v : VarId family} {o : OccId family}
      {entry : OccurrenceEntry family} {n : Node}, p.Inside (.expr target) (some replacement) n →
        ⟨v⟩ ∈ p.bindersOf n → p.occEntry? o = some entry → entry.var = v →
          p.Inside (.expr target) (some replacement) (.expr entry.holder)) :
    ∃ s, p.checkReplace target replacement = .ok s := by
  obtain ⟨r, s, covers, eq⟩ := checked
  have contained : p.checkSelfContained r = .ok () :=
    (checkSelfContained_eq_ok_iff c.binders covers).2 (selfContained_of_gone c.uses covers keeps)
  rw [contained] at eq
  exact ⟨s, eq⟩

/-- A target outside the installed tree is refused. -/
theorem checkReplace_of_unattached (live : p.hasNode (.expr target) = true)
    (known : p.hasNode (.expr replacement) = true)
    (unattached : p.isAttached (.expr target) = .ok false) :
    p.checkReplace target replacement = .error (.refused (.detached (.expr target))) := by
  simp [checkReplace, require, live, known, unattached, orFault, bind, Except.bind]

/-- The program `q` is `p` with the replacement in the place of the target. -/
def Replaced (p : Program) (target replacement : ExprId) (q : Program) : Prop :=
  ∃ s, Replaceable p target replacement s ∧ Pruned p (p.replaceCut target replacement s.parent) q

theorem Replaced.trimmed {q : Program} (replaced : Replaced p target replacement q)
    (c : Coherent p) : Trimmed p q := by
  obtain ⟨s, replaceable, pruned⟩ := replaced
  exact ⟨_, replaceable.clean c, pruned⟩

/-- A replacement is made as a whole, or leaves the program as it was. -/
theorem ends_replace (c : Coherent p) (target replacement : ExprId) :
    (p.replace target replacement).Ends p (Replaced p target replacement) := by
  refine Outcome.ends_commit (decides_checkReplace c target replacement) fun s accepted => ?_
  have replaceable := replaceable_of_checkReplace c accepted
  refine Outcome.ends_after (replaceable.runs_splice c) fun _ q pruned => ?_
  exact Outcome.ends_verified ⟨s, replaceable, pruned⟩ pruned.verifying

/-! ## Replacements by a part -/

theorem decides_checkDeadLet (c : Coherent p) (e : ExprId) : Decides (p.checkDeadLet e) := by
  unfold checkDeadLet
  cases read : p.expressions.get? e with
  | none => exact decides_refused _
  | some entry =>
    obtain ⟨shape, _⟩ := entry
    cases shape with
    | letIn v value body =>
      have shape : p.shapeOf? e = some (.letIn v value body) := by simp [shapeOf?, read]
      obtain ⟨_, -, uses⟩ := uses_ok (c.hasVariable_of_let shape)
      refine (decides_orFault uses).bind fun _ _ => ?_
      exact (decides_require _ _).bind fun _ _ => decides_pure _
    | _ => exact decides_refused _

/-- A let is dead if its variable is not used anywhere. -/
theorem checkDeadLet_eq_ok_iff (c : Coherent p) {e body : ExprId} :
    p.checkDeadLet e = .ok body ↔
      ∃ v value, p.shapeOf? e = some (.letIn v value body) ∧ ∀ o, ¬ p.Lists v o := by
  unfold checkDeadLet
  cases read : p.expressions.get? e with
  | none => simp [shapeOf?, read]
  | some entry =>
    obtain ⟨shape, _⟩ := entry
    have found : p.shapeOf? e = some shape := by simp [shapeOf?, read]
    cases shape with
    | letIn v value body' =>
      obtain ⟨entry, known, uses⟩ := uses_ok (c.hasVariable_of_let found)
      have unused : entry.occurrences.toList.isEmpty = true ↔ ∀ o, ¬ p.Lists v o := by
        simp [Lists, known, HandleSet.mem_def, List.eq_nil_iff_forall_not_mem]
      simp only [uses, bind_eq_ok, orFault_eq_ok, pure_eq_ok]
      constructor
      · rintro ⟨_, same, ⟨⟩, empty, rfl⟩
        cases same
        exact ⟨v, value, found, unused.1 (require_eq_ok.1 empty)⟩
      · rintro ⟨v', value', found', none⟩
        rw [found] at found'
        cases found'
        exact ⟨_, rfl, (), require_eq_ok.2 (unused.2 none), rfl⟩
    | _ => simp [found]

/-- The program `q` is `p` without the let, whose variable was not used. -/
def LetRemoved (p : Program) (e : ExprId) (q : Program) : Prop :=
  ∃ v value body, p.shapeOf? e = some (.letIn v value body) ∧ (∀ o, ¬ p.Lists v o) ∧
    Replaced p e body q

theorem LetRemoved.trimmed {e : ExprId} {q : Program} (removed : LetRemoved p e q)
    (c : Coherent p) : Trimmed p q := by
  obtain ⟨v, value, body, -, -, replaced⟩ := removed
  exact replaced.trimmed c

/-- Removing a binding puts its body in its place, or leaves the program as it was. -/
theorem ends_removeDeadLet (c : Coherent p) (e : ExprId) :
    (p.removeDeadLet e).Ends p (LetRemoved p e) := by
  refine Outcome.ends_commit (decides_checkDeadLet c e) fun body accepted => ?_
  obtain ⟨v, value, read, unused⟩ := (checkDeadLet_eq_ok_iff c).1 accepted
  exact ((ends_replace c e body).mono fun _ replaced =>
    ⟨v, value, body, read, unused, replaced⟩).answer

/-- Selecting a branch puts it in the place of the case, or leaves the program as it was. -/
theorem ends_selectCaseBranch (c : Coherent p) (e : ExprId) (tag : Nat) :
    (p.selectCaseBranch e tag).Ends p (Trimmed p) := by
  refine Outcome.ends_commit ?_ fun branch _ =>
    ((ends_replace c e branch).mono fun _ replaced => replaced.trimmed c).answer
  intro fault
  unfold checkBranch
  split
  · simp
  · split
    · split <;> simp
    · simp

/-- The program `q` is `p` without the definition. With the last member its group went. -/
def DefinitionRemoved (p : Program) (d : DefId) (q : Program) : Prop :=
  ∃ r, Dead p d r ∧
    (r.members.length = 1 ∧ Replaced p r.group r.body q ∨
      r.members.length ≠ 1 ∧ Pruned p (p.treeCut (.defn d) (some d)) q)

theorem DefinitionRemoved.trimmed {d : DefId} {q : Program} (removed : DefinitionRemoved p d q)
    (c : Coherent p) : Trimmed p q := by
  obtain ⟨r, dead, ⟨-, replaced⟩ | ⟨several, pruned⟩⟩ := removed
  · exact replaced.trimmed c
  · exact ⟨_, (dead.removable c several).clean c, pruned⟩

/-- Removing a definition takes it out of its group, or leaves the program as it was. -/
theorem ends_removeDeadDefinition (c : Coherent p) (d : DefId) :
    (p.removeDeadDefinition d).Ends p (DefinitionRemoved p d) := by
  refine Outcome.ends_commit (decides_checkDeadDefinition c d) fun r accepted => ?_
  have dead := dead_of_checkDeadDefinition c accepted
  split
  · next alone =>
    exact (ends_replace c r.group r.body).mono fun _ replaced => ⟨r, dead, .inl ⟨alone, replaced⟩⟩
  · next several =>
    exact (ends_shrink c dead).mono fun _ pruned => ⟨r, dead, .inr ⟨several, pruned⟩⟩

end Replace

end Program

end ContinuationIR
