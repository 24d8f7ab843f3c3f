import Mathlib.Data.List.Pairwise
import ContinuationIR.Proofs.Cut
import ContinuationIR.Proofs.Demolition

/-!
# Pruning

What a cut leaves, seen part by part: the nodes that stay have their children but for those that go,
bind what they bound but for what is lost and hold what they held. If the cut is clean, a consistent
program stays consistent.
-/

namespace ContinuationIR
set_option autoImplicit false

namespace Program

/-- The recursivity of an occurrence that stays: computed for the new place if it was moved, else as
it was. -/
def Retagged (p : Program) (cut : Cut) {family : Family} (entry : OccurrenceEntry family)
    (recursivity : Recursivity) : Prop :=
  (∃ s, cut.swap = some s ∧ p.Within (.expr s.replacement) (.expr entry.holder) ∧
      p.resolve cut.graft entry.var entry.holder = .ok recursivity) ∨
    recursivity = entry.recursivity ∧
      ∀ s, cut.swap = some s → ¬ p.Within (.expr s.replacement) (.expr entry.holder)

/-- The program `q` is `p` after the cut. -/
structure Pruned (p : Program) (cut : Cut) (q : Program) : Prop where
  root : q.root = p.root
  verifying : q.verifying = p.verifying
  dead : ∀ {n : Node}, cut.gone n → q.hasNode n = false
  enclosing : ∀ {n : Node}, ¬ cut.gone n → q.enclosing n = p.graftedEnclosing cut.graft n
  shape : ∀ {e : ExprId}, ¬ cut.gone (.expr e) → q.shapeOf? e = (p.shapeOf? e).map cut.shape
  definition : ∀ {d : DefId}, ¬ cut.gone (.defn d) →
    q.definitionOf? d = (p.definitionOf? d).map cut.definition
  kept : ∀ {family : Family} {o : OccId family} {entry : OccurrenceEntry family},
    p.occEntry? o = some entry → ¬ cut.gone (.expr entry.holder) →
      ∃ recursivity, q.occEntry? o = some { entry with recursivity } ∧
        p.Retagged cut entry recursivity
  known : ∀ {family : Family} {o : OccId family} {entry : OccurrenceEntry family},
    q.occEntry? o = some entry → ∃ old, p.occEntry? o = some old ∧ ¬ cut.gone (.expr old.holder)
  lists : ∀ {family : Family} {v : VarId family} {o : OccId family},
    q.Lists v o ↔ p.Lists v o ∧ (q.occEntry? o).isSome = true ∧ ¬ p.Lost cut.gone ⟨v⟩
  freed : ∀ {family : Family} {v : VarId family}, p.Lost cut.gone ⟨v⟩ → q.kindOf? v = none
  binding : ∀ {family : Family} {v : VarId family}, ¬ p.Lost cut.gone ⟨v⟩ →
    q.bindingOf? v = p.bindingOf? v
  kind : ∀ {family : Family} {v : VarId family}, ¬ p.Lost cut.gone ⟨v⟩ → q.kindOf? v = p.kindOf? v

namespace Pruned

variable {family : Family} {p q : Program} {cut : Cut} {n : Node}

/-- A node that stays has the ancestors that the links with the graft give it. -/
theorem lineage (h : Pruned p cut q) (clean : Clean p cut) {above : List Node}
    (lin : Lineage (p.graftedEnclosing cut.graft) n above) (stays : ¬ cut.gone n) :
    Lineage q.enclosing n above :=
  lin.congr fun m mem => h.enclosing (clean.stays lin stays m mem)

/-- What is live afterwards was not cut away. -/
theorem stays (h : Pruned p cut q) (live : q.hasNode n = true) : ¬ cut.gone n := by
  intro gone
  rw [h.dead gone] at live
  cases live

/-- A node that stays is live afterwards when it was live before. -/
theorem hasNode (h : Pruned p cut q) (stays : ¬ cut.gone n) : q.hasNode n = p.hasNode n := by
  cases n with
  | expr e => rw [hasNode_expr, hasNode_expr, h.shape stays, Option.isSome_map]
  | defn d => rw [hasNode_defn, hasNode_defn, h.definition stays, Option.isSome_map]

/-- The variables that remain are those that no lost node binds. -/
theorem hasVariable_iff (h : Pruned p cut q) {v : VarId family} :
    q.hasVariable v = true ↔ p.hasVariable v = true ∧ ¬ p.Lost cut.gone ⟨v⟩ := by
  by_cases lost : p.Lost cut.gone ⟨v⟩
  · simp [hasVariable_eq, h.freed lost, lost]
  · simp [hasVariable_eq, h.kind lost, lost]

/-- The occurrences that remain are those whose holder stays. -/
theorem hasOccurrence_iff (h : Pruned p cut q) {o : OccId family} :
    q.hasOccurrence o = true ↔
      ∃ entry, p.occEntry? o = some entry ∧ ¬ cut.gone (.expr entry.holder) := by
  constructor
  · intro live
    obtain ⟨entry, read⟩ := Slots.contains_iff.1 live
    exact h.known read
  · rintro ⟨entry, read, stays⟩
    obtain ⟨recursivity, after, -⟩ := h.kept read stays
    exact Slots.contains_iff.2 ⟨_, after⟩

/-! ## The parts of the nodes that stay -/

/-- A node that stays keeps its children, less those that go. -/
theorem childrenOf (h : Pruned p cut q) (stays : ¬ cut.gone n) :
    q.childrenOf n = (p.childrenOf n).filterMap cut.child? := by
  cases live : p.hasNode n with
  | false =>
    rw [childrenOf_of_dead live, childrenOf_of_dead ((h.hasNode stays).trans live)]
    rfl
  | true =>
    cases n with
    | expr e =>
      obtain ⟨shape, read⟩ := Option.isSome_iff_exists.1 (hasNode_expr p e ▸ live)
      have after := h.shape stays
      rw [read] at after
      rw [childrenOf_expr read, childrenOf_expr after, cut.children_shape]
    | defn d =>
      obtain ⟨definition, read⟩ := Option.isSome_iff_exists.1 (hasNode_defn p d ▸ live)
      have after := h.definition stays
      rw [read] at after
      rw [childrenOf_defn read, childrenOf_defn after]
      rfl

/-- A node that stays holds the occurrences it held. -/
theorem usesOf (h : Pruned p cut q) (stays : ¬ cut.gone n) : q.usesOf n = p.usesOf n := by
  cases n with
  | defn d => rw [usesOf_defn, usesOf_defn]
  | expr e =>
    have after := h.shape stays
    cases read : p.shapeOf? e with
    | none =>
      rw [read] at after
      rw [usesOf_of_dead, usesOf_of_dead] <;> simp [hasNode_expr, read, after]
    | some shape =>
      rw [read] at after
      rw [usesOf_expr read, usesOf_expr after, cut.uses_shape]

theorem nameOf (h : Pruned p cut q) {d : DefId} (stays : ¬ cut.gone (.defn d)) :
    q.nameOf family d = p.nameOf family d := by
  rw [Program.nameOf, h.definition stays, Program.nameOf]
  cases p.definitionOf? d <;> rfl

theorem groupOf (h : Pruned p cut q) (stays : ¬ cut.gone n) : q.groupOf n = p.groupOf n := by
  cases n with
  | defn d => rfl
  | expr e =>
    rw [groupOf_expr, groupOf_expr, h.shape stays]
    cases p.shapeOf? e with
    | none => rfl
    | some shape => cases shape <;> rfl

theorem roleAt (h : Pruned p cut q) (stays : ¬ cut.gone n) :
    q.roleAt family n = p.roleAt family n := by
  cases n with
  | defn d => rfl
  | expr e => simp only [Program.roleAt, h.groupOf stays]

theorem stopsContinuations (h : Pruned p cut q) (stays : ¬ cut.gone n) :
    q.stopsContinuations n = p.stopsContinuations n := by
  cases n with
  | expr e => rfl
  | defn d =>
    rw [stopsContinuations_defn, stopsContinuations_defn, h.definition stays]
    cases p.definitionOf? d <;> rfl

/-! ## The forest -/

/-- Cutting away trees and grafting another in their place leaves a forest. The graft is not a child
of a node that stays, so it is met once. -/
theorem forest (h : Pruned p cut q) (clean : Clean p cut) (f : Forest p) : Forest q := by
  constructor
  case link =>
    intro n child mem
    have stays := h.stays (hasNode_of_child mem)
    rw [h.childrenOf stays, List.mem_filterMap] at mem
    obtain ⟨c, mem, becomes⟩ := mem
    have link := f.link mem
    rcases cut.child?_eq_some becomes with rfl | ⟨s, swap, rfl, rfl⟩
    · have here := fun gone => clean.up link stays gone becomes
      rw [h.enclosing here, clean.graftedEnclosing_of_link link stays, link]
    · rw [h.enclosing (clean.replacement swap).1, graftedEnclosing_replacement swap]
      exact (clean.target swap).symm.trans link
  case listed =>
    intro n parent link
    have stays := h.stays (hasNode_of_enclosing link)
    rw [h.enclosing stays] at link
    by_cases moved : ∃ s, cut.swap = some s ∧ n = .expr s.replacement
    · obtain ⟨s, swap, rfl⟩ := moved
      rw [graftedEnclosing_replacement swap] at link
      cases link
      rw [h.childrenOf (clean.parent swap).1, List.mem_filterMap]
      exact ⟨_, f.listed (clean.target swap), cut.child?_target swap⟩
    · rw [graftedEnclosing_of_ne fun s swap eq => moved ⟨s, swap, eq⟩] at link
      have above : ¬ cut.gone parent := fun gone => moved (clean.down link gone stays)
      rw [h.childrenOf above, List.mem_filterMap]
      refine ⟨n, f.listed link, ?_⟩
      by_contra leaves
      exact stays (clean.leaves leaves)
  case once =>
    intro n
    by_cases gone : cut.gone n
    · rw [childrenOf_of_dead (h.dead gone)]
      exact List.nodup_nil
    · rw [h.childrenOf gone]
      refine List.pairwise_filterMap.2 ((f.once n).imp_of_mem ?_)
      intro a b memA memB ne a' becomesA b' becomesB eq
      subst eq
      have new {c : Node} {s : Swap} (swap : cut.swap = some s) (mem : c ∈ p.childrenOf n) :
          c ≠ .expr s.replacement := by
        rintro rfl
        exact gone ((clean.replacement swap).2.2 n (f.link mem))
      rcases cut.child?_eq_some becomesA with rfl | ⟨s, swap, rfl, rfl⟩ <;>
        rcases cut.child?_eq_some becomesB with eq | ⟨s', swap', rfl, eq⟩
      · exact ne eq.symm
      · exact new swap' memA eq
      · exact new swap memB eq
      · rw [swap] at swap'
        cases swap'
        exact ne rfl
  case ends =>
    intro n live
    have stays := h.stays live
    obtain ⟨above, lin, -⟩ := clean.lineage f (h.hasNode stays ▸ live)
    exact ⟨above, h.lineage clean lin stays⟩

/-! ## Occurrences -/

/-- What an occurrence was before the cut. -/
theorem entry (h : Pruned p cut q) {o : OccId family} {entry : OccurrenceEntry family}
    (read : q.occEntry? o = some entry) :
    ∃ old, p.occEntry? o = some old ∧ ¬ cut.gone (.expr old.holder) ∧ entry.var = old.var ∧
      entry.holder = old.holder ∧ p.Retagged cut old entry.recursivity := by
  obtain ⟨old, found, stays⟩ := h.known read
  obtain ⟨recursivity, after, tag⟩ := h.kept found stays
  rw [read] at after
  cases after
  exact ⟨old, found, stays, rfl, rfl, tag⟩

/-- After a cut the lists of uses are again those of the nodes that remain. -/
theorem usesIndexed (h : Pruned p cut q) (clean : Clean p cut) (u : UsesIndexed p) :
    UsesIndexed q := by
  constructor
  case holder =>
    intro family o n mem
    have stays := h.stays (hasNode_of_use mem)
    rw [h.usesOf stays] at mem
    obtain ⟨entry, read, rfl⟩ := u.holder mem
    obtain ⟨recursivity, after, -⟩ := h.kept read stays
    exact ⟨_, after, rfl⟩
  case held =>
    intro family o entry read
    obtain ⟨old, found, stays, -, holder, -⟩ := h.entry read
    rw [holder, h.usesOf stays]
    exact u.held found
  case once =>
    intro n
    by_cases gone : cut.gone n
    · rw [usesOf_of_dead (h.dead gone)]
      exact List.nodup_nil
    · rw [h.usesOf gone]
      exact u.once n
  case listed =>
    intro family o entry read
    obtain ⟨old, found, stays, var, -, -⟩ := h.entry read
    rw [var, h.lists]
    exact ⟨u.listed found, by simp [read], fun lost => stays (clean.unused lost found rfl)⟩
  case refers =>
    intro family v o lists
    obtain ⟨listed, live, -⟩ := h.lists.1 lists
    obtain ⟨entry, read⟩ := Option.isSome_iff_exists.1 live
    obtain ⟨old, found, -, var, -, -⟩ := h.entry read
    obtain ⟨old', found', eq⟩ := u.refers listed
    rw [found] at found'
    cases found'
    exact ⟨entry, read, var.trans eq⟩

/-! ## Binders -/

/-- Names of different members are different. -/
theorem member_unique {f : DefId → Option Binder} {members : List DefId} {d d' : DefId} {b : Binder}
    (distinct : (members.filterMap f).Nodup) (mem : d ∈ members) (mem' : d' ∈ members)
    (name : f d = some b) (name' : f d' = some b) : d = d' := by
  by_contra ne
  obtain ⟨front, back, rfl⟩ := List.append_of_mem mem
  rw [List.filterMap_append, List.filterMap_cons_some name, List.nodup_middle, List.nodup_cons,
    ← List.filterMap_append] at distinct
  refine distinct.1 (List.mem_filterMap.2 ⟨d', ?_, name'⟩)
  simpa [Ne.symm ne] using mem'

/-- What a node that stays binds is only lost as the name of a member that goes. -/
theorem exists_member_of_lost (b : BindersIndexed p) {binder : Binder} (mem : binder ∈ p.bindersOf n)
    (stays : ¬ cut.gone n) (lost : p.Lost cut.gone binder) :
    ∃ d, cut.gone (.defn d) ∧ .defn d ∈ p.childrenOf n ∧
      p.nameOf binder.family d = some binder.var := by
  obtain ⟨m, mem', gone | member⟩ := lost
  · exact absurd (b.site_unique mem mem' ▸ gone) stays
  · exact b.site_unique mem mem' ▸ member

theorem bindersOf_of_same (b : BindersIndexed p) (stays : ¬ cut.gone n)
    (same : q.bindersOf n = p.bindersOf n) (noMember : ∀ d, .defn d ∉ p.childrenOf n) :
    (q.bindersOf n).Sublist (p.bindersOf n) ∧
      ∀ binder, binder ∈ q.bindersOf n ↔ binder ∈ p.bindersOf n ∧ ¬ p.Lost cut.gone binder := by
  rw [same]
  refine ⟨.refl _, fun binder => ⟨fun mem => ⟨mem, fun lost => ?_⟩, fun h => h.1⟩⟩
  obtain ⟨d, -, child, -⟩ := exists_member_of_lost b mem stays lost
  exact noMember d child

/-- A group that stays loses exactly the binders of the members that go. -/
theorem bindersOf_group (h : Pruned p cut q) (clean : Clean p cut) (f : Forest p)
    (b : BindersIndexed p) {e : ExprId} {family : Family} {members : List DefId} {body : ExprId}
    (read : p.shapeOf? e = some (.group family members body)) (stays : ¬ cut.gone (.expr e)) :
    (q.bindersOf (.expr e)).Sublist (p.bindersOf (.expr e)) ∧ ∀ binder,
      binder ∈ q.bindersOf (.expr e) ↔
        binder ∈ p.bindersOf (.expr e) ∧ ¬ p.Lost cut.gone binder := by
  have here : p.bindersOf (.expr e) =
      members.filterMap fun d => (p.nameOf family d).map fun v => ⟨v⟩ := bindersOf_expr read
  have there : q.bindersOf (.expr e) = (members.filter fun d => cut.member ≠ some d).filterMap
      fun d => (p.nameOf family d).map fun v => ⟨v⟩ := by
    have after := h.shape stays
    rw [read] at after
    refine (bindersOf_expr after).trans (List.filterMap_congr fun d mem => ?_)
    obtain ⟨member, remains⟩ := List.mem_filter.1 mem
    rw [h.nameOf (clean.member_stays f read stays member (by simpa using remains))]
  rw [there]
  refine ⟨here ▸ List.filter_sublist.filterMap _, fun binder => ?_⟩
  simp only [List.mem_filterMap, List.mem_filter, decide_eq_true_eq]
  constructor
  · rintro ⟨d, ⟨member, remains⟩, name⟩
    have mem : binder ∈ p.bindersOf (.expr e) := here ▸ List.mem_filterMap.2 ⟨d, member, name⟩
    refine ⟨mem, fun lost => ?_⟩
    -- a member that goes would have the same name as one that stays
    obtain ⟨d', gone, child, name'⟩ := exists_member_of_lost b mem stays lost
    obtain ⟨v, named, rfl⟩ := Option.map_eq_some_iff.1 name
    have distinct := b.once (.expr e)
    rw [here] at distinct
    have member' : d' ∈ members := by simpa [childrenOf_expr read, Shape.children] using child
    have same := member_unique distinct member member' name (by simp [name'])
    exact clean.member_stays f read stays member remains (same ▸ gone)
  · rintro ⟨mem, kept⟩
    rw [here] at mem
    obtain ⟨d, member, name⟩ := List.mem_filterMap.1 mem
    refine ⟨d, ⟨member, fun leaving => kept ?_⟩, name⟩
    obtain ⟨v, named, rfl⟩ := Option.map_eq_some_iff.1 name
    refine ⟨.expr e, here ▸ mem, .inr ⟨d, ?_, ?_, named⟩⟩
    · exact clean.leaves (by simp [Cut.child?, leaving])
    · rw [childrenOf_expr read]
      simp [Shape.children, member]

/-- A node that stays binds what it bound, without what is lost. -/
theorem bindersOf (h : Pruned p cut q) (clean : Clean p cut) (f : Forest p) (b : BindersIndexed p)
    (stays : ¬ cut.gone n) : (q.bindersOf n).Sublist (p.bindersOf n) ∧
      ∀ binder, binder ∈ q.bindersOf n ↔ binder ∈ p.bindersOf n ∧ ¬ p.Lost cut.gone binder := by
  cases live : p.hasNode n with
  | false =>
    simp [bindersOf_of_dead live, bindersOf_of_dead ((h.hasNode stays).trans live)]
  | true =>
    cases n with
    | defn d =>
      obtain ⟨definition, read⟩ := Option.isSome_iff_exists.1 (hasNode_defn p d ▸ live)
      have after := h.definition stays
      rw [read] at after
      refine bindersOf_of_same b stays ?_ ?_
      · rw [bindersOf_defn read, bindersOf_defn after]
        rfl
      · simp [childrenOf_defn read]
    | expr e =>
      obtain ⟨shape, read⟩ := Option.isSome_iff_exists.1 (hasNode_expr p e ▸ live)
      have after := h.shape stays
      rw [read] at after
      cases shape with
      | group family members body => exact h.bindersOf_group clean f b read stays
      | _ =>
        refine bindersOf_of_same b stays ?_ ?_
        · rw [bindersOf_expr read, bindersOf_expr after]
          rfl
        · simp [childrenOf_expr read, Shape.children]

theorem kept_of_bound (h : Pruned p cut q) {v : VarId family} {binding : Binding}
    (bound : q.bindingOf? v = some binding) : ¬ p.Lost cut.gone ⟨v⟩ := by
  intro lost
  have live := hasVariable_of_bindingOf? bound
  rw [hasVariable_eq, h.freed lost] at live
  cases live

/-- After a cut the recorded bindings are again those of the nodes that remain. -/
theorem bindersIndexed (h : Pruned p cut q) (clean : Clean p cut) (f : Forest p)
    (b : BindersIndexed p) : BindersIndexed q := by
  constructor
  case binding =>
    intro family v n mem
    have stays := h.stays (hasNode_of_binder mem)
    obtain ⟨mem, kept⟩ := ((h.bindersOf clean f b stays).2 _).1 mem
    rw [h.binding kept]
    exact b.binding mem
  case site =>
    intro family v binding bound
    have kept := h.kept_of_bound bound
    rw [h.binding kept] at bound
    have mem := b.site bound
    have stays : ¬ cut.gone binding.site := fun gone => kept ⟨_, mem, .inl gone⟩
    exact ((h.bindersOf clean f b stays).2 _).2 ⟨mem, kept⟩
  case once =>
    intro n
    by_cases gone : cut.gone n
    · rw [bindersOf_of_dead (h.dead gone)]
      exact List.nodup_nil
    · exact (b.once n).sublist (h.bindersOf clean f b gone).1

/-! ## The root and the scope -/

/-- The root is not among the nodes that go, and is still at the top of its tree. -/
theorem rootStands (h : Pruned p cut q) (clean : Clean p cut) (root : RootStands p) :
    RootStands q := by
  intro r installed
  rw [h.root] at installed
  rw [h.enclosing (clean.root installed), graftedEnclosing_of_ne (by simp), root r installed]

/-- A use that stays resolves as it was foreseen before the cut. -/
theorem resolve_of_graft (h : Pruned p cut q) (clean : Clean p cut) (c : Coherent p) {o : OccId family}
    {entry : OccurrenceEntry family} {recursivity : Recursivity} (read : p.occEntry? o = some entry)
    (stays : ¬ cut.gone (.expr entry.holder))
    (resolved : p.resolve cut.graft entry.var entry.holder = .ok recursivity) :
    q.resolve none entry.var entry.holder = .ok recursivity := by
  have kept : ¬ p.Lost cut.gone ⟨entry.var⟩ := fun lost => stays (clean.unused lost read rfl)
  obtain ⟨above, lin, alive⟩ := clean.lineage c.forest (hasNode_of_use (c.uses.held read))
  have crossing := clean.stays lin stays
  exact resolve_transfer resolved (h.binding kept) lin (h.lineage clean lin stays) alive
    fun m mem => h.stopsContinuations (crossing m (List.mem_cons_of_mem _ mem))

/-- Every use that remains is still under its binder. -/
theorem inScope (h : Pruned p cut q) (clean : Clean p cut) (c : Coherent p) (scope : Scoped p) :
    Scoped q := by
  intro family o entry read attached
  obtain ⟨old, found, stays, var, holder, tag⟩ := h.entry read
  rw [holder] at attached
  rw [var, holder]
  rcases tag with ⟨s, -, -, resolved⟩ | ⟨same, outside⟩
  · exact h.resolve_of_graft clean c found stays resolved
  · have kept : ¬ p.Lost cut.gone ⟨old.var⟩ := fun lost => stays (clean.unused lost found rfl)
    obtain ⟨above, lin⟩ := c.forest.ends (hasNode_of_use (c.uses.held found))
    have unmoved : Lineage (p.graftedEnclosing cut.graft) (.expr old.holder) above := by
      refine lin.congr fun m mem => graftedEnclosing_of_ne fun s swap eq => ?_
      subst eq
      exact outside s swap ((within_iff lin).2 mem)
    have after := h.lineage clean unmoved stays
    have crossing := clean.stays unmoved stays
    have before : p.isAttached (.expr old.holder) = .ok true := by
      rw [← attached, isAttached_eq lin, isAttached_eq after]
      simp only [isRoot, h.root]
    rw [same]
    exact resolve_transfer (scope found before) (h.binding kept) lin after
      (hasNode_of_lineage lin) fun m mem => h.stopsContinuations (crossing m (List.mem_cons_of_mem _ mem))

/-! ## The rules for single nodes -/

/-- A use that remains has the kind it had. -/
theorem kindAt? (h : Pruned p cut q) (clean : Clean p cut) (u : UsesIndexed p)
    (stays : ¬ cut.gone n) {o : OccId .value} (mem : ⟨o⟩ ∈ p.usesOf n) :
    q.kindAt? o = p.kindAt? o := by
  obtain ⟨entry, read, rfl⟩ := u.holder mem
  obtain ⟨recursivity, after, -⟩ := h.kept read stays
  rw [kindAt?_eq, kindAt?_eq, read, after, Option.bind_some, Option.bind_some]
  exact h.kind fun lost => stays (clean.unused lost read rfl)

theorem kind_of_binder (h : Pruned p cut q) (clean : Clean p cut) (c : Coherent p)
    (stays : ¬ cut.gone n) {v : VarId family} (mem : ⟨v⟩ ∈ q.bindersOf n) :
    q.kindOf? v = p.kindOf? v :=
  h.kind (((h.bindersOf clean c.forest c.binders stays).2 _).1 mem).2

/-- An expression that stays obeys the rules for its shape after the cut. -/
theorem obeys_expr (h : Pruned p cut q) (clean : Clean p cut) (c : Coherent p) {e : ExprId}
    {shape : Shape} (read : p.shapeOf? e = some shape) (stays : ¬ cut.gone (.expr e)) :
    q.shapeViolations e (cut.shape shape) = [] := by
  have clear := c.obey (.expr e) shape read
  have after := h.shape stays
  rw [read, Option.map_some] at after
  have uses (o : OccId .value) (mem : ⟨o⟩ ∈ shape.uses) : q.kindAt? o = p.kindAt? o :=
    h.kindAt? clean c.uses stays (by rwa [usesOf_expr read])
  cases shape with
  | group family members body =>
    show q.groupViolations e family (members.filter fun d => cut.member ≠ some d) = []
    simp only [shapeViolations, groupViolations_eq, List.filterMap_eq_nil_iff] at clear ⊢
    intro d mem
    obtain ⟨member, remains⟩ := List.mem_filter.1 mem
    have stay := clean.member_stays c.forest read stays member (by simpa using remains)
    rw [h.definition stay]
    refine Eq.trans ?_ (clear d member)
    cases p.definitionOf? d <;> rfl
  | caseOf scrutinee map otherwise =>
    simp only [shapeViolations, caseViolations, Cut.shape, Shape.contract, CaseMap.tags_map, CaseMap.validate_map,
      Option.isSome_map, uses scrutinee (by simp [Shape.uses])] at clear ⊢
    exact clear
  | letIn v value body =>
    have bound : ⟨v⟩ ∈ q.bindersOf (.expr e) := by
      rw [bindersOf_expr after]
      simp [Cut.shape, Shape.contract, shapeBinders]
    refine Eq.trans ?_ clear
    refine (shapeViolations_congr (fun w mem => ?_) uses (by simp [Shape.members]) :
      q.shapeViolations e (.letIn v value body) = p.shapeViolations e (.letIn v value body))
    obtain rfl : w = v := by simpa [shapeBinders] using mem
    exact h.kind_of_binder clean c stays bound
  | _ => rfl

/-- A cut breaks none of the rules for single nodes. -/
theorem obeys (h : Pruned p cut q) (clean : Clean p cut) (c : Coherent p) : q.Obeys n := by
  by_cases gone : cut.gone n
  · have dead := h.dead gone
    cases n with
    | expr e => simp_all [Obeys, hasNode_expr]
    | defn d => simp_all [Obeys, hasNode_defn]
  · cases n with
    | expr e =>
      intro shape' after
      rw [h.shape gone] at after
      obtain ⟨shape, read, rfl⟩ := Option.map_eq_some_iff.1 after
      exact h.obeys_expr clean c read gone
    | defn d =>
      intro definition' after
      have bound {v : VarId .value} (mem : v ∈ definition'.parameters) :
          q.kindOf? v = p.kindOf? v := by
        refine h.kind_of_binder clean c gone ?_
        rw [bindersOf_defn after]
        simp [Definition.binders, mem]
      rw [h.definition gone] at after
      obtain ⟨definition, read, rfl⟩ := Option.map_eq_some_iff.1 after
      rw [definitionViolations_congr (p := p) fun v mem => bound mem]
      exact c.obey (.defn d) definition read

/-! ## The whole -/

/-- A clean cut of a coherent program is coherent. -/
theorem coherent (h : Pruned p cut q) (clean : Clean p cut) (c : Coherent p) : Coherent q where
  forest := h.forest clean c.forest
  uses := h.usesIndexed clean c.uses
  binders := h.bindersIndexed clean c.forest c.binders
  obey _ := h.obeys clean c
  root := h.rootStands clean c.root

/-- What is still bound is recorded as before, at a site that stays. -/
theorem binding_before (h : Pruned p cut q) (b : BindersIndexed p) {v : VarId family}
    {binding : Binding} (bound : q.bindingOf? v = some binding) :
    p.bindingOf? v = some binding ∧ ¬ cut.gone binding.site := by
  have kept := h.kept_of_bound bound
  rw [h.binding kept] at bound
  exact ⟨bound, fun gone => kept ⟨_, b.site bound, .inl gone⟩⟩

theorem peopled (h : Pruned p cut q) (clean : Clean p cut) (peopled : Peopled p) : Peopled q := by
  intro e family members body read
  have stays := h.stays (n := .expr e) (by simp [hasNode_expr, read])
  rw [h.shape stays] at read
  obtain ⟨shape, found, eq⟩ := Option.map_eq_some_iff.1 read
  cases shape with
  | group family' members' body' =>
    cases eq
    obtain ⟨d, mem, remains⟩ := clean.peopled found stays (peopled found)
    exact List.ne_nil_of_mem (List.mem_filter.2 ⟨mem, by simpa using remains⟩)
  | _ => cases eq

/-- A clean cut keeps a program consistent. -/
theorem consistent (h : Pruned p cut q) (clean : Clean p cut) (c : Consistent p) : Consistent q where
  toCoherent := h.coherent clean c.toCoherent
  inScope := h.inScope clean c.toCoherent c.inScope
  roles bound := by
    obtain ⟨before, stays⟩ := h.binding_before c.binders bound
    rw [c.roles before, h.roleAt stays]
  peopled := h.peopled clean c.peopled
  rootKind r installed := by
    rw [h.root] at installed
    obtain ⟨definition, read, kind⟩ := c.rootKind r installed
    exact ⟨cut.definition definition, by rw [h.definition (clean.root installed), read]; rfl, kind⟩

end Pruned

/-- The program `q` is `p` after some clean cut. -/
def Trimmed (p q : Program) : Prop := ∃ cut, Clean p cut ∧ Pruned p cut q

end Program

end ContinuationIR
