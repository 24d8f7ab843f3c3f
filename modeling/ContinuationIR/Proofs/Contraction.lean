import ContinuationIR.Proofs.Lifting
import ContinuationIR.Proofs.Persistence

/-!
# Contractions

A program is contracted if nodes go, and with them what they bind and hold, and nothing else
changes: a node that stays has the nodes above it that it had, without those that went, and what is
left below it moves up to it. Definitions go with all that is below them. Contractions follow on
each other, and which nodes are left determines all the rest.
-/

namespace ContinuationIR
set_option autoImplicit false

namespace Lineage

/-- The first node of a lineage is what the node is linked to. -/
theorem link_eq {link : Node → Except Fault (Option Node)} {node : Node} {above : List Node}
    (lin : Lineage link node above) : link node = .ok above.head? := by
  cases lin with
  | top free => exact free
  | up up _ => exact up

end Lineage

namespace Program

variable {family : Family} {p q r : Program} {place next : ExprId → ExprId} {n head : Node}

/-- A program is its tables, its root and whether it is verifying. -/
theorem eq_of_tables (expressions : q.expressions = r.expressions)
    (definitions : q.definitions = r.definitions)
    (table : ∀ family, q.table family = r.table family) (root : q.root = r.root)
    (verifying : q.verifying = r.verifying) : q = r := by
  have values : q.values = r.values := table .value
  have continuations : q.continuations = r.continuations := table .continuation
  cases q
  cases r
  simp_all

/-- A variable that is bound where it was differs in its occurrences only. -/
theorem Later.exists_varEntry? (later : Later p q) {v : VarId family} {entry : VariableEntry family}
    (read : p.varEntry? v = some entry) (live : q.hasVariable v = true)
    (binding : q.bindingOf? v = p.bindingOf? v) :
    ∃ occurrences, q.varEntry? v = some { entry with occurrences := occurrences } := by
  obtain ⟨after, -, read'⟩ := fetchVariable_ok live
  obtain ⟨name, kind⟩ := later.name_eq read read'
  have bound : after.binding = entry.binding := by
    simpa [bindingOf?, read, read'] using binding
  refine ⟨after.occurrences, ?_⟩
  rw [read', ← name, ← kind, ← bound]

section Views

variable (one : Settled p q) (two : Settled p r) (uses₁ : UsesIndexed q) (uses₂ : UsesIndexed r)
  (live : ∀ {family : Family} (v : VarId family), q.hasVariable v = r.hasVariable v)
  (binding : ∀ {family : Family} (v : VarId family), q.bindingOf? v = r.bindingOf? v)
  (occurrence : ∀ {family : Family} (o : OccId family), q.occEntry? o = r.occEntry? o)
include one two uses₁ uses₂ live binding occurrence

/-- The set of a variable has the occurrences that refer to it, and the name and the kind are those
that it was made with. -/
theorem varEntry?_eq_of_views (v : VarId family) : q.varEntry? v = r.varEntry? v := by
  cases known : q.hasVariable v with
  | false =>
    have dead := (live v).symm.trans known
    rw [hasVariable_eq_false.1 known, hasVariable_eq_false.1 dead]
  | true =>
    obtain ⟨entry, -, read⟩ := fetchVariable_ok known
    obtain ⟨entry', -, read'⟩ := fetchVariable_ok ((live v).symm.trans known)
    have old : v.index < (p.table family).vars.size :=
      Nat.lt_of_lt_of_eq (Slots.index_lt_size read) (congrFun one.issued (.var family))
    obtain ⟨before, found, -⟩ := (one.table family).vars.entry read old
    have label := one.toLater.name_eq found read
    have label' := two.toLater.name_eq found read'
    have bound : entry.binding = entry'.binding := by
      simpa [bindingOf?, read, read'] using binding v
    have occurrences : entry.occurrences = entry'.occurrences := by
      refine HandleSet.ext_mem fun o => ?_
      rw [uses₁.mem_iff read, uses₂.mem_iff read', occurrence]
    rw [read, read']
    obtain ⟨_, _, _, _⟩ := entry
    obtain ⟨_, _, _, _⟩ := entry'
    simp_all

/-- Two later states of a program are equal if they agree on the nodes, on the occurrences and on
which variables are live and where they are bound. -/
theorem eq_of_views (root : q.root = r.root) (verifying : q.verifying = r.verifying)
    (enclosing : ∀ n, q.enclosing n = r.enclosing n) (shape : ∀ e, q.shapeOf? e = r.shapeOf? e)
    (definition : ∀ d, q.definitionOf? d = r.definitionOf? d) : q = r := by
  have sizes : q.issued = r.issued := one.issued.trans two.issued.symm
  refine eq_of_tables ?_ ?_ (fun family => ?_) root verifying
  · refine Slots.ext_get? (congrFun sizes .expression) fun e => ?_
    exact get?_expressions_congr (shape e) (enclosing _)
  · refine Slots.ext_get? (congrFun sizes .definition) fun d => ?_
    exact get?_definitions_congr (definition d) (enclosing _)
  · have vars : (q.table family).vars = (r.table family).vars :=
      Slots.ext_get? (congrFun sizes (.var family))
        (varEntry?_eq_of_views one two uses₁ uses₂ live binding occurrence)
    have occurrences : (q.table family).occurrences = (r.table family).occurrences :=
      Slots.ext_get? (congrFun sizes (.occ family)) occurrence
    exact congrArg₂ VariableTable.mk vars occurrences

end Views

/-- The program `q` is a contraction of `p`. In the place of an expression below a node that stays
comes the given one, which is the expression itself or was below it. -/
structure Contracts (p : Program) (place : ExprId → ExprId) (q : Program) : Prop where
  settled : Settled p q
  root : q.root = p.root
  verifying : q.verifying = p.verifying
  live : ∀ {n : Node}, q.hasNode n = true → p.hasNode n = true
  lineage : ∀ {n : Node} {above : List Node}, q.hasNode n = true → Lineage p.enclosing n above →
    Lineage q.enclosing n (above.filter q.hasNode)
  whole : ∀ {n : Node} {d : DefId}, q.hasNode n = true → p.Within (.defn d) n →
    q.hasNode (.defn d) = true
  below : ∀ {n : Node} {e : ExprId}, q.hasNode n = true → .expr e ∈ p.childrenOf n →
    p.Within (.expr e) (.expr (place e))
  shape : ∀ {e : ExprId}, q.hasNode (.expr e) = true →
    q.shapeOf? e = (p.shapeOf? e).map (·.contract (fun d => q.hasNode (.defn d)) place)
  definition : ∀ {d : DefId}, q.hasNode (.defn d) = true →
    q.definitionOf? d = (p.definitionOf? d).map fun definition =>
      { definition with body := place definition.body }
  occurrence : ∀ {family : Family} {o : OccId family} {entry : OccurrenceEntry family},
    q.occEntry? o = some entry ↔
      p.occEntry? o = some entry ∧ q.hasNode (.expr entry.holder) = true
  binding : ∀ {family : Family} {v : VarId family}, q.hasVariable v = true →
    p.hasVariable v = true ∧ q.bindingOf? v = p.bindingOf? v
  unbound : ∀ {family : Family} {v : VarId family}, p.hasVariable v = true →
    p.bindingOf? v = none → q.hasVariable v = true

namespace Contracts

section Facts

variable (h : Contracts p place q)
include h

/-- Among the nodes that are left, the tree order is the old one. -/
theorem within_iff (f : Forest p) (live : q.hasNode n = true) :
    q.Within head n ↔ q.hasNode head = true ∧ p.Within head n := by
  obtain ⟨above, lin⟩ := f.ends (h.live live)
  rw [Program.within_iff (h.lineage live lin), Program.within_iff lin]
  by_cases here : head = n
  · simp [here, live]
  · simp [here, and_comm]

/-- The children of a node that is left are the old ones, each replaced by what has come to its
place. -/
theorem childrenOf (live : q.hasNode n = true) : q.childrenOf n =
    (p.childrenOf n).filterMap (Node.placed (fun d => q.hasNode (.defn d)) place) := by
  have before := h.live live
  cases n with
  | expr e =>
    obtain ⟨shape, read⟩ := Option.isSome_iff_exists.1 (hasNode_expr p e ▸ before)
    have after := h.shape live
    rw [read] at after
    rw [childrenOf_expr read, childrenOf_expr after, Shape.children_contract]
  | defn d =>
    obtain ⟨definition, read⟩ := Option.isSome_iff_exists.1 (hasNode_defn p d ▸ before)
    have after := h.definition live
    rw [read] at after
    rw [childrenOf_defn read, childrenOf_defn after]
    rfl

/-- Definitions that are left keep their names. -/
theorem nameOf {d : DefId} (live : q.hasNode (.defn d) = true) :
    q.nameOf family d = p.nameOf family d := by
  rw [Program.nameOf, Program.nameOf, h.definition live]
  cases p.definitionOf? d <;> rfl

/-- What is left of the installed tree is attached. -/
theorem attached_iff (c : Coherent p) (c' : Coherent q) (live : q.hasNode n = true) :
    q.isAttached n = .ok true ↔ p.isAttached n = .ok true := by
  rw [c.attached_iff, c'.attached_iff, h.root]
  refine exists_congr fun r => and_congr_right fun root => ?_
  rw [h.within_iff c.forest live]
  refine and_iff_right (hasNode_of_enclosing (c'.root r ?_))
  rw [h.root, root]

end Facts

theorem refl (c : Coherent p) : Contracts p id p where
  settled := .refl p
  root := rfl
  verifying := rfl
  live live := live
  lineage {n above} live lin := by
    rwa [List.filter_eq_self.2 fun m mem => hasNode_of_lineage lin m (List.mem_cons_of_mem _ mem)]
  whole _ within := within.hasNode_head
  below _ child := c.forest.within_self (c.forest.hasNode_child child)
  shape {e} live := by
    obtain ⟨shape, read⟩ := Option.isSome_iff_exists.1 (hasNode_expr p e ▸ live)
    rw [read, Option.map_some]
    refine congrArg some (shape.contract_id.symm.trans (Shape.contract_congr fun child mem => ?_))
    rw [← childrenOf_expr read] at mem
    cases child with
    | expr e => rfl
    | defn d => simp [Node.placed, c.forest.hasNode_child mem]
  definition {d} _ := by cases p.definitionOf? d <;> rfl
  occurrence :=
    (and_iff_left_of_imp fun read => hasNode_of_use (c.uses.held read)).symm
  binding live := ⟨live, rfl⟩
  unbound live _ := live

/-- Two contractions, one after the other, are one. -/
theorem trans (f : Forest p) (h : Contracts p place q) (h' : Contracts q next r) :
    Contracts p (next ∘ place) r := by
  have within {n head : Node} (live : q.hasNode n = true) (inside : q.Within head n) :
      p.Within head n := ((h.within_iff f live).1 inside).2
  constructor
  case settled => exact h.settled.trans h'.settled
  case root => exact h'.root.trans h.root
  case verifying => exact h'.verifying.trans h.verifying
  case live => exact fun live => h.live (h'.live live)
  case lineage =>
    intro n above live lin
    have later := h'.lineage live (h.lineage (h'.live live) lin)
    have twice : above.filter (fun m => r.hasNode m && q.hasNode m) = above.filter r.hasNode := by
      refine List.filter_congr fun m _ => ?_
      cases kept : r.hasNode m with
      | false => rfl
      | true => simp [h'.live kept]
    rwa [List.filter_filter, twice] at later
  case whole =>
    intro n d live inside
    have here := h'.live live
    exact h'.whole live ((h.within_iff f here).2 ⟨h.whole here inside, inside⟩)
  case below =>
    intro n e live child
    have here := h'.live live
    have first := h.below here child
    have moved : .expr (place e) ∈ q.childrenOf n := by
      rw [h.childrenOf here]
      exact List.mem_filterMap.2 ⟨_, child, rfl⟩
    have second := h'.below live moved
    exact first.trans (within second.hasNode second)
  case shape =>
    intro e live
    rw [h'.shape live, h.shape (h'.live live), Option.map_map]
    refine Option.map_congr fun shape _ => ?_
    refine (shape.contract_contract).trans (Shape.contract_congr fun c _ => ?_)
    cases c with
    | expr e => rfl
    | defn d =>
      cases kept : r.hasNode (.defn d) with
      | false => simp [Node.placed, kept]
      | true => simp [Node.placed, kept, h'.live kept]
  case definition =>
    intro d live
    rw [h'.definition live, h.definition (h'.live live), Option.map_map]
    rfl
  case occurrence =>
    intro family o entry
    rw [h'.occurrence, h.occurrence]
    constructor
    · rintro ⟨⟨read, -⟩, live⟩
      exact ⟨read, live⟩
    · rintro ⟨read, live⟩
      exact ⟨⟨read, h'.live live⟩, live⟩
  case binding =>
    intro family v live
    obtain ⟨here, same⟩ := h'.binding live
    obtain ⟨before, same'⟩ := h.binding here
    exact ⟨before, same.trans same'⟩
  case unbound =>
    intro family v live free
    have here := h.unbound live free
    exact h'.unbound here ((h.binding here).2.trans free)

/-! ## The nodes that are left determine the contraction -/

section Unique

variable (c : Coherent p) (one : Contracts p place q) (two : Contracts p next r) (c₁ : Coherent q)
  (c₂ : Coherent r) (same : ∀ n, q.hasNode n = r.hasNode n)
include c one two same

/-- Two contractions that leave the same nodes have the same links. -/
theorem enclosing_eq (n : Node) : q.enclosing n = r.enclosing n := by
  cases live : q.hasNode n with
  | false => rw [enclosing_of_dead live, enclosing_of_dead ((same n).symm.trans live)]
  | true =>
    obtain ⟨above, lin⟩ := c.forest.ends (one.live live)
    have first := (one.lineage live lin).link_eq
    have second := (two.lineage ((same n).symm.trans live) lin).link_eq
    rw [first, second, List.filter_congr fun m _ => same m]

include c₁ c₂

/-- The same expression comes in the place of another, since it has the same parent in both. -/
theorem place_eq {e : ExprId} (live : q.hasNode n = true) (child : .expr e ∈ p.childrenOf n) :
    place e = next e := by
  have live' := (same n).symm.trans live
  have moved : .expr (place e) ∈ q.childrenOf n := by
    rw [one.childrenOf live]
    exact List.mem_filterMap.2 ⟨_, child, rfl⟩
  have link := c₁.forest.link moved
  rw [one.enclosing_eq c two same] at link
  have listed := c₂.forest.listed link
  rw [two.childrenOf live', List.mem_filterMap] at listed
  obtain ⟨other, child', becomes⟩ := listed
  cases other with
  | defn d =>
    simp only [Node.placed] at becomes
    split at becomes <;> cases becomes
  | expr e' =>
    have eq : next e' = place e := by simpa [Node.placed] using becomes
    have below := one.below live child
    have below' := two.below live' child'
    rw [eq] at below'
    by_cases differ : e = e'
    · subst differ
      exact eq.symm
    · exact absurd below' (c.forest.children_disjoint child child' (by simpa using differ) below)

/-- Two contractions that leave the same nodes have the same shapes. -/
theorem shapeOf?_eq (e : ExprId) : q.shapeOf? e = r.shapeOf? e := by
  cases live : q.hasNode (.expr e) with
  | false =>
    have dead := (same _).symm.trans live
    rw [hasNode_expr, Option.isSome_eq_false_iff, Option.isNone_iff_eq_none] at live dead
    rw [live, dead]
  | true =>
    rw [one.shape live, two.shape ((same _).symm.trans live)]
    refine Option.map_congr fun shape read => Shape.contract_congr fun child mem => ?_
    rw [← childrenOf_expr read] at mem
    cases child with
    | expr e => rw [Node.placed, Node.placed, one.place_eq c two c₁ c₂ same live mem]
    | defn d => simp only [Node.placed, same]

/-- Two contractions that leave the same nodes have the same definitions. -/
theorem definitionOf?_eq (d : DefId) : q.definitionOf? d = r.definitionOf? d := by
  cases live : q.hasNode (.defn d) with
  | false =>
    have dead := (same _).symm.trans live
    rw [hasNode_defn, Option.isSome_eq_false_iff, Option.isNone_iff_eq_none] at live dead
    rw [live, dead]
  | true =>
    rw [one.definition live, two.definition ((same _).symm.trans live)]
    refine Option.map_congr fun definition read => ?_
    rw [one.place_eq c two c₁ c₂ same live (by simp [childrenOf_defn read])]

omit c c₁ c₂ in
/-- Two contractions that leave the same nodes have the same occurrences. -/
theorem occEntry?_eq (o : OccId family) : q.occEntry? o = r.occEntry? o := by
  refine Option.ext fun entry => ?_
  rw [one.occurrence, two.occurrence, same]

/-- A bound variable is bound at the same node in both, the others stay in any case. -/
theorem hasVariable_of_hasVariable {v : VarId family} (live : q.hasVariable v = true) :
    r.hasVariable v = true := by
  obtain ⟨before, bound⟩ := one.binding live
  cases binding : q.bindingOf? v with
  | none => exact two.unbound before (bound.symm.trans binding)
  | some b =>
    have mem := c₁.binders.site binding
    have scripts : r.scriptOf b.site = q.scriptOf b.site := by
      cases b.site with
      | expr e =>
        exact scriptOf_expr_congr (one.shapeOf?_eq c two c₁ c₂ same e).symm
          fun d _ => (one.definitionOf?_eq c two c₁ c₂ same d).symm
      | defn d => exact scriptOf_defn_congr (one.definitionOf?_eq c two c₁ c₂ same d).symm
    have mem' : ⟨v⟩ ∈ r.bindersOf b.site := by rwa [bindersOf, scripts, ← bindersOf]
    exact c₂.binders.hasVariable mem'

/-- Contractions of one program that have the same nodes left are the same. -/
theorem unique : q = r := by
  have live {family : Family} (v : VarId family) : q.hasVariable v = r.hasVariable v :=
    Bool.eq_iff_iff.2 ⟨one.hasVariable_of_hasVariable c two c₁ c₂ same,
      two.hasVariable_of_hasVariable c one c₂ c₁ fun n => (same n).symm⟩
  have binding {family : Family} (v : VarId family) : q.bindingOf? v = r.bindingOf? v := by
    cases known : q.hasVariable v with
    | false =>
      have dead := (live v).symm.trans known
      simp [bindingOf?, hasVariable_eq_false.1 known, hasVariable_eq_false.1 dead]
    | true => exact (one.binding known).2.trans (two.binding ((live v).symm.trans known)).2.symm
  exact eq_of_views one.settled two.settled c₁.uses c₂.uses live binding (one.occEntry?_eq two same)
    (one.root.trans two.root.symm) (one.verifying.trans two.verifying.symm)
    (one.enclosing_eq c two same) (one.shapeOf?_eq c two c₁ c₂ same)
    (one.definitionOf?_eq c two c₁ c₂ same)

end Unique

end Contracts

/-! ## Cuts that contract -/

variable {cut : Cut}

/-- A tree that takes the place of another is lifted by one level, in the installed tree. -/
def Lifts (p : Program) (cut : Cut) : Prop :=
  ∀ {s : Swap}, cut.swap = some s →
    p.enclosing (.expr s.replacement) = .ok (some (.expr s.target)) ∧
      p.isAttached (.expr s.target) = .ok true

/-- A way up from a node that stays to one that goes passes the replacement. -/
theorem Clean.replacement_above (clean : Clean p cut) {above : List Node} {m : Node}
    (lin : Lineage p.enclosing n above) (stays : ¬ cut.gone n) (mem : m ∈ above)
    (gone : cut.gone m) : ∃ s, cut.swap = some s ∧ .expr s.replacement ∈ n :: above := by
  induction lin with
  | top => cases mem
  | @up n parent above link lin ih =>
    by_cases goes : cut.gone parent
    · obtain ⟨s, swap, rfl⟩ := clean.down link goes stays
      exact ⟨s, swap, List.mem_cons_self⟩
    · rcases List.mem_cons.1 mem with rfl | mem
      · exact absurd gone goes
      · obtain ⟨s, swap, inside⟩ := ih goes mem
        exact ⟨s, swap, List.mem_cons_of_mem _ inside⟩

/-- What stays keeps its recursivity when it is lifted. -/
theorem Retagged.eq_of_lifts {entry : OccurrenceEntry family} {recursivity : Recursivity}
    (tag : p.Retagged cut entry recursivity) (clean : Clean p cut) (lifts : Lifts p cut)
    (c : Consistent p) {o : OccId family} (read : p.occEntry? o = some entry)
    (stays : ¬ cut.gone (.expr entry.holder)) : recursivity = entry.recursivity := by
  rcases tag with ⟨s, swap, within, resolved⟩ | ⟨same, -⟩
  · obtain ⟨link, attached⟩ := lifts swap
    have gone : cut.gone (.expr s.target) := (clean.replacement swap).2.2 _ link
    have below := (c.forest.within_node_child (c.forest.listed link)).trans within
    have scope := c.inScope read (c.attached_below attached below)
    obtain ⟨binding, bound⟩ := exists_binding_of_resolve scope
    have elsewhere : .expr s.target ≠ binding.site := by
      intro site
      have binds := c.binders.site bound
      rw [← site] at binds
      exact stays (clean.unused ⟨_, binds, .inl gone⟩ read rfl)
    have lifted := resolve_lift link (clean.target swap) within bound elsewhere
    rw [Cut.graft, swap] at resolved
    exact Except.ok.inj (resolved.symm.trans (lifted.trans scope))
  · exact same

namespace Pruned

variable (h : Pruned p cut q) (clean : Clean p cut) (lifts : Lifts p cut)
include h clean lifts

/-- Above a node that stays only the target goes, which is an expression. -/
theorem lineage_lifted {above : List Node} (live : q.hasNode n = true)
    (lin : Lineage p.enclosing n above) : Lineage q.enclosing n (above.filter q.hasNode) ∧
      ∀ d, .defn d ∈ above → q.hasNode (.defn d) = true := by
  have stays := h.stays live
  cases swap : cut.swap with
  | none =>
    have same : Lineage (p.graftedEnclosing cut.graft) n above := by
      simpa [Cut.graft, swap] using lin
    have after := h.lineage clean same stays
    have alive : ∀ m ∈ above, q.hasNode m = true := fun m mem =>
      hasNode_of_lineage after m (List.mem_cons_of_mem _ mem)
    exact ⟨by rwa [List.filter_eq_self.2 alive], fun d mem => alive _ mem⟩
  | some s =>
    obtain ⟨link, -⟩ := lifts swap
    have gone : cut.gone (.expr s.target) := (clean.replacement swap).2.2 _ link
    have lifted : Lineage (p.graftedEnclosing cut.graft) n (above.filter (· ≠ .expr s.target)) := by
      have moved : p.graftedEnclosing cut.graft (.expr s.replacement) =
          p.enclosing (.expr s.target) :=
        (graftedEnclosing_replacement swap).trans (clean.target swap).symm
      refine lin.lift link moved ?_ ?_
      · intro m ne
        refine graftedEnclosing_of_ne fun s' swap' => ?_
        rw [swap] at swap'
        cases swap'
        exact ne
      · intro mem
        obtain ⟨s', swap', inside⟩ := clean.replacement_above lin stays mem gone
        rw [swap] at swap'
        cases swap'
        exact inside
    have after := h.lineage clean lifted stays
    have alive {m : Node} (mem : m ∈ above) (ne : m ≠ .expr s.target) : q.hasNode m = true :=
      hasNode_of_lineage after m
        (List.mem_cons_of_mem _ (List.mem_filter.2 ⟨mem, by simpa using ne⟩))
    have kept : above.filter (· ≠ .expr s.target) = above.filter q.hasNode := by
      refine List.filter_congr fun m mem => ?_
      by_cases eq : m = .expr s.target
      · simp [eq, h.dead gone]
      · simp [eq, alive mem eq]
    exact ⟨kept ▸ after, fun d mem => alive mem (by simp)⟩

/-- A cut that lifts one level at most contracts the program. -/
theorem contracts (c : Consistent p) (settled : Settled p q) : Contracts p cut.expression q := by
  have f := c.forest
  constructor
  case settled => exact settled
  case root => exact h.root
  case verifying => exact h.verifying
  case live => exact fun live => h.hasNode (h.stays live) ▸ live
  case lineage => exact fun live lin => (h.lineage_lifted clean lifts live lin).1
  case whole =>
    intro n d live ⟨above, lin, mem⟩
    rcases List.mem_cons.1 mem with rfl | mem
    · exact live
    · exact (h.lineage_lifted clean lifts live lin).2 d mem
  case below =>
    intro n e _ child
    have here := f.within_self (f.hasNode_child child)
    cases swap : cut.swap with
    | none => simpa [Cut.expression, swap] using here
    | some s =>
      by_cases eq : e = s.target
      · subst eq
        simpa [Cut.expression, swap] using f.within_node_child (f.listed (lifts swap).1)
      · simpa [Cut.expression, swap, eq] using here
  case shape =>
    intro e live
    have stays := h.stays live
    rw [h.shape stays]
    refine Option.map_congr fun shape read => Shape.contract_congr fun child mem => ?_
    cases child with
    | expr e => rfl
    | defn d =>
      rw [← childrenOf_expr read] at mem
      by_cases leaving : cut.member = some d
      · have gone : cut.gone (.defn d) := clean.leaves (by simp [Cut.child?, leaving])
        simp [Node.placed, leaving, h.dead gone]
      · obtain ⟨e', family, members, body, eq, read', member⟩ := exists_group_of_child mem
        cases eq
        have stay := clean.member_stays f read' stays member leaving
        have live : q.hasNode (.defn d) = true := (h.hasNode stay).trans (f.hasNode_child mem)
        simp [Node.placed, leaving, live]
  case definition => exact fun live => h.definition (h.stays live)
  case occurrence =>
    intro family o entry
    constructor
    · intro read
      obtain ⟨old, found, stays, var, holder, tag⟩ := h.entry read
      have same := tag.eq_of_lifts clean lifts c found stays
      obtain ⟨_, _, _⟩ := entry
      obtain ⟨_, _, _⟩ := old
      cases var
      cases holder
      cases same
      refine ⟨found, (h.hasNode stays).trans (hasNode_of_use (c.uses.held found))⟩
    · rintro ⟨found, live⟩
      have stays := h.stays live
      obtain ⟨recursivity, after, tag⟩ := h.kept found stays
      rwa [tag.eq_of_lifts clean lifts c found stays] at after
  case binding =>
    intro family v live
    obtain ⟨known, kept⟩ := h.hasVariable_iff.1 live
    exact ⟨known, h.binding kept⟩
  case unbound =>
    intro family v live free
    have kept : ¬ p.Lost cut.gone ⟨v⟩ := by
      rintro ⟨n, binds, -⟩
      obtain ⟨role, bound⟩ := c.binders.binding binds
      rw [free] at bound
      cases bound
    exact h.hasVariable_iff.2 ⟨live, kept⟩

end Pruned

end Program

end ContinuationIR
