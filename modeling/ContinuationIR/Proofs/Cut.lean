import ContinuationIR.Proofs.Consistency

/-!
# Cuts

Discarding a tree, dropping a member of a group and exchanging a tree for another are all cuts: some
nodes go with what they bind and hold, and where a node that stays had a child that goes, the child
is left out or another tree takes its place. A cut is clean if it goes along whole trees and leaves
no use of a variable without its binder.
-/

namespace ContinuationIR
set_option autoImplicit false

namespace CaseMap

/-- Looking a tag up does not look at the branches. -/
theorem search_map (f : ExprId → ExprId) (tag : Nat) (window : List (Nat × ExprId)) :
    search tag (window.map fun branch => (branch.1, f branch.2)) = (search tag window).map f := by
  have middle (l : List (Nat × ExprId)) (i : Nat) (b : Nat × ExprId) :
      ((l.map fun branch => (branch.1, f branch.2)).getD i (b.1, f b.2)).1 = (l.getD i b).1 := by
    rw [List.getD_eq_getElem?_getD, List.getD_eq_getElem?_getD, List.getElem?_map]
    cases l[i]? <;> rfl
  fun_induction search tag window with
  | case1 => simp [search]
  | case2 only eq => simp [search, eq]
  | case3 only ne => simp [search, ne]
  | case4 first second rest size half below ih =>
    rw [← ih, List.map_take, List.map_cons, List.map_cons, search, List.length_map]
    exact if_pos (lt_of_lt_of_eq below (middle (first :: second :: rest) half first).symm)
  | case5 first second rest size half notBelow ih =>
    rw [← ih, List.map_drop, List.map_cons, List.map_cons, search, List.length_map]
    exact if_neg fun below =>
      notBelow (lt_of_lt_of_eq below (middle (first :: second :: rest) half first))

variable (f : ExprId → ExprId) (map : CaseMap)

theorem tags_map : tags ⟨map.branches.map fun branch => (branch.1, f branch.2)⟩ = map.tags := by
  simp [tags]

/-- The rules for the branches of a case look at the tags only. -/
theorem validate_map (kind : Kind) (hasDefault : Bool) :
    validate ⟨map.branches.map fun branch => (branch.1, f branch.2)⟩ kind hasDefault =
      map.validate kind hasDefault := by
  have missing (constructors : Nat) :
      CaseMap.missing ⟨map.branches.map fun branch => (branch.1, f branch.2)⟩ constructors =
        map.missing constructors := by
    simp [CaseMap.missing, get?, search_map]
  unfold validate
  simp only [tags_map, missing]

end CaseMap

/-! ## Children that leave or are exchanged -/

/-- The shape without the members that are not kept and with other expressions below it. -/
def Shape.contract (keep : DefId → Bool) (place : ExprId → ExprId) : Shape → Shape
  | .letIn var value body => .letIn var value (place body)
  | .group family members body => .group family (members.filter keep) (place body)
  | .caseOf scrutinee map otherwise =>
    .caseOf scrutinee ⟨map.branches.map fun branch => (branch.1, place branch.2)⟩
      (otherwise.map place)
  | .primitive operator arguments continuation => .primitive operator arguments continuation
  | .apply function arguments continuation => .apply function arguments continuation
  | .jump continuation arguments => .jump continuation arguments
  | .unreachable => .unreachable

/-- What stands where a child stood. -/
def Node.placed (keep : DefId → Bool) (place : ExprId → ExprId) : Node → Option Node
  | .expr e => some (.expr (place e))
  | .defn d => if keep d then some (.defn d) else none

namespace Shape

variable {keep other : DefId → Bool} {place next : ExprId → ExprId}

/-- The children of a contracted shape are those that are kept, each replaced by what comes to its
place. -/
theorem children_contract (shape : Shape) :
    (shape.contract keep place).children = shape.children.filterMap (Node.placed keep place) := by
  cases shape with
  | group family members body =>
    simp only [contract, children, List.filterMap_append, List.filterMap_map, List.filterMap_cons,
      Node.placed, List.filterMap_nil]
    congr 1
    rw [← List.filterMap_eq_map, List.filterMap_filter]
    refine List.filterMap_congr fun d _ => ?_
    cases kept : keep d <;> simp [kept, Node.placed]
  | caseOf scrutinee map otherwise =>
    cases otherwise <;>
      simp [contract, children, List.filterMap_append, List.filterMap_map, Function.comp_def,
        Node.placed]
  | _ => simp [contract, children, Node.placed]

/-- A contraction leaves the uses of a shape. -/
theorem uses_contract (shape : Shape) : (shape.contract keep place).uses = shape.uses := by
  cases shape <;> rfl

/-- Only what becomes of the children matters. -/
theorem contract_congr {shape : Shape}
    (same : ∀ c ∈ shape.children, c.placed keep place = c.placed other next) :
    shape.contract keep place = shape.contract other next := by
  have expr {e : ExprId} (mem : .expr e ∈ shape.children) : place e = next e := by
    simpa [Node.placed] using same _ mem
  have member {d : DefId} (mem : .defn d ∈ shape.children) : keep d = other d := by
    have := same _ mem
    cases one : keep d <;> cases two : other d <;> simp_all [Node.placed]
  cases shape with
  | letIn v value body => simp only [contract, expr (e := body) (by simp [children])]
  | group family members body =>
    have members : members.filter keep = members.filter other :=
      List.filter_congr fun d mem => member (by simp [children, mem])
    simp only [contract, members, expr (e := body) (by simp [children])]
  | caseOf scrutinee map otherwise =>
    have branches : map.branches.map (fun branch => (branch.1, place branch.2)) =
        map.branches.map fun branch => (branch.1, next branch.2) := by
      refine List.map_congr_left fun branch mem => ?_
      rw [expr (List.mem_append_left _ (List.mem_map.2 ⟨branch, mem, rfl⟩))]
    have default : otherwise.map place = otherwise.map next :=
      Option.map_congr fun e mem => expr (by simp [children, mem])
    simp only [contract, branches, default]
  | _ => rfl

theorem contract_id (shape : Shape) : shape.contract (fun _ => true) id = shape := by
  cases shape <;> simp [contract]

/-- Two contractions, one after the other, are one. -/
theorem contract_contract (shape : Shape) :
    (shape.contract keep place).contract other next =
      shape.contract (fun d => other d && keep d) (next ∘ place) := by
  cases shape <;> simp [contract, List.filter_filter, Function.comp_def]

end Shape

/-! ## Cuts -/

/-- A tree that takes the place of another below a parent. -/
structure Swap where
  target : ExprId
  replacement : ExprId
  parent : Node

/-- What a change takes away: the nodes that go, the member that leaves a group that stays and the
tree that is exchanged for another. -/
structure Cut where
  gone : Node → Prop
  member : Option DefId
  swap : Option Swap

namespace Cut

variable (cut : Cut)

/-- How the replacement is moved. -/
def graft : Option Graft := cut.swap.map fun s => ⟨s.replacement, some s.parent⟩

/-- What stands where an expression stood. -/
def expression (e : ExprId) : ExprId :=
  match cut.swap with
  | some s => if e = s.target then s.replacement else e
  | none => e

/-- What stands where a child stood. -/
def child? : Node → Option Node
  | .expr e => some (.expr (cut.expression e))
  | .defn d => if cut.member = some d then none else some (.defn d)

/-- What becomes of the shape of an expression that stays. -/
def shape : Shape → Shape := Shape.contract (fun d => cut.member ≠ some d) cut.expression

/-- What becomes of a definition that stays. -/
def definition (definition : Definition) : Definition :=
  { definition with body := cut.expression definition.body }

/-- What a cut makes of a child: the member that leaves is dropped, the target is exchanged. -/
theorem child?_eq (n : Node) :
    cut.child? n = n.placed (fun d => cut.member ≠ some d) cut.expression := by
  cases n with
  | expr e => rfl
  | defn d => by_cases leaving : cut.member = some d <;> simp [child?, Node.placed, leaving]

theorem children_shape (shape : Shape) :
    (cut.shape shape).children = shape.children.filterMap cut.child? :=
  shape.children_contract.trans (List.filterMap_congr fun n _ => (cut.child?_eq n).symm)

theorem uses_shape (shape : Shape) : (cut.shape shape).uses = shape.uses := shape.uses_contract

/-- In the place of the target stands the replacement. -/
theorem child?_target {s : Swap} (swap : cut.swap = some s) :
    cut.child? (.expr s.target) = some (.expr s.replacement) := by
  simp [child?, expression, swap]

/-- A child stays, or it is the target and the replacement takes its place. -/
theorem child?_eq_some {child new : Node} (becomes : cut.child? child = some new) :
    child = new ∨ ∃ s, cut.swap = some s ∧ child = .expr s.target ∧ new = .expr s.replacement := by
  cases child with
  | defn d =>
    simp only [child?] at becomes
    split at becomes
    · cases becomes
    · exact .inl (by simpa using becomes)
  | expr e =>
    cases swap : cut.swap with
    | none => exact .inl (by simpa [child?, expression, swap] using becomes)
    | some s =>
      by_cases eq : e = s.target
      · exact .inr ⟨s, rfl, by rw [eq], by simpa [child?, expression, swap, eq] using becomes.symm⟩
      · exact .inl (by simpa [child?, expression, swap, eq] using becomes)

/-- A shape stays as it is if none of its children leaves. -/
theorem shape_eq_self {shape : Shape} (stays : ∀ c ∈ shape.children, cut.child? c = some c) :
    cut.shape shape = shape := by
  refine (Shape.contract_congr fun n mem => ?_).trans shape.contract_id
  rw [← cut.child?_eq, stays n mem]
  cases n <;> rfl

end Cut

namespace Program

/-- What goes with the nodes of a cut: the variables they bind, and the name of a member that leaves
its group. -/
def Lost (p : Program) (gone : Node → Prop) (binder : Binder) : Prop :=
  ∃ n, binder ∈ p.bindersOf n ∧ (gone n ∨ ∃ d, gone (.defn d) ∧ .defn d ∈ p.childrenOf n ∧
    (p.nameOf binder.family d) = some binder.var)

/-- The cut goes along whole trees and leaves no use of a variable that it takes away. -/
structure Clean (p : Program) (cut : Cut) : Prop where
  /-- Below a node that goes only the replacement stays. -/
  down : ∀ {n parent : Node}, p.enclosing n = .ok (some parent) → cut.gone parent → ¬ cut.gone n →
    ∃ s, cut.swap = some s ∧ n = .expr s.replacement
  /-- Below a node that stays, what goes is left out or exchanged. -/
  up : ∀ {n parent : Node}, p.enclosing n = .ok (some parent) → ¬ cut.gone parent → cut.gone n →
    cut.child? n ≠ some n
  leaves : ∀ {n : Node}, cut.child? n ≠ some n → cut.gone n
  target : ∀ {s : Swap}, cut.swap = some s → p.enclosing (.expr s.target) = .ok (some s.parent)
  parent : ∀ {s : Swap}, cut.swap = some s → ¬ cut.gone s.parent ∧
    ¬ p.Within (.expr s.replacement) s.parent
  replacement : ∀ {s : Swap}, cut.swap = some s → ¬ cut.gone (.expr s.replacement) ∧
    p.hasNode (.expr s.replacement) = true ∧
    ∀ parent, p.enclosing (.expr s.replacement) = .ok (some parent) → cut.gone parent
  root : ∀ {r : DefId}, p.root = some r → ¬ cut.gone (.defn r)
  unused : ∀ {family : Family} {v : VarId family} {o : OccId family}
    {entry : OccurrenceEntry family}, p.Lost cut.gone ⟨v⟩ → p.occEntry? o = some entry →
      entry.var = v → cut.gone (.expr entry.holder)
  peopled : ∀ {e : ExprId} {family : Family} {members : List DefId} {body : ExprId},
    p.shapeOf? e = some (.group family members body) → ¬ cut.gone (.expr e) → members ≠ [] →
      ∃ d ∈ members, cut.member ≠ some d

section Grafting

variable {p : Program} {cut : Cut} {n : Node}

/-- With the graft, the replacement hangs under the parent of the target. -/
theorem graftedEnclosing_replacement {s : Swap} (swap : cut.swap = some s) :
    p.graftedEnclosing cut.graft (.expr s.replacement) = .ok (some s.parent) := by
  simp [graftedEnclosing, Cut.graft, swap]

/-- With the graft, all other links are the old ones. -/
theorem graftedEnclosing_of_ne (ne : ∀ s, cut.swap = some s → n ≠ .expr s.replacement) :
    p.graftedEnclosing cut.graft n = p.enclosing n := by
  cases swap : cut.swap with
  | none => simp [graftedEnclosing, Cut.graft, swap]
  | some s => simp [graftedEnclosing, Cut.graft, swap, ne s swap]

/-- Every climb still ends after a tree was hung under a node outside of it. -/
theorem Forest.lineage_graft (f : Forest p) {head : ExprId} {parent : Node}
    (known : p.hasNode parent = true) (apart : ¬ p.Within (.expr head) parent)
    (live : p.hasNode n = true) :
    ∃ above, Lineage (p.graftedEnclosing (some ⟨head, some parent⟩)) n above ∧
      ∀ m ∈ n :: above, p.hasNode m = true := by
  have elsewhere {m : Node} (ne : m ≠ .expr head) :
      p.graftedEnclosing (some ⟨head, some parent⟩) m = p.enclosing m := if_neg ne
  have here : p.graftedEnclosing (some ⟨head, some parent⟩) (.expr head) = .ok (some parent) :=
    if_pos rfl
  obtain ⟨upper, linParent⟩ := f.ends known
  rw [within_iff linParent] at apart
  have liveParent := hasNode_of_lineage linParent
  have moved := Lineage.up here (linParent.congr fun m mem => elsewhere fun eq => apart (eq ▸ mem))
  obtain ⟨above, lin⟩ := f.ends live
  have liveAbove := hasNode_of_lineage lin
  by_cases mem : .expr head ∈ n :: above
  · rcases List.mem_cons.1 mem with rfl | mem
    · exact ⟨_, moved, by simpa [live] using liveParent⟩
    · obtain ⟨front, back, rfl⟩ := List.append_of_mem mem
      have first : ∀ m ∈ n :: front, m ≠ .expr head := by
        rintro m mem rfl
        have distinct := lin.nodup
        rw [← List.cons_append, List.nodup_append] at distinct
        exact distinct.2.2 _ mem _ List.mem_cons_self rfl
      refine ⟨_, lin.graft rfl (fun m mem => elsewhere (first m mem)) moved, ?_⟩
      intro m mem
      have parts : m ∈ n :: front ∨ m = .expr head ∨ m ∈ parent :: upper := by
        simpa [or_assoc] using mem
      rcases parts with mem | rfl | mem
      · exact liveAbove m (List.mem_append_left (_ :: _) mem)
      · exact liveAbove _ (by simp)
      · exact liveParent m mem
  · exact ⟨above, lin.congr fun m inside => elsewhere fun eq => mem (eq ▸ inside), liveAbove⟩

end Grafting

namespace Clean

variable {p : Program} {cut : Cut} {n : Node}

/-- With the graft of a clean cut every climb still ends. -/
theorem lineage (clean : Clean p cut) (f : Forest p) (live : p.hasNode n = true) :
    ∃ above, Lineage (p.graftedEnclosing cut.graft) n above ∧
      ∀ m ∈ n :: above, p.hasNode m = true := by
  cases swap : cut.swap with
  | none =>
    obtain ⟨above, lin⟩ := f.ends live
    exact ⟨above, by simpa [Cut.graft, swap] using lin, hasNode_of_lineage lin⟩
  | some s =>
    have known := f.hasNode_parent (clean.target swap)
    simpa [Cut.graft, swap] using f.lineage_graft known (clean.parent swap).2 live

/-- Above a node that stays everything stays. -/
theorem stays (clean : Clean p cut) {above : List Node}
    (lin : Lineage (p.graftedEnclosing cut.graft) n above) (stays : ¬ cut.gone n) :
    ∀ m ∈ n :: above, ¬ cut.gone m := by
  induction lin with
  | top _ => simpa using stays
  | @up n parent above link _ ih =>
    refine List.forall_mem_cons.2 ⟨stays, ih ?_⟩
    by_cases moved : ∃ s, cut.swap = some s ∧ n = .expr s.replacement
    · obtain ⟨s, swap, rfl⟩ := moved
      rw [graftedEnclosing_replacement swap] at link
      cases link
      exact (clean.parent swap).1
    · rw [graftedEnclosing_of_ne fun s swap eq => moved ⟨s, swap, eq⟩] at link
      exact fun gone => moved (clean.down link gone stays)

/-- A child of a node that stays is not the replacement. -/
theorem graftedEnclosing_of_link (clean : Clean p cut) {child : Node}
    (link : p.enclosing child = .ok (some n)) (stays : ¬ cut.gone n) :
    p.graftedEnclosing cut.graft child = p.enclosing child := by
  refine graftedEnclosing_of_ne fun s swap eq => ?_
  subst eq
  exact stays ((clean.replacement swap).2.2 n link)

/-- A member stays with its group, unless it is the one that leaves. -/
theorem member_stays (clean : Clean p cut) (f : Forest p) {e : ExprId} {family : Family}
    {members : List DefId} {body : ExprId} (read : p.shapeOf? e = some (.group family members body))
    (stays : ¬ cut.gone (.expr e)) {d : DefId} (member : d ∈ members)
    (remains : cut.member ≠ some d) : ¬ cut.gone (.defn d) := by
  have child : .defn d ∈ p.childrenOf (.expr e) := by
    rw [childrenOf_expr read]
    simp [Shape.children, member]
  exact fun gone => clean.up (f.link child) stays gone (by simp [Cut.child?, remains])

end Clean

end Program

end ContinuationIR
