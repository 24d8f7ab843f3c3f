import ContinuationIR.Proofs.Branches
import ContinuationIR.Proofs.Trail

/-!
# Well-formed programs

What the checker checks, told without it. The nodes form one tree below the root, and each is
reached in one way. Occurrences and variables are tied to each other and to the nodes that hold and
bind them. Each use is below its binder, with the recursivity of its place, and no continuation is
used across a function. Each node obeys the rules for its shape.
-/

namespace ContinuationIR
set_option autoImplicit false

namespace Program

variable {family : Family} {p : Program} {r : DefId} {n c : Node}

/-! ## The parts of well-formedness -/

/-- Following child references from a node: the positions taken, the last one first. -/
inductive Descends (p : Program) (start : Node) : List Nat → Node → Prop where
  | here : Descends p start [] start
  | down {positions : List Nat} {i : Nat} {n c : Node} : Descends p start positions n →
      (p.childrenOf n)[i]? = some c → Descends p start (i :: positions) c

/-- Every live node is reached from the root in exactly one way, and records the node it is reached
from; the root records none. Only live nodes record anything, so every child reference is live. -/
structure Rooted (p : Program) : Prop where
  reached : ∀ {n : Node}, p.hasNode n = true →
    ∃ r, p.root = some r ∧ ∃! positions, p.Descends (.defn r) positions n
  link : ∀ {n c : Node}, c ∈ p.childrenOf n → p.enclosing c = .ok (some n)
  top : ∀ {r : DefId}, p.root = some r → p.enclosing (.defn r) = .ok none

/-- A variable that a node binds is live and records that node, and the node binds it once. A
variable that records a binding or has occurrences is bound by some node. -/
structure BindersRecorded (p : Program) : Prop where
  site : ∀ {family : Family} {v : VarId family} {n : Node}, ⟨v⟩ ∈ p.bindersOf n →
    (p.bindingOf? v).map (·.site) = some n
  once : ∀ n : Node, (p.bindersOf n).Nodup
  bound : ∀ {family : Family} {v : VarId family}, p.Tied v → ∃ n, ⟨v⟩ ∈ p.bindersOf n

/-- The variable is bound above the holder, a continuation with no function in between, and the use
is recursive just if the binder is a group and the holder lies in one of its members. -/
def InScope (p : Program) (v : VarId family) (holder : Node) (recursivity : Recursivity) : Prop :=
  ∃ front site back, Lineage p.enclosing holder (front ++ site :: back) ∧
    ⟨v⟩ ∈ p.bindersOf site ∧
    (family = .continuation → ∀ n ∈ front, p.isBoundary n = false) ∧
    (recursivity = .recursive ↔
      (p.groupOf site).isSome = true ∧ (front.getLastD holder).isDefinition = true)

/-- A variable of the kind may hold the value: a literal of the kind, a block with a tag in range, a
variable of the same kind; the kind `any` fits all. -/
def Admits (p : Program) (kind : Kind) : Value (OccId .value) → Prop
  | .constant literal => kind = .any ∨ literal.kind = kind
  | .block tag _ => kind = .any ∨ ∃ constructors, kind = .tagged constructors ∧ tag < constructors
  | .alias source => ∀ found, p.kindAt? source = some found →
      kind = .any ∨ found = .any ∨ found = kind

/-- The rules for the shapes of live nodes. -/
structure Ruled (p : Program) : Prop where
  lets : ∀ {e : ExprId} {v : VarId .value} {value : Value (OccId .value)} {body : ExprId},
    p.shapeOf? e = some (.letIn v value body) →
      ∀ kind, p.kindOf? v = some kind → p.Admits kind value
  cases : ∀ {e : ExprId} {scrutinee : OccId .value} {map : CaseMap} {otherwise : Option ExprId},
    p.shapeOf? e = some (.caseOf scrutinee map otherwise) → Ascending map.tags ∧
      ∀ constructors, p.kindAt? scrutinee = some (.tagged constructors) →
        map.Covers constructors otherwise.isSome
  groups : ∀ {e : ExprId} {family : Family} {members : List DefId} {body : ExprId},
    p.shapeOf? e = some (.group family members body) → ∀ d ∈ members, ∀ definition,
      p.definitionOf? d = some definition → definition.header.kind = family.memberKind
  types : ∀ {d : DefId} {definition : Definition}, p.definitionOf? d = some definition →
    definition.parameters.map p.kindOf? = definition.type.parameters.map some

/-- The tables of the program agree with each other and with the scoping rules. -/
structure WellFormed (p : Program) : Prop where
  tree : Rooted p
  uses : UsesIndexed p
  binders : BindersRecorded p
  inScope : ∀ {family : Family} {o : OccId family} {entry : OccurrenceEntry family},
    p.occEntry? o = some entry → p.InScope entry.var (.expr entry.holder) entry.recursivity
  rules : Ruled p

/-! ## The tree -/

namespace Descends

variable {start : Node} {positions : List Nat}

theorem lineage (descends : p.Descends start positions n)
    (link : ∀ {n c : Node}, c ∈ p.childrenOf n → p.enclosing c = .ok (some n))
    (top : p.enclosing start = .ok none) : ∃ above, Lineage p.enclosing n above := by
  induction descends with
  | here => exact ⟨[], .top top⟩
  | down _ child ih =>
    obtain ⟨above, lin⟩ := ih
    exact ⟨_, .up (link (List.mem_of_getElem? child)) lin⟩

/-- In a forest a node is reached in one way only. -/
theorem unique (f : Forest p) (top : p.enclosing start = .ok none)
    (descends : p.Descends start positions n) {positions' : List Nat}
    (other : p.Descends start positions' n) : positions = positions' := by
  induction descends generalizing positions' with
  | here =>
    cases other with
    | here => rfl
    | down _ child =>
      rw [f.link (List.mem_of_getElem? child)] at top
      cases top
  | @down positions i n c _ child ih =>
    have link := f.link (List.mem_of_getElem? child)
    cases other with
    | here =>
      rw [link] at top
      cases top
    | @down positions' j m _ other child' =>
      obtain rfl := f.parent_unique (List.mem_of_getElem? child') link
      obtain ⟨lt, -⟩ := List.getElem?_eq_some_iff.1 child
      have eq : i = j := (List.getElem?_inj lt (f.once _)).1 (child.trans child'.symm)
      rw [ih other, eq]

end Descends

theorem Reached.descends {start : Node} (reached : Reached p start n) :
    ∃ positions, p.Descends start positions n := by
  induction reached with
  | start _ => exact ⟨[], .here⟩
  | child _ mem _ ih =>
    obtain ⟨positions, descends⟩ := ih
    obtain ⟨i, stands⟩ := List.mem_iff_getElem?.1 mem
    exact ⟨i :: positions, .down descends stands⟩

namespace Rooted

/-- A rooted program is a forest: a child that stands twice would be reached in two ways. -/
theorem forest (rooted : Rooted p) : Forest p where
  link := rooted.link
  listed := by
    intro node parent link
    obtain ⟨r, root, positions, descends, -⟩ := rooted.reached (hasNode_of_enclosing link)
    cases descends with
    | here =>
      rw [rooted.top root] at link
      cases link
    | down _ child =>
      have mem := List.mem_of_getElem? child
      rw [rooted.link mem] at link
      cases link
      exact mem
  once := by
    intro node
    rw [List.nodup_iff_getElem?_ne_getElem?]
    intro i j lt inside same
    have first : (p.childrenOf node)[j]? = some (p.childrenOf node)[j] :=
      List.getElem?_eq_getElem inside
    have mem := List.mem_of_getElem? first
    obtain ⟨r, root, positions, descends, -⟩ := rooted.reached (hasNode_of_child mem)
    obtain ⟨r', root', positions', -, only⟩ :=
      rooted.reached (hasNode_of_enclosing (rooted.link mem))
    rw [root] at root'
    cases root'
    have one := only _ (.down descends (same.trans first))
    have two := only _ (.down descends first)
    rw [← two] at one
    cases one
    omega
  ends := by
    intro node live
    obtain ⟨r, root, positions, descends, -⟩ := rooted.reached live
    exact descends.lineage rooted.link (rooted.top root)

/-- Every live node lies in the tree of the root. -/
theorem within (rooted : Rooted p) (live : p.hasNode n = true) :
    ∃ r, p.root = some r ∧ p.Within (.defn r) n := by
  obtain ⟨r, root, positions, descends, -⟩ := rooted.reached live
  refine ⟨r, root, ?_⟩
  clear live
  induction descends with
  | here => exact rooted.forest.within_self (hasNode_of_enclosing (rooted.top root))
  | down _ child ih =>
    exact (rooted.forest.within_child (List.mem_of_getElem? child)).2 (.inr ih)

end Rooted

/-- A forest whose nodes are all reached from the root is rooted. -/
theorem Forest.rooted (f : Forest p)
    (top : ∀ {r : DefId}, p.root = some r → p.enclosing (.defn r) = .ok none)
    (reached : ∀ {n : Node}, p.hasNode n = true → ∃ r, p.root = some r ∧ Reached p (.defn r) n) :
    Rooted p where
  link := f.link
  top := top
  reached := by
    intro n live
    obtain ⟨r, root, reached⟩ := reached live
    obtain ⟨positions, descends⟩ := reached.descends
    exact ⟨r, root, positions, descends, fun _ other => other.unique f (top root) descends⟩

/-! ## Scope -/

/-- Where a variable is bound once, looking for its binder from the inside out finds the place that
binds it, unless a function is in the way of a continuation. -/
theorem seenAlong_eq_some_iff {v : VarId family} {child : Node} {above : List Node}
    {recursivity : Recursivity}
    (unique : ∀ {n m : Node}, ⟨v⟩ ∈ p.bindersOf n → ⟨v⟩ ∈ p.bindersOf m → n = m)
    (distinct : above.Nodup) (live : ∀ n ∈ above, p.hasNode n = true) :
    p.seenAlong v child above = some recursivity ↔
      ∃ front site back, above = front ++ site :: back ∧ ⟨v⟩ ∈ p.bindersOf site ∧
        (family = .continuation → ∀ n ∈ front, p.isBoundary n = false) ∧
        (recursivity = .recursive ↔
          (p.groupOf site).isSome = true ∧ (front.getLastD child).isDefinition = true) := by
  induction above generalizing child with
  | nil => simp [seenAlong]
  | cons n rest ih =>
    obtain ⟨fresh, distinct⟩ := List.nodup_cons.1 distinct
    obtain ⟨here, live⟩ := List.forall_mem_cons.1 live
    rw [seenAlong, stopsContinuations_eq here]
    by_cases binds : ⟨v⟩ ∈ p.bindersOf n
    · simp only [binds, if_true, Option.some.injEq]
      constructor
      · intro found
        refine ⟨[], n, rest, rfl, binds, by simp, ?_⟩
        rw [← found]
        simp
      · rintro ⟨front, site, back, split, bound, -, tag⟩
        cases front with
        | nil =>
          cases split
          cases recursivity <;> simp_all
        | cons f fs =>
          cases split
          cases unique binds bound
          simp at fresh
    · simp only [binds, if_false]
      by_cases stops : family = .continuation ∧ p.isBoundary n = true
      · simp only [stops, ne_eq, Except.ok.injEq, Bool.true_eq_false, not_false_eq_true, and_self,
          if_true, reduceCtorEq, false_iff]
        rintro ⟨front, site, back, split, bound, free, -⟩
        cases front with
        | nil =>
          cases split
          exact binds bound
        | cons f fs =>
          cases split
          have passes := free trivial n List.mem_cons_self
          rw [stops.2] at passes
          cases passes
      · rw [if_neg (by simpa using stops), ih distinct live]
        constructor
        · rintro ⟨front, site, back, rfl, bound, free, tag⟩
          refine ⟨n :: front, site, back, rfl, bound, fun second => ?_, by rwa [List.getLastD_cons]⟩
          exact List.forall_mem_cons.2 ⟨by simpa [second] using stops, free second⟩
        · rintro ⟨front, site, back, split, bound, free, tag⟩
          cases front with
          | nil =>
            cases split
            exact absurd bound binds
          | cons f fs =>
            cases split
            rw [List.getLastD_cons] at tag
            exact ⟨fs, site, back, rfl, bound,
              fun second => (List.forall_mem_cons.1 (free second)).2, tag⟩

/-- Being in scope is being found along the lineage of the holder. -/
theorem inScope_iff {v : VarId family} {holder : Node} {above : List Node}
    {recursivity : Recursivity} (lin : Lineage p.enclosing holder above)
    (unique : ∀ {n m : Node}, ⟨v⟩ ∈ p.bindersOf n → ⟨v⟩ ∈ p.bindersOf m → n = m) :
    p.InScope v holder recursivity ↔ p.seenAlong v holder above = some recursivity := by
  rw [seenAlong_eq_some_iff unique (List.nodup_cons.1 lin.nodup).2
    fun n mem => hasNode_of_lineage lin n (List.mem_cons_of_mem _ mem)]
  constructor
  · rintro ⟨front, site, back, lin', rest⟩
    exact ⟨front, site, back, lin.unique lin', rest⟩
  · rintro ⟨front, site, back, rfl, rest⟩
    exact ⟨front, site, back, lin, rest⟩

/-! ## Rules -/

/-- The check of a kind accepts exactly the values the kind admits. -/
theorem holds_iff {kind : Kind} {value : Value (OccId .value)} :
    p.holds kind value = true ↔ p.Admits kind value := by
  cases value with
  | constant literal => simp [holds, Admits, Kind.admitsConstant]
  | block tag _ => cases kind <;> simp [holds, Admits, Kind.admitsBlock]
  | «alias» source =>
    simp only [holds, Admits]
    cases p.kindAt? source <;> simp [Kind.admitsAlias, or_assoc]

theorem letViolations_eq_nil_iff {e : ExprId} {v : VarId .value} {value : Value (OccId .value)} :
    p.letViolations e v value = [] ↔ ∀ kind, p.kindOf? v = some kind → p.Admits kind value := by
  rw [letViolations_eq]
  cases p.kindOf? v <;> simp [holds_iff]

theorem groupViolations_eq_nil_iff {e : ExprId} {members : List DefId} :
    p.groupViolations e family members = [] ↔ ∀ d ∈ members, ∀ definition,
      p.definitionOf? d = some definition → definition.header.kind = family.memberKind := by
  rw [groupViolations_eq, List.filterMap_eq_nil_iff]
  refine forall₂_congr fun d _ => ?_
  cases p.definitionOf? d <;> simp

theorem fitsType_iff_map {definition : Definition}
    (live : ∀ v ∈ definition.parameters, p.hasVariable v = true) : p.fitsType definition = true ↔
      definition.parameters.map p.kindOf? = definition.type.parameters.map some := by
  rw [fitsType_iff]
  generalize definition.parameters = parameters at live ⊢
  generalize definition.type.parameters = declared
  induction parameters generalizing declared with
  | nil => cases declared <;> simp
  | cons v rest ih =>
    cases declared with
    | nil => simp
    | cons kind kinds =>
      obtain ⟨here, live⟩ := List.forall_mem_cons.1 live
      obtain ⟨found, read⟩ := Option.isSome_iff_exists.1 (hasVariable_eq p v ▸ here)
      simp only [List.length_cons, Nat.add_right_cancel_iff, List.zip_cons_cons, List.mem_cons,
        List.map_cons, List.cons.injEq, ← ih live, Prod.mk.injEq, read, Option.some.injEq]
      constructor
      · rintro ⟨length, each⟩
        exact ⟨each v kind (.inl ⟨rfl, rfl⟩) found read, length,
          fun w k mem => each w k (.inr mem)⟩
      · rintro ⟨rfl, length, each⟩
        refine ⟨length, fun w k mem other found => ?_⟩
        rcases mem with ⟨rfl, rfl⟩ | mem
        · exact Option.some.inj (found.symm.trans read)
        · exact each w k mem other found

/-- No node breaks a rule exactly when the program is ruled. -/
theorem nodeViolations_eq_nil_iff
    (live : ∀ {d : DefId} {definition : Definition}, p.definitionOf? d = some definition →
      ∀ v ∈ definition.parameters, p.hasVariable v = true) :
    (∀ n, p.nodeViolations n = []) ↔ Ruled p := by
  constructor
  · intro none
    constructor
    case lets =>
      intro e v value body read
      have rule := none (.expr e)
      simp only [nodeViolations, read] at rule
      exact letViolations_eq_nil_iff.1 rule
    case cases =>
      intro e scrutinee map otherwise read
      have rule := none (.expr e)
      simp only [nodeViolations, read] at rule
      exact caseViolations_eq_nil_iff.1 rule
    case groups =>
      intro e family members body read
      have rule := none (.expr e)
      simp only [nodeViolations, read] at rule
      exact groupViolations_eq_nil_iff.1 rule
    case types =>
      intro d definition read
      have rule := none (.defn d)
      simp only [nodeViolations, read, definitionViolations] at rule
      exact (fitsType_iff_map (live read)).1 (by simpa using rule)
  · rintro ruled (e | d)
    · cases read : p.shapeOf? e with
      | none => simp [nodeViolations, read]
      | some shape =>
        simp only [nodeViolations, read]
        cases shape with
        | letIn v value body => exact letViolations_eq_nil_iff.2 (ruled.lets read)
        | caseOf scrutinee map otherwise => exact caseViolations_eq_nil_iff.2 (ruled.cases read)
        | group family members body => exact groupViolations_eq_nil_iff.2 (ruled.groups read)
        | _ => rfl
    · cases read : p.definitionOf? d with
      | none => simp [nodeViolations, read]
      | some definition =>
        have fits := (fitsType_iff_map (live read)).2 (ruled.types read)
        simp [nodeViolations, read, definitionViolations, fits]

end Program

end ContinuationIR
