import ContinuationIR.Proofs.Denotation
import ContinuationIR.Proofs.Display
import ContinuationIR.Proofs.Removal

/-!
# The terms that nodes spell

What the tables have at an expression, told by recursion on a term and not by reading: the term spells
the expression if the shape is the one of the term, its variables and occurrences have the names of the
term, and the parts of the term spell the nodes below. In a consistent program some term spells each
live expression, and reading finds it.
-/

namespace ContinuationIR
set_option autoImplicit false

mutual

/-- The term is what the program has at the expression. -/
def Term.Spells (p : Program) : Term → ExprId → Prop
  | .letIn var value body, e => ∃ v operand below,
      p.shapeOf? e = some (.letIn v operand below) ∧ p.namedVar v = .ok var ∧
      p.namedValue operand = .ok value ∧ body.Spells p below
  | .group family members body, e => ∃ definitions below,
      p.shapeOf? e = some (.group family definitions below) ∧ members.Spells p definitions ∧
      body.Spells p below
  | .primitive operator arguments continuation, e => ∃ uses k,
      p.shapeOf? e = some (.primitive operator uses k) ∧ uses.mapM p.namedUse = .ok arguments ∧
      p.namedUse k = .ok continuation
  | .apply function arguments continuation, e => ∃ f uses k,
      p.shapeOf? e = some (.apply f uses k) ∧ p.namedUse f = .ok function ∧
      uses.mapM p.namedUse = .ok arguments ∧ p.namedUse k = .ok continuation
  | .jump continuation arguments, e => ∃ k uses,
      p.shapeOf? e = some (.jump k uses) ∧ p.namedUse k = .ok continuation ∧
      uses.mapM p.namedUse = .ok arguments
  | .caseOf scrutinee branches, e => ∃ o map otherwise,
      p.shapeOf? e = some (.caseOf o map otherwise) ∧ p.namedUse o = .ok scrutinee ∧
      branches.Spells p (map.arms otherwise)
  | .unreachable, e => p.shapeOf? e = some .unreachable

/-- The clause is what the program has at the definition. -/
def Clause.Spells (p : Program) : Clause → DefId → Prop
  | .mk header parameters body, d => ∃ definition,
      p.definitionOf? d = some definition ∧ p.namedHeader definition.header = .ok header ∧
      definition.parameters.mapM p.namedVar = .ok parameters ∧ body.Spells p definition.body

/-- The clauses are what the program has at the definitions. -/
def Members.Spells (p : Program) : Members → List DefId → Prop
  | .nil, definitions => definitions = []
  | .cons first rest, definitions => ∃ d later, definitions = d :: later ∧ first.Spells p d ∧
      rest.Spells p later

/-- The branches have the tags that are given and are what the program has at the expressions. -/
def Branches.Spells (p : Program) : Branches → List (Option Nat × ExprId) → Prop
  | .nil, arms => arms = []
  | .cons tag body rest, arms => ∃ e later, arms = (tag, e) :: later ∧ body.Spells p e ∧
      rest.Spells p later

end

namespace Program

variable {family : Family} {p : Program}

/-! ## Names -/

theorem namedVar_eq_ok {v : VarId family} {named : NamedVar family} :
    p.namedVar v = .ok named ↔
      ∃ entry, p.varEntry? v = some entry ∧ ⟨entry.name, v.index⟩ = named := by
  simp only [namedVar, bind_eq_ok, pure_eq_ok]
  exact exists_congr fun entry => and_congr_left fun _ => Slots.fetch_eq_ok_iff

theorem namedUse_eq_ok {o : OccId family} {named : NamedUse family} :
    p.namedUse o = .ok named ↔ ∃ entry, p.occEntry? o = some entry ∧
      p.namedVar entry.var = .ok named.var ∧ entry.recursivity = named.recursivity := by
  simp only [namedUse, bind_eq_ok, pure_eq_ok]
  refine exists_congr fun entry => and_congr Slots.fetch_eq_ok_iff ?_
  constructor
  · rintro ⟨var, read, rfl⟩
    exact ⟨read, rfl⟩
  · rintro ⟨read, same⟩
    exact ⟨_, read, by rw [same]⟩

/-! ## Reading -/

mutual

/-- Reading an expression finds the term that spells it. -/
theorem termBy_of_spells : (t : Term) → {e : ExprId} → {depth : Nat} → t.Spells p e →
    p.Enough depth (.expr e) → p.termBy depth e = .ok t
  | t, e, 0, _, deep => deep.elim
  | .letIn var value body, e, depth + 1, spells, deep => by
    obtain ⟨v, operand, below, read, named, operands, inside⟩ := spells
    have child : .expr below ∈ p.childrenOf (.expr e) := by
      simp [childrenOf_expr read, Shape.children]
    rw [termBy, fetchShape_ok read]
    simp only [ok_bind, named, operands, termBy_of_spells body inside (deep _ child)]
    rfl
  | .group family members body, e, depth + 1, spells, deep => by
    obtain ⟨definitions, below, read, listed, inside⟩ := spells
    have child : .expr below ∈ p.childrenOf (.expr e) := by
      simp [childrenOf_expr read, Shape.children]
    have inner : readMembers (p.clauseBy depth) definitions = .ok members :=
      readMembers_of_spells members listed fun d mem =>
        deep _ (by simp [childrenOf_expr read, Shape.children, mem])
    rw [termBy, fetchShape_ok read]
    simp only [ok_bind, inner, termBy_of_spells body inside (deep _ child)]
    rfl
  | .primitive operator arguments continuation, e, depth + 1, spells, _ => by
    obtain ⟨uses, k, read, listed, next⟩ := spells
    rw [termBy, fetchShape_ok read]
    simp only [ok_bind, listed, next]
    rfl
  | .apply function arguments continuation, e, depth + 1, spells, _ => by
    obtain ⟨f, uses, k, read, callee, listed, next⟩ := spells
    rw [termBy, fetchShape_ok read]
    simp only [ok_bind, callee, listed, next]
    rfl
  | .jump continuation arguments, e, depth + 1, spells, _ => by
    obtain ⟨k, uses, read, next, listed⟩ := spells
    rw [termBy, fetchShape_ok read]
    simp only [ok_bind, listed, next]
    rfl
  | .caseOf scrutinee branches, e, depth + 1, spells, deep => by
    obtain ⟨o, map, otherwise, read, named, listed⟩ := spells
    have inner : readBranches (p.termBy depth) (map.arms otherwise) = .ok branches :=
      readBranches_of_spells branches listed fun arm mem =>
        deep _ (childrenOf_expr read ▸ CaseMap.mem_children_of_mem_arms mem)
    rw [termBy, fetchShape_ok read]
    simp only [ok_bind, named]
    change (readBranches (p.termBy depth) (map.arms otherwise) >>= _) = _
    rw [inner]
    rfl
  | .unreachable, e, depth + 1, spells, _ => by
    rw [termBy, fetchShape_ok spells]
    rfl

theorem clauseBy_of_spells : (c : Clause) → {d : DefId} → {depth : Nat} → c.Spells p d →
    p.Enough depth (.defn d) → p.clauseBy depth d = .ok c
  | c, d, 0, _, deep => deep.elim
  | .mk header parameters body, d, depth + 1, spells, deep => by
    obtain ⟨definition, read, named, bound, inside⟩ := spells
    have child : .expr definition.body ∈ p.childrenOf (.defn d) := by simp [childrenOf_defn read]
    rw [clauseBy, fetchDefinition_eq, read]
    simp only [ok_bind, named, bound, termBy_of_spells body inside (deep _ child)]
    rfl

theorem readMembers_of_spells : (m : Members) → {definitions : List DefId} → {depth : Nat} →
    m.Spells p definitions → (∀ d ∈ definitions, p.Enough depth (.defn d)) →
    readMembers (p.clauseBy depth) definitions = .ok m
  | .nil, _, depth, spells, _ => by
    rw [Members.Spells] at spells
    rw [spells, readMembers]
  | .cons first rest, _, depth, spells, deep => by
    obtain ⟨d, later, rfl, here, listed⟩ := spells
    obtain ⟨deepHere, deepLater⟩ := List.forall_mem_cons.1 deep
    rw [readMembers, clauseBy_of_spells first here deepHere,
      readMembers_of_spells rest listed deepLater]
    rfl

theorem readBranches_of_spells : (b : Branches) → {arms : List (Option Nat × ExprId)} →
    {depth : Nat} → b.Spells p arms → (∀ arm ∈ arms, p.Enough depth (.expr arm.2)) →
    readBranches (p.termBy depth) arms = .ok b
  | .nil, _, depth, spells, _ => by
    rw [Branches.Spells] at spells
    rw [spells, readBranches]
  | .cons tag body rest, _, depth, spells, deep => by
    obtain ⟨e, later, rfl, here, listed⟩ := spells
    obtain ⟨deepHere, deepLater⟩ := List.forall_mem_cons.1 deep
    rw [readBranches, termBy_of_spells body here deepHere,
      readBranches_of_spells rest listed deepLater]
    rfl

end

/-! ## Consistent programs -/

/-- The name of the definition, if it has one, is bound. -/
def NameBound (p : Program) (d : DefId) : Prop :=
  ∀ {family : Family} {v : VarId family}, p.nameOf family d = some v → ∃ n, ⟨v⟩ ∈ p.bindersOf n

/-- A list of definitions is spelled when each one is. -/
theorem exists_members {definitions : List DefId}
    (each : ∀ d ∈ definitions, ∃ clause : Clause, clause.Spells p d) :
    ∃ m : Members, m.Spells p definitions := by
  induction definitions with
  | nil => exact ⟨.nil, rfl⟩
  | cons d later ih =>
    obtain ⟨clause, first⟩ := each d List.mem_cons_self
    obtain ⟨m, rest⟩ := ih fun d mem => each d (List.mem_cons_of_mem _ mem)
    exact ⟨.cons clause m, d, later, rfl, first, rest⟩

/-- A list of arms is spelled when each body is. -/
theorem exists_branches {arms : List (Option Nat × ExprId)}
    (each : ∀ arm ∈ arms, ∃ t : Term, t.Spells p arm.2) : ∃ b : Branches, b.Spells p arms := by
  induction arms with
  | nil => exact ⟨.nil, rfl⟩
  | cons arm later ih =>
    obtain ⟨t, first⟩ := each arm List.mem_cons_self
    obtain ⟨b, rest⟩ := ih fun arm mem => each arm (List.mem_cons_of_mem _ mem)
    exact ⟨.cons arm.1 t b, arm.2, later, rfl, first, rest⟩

theorem exists_namedValue {operand : Value (OccId .value)}
    (each : ∀ o ∈ operand.uses, ∃ named, p.namedUse o = .ok named) :
    ∃ value, p.namedValue operand = .ok value := by
  cases operand with
  | constant literal => exact ⟨_, rfl⟩
  | «alias» source =>
    obtain ⟨named, read⟩ := each source List.mem_cons_self
    exact ⟨.alias named, by rw [namedValue, read]; rfl⟩
  | block tag fields =>
    obtain ⟨named, read⟩ : ∃ named, fields.mapM p.namedUse = .ok named := exists_mapM_eq_ok each
    exact ⟨.block tag named, by rw [namedValue, read]; rfl⟩

section Consistent

variable (c : Coherent p)
include c

theorem Coherent.exists_namedVar {n : Node} {v : VarId family} (binds : ⟨v⟩ ∈ p.bindersOf n) :
    ∃ named, p.namedVar v = .ok named := by
  obtain ⟨entry, -, read⟩ := fetchVariable_ok (c.binders.hasVariable binds)
  exact ⟨_, namedVar_eq_ok.2 ⟨entry, read, rfl⟩⟩

theorem Coherent.exists_namedUse {n : Node} {o : OccId family} (uses : ⟨o⟩ ∈ p.usesOf n) :
    ∃ named, p.namedUse o = .ok named := by
  obtain ⟨use, read, -⟩ := c.uses.holder uses
  obtain ⟨entry, found, -⟩ := c.uses.listed read
  exact ⟨⟨_, use.recursivity⟩, namedUse_eq_ok.2 ⟨use, read, namedVar_eq_ok.2 ⟨entry, found, rfl⟩, rfl⟩⟩

theorem Coherent.exists_namedHeader {d : DefId} {definition : Definition}
    (found : p.definitionOf? d = some definition) (bound : p.NameBound d) :
    ∃ header, p.namedHeader definition.header = .ok header := by
  have returns {k : VarId .continuation} (eq : definition.header.returnTo? = some k) :
      ∃ named, p.namedVar k = .ok named :=
    c.exists_namedVar (n := .defn d) (by simp [bindersOf_defn found, Definition.binders, eq])
  have name {family : Family} {v : VarId family} (eq : definition.header.name? family = some v) :
      ∃ named, p.namedVar v = .ok named := by
    obtain ⟨n, binds⟩ := bound (v := v) (by rw [nameOf, found]; exact eq)
    exact c.exists_namedVar binds
  obtain ⟨header, _, _, _⟩ := definition
  cases header with
  | root k =>
    obtain ⟨answer, read⟩ := returns (k := k) rfl
    exact ⟨.root answer, by rw [namedHeader, read]; rfl⟩
  | function f k visibility =>
    obtain ⟨own, named⟩ := name (v := f) rfl
    obtain ⟨answer, read⟩ := returns (k := k) rfl
    exact ⟨.function own answer visibility, by rw [namedHeader, named, ok_bind, read]; rfl⟩
  | continuation k =>
    obtain ⟨own, named⟩ := name (v := k) rfl
    exact ⟨.continuation own, by rw [namedHeader, named]; rfl⟩

/-- Some term spells each live expression, and some clause each definition with a bound name. -/
theorem Coherent.exists_spells {n : Node} (live : p.hasNode n = true) :
    (∀ e, n = .expr e → ∃ t : Term, t.Spells p e) ∧
      ∀ d, n = .defn d → p.NameBound d → ∃ clause : Clause, clause.Spells p d := by
  refine c.forest.induction (motive := fun n => (∀ e, n = .expr e → ∃ t : Term, t.Spells p e) ∧
    ∀ d, n = .defn d → p.NameBound d → ∃ clause : Clause, clause.Spells p d) ?_ live
  intro n live below
  constructor
  · rintro e rfl
    obtain ⟨shape, read⟩ := Option.isSome_iff_exists.1 (hasNode_expr p e ▸ live)
    have child (e' : ExprId) (mem : .expr e' ∈ shape.children) : ∃ t : Term, t.Spells p e' :=
      (below _ (childrenOf_expr read ▸ mem)).1 e' rfl
    have use {family : Family} (o : OccId family) (mem : ⟨o⟩ ∈ shape.uses) :
        ∃ named, p.namedUse o = .ok named :=
      c.exists_namedUse (n := .expr e) (usesOf_expr read ▸ mem)
    have list (uses : List (OccId .value)) (mem : ∀ o ∈ uses, ⟨o⟩ ∈ shape.uses) :
        ∃ named, uses.mapM p.namedUse = .ok named :=
      exists_mapM_eq_ok fun o listed => use o (mem o listed)
    cases shape with
    | letIn v operand body =>
      obtain ⟨var, named⟩ := c.exists_namedVar (n := .expr e) (v := v)
        (by simp [bindersOf_expr read, shapeBinders])
      obtain ⟨value, operands⟩ := exists_namedValue fun o mem =>
        use o (by simpa [Shape.uses] using mem)
      obtain ⟨t, spells⟩ := child body (by simp [Shape.children])
      exact ⟨.letIn var value t, v, operand, body, read, named, operands, spells⟩
    | group family members body =>
      have each : ∀ d ∈ members, ∃ clause : Clause, clause.Spells p d := by
        intro d mem
        refine (below _ ?_).2 d rfl ?_
        · simp [childrenOf_expr read, Shape.children, mem]
        · intro family v name
          obtain ⟨definition, found, named⟩ := Option.bind_eq_some_iff.1 name
          exact ⟨_, (name_mem_bindersOf c read mem found named).2⟩
      obtain ⟨clauses, listed⟩ := exists_members each
      obtain ⟨t, spells⟩ := child body (by simp [Shape.children])
      exact ⟨.group family clauses t, members, body, read, listed, spells⟩
    | primitive operator arguments k =>
      obtain ⟨named, listed⟩ := list arguments fun o mem => by simp [Shape.uses, mem]
      obtain ⟨next, last⟩ := use k (by simp [Shape.uses])
      exact ⟨.primitive operator named next, arguments, k, read, listed, last⟩
    | apply f arguments k =>
      obtain ⟨function, callee⟩ := use f (by simp [Shape.uses])
      obtain ⟨named, listed⟩ := list arguments fun o mem => by simp [Shape.uses, mem]
      obtain ⟨next, last⟩ := use k (by simp [Shape.uses])
      exact ⟨.apply function named next, f, arguments, k, read, callee, listed, last⟩
    | jump k arguments =>
      obtain ⟨next, first⟩ := use k (by simp [Shape.uses])
      obtain ⟨named, listed⟩ := list arguments fun o mem => by simp [Shape.uses, mem]
      exact ⟨.jump next named, k, arguments, read, first, listed⟩
    | caseOf o map otherwise =>
      obtain ⟨scrutinee, named⟩ := use o (by simp [Shape.uses])
      obtain ⟨branches, listed⟩ : ∃ b : Branches, b.Spells p (map.arms otherwise) :=
        exists_branches fun arm mem => child arm.2 (CaseMap.mem_children_of_mem_arms mem)
      exact ⟨.caseOf scrutinee branches, o, map, otherwise, read, named, listed⟩
    | «unreachable» => exact ⟨.unreachable, read⟩
  · rintro d rfl bound
    obtain ⟨definition, found⟩ := Option.isSome_iff_exists.1 (hasNode_defn p d ▸ live)
    obtain ⟨header, named⟩ := c.exists_namedHeader found bound
    obtain ⟨parameters, listed⟩ : ∃ named, definition.parameters.mapM p.namedVar = .ok named :=
      exists_mapM_eq_ok fun v mem => c.exists_namedVar (n := .defn d)
        (by simp [bindersOf_defn found, Definition.binders, mem])
    obtain ⟨t, spells⟩ := (below (.expr definition.body) (by simp [childrenOf_defn found])).1 _ rfl
    exact ⟨.mk header parameters t, definition, found, named, listed, spells⟩

end Consistent

/-! ## What the names are like -/

theorem forall_mem_of_mapM {α β : Type} {f : α → Except Fault β} {good : β → Prop} {list : List α}
    {results : List β} (each : ∀ a b, f a = .ok b → good b) (ok : list.mapM f = .ok results) :
    ∀ b ∈ results, good b := by
  have pairs := mapM_eq_ok ok
  clear ok
  induction pairs with
  | nil => exact List.forall_mem_nil _
  | cons first rest ih => exact List.forall_mem_cons.2 ⟨each _ _ first, ih⟩

/-- What the names of all variables are like. -/
def AllNames (p : Program) (like : String → Prop) : Prop :=
  ∀ {family : Family} {v : VarId family} {entry : VariableEntry family},
    p.varEntry? v = some entry → like entry.name

section Names

variable {like : String → Prop} (names : p.AllNames like)
include names

theorem name_of_namedVar {v : VarId family} {named : NamedVar family} (ok : p.namedVar v = .ok named) :
    like named.name := by
  obtain ⟨entry, read, rfl⟩ := namedVar_eq_ok.1 ok
  exact names read

theorem name_of_namedUse {o : OccId family} {named : NamedUse family} (ok : p.namedUse o = .ok named) :
    like named.var.name := by
  obtain ⟨entry, -, var, -⟩ := namedUse_eq_ok.1 ok
  exact name_of_namedVar names var

theorem names_of_namedVars {vars : List (VarId family)} {named : List (NamedVar family)}
    (ok : vars.mapM p.namedVar = .ok named) : ∀ name ∈ named.map (·.name), like name :=
  List.forall_mem_map.2 (forall_mem_of_mapM (fun _ _ => name_of_namedVar names) ok)

theorem names_of_namedUses {uses : List (OccId family)} {named : List (NamedUse family)}
    (ok : uses.mapM p.namedUse = .ok named) : ∀ name ∈ namesOf named, like name :=
  List.forall_mem_map.2 (forall_mem_of_mapM (fun _ _ => name_of_namedUse names) ok)

theorem names_of_namedValue {operand : Value (OccId .value)} {value : Value (NamedUse .value)}
    (ok : p.namedValue operand = .ok value) : ∀ name ∈ namesOf value.uses, like name := by
  cases operand with
  | constant literal =>
    cases ok
    exact List.forall_mem_nil _
  | «alias» source =>
    simp only [namedValue, bind_eq_ok, pure_eq_ok] at ok
    obtain ⟨use, read, rfl⟩ := ok
    simpa [namesOf, Value.uses] using name_of_namedUse names read
  | block tag fields =>
    simp only [namedValue, bind_eq_ok, pure_eq_ok] at ok
    obtain ⟨uses, read, rfl⟩ := ok
    exact names_of_namedUses names read

theorem names_of_namedHeader {header : Header} {named : NamedHeader}
    (ok : p.namedHeader header = .ok named) : ∀ name ∈ named.names, like name := by
  cases header with
  | root k =>
    simp only [namedHeader, bind_eq_ok, pure_eq_ok] at ok
    obtain ⟨answer, read, rfl⟩ := ok
    simpa [NamedHeader.names] using name_of_namedVar names read
  | function f k visibility =>
    simp only [namedHeader, bind_eq_ok, pure_eq_ok] at ok
    obtain ⟨own, read, answer, read', rfl⟩ := ok
    simpa [NamedHeader.names] using ⟨name_of_namedVar names read, name_of_namedVar names read'⟩
  | continuation k =>
    simp only [namedHeader, bind_eq_ok, pure_eq_ok] at ok
    obtain ⟨own, read, rfl⟩ := ok
    simpa [NamedHeader.names] using name_of_namedVar names read

end Names

mutual

/-- The names in a term are those of the variables in the program. -/
theorem names_of_spells {like : String → Prop} (names : p.AllNames like) : (t : Term) →
    {e : ExprId} → t.Spells p e → ∀ name ∈ t.names, like name
  | .letIn var value body, e, spells => by
    obtain ⟨v, operand, below, -, named, operands, inside⟩ := spells
    simp only [Term.names, List.forall_mem_append, List.forall_mem_cons]
    exact ⟨⟨name_of_namedVar names named, names_of_namedValue names operands⟩,
      names_of_spells names body inside⟩
  | .group family members body, e, spells => by
    obtain ⟨definitions, below, -, listed, inside⟩ := spells
    simp only [Term.names, List.forall_mem_append]
    exact ⟨names_of_members names members listed, names_of_spells names body inside⟩
  | .primitive operator arguments continuation, e, spells => by
    obtain ⟨uses, k, -, listed, next⟩ := spells
    simp only [Term.names, List.forall_mem_cons]
    exact ⟨name_of_namedUse names next, names_of_namedUses names listed⟩
  | .apply function arguments continuation, e, spells => by
    obtain ⟨f, uses, k, -, callee, listed, next⟩ := spells
    simp only [Term.names, List.forall_mem_cons]
    exact ⟨name_of_namedUse names callee, name_of_namedUse names next,
      names_of_namedUses names listed⟩
  | .jump continuation arguments, e, spells => by
    obtain ⟨k, uses, -, next, listed⟩ := spells
    simp only [Term.names, List.forall_mem_cons]
    exact ⟨name_of_namedUse names next, names_of_namedUses names listed⟩
  | .caseOf scrutinee branches, e, spells => by
    obtain ⟨o, map, otherwise, -, named, listed⟩ := spells
    simp only [Term.names, List.forall_mem_cons]
    exact ⟨name_of_namedUse names named, names_of_branches names branches listed⟩
  | .unreachable, _, _ => List.forall_mem_nil _

/-- The names in a clause that spells a definition are names of the program. -/
theorem names_of_clause {like : String → Prop} (names : p.AllNames like) : (c : Clause) →
    {d : DefId} → c.Spells p d → ∀ name ∈ c.names, like name
  | .mk header parameters body, d, spells => by
    obtain ⟨definition, -, named, bound, inside⟩ := spells
    simp only [Clause.names, List.forall_mem_append]
    exact ⟨⟨names_of_namedHeader names named, names_of_namedVars names bound⟩,
      names_of_spells names body inside⟩

theorem names_of_members {like : String → Prop} (names : p.AllNames like) : (m : Members) →
    {definitions : List DefId} → m.Spells p definitions → ∀ name ∈ m.names, like name
  | .nil, _, _ => List.forall_mem_nil _
  | .cons first rest, _, spells => by
    obtain ⟨d, later, -, here, listed⟩ := spells
    simp only [Members.names, List.forall_mem_append]
    exact ⟨names_of_clause names first here, names_of_members names rest listed⟩

theorem names_of_branches {like : String → Prop} (names : p.AllNames like) : (b : Branches) →
    {arms : List (Option Nat × ExprId)} → b.Spells p arms → ∀ name ∈ b.names, like name
  | .nil, _, _ => List.forall_mem_nil _
  | .cons tag body rest, _, spells => by
    obtain ⟨e, later, -, here, listed⟩ := spells
    simp only [Branches.names, List.forall_mem_append]
    exact ⟨names_of_spells names body here, names_of_branches names rest listed⟩

end

end Program

end ContinuationIR
