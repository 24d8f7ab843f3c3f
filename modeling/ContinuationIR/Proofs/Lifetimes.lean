import ContinuationIR.Overwrite
import ContinuationIR.Proofs.Persistence

/-!
# The lifetimes of handles

A run makes calls one after the other, from the empty program on. In each of the six spaces it gives
out the numbers from zero on, without a gap: what a call brings to life are the handles from the
number given out before it up to the number given out after it. A handle that was removed stays dead.
So a handle has one lifetime in a run, and as long as it is live it stands for one entity: a variable
keeps its name and its kind, an occurrence its holder, an expression its shape up to the children and
a definition all but its body.
-/

namespace ContinuationIR
set_option autoImplicit false

/-! ## Tables that are filled -/

namespace Slots

variable {space : Space} {α : Type} {r s t : Slots space α}

/-- The table `t` is a later state of `s`, and nothing was removed in between. -/
structure Fills (s t : Slots space α) : Prop where
  size : s.size ≤ t.size
  kept : ∀ {h : Handle space}, s.contains h = true → t.contains h = true
  new : ∀ {h : Handle space}, s.size ≤ h.index → h.index < t.size → t.contains h = true

theorem Fills.refl (s : Slots space α) : Fills s s :=
  ⟨Nat.le_refl _, id, fun old new => absurd new (Nat.not_lt.2 old)⟩

theorem Fills.trans (first : Fills r s) (second : Fills s t) : Fills r t := by
  refine ⟨Nat.le_trans first.size second.size, fun live => second.kept (first.kept live), ?_⟩
  intro h old new
  by_cases early : h.index < s.size
  · exact second.kept (first.new old early)
  · exact second.new (Nat.not_lt.1 early) new

/-- Only the slot of the new handle is added, and it is filled. -/
theorem fills_push (s : Slots space α) (a : α) : Fills s (s.push a) := by
  have contains (h : Handle space) :
      (s.push a).contains h = (decide (h = s.next) || s.contains h) := by
    by_cases eq : h = s.next <;> simp [Slots.contains, get?_push, eq]
  refine ⟨by simp, fun live => by simp [contains, live], fun {h} old new => ?_⟩
  have last : h.index = s.size := by
    rw [size_push] at new
    omega
  simp [contains, show h = s.next from Handle.ext_index last]

theorem fills_modify (s : Slots space α) (k : Handle space) (f : α → α) : Fills s (s.modify k f) := by
  refine ⟨by simp, fun live => by simpa using live, fun old new => ?_⟩
  rw [size_modify] at new
  exact absurd new (Nat.not_lt.2 old)

/-- What is live in an earlier and in a later state is live in between. -/
theorem Later.between {same : α → α → Prop} (first : Later same r s) (second : Later same s t)
    {h : Handle space} {a c : α} (before : r.get? h = some a) (after : t.get? h = some c) :
    ∃ b, s.get? h = some b := by
  have old : h.index < s.size := Nat.lt_of_lt_of_le (index_lt_size before) first.size
  obtain ⟨b, found, -⟩ := second.entry after old
  exact ⟨b, found⟩

end Slots

namespace Program

open Edit Outcome

variable {family : Family} {space : Space} {p q r : Program}

/-! ## Handles of all spaces -/

/-- A live handle is among those issued. -/
theorem index_lt_issued {h : Handle space} (live : p.isLive ⟨h⟩ = true) :
    h.index < p.issued space := by
  cases space with
  | expression | definition | var _ | occ _ =>
    obtain ⟨entry, read⟩ := Slots.contains_iff.1 live
    exact Slots.index_lt_size read

/-- Handles are never taken back. -/
theorem Later.issued_le (later : Later p q) (space : Space) : p.issued space ≤ q.issued space := by
  cases space with
  | expression => exact later.expressions.size
  | definition => exact later.definitions.size
  | var family => exact (later.table family).vars.size
  | occ family => exact (later.table family).occurrences.size

/-- What is live among the handles given out before was live before. -/
theorem Later.isLive (later : Later p q) {h : Handle space} (live : q.isLive ⟨h⟩ = true)
    (old : h.index < p.issued space) : p.isLive ⟨h⟩ = true := by
  have before {α : Type} {same : α → α → Prop} {s t : Slots space α}
      (later : Slots.Later same s t) (live : t.contains h = true) (old : h.index < s.size) :
      s.contains h = true := by
    obtain ⟨entry, read⟩ := Slots.contains_iff.1 live
    obtain ⟨former, found, -⟩ := later.entry read old
    exact Slots.contains_iff.2 ⟨former, found⟩
  cases space with
  | expression => exact before later.expressions live old
  | definition => exact before later.definitions live old
  | var family => exact before (later.table family).vars live old
  | occ family => exact before (later.table family).occurrences live old

/-! ## What building brings to life -/

/-- The program `q` is a later state of `p`, and nothing was removed in between. -/
structure Fills (p q : Program) : Prop where
  expressions : Slots.Fills p.expressions q.expressions
  definitions : Slots.Fills p.definitions q.definitions
  vars : ∀ family, Slots.Fills (p.table family).vars (q.table family).vars
  occurrences : ∀ family, Slots.Fills (p.table family).occurrences (q.table family).occurrences

theorem Fills.refl (p : Program) : Fills p p :=
  ⟨.refl _, .refl _, fun _ => .refl _, fun _ => .refl _⟩

theorem Fills.trans (first : Fills p q) (second : Fills q r) : Fills p r :=
  ⟨first.expressions.trans second.expressions, first.definitions.trans second.definitions,
    fun family => (first.vars family).trans (second.vars family),
    fun family => (first.occurrences family).trans (second.occurrences family)⟩

/-- Every handle issued between two states of building is live in the second. -/
theorem Fills.isLive (fills : Fills p q) {h : Handle space} (old : p.issued space ≤ h.index)
    (new : h.index < q.issued space) : q.isLive ⟨h⟩ = true := by
  cases space with
  | expression => exact fills.expressions.new old new
  | definition => exact fills.definitions.new old new
  | var family => exact (fills.vars family).new old new
  | occ family => exact (fills.occurrences family).new old new

theorem fills_modifyTable {f : VariableTable family → VariableTable family}
    (vars : Slots.Fills (p.table family).vars (f (p.table family)).vars)
    (occurrences : Slots.Fills (p.table family).occurrences (f (p.table family)).occurrences) :
    Fills p (p.modifyTable family f) := by
  have tables (other : Family) :
      Slots.Fills (p.table other).vars ((p.modifyTable family f).table other).vars ∧
        Slots.Fills (p.table other).occurrences
          ((p.modifyTable family f).table other).occurrences := by
    by_cases eq : other = family
    · subst eq
      rw [table_modifyTable]
      exact ⟨vars, occurrences⟩
    · rw [table_modifyTable_of_ne _ _ eq]
      exact ⟨.refl _, .refl _⟩
  refine ⟨?_, ?_, fun other => (tables other).1, fun other => (tables other).2⟩
  · rw [expressions_modifyTable]
    exact .refl _
  · rw [definitions_modifyTable]
    exact .refl _

/-- A fresh variable is live, and nothing else is issued. -/
theorem fills_fresh (p : Program) (family : Family) (name : String) (kind : Kind) :
    Fills p (p.freshVariable family name kind).1 :=
  fills_modifyTable (Slots.fills_push _ _) (.refl _)

/-- What the writes that prepare a node do to the handles: they remove nothing and give out
occurrences only. -/
structure Readies (p q : Program) : Prop where
  fills : Fills p q
  expressions : q.expressions.size = p.expressions.size
  definitions : q.definitions.size = p.definitions.size

instance : IsPreorder Program Readies where
  refl p := ⟨.refl p, rfl, rfl⟩
  trans _ _ _ first second := ⟨first.fills.trans second.fills,
    second.expressions.trans first.expressions, second.definitions.trans first.definitions⟩

theorem readies_modifyTable {f : VariableTable family → VariableTable family}
    (vars : Slots.Fills (p.table family).vars (f (p.table family)).vars)
    (occurrences : Slots.Fills (p.table family).occurrences (f (p.table family)).occurrences) :
    Readies p (p.modifyTable family f) :=
  ⟨fills_modifyTable vars occurrences, by rw [expressions_modifyTable],
    by rw [definitions_modifyTable]⟩

theorem readies_setEnclosing (p : Program) (child : Node) (parent : Option Node) :
    Readies p (p.setEnclosing child parent) := by
  have tables (family : Family) : (p.setEnclosing child parent).table family = p.table family :=
    table_setEnclosing
  refine ⟨⟨?_, ?_, fun family => ?_, fun family => ?_⟩, ?_, ?_⟩
  · unfold setEnclosing
    split
    · exact Slots.fills_modify _ _ _
    · exact .refl _
    · exact .refl _
  · unfold setEnclosing
    split
    · exact .refl _
    · exact Slots.fills_modify _ _ _
    · exact Slots.fills_modify _ _ _
  · rw [tables family]
    exact .refl _
  · rw [tables family]
    exact .refl _
  · unfold setEnclosing
    split <;> simp
  · unfold setEnclosing
    split <;> simp

theorem preparing_readies : Preparing Readies where
  made _ _ _ := readies_modifyTable (.refl _) (Slots.fills_push _ _)
  listed _ _ _ := readies_modifyTable (Slots.fills_modify _ _ _) (.refl _)
  bound _ _ _ := readies_modifyTable (Slots.fills_modify _ _ _) (.refl _)
  enclosed child parent p := readies_setEnclosing p child parent

/-- A call that adds one node fills the slot it issues for it. -/
theorem Adds.fills {outcome : Outcome Refusal Answer} (adds : Adds Readies p space outcome) :
    Fills p outcome.program := by
  cases adds with
  | @expression q shape _ ready =>
    refine ready.fills.trans ⟨Slots.fills_push _ _, .refl _, ?_, ?_⟩
    · exact fun family => by cases family <;> exact .refl _
    · exact fun family => by cases family <;> exact .refl _
  | @definition q definition _ ready =>
    refine ready.fills.trans ⟨.refl _, Slots.fills_push _ _, ?_, ?_⟩
    · exact fun family => by cases family <;> exact .refl _
    · exact fun family => by cases family <;> exact .refl _
  | failed ready => exact ready.fills

/-- The handle that a call answers was reserved before anything else was made, and it is the one
that is given out at the end. -/
theorem Adds.answer {outcome : Outcome Refusal Answer} {answer : Answer}
    (adds : Adds Readies p space outcome) (ok : outcome.result = .ok answer) :
    answer = .number (p.issued space) ∧ outcome.program.issued space = p.issued space + 1 := by
  cases adds with
  | @expression q shape _ ready =>
    cases ok
    have same : q.expressions.size = p.expressions.size := ready.expressions
    exact ⟨congrArg Answer.number same, by simp [issued, same]⟩
  | @definition q definition _ ready =>
    cases ok
    have same : q.definitions.size = p.definitions.size := ready.definitions
    exact ⟨congrArg Answer.number same, by simp [issued, same]⟩
  | failed _ => cases ok

/-- An expression that a call gives out is its answer. -/
theorem Adds.answer_of_new {outcome : Outcome Refusal Answer} {answer : Answer} {e : ExprId}
    (adds : Adds Readies p space outcome) (ok : outcome.result = .ok answer)
    (old : p.issued .expression ≤ e.index) (new : e.index < outcome.program.issued .expression) :
    answer = .ofHandle e := by
  cases adds with
  | @expression q shape _ ready =>
    cases ok
    have same : q.expressions.size = p.expressions.size := ready.expressions
    have bound : e.index < (q.expressions.push ⟨shape, none⟩).size := new
    have least : p.expressions.size ≤ e.index := old
    rw [Slots.size_push] at bound
    have index : e.index = q.expressions.size := by omega
    exact congrArg Answer.number index.symm
  | @definition q definition _ ready =>
    have same : q.expressions.size = p.expressions.size := ready.expressions
    have bound : e.index < q.expressions.size := new
    rw [same] at bound
    exact absurd old (Nat.not_le.2 bound)
  | failed _ => cases ok

/-- A call that changes nothing fills every slot it issues. -/
theorem fills_perform (p : Program) {call : Call} (builds : ¬ call.IsChange) :
    Fills p (p.perform call).program := by
  rcases Call.cases_of_not_isChange builds with
    adds | ⟨name, kind, rfl⟩ | ⟨name, rfl⟩ | ⟨root, rfl⟩
  · obtain ⟨space, -, added⟩ := adds_perform (p := p) preparing_readies adds
    exact added.fills
  · exact fills_fresh p .value name kind
  · exact fills_fresh p .continuation name .any
  · refine program_install (.refl p) ⟨.refl _, .refl _, ?_, ?_⟩
    · exact fun family => by cases family <;> exact .refl _
    · exact fun family => by cases family <;> exact .refl _

/-- A call brings to life the next handles of each space, without a gap, and no other. -/
theorem newly_live_iff (p : Program) (call : Call) (h : Handle space) :
    p.isLive ⟨h⟩ = false ∧ (p.perform call).program.isLive ⟨h⟩ = true ↔
      p.issued space ≤ h.index ∧ h.index < (p.perform call).program.issued space := by
  constructor
  · rintro ⟨dead, live⟩
    refine ⟨?_, index_lt_issued live⟩
    by_contra old
    rw [(later_perform p call).isLive live (Nat.not_le.1 old)] at dead
    cases dead
  · rintro ⟨old, new⟩
    constructor
    · by_contra live
      exact absurd (index_lt_issued (Bool.not_eq_false _ ▸ live)) (Nat.not_lt.2 old)
    · by_cases change : call.IsChange
      · rw [(settled_perform p change).issued] at new
        exact absurd new (Nat.not_lt.2 old)
      · exact (fills_perform p change).isLive old new

/-- A call that makes something answers the next handle of its space. -/
theorem answer_of_creates (p : Program) {call : Call} {answer : Answer}
    (creates : call.creates = some space) (ok : (p.perform call).result = .ok answer) :
    answer = .number (p.issued space) ∧
      (p.perform call).program.issued space = p.issued space + 1 := by
  by_cases adds : call.AddsNode
  · obtain ⟨other, same, added⟩ := adds_perform (p := p) preparing_readies adds
    obtain rfl : other = space := Option.some.inj (same.symm.trans creates)
    exact added.answer ok
  · cases call with
    | freshValue name kind =>
      cases creates
      cases ok
      exact ⟨rfl, Slots.size_push _ _⟩
    | freshContinuation name =>
      cases creates
      cases ok
      exact ⟨rfl, Slots.size_push _ _⟩
    | install | substitute | substituteAll | replace | removeDeadLet | removeDeadDefinition
    | selectCaseBranch | discard => cases creates
    | _ => exact absurd trivial adds

/-- The occurrences that a call brings to life are held by the expression that it answers. -/
theorem answer_of_new_occurrence (quiet : p.verifying = false) (call : Call) {o : OccId family}
    {entry : OccurrenceEntry family} (dead : p.occEntry? o = none)
    (live : (p.perform call).program.occEntry? o = some entry) :
    (p.perform call).result = .ok (.ofHandle entry.holder) := by
  have same (nodes : SameNodes p (p.perform call).program) : False := by
    have eq := nodes.holder o
    rw [dead, live] at eq
    cases eq
  by_cases change : call.IsChange
  · have old : o.index < p.issued (.occ family) := by
      rw [← (settled_perform p change).issued]
      exact Slots.index_lt_size live
    obtain ⟨a, found, -⟩ := ((later_perform p call).table family).occurrences.entry live old
    rw [show (p.table family).occurrences.get? o = none from dead] at found
    cases found
  · rcases Call.cases_of_not_isChange change with
      adds | ⟨name, kind, rfl⟩ | ⟨name, rfl⟩ | ⟨root, rfl⟩
    · obtain ⟨space, -, added⟩ := adds_perform (p := p) preparing_readies adds
      have fresh := newly_live_iff p call entry.holder
      have ends := ends_adding (p := p) adds
      generalize p.perform call = outcome at live added fresh ends ⊢
      cases ends with
      | @done answer q log enlarged =>
        obtain ⟨node, role, draft, grown, -⟩ := enlarged
        have minted : ∃ m, ⟨o, m⟩ ∈ draft.minted := by
          by_contra none
          rw [grown.kept (not_exists.1 none), dead] at live
          cases live
        obtain ⟨m, mem⟩ := minted
        obtain ⟨-, e, rfl, read⟩ := grown.minted mem
        have holder : entry = ⟨m.var, m.recursivity, e⟩ := Option.some.inj (live.symm.trans read)
        subst holder
        have standing : q.hasNode (.expr e) = true :=
          enclosing_ok_iff_hasNode.1 ⟨none, by rw [grown.enclosing, if_pos rfl]⟩
        obtain ⟨old, new⟩ := fresh.1 ⟨grown.fresh, standing⟩
        exact congrArg Except.ok (added.answer_of_new rfl old new)
      | refused =>
        rw [dead] at live
        cases live
      | halted checking =>
        rw [quiet] at checking
        cases checking
    · exact (same sameNodes_fresh).elim
    · exact (same sameNodes_fresh).elim
    · exact (same (program_install (.refl p) (sameNodes_withRoot p root))).elim

/-! ## What a live handle stands for -/

/-- What is live in both programs is the same: a variable has its name and its kind, an occurrence
its holder, an expression its shape up to the children and a definition all but its body. -/
structure SameEntities (p q : Program) : Prop where
  label : ∀ {family : Family} {v : VarId family} {a b : VariableEntry family},
    p.varEntry? v = some a → q.varEntry? v = some b → b.name = a.name ∧ b.kind = a.kind
  holder : ∀ {family : Family} {o : OccId family} {a b : OccurrenceEntry family},
    p.occEntry? o = some a → q.occEntry? o = some b → b.holder = a.holder
  shape : ∀ {e : ExprId} {a b : Shape}, p.shapeOf? e = some a → q.shapeOf? e = some b →
    ∃ keep place, b = a.contract keep place
  definition : ∀ {d : DefId} {a b : Definition}, p.definitionOf? d = some a →
    q.definitionOf? d = some b → ∃ body, b = { a with body }

/-- Writes that leave the nodes alone leave every live handle what it stands for. -/
theorem SameNodes.sameEntities (same : SameNodes p q) (later : Later p q) : SameEntities p q where
  label := later.name_eq
  holder {_ o a b} before after := by
    have eq := same.holder o
    rw [before, after] at eq
    exact Option.some.inj eq
  shape {e a b} before after := by
    rw [same.shape, before] at after
    cases after
    exact ⟨_, _, a.contract_id.symm⟩
  definition {d a b} before after := by
    rw [same.definition, before] at after
    cases after
    exact ⟨a.body, rfl⟩

theorem SameEntities.refl (p : Program) : SameEntities p p :=
  (SameNodes.refl p).sameEntities (Later.refl p)

/-- What a trimmed program still holds stands for what it stood for. -/
theorem Trimmed.sameEntities (trimmed : Trimmed p q) (later : Later p q) : SameEntities p q := by
  obtain ⟨cut, -, pruned⟩ := trimmed
  refine ⟨later.name_eq, ?_, ?_, ?_⟩
  · intro _ o a b before after
    obtain ⟨old, found, -, -, holder, -⟩ := pruned.entry after
    rw [before] at found
    cases found
    exact holder
  · intro e a b before after
    have live : q.hasNode (.expr e) = true := by rw [hasNode_expr, after, Option.isSome_some]
    rw [pruned.shape (pruned.stays live), before] at after
    cases after
    exact ⟨_, _, rfl⟩
  · intro d a b before after
    have live : q.hasNode (.defn d) = true := by rw [hasNode_defn, after, Option.isSome_some]
    rw [pruned.definition (pruned.stays live), before] at after
    cases after
    exact ⟨_, rfl⟩

/-- No change gives a handle another meaning. -/
theorem Changed.sameEntities (changed : Changed p q) (later : Later p q) : SameEntities p q := by
  cases changed with
  | moved h => exact h.toSameNodes.sameEntities later
  | trimmed h => exact h.sameEntities later

/-- Building gives no old handle another meaning. -/
theorem Enlarged.sameEntities (enlarged : Enlarged p q) (later : Later p q) :
    SameEntities p q := by
  obtain ⟨node, role, draft, grown, -⟩ := enlarged
  refine ⟨later.name_eq, ?_, ?_, ?_⟩
  · intro _ o a b before after
    have old : ∀ m, ⟨o, m⟩ ∉ draft.minted := by
      intro m mem
      rw [(grown.minted mem).1] at before
      cases before
    rw [grown.kept old, before] at after
    cases after
    rfl
  · intro e a b before after
    have old : .expr e ≠ node := by
      rintro rfl
      have dead := grown.fresh
      rw [hasNode_expr, before] at dead
      cases dead
    rw [grown.shape e old, before] at after
    cases after
    exact ⟨_, _, a.contract_id.symm⟩
  · intro d a b before after
    have old : .defn d ≠ node := by
      rintro rfl
      have dead := grown.fresh
      rw [hasNode_defn, before] at dead
      cases dead
    rw [grown.definition d old, before] at after
    cases after
    exact ⟨a.body, rfl⟩

/-- A call leaves every live handle standing for what it stood for. -/
theorem sameEntities_perform (c : Consistent p) (quiet : p.verifying = false) (call : Call) :
    SameEntities p (p.perform call).program := by
  have later := later_perform p call
  by_cases change : call.IsChange
  · have changed := (ends_perform c.toCoherent change).program quiet (.moved (Moved.refl c.toCoherent))
    exact changed.sameEntities later
  · rcases Call.cases_of_not_isChange change with
      adds | ⟨name, kind, rfl⟩ | ⟨name, rfl⟩ | ⟨root, rfl⟩
    · have ends : (p.perform call).Ends p (fun q => Enlarged p q ∨ q = p) :=
        (ends_adding adds).mono fun _ => .inl
      rcases ends.program quiet (.inr rfl) with enlarged | same
      · exact enlarged.sameEntities later
      · rw [same]
        exact .refl p
    · exact sameNodes_fresh.sameEntities later
    · exact sameNodes_fresh.sameEntities later
    · have same : SameNodes p (p.install root).program :=
        program_install (.refl p) (sameNodes_withRoot p root)
      exact same.sameEntities later

/-- What is live at the ends of two stretches was live in between, so it is the same over both. -/
theorem SameEntities.trans (first : SameEntities p q) (second : SameEntities q r)
    (later : Later p q) (later' : Later q r) : SameEntities p r := by
  refine ⟨(later.trans later').name_eq, ?_, ?_, ?_⟩
  · intro family o a c before after
    obtain ⟨b, mid⟩ := (later.table family).occurrences.between (later'.table family).occurrences
      before after
    exact (second.holder mid after).trans (first.holder before mid)
  · intro e a c before after
    obtain ⟨entry, found, rfl⟩ := Option.map_eq_some_iff.1 before
    obtain ⟨entry', found', rfl⟩ := Option.map_eq_some_iff.1 after
    obtain ⟨b, mid⟩ := later.expressions.between later'.expressions found found'
    have mid' : q.shapeOf? e = some b.shape := congrArg _ mid
    obtain ⟨keep, place, eq⟩ := first.shape before mid'
    obtain ⟨keep', place', eq'⟩ := second.shape mid' after
    exact ⟨_, _, by rw [eq', eq, Shape.contract_contract]⟩
  · intro d a c before after
    obtain ⟨entry, found, rfl⟩ := Option.map_eq_some_iff.1 before
    obtain ⟨entry', found', rfl⟩ := Option.map_eq_some_iff.1 after
    obtain ⟨b, mid⟩ := later.definitions.between later'.definitions found found'
    have mid' : q.definitionOf? d = some b.definition := congrArg _ mid
    obtain ⟨body, eq⟩ := first.definition before mid'
    obtain ⟨body', eq'⟩ := second.definition mid' after
    exact ⟨body', by rw [eq', eq]⟩

/-! ## Runs -/

/-- The program after the first `i` calls of a run. -/
def stage (calls : List Call) (i : Nat) : Program := run (calls.take i)

section Runs

variable {calls : List Call} {i j k : Nat}

/-- Each stage of a run is the one before it after one more call. -/
theorem stage_succ {call : Call} (made : calls[i]? = some call) :
    stage calls (i + 1) = ((stage calls i).perform call).program := by
  simp [stage, run, performAll, List.take_add_one, made]

theorem stage_succ_of_length_le (past : calls.length ≤ i) :
    stage calls (i + 1) = stage calls i := by
  rw [stage, stage, List.take_of_length_le past, List.take_of_length_le (Nat.le_succ_of_le past)]

theorem issued_zero (calls : List Call) (space : Space) : (stage calls 0).issued space = 0 := by
  cases space with
  | expression | definition => rfl
  | var family | occ family => cases family <;> rfl

theorem reachable_stage (calls : List Call) (i : Nat) : Reachable (stage calls i) := reachable_run _

/-- What every call keeps is kept between any two stages of a run. -/
theorem stage_induction {motive : Program → Program → Prop} (refl : ∀ p, motive p p)
    (step : ∀ {p q} (call : Call), Reachable q → motive p q → motive p (q.perform call).program)
    (le : i ≤ j) : motive (stage calls i) (stage calls j) := by
  induction le with
  | refl => exact refl _
  | @step j _ ih =>
    by_cases past : calls.length ≤ j
    · rwa [stage_succ_of_length_le past]
    · rw [stage_succ (List.getElem?_eq_getElem (Nat.not_le.1 past))]
      exact step _ (reachable_stage calls j) ih

/-- The stages of a run are ordered in time. -/
theorem later_stage (le : i ≤ j) : Later (stage calls i) (stage calls j) :=
  stage_induction Later.refl (fun call _ later => later.trans (later_perform _ call)) le

/-- From one stage of a run to any later one, every live handle keeps what it stands for. -/
theorem sameEntities_stage (le : i ≤ j) : SameEntities (stage calls i) (stage calls j) := by
  refine (stage_induction (motive := fun p q => Later p q ∧ SameEntities p q)
    (fun p => ⟨.refl p, .refl p⟩) ?_ le).2
  intro p q call reachable same
  have later := later_perform q call
  have entities := sameEntities_perform reachable.consistent.1 reachable.consistent.2 call
  exact ⟨same.1.trans later, same.2.trans entities same.1 later⟩

/-- A handle that was live and is not any more stays dead. -/
theorem dead_of_removed {h : Handle space} (before : i ≤ j) (after : j ≤ k)
    (live : (stage calls i).isLive ⟨h⟩ = true) (dead : (stage calls j).isLive ⟨h⟩ = false) :
    (stage calls k).isLive ⟨h⟩ = false := by
  by_contra again
  have old : h.index < (stage calls j).issued space :=
    Nat.lt_of_lt_of_le (index_lt_issued live) ((later_stage before).issued_le space)
  rw [(later_stage after).isLive (Bool.not_eq_false _ ▸ again) old] at dead
  cases dead

/-- The calls after which a handle is live are consecutive, and the first of them made it. -/
theorem exists_creation {h : Handle space} (live : (stage calls i).isLive ⟨h⟩ = true) :
    ∃ k < i, ∀ j ≤ i, (stage calls j).isLive ⟨h⟩ = true ↔ k < j := by
  induction i with
  | zero =>
    have lt := index_lt_issued live
    rw [issued_zero] at lt
    exact absurd lt (Nat.not_lt_zero _)
  | succ i ih =>
    cases before : (stage calls i).isLive ⟨h⟩ with
    | true =>
      obtain ⟨k, lt, iff⟩ := ih before
      refine ⟨k, Nat.lt_succ_of_lt lt, fun j le => ?_⟩
      rcases Nat.le_succ_iff.1 le with le | rfl
      · exact iff j le
      · exact ⟨fun _ => Nat.lt_succ_of_lt lt, fun _ => live⟩
    | false =>
      refine ⟨i, Nat.lt_succ_self i, fun j le => ?_⟩
      rcases Nat.le_succ_iff.1 le with le | rfl
      · refine ⟨fun early => ?_, fun lt => absurd lt (Nat.not_lt.2 le)⟩
        rw [dead_of_removed le (Nat.le_succ i) early before] at live
        cases live
      · exact ⟨fun _ => Nat.lt_succ_self i, fun _ => live⟩

/-- The handles of a run. -/
structure Lifetimes (calls : List Call) : Prop where
  start : ∀ space, (stage calls 0).issued space = 0
  /-- A call brings to life the next handles of each space, without a gap, and no other. -/
  consecutive : ∀ {i : Nat} {call : Call}, calls[i]? = some call →
    ∀ {space : Space} (h : Handle space),
      (stage calls i).isLive ⟨h⟩ = false ∧ (stage calls (i + 1)).isLive ⟨h⟩ = true ↔
        (stage calls i).issued space ≤ h.index ∧ h.index < (stage calls (i + 1)).issued space
  /-- A call that makes something answers the handle of it, the next of its space. -/
  answered : ∀ {i : Nat} {call : Call} {space : Space} {answer : Answer}, calls[i]? = some call →
    call.creates = some space → ((stage calls i).perform call).result = .ok answer →
      answer = .number ((stage calls i).issued space) ∧
        (stage calls (i + 1)).issued space = (stage calls i).issued space + 1
  /-- The occurrences that a call brings to life are held by the expression that it answers. -/
  held : ∀ {i : Nat} {call : Call} {family : Family} {o : OccId family}
    {entry : OccurrenceEntry family}, calls[i]? = some call → occEntry? (stage calls i) o = none →
      occEntry? (stage calls (i + 1)) o = some entry →
        ((stage calls i).perform call).result = .ok (.ofHandle entry.holder)
  /-- A live handle was made by one call and has been live since. -/
  created : ∀ {i : Nat} {space : Space} {h : Handle space}, (stage calls i).isLive ⟨h⟩ = true →
    ∃ k < i, ∀ j ≤ i, (stage calls j).isLive ⟨h⟩ = true ↔ k < j
  removed : ∀ {i j k : Nat} {space : Space} {h : Handle space}, i ≤ j → j ≤ k →
    (stage calls i).isLive ⟨h⟩ = true → (stage calls j).isLive ⟨h⟩ = false →
      (stage calls k).isLive ⟨h⟩ = false
  same : ∀ {i j : Nat}, i ≤ j → SameEntities (stage calls i) (stage calls j)

/-- In every run the handles of each space are given out from zero on without a gap, and each of them
is dead or stands for what it was made for. -/
theorem handles_never_reissued (calls : List Call) : Lifetimes calls where
  start := issued_zero calls
  consecutive {i call} made space h := by
    rw [stage_succ made]
    exact newly_live_iff _ call h
  answered made creates ok := by
    rw [stage_succ made]
    exact answer_of_creates _ creates ok
  held {i call _ _ _} made dead live := by
    rw [stage_succ made] at live
    exact answer_of_new_occurrence (reachable_stage calls i).consistent.2 call dead live
  created := exists_creation
  removed := dead_of_removed
  same := sameEntities_stage

end Runs

end Program

end ContinuationIR
