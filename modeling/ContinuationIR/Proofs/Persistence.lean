import Mathlib.Order.Defs.Unbundled
import ContinuationIR.Proofs.Invariant

/-!
# What persists from call to call

A slot table never gives a handle out twice: a later state of it has given out at least as many, and
what is live in it among the earlier ones was live before. A variable keeps its name and its kind.
Changes give out no handle at all. Both hold of every single write, so they hold of every edit and
of every call, also if it breaks down halfway.
-/

namespace ContinuationIR
set_option autoImplicit false

/-! ## Later states of a table -/

namespace Slots

variable {space : Space} {α : Type} {same : α → α → Prop} {r s t : Slots space α}

/-- The table `t` is a later state of `s`, in which live entries are still the same. -/
structure Later (same : α → α → Prop) (s t : Slots space α) : Prop where
  size : s.size ≤ t.size
  entry : ∀ {h : Handle space} {b : α}, t.get? h = some b → h.index < s.size →
    ∃ a, s.get? h = some a ∧ same a b

theorem Later.refl (reflexive : ∀ a, same a a) (s : Slots space α) : Later same s s :=
  ⟨Nat.le_refl _, fun read _ => ⟨_, read, reflexive _⟩⟩

theorem Later.trans (transitive : ∀ {a b c}, same a b → same b c → same a c)
    (first : Later same r s) (second : Later same s t) : Later same r t := by
  refine ⟨Nat.le_trans first.size second.size, fun read old => ?_⟩
  obtain ⟨b, mid, kept⟩ := second.entry read (Nat.lt_of_lt_of_le old first.size)
  obtain ⟨a, start, kept'⟩ := first.entry mid old
  exact ⟨a, start, transitive kept' kept⟩

/-- A push leaves every entry where it is. -/
theorem later_push (reflexive : ∀ a, same a a) (s : Slots space α) (a : α) :
    Later same s (s.push a) := by
  refine ⟨by simp, fun {h b} read old => ⟨b, ?_, reflexive b⟩⟩
  have ne : h ≠ s.next := by
    rintro rfl
    exact Nat.lt_irrefl _ old
  rwa [get?_push_of_ne a ne] at read

/-- Writing to an entry is a later state when the write keeps what the relation compares. -/
theorem later_modify (reflexive : ∀ a, same a a) (s : Slots space α) (k : Handle space) {f : α → α}
    (keeps : ∀ a, same a (f a)) : Later same s (s.modify k f) := by
  refine ⟨by simp, fun {h b} read _ => ?_⟩
  by_cases eq : h = k
  · subst eq
    rw [get?_modify_self, Option.map_eq_some_iff] at read
    obtain ⟨a, found, rfl⟩ := read
    exact ⟨a, found, keeps a⟩
  · rw [get?_modify_of_ne _ _ eq] at read
    exact ⟨b, read, reflexive b⟩

/-- Removal leaves every other entry as it was. -/
theorem later_remove (reflexive : ∀ a, same a a) (s : Slots space α) (k : Handle space) :
    Later same s (s.remove k) := by
  refine ⟨by simp, fun {h b} read _ => ?_⟩
  rw [get?_remove] at read
  split at read
  · cases read
  · exact ⟨b, read, reflexive b⟩

end Slots

/-- The name and the kind of a variable are the same. -/
def VariableEntry.SameLabel {family : Family} (a b : VariableEntry family) : Prop :=
  b.name = a.name ∧ b.kind = a.kind

/-- Any two entries count as the same. -/
def anyEntry {α : Type} (_ _ : α) : Prop := True

namespace VariableTable

variable {family : Family} {s t u : VariableTable family}

structure Later (s t : VariableTable family) : Prop where
  vars : Slots.Later VariableEntry.SameLabel s.vars t.vars
  occurrences : Slots.Later anyEntry s.occurrences t.occurrences

theorem Later.refl (t : VariableTable family) : Later t t :=
  ⟨.refl (fun _ => ⟨rfl, rfl⟩) _, .refl (fun _ => trivial) _⟩

theorem Later.trans (first : Later s t) (second : Later t u) : Later s u :=
  ⟨first.vars.trans (fun a b => ⟨b.1.trans a.1, b.2.trans a.2⟩) second.vars,
    first.occurrences.trans (fun _ _ => trivial) second.occurrences⟩

/-- A change of one variable that keeps its label. -/
theorem later_modifyVariable (t : VariableTable family) (v : VarId family)
    {f : VariableEntry family → VariableEntry family}
    (keeps : ∀ a : VariableEntry family, a.SameLabel (f a)) :
    t.Later { t with vars := t.vars.modify v f } :=
  ⟨Slots.later_modify (fun _ => ⟨rfl, rfl⟩) _ _ keeps, (Later.refl t).occurrences⟩

theorem later_modifyOccurrence (t : VariableTable family) (o : OccId family)
    (f : OccurrenceEntry family → OccurrenceEntry family) : t.Later (t.modifyOccurrence o f) :=
  ⟨(Later.refl t).vars, Slots.later_modify (fun _ => trivial) _ _ fun _ => trivial⟩

theorem later_issue (t : VariableTable family) (mention : Mention family) (holder : ExprId) :
    t.Later (t.issue mention holder) :=
  ⟨(Later.refl t).vars, Slots.later_push (fun _ => trivial) _ _⟩

/-- A fresh variable takes a new slot, so no older name is touched. -/
theorem later_fresh (t : VariableTable family) (name : String) (kind : Kind) :
    t.Later (t.fresh name kind) :=
  ⟨Slots.later_push (fun _ => ⟨rfl, rfl⟩) _ _, (Later.refl t).occurrences⟩

/-- Freeing a variable reuses no slot. -/
theorem later_free (t : VariableTable family) (v : VarId family) : t.Later (t.free v) :=
  ⟨Slots.later_remove (fun _ => ⟨rfl, rfl⟩) _ _, (Later.refl t).occurrences⟩

theorem later_unregister (t : VariableTable family) (o : OccId family) :
    t.Later (t.unregister o) := by
  unfold unregister
  cases t.occurrences.get? o with
  | none => exact .refl t
  | some entry =>
    have removed : t.Later { t with occurrences := t.occurrences.remove o } :=
      ⟨(Later.refl t).vars, Slots.later_remove (fun _ => trivial) _ _⟩
    exact removed.trans (later_modifyVariable _ _ fun _ => ⟨rfl, rfl⟩)

end VariableTable

namespace Program

variable {family : Family} {p q r : Program}

/-! ## Later states of a program -/

/-- The number of handles of a space that were given out, live or not. -/
def issued (p : Program) : Space → Nat
  | .expression => p.expressions.size
  | .definition => p.definitions.size
  | .var family => (p.table family).vars.size
  | .occ family => (p.table family).occurrences.size

/-- The program `q` is a later state of `p`. -/
structure Later (p q : Program) : Prop where
  expressions : Slots.Later anyEntry p.expressions q.expressions
  definitions : Slots.Later anyEntry p.definitions q.definitions
  table : ∀ family, (p.table family).Later (q.table family)

/-- The program `q` is a later state of `p`, and no handle was given out in between. -/
structure Settled (p q : Program) : Prop extends Later p q where
  issued : q.issued = p.issued

theorem Later.refl (p : Program) : Later p p :=
  ⟨.refl (fun _ => trivial) _, .refl (fun _ => trivial) _, fun _ => .refl _⟩

theorem Later.trans (first : Later p q) (second : Later q r) : Later p r :=
  ⟨first.expressions.trans (fun _ _ => trivial) second.expressions,
    first.definitions.trans (fun _ _ => trivial) second.definitions,
    fun family => (first.table family).trans (second.table family)⟩

theorem Settled.refl (p : Program) : Settled p p := ⟨.refl p, rfl⟩

theorem Settled.trans (first : Settled p q) (second : Settled q r) : Settled p r :=
  ⟨first.toLater.trans second.toLater, second.issued.trans first.issued⟩

instance : IsPreorder Program Later where
  refl := .refl
  trans _ _ _ := .trans

instance : IsPreorder Program Settled where
  refl := .refl
  trans _ _ _ := .trans

/-- A variable that is live before and after has the name it had. -/
theorem Later.name_eq (later : Later p q) {v : VarId family} {a b : VariableEntry family}
    (before : p.varEntry? v = some a) (after : q.varEntry? v = some b) :
    b.name = a.name ∧ b.kind = a.kind := by
  obtain ⟨a', found, same⟩ := (later.table family).vars.entry after (Slots.index_lt_size before)
  rw [show (p.table family).vars.get? v = some a from before] at found
  cases found
  exact same

/-- A later state of one table is a later state of the program. -/
theorem later_modifyTable {f : VariableTable family → VariableTable family}
    (later : (p.table family).Later (f (p.table family))) : Later p (p.modifyTable family f) := by
  refine ⟨?_, ?_, fun other => ?_⟩
  · rw [expressions_modifyTable]
    exact (Later.refl p).expressions
  · rw [definitions_modifyTable]
    exact (Later.refl p).definitions
  · by_cases eq : other = family
    · subst eq
      rw [table_modifyTable]
      exact later
    · rw [table_modifyTable_of_ne _ _ eq]
      exact .refl _

/-- A write to a table that issues no handle leaves the program settled. -/
theorem settled_modifyTable {f : VariableTable family → VariableTable family}
    (later : (p.table family).Later (f (p.table family)))
    (vars : (f (p.table family)).vars.size = (p.table family).vars.size)
    (occurrences : (f (p.table family)).occurrences.size = (p.table family).occurrences.size) :
    Settled p (p.modifyTable family f) := by
  refine ⟨later_modifyTable later, funext fun space => ?_⟩
  have sizes (other : Family) :
      ((p.modifyTable family f).table other).vars.size = (p.table other).vars.size ∧
        ((p.modifyTable family f).table other).occurrences.size =
          (p.table other).occurrences.size := by
    by_cases eq : other = family
    · subst eq
      rw [table_modifyTable]
      exact ⟨vars, occurrences⟩
    · rw [table_modifyTable_of_ne _ _ eq]
      exact ⟨rfl, rfl⟩
  cases space with
  | expression => simp only [Program.issued, expressions_modifyTable]
  | definition => simp only [Program.issued, definitions_modifyTable]
  | var other => exact (sizes other).1
  | occ other => exact (sizes other).2

theorem settled_modifyExpression (p : Program) (e : ExprId)
    (f : ExpressionEntry → ExpressionEntry) :
    Settled p { p with expressions := p.expressions.modify e f } := by
  refine ⟨⟨Slots.later_modify (fun _ => trivial) _ _ fun _ => trivial,
    (Later.refl p).definitions, fun family => ?_⟩, funext fun space => ?_⟩
  · cases family <;> exact .refl _
  · rcases space with _ | _ | (_ | _) | (_ | _) <;> simp [Program.issued, Program.table]

theorem settled_modifyDefinition (p : Program) (d : DefId)
    (f : DefinitionEntry → DefinitionEntry) :
    Settled p { p with definitions := p.definitions.modify d f } := by
  refine ⟨⟨(Later.refl p).expressions,
    Slots.later_modify (fun _ => trivial) _ _ fun _ => trivial, fun family => ?_⟩,
    funext fun space => ?_⟩
  · cases family <;> exact .refl _
  · rcases space with _ | _ | (_ | _) | (_ | _) <;> simp [Program.issued, Program.table]

/-- Moving a parent link issues no handle. -/
theorem settled_setEnclosing (p : Program) (child : Node) (parent : Option Node) :
    Settled p (p.setEnclosing child parent) := by
  unfold setEnclosing
  split
  · exact settled_modifyExpression ..
  · exact settled_modifyDefinition ..
  · exact settled_modifyDefinition ..

theorem settled_removeExpression (p : Program) (e : ExprId) : Settled p (p.removeExpression e) := by
  refine ⟨⟨Slots.later_remove (fun _ => trivial) _ _, (Later.refl p).definitions,
    fun family => ?_⟩, funext fun space => ?_⟩
  · cases family <;> exact .refl _
  · rcases space with _ | _ | (_ | _) | (_ | _) <;>
      simp [Program.issued, Program.table, removeExpression]

theorem settled_removeDefinition (p : Program) (d : DefId) : Settled p (p.removeDefinition d) := by
  refine ⟨⟨(Later.refl p).expressions, Slots.later_remove (fun _ => trivial) _ _,
    fun family => ?_⟩, funext fun space => ?_⟩
  · cases family <;> exact .refl _
  · rcases space with _ | _ | (_ | _) | (_ | _) <;>
      simp [Program.issued, Program.table, removeDefinition]

end Program

/-! ## Edits -/

namespace Edit

open Program

variable {α β γ : Type} {family : Family} {R : Program → Program → Prop}

/-- However far the edit comes, it relates the program to the one it leaves. -/
def Respects (R : Program → Program → Prop) (edit : Edit α) : Prop := ∀ p, R p (edit p).2

section Sequences

variable [IsPreorder Program R]

theorem respects_pure (a : α) : (pure a : Edit α).Respects R := fun p => refl_of R p

theorem respects_read (f : Program → Except Fault α) : (read f).Respects R := fun p => refl_of R p

theorem respects_fail (fault : Fault) : (fail fault : Edit α).Respects R := fun p => refl_of R p

/-- Two edits in a row keep a preorder that each of them keeps. -/
theorem Respects.andThen {edit : Edit α} {next : α → Edit β} (first : edit.Respects R)
    (second : ∀ a, (next a).Respects R) : (edit >>= next).Respects R := by
  intro p
  show R p (Edit.andThen edit next p).2
  have start := first p
  unfold Edit.andThen
  rcases run : edit p with ⟨_ | a, q⟩
  · rw [run] at start
    exact start
  · rw [run] at start
    exact trans_of R start (second a q)

/-- What is read first does not matter. -/
theorem Respects.afterRead {f : Program → Except Fault α} {next : α → Edit β}
    (second : ∀ a, (next a).Respects R) : (read f >>= next).Respects R :=
  (respects_read f).andThen second

/-- A loop keeps a preorder that each of its rounds keeps. -/
theorem respects_forM {l : List γ} {f : γ → Edit Unit} (each : ∀ c ∈ l, (f c).Respects R) :
    (l.forM f).Respects R := by
  induction l with
  | nil => exact respects_pure ()
  | cons c l ih =>
    exact (each c List.mem_cons_self).andThen fun _ =>
      ih fun c mem => each c (List.mem_cons_of_mem _ mem)

end Sequences

theorem respects_write {f : Program → Program} (writes : ∀ p, R p (f p)) : (write f).Respects R :=
  fun p => writes p

/-- A write to one table that gives out no handle. -/
theorem settled_write {f : VariableTable family → VariableTable family}
    (later : ∀ t : VariableTable family, t.Later (f t))
    (sizes : ∀ t : VariableTable family,
      (f t).vars.size = t.vars.size ∧ (f t).occurrences.size = t.occurrences.size) :
    (write (·.modifyTable family f)).Respects Settled :=
  respects_write fun _ => settled_modifyTable (later _) (sizes _).1 (sizes _).2

theorem settled_list (v : VarId family) (o : OccId family) :
    (write (·.modifyTable family (·.list v o))).Respects Settled :=
  settled_write (fun t => t.later_modifyVariable v fun _ => ⟨rfl, rfl⟩)
    fun t => ⟨by simp [VariableTable.list], rfl⟩

theorem settled_modifyOccurrence (o : OccId family)
    (f : OccurrenceEntry family → OccurrenceEntry family) :
    (write (·.modifyTable family (·.modifyOccurrence o f))).Respects Settled :=
  settled_write (fun t => t.later_modifyOccurrence o f)
    fun t => ⟨rfl, by simp [VariableTable.modifyOccurrence]⟩

/-- Repointing an occurrence issues no handle. -/
theorem settled_repoint (o : OccId family) (new : VarId family) (recursivity : Recursivity) :
    (repoint o new recursivity).Respects Settled := by
  refine .afterRead fun entry => ?_
  refine (settled_modifyOccurrence o _).andThen fun _ => .afterRead fun _ => ?_
  have unlist : (write (·.modifyTable family (·.unlist entry.var o))).Respects Settled :=
    settled_write (fun t => t.later_modifyVariable _ fun _ => ⟨rfl, rfl⟩)
      fun t => ⟨by simp [VariableTable.unlist], rfl⟩
  exact unlist.andThen fun _ => .afterRead fun _ => settled_list new o

theorem settled_retag (o : OccId family) (recursivity : Recursivity) :
    (retag o recursivity).Respects Settled :=
  .afterRead fun _ => settled_modifyOccurrence o _

/-- Unregistering an occurrence issues no handle. -/
theorem settled_unregister (o : OccId family) : (unregister o).Respects Settled := by
  refine settled_write (fun t => t.later_unregister o) fun t => ?_
  unfold VariableTable.unregister
  cases t.occurrences.get? o with
  | none => exact ⟨rfl, rfl⟩
  | some entry => simp [VariableTable.unlist]

theorem settled_free (v : VarId family) : (free v).Respects Settled := by
  have write : (write (·.modifyTable family (·.free v))).Respects Settled :=
    settled_write (fun t => t.later_free v) fun t => ⟨by simp [VariableTable.free], rfl⟩
  refine .afterRead fun unused => write.andThen fun _ => ?_
  split
  · exact respects_pure ()
  · exact respects_fail _

theorem settled_attach (parent child : Node) : (attach parent child).Respects Settled :=
  .afterRead fun _ => respects_write fun _ => settled_setEnclosing _ child _

theorem settled_exchangeChild (parent : Node) (old new : ExprId) :
    (exchangeChild parent old new).Respects Settled := by
  cases parent with
  | expr e =>
    refine .afterRead fun shape => ?_
    split
    · exact respects_write fun p => settled_modifyExpression p e _
    · exact respects_fail _
  | defn d => exact .afterRead fun _ => respects_write fun p => settled_modifyDefinition p d _

/-! ### Writes that prepare a node -/

/-- The relation holds across every write that prepares a node: occurrences are made and listed,
variables are bound and trees are put under the node. -/
structure Preparing (R : Program → Program → Prop) : Prop where
  made : ∀ {family : Family} (m : Mention family) (holder : ExprId) (p : Program),
    R p (p.modifyTable family (·.issue m holder))
  listed : ∀ {family : Family} (v : VarId family) (o : OccId family) (p : Program),
    R p (p.modifyTable family (·.list v o))
  bound : ∀ {family : Family} (v : VarId family) (binding : Option Binding) (p : Program),
    R p (p.modifyTable family (·.setBinding v binding))
  enclosed : ∀ (child : Node) (parent : Option Node) (p : Program), R p (p.setEnclosing child parent)

/-- The relation holds, and the next expression gets the same handle. -/
def Placing (R : Program → Program → Prop) (p q : Program) : Prop :=
  R p q ∧ q.expressions.next = p.expressions.next

instance [IsPreorder Program R] : IsPreorder Program (Placing R) where
  refl p := ⟨refl_of R p, rfl⟩
  trans _ _ _ one two := ⟨trans_of R one.1 two.1, two.2.trans one.2⟩

namespace Preparing

variable [IsPreorder Program R] (writes : Preparing R)
include writes

theorem mint (holder : ExprId) (m : Mention family) : (Edit.mint holder m).Respects R := by
  refine .afterRead fun o => ?_
  refine (respects_write (writes.made m holder)).andThen fun _ => .afterRead fun _ => ?_
  exact (respects_write (writes.listed m.var o)).andThen fun _ => respects_pure o

/-- Minting the occurrences of a node only prepares it. -/
theorem mintAll (holder : ExprId) (mentions : List (Mention family)) :
    (Edit.mintAll holder mentions).Respects R := by
  induction mentions with
  | nil => exact respects_pure []
  | cons m rest ih =>
    exact (writes.mint holder m).andThen fun _ => ih.andThen fun _ => respects_pure _

theorem mintValue (holder : ExprId) (value : Value (Mention .value)) :
    (Edit.mintValue holder value).Respects R := by
  rcases value with literal | m | ⟨tag, fields⟩
  · exact respects_pure _
  · exact (writes.mint holder m).andThen fun _ => respects_pure _
  · exact (writes.mintAll holder fields).andThen fun _ => respects_pure _

theorem bind (v : VarId family) (site : Node) (role : BinderRole) :
    (Edit.bind v site role).Respects R := by
  refine .afterRead fun entry => ?_
  split
  · exact respects_fail _
  · exact respects_write (writes.bound v _)

theorem attach (parent child : Node) : (Edit.attach parent child).Respects R :=
  .afterRead fun _ => respects_write (writes.enclosed child _)

/-- Attaching the children of a node only prepares it. -/
theorem attachAll (e : ExprId) (children : List Node) :
    (Program.attachAll e children).Respects R :=
  respects_forM fun child _ => writes.attach (.expr e) child

omit [IsPreorder Program R] in
/-- No write that prepares a node adds an expression. -/
theorem placing : Preparing (Placing R) where
  made m holder p := ⟨writes.made m holder p, by simp⟩
  listed v o p := ⟨writes.listed v o p, by simp⟩
  bound v binding p := ⟨writes.bound v binding p, by simp⟩
  enclosed child parent p := ⟨writes.enclosed child parent p, by simp⟩

end Preparing

end Edit

/-! ## Calls -/

namespace Outcome

open Program

variable {ε δ α β : Type} {p : Program} {R : Program → Program → Prop}

/-- A call that validates first ends in a related state when each accepted write does; a refused one
leaves the program alone. -/
theorem program_commit [IsPreorder Program R] {validation : Except (Failure ε) β}
    {write : β → Outcome ε α} (accepted : ∀ b, R p (write b).program) :
    R p (commit p validation write).program := by
  cases validation with
  | error failure => exact refl_of R p
  | ok b => exact accepted b

/-- An edit and the rest of the call are related when both parts are. -/
theorem program_after [IsPreorder Program R] {edit : Edit β} {log : List LogEntry}
    {next : β → Program → Outcome ε α} (respects : edit.Respects R)
    (rest : ∀ b q, R q (next b q).program) : R p (after p log edit next).program := by
  have start := respects p
  unfold after
  rcases run : edit p with ⟨_ | b, q⟩
  · rw [run] at start
    exact start
  · rw [run] at start
    exact trans_of R start (rest b q)

/-- Checking the result of a call never changes it. -/
theorem program_verified [IsPreorder Program R] {operation : Operation} {log : List LogEntry}
    {a : α} : R p (verified operation p log a).program := by
  unfold verified
  split
  · split <;> exact refl_of R p
  · exact refl_of R p

end Outcome

namespace Program

open Edit Outcome

variable {family : Family} {p : Program}

/-- Destroying a region issues no handle. -/
theorem settled_destroy (r : Region) : (destroy r).Respects Settled := by
  refine (respects_forM fun o _ => settled_unregister o).andThen fun _ => ?_
  refine (respects_forM fun o _ => settled_unregister o).andThen fun _ => ?_
  refine (respects_forM fun v _ => settled_free v).andThen fun _ => ?_
  refine (respects_forM fun v _ => settled_free v).andThen fun _ => ?_
  refine (respects_forM fun e _ => respects_write fun p =>
    settled_removeExpression p e).andThen fun _ => ?_
  exact respects_forM fun d _ => respects_write fun p => settled_removeDefinition p d

/-- Splicing an expression in issues no handle. -/
theorem settled_splice (target replacement : ExprId) (s : Splice) :
    (splice target replacement s).Respects Settled := by
  have retag {family : Family} (tags : List (OccId family × Recursivity)) :
      (retagAll tags).Respects Settled := respects_forM fun tag _ => settled_retag tag.1 tag.2
  refine (settled_exchangeChild _ _ _).andThen fun _ => (settled_attach _ _).andThen fun _ => ?_
  exact (retag _).andThen fun _ => (retag _).andThen fun _ => settled_destroy _

/-- Taking a definition out of its group issues no handle. -/
theorem settled_shrink (d : DefId) (r : Removal) : (shrink d r).Respects Settled := by
  have drop : (dropMember r.group d).Respects Settled := by
    refine .afterRead fun shape => ?_
    split
    · exact respects_write fun p => settled_modifyExpression p r.group _
    · exact respects_pure ()
  exact drop.andThen fun _ => (settled_destroy _).andThen fun _ => settled_free _

/-- A replacement issues no handle, whether it is accepted or not. -/
theorem settled_replace (p : Program) (target replacement : ExprId) :
    Settled p (p.replace target replacement).program :=
  program_commit fun s => program_after (settled_splice target replacement s) fun _ _ =>
    program_verified

/-- A change gives out no handle. -/
theorem settled_perform (p : Program) {call : Call} (change : call.IsChange) :
    Settled p (p.perform call).program := by
  cases call with
  | substitute o new =>
    show Settled p (p.substitute o new).program
    exact program_commit fun moved => program_after (settled_repoint o new moved.1) fun _ _ =>
      program_verified
  | substituteAll old new =>
    show Settled p (p.substituteAll old new).program
    unfold substituteAll
    split
    · exact .refl p
    · split
      · exact .refl p
      · exact program_commit fun moves => program_after (respects_forM fun move _ =>
          settled_repoint move.1 new move.2) fun _ _ => program_verified
  | replace target replacement => exact settled_replace p target replacement
  | removeDeadLet e =>
    show Settled p (p.removeDeadLet e).program
    exact program_commit fun body => settled_replace p e body
  | removeDeadDefinition d =>
    show Settled p (p.removeDeadDefinition d).program
    refine program_commit fun r => ?_
    split
    · exact settled_replace p r.group r.body
    · exact program_after (settled_shrink d r) fun _ _ => program_verified
  | selectCaseBranch e tag =>
    show Settled p (p.selectCaseBranch e tag).program
    exact program_commit fun branch => settled_replace p e branch
  | discard node =>
    show Settled p (p.discard node).program
    exact program_commit fun region => program_after (settled_destroy region) fun _ _ =>
      program_verified
  | _ => exact change.elim

end Program

/-! ### Calls that build -/

/-- The space that the answer of a call is a new handle of, if the call makes something. -/
def Call.creates : Call → Option Space
  | .freshValue .. => some (.var .value)
  | .freshContinuation _ => some (.var .continuation)
  | .letIn .. | .group .. | .primitive .. | .apply .. | .jump .. | .caseOf .. | .unreachable =>
    some .expression
  | .function .. | .continuation .. | .root .. => some .definition
  | _ => none

namespace Program

open Edit Outcome

variable {p : Program} {R : Program → Program → Prop} {space other : Space}

/-- How a call that adds a node of a space ends: the node is added to a program to which the writes
before it have led, or one of these writes breaks down. -/
inductive Adds (R : Program → Program → Prop) (p : Program) :
    Space → Outcome Refusal Answer → Prop where
  | expression {q : Program} {shape : Shape} {log : List LogEntry} (prepared : R p q) :
      Adds R p .expression ⟨.ok (.ofHandle q.expressions.next),
        { q with expressions := q.expressions.push ⟨shape, none⟩ }, log⟩
  | definition {q : Program} {definition : Definition} {log : List LogEntry} (prepared : R p q) :
      Adds R p .definition ⟨.ok (.ofHandle q.definitions.next),
        { q with definitions := q.definitions.push ⟨definition, none⟩ }, log⟩
  | failed {space : Space} {failure : Failure Refusal} {q : Program} {log : List LogEntry}
      (prepared : R p q) : Adds R p space ⟨.error failure, q, log⟩

/-- Building an expression from writes that keep its slot free adds one expression. -/
theorem adds_build {write : ExprId → Edit Shape} (writes : ∀ e, (write e).Respects (Placing R)) :
    Adds R p .expression (built (p.build write)) := by
  have prepared := writes p.expressions.next p
  unfold build Outcome.after
  rcases run : write p.expressions.next p with ⟨fault | shape, q⟩
  · rw [run] at prepared
    exact .failed prepared.1
  · rw [run] at prepared
    obtain ⟨prepared, next⟩ := prepared
    show Adds R p .expression (built (q.addExpression p.expressions.next shape))
    rw [addExpression_of_next next, ← next]
    exact .expression prepared

section Adding

variable [IsPreorder Program R]

theorem adds_commit {β : Type} {validation : Except (Failure BuildError) β}
    {write : β → Outcome BuildError (Handle other)}
    (accepted : ∀ b, Adds R p space (built (write b))) :
    Adds R p space (built (commit p validation write)) := by
  cases validation with
  | error failure => exact .failed (refl_of R p)
  | ok b => exact accepted b

/-- A definition that is accepted adds one definition. -/
theorem adds_addDefinition (writes : Preparing R) (definition : Definition) :
    Adds R p .definition (built (p.addDefinition definition)) := by
  have edit (d : DefId) : (writeDefinition definition d).Respects R :=
    (respects_forM fun k _ => writes.bind k _ _).andThen fun _ =>
      (respects_forM fun v _ => writes.bind v _ _).andThen fun _ => writes.attach _ _
  have prepared := edit p.definitions.next p
  unfold addDefinition Outcome.after
  rcases run : writeDefinition definition p.definitions.next p with ⟨fault | _, q⟩
  · rw [run] at prepared
    exact .failed prepared
  · rw [run] at prepared
    exact .definition prepared

/-- What a call that adds a node does before it adds the node is a sequence of preparing writes. -/
theorem adds_perform (writes : Preparing R) {call : Call} (adds : call.AddsNode) :
    ∃ space, call.creates = some space ∧ Adds R p space (p.perform call) := by
  have placing := writes.placing
  cases call with
  | letIn v value body =>
    refine ⟨_, rfl, adds_commit fun _ => adds_build fun e => ?_⟩
    exact (placing.mintValue e value).andThen fun _ => (placing.bind v _ _).andThen fun _ =>
      (placing.attachAll e _).andThen fun _ => respects_pure _
  | group family members body =>
    refine ⟨_, rfl, adds_commit fun names => adds_build fun e => ?_⟩
    exact (respects_forM fun name _ => placing.bind name _ _).andThen fun _ =>
      (placing.attachAll e _).andThen fun _ => respects_pure _
  | primitive operator arguments k =>
    refine ⟨_, rfl, adds_commit fun _ => adds_build fun e => ?_⟩
    exact (placing.mintAll e arguments).andThen fun _ => (placing.mint e k).andThen fun _ =>
      respects_pure _
  | apply function arguments k =>
    refine ⟨_, rfl, adds_commit fun _ => adds_build fun e => ?_⟩
    exact (placing.mint e function).andThen fun _ => (placing.mintAll e arguments).andThen fun _ =>
      (placing.mint e k).andThen fun _ => respects_pure _
  | jump k arguments =>
    refine ⟨_, rfl, adds_commit fun _ => adds_build fun e => ?_⟩
    exact (placing.mint e k).andThen fun _ => (placing.mintAll e arguments).andThen fun _ =>
      respects_pure _
  | caseOf scrutinee branches otherwise =>
    refine ⟨_, rfl, adds_commit fun map => adds_build fun e => ?_⟩
    exact (placing.mint e scrutinee).andThen fun _ => (placing.attachAll e _).andThen fun _ =>
      respects_pure _
  | unreachable =>
    rw [perform, unreachable, addExpression_of_next rfl]
    exact ⟨_, rfl, .expression (refl_of R p)⟩
  | function name returnTo parameters type visibility body =>
    exact ⟨_, rfl, adds_commit fun _ => adds_addDefinition writes _⟩
  | continuation name parameters body =>
    exact ⟨_, rfl, adds_commit fun _ => adds_addDefinition writes _⟩
  | root returnTo parameters type body =>
    exact ⟨_, rfl, adds_commit fun _ => adds_addDefinition writes _⟩
  | _ => exact adds.elim

end Adding

theorem preparing_later : Preparing Later where
  made m holder _ := later_modifyTable (VariableTable.later_issue _ m holder)
  listed v o p := (settled_list v o p).toLater
  bound v _ _ := later_modifyTable (VariableTable.later_modifyVariable _ v fun _ => ⟨rfl, rfl⟩)
  enclosed child parent p := (settled_setEnclosing p child parent).toLater

/-- A call that adds one node leads to a later state. -/
theorem Adds.later {outcome : Outcome Refusal Answer} (adds : Adds Later p space outcome) :
    Later p outcome.program := by
  cases adds with
  | @expression q shape _ prepared =>
    refine prepared.trans ⟨Slots.later_push (fun _ => trivial) _ _, (Later.refl q).definitions, ?_⟩
    exact fun family => by cases family <;> exact .refl _
  | @definition q _ _ prepared =>
    refine prepared.trans ⟨(Later.refl q).expressions, Slots.later_push (fun _ => trivial) _ _, ?_⟩
    exact fun family => by cases family <;> exact .refl _
  | failed prepared => exact prepared

theorem later_freshVariable (p : Program) (family : Family) (name : String) (kind : Kind) :
    Later p (p.freshVariable family name kind).1 :=
  later_modifyTable (VariableTable.later_fresh _ name kind)

/-- Installing sets the root or does nothing. -/
theorem program_install {holds : Program → Prop} {root : DefId} (before : holds p)
    (after : holds { p with root := some root }) : holds (p.install root).program := by
  unfold install Outcome.commit
  cases p.checkInstall root with
  | error _ => exact before
  | ok _ => exact after

/-- Every call leaves a later state, whatever its arguments and however it ends. -/
theorem later_perform (p : Program) (call : Call) : Later p (p.perform call).program := by
  by_cases change : call.IsChange
  · exact (settled_perform p change).toLater
  · rcases Call.cases_of_not_isChange change with
      adds | ⟨name, kind, rfl⟩ | ⟨name, rfl⟩ | ⟨root, rfl⟩
    · obtain ⟨space, -, added⟩ := adds_perform (p := p) preparing_later adds
      exact added.later
    · exact later_freshVariable p .value name kind
    · exact later_freshVariable p .continuation name .any
    · refine program_install (.refl p) ⟨(Later.refl p).expressions, (Later.refl p).definitions, ?_⟩
      exact fun family => by cases family <;> exact .refl _

end Program

end ContinuationIR
