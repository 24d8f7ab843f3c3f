import ContinuationIR.Proofs.Leftovers

/-!
# The walk of the checker

On any table the checker enters what can be reached from the root and meets the binders and the
occurrences there. On a forest it follows the plain walk over the tree of the root. What it has noted at the
end is what the nodes of that tree bind and hold, and it has found nothing just if each of them
stands and nothing is met twice.
-/

namespace ContinuationIR
set_option autoImplicit false

namespace Program

variable {family : Family} {p : Program} {r : DefId} {n : Node}

/-! ## On any table -/

/-- The checker enters the node. -/
def Walked (p : Program) (n : Node) : Prop := ∃ r, p.root = some r ∧ Reached p (.defn r) n

theorem walked_iff {r : DefId} (installed : p.root = some r) :
    p.Walked n ↔ Reached p (.defn r) n := by
  simp [Walked, installed]

theorem mark_mem_auditTrail {m : Mark} :
    .mark n m ∈ p.auditTrail ↔ p.Walked n ∧ .mark m ∈ p.scriptOf n := by
  unfold auditTrail
  cases installed : p.root with
  | none => simp [Walked, installed]
  | some r => rw [walked_iff installed, ← mark_mem_span]

/-- The audit enters exactly the nodes that are reached from the root. -/
theorem mem_entered_auditTrail :
    n ∈ p.auditTrail.filterMap Event.entered? ↔ p.Walked n := by
  unfold auditTrail
  cases installed : p.root with
  | none => simp [Walked, installed]
  | some r => rw [walked_iff installed, ← mem_entered_span]

/-- The audit enters no node twice. -/
theorem entered_auditTrail_nodup (p : Program) :
    (p.auditTrail.filterMap Event.entered?).Nodup := by
  unfold auditTrail
  cases p.root with
  | none => exact List.nodup_nil
  | some r => exact entered_span_nodup

/-- The audit breaks only at a definition that is listed in a group and dead. -/
theorem broken_mem_auditTrail {fault : Fault} : .broken fault ∈ p.auditTrail ↔
    ∃ n d, p.Walked n ∧ fault = .stale d ∧ .defn d ∈ p.childrenOf n ∧
      p.hasNode (.defn d) = false := by
  unfold auditTrail
  cases installed : p.root with
  | none => simp [Walked, installed]
  | some r =>
    simp only [walked_iff installed]
    exact broken_mem_span

theorem use_mem_auditTrail {o : OccId family} :
    .mark n (.use o) ∈ p.auditTrail ↔ p.Walked n ∧ ⟨o⟩ ∈ p.usesOf n := by
  rw [mark_mem_auditTrail, mem_usesOf]

theorem sited_auditTrail (p : Program) : Sited p.auditTrail := by
  intro d family o mem
  obtain ⟨-, held⟩ := use_mem_auditTrail.1 mem
  rw [usesOf_defn] at held
  cases held

/-- At the end the checker has entered what can be reached. -/
theorem mem_entered_lastState : n ∈ p.lastState.entered ↔ p.Walked n := by
  rw [lastState, (noted_foldl p _ (sited_auditTrail p)).entered, mem_entered_auditTrail]
  simp [Audit.start]

/-! ## Over a tree -/

/-- Where an item belongs to one node only, collecting the items of distinct nodes repeats none. -/
theorem nodup_flatMap {α : Type} {items : Node → List α} {nodes : List Node}
    (each : ∀ n, (items n).Nodup) (owner : ∀ {a n m}, a ∈ items n → a ∈ items m → n = m)
    (distinct : nodes.Nodup) : (nodes.flatMap items).Nodup := by
  refine List.nodup_flatMap.2 ⟨fun n _ => each n, distinct.imp fun {n m} ne => ?_⟩
  exact fun a one two => ne (owner one two)

/-- On a forest the spanning walk from the head of a tree is the plain walk. -/
theorem Forest.span_eq (f : Forest p) {root : Node} (top : p.enclosing root = .ok none) :
    p.span root = p.eventsBy none (p.nodeSlots + 1) root := by
  have lin : Lineage p.enclosing root [] := .top top
  have deep : p.nodeSlots < ([] : List Node).length + (p.nodeSlots + 1) := by simp
  rw [span, spanBy_eq_of_nodup (f.entered_nodup lin deep (by rintro _ ⟨⟩)) (by simp)]

/-- The checker follows the plain walk over the installed tree, which does not break off. -/
structure Follows (p : Program) (r : DefId) : Prop where
  root : p.root = some r
  trail : p.auditTrail = p.eventsBy none (p.nodeSlots + 1) (.defn r)
  whole : ∀ fault, .broken fault ∉ p.auditTrail
  nodes : ∀ {n : Node}, n ∈ p.auditTrail.filterMap Event.entered? ↔ p.Within (.defn r) n
  distinct : (p.auditTrail.filterMap Event.entered?).Nodup

theorem Forest.follows (f : Forest p) (root : p.root = some r)
    (top : p.enclosing (.defn r) = .ok none) : Follows p r := by
  have lin : Lineage p.enclosing (.defn r) [] := .top top
  have deep : p.nodeSlots < ([] : List Node).length + (p.nodeSlots + 1) := by simp
  have clear : p.Clear none (.defn r) := by rintro _ ⟨⟩
  have trail : p.auditTrail = p.eventsBy none (p.nodeSlots + 1) (.defn r) := by
    simp only [auditTrail, root, f.span_eq top]
  refine ⟨root, trail, ?_, ?_, ?_⟩
  · intro fault mem
    rw [trail] at mem
    simpa [Event.fault?] using f.eventsBy_sound lin deep _ mem
  · intro n
    rw [trail, f.mem_entered lin deep clear]
    simp [Inside]
  · rw [trail]
    exact f.entered_nodup lin deep clear

namespace Follows

variable (follows : Follows p r)
include follows

theorem binders : (p.auditTrail.filterMap Event.binder?).Perm
    ((p.auditTrail.filterMap Event.entered?).flatMap p.bindersOf) := by
  rw [follows.trail]
  exact eventsBy_perm readsMarks_binder ..

theorem uses : (p.auditTrail.filterMap Event.use?).Perm
    ((p.auditTrail.filterMap Event.entered?).flatMap p.usesOf) := by
  rw [follows.trail]
  exact eventsBy_perm readsMarks_use ..

/-- The checker enters the nodes of the installed tree. -/
theorem mem_entered : n ∈ p.lastState.entered ↔ p.Within (.defn r) n := by
  rw [mem_entered_lastState, ← mem_entered_auditTrail, follows.nodes]

/-- It meets the binders of the installed tree. -/
theorem mem_bound {v : VarId family} : v ∈ (p.lastState.ledger family).bound ↔
    ∃ n, p.Within (.defn r) n ∧ ⟨v⟩ ∈ p.bindersOf n := by
  have start : ((Audit.start.ledger family).bound : List (VarId family)) = [] := by
    cases family <;> rfl
  rw [lastState, (noted_foldl p _ (sited_auditTrail p)).bound, follows.binders.mem_iff, start]
  simp [follows.nodes]

/-- It meets the occurrences of the installed tree. -/
theorem mem_held {o : OccId family} : o ∈ (p.lastState.ledger family).held ↔
    ∃ n, p.Within (.defn r) n ∧ ⟨o⟩ ∈ p.usesOf n := by
  have start : ((Audit.start.ledger family).held : List (OccId family)) = [] := by
    cases family <;> rfl
  rw [lastState, (noted_foldl p _ (sited_auditTrail p)).held, follows.uses.mem_iff, start]
  simp [follows.nodes]

/-- It finds nothing just if each node of the installed tree stands and nothing is met twice. -/
theorem findings_eq_nil_iff (top : p.enclosing (.defn r) = .ok none) :
    p.findings .start p.auditTrail = [] ↔
      ((p.auditTrail.filterMap Event.entered?).flatMap p.bindersOf).Nodup ∧
      ((p.auditTrail.filterMap Event.entered?).flatMap p.usesOf).Nodup ∧
      ∀ n, p.Within (.defn r) n → Stands p n := by
  have live := hasNode_of_enclosing top
  have quiet : Quiet p .start (p.eventsBy none (p.nodeSlots + 1) (.defn r)) _ _ :=
    quiet_eventsBy live (by simp) (by simp) (knows_start p)
  rw [← follows.trail] at quiet
  have new : New .start p.auditTrail ↔
      (p.auditTrail.filterMap Event.binder?).Nodup ∧ (p.auditTrail.filterMap Event.use?).Nodup := by
    constructor
    · exact fun new => ⟨new.binders, new.uses⟩
    · rintro ⟨binders, uses⟩
      refine ⟨binders, ?_, uses, ?_⟩
      all_goals
        intro family v mem
        cases family <;> simp [Audit.start, Audit.ledger, Ledger.empty]
  rw [quiet.iff, new, follows.binders.nodup_iff, follows.uses.nodup_iff]
  simp only [List.head?_nil, top, true_and, follows.nodes, and_assoc]

end Follows

end Program

end ContinuationIR
