import ContinuationIR.Proofs.Agreement
import ContinuationIR.Proofs.Sight

/-!
# How uses are judged

A use that does not see its variable is refused before it is made, and reported if it is made behind
the program's back. The checker tells the two reasons apart: a use is out of scope if the binder is
not above it, and a continuation escapes if its binder is above and a function or the root lies in
between. The search from the use upwards stops at the first function or root, so it calls every
continuation that it does not find escaping, also one whose binder is nowhere above.
-/

namespace ContinuationIR
set_option autoImplicit false

namespace Program

variable {family : Family} {p q : Program} {v : VarId family} {o : OccId family} {h : ExprId}
  {binding : Binding} {site n : Node}

/-- A function or the root lies between the site and the node. -/
def Crossed (p : Program) (site n : Node) : Prop :=
  ∃ d, p.isBoundary d = true ∧ Above p.enclosing site d ∧ Above p.enclosing d n

/-- A site that is crossed is above. -/
theorem Crossed.above (crossed : p.Crossed site n) : Above p.enclosing site n := by
  obtain ⟨d, -, below, above⟩ := crossed
  exact below.trans above

/-- A site is reached just if it is above and no function is in the way of a continuation. -/
theorem reaches_iff : p.Reaches p.enclosing family site n ↔
    Above p.enclosing site n ∧ ¬ (family = .continuation ∧ p.Crossed site n) := by
  simp only [Reaches, Crossed, not_and, not_exists, and_congr_right_iff]
  refine fun _ => forall_congr' fun _ => forall_congr' fun d => ?_
  rw [← Bool.not_eq_true]
  tauto

/-! ## Before a use is made -/

/-- In the installed tree there is always a root above, so a continuation that is not found is taken
for an escaping one. -/
theorem Consistent.resolve_cases (c : Consistent p) (attached : p.isAttached (.expr h) = .ok true)
    (bound : p.bindingOf? v = some binding) :
    (p.Reaches p.enclosing family binding.site (.expr h) ∧
      ∃ recursivity, p.resolve none v h = .ok recursivity) ∨
    (¬ p.Reaches p.enclosing family binding.site (.expr h) ∧ family = .continuation ∧
      p.resolve none v h = .error (.refused (.escapingContinuation v h))) ∨
    (¬ p.Reaches p.enclosing family binding.site (.expr h) ∧ family = .value ∧
      p.resolve none v h = .error (.refused (.outOfScope v h))) := by
  obtain ⟨r, installed, within⟩ := c.attached_iff.1 attached
  have enclosed : p.Enclosed p.enclosing (.expr h) := by
    obtain ⟨definition, read, kind⟩ := c.rootKind r installed
    refine ⟨.defn r, above_enclosing_iff.2 ⟨within, by simp⟩, ?_⟩
    cases header : definition.header <;>
      simp_all [isBoundary, Header.isFunctionBoundary, Header.kind]
  obtain ⟨above, lin, -⟩ := within
  have live := hasNode_of_lineage lin
  have along : p.resolve none v h = _ := resolve_of_bound bound lin live
  rw [along, resolveAlong_eq lin fun m mem => live m (List.mem_cons_of_mem _ mem)]
  by_cases reached : p.Reaches p.enclosing family binding.site (.expr h)
  · exact .inl ⟨reached, _, if_pos reached⟩
  · rw [if_neg reached]
    cases family with
    | continuation => exact .inr (.inl ⟨reached, rfl, if_pos ⟨rfl, enclosed⟩⟩)
    | value => exact .inr (.inr ⟨reached, rfl, if_neg (by simp)⟩)

/-! ## After it is made -/

/-- In `q`, which has the tree of `p` and whose indexes are right, an occurrence of the variable is at
the expression. -/
structure Places (p : Program) (v : VarId family) (h : ExprId) (o : OccId family) (q : Program) :
    Prop extends Indexed q where
  sameRoot : q.root = p.root
  enclosing : ∀ n, q.enclosing n = p.enclosing n
  boundary : ∀ n, q.isBoundary n = p.isBoundary n
  binding : q.bindingOf? v = p.bindingOf? v
  placed : ∃ recursivity, q.occEntry? o = some ⟨v, recursivity, h⟩

/-- Moving an occurrence to a variable by force places the variable where the occurrence is. -/
theorem Consistent.repoint_places (c : Consistent p) {entry : OccurrenceEntry family}
    (bound : p.bindingOf? v = some binding) (read : p.occEntry? o = some entry)
    (recursivity : Recursivity) :
    Places p v entry.holder o (p.overwrite (.repoint o v recursivity)).program := by
  have known := hasVariable_of_bindingOf? bound
  obtain ⟨q, repointed, -, forced⟩ := overwrite_repoint c.toCoherent read known recursivity
  rw [forced]
  exact {
    forest := repointed.forest c.forest
    uses := repointed.usesIndexed c.uses read
    binders := repointed.bindersIndexed c.binders
    root := repointed.rootStands repointed.root c.root
    sameRoot := repointed.root
    enclosing := repointed.enclosing
    boundary := fun n => by cases n <;> simp [isBoundary, repointed.definition]
    binding := repointed.binding v
    placed := ⟨recursivity, repointed.moved read⟩ }

/-- The checker reports a placed occurrence as out of scope if the binder is not above, and as an
escaping continuation if the binder is above a function or root that is above the occurrence. -/
theorem Places.check_eq (places : Places p v h o q) (c : Consistent p)
    (attached : p.isAttached (.expr h) = .ok true) (bound : p.bindingOf? v = some binding) :
    ∃ report, q.check = .ok report ∧
      (.outOfScope o v ∈ report ↔ ¬ Above p.enclosing binding.site (.expr h)) ∧
      (.escapingContinuation o v ∈ report ↔
        family = .continuation ∧ p.Crossed binding.site (.expr h)) := by
  have links : q.enclosing = p.enclosing := funext places.enclosing
  obtain ⟨recursivity, read⟩ := places.placed
  have there : q.isAttached (.expr h) = .ok true := by
    rw [isAttached_iff places.forest places.root (hasNode_of_use (places.uses.held read)),
      places.sameRoot]
    simp only [Within, links]
    exact c.attached_iff.1 attached
  obtain ⟨report, checked, outside, escapes⟩ :=
    places.check_unseen read there (places.binding.trans bound)
  have crossed : q.Crossed binding.site (.expr h) ↔ p.Crossed binding.site (.expr h) := by
    simp only [Crossed, links, places.boundary]
  have higher : p.Crossed binding.site (.expr h) → Above p.enclosing binding.site (.expr h) :=
    Crossed.above
  rw [reaches_iff, crossed, links] at escapes
  rw [links] at outside
  refine ⟨report, checked, outside, escapes.trans ?_⟩
  tauto

/-! ## The two compared -/

/-- How a use of a variable with the given site at an expression is judged. -/
structure Judged (p : Program) (v : VarId family) (site : Node) (h : ExprId) : Prop where
  /-- The search finds the binder if it is above and no function or root hides a continuation. -/
  resolved : (∃ recursivity, p.resolve none v h = .ok recursivity) ↔
    Above p.enclosing site (.expr h) ∧ ¬ (family = .continuation ∧ p.Crossed site (.expr h))
  /-- Only values are refused as out of scope. -/
  outOfScope : p.resolve none v h = .error (.refused (.outOfScope v h)) ↔
    family = .value ∧ ¬ Above p.enclosing site (.expr h)
  /-- Continuations are refused as escaping, also if the binder is not above. -/
  escaping : p.resolve none v h = .error (.refused (.escapingContinuation v h)) ↔
    family = .continuation ∧ (¬ Above p.enclosing site (.expr h) ∨ p.Crossed site (.expr h))
  /-- The checker tells the two apart for an occurrence that was placed there by force. -/
  placed : ∀ {o : OccId family} {q : Program}, Places p v h o q → ∃ report, q.check = .ok report ∧
    (.outOfScope o v ∈ report ↔ ¬ Above p.enclosing site (.expr h)) ∧
    (.escapingContinuation o v ∈ report ↔ family = .continuation ∧ p.Crossed site (.expr h))
  /-- Any occurrence of the expression can be made one of the variable. -/
  repointed : ∀ {o : OccId family} {entry : OccurrenceEntry family} (recursivity : Recursivity),
    p.occEntry? o = some entry → entry.holder = h →
      Places p v h o (p.overwrite (.repoint o v recursivity)).program

/-- In the installed tree of a reachable program all uses of bound variables are judged like this. The
search and the checker differ just for continuations whose binder is not above the use. -/
theorem attached_uses_judged (reachable : Reachable p)
    (attached : p.isAttached (.expr h) = .ok true) (bound : p.bindingOf? v = some binding) :
    Judged p v binding.site h := by
  obtain ⟨c, -⟩ := reachable.consistent
  have higher : p.Crossed binding.site (.expr h) → Above p.enclosing binding.site (.expr h) :=
    Crossed.above
  have found := c.resolve_cases attached bound
  rw [reaches_iff] at found
  constructor
  case placed => exact fun places => places.check_eq c attached bound
  case repointed =>
    rintro o entry recursivity read rfl
    exact c.repoint_places bound read recursivity
  all_goals
    rcases found with ⟨reached, recursivity, result⟩ | ⟨missed, rfl, result⟩ | ⟨missed, rfl, result⟩
    all_goals
      rw [result]
      grind

/-- A function that returns at once, and beside it a jump out of the root. -/
def functionBesideJump : Program :=
  run [.freshContinuation "return", .freshContinuation "r", .freshValue "f" .any,
    .jump ⟨⟨1⟩, .nonRecursive⟩ [], .function ⟨0⟩ ⟨1⟩ [] ⟨[], .any⟩ .internal ⟨0⟩,
    .jump ⟨⟨0⟩, .nonRecursive⟩ [], .group .value [⟨0⟩] ⟨1⟩, .root ⟨0⟩ [] ⟨[], .any⟩ ⟨2⟩,
    .install ⟨1⟩]

theorem functionBesideJump_reachable : Reachable functionBesideJump := reachable_run _

/-- In the function the return of the root is hidden: its binder is above the function. -/
theorem functionBesideJump_judged :
    functionBesideJump.isAttached (.expr ⟨0⟩) = .ok true ∧
    Judged functionBesideJump (⟨0⟩ : VarId .continuation) (.defn ⟨1⟩) ⟨0⟩ ∧
    functionBesideJump.Crossed (.defn ⟨1⟩) (.expr ⟨0⟩) := by
  have attached : functionBesideJump.isAttached (.expr ⟨0⟩) = .ok true := rfl
  have bound : functionBesideJump.bindingOf? (⟨0⟩ : VarId .continuation) =
      some ⟨.defn ⟨1⟩, .returnContinuation⟩ := rfl
  have lin : Lineage functionBesideJump.enclosing (.defn ⟨0⟩) [.expr ⟨2⟩, .defn ⟨1⟩] :=
    .up rfl (.up rfl (.top rfl))
  exact ⟨attached, attached_uses_judged functionBesideJump_reachable attached bound, .defn ⟨0⟩,
    rfl, ⟨_, lin, by simp⟩, _, .up rfl lin, List.mem_cons_self⟩

/-- The return of the function is not in scope beside the function. A use of it there is refused as
an escaping continuation, although no function is around it, and is reported as out of scope if it
is made by force. -/
theorem functionBesideJump_misjudged :
    Reachable functionBesideJump ∧
    functionBesideJump.isAttached (.expr ⟨1⟩) = .ok true ∧
    functionBesideJump.bindingOf? (⟨1⟩ : VarId .continuation) =
      some ⟨.defn ⟨0⟩, .returnContinuation⟩ ∧
    ¬ Above functionBesideJump.enclosing (.defn ⟨0⟩) (.expr ⟨1⟩) ∧
    functionBesideJump.resolve none (⟨1⟩ : VarId .continuation) ⟨1⟩ =
      .error (.refused (.escapingContinuation (⟨1⟩ : VarId .continuation) ⟨1⟩)) ∧
    (functionBesideJump.overwrite
      (.repoint (⟨1⟩ : OccId .continuation) ⟨1⟩ .nonRecursive)).program.check =
        .ok [.outOfScope (⟨1⟩ : OccId .continuation) ⟨1⟩] := by
  have lin : Lineage functionBesideJump.enclosing (.expr ⟨1⟩) [.expr ⟨2⟩, .defn ⟨1⟩] :=
    .up rfl (.up rfl (.top rfl))
  refine ⟨functionBesideJump_reachable, rfl, rfl, ?_, rfl, rfl⟩
  rw [lin.above_iff]
  decide

end Program

end ContinuationIR
