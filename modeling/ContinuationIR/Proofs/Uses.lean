import ContinuationIR.Proofs.Trees

/-!
# The uses of a reachable program

An expression refers to variables from places: the source or the fields of a value, a function, its
arguments, a continuation, a scrutinee. Whatever calls led to a program, each live occurrence stands
in one place of one live expression, pending or installed, and the sets of the variables say the
same. So the sets can be counted and folded over in place of the expressions.
-/

namespace ContinuationIR
set_option autoImplicit false

/-- A place of an expression that holds an occurrence. -/
inductive Place where
  | source
  | field (position : Nat)
  | function
  | argument (position : Nat)
  | continuation
  | scrutinee
deriving DecidableEq

namespace Place

variable {family : Family}

/-- A list of occurrences at places that are told apart by their positions. -/
def numbered (place : Nat → Place) (occurrences : List (OccId family)) : List (Place × Use) :=
  occurrences.zipIdx.map fun (o, i) => (place i, ⟨o⟩)

@[simp] theorem map_snd_numbered (place : Nat → Place) (occurrences : List (OccId family)) :
    (numbered place occurrences).map Prod.snd = occurrences.map fun o => ⟨o⟩ := by
  rw [← map_zipIdx_of_fst fun o => (⟨o⟩ : Use), numbered, List.map_map]
  rfl

theorem mem_fst_numbered {place : Nat → Place} {occurrences : List (OccId family)} {s : Place}
    (mem : s ∈ (numbered place occurrences).map Prod.fst) : ∃ i, s = place i := by
  simp only [numbered, List.map_map, List.mem_map, Function.comp_apply] at mem
  obtain ⟨pair, -, rfl⟩ := mem
  exact ⟨pair.2, rfl⟩

theorem nodup_fst_numbered {place : Nat → Place} (injective : Function.Injective place)
    (occurrences : List (OccId family)) : ((numbered place occurrences).map Prod.fst).Nodup := by
  have positions : (numbered place occurrences).map Prod.fst =
      (occurrences.zipIdx.map Prod.snd).map place := by
    simp only [numbered, List.map_map]
    rfl
  rw [positions, List.zipIdx_map_snd]
  exact (List.nodup_range' ..).map injective

end Place

/-- The places of a shape with the occurrences in them. -/
def Shape.places : Shape → List (Place × Use)
  | .letIn _ (.constant _) _ => []
  | .letIn _ (.alias source) _ => [(.source, ⟨source⟩)]
  | .letIn _ (.block _ fields) _ => Place.numbered .field fields
  | .primitive _ arguments continuation =>
    Place.numbered .argument arguments ++ [(.continuation, ⟨continuation⟩)]
  | .apply function arguments continuation =>
    (.function, ⟨function⟩) :: Place.numbered .argument arguments ++
      [(.continuation, ⟨continuation⟩)]
  | .jump continuation arguments =>
    (.continuation, ⟨continuation⟩) :: Place.numbered .argument arguments
  | .caseOf scrutinee _ _ => [(.scrutinee, ⟨scrutinee⟩)]
  | .group .. | .unreachable => []

namespace Shape

theorem map_snd_places (shape : Shape) : shape.places.map Prod.snd = shape.uses := by
  cases shape with
  | letIn var value body => cases value <;> simp [places, uses, Value.uses]
  | _ => simp [places, uses]

/-- A shape does not have a place twice. -/
theorem nodup_fst_places (shape : Shape) : (shape.places.map Prod.fst).Nodup := by
  have fields (l : List (OccId .value)) : ((Place.numbered .field l).map Prod.fst).Nodup :=
    Place.nodup_fst_numbered (fun _ _ => Place.field.inj) l
  have arguments (l : List (OccId .value)) : ((Place.numbered .argument l).map Prod.fst).Nodup :=
    Place.nodup_fst_numbered (fun _ _ => Place.argument.inj) l
  have apart {s : Place} (l : List (OccId .value)) (other : ∀ i, s ≠ .argument i) :
      s ∉ (Place.numbered .argument l).map Prod.fst := by
    intro mem
    obtain ⟨i, eq⟩ := Place.mem_fst_numbered mem
    exact other i eq
  cases shape with
  | letIn var value body =>
    cases value with
    | constant _ => exact List.nodup_nil
    | «alias» source => exact List.nodup_singleton _
    | block tag l => exact fields l
  | primitive operator l continuation =>
    simp only [places, List.map_append, List.map_cons, List.map_nil]
    refine (arguments l).append (List.nodup_singleton _) ?_
    exact List.disjoint_singleton.2 (apart l (by simp))
  | apply function l continuation =>
    simp only [places, List.cons_append, List.map_cons, List.map_append, List.map_nil]
    refine List.nodup_cons.2 ⟨?_, (arguments l).append (List.nodup_singleton _) ?_⟩
    · rw [List.mem_append, List.mem_singleton]
      rintro (mem | eq)
      · exact apart l (by simp) mem
      · cases eq
    · exact List.disjoint_singleton.2 (apart l (by simp))
  | jump continuation l =>
    exact List.nodup_cons.2 ⟨apart l (by simp), arguments l⟩
  | caseOf scrutinee map otherwise => exact List.nodup_singleton _
  | group family members body => exact List.nodup_nil
  | unreachable => exact List.nodup_nil

end Shape

namespace Program

variable {family : Family} {p : Program} {o : OccId family} {v : VarId family} {e : ExprId}
  {s : Place}

/-- A live expression has the occurrence in one of its places. -/
def HeldAt (p : Program) (o : OccId family) (e : ExprId) (s : Place) : Prop :=
  ∃ shape, p.shapeOf? e = some shape ∧ (s, ⟨o⟩) ∈ shape.places

/-- A place of a live expression refers to the variable. -/
def RefersAt (p : Program) (v : VarId family) (e : ExprId) (s : Place) : Prop :=
  ∃ o use, p.HeldAt o e s ∧ p.occEntry? o = some use ∧ use.var = v

/-- How many places refer to the variable, and which occurrence stands there if it is one. -/
def Counts (p : Program) (v : VarId family) : UseCount family → Prop
  | .none => ∀ e s, ¬ p.RefersAt v e s
  | .one o => ∃ e s, p.HeldAt o e s ∧ ∀ e' s', p.RefersAt v e' s' ↔ e' = e ∧ s' = s
  | .several => ∃ e s e' s', (e, s) ≠ (e', s') ∧ p.RefersAt v e s ∧ p.RefersAt v e' s'

/-- The entries of occurrences and the sets of variables agree with the places of the live
expressions. -/
structure UsesExact (p : Program) : Prop where
  live : ∀ {family : Family} {o : OccId family} {e s}, p.HeldAt o e s → p.hasOccurrence o = true
  /-- A live occurrence stands in one place, and that is a place of its holder. -/
  place : ∀ {family : Family} {o : OccId family} {use}, p.occEntry? o = some use →
    ∃ s, ∀ e' s', p.HeldAt o e' s' ↔ e' = use.holder ∧ s' = s
  refers : ∀ {family : Family} {o : OccId family} {use}, p.occEntry? o = some use →
    p.hasVariable use.var = true
  members : ∀ {family : Family} {v : VarId family} {entry}, p.varEntry? v = some entry →
    ∀ o, o ∈ entry.occurrences ↔ ∃ use, p.occEntry? o = some use ∧ use.var = v
  counted : ∀ {family : Family} {v : VarId family}, p.hasVariable v = true →
    ∀ count, p.useCount v = .ok count ↔ p.Counts v count
  /-- A fold over the uses of a variable visits the occurrences in the places that refer to it, each
  once and in ascending order. -/
  folded : ∀ {family : Family} {v : VarId family}, p.hasVariable v = true →
    ∃ visited : List (OccId family), visited.Pairwise (fun a b => a.index < b.index) ∧
      (∀ o, o ∈ visited ↔ ∃ e s, p.HeldAt o e s ∧ p.RefersAt v e s) ∧
      ∀ {α : Type} (init : α) (f : α → OccId family → α),
        p.foldUses v init f = .ok (visited.foldl f init)

theorem exists_heldAt_iff : (∃ s, p.HeldAt o e s) ↔ ⟨o⟩ ∈ p.usesOf (.expr e) := by
  cases read : p.shapeOf? e with
  | none =>
    have dead : p.hasNode (.expr e) = false := by simp [hasNode_expr, read]
    simp [HeldAt, read, usesOf_of_dead dead]
  | some shape =>
    rw [usesOf_expr read, ← shape.map_snd_places, List.mem_map]
    constructor
    · rintro ⟨s, shape', read', mem⟩
      rw [read] at read'
      cases read'
      exact ⟨_, mem, rfl⟩
    · rintro ⟨⟨s, use⟩, mem, rfl⟩
      exact ⟨s, shape, read, mem⟩

/-- A place holds one occurrence. -/
theorem HeldAt.unique {other : Family} {o' : OccId other} (one : p.HeldAt o e s)
    (two : p.HeldAt o' e s) : (⟨o⟩ : Use) = ⟨o'⟩ := by
  obtain ⟨shape, read, mem⟩ := one
  obtain ⟨shape', read', mem'⟩ := two
  rw [read] at read'
  cases read'
  exact congrArg Prod.snd (List.inj_on_of_nodup_map shape.nodup_fst_places mem mem' rfl)

/-- The occurrence in a place that refers to a variable is an occurrence of that variable. -/
theorem RefersAt.var_eq (refers : p.RefersAt v e s) (held : p.HeldAt o e s) :
    ∃ use, p.occEntry? o = some use ∧ use.var = v := by
  obtain ⟨o', use, held', read, rfl⟩ := refers
  cases held.unique held'
  exact ⟨use, read, rfl⟩

/-- No two counts are right of one variable. -/
theorem Counts.unique {a b : UseCount family} (one : p.Counts v a) (two : p.Counts v b) :
    a = b := by
  cases a with
  | none =>
    cases b with
    | none => rfl
    | one o =>
      obtain ⟨e, s, -, only⟩ := two
      exact absurd ((only e s).2 ⟨rfl, rfl⟩) (one e s)
    | several =>
      obtain ⟨e, s, -, -, -, refers, -⟩ := two
      exact absurd refers (one e s)
  | one o =>
    obtain ⟨e, s, held, only⟩ := one
    cases b with
    | none => exact absurd ((only e s).2 ⟨rfl, rfl⟩) (two e s)
    | one o' =>
      obtain ⟨e', s', held', only'⟩ := two
      obtain ⟨rfl, rfl⟩ := (only' e s).1 ((only e s).2 ⟨rfl, rfl⟩)
      cases held.unique held'
      rfl
    | several =>
      obtain ⟨e₁, s₁, e₂, s₂, differ, refers₁, refers₂⟩ := two
      obtain ⟨rfl, rfl⟩ := (only _ _).1 refers₁
      obtain ⟨rfl, rfl⟩ := (only _ _).1 refers₂
      exact absurd rfl differ
  | several =>
    obtain ⟨e₁, s₁, e₂, s₂, differ, refers₁, refers₂⟩ := one
    cases b with
    | none => exact absurd refers₁ (two e₁ s₁)
    | one o =>
      obtain ⟨e, s, -, only⟩ := two
      obtain ⟨rfl, rfl⟩ := (only _ _).1 refers₁
      obtain ⟨rfl, rfl⟩ := (only _ _).1 refers₂
      exact absurd rfl differ
    | several => rfl

namespace UsesIndexed

variable (u : UsesIndexed p)
include u

/-- A live occurrence stands in one place, which is in its holder. -/
theorem heldAt_iff {use : OccurrenceEntry family} (read : p.occEntry? o = some use) :
    ∃ s, ∀ e' s', p.HeldAt o e' s' ↔ e' = use.holder ∧ s' = s := by
  obtain ⟨s, held⟩ := exists_heldAt_iff.2 (u.held read)
  refine ⟨s, fun e' s' => ⟨fun held' => ?_, ?_⟩⟩
  · cases u.eq_holder read (exists_heldAt_iff.1 ⟨s', held'⟩)
    obtain ⟨shape, at_, mem⟩ := held
    obtain ⟨shape', at', mem'⟩ := held'
    rw [at_] at at'
    cases at'
    have distinct : (shape.places.map Prod.snd).Nodup := by
      rw [shape.map_snd_places, ← usesOf_expr at_]
      exact u.once _
    exact ⟨rfl, congrArg Prod.fst (List.inj_on_of_nodup_map distinct mem' mem rfl)⟩
  · rintro ⟨rfl, rfl⟩
    exact held

/-- The set of a variable has the occurrences in the places that refer to it. -/
theorem mem_iff_refersAt {entry : VariableEntry family} (read : p.varEntry? v = some entry) :
    o ∈ entry.occurrences ↔ ∃ e s, p.HeldAt o e s ∧ p.RefersAt v e s := by
  rw [u.mem_iff read]
  constructor
  · rintro ⟨use, found, rfl⟩
    obtain ⟨s, held⟩ := u.heldAt_iff found
    have here := (held _ s).2 ⟨rfl, rfl⟩
    exact ⟨_, s, here, o, use, here, found, rfl⟩
  · rintro ⟨e, s, held, refers⟩
    exact refers.var_eq held

/-- The places that refer to a variable are counted by its set. -/
theorem counts_ofSet {entry : VariableEntry family} (read : p.varEntry? v = some entry) :
    p.Counts v (.ofSet entry.occurrences) := by
  have members (o : OccId family) := u.mem_iff_refersAt read (o := o)
  have listed {e : ExprId} {s : Place} (refers : p.RefersAt v e s) :
      ∃ o ∈ entry.occurrences.toList, p.HeldAt o e s := by
    obtain ⟨o, use, held, found⟩ := refers
    exact ⟨o, (members o).2 ⟨e, s, held, o, use, held, found⟩, held⟩
  have distinct := entry.occurrences.ascending
  unfold UseCount.ofSet
  simp only [HandleSet.mem_def] at members
  generalize entry.occurrences.toList = visited at members listed distinct ⊢
  rcases visited with _ | ⟨a, _ | ⟨b, rest⟩⟩
  · intro e s refers
    obtain ⟨o, mem, -⟩ := listed refers
    simp at mem
  · obtain ⟨e, s, held, refers⟩ := (members a).1 List.mem_cons_self
    refine ⟨e, s, held, fun e' s' => ⟨fun refers' => ?_, ?_⟩⟩
    · obtain ⟨o, mem, held'⟩ := listed refers'
      obtain rfl := List.mem_singleton.1 mem
      obtain ⟨use, found, -⟩ := refers.var_eq held
      obtain ⟨s₀, at_⟩ := u.heldAt_iff found
      obtain ⟨rfl, rfl⟩ := (at_ e s).1 held
      exact (at_ e' s').1 held'
    · rintro ⟨rfl, rfl⟩
      exact refers
  · obtain ⟨e, s, held, refers⟩ := (members a).1 List.mem_cons_self
    obtain ⟨e', s', held', refers'⟩ := (members b).1 (by simp)
    refine ⟨e, s, e', s', ?_, refers, refers'⟩
    rintro ⟨⟩
    cases held.unique held'
    simp at distinct

end UsesIndexed

/-- Whatever calls led to a program, its uses are indexed exactly, those of pending trees too. -/
theorem reachable_uses_exact (reachable : Reachable p) : UsesExact p := by
  obtain ⟨c, -⟩ := reachable.consistent
  have u := c.uses
  constructor
  case live =>
    intro family o e s held
    obtain ⟨use, read, -⟩ := u.holder (exists_heldAt_iff.1 ⟨s, held⟩)
    exact Slots.contains_iff.2 ⟨use, read⟩
  case place => exact u.heldAt_iff
  case refers =>
    intro family o use read
    obtain ⟨entry, found, -⟩ := u.listed read
    exact Slots.contains_iff.2 ⟨entry, found⟩
  case members => exact fun read o => u.mem_iff read
  case counted =>
    intro family v live count
    obtain ⟨entry, read⟩ := Slots.contains_iff.1 live
    have answer : p.useCount v = .ok (.ofSet entry.occurrences) := by
      simp [useCount, fetchVariable, Slots.fetch_of_get? read, bind, Except.bind, pure, Except.pure]
    rw [answer]
    constructor
    · rintro ⟨⟩
      exact u.counts_ofSet read
    · exact fun counts => congrArg _ ((u.counts_ofSet read).unique counts)
  case folded =>
    intro family v live
    obtain ⟨entry, read⟩ := Slots.contains_iff.1 live
    refine ⟨entry.occurrences.toList, entry.occurrences.ascending,
      fun o => u.mem_iff_refersAt read, fun init f => ?_⟩
    simp [foldUses, fetchVariable, Slots.fetch_of_get? read, bind, Except.bind, pure, Except.pure]

/-- A pending block whose two fields refer to one variable, above a jump. -/
def blockPending : Program :=
  run [.freshValue "item" .any, .freshValue "pair" .any, .freshContinuation "next",
    .jump ⟨⟨0⟩, .nonRecursive⟩ [], .letIn ⟨1⟩ (.block 0 [⟨⟨0⟩, .nonRecursive⟩, ⟨⟨0⟩, .nonRecursive⟩])
      ⟨0⟩]

/-- The item stands in two places, the continuation in one and the pair in none. -/
theorem blockPending_uses_exact : Reachable blockPending ∧ UsesExact blockPending ∧
    blockPending.Counts (⟨0⟩ : VarId .value) .several ∧
    blockPending.Counts (⟨0⟩ : VarId .continuation) (.one ⟨0⟩) ∧
    blockPending.Counts (⟨1⟩ : VarId .value) .none := by
  have reachable : Reachable blockPending := reachable_run _
  have exact := reachable_uses_exact reachable
  exact ⟨reachable, exact, (exact.counted rfl _).1 rfl, (exact.counted rfl _).1 rfl,
    (exact.counted rfl _).1 rfl⟩

end Program

end ContinuationIR
