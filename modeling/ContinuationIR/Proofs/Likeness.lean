import ContinuationIR.Proofs.Invariant
import ContinuationIR.Proofs.Spelling
import ContinuationIR.Proofs.Unambiguous

/-!
# Like trees have the same text

Two expressions, in one program or in two, are alike if their trees are equal up to the handles of
expressions, definitions and occurrences, the kinds of values and the types of definitions: the shapes
are the same all the way down, with the same operators, tags, literals and visibilities, and the same
variable, by number and name, stands at every binder and at every use, with the same recursivity. In
programs whose names are words the plain texts of two expressions are the same just if they are alike.
-/

namespace ContinuationIR
set_option autoImplicit false

namespace Program

open Text (Brush Terminal)

variable {family : Family} {p q : Program}

/-! ## Likeness -/

/-- The variable has the same number and name. -/
def SameVar (p q : Program) (v w : VarId family) : Prop :=
  v = w ∧ ∃ entry entry', p.varEntry? v = some entry ∧ q.varEntry? w = some entry' ∧
    entry.name = entry'.name

/-- The occurrence is one of the same variable, with the same recursivity. -/
def SameUse (p q : Program) (o u : OccId family) : Prop :=
  ∃ use use', p.occEntry? o = some use ∧ q.occEntry? u = some use' ∧ SameVar p q use.var use'.var ∧
    use.recursivity = use'.recursivity

/-- The values are the same up to the handles of occurrences. -/
inductive SameValue (p q : Program) : Value (OccId .value) → Value (OccId .value) → Prop where
  | constant (literal : Constant) : SameValue p q (.constant literal) (.constant literal)
  | alias {o u : OccId .value} : SameUse p q o u → SameValue p q (.alias o) (.alias u)
  | block (tag : Nat) {fields fields' : List (OccId .value)} :
      List.Forall₂ (SameUse p q) fields fields' →
      SameValue p q (.block tag fields) (.block tag fields')

/-- The headers have the same variables and the same visibility. -/
inductive SameHeader (p q : Program) : Header → Header → Prop where
  | root {k k' : VarId .continuation} : SameVar p q k k' → SameHeader p q (.root k) (.root k')
  | function {f f' : VarId .value} {k k' : VarId .continuation} (visibility : Visibility) :
      SameVar p q f f' → SameVar p q k k' →
      SameHeader p q (.function f k visibility) (.function f' k' visibility)
  | continuation {k k' : VarId .continuation} : SameVar p q k k' →
      SameHeader p q (.continuation k) (.continuation k')

mutual

/-- The trees of two expressions are equal up to handles, kinds and types. -/
inductive Alike (p q : Program) : ExprId → ExprId → Prop where
  | letIn {e e' v v' value value' body body'} :
      p.shapeOf? e = some (.letIn v value body) → q.shapeOf? e' = some (.letIn v' value' body') →
      SameVar p q v v' → SameValue p q value value' → Alike p q body body' → Alike p q e e'
  | group {e e' kind members members' body body'} :
      p.shapeOf? e = some (.group kind members body) →
      q.shapeOf? e' = some (.group kind members' body') →
      List.Forall₂ (AlikeDefinitions p q) members members' → Alike p q body body' → Alike p q e e'
  | primitive {e e' operator arguments arguments' k k'} :
      p.shapeOf? e = some (.primitive operator arguments k) →
      q.shapeOf? e' = some (.primitive operator arguments' k') →
      List.Forall₂ (SameUse p q) arguments arguments' → SameUse p q k k' → Alike p q e e'
  | apply {e e' f f' arguments arguments' k k'} :
      p.shapeOf? e = some (.apply f arguments k) →
      q.shapeOf? e' = some (.apply f' arguments' k') →
      SameUse p q f f' → List.Forall₂ (SameUse p q) arguments arguments' → SameUse p q k k' →
      Alike p q e e'
  | jump {e e' k k' arguments arguments'} :
      p.shapeOf? e = some (.jump k arguments) → q.shapeOf? e' = some (.jump k' arguments') →
      SameUse p q k k' → List.Forall₂ (SameUse p q) arguments arguments' → Alike p q e e'
  | caseOf {e e' o o' map map' otherwise otherwise'} :
      p.shapeOf? e = some (.caseOf o map otherwise) →
      q.shapeOf? e' = some (.caseOf o' map' otherwise') →
      SameUse p q o o' → map.branches.map Prod.fst = map'.branches.map Prod.fst →
      List.Forall₂ (Alike p q) (map.branches.map Prod.snd) (map'.branches.map Prod.snd) →
      Option.Rel (Alike p q) otherwise otherwise' → Alike p q e e'
  | unreachable {e e'} : p.shapeOf? e = some .unreachable → q.shapeOf? e' = some .unreachable →
      Alike p q e e'

/-- The trees of two definitions are equal up to handles, kinds and types. -/
inductive AlikeDefinitions (p q : Program) : DefId → DefId → Prop where
  | mk {d d' definition definition'} :
      p.definitionOf? d = some definition → q.definitionOf? d' = some definition' →
      SameHeader p q definition.header definition'.header →
      List.Forall₂ (SameVar p q) definition.parameters definition'.parameters →
      Alike p q definition.body definition'.body → AlikeDefinitions p q d d'

end

/-! ## Likeness by names -/

/-- Two variables are alike when they read as one named variable. -/
theorem sameVar_iff {v w : VarId family} :
    SameVar p q v w ↔ ∃ named, p.namedVar v = .ok named ∧ q.namedVar w = .ok named := by
  simp only [namedVar_eq_ok]
  constructor
  · rintro ⟨rfl, entry, entry', read, read', same⟩
    exact ⟨_, ⟨entry, read, rfl⟩, entry', read', by rw [same]⟩
  · rintro ⟨_, ⟨entry, read, rfl⟩, entry', read', same⟩
    obtain ⟨name, index⟩ := NamedVar.mk.inj same
    obtain rfl : v = w := congrArg Handle.mk index.symm
    exact ⟨rfl, entry, entry', read, read', name.symm⟩

/-- Two occurrences are alike when they read as one named use. -/
theorem sameUse_iff {o u : OccId family} :
    SameUse p q o u ↔ ∃ named, p.namedUse o = .ok named ∧ q.namedUse u = .ok named := by
  simp only [namedUse_eq_ok]
  constructor
  · rintro ⟨use, use', read, read', var, recursivity⟩
    obtain ⟨named, one, two⟩ := sameVar_iff.1 var
    exact ⟨⟨named, use.recursivity⟩, ⟨use, read, one, rfl⟩, use', read', two, recursivity.symm⟩
  · rintro ⟨named, ⟨use, read, one, same⟩, use', read', two, same'⟩
    exact ⟨use, use', read, read', sameVar_iff.2 ⟨_, one, two⟩, same.trans same'.symm⟩

/-- Lists are read alike if their members are. -/
theorem forall₂_iff_mapM {α α' β : Type} {f : α → Except Fault β} {g : α' → Except Fault β}
    {like : α → α' → Prop} (each : ∀ {a b}, like a b ↔ ∃ named, f a = .ok named ∧ g b = .ok named)
    {l : List α} {l' : List α'} :
    List.Forall₂ like l l' ↔ ∃ named, l.mapM f = .ok named ∧ l'.mapM g = .ok named := by
  constructor
  · intro pairs
    induction pairs with
    | nil => exact ⟨[], rfl, rfl⟩
    | cons first rest ih =>
      obtain ⟨x, one, two⟩ := each.1 first
      obtain ⟨xs, ones, twos⟩ := ih
      refine ⟨x :: xs, ?_, ?_⟩
      · rw [List.mapM_cons, one, ones]
        rfl
      · rw [List.mapM_cons, two, twos]
        rfl
  · rintro ⟨named, ones, twos⟩
    have pairs := mapM_eq_ok ones
    have pairs' := mapM_eq_ok twos
    clear ones twos
    induction pairs generalizing l' with
    | nil =>
      cases pairs'
      exact .nil
    | cons first rest ih =>
      cases pairs' with
      | cons first' rest' => exact .cons (each.2 ⟨_, first, first'⟩) (ih rest')

theorem sameVars_iff {vs ws : List (VarId family)} : List.Forall₂ (SameVar p q) vs ws ↔
    ∃ named, vs.mapM p.namedVar = .ok named ∧ ws.mapM q.namedVar = .ok named :=
  forall₂_iff_mapM sameVar_iff

theorem sameUses_iff {os us : List (OccId family)} : List.Forall₂ (SameUse p q) os us ↔
    ∃ named, os.mapM p.namedUse = .ok named ∧ us.mapM q.namedUse = .ok named :=
  forall₂_iff_mapM sameUse_iff

/-- Two bound values are alike when they read as one named value. -/
theorem sameValue_iff {one two : Value (OccId .value)} : SameValue p q one two ↔
    ∃ named, p.namedValue one = .ok named ∧ q.namedValue two = .ok named := by
  constructor
  · rintro (literal | same | ⟨tag, same⟩)
    · exact ⟨.constant literal, rfl, rfl⟩
    · obtain ⟨use, read, read'⟩ := sameUse_iff.1 same
      exact ⟨.alias use, by rw [namedValue, read]; rfl, by rw [namedValue, read']; rfl⟩
    · obtain ⟨uses, read, read'⟩ := sameUses_iff.1 same
      exact ⟨.block tag uses, by rw [namedValue, read]; rfl, by rw [namedValue, read']; rfl⟩
  · rintro ⟨named, read, read'⟩
    cases one with
    | constant literal =>
      cases read
      cases two with
      | constant literal' =>
        cases read'
        exact .constant literal
      | _ => simp only [namedValue, bind_eq_ok, pure_eq_ok, reduceCtorEq, and_false,
          exists_false] at read'
    | «alias» o =>
      simp only [namedValue, bind_eq_ok, pure_eq_ok] at read
      obtain ⟨use, here, rfl⟩ := read
      cases two with
      | «alias» u =>
        simp only [namedValue, bind_eq_ok, pure_eq_ok, Value.alias.injEq] at read'
        obtain ⟨use, there, rfl⟩ := read'
        exact .alias (sameUse_iff.2 ⟨_, here, there⟩)
      | _ => simp only [namedValue, bind_eq_ok, pure_eq_ok, Except.ok.injEq, reduceCtorEq, and_false,
          exists_false] at read'
    | block tag fields =>
      simp only [namedValue, bind_eq_ok, pure_eq_ok] at read
      obtain ⟨uses, here, rfl⟩ := read
      cases two with
      | block tag' fields' =>
        simp only [namedValue, bind_eq_ok, pure_eq_ok, Value.block.injEq] at read'
        obtain ⟨uses, there, rfl, rfl⟩ := read'
        exact .block _ (sameUses_iff.2 ⟨_, here, there⟩)
      | _ => simp only [namedValue, bind_eq_ok, pure_eq_ok, Except.ok.injEq, reduceCtorEq, and_false,
          exists_false] at read'

/-- Two headers are alike when they read as one named header. -/
theorem sameHeader_iff {one two : Header} : SameHeader p q one two ↔
    ∃ named, p.namedHeader one = .ok named ∧ q.namedHeader two = .ok named := by
  constructor
  · rintro (answer | ⟨visibility, own, answer⟩ | own)
    · obtain ⟨k, read, read'⟩ := sameVar_iff.1 answer
      exact ⟨.root k, by rw [namedHeader, read]; rfl, by rw [namedHeader, read']; rfl⟩
    · obtain ⟨f, name, name'⟩ := sameVar_iff.1 own
      obtain ⟨k, read, read'⟩ := sameVar_iff.1 answer
      exact ⟨.function f k visibility, by rw [namedHeader, name, ok_bind, read]; rfl,
        by rw [namedHeader, name', ok_bind, read']; rfl⟩
    · obtain ⟨k, read, read'⟩ := sameVar_iff.1 own
      exact ⟨.continuation k, by rw [namedHeader, read]; rfl, by rw [namedHeader, read']; rfl⟩
  · rintro ⟨named, read, read'⟩
    cases one with
    | root k =>
      simp only [namedHeader, bind_eq_ok, pure_eq_ok] at read
      obtain ⟨answer, here, rfl⟩ := read
      cases two with
      | root k' =>
        simp only [namedHeader, bind_eq_ok, pure_eq_ok, NamedHeader.root.injEq] at read'
        obtain ⟨answer, there, rfl⟩ := read'
        exact .root (sameVar_iff.2 ⟨_, here, there⟩)
      | _ => simp only [namedHeader, bind_eq_ok, pure_eq_ok, reduceCtorEq, and_false,
          exists_false] at read'
    | function f k visibility =>
      simp only [namedHeader, bind_eq_ok, pure_eq_ok] at read
      obtain ⟨own, name, answer, here, rfl⟩ := read
      cases two with
      | function f' k' visibility' =>
        simp only [namedHeader, bind_eq_ok, pure_eq_ok, NamedHeader.function.injEq] at read'
        obtain ⟨own, name', answer, there, rfl, rfl, rfl⟩ := read'
        exact .function _ (sameVar_iff.2 ⟨_, name, name'⟩) (sameVar_iff.2 ⟨_, here, there⟩)
      | _ => simp only [namedHeader, bind_eq_ok, pure_eq_ok, reduceCtorEq, and_false,
          exists_false] at read'
    | continuation k =>
      simp only [namedHeader, bind_eq_ok, pure_eq_ok] at read
      obtain ⟨own, here, rfl⟩ := read
      cases two with
      | continuation k' =>
        simp only [namedHeader, bind_eq_ok, pure_eq_ok, NamedHeader.continuation.injEq] at read'
        obtain ⟨own, there, rfl⟩ := read'
        exact .continuation (sameVar_iff.2 ⟨_, here, there⟩)
      | _ => simp only [namedHeader, bind_eq_ok, pure_eq_ok, reduceCtorEq, and_false,
          exists_false] at read'

/-- The arms of two cases are like just if the branches and the defaults are. -/
theorem arms_iff {like : ExprId → ExprId → Prop} {map map' : CaseMap}
    {otherwise otherwise' : Option ExprId} :
    ((map.arms otherwise).map Prod.fst = (map'.arms otherwise').map Prod.fst ∧
      List.Forall₂ like ((map.arms otherwise).map Prod.snd) ((map'.arms otherwise').map Prod.snd)) ↔
    map.branches.map Prod.fst = map'.branches.map Prod.fst ∧
      List.Forall₂ like (map.branches.map Prod.snd) (map'.branches.map Prod.snd) ∧
      Option.Rel like otherwise otherwise' := by
  obtain ⟨branches⟩ := map
  obtain ⟨branches'⟩ := map'
  induction branches generalizing branches' with
  | nil =>
    cases branches' with
    | nil => cases otherwise <;> cases otherwise' <;> simp [CaseMap.arms]
    | cons branch branches' => cases otherwise <;> simp [CaseMap.arms]
  | cons branch branches ih =>
    cases branches' with
    | nil => cases otherwise' <;> simp [CaseMap.arms]
    | cons branch' branches' =>
      have tail := ih branches'
      simp only [CaseMap.arms, List.map_cons, List.cons_append, List.cons.injEq, Option.some.injEq,
        List.forall₂_cons] at tail ⊢
      constructor
      · rintro ⟨⟨tag, tags⟩, body, bodies⟩
        obtain ⟨tags, bodies, last⟩ := tail.1 ⟨tags, bodies⟩
        exact ⟨⟨tag, tags⟩, ⟨body, bodies⟩, last⟩
      · rintro ⟨⟨tag, tags⟩, ⟨body, bodies⟩, last⟩
        obtain ⟨tags, bodies⟩ := tail.2 ⟨tags, bodies, last⟩
        exact ⟨⟨tag, tags⟩, body, bodies⟩

/-! ## Likeness by terms -/

mutual

/-- What the same term spells is alike. -/
theorem alike_of_spells : (t : Term) → {e e' : ExprId} → t.Spells p e → t.Spells q e' →
    Alike p q e e'
  | .letIn var value body, e, e', spells, spells' => by
    obtain ⟨v, operand, below, read, named, operands, inside⟩ := spells
    obtain ⟨v', operand', below', read', named', operands', inside'⟩ := spells'
    exact .letIn read read' (sameVar_iff.2 ⟨_, named, named'⟩) (sameValue_iff.2 ⟨_, operands, operands'⟩)
      (alike_of_spells body inside inside')
  | .group family members body, e, e', spells, spells' => by
    obtain ⟨definitions, below, read, listed, inside⟩ := spells
    obtain ⟨definitions', below', read', listed', inside'⟩ := spells'
    exact .group read read' (alike_of_members members listed listed')
      (alike_of_spells body inside inside')
  | .primitive operator arguments continuation, e, e', spells, spells' => by
    obtain ⟨uses, k, read, listed, next⟩ := spells
    obtain ⟨uses', k', read', listed', next'⟩ := spells'
    exact .primitive read read' (sameUses_iff.2 ⟨_, listed, listed'⟩) (sameUse_iff.2 ⟨_, next, next'⟩)
  | .apply function arguments continuation, e, e', spells, spells' => by
    obtain ⟨f, uses, k, read, callee, listed, next⟩ := spells
    obtain ⟨f', uses', k', read', callee', listed', next'⟩ := spells'
    exact .apply read read' (sameUse_iff.2 ⟨_, callee, callee'⟩) (sameUses_iff.2 ⟨_, listed, listed'⟩)
      (sameUse_iff.2 ⟨_, next, next'⟩)
  | .jump continuation arguments, e, e', spells, spells' => by
    obtain ⟨k, uses, read, next, listed⟩ := spells
    obtain ⟨k', uses', read', next', listed'⟩ := spells'
    exact .jump read read' (sameUse_iff.2 ⟨_, next, next'⟩) (sameUses_iff.2 ⟨_, listed, listed'⟩)
  | .caseOf scrutinee branches, e, e', spells, spells' => by
    obtain ⟨o, map, otherwise, read, named, listed⟩ := spells
    obtain ⟨o', map', otherwise', read', named', listed'⟩ := spells'
    obtain ⟨tags, bodies, last⟩ := arms_iff.1 (alike_of_branches branches listed listed')
    exact .caseOf read read' (sameUse_iff.2 ⟨_, named, named'⟩) tags bodies last
  | .unreachable, e, e', spells, spells' => .unreachable spells spells'

/-- Definitions that one clause spells are alike. -/
theorem alike_of_clause : (c : Clause) → {d d' : DefId} → c.Spells p d → c.Spells q d' →
    AlikeDefinitions p q d d'
  | .mk header parameters body, d, d', spells, spells' => by
    obtain ⟨definition, read, named, bound, inside⟩ := spells
    obtain ⟨definition', read', named', bound', inside'⟩ := spells'
    exact .mk read read' (sameHeader_iff.2 ⟨_, named, named'⟩) (sameVars_iff.2 ⟨_, bound, bound'⟩)
      (alike_of_spells body inside inside')

/-- Groups that one list of clauses spells are alike, member by member. -/
theorem alike_of_members : (m : Members) → {ds ds' : List DefId} → m.Spells p ds → m.Spells q ds' →
    List.Forall₂ (AlikeDefinitions p q) ds ds'
  | .nil, ds, ds', spells, spells' => by
    rw [Members.Spells] at spells spells'
    rw [spells, spells']
    exact .nil
  | .cons first rest, ds, ds', spells, spells' => by
    obtain ⟨d, later, rfl, here, listed⟩ := spells
    obtain ⟨d', later', rfl, here', listed'⟩ := spells'
    exact .cons (alike_of_clause first here here') (alike_of_members rest listed listed')

/-- Cases that one list of branches spells have the same tags and like bodies. -/
theorem alike_of_branches : (b : Branches) → {arms arms' : List (Option Nat × ExprId)} →
    b.Spells p arms → b.Spells q arms' → arms.map Prod.fst = arms'.map Prod.fst ∧
      List.Forall₂ (Alike p q) (arms.map Prod.snd) (arms'.map Prod.snd)
  | .nil, arms, arms', spells, spells' => by
    rw [Branches.Spells] at spells spells'
    rw [spells, spells']
    exact ⟨rfl, .nil⟩
  | .cons tag body rest, arms, arms', spells, spells' => by
    obtain ⟨e, later, rfl, here, listed⟩ := spells
    obtain ⟨e', later', rfl, here', listed'⟩ := spells'
    obtain ⟨tags, bodies⟩ := alike_of_branches rest listed listed'
    exact ⟨congrArg (tag :: ·) tags, .cons (alike_of_spells body here here') bodies⟩

end

/-- What is read alike is read as the same. -/
theorem read_of_like {α : Type} {one two : Except Fault α} {named : α}
    (like : ∃ named, one = .ok named ∧ two = .ok named) (read : one = .ok named) :
    two = .ok named := by
  obtain ⟨_, read', there⟩ := like
  cases read.symm.trans read'
  exact there

mutual

/-- A term spells whatever is alike to what it spells. -/
theorem spells_of_alike : (t : Term) → {e e' : ExprId} → t.Spells p e → Alike p q e e' →
    t.Spells q e'
  | .letIn var value body, e, e', spells, alike => by
    obtain ⟨v, operand, below, read, named, operands, inside⟩ := spells
    cases alike with
    | letIn here there var value body' =>
      cases read.symm.trans here
      exact ⟨_, _, _, there, read_of_like (sameVar_iff.1 var) named,
        read_of_like (sameValue_iff.1 value) operands, spells_of_alike body inside body'⟩
    | _ => simp_all
  | .group family members body, e, e', spells, alike => by
    obtain ⟨definitions, below, read, listed, inside⟩ := spells
    cases alike with
    | group here there definitions' body' =>
      cases read.symm.trans here
      exact ⟨_, _, there, spells_of_members members listed definitions',
        spells_of_alike body inside body'⟩
    | _ => simp_all
  | .primitive operator arguments continuation, e, e', spells, alike => by
    obtain ⟨uses, k, read, listed, next⟩ := spells
    cases alike with
    | primitive here there uses' k' =>
      cases read.symm.trans here
      exact ⟨_, _, there, read_of_like (sameUses_iff.1 uses') listed,
        read_of_like (sameUse_iff.1 k') next⟩
    | _ => simp_all
  | .apply function arguments continuation, e, e', spells, alike => by
    obtain ⟨f, uses, k, read, callee, listed, next⟩ := spells
    cases alike with
    | apply here there f' uses' k' =>
      cases read.symm.trans here
      exact ⟨_, _, _, there, read_of_like (sameUse_iff.1 f') callee,
        read_of_like (sameUses_iff.1 uses') listed, read_of_like (sameUse_iff.1 k') next⟩
    | _ => simp_all
  | .jump continuation arguments, e, e', spells, alike => by
    obtain ⟨k, uses, read, next, listed⟩ := spells
    cases alike with
    | jump here there k' uses' =>
      cases read.symm.trans here
      exact ⟨_, _, there, read_of_like (sameUse_iff.1 k') next,
        read_of_like (sameUses_iff.1 uses') listed⟩
    | _ => simp_all
  | .caseOf scrutinee branches, e, e', spells, alike => by
    obtain ⟨o, map, otherwise, read, named, listed⟩ := spells
    cases alike with
    | caseOf here there o' tags bodies last =>
      cases read.symm.trans here
      exact ⟨_, _, _, there, read_of_like (sameUse_iff.1 o') named,
        spells_of_branches branches listed (arms_iff.2 ⟨tags, bodies, last⟩)⟩
    | _ => simp_all
  | .unreachable, e, e', spells, alike => by
    rw [Term.Spells] at spells
    cases alike with
    | «unreachable» here there => exact there
    | _ => simp_all

/-- A clause that spells a definition spells each one like it. -/
theorem spells_of_clause : (c : Clause) → {d d' : DefId} → c.Spells p d →
    AlikeDefinitions p q d d' → c.Spells q d'
  | .mk header parameters body, d, d', spells, alike => by
    obtain ⟨definition, read, named, bound, inside⟩ := spells
    obtain ⟨here, there, header', parameters', body'⟩ := alike
    cases read.symm.trans here
    exact ⟨_, there, read_of_like (sameHeader_iff.1 header') named,
      read_of_like (sameVars_iff.1 parameters') bound, spells_of_alike body inside body'⟩

/-- A list of clauses that spells a group spells each one like it. -/
theorem spells_of_members : (m : Members) → {ds ds' : List DefId} → m.Spells p ds →
    List.Forall₂ (AlikeDefinitions p q) ds ds' → m.Spells q ds'
  | .nil, ds, ds', spells, alike => by
    rw [Members.Spells] at spells
    subst spells
    cases alike
    rfl
  | .cons first rest, ds, ds', spells, alike => by
    obtain ⟨d, later, rfl, here, listed⟩ := spells
    cases alike with
    | cons first' rest' =>
      exact ⟨_, _, rfl, spells_of_clause first here first', spells_of_members rest listed rest'⟩

/-- A list of branches that spells the arms of a case spells each list of arms like it. -/
theorem spells_of_branches : (b : Branches) → {arms arms' : List (Option Nat × ExprId)} →
    b.Spells p arms → arms.map Prod.fst = arms'.map Prod.fst ∧
      List.Forall₂ (Alike p q) (arms.map Prod.snd) (arms'.map Prod.snd) → b.Spells q arms'
  | .nil, arms, arms', spells, ⟨tags, _⟩ => by
    rw [Branches.Spells] at spells
    subst spells
    exact List.map_eq_nil_iff.1 tags.symm
  | .cons tag body rest, arms, arms', spells, ⟨tags, bodies⟩ => by
    obtain ⟨e, later, rfl, here, listed⟩ := spells
    cases arms' with
    | nil => cases tags
    | cons arm' later' =>
      obtain ⟨tag', e'⟩ := arm'
      obtain ⟨rfl, tags'⟩ := List.cons.inj tags
      cases bodies with
      | cons body' bodies' =>
        exact ⟨e', later', rfl, spells_of_alike body here body',
          spells_of_branches rest listed ⟨tags', bodies'⟩⟩

end

/-! ## Texts -/

/-- An expression is laid out as the term that spells it, with every brush. -/
theorem Coherent.layoutExpression_eq (c : Coherent p) {e : ExprId} {t : Term}
    (live : p.hasNode (.expr e) = true) (spells : t.Spells p e) (brush : Brush) :
    p.layoutExpression brush e = .ok (t.layout brush 0) := by
  have read : p.term e = .ok t := termBy_of_spells t spells (c.forest.enough_nodeSlots live)
  rw [layoutExpression, read]
  rfl

/-- The text of an expression is the layout of the term that spells it. -/
theorem Coherent.plainExpression_eq (c : Coherent p) {terminal : Terminal} (lawful : terminal.Lawful)
    (names : p.AllNames Text.Visible) {e : ExprId} {t : Term} (live : p.hasNode (.expr e) = true)
    (spells : t.Spells p e) : terminal.plainExpression p e = .ok (t.layout Text.bare 0) := by
  rw [Terminal.plainExpression, c.layoutExpression_eq live spells, ok_bind]
  exact congrArg Except.ok
    (lawful.strip_eq (t.shows_layout lawful 0 (names_of_spells names t spells)))

/-- On every terminal that does what is documented, and in programs whose names are words, two
expressions have the same text just if they are alike. -/
theorem plain_text_unambiguous {terminal : Terminal} (lawful : terminal.Lawful)
    (reachable : Reachable p) (reachable' : Reachable q)
    (words : p.AllNames Text.Word) (words' : q.AllNames Text.Word) {e e' : ExprId}
    (live : p.hasNode (.expr e) = true) (live' : q.hasNode (.expr e') = true) :
    ∃ text text', terminal.plainExpression p e = .ok text ∧
      terminal.plainExpression q e' = .ok text' ∧ (text = text' ↔ Alike p q e e') := by
  obtain ⟨c, -⟩ := reachable.consistent
  obtain ⟨c', -⟩ := reachable'.consistent
  obtain ⟨t, spells⟩ := (c.exists_spells live).1 e rfl
  obtain ⟨t', spells'⟩ := (c'.exists_spells live').1 e' rfl
  have text := c.plainExpression_eq lawful (fun read => (words read).visible) live spells
  have text' := c'.plainExpression_eq lawful (fun read => (words' read).visible) live' spells'
  refine ⟨_, _, text, text', ?_, ?_⟩
  · intro same
    obtain rfl := Term.layout_injective (names_of_spells words t spells)
      (names_of_spells words' t' spells') same
    exact alike_of_spells t spells spells'
  · intro alike
    have again := c'.plainExpression_eq lawful (fun read => (words' read).visible) live'
      (spells_of_alike t spells alike)
    exact Except.ok.inj (again.symm.trans text')

/-- A quote and a line end that are given to a continuation, after some other calls. -/
def quoteJump (before : List Call) : Program :=
  run ([.freshContinuation "k", .freshValue "x" .any] ++ before ++
    [Call.jump ⟨⟨0⟩, .nonRecursive⟩ [⟨⟨0⟩, .nonRecursive⟩],
      .letIn ⟨0⟩ (.constant (.string "\"\n")) ⟨before.length⟩])

/-- The handles of expressions do not show in the text, so two expressions with different handles
have the same text and are alike. -/
theorem quoteJump_same_text : Terminal.ansi.Lawful ∧
    Reachable (quoteJump []) ∧ Reachable (quoteJump [.unreachable]) ∧
    (quoteJump []).AllNames Text.Word ∧ (quoteJump [.unreachable]).AllNames Text.Word ∧
    Terminal.ansi.plainExpression (quoteJump []) ⟨1⟩ =
      Terminal.ansi.plainExpression (quoteJump [.unreachable]) ⟨2⟩ ∧
    Alike (quoteJump []) (quoteJump [.unreachable]) ⟨1⟩ ⟨2⟩ := by
  have reachable : Reachable (quoteJump []) := reachable_run _
  have reachable' : Reachable (quoteJump [.unreachable]) := reachable_run _
  have words : (quoteJump []).AllNames Text.Word := by
    rintro (_ | _) ⟨_ | n⟩ entry read <;> cases read <;> decide
  have words' : (quoteJump [.unreachable]).AllNames Text.Word := by
    rintro (_ | _) ⟨_ | n⟩ entry read <;> cases read <;> decide
  have read : (quoteJump []).term ⟨1⟩ = .ok (.letIn ⟨"x", 0⟩ (.constant (.string "\"\n"))
      (.jump ⟨⟨"k", 0⟩, .nonRecursive⟩ [⟨⟨"x", 0⟩, .nonRecursive⟩])) := rfl
  have read' : (quoteJump [.unreachable]).term ⟨2⟩ = .ok (.letIn ⟨"x", 0⟩
      (.constant (.string "\"\n"))
      (.jump ⟨⟨"k", 0⟩, .nonRecursive⟩ [⟨⟨"x", 0⟩, .nonRecursive⟩])) := rfl
  have texts : Terminal.ansi.plainExpression (quoteJump []) ⟨1⟩ =
      Terminal.ansi.plainExpression (quoteJump [.unreachable]) ⟨2⟩ := by
    rw [Terminal.plainExpression, Terminal.plainExpression, layoutExpression, layoutExpression, read,
      read']
  have live : (quoteJump []).hasNode (.expr ⟨1⟩) = true := rfl
  have live' : (quoteJump [.unreachable]).hasNode (.expr ⟨2⟩) = true := rfl
  obtain ⟨text, text', ok, ok', same⟩ :=
    plain_text_unambiguous Text.Ansi.lawful reachable reachable' words words' live live'
  have alike := same.1 (Except.ok.inj (ok.symm.trans (texts.trans ok')))
  exact ⟨Text.Ansi.lawful, reachable, reachable', words, words', texts, alike⟩

end Program

end ContinuationIR
