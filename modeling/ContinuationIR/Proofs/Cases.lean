import Mathlib.Data.List.Duplicate
import Mathlib.Data.List.Sort
import Mathlib.Order.Bounds.Basic
import ContinuationIR.Proofs.Removability

/-!
# Cases are total

The branches of a case are a finite map: a list of branches is taken in if no tag stands in it twice,
in whatever order, and looking a tag up finds what the list has for it. What is refused is refused with
the least tag that is at fault, or with all that are missing. Whatever calls led to a program, a case
over a scrutinee with a number of constructors has an answer for each of them: building a case makes
sure of it, and neither moving the scrutinee to another variable nor exchanging a branch loses it.
-/

namespace ContinuationIR
set_option autoImplicit false

namespace CaseMap

/-! ## Taking branches in -/

section Taken

variable {branches : List (Nat × ExprId)} {tag : Nat} {map : CaseMap}

/-- In ascending order the first tag that stands twice in a row is the least that is repeated. -/
theorem isLeast_of_firstRepeat (sorted : branches.Pairwise fun a b => a.1 ≤ b.1)
    (found : firstRepeat branches = some tag) :
    IsLeast {t | (branches.map Prod.fst).Duplicate t} tag := by
  fun_induction firstRepeat branches with
  | case1 => cases found
  | case2 => cases found
  | case3 first second rest same =>
    cases found
    refine ⟨List.Mem.duplicate_cons_self (by simp [same]), fun t repeated => ?_⟩
    obtain ⟨branch, mem, rfl⟩ := List.mem_map.1 repeated.mem
    rcases List.mem_cons.1 mem with rfl | mem
    · exact Nat.le_refl _
    · exact (List.pairwise_cons.1 sorted).1 branch mem
  | case4 first second rest differ ih =>
    obtain ⟨least, sorted⟩ := List.pairwise_cons.1 sorted
    have once : first.1 ∉ (second :: rest).map Prod.fst := by
      intro mem
      obtain ⟨branch, mem, eq⟩ := List.mem_map.1 mem
      have below := least second List.mem_cons_self
      have above : second.1 ≤ branch.1 := by
        rcases List.mem_cons.1 mem with rfl | mem
        · exact Nat.le_refl _
        · exact (List.pairwise_cons.1 sorted).1 branch mem
      omega
    have same (t : Nat) : ((first :: second :: rest).map Prod.fst).Duplicate t ↔
        ((second :: rest).map Prod.fst).Duplicate t := by
      rw [List.map_cons, List.duplicate_cons_iff]
      refine or_iff_right ?_
      rintro ⟨rfl, mem⟩
      exact once mem
    simp only [same]
    exact ih sorted found

/-- Branches that are taken in have strictly rising tags. -/
theorem ascending_of_ofBranches? (ok : ofBranches? branches = .ok map) : Ascending map.tags :=
  Program.firstDescent_eq_none_iff.1 (ofBranches?_eq_ok ok).2

/-- Branches are taken in only if no tag is repeated. -/
theorem nodup_of_ofBranches? (ok : ofBranches? branches = .ok map) :
    (branches.map Prod.fst).Nodup := by
  have perm := (ofBranches?_eq_ok ok).1.map Prod.fst
  exact perm.nodup_iff.1 ((ascending_of_ofBranches? ok).imp Nat.ne_of_lt)

/-- A list that is refused has a tag twice, and it is refused with the least such tag. -/
theorem isLeast_of_ofBranches? {error : CaseError} (refused : ofBranches? branches = .error error) :
    ∃ tag, error = .duplicateTag tag ∧ IsLeast {t | (branches.map Prod.fst).Duplicate t} tag := by
  simp only [ofBranches?] at refused
  split at refused
  · next tag found =>
    cases refused
    have least := isLeast_of_firstRepeat (sorted_mergeSort branches) found
    have perm := (List.mergeSort_perm branches fun a b => decide (a.1 ≤ b.1)).map Prod.fst
    simp only [List.duplicate_iff_two_le_count, perm.count_eq] at least ⊢
    exact ⟨tag, rfl, least⟩
  · cases refused

/-- Looking a tag up finds what the list has for it. -/
theorem get?_of_ofBranches? (ok : ofBranches? branches = .ok map) (e : ExprId) :
    map.get? tag = some e ↔ (tag, e) ∈ branches := by
  rw [get?_eq_some_iff (ascending_of_ofBranches? ok), (ofBranches?_eq_ok ok).1.mem_iff]

end Taken

/-! ## Judging branches by the kind of the scrutinee -/

/-- What is to be said of branches with the given tags over a scrutinee of the kind. -/
structure Judged (tags : List Nat) (kind : Kind) (hasDefault : Bool)
    (verdict : Except CaseError Unit) : Prop where
  accepted : verdict = .ok () ↔ ∀ constructors, kind = .tagged constructors →
    (∀ tag ∈ tags, tag < constructors) ∧ (hasDefault = true ∨ ∀ tag < constructors, tag ∈ tags)
  outOfRange : ∀ tag constructors, verdict = .error (.tagOutOfRange tag constructors) ↔
    kind = .tagged constructors ∧ IsLeast {t | t ∈ tags ∧ constructors ≤ t} tag
  incomplete : ∀ missing, verdict = .error (.nonExhaustive missing) ↔
    ∃ constructors, kind = .tagged constructors ∧ (∀ tag ∈ tags, tag < constructors) ∧
      hasDefault = false ∧ missing ≠ [] ∧ Ascending missing ∧
      ∀ tag, tag ∈ missing ↔ tag < constructors ∧ tag ∉ tags
  noRepeat : ∀ tag, verdict ≠ .error (.duplicateTag tag)

section Judging

variable {map : CaseMap} {tags missing : List Nat} {constructors : Nat}

/-- Ascending lists with the same tags are the same. -/
theorem eq_of_ascending (one : Ascending tags) (two : Ascending missing)
    (same : ∀ tag, tag ∈ tags ↔ tag ∈ missing) : tags = missing := by
  have perm : tags.Perm missing :=
    (List.perm_ext_iff_of_nodup (one.imp Nat.ne_of_lt) (two.imp Nat.ne_of_lt)).2 same
  exact perm.eq_of_pairwise (fun _ _ _ _ lt gt => absurd lt (Nat.lt_asymm gt)) one two

/-- Missing tags are listed in ascending order. -/
theorem ascending_missing (map : CaseMap) (constructors : Nat) :
    Ascending (map.missing constructors) :=
  List.pairwise_lt_range.filter _

/-- A tag is missing just if it is one of the constructors and has no branch. -/
theorem mem_missing {tag : Nat} (sorted : Ascending map.tags) :
    tag ∈ map.missing constructors ↔ tag < constructors ∧ tag ∉ map.tags := by
  rw [missing, List.mem_filter, List.mem_range, Option.isNone_iff_eq_none, get?_eq_none_iff sorted]

/-- In ascending order the first tag out of range is the least. -/
theorem find?_eq_some_iff_isLeast {tag : Nat} (sorted : Ascending tags) :
    tags.find? (constructors ≤ ·) = some tag ↔ IsLeast {t | t ∈ tags ∧ constructors ≤ t} tag := by
  have least {tag : Nat} (found : tags.find? (constructors ≤ ·) = some tag) :
      IsLeast {t | t ∈ tags ∧ constructors ≤ t} tag := by
    obtain ⟨out, before, after, rfl, early⟩ := List.find?_eq_some_iff_append.1 found
    refine ⟨⟨by simp, by simpa using out⟩, fun t ⟨mem, out⟩ => ?_⟩
    rcases List.mem_append.1 mem with mem | mem
    · simpa [out] using early t mem
    · rcases List.mem_cons.1 mem with rfl | mem
      · exact Nat.le_refl _
      · have later := (List.pairwise_append.1 sorted).2.1
        exact Nat.le_of_lt ((List.pairwise_cons.1 later).1 t mem)
  refine ⟨least, fun isLeast => ?_⟩
  cases found : tags.find? (constructors ≤ ·) with
  | none => simpa [isLeast.1.2] using List.find?_eq_none.1 found tag isLeast.1.1
  | some other => exact congrArg some ((least found).unique isLeast)

variable {kind : Kind} {hasDefault : Bool}

/-- The tag that is reported is the first one out of range. -/
theorem validate_eq_outOfRange_iff {tag : Nat} :
    map.validate kind hasDefault = .error (.tagOutOfRange tag constructors) ↔
      kind = .tagged constructors ∧ map.tags.find? (constructors ≤ ·) = some tag := by
  cases kind with
  | tagged n =>
    rw [Kind.tagged.injEq, validate]
    cases range : map.tags.find? (n ≤ ·) with
    | some first =>
      constructor
      · rintro ⟨⟩
        exact ⟨rfl, range⟩
      · rintro ⟨rfl, found⟩
        rw [range] at found
        cases found
        rfl
    | none =>
      have accepted : ¬ (n = constructors ∧ map.tags.find? (constructors ≤ ·) = some tag) := by
        rintro ⟨rfl, found⟩
        rw [range] at found
        cases found
      simp only [accepted, iff_false]
      split
      · simp
      · split <;> simp
  | _ => simp [validate]

/-- Missing tags are reported only if there is no default and no tag is out of range. -/
theorem validate_eq_nonExhaustive_iff :
    map.validate kind hasDefault = .error (.nonExhaustive missing) ↔
      ∃ constructors, kind = .tagged constructors ∧ map.tags.find? (constructors ≤ ·) = none ∧
        hasDefault = false ∧ missing ≠ [] ∧ map.missing constructors = missing := by
  cases kind with
  | tagged n =>
    simp only [Kind.tagged.injEq, exists_eq_left', validate]
    cases map.tags.find? (n ≤ ·) with
    | some first => simp
    | none =>
      cases hasDefault with
      | true => simp
      | false =>
        cases map.missing n with
        | nil => simp +contextual
        | cons first rest =>
          simp only [Bool.false_eq_true, if_false, Except.error.injEq, CaseError.nonExhaustive.injEq,
            true_and, iff_and_self]
          rintro rfl
          exact List.cons_ne_nil _ _
  | _ => simp [validate]

/-- Repeated tags are none of the judgement's business. -/
theorem validate_ne_duplicateTag (tag : Nat) :
    map.validate kind hasDefault ≠ .error (.duplicateTag tag) := by
  cases kind with
  | tagged n =>
    simp only [validate]
    repeat' split
    all_goals simp
  | _ => simp [validate]

/-- Branches in ascending order are judged by their tags. -/
theorem judged_validate (sorted : Ascending map.tags) (kind : Kind) (hasDefault : Bool) :
    Judged map.tags kind hasDefault (map.validate kind hasDefault) where
  accepted := by
    rw [validate_eq_ok_iff sorted]
    refine forall_congr' fun constructors => forall_congr' fun _ => and_congr_right fun _ => ?_
    cases hasDefault <;> simp
  outOfRange tag constructors := by
    rw [validate_eq_outOfRange_iff, find?_eq_some_iff_isLeast sorted]
  incomplete missing := by
    rw [validate_eq_nonExhaustive_iff]
    refine exists_congr fun constructors => and_congr_right fun _ => ?_
    refine and_congr (by simp) (and_congr_right fun _ => and_congr_right fun _ => ?_)
    constructor
    · rintro rfl
      exact ⟨ascending_missing map constructors, fun tag => mem_missing sorted⟩
    · rintro ⟨ascending, members⟩
      refine eq_of_ascending (ascending_missing map constructors) ascending fun tag => ?_
      rw [mem_missing sorted, members]
  noRepeat := validate_ne_duplicateTag

/-- What is said of branches depends on which tags there are. -/
theorem Judged.congr {verdict : Except CaseError Unit} (judged : Judged tags kind hasDefault verdict)
    {others : List Nat} (same : ∀ tag, tag ∈ tags ↔ tag ∈ others) :
    Judged others kind hasDefault verdict := by
  obtain ⟨accepted, outOfRange, incomplete, noRepeat⟩ := judged
  simp only [same] at accepted outOfRange incomplete
  exact ⟨accepted, outOfRange, incomplete, noRepeat⟩

end Judging

/-- The branches of a case are a finite map. A list of branches is taken in just if no tag stands in it
twice, and else refused with the least repeated tag. What is stored is the list in ascending order of
the tags; looking a tag up finds what the list has for it, and the branches are judged by the tags that
are in the list. -/
theorem branches_are_finite_map (branches : List (Nat × ExprId)) :
    ((∃ map, ofBranches? branches = .ok map) ↔ (branches.map Prod.fst).Nodup) ∧
    (∀ map, ofBranches? branches = .ok map →
      map.branches.Perm branches ∧ Ascending map.tags ∧
      (∀ tag e, map.get? tag = some e ↔ (tag, e) ∈ branches) ∧
      ∀ kind hasDefault, Judged (branches.map Prod.fst) kind hasDefault
        (map.validate kind hasDefault)) ∧
    ∀ error, ofBranches? branches = .error error →
      ∃ tag, error = .duplicateTag tag ∧ IsLeast {t | (branches.map Prod.fst).Duplicate t} tag := by
  refine ⟨⟨fun ⟨map, ok⟩ => nodup_of_ofBranches? ok, fun distinct => ?_⟩, fun map ok => ?_,
    fun error refused => isLeast_of_ofBranches? refused⟩
  · cases made : ofBranches? branches with
    | ok map => exact ⟨map, rfl⟩
    | error error =>
      obtain ⟨tag, -, repeated, -⟩ := isLeast_of_ofBranches? made
      exact absurd repeated (List.nodup_iff_forall_not_duplicate.1 distinct tag)
  · have perm := (ofBranches?_eq_ok ok).1
    have sorted := ascending_of_ofBranches? ok
    refine ⟨perm, sorted, fun tag e => get?_of_ofBranches? ok e, fun kind hasDefault => ?_⟩
    exact (judged_validate sorted kind hasDefault).congr fun tag => (perm.map Prod.fst).mem_iff

/-- Two branches given in descending order are found under their tags and leave the tag between them
open; a list with two repeated tags is refused with the lesser one. -/
theorem branches_out_of_order :
    (∃ map, ofBranches? [(2, ⟨0⟩), (0, ⟨1⟩)] = .ok map ∧ map.get? 2 = some ⟨0⟩ ∧
      map.get? 0 = some ⟨1⟩ ∧ map.validate (.tagged 3) false = .error (.nonExhaustive [1])) ∧
    ofBranches? [(2, ⟨0⟩), (1, ⟨1⟩), (2, ⟨2⟩), (1, ⟨3⟩)] = .error (.duplicateTag 1) := by
  obtain ⟨⟨-, taken⟩, stored, -⟩ := branches_are_finite_map [(2, ⟨0⟩), (0, ⟨1⟩)]
  obtain ⟨map, ok⟩ := taken (by decide)
  obtain ⟨-, -, lookup, judged⟩ := stored map ok
  have open1 : ∀ tag, tag ∈ [1] ↔ tag < 3 ∧ tag ∉ [2, 0] := by
    simp only [List.mem_cons, List.not_mem_nil, or_false]
    omega
  refine ⟨⟨map, ok, (lookup _ _).2 (by decide), (lookup _ _).2 (by decide), ?_⟩, ?_⟩
  · exact ((judged (.tagged 3) false).incomplete [1]).2
      ⟨3, rfl, by decide, rfl, by decide, List.pairwise_singleton _ _, open1⟩
  · obtain ⟨⟨taken, -⟩, -, refused⟩ :=
      branches_are_finite_map [(2, ⟨0⟩), (1, ⟨1⟩), (2, ⟨2⟩), (1, ⟨3⟩)]
    cases made : ofBranches? [(2, ⟨0⟩), (1, ⟨1⟩), (2, ⟨2⟩), (1, ⟨3⟩)] with
    | ok map => exact absurd (taken ⟨map, made⟩) (by decide)
    | error error =>
      obtain ⟨tag, rfl, repeated, least⟩ := refused error made
      have two : 1 ≤ tag := by
        have mem := repeated.mem
        simp only [List.map_cons, List.map_nil, List.mem_cons, List.not_mem_nil, or_false] at mem
        omega
      have one : tag ≤ 1 := least (List.duplicate_iff_two_le_count.2 (by decide))
      rw [Nat.le_antisymm one two]

end CaseMap

/-! ## The cases of a reachable program -/

namespace Program

variable {p : Program} {e : ExprId} {scrutinee : OccId .value} {map : CaseMap}
  {otherwise : Option ExprId}

/-- A case fits the kind of the variable that its scrutinee refers to. -/
theorem Coherent.case_fits (c : Coherent p)
    (shape : p.shapeOf? e = some (.caseOf scrutinee map otherwise)) :
    Ascending map.tags ∧ ∃ use kind, p.occEntry? scrutinee = some use ∧
      p.kindOf? use.var = some kind ∧
      ∀ constructors, kind = .tagged constructors → map.Covers constructors otherwise.isSome := by
  obtain ⟨sorted, fits⟩ := caseViolations_eq_nil_iff.1 (c.obey (.expr e) _ shape)
  have holds : ⟨scrutinee⟩ ∈ p.usesOf (.expr e) := by simp [usesOf_expr shape, Shape.uses]
  obtain ⟨use, read, -⟩ := c.uses.holder holds
  obtain ⟨entry, found, -⟩ := c.uses.listed read
  have kind : p.kindOf? use.var = some entry.kind := by simp [kindOf?, found]
  refine ⟨sorted, use, entry.kind, read, kind, fun constructors tagged => fits constructors ?_⟩
  rw [kindAt?_eq, read, Option.bind_some, kind, tagged]

/-- A case with a branch for the tag or a default is never refused for want of a branch. -/
theorem HasBranch.ne_noSuchBranch {tag : Nat} (has : HasBranch p e tag) (c : Consistent p)
    (quiet : p.verifying = false) (e' : ExprId) (tag' : Nat) :
    (p.selectCaseBranch e tag).result ≠ .error (.refused (.noSuchBranch e' tag')) := by
  intro refused
  obtain ⟨reason, eq, blocked⟩ := refusedOnly_selectCaseBranch c quiet has _ refused
  cases eq
  exact blocked

/-- Whatever calls led to a program, its cases are total, pending or installed: the tags ascend, and
for a scrutinee of a tagged kind every tag is in range and every constructor has a branch or falls to
the default. So selecting the branch of a constructor is never refused for want of a branch. -/
theorem reachable_cases_total (reachable : Reachable p)
    (shape : p.shapeOf? e = some (.caseOf scrutinee map otherwise)) :
    Ascending map.tags ∧ ∃ use kind, p.occEntry? scrutinee = some use ∧
      p.kindOf? use.var = some kind ∧ ∀ constructors, kind = .tagged constructors →
        (∀ tag ∈ map.tags, tag < constructors) ∧
        ∀ tag < constructors, ((∃ branch, map.get? tag = some branch) ∨ otherwise.isSome = true) ∧
          ∀ e' tag', (p.selectCaseBranch e tag).result ≠
            .error (.refused (.noSuchBranch e' tag')) := by
  obtain ⟨c, quiet⟩ := reachable.consistent
  obtain ⟨sorted, use, kind, read, found, fits⟩ := c.case_fits shape
  refine ⟨sorted, use, kind, read, found, fun constructors tagged => ?_⟩
  obtain ⟨inRange, complete⟩ := fits constructors tagged
  refine ⟨inRange, fun tag lt => ?_⟩
  have answered : tag ∈ map.tags ∨ otherwise.isSome = true := by
    cases default : otherwise.isSome with
    | true => exact .inr rfl
    | false => exact .inl (complete default tag lt)
  refine ⟨answered.imp_left fun mem => ?_, fun e' tag' => ?_⟩
  · rw [← Option.ne_none_iff_exists', ne_eq, CaseMap.get?_eq_none_iff sorted, not_not]
    exact mem
  · exact HasBranch.ne_noSuchBranch ⟨_, _, _, shape, answered⟩ c quiet e' tag'

/-- A case over a value of three constructors, with a branch for one of them and a default, whose
scrutinee was moved to a value of two constructors. -/
def dispatchMoved : Program :=
  run [.freshContinuation "return", .freshValue "colour" (.tagged 3), .freshValue "sign" (.tagged 2),
    .unreachable, .unreachable, .caseOf ⟨⟨0⟩, .nonRecursive⟩ [(1, ⟨0⟩)] (some ⟨1⟩),
    .root ⟨0⟩ [⟨0⟩, ⟨1⟩] ⟨[.tagged 3, .tagged 2], .any⟩ ⟨2⟩, .install ⟨0⟩,
    .substitute (⟨0⟩ : OccId .value) ⟨1⟩]

/-- After the move the case covers the two constructors. -/
theorem dispatchMoved_total : Reachable dispatchMoved ∧
    dispatchMoved.occEntry? (⟨0⟩ : OccId .value) = some ⟨⟨1⟩, .nonRecursive, ⟨2⟩⟩ ∧
    (∀ tag ∈ [1], tag < 2) ∧ ∀ tag < 2, ∀ e tag', (dispatchMoved.selectCaseBranch ⟨2⟩ tag).result ≠
      .error (.refused (.noSuchBranch e tag')) := by
  have reachable : Reachable dispatchMoved := reachable_run _
  have shape : dispatchMoved.shapeOf? ⟨2⟩ =
      some (.caseOf ⟨0⟩ ⟨[(1, ⟨0⟩)]⟩ (some ⟨1⟩)) := by decide +kernel
  have scrutinee : dispatchMoved.occEntry? (⟨0⟩ : OccId .value) =
      some ⟨⟨1⟩, .nonRecursive, ⟨2⟩⟩ := by decide +kernel
  have sign : dispatchMoved.kindOf? (⟨1⟩ : VarId .value) = some (.tagged 2) := by decide +kernel
  obtain ⟨-, use, kind, read, found, total⟩ := reachable_cases_total reachable shape
  rw [scrutinee] at read
  cases read
  rw [sign] at found
  cases found
  obtain ⟨inRange, answered⟩ := total 2 rfl
  exact ⟨reachable, scrutinee, inRange, fun tag lt => (answered tag lt).2⟩

end Program

end ContinuationIR
