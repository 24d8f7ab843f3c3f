import Mathlib.Data.List.Pairwise
import ContinuationIR.Check.Rules

/-!
# Looking up branches

On branches with strictly ascending tags halving finds the branch of a tag if there is one. So the
rule for cases can be told from the list of tags alone: they ascend, and for a scrutinee of a tagged
kind they are in range and, if there is no default, complete.
-/

namespace ContinuationIR
set_option autoImplicit false

/-- Each tag is below all later ones. -/
def Ascending (tags : List Nat) : Prop := tags.Pairwise (· < ·)

namespace CaseMap

/-! ## Searching by halves -/

section Search

variable {tag : Nat} {window : List (Nat × ExprId)} {e : ExprId}

/-- A search only answers branches of the tag. -/
theorem mem_of_search (found : search tag window = some e) : (tag, e) ∈ window := by
  fun_induction search tag window with
  | case1 => cases found
  | case2 only eq => simp_all [Prod.ext_iff]
  | case3 => cases found
  | case4 first second rest size half below ih => exact List.mem_of_mem_take (ih found)
  | case5 first second rest size half above ih => exact List.mem_of_mem_drop (ih found)

/-- What stands from the middle on is not below the middle, and what stands before it is. -/
theorem compare_middle {half : Nat} {d x : Nat × ExprId}
    (sorted : Ascending (window.map Prod.fst)) (inside : half < window.length) :
    (x ∈ window.drop half → (window.getD half d).1 ≤ x.1) ∧
      (x ∈ window.take half → x.1 < (window.getD half d).1) := by
  have middle : window.getD half d = window[half] := by
    rw [List.getD_eq_getElem?_getD, List.getElem?_eq_getElem inside, Option.getD_some]
  rw [Ascending, List.pairwise_map, ← List.take_append_drop half window,
    List.drop_eq_getElem_cons inside, List.pairwise_append, List.pairwise_cons] at sorted
  obtain ⟨-, ⟨upper, -⟩, lower⟩ := sorted
  rw [middle]
  constructor
  · intro mem
    rw [List.drop_eq_getElem_cons inside] at mem
    rcases List.mem_cons.1 mem with rfl | mem
    · exact Nat.le_refl _
    · exact Nat.le_of_lt (upper x mem)
  · exact fun mem => lower x mem _ List.mem_cons_self

/-- On ascending tags a search finds every branch: each half it keeps has the tag in it. -/
theorem search_of_mem (sorted : Ascending (window.map Prod.fst)) (mem : (tag, e) ∈ window) :
    search tag window = some e := by
  fun_induction search tag window with
  | case1 => cases mem
  | case2 only eq => simp_all [Prod.ext_iff]
  | case3 only ne =>
    cases List.mem_singleton.1 mem
    exact absurd rfl ne
  | case4 first second rest size half below ih =>
    have compare := @compare_middle (first :: second :: rest) half first (tag, e) sorted
      (by simp only [List.length_cons, half, size]; omega)
    have early : (tag, e) ∈ (first :: second :: rest).take half := by
      rw [← List.take_append_drop half (first :: second :: rest), List.mem_append] at mem
      exact mem.resolve_right fun late => Nat.not_le_of_lt below (compare.1 late)
    have kept : half ≤ size - half := by simp only [half, size]; omega
    refine ih ?_ (List.take_subset_take_left _ kept early)
    exact sorted.sublist ((List.take_sublist _ _).map _)
  | case5 first second rest size half above ih =>
    have compare := @compare_middle (first :: second :: rest) half first (tag, e) sorted
      (by simp only [List.length_cons, half, size]; omega)
    have late : (tag, e) ∈ (first :: second :: rest).drop half := by
      rw [← List.take_append_drop half (first :: second :: rest), List.mem_append] at mem
      exact mem.resolve_left fun early => above (compare.2 early)
    exact ih (sorted.sublist ((List.drop_sublist _ _).map _)) late

end Search

variable {map : CaseMap} {tag : Nat}

/-- In sorted branches the search finds just what is there. -/
theorem get?_eq_some_iff {e : ExprId} (sorted : Ascending map.tags) :
    map.get? tag = some e ↔ (tag, e) ∈ map.branches :=
  ⟨mem_of_search, search_of_mem sorted⟩

/-- In sorted branches the search fails just if the tag is not there. -/
theorem get?_eq_none_iff (sorted : Ascending map.tags) : map.get? tag = none ↔ tag ∉ map.tags := by
  rw [Option.eq_none_iff_forall_ne_some]
  simp only [ne_eq, get?_eq_some_iff sorted, tags, List.mem_map, Prod.exists, exists_and_right,
    exists_eq_right, not_exists]

/-! ## The rule for cases -/

/-- The tags are those of the given number of constructors: all of them, or some of them if there is
a default. -/
def Covers (map : CaseMap) (constructors : Nat) (hasDefault : Bool) : Prop :=
  (∀ tag ∈ map.tags, tag < constructors) ∧
    (hasDefault = false → ∀ tag < constructors, tag ∈ map.tags)

/-- No tag is missing just if each constructor has a branch. -/
theorem missing_eq_nil_iff {constructors : Nat} (sorted : Ascending map.tags) :
    map.missing constructors = [] ↔ ∀ tag < constructors, tag ∈ map.tags := by
  simp only [missing, List.filter_eq_nil_iff, List.mem_range, Option.isNone_iff_eq_none,
    get?_eq_none_iff sorted, not_not]

/-- Sorted branches are accepted just if they cover the constructors of the kind, if it has any. -/
theorem validate_eq_ok_iff {kind : Kind} {hasDefault : Bool} (sorted : Ascending map.tags) :
    map.validate kind hasDefault = .ok () ↔
      ∀ constructors, kind = .tagged constructors → map.Covers constructors hasDefault := by
  cases kind with
  | tagged n =>
    simp only [validate, Kind.tagged.injEq, forall_eq', Covers]
    cases range : map.tags.find? (n ≤ ·) with
    | some tag =>
      have mem := List.mem_of_find?_eq_some range
      have out : n ≤ tag := by simpa using List.find?_some range
      simp only [reduceCtorEq, false_iff, not_and]
      exact fun below => absurd (below tag mem) (Nat.not_lt_of_le out)
    | none =>
      have below : ∀ tag ∈ map.tags, tag < n := by simpa using range
      rw [and_iff_right below]
      cases hasDefault with
      | true => simp
      | false =>
        simp only [Bool.false_eq_true, if_false, forall_const, ← missing_eq_nil_iff sorted]
        split
        · next none => simp [none]
        · next ne => simpa using ne
  | _ => simp [validate]

end CaseMap

namespace Program

/-- There is no descent just if the tags rise strictly. -/
theorem firstDescent_eq_none_iff {tags : List Nat} :
    firstDescent tags = none ↔ Ascending tags := by
  fun_induction firstDescent tags with
  | case1 => simp [Ascending]
  | case2 => simp [Ascending]
  | case3 first second rest less ih =>
    rw [ih, Ascending, Ascending, List.pairwise_cons (l := second :: rest)]
    constructor
    · intro sorted
      refine ⟨List.forall_mem_cons.2 ⟨less, fun tag mem => ?_⟩, sorted⟩
      exact Nat.lt_trans less ((List.pairwise_cons.1 sorted).1 tag mem)
    · exact And.right
  | case4 first second rest descent =>
    simp only [reduceCtorEq, Ascending, false_iff]
    exact fun sorted => descent ((List.pairwise_cons.1 sorted).1 second List.mem_cons_self)

/-- The rule for cases, told from the tags and the kind of the scrutinee. -/
theorem caseViolations_eq_nil_iff {p : Program} {e : ExprId} {scrutinee : OccId .value}
    {map : CaseMap} {otherwise : Option ExprId} :
    p.caseViolations e scrutinee map otherwise = [] ↔ Ascending map.tags ∧
      ∀ constructors, p.kindAt? scrutinee = some (.tagged constructors) →
        map.Covers constructors otherwise.isSome := by
  unfold caseViolations
  cases descent : firstDescent map.tags with
  | some pair =>
    have unsorted : ¬ Ascending map.tags := by simp [← firstDescent_eq_none_iff, descent]
    simp only [unsorted, false_and, iff_false]
    split <;> simp
  | none =>
    have sorted := firstDescent_eq_none_iff.1 descent
    cases p.kindAt? scrutinee with
    | none => simp [sorted]
    | some kind =>
      have fits := @CaseMap.validate_eq_ok_iff map kind otherwise.isSome sorted
      simp only [sorted, true_and, Option.some.injEq, ← fits]
      cases map.validate kind otherwise.isSome <;> simp

end Program

end ContinuationIR
