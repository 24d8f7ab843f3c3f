import ContinuationIR.Proofs.Consistency

/-!
# The environment of the checker

While the checker walks a node it knows which binders are in scope, which groups have a member being
walked and which continuations are out of reach. On a path all three can be told from the nodes of
the path. Looking a variable up there gives the same answer as looking for its binder from the inside
out, which is how scope is defined.
-/

namespace ContinuationIR
set_option autoImplicit false

/-! ## Lookups -/

section Lookup

variable {family : Family} {group : Option ExprId} {v w : VarId family}

/-- Leaving out entries by their variable leaves out the lookups of those variables. -/
theorem lookup_filter (scope : Environment family) (keep : VarId family → Bool) :
    (scope.filter fun entry => keep entry.1).lookup v =
      if keep v then scope.lookup v else none := by
  induction scope with
  | nil => simp
  | cons entry rest ih =>
    obtain ⟨u, g⟩ := entry
    by_cases kept : keep u
    · rw [List.filter_cons_of_pos (by simpa using kept), List.lookup_cons, List.lookup_cons, ih]
      by_cases eq : v = u
      · simp [eq, kept]
      · rw [beq_eq_false_iff_ne.2 eq]
    · rw [List.filter_cons_of_neg (by simpa using kept), ih, List.lookup_cons]
      by_cases eq : v = u
      · simp [eq, kept]
      · rw [beq_eq_false_iff_ne.2 eq]

namespace Ledger

variable (l : Ledger family)

/-- A variable that is introduced hides an older entry of its own only. -/
theorem lookup_introduce : (l.introduce w group).scope.lookup v =
    if v = w then some group else l.scope.lookup v := by
  have others := lookup_filter (v := v) l.scope fun u => decide (u ≠ w)
  rw [introduce, List.lookup_cons]
  by_cases eq : v = w
  · simp [eq]
  · rw [others, beq_eq_false_iff_ne.2 eq]
    simp [eq]

/-- Variables that are retired are out of scope, the others stay. -/
theorem lookup_retire (vars : List (VarId family)) : (l.retire vars).scope.lookup v =
    if v ∈ vars then none else l.scope.lookup v := by
  have others := lookup_filter (v := v) l.scope fun u => !vars.contains u
  rw [retire, others]
  by_cases mem : v ∈ vars <;> simp [mem]

end Ledger

end Lookup

namespace Program

variable {family : Family} {p : Program}

/-! ## What a path brings into scope -/

/-- The entry that a variable has in the environment below a path: the group that names it, if it is
a group's name. -/
def envAt (p : Program) (v : VarId family) : List Node → Option (Option ExprId)
  | [] => none
  | site :: above =>
    if ⟨v⟩ ∈ p.bindersOf site then some (p.groupOf site)
    else if family = .continuation ∧ p.stopsContinuations site ≠ .ok false then none
    else p.envAt v above

/-- The group of which a member is being walked when the path goes on to `child`. -/
def openedBy : Node → List Node → Option ExprId
  | .defn _, .expr e :: _ => some e
  | _, _ => none

/-- The groups that have a member on the path. -/
def opened : List Node → List ExprId
  | [] => []
  | child :: above => (openedBy child above).toList ++ opened above

/-- The recursivity of a use, by the group that names its variable. -/
def recursivityIn (open_ : List ExprId) : Option ExprId → Recursivity
  | some e => if e ∈ open_ then .recursive else .nonRecursive
  | none => .nonRecursive

/-- A group is opened where the path goes on to one of its members. -/
theorem openedBy_eq_some {child : Node} {above : List Node} {e : ExprId} :
    openedBy child above = some e ↔ child.isDefinition = true ∧ above.head? = some (.expr e) := by
  cases child with
  | expr _ => simp [openedBy, Node.isDefinition]
  | defn _ =>
    rcases above with _ | ⟨_ | _, _⟩ <;> simp [openedBy, Node.isDefinition]

/-- A group is open on a path if it is opened by the first step or open on the rest. -/
theorem mem_opened_cons {child : Node} {above : List Node} {e : ExprId} :
    e ∈ opened (child :: above) ↔
      (child.isDefinition = true ∧ above.head? = some (.expr e)) ∨ e ∈ opened above := by
  rw [opened, List.mem_append, Option.mem_toList, openedBy_eq_some]

/-- A group that is open on a path lies on it, and not innermost. -/
theorem mem_tail_of_opened {path : List Node} {e : ExprId} (mem : e ∈ opened path) :
    .expr e ∈ path.tail := by
  induction path with
  | nil => simp [opened] at mem
  | cons child above ih =>
    rcases mem_opened_cons.1 mem with ⟨-, head⟩ | mem
    · exact List.mem_of_head? head
    · exact List.mem_of_mem_tail (ih mem)

theorem groupOf_eq_some {node : Node} {e : ExprId} (group : p.groupOf node = some e) :
    node = .expr e := by
  cases node with
  | defn _ => cases group
  | expr e' =>
    rw [groupOf_expr] at group
    split at group
    · cases group
      rfl
    · cases group

/-- The group that names a variable in scope is on the path. -/
theorem mem_of_envAt {v : VarId family} {above : List Node} {e : ExprId}
    (found : p.envAt v above = some (some e)) : .expr e ∈ above := by
  induction above with
  | nil => simp [envAt] at found
  | cons site above ih =>
    rw [envAt] at found
    split at found
    · rw [groupOf_eq_some (Option.some.inj found)]
      exact List.mem_cons_self
    · split at found
      · cases found
      · exact List.mem_cons_of_mem _ (ih found)

/-- Looking up the environment of a path is looking for the binder from the inside out. The site
stands once on the path, so it is open just if the path goes on to a member. -/
theorem seenAlong_eq {v : VarId family} {child : Node} {above : List Node}
    (distinct : (child :: above).Nodup) :
    p.seenAlong v child above =
      (p.envAt v above).map (recursivityIn (opened (child :: above))) := by
  induction above generalizing child with
  | nil => rfl
  | cons site above ih =>
    have tail := (List.nodup_cons.1 distinct).2
    rw [seenAlong, envAt]
    split
    · cases group : p.groupOf site with
      | none => simp [recursivityIn]
      | some e =>
        obtain rfl := groupOf_eq_some group
        have opens : e ∈ opened (child :: .expr e :: above) ↔ child.isDefinition = true := by
          rw [mem_opened_cons]
          constructor
          · rintro (⟨yes, -⟩ | mem)
            · exact yes
            · exact absurd (mem_tail_of_opened mem) (List.nodup_cons.1 tail).1
          · exact fun yes => .inl ⟨yes, rfl⟩
        simp [recursivityIn, opens]
    · split
      · rfl
      · rw [ih tail]
        refine Option.map_congr fun group found => ?_
        cases group with
        | none => rfl
        | some e =>
          have inner := mem_of_envAt found
          have other : site ≠ .expr e := by
            rintro rfl
            exact (List.nodup_cons.1 tail).1 inner
          simp [recursivityIn, mem_opened_cons, other]

end Program

end ContinuationIR
