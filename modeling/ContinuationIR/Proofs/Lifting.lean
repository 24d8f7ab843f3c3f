import ContinuationIR.Proofs.Consistency

/-!
# Lifting a child

An expression that takes the place of the expression right above it is lifted by one level. The
nodes in its tree lose the old parent out of their lineages and nothing else. A use whose variable is
not bound there resolves as it did: an expression on the way up to a binding neither stops a
continuation nor makes a use recursive.
-/

namespace ContinuationIR
set_option autoImplicit false

namespace Lineage

variable {link other : Node → Except Fault (Option Node)} {node child old : Node}
  {above : List Node}

/-- A node does not occur above itself. -/
theorem filter_self (lin : Lineage link node above) :
    (node :: above).filter (· ≠ node) = above := by
  rw [List.filter_cons_of_neg (by simp), List.filter_eq_self]
  intro n mem
  simp only [decide_eq_true_eq]
  rintro rfl
  exact lin.not_mem_self mem

/-- A way up that goes through the child comes to the old parent from the child. -/
theorem ne_of_below {parent : Node} (lin : Lineage link node (parent :: above))
    (at_ : link child = .ok (some old))
    (below : old ∈ parent :: above → child ∈ node :: parent :: above) (ne : node ≠ child) :
    parent ≠ old := by
  rintro rfl
  rcases List.mem_cons.1 (below List.mem_cons_self) with eq | mem
  · exact ne eq.symm
  · cases lin with
    | up _ lin =>
      rcases List.mem_cons.1 mem with rfl | mem
      · cases lin with
        | top free =>
          rw [free] at at_
          cases at_
        | up up lin =>
          rw [up] at at_
          cases at_
          exact (Lineage.up up lin).not_mem_self List.mem_cons_self
      · obtain ⟨front, back, rfl⟩ := List.append_of_mem mem
        cases lin.drop rfl with
        | top free =>
          rw [free] at at_
          cases at_
        | up up _ =>
          rw [up] at at_
          cases at_
          exact lin.not_mem_self (by simp)

/-- After the child was lifted a lineage is without the old parent. -/
theorem lift (lin : Lineage link node above) (at_ : link child = .ok (some old))
    (moved : other child = link old) (same : ∀ n, n ≠ child → other n = link n)
    (below : old ∈ above → child ∈ node :: above) :
    Lineage other node (above.filter (· ≠ old)) := by
  induction lin with
  | @top node free =>
    refine .top ((same node ?_).trans free)
    rintro rfl
    rw [free] at at_
    cases at_
  | @up node parent above up lin ih =>
    by_cases here : node = child
    · subst here
      rw [up] at at_
      cases at_
      have absent := (Lineage.up up lin).not_mem_self
      rw [lin.filter_self]
      cases lin with
      | top free => exact .top (moved.trans free)
      | up up' lin' =>
        refine .up (moved.trans up') (lin'.congr fun n mem => same n ?_)
        rintro rfl
        exact absent (List.mem_cons_of_mem _ mem)
    · have ne := ne_of_below (.up up lin) at_ below here
      rw [List.filter_cons_of_pos (by simpa using ne)]
      refine .up ((same node here).trans up) (ih fun mem => ?_)
      have inside := List.mem_cons.1 (below (List.mem_cons_of_mem _ mem))
      exact inside.resolve_left fun eq => here eq.symm

end Lineage

namespace Program

variable {family : Family} {p : Program} {var : VarId family} {holder : ExprId} {binding : Binding}
  {above : List Node}

/-- Of the node that a climb comes from it only matters whether it is a definition. -/
theorem resolveAlong_congr {stop : Option Fault} {child other : Node}
    (same : child.isDefinition = other.isDefinition) :
    p.resolveAlong binding var holder stop child above =
      p.resolveAlong binding var holder stop other above := by
  cases above <;> simp only [resolveAlong, same]

/-- A climb goes on at an expression that does not bind the variable. -/
theorem resolveAlong_expr {stop : Option Fault} {child : Node} {e : ExprId}
    (elsewhere : .expr e ≠ binding.site) :
    p.resolveAlong binding var holder stop child (.expr e :: above) =
      p.resolveAlong binding var holder stop (.expr e) above := by
  simp only [resolveAlong, elsewhere, if_false, stopsContinuations, ite_self]

/-- The climb finds the same without the old parent of a lifted child. -/
theorem resolveAlong_lift {link : Node → Except Fault (Option Node)} {stop : Option Fault}
    {node : Node} {child old : ExprId} (lin : Lineage link node above)
    (at_ : link (.expr child) = .ok (some (.expr old)))
    (below : .expr old ∈ above → .expr child ∈ node :: above)
    (elsewhere : .expr old ≠ binding.site) :
    p.resolveAlong binding var holder stop node (above.filter (· ≠ .expr old)) =
      p.resolveAlong binding var holder stop node above := by
  induction lin with
  | top => rfl
  | @up node parent above up lin ih =>
    by_cases here : node = .expr child
    · subst here
      rw [up] at at_
      cases at_
      rw [lin.filter_self, resolveAlong_expr elsewhere]
      exact resolveAlong_congr rfl
    · have ne := Lineage.ne_of_below (.up up lin) at_ below here
      have next := ih fun mem =>
        (List.mem_cons.1 (below (List.mem_cons_of_mem _ mem))).resolve_left fun eq => here eq.symm
      rw [List.filter_cons_of_pos (by simpa using ne)]
      simp only [resolveAlong, next]

/-- A use in the tree of a lifted child resolves as it did, if its variable is not bound at the old
parent. -/
theorem resolve_lift {child old : ExprId} {parent : Node}
    (at_ : p.enclosing (.expr child) = .ok (some (.expr old)))
    (up : p.enclosing (.expr old) = .ok (some parent))
    (within : p.Within (.expr child) (.expr holder)) (bound : p.bindingOf? var = some binding)
    (elsewhere : .expr old ≠ binding.site) :
    p.resolve (some ⟨child, some parent⟩) var holder = p.resolve none var holder := by
  obtain ⟨above, lin, mem⟩ := within
  have live := hasNode_of_lineage lin
  have moved : p.graftedEnclosing (some ⟨child, some parent⟩) (.expr child) =
      p.enclosing (.expr old) := (if_pos rfl).trans up.symm
  have lifted := lin.lift at_ moved (fun n ne => if_neg ne) fun _ => mem
  have liveAfter : ∀ n ∈ Node.expr holder :: above.filter (· ≠ .expr old), p.hasNode n = true := by
    intro n mem
    rcases List.mem_cons.1 mem with rfl | mem
    · exact live _ List.mem_cons_self
    · exact live n (List.mem_cons_of_mem _ (List.mem_of_mem_filter mem))
  have before : p.resolve none var holder = _ := resolve_of_bound bound lin live
  rw [resolve_of_bound bound lifted liveAfter, before]
  exact resolveAlong_lift lin at_ (fun _ => mem) elsewhere

end Program

end ContinuationIR
