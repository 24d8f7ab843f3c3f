import ContinuationIR.Proofs.Lexical

/-!
# What functions capture

A function of the installed tree captures values that are bound above it and no continuations: a use
of a continuation does not reach out of a function. The free variables of the functions are listed for
each function of the installed tree once.
-/

namespace ContinuationIR
set_option autoImplicit false

namespace Program

variable {p : Program} {d : DefId}

/-- The definition is a function of the installed tree. -/
def AttachedFunction (p : Program) (d : DefId) : Prop :=
  p.isAttached (.defn d) = .ok true ∧
    ∃ definition, p.definitionOf? d = some definition ∧ definition.header.kind = .function

theorem isFunction_iff : p.isFunction d = true ↔
    ∃ definition, p.definitionOf? d = some definition ∧ definition.header.kind = .function := by
  simp [isFunction_eq, Option.any_eq_true]

/-- Continuations are not looked for beyond a function. -/
theorem AttachedFunction.isBoundary (function : p.AttachedFunction d) :
    p.isBoundary (.defn d) = true := by
  obtain ⟨-, ⟨header, parameters, type, body⟩, read, kind⟩ := function
  cases header with
  | function name returnTo visibility => simp [Program.isBoundary, read, Header.isFunctionBoundary]
  | _ => cases kind

section Functions

variable (c : Consistent p)
include c

/-- A continuation that is used in a function is not bound above it: the function would stand on the
way from the use to the binder. -/
theorem Consistent.not_boundAbove_of_function (function : p.AttachedFunction d)
    {k : VarId .continuation} (used : p.UsedIn (.defn d) k) : ¬ p.BoundAbove (.defn d) k := by
  rintro ⟨binding, bound, higher⟩
  obtain ⟨o, entry, read, rfl, within⟩ := used
  have attached := c.attached_below function.1 within
  obtain ⟨binding', bound', -, clear⟩ :=
    (c.forest.exists_resolve_iff (hasNode_of_isAttached attached)).1 ⟨_, c.inScope read attached⟩
  rw [bound] at bound'
  cases bound'
  have between : Above p.enclosing (.defn d) (.expr entry.holder) :=
    above_enclosing_iff.2 ⟨within, nofun⟩
  have hidden := clear rfl _ between higher
  rw [function.isBoundary] at hidden
  cases hidden

/-- No continuation is free in a function. -/
theorem Consistent.free_continuation_eq_nil (function : p.AttachedFunction d) :
    (p.tree (.defn d)).free .continuation = [] := by
  refine List.eq_nil_iff_forall_not_mem.2 fun k free => ?_
  obtain ⟨used, bound, -⟩ := (c.mem_free_iff function.1).1 free
  exact c.not_boundAbove_of_function function used bound

/-- The functions that are listed are those of the installed tree. -/
theorem Consistent.exists_functions :
    ∃ ds, p.functions = .ok ds ∧ ∀ d, d ∈ ds ↔ p.AttachedFunction d := by
  cases installed : p.root with
  | none =>
    refine ⟨[], by rw [functions, installed], fun d => ?_⟩
    simp only [List.not_mem_nil, false_iff]
    rintro ⟨attached, -⟩
    obtain ⟨r, root, -⟩ := c.attached_iff.1 attached
    rw [installed] at root
    cases root
  | some r =>
    have live := hasNode_of_isAttached (c.attached_root installed)
    obtain ⟨region, walked, covers⟩ := region_all c.forest live
    refine ⟨region.definitions.filter p.isFunction, ?_, fun d => ?_⟩
    · simp only [functions, installed, walked]
      rfl
    · rw [List.mem_filter, Region.mem_definitions, covers.nodes, isFunction_iff, AttachedFunction,
        c.attached_iff]
      simp [installed]

/-- What is said of each function are the free variables of its tree. -/
theorem Consistent.functionFreeVariables_eq {ds : List DefId} (listed : p.functions = .ok ds)
    (attached : ∀ d ∈ ds, p.isAttached (.defn d) = .ok true) :
    p.functionFreeVariables = .ok ((HandleSet.ofList ds).toList.map fun d =>
      (d, (p.tree (.defn d)).freeVariables)) := by
  have free : ds.mapM (fun d => return (d, ← p.freeVariables (.defn d))) =
      .ok (ds.map fun d => (d, (p.tree (.defn d)).freeVariables)) := by
    refine (mapM_congr fun d mem => ?_).trans List.mapM_pure
    rw [c.freeVariables_eq (attached d mem)]
    rfl
  rw [functionFreeVariables, listed, ok_bind, free, ok_bind]
  refine congrArg Except.ok ((List.filterMap_congr fun d mem => ?_).trans
    (congrFun List.filterMap_eq_map _))
  have known : d ∈ ds := HandleSet.mem_ofList.1 mem
  rw [List.lookup_graph _ known]
  rfl

end Functions

/-- Functions capture no continuations. The functions of the installed tree are listed, in ascending
order, with their free variables: these are values that are bound above the function. -/
theorem functions_capture_values_only (reachable : Reachable p) :
    ∃ table, p.functionFreeVariables = .ok table ∧
      (table.map Prod.fst).Pairwise (fun a b => a.index < b.index) ∧
      (∀ d, d ∈ table.map Prod.fst ↔ p.AttachedFunction d) ∧
      ∀ d free, (d, free) ∈ table → p.freeVariables (.defn d) = .ok free ∧
        free.continuations = .empty ∧ ∀ v ∈ free.values, p.BoundAbove (.defn d) v := by
  obtain ⟨c, -⟩ := reachable.consistent
  obtain ⟨ds, listed, functions⟩ := c.exists_functions
  have table := c.functionFreeVariables_eq listed fun d mem => ((functions d).1 mem).1
  have keys : (List.map (fun d => (d, (p.tree (.defn d)).freeVariables))
      (HandleSet.ofList ds).toList).map Prod.fst = (HandleSet.ofList ds).toList := by
    rw [List.map_map]
    exact List.map_id _
  refine ⟨_, table, ?_, fun d => ?_, fun d free mem => ?_⟩
  · rw [keys]
    exact (HandleSet.ofList ds).ascending
  · rw [keys, ← HandleSet.mem_def, HandleSet.mem_ofList, functions]
  · obtain ⟨d', mem', same⟩ := List.mem_map.1 mem
    cases same
    have function := (functions d).1 (HandleSet.mem_ofList.1 mem')
    refine ⟨c.freeVariables_eq function.1, ?_, fun v free => ?_⟩
    · rw [Tree.freeVariables, c.free_continuation_eq_nil function]
      rfl
    · exact ((c.mem_free_iff function.1).1 (HandleSet.mem_ofList.1 free)).2.1

/-- The inner function captures the outer one and its parameter. -/
theorem nestedFunctions_capture :
    nestedFunctions.functionFreeVariables =
      .ok [(⟨0⟩, ⟨.ofList [⟨0⟩, ⟨1⟩], .empty⟩), (⟨1⟩, ⟨.empty, .empty⟩)] ∧
    nestedFunctions.AttachedFunction ⟨0⟩ ∧
    nestedFunctions.BoundAbove (.defn ⟨0⟩) (⟨1⟩ : VarId .value) := by
  obtain ⟨table, computed, -, keys, free⟩ := functions_capture_values_only nestedFunctions_reachable
  have listed : nestedFunctions.functionFreeVariables =
      .ok [(⟨0⟩, ⟨.ofList [⟨0⟩, ⟨1⟩], .empty⟩), (⟨1⟩, ⟨.empty, .empty⟩)] := by
    set_option maxRecDepth 2000 in rfl
  rw [listed] at computed
  cases computed
  refine ⟨listed, (keys _).1 (by simp), ?_⟩
  exact (free _ _ List.mem_cons_self).2.2 _ (HandleSet.mem_ofList.2 (by simp))

end Program

end ContinuationIR
