import ContinuationIR.Proofs.Knowledge

/-!
# When the checker finds nothing

The plain walk over a tree finds nothing just if each node it enters stands as it should, whatever
the state, and no variable or occurrence is met twice. On leaving the tree the environment is the
one before it.
-/

namespace ContinuationIR
set_option autoImplicit false

namespace Program

variable {family : Family} {p : Program} {s : Audit} {node : Node} {path above : List Node}
  {env : Lookup} {hid : List (Environment .continuation)}

/-! ## What it takes to find nothing -/

/-- The occurrence is where it says, its variable lists it, and it has the recursivity that looking
up its variable gives. -/
def Fits (p : Program) (env : Lookup) (path : List Node) (site : Node) (o : OccId family) : Prop :=
  ∃ entry, p.occEntry? o = some entry ∧ .expr entry.holder = site ∧ p.Lists entry.var o ∧
    (env family entry.var).map (recursivityIn (opened path)) = some entry.recursivity

/-- No variable that the events bind and no occurrence that they meet was noted before, and none is
met twice. -/
structure New (s : Audit) (events : List Event) : Prop where
  binders : (events.filterMap Event.binder?).Nodup
  unbound : ∀ {family : Family} {v : VarId family}, ⟨v⟩ ∈ events.filterMap Event.binder? →
    v ∉ (s.ledger family).bound
  uses : (events.filterMap Event.use?).Nodup
  unheld : ∀ {family : Family} {o : OccId family}, ⟨o⟩ ∈ events.filterMap Event.use? →
    o ∉ (s.ledger family).held

theorem new_nil (s : Audit) : New s [] := by
  constructor <;> simp

theorem new_of_silent {event : Event} (noBinder : event.binder? = none)
    (noUse : event.use? = none) : New s [event] := by
  constructor <;> simp [noBinder, noUse]

/-- What comes later has to be new to the state that what comes earlier leaves. -/
theorem new_append {first second : List Event} (sited : Sited first) :
    New s (first ++ second) ↔ New s first ∧ New (first.foldl p.advance s) second := by
  have noted := noted_foldl p s sited
  constructor
  · intro new
    have binders := new.binders
    have uses := new.uses
    rw [List.filterMap_append, List.nodup_append] at binders uses
    refine ⟨⟨binders.1, fun mem => new.unbound (by simp [mem]), uses.1,
      fun mem => new.unheld (by simp [mem])⟩, ⟨binders.2.1, ?_, uses.2.1, ?_⟩⟩
    · intro family v mem
      rw [noted.bound, not_or]
      exact ⟨fun one => binders.2.2 _ one _ mem rfl, new.unbound (by simp [mem])⟩
    · intro family o mem
      rw [noted.held, not_or]
      exact ⟨fun one => uses.2.2 _ one _ mem rfl, new.unheld (by simp [mem])⟩
  · rintro ⟨one, two⟩
    have apart {family : Family} {v : VarId family} (mem : ⟨v⟩ ∈ second.filterMap Event.binder?) :=
      not_or.1 (noted.bound.not.1 (two.unbound mem))
    have apart' {family : Family} {o : OccId family} (mem : ⟨o⟩ ∈ second.filterMap Event.use?) :=
      not_or.1 (noted.held.not.1 (two.unheld mem))
    constructor
    case binders =>
      rw [List.filterMap_append, List.nodup_append]
      refine ⟨one.binders, two.binders, ?_⟩
      rintro ⟨v⟩ mem _ mem' rfl
      exact (apart mem').1 mem
    case uses =>
      rw [List.filterMap_append, List.nodup_append]
      refine ⟨one.uses, two.uses, ?_⟩
      rintro ⟨o⟩ mem _ mem' rfl
      exact (apart' mem').1 mem
    case unbound =>
      intro family v mem
      rw [List.filterMap_append, List.mem_append] at mem
      exact mem.elim one.unbound fun later => (apart later).2
    case unheld =>
      intro family o mem
      rw [List.filterMap_append, List.mem_append] at mem
      exact mem.elim one.unheld fun later => (apart' later).2

/-- Nothing is found on entering a node just if its link is to the node above and it obeys the
rules. -/
theorem enterFindings_eq_nil_iff (live : p.hasNode node = true) (place : s.path = above) :
    p.enterFindings s node = [] ↔ p.enclosing node = .ok above.head? ∧ p.nodeViolations node = [] := by
  obtain ⟨found, link⟩ := enclosing_ok_iff_hasNode.2 live
  simp [enterFindings, link, place]

/-- Nothing is found at a binder just if it is met for the first time and its binding has this
site. -/
theorem bindFindings_eq_nil_iff {site : Node} {v : VarId family} :
    p.bindFindings s site v = [] ↔
      v ∉ (s.ledger family).bound ∧ (p.bindingOf? v).map (·.site) = some site := by
  unfold bindFindings bindingOf?
  cases p.varEntry? v <;> simp

/-- An occurrence is new just if it was not met before. -/
theorem new_use_iff {e : ExprId} {o : OccId family} :
    New s [.mark (.expr e) (.use o)] ↔ o ∉ (s.ledger family).held := by
  constructor
  · exact fun new => new.unheld (List.mem_singleton_self _)
  · intro unheld
    refine ⟨List.nodup_nil, (fun mem => nomatch mem), List.nodup_singleton _, ?_⟩
    intro other o' mem
    cases List.mem_singleton.1 mem
    exact unheld

/-- A binder is new just if it was not met before. -/
theorem new_bind_iff {site : Node} {v : VarId family} :
    New s [.mark site (.bind v)] ↔ v ∉ (s.ledger family).bound := by
  constructor
  · exact fun new => new.unbound (List.mem_singleton_self _)
  · intro unbound
    refine ⟨List.nodup_singleton _, ?_, List.nodup_nil, (fun mem => nomatch mem)⟩
    intro other v' mem
    cases List.mem_singleton.1 mem
    exact unbound

theorem hasVariable_of_site {v : VarId family} {site : Node}
    (bound : (p.bindingOf? v).map (·.site) = some site) : p.hasVariable v = true := by
  obtain ⟨binding, found, -⟩ := Option.map_eq_some_iff.1 bound
  obtain ⟨entry, live, -⟩ := Option.bind_eq_some_iff.1 found
  exact Slots.contains_iff.2 ⟨entry, live⟩

/-- Nothing is found at an occurrence just if it is met for the first time and fits what is known of
the place. -/
theorem useFindings_eq_nil_iff (knows : Knows path env hid s) {e : ExprId} {o : OccId family} :
    p.useFindings s e o = [] ↔ o ∉ (s.ledger family).held ∧ p.Fits env path (.expr e) o := by
  unfold useFindings Fits
  by_cases again : o ∈ (s.ledger family).held
  · simp [again]
  · simp only [again, if_false, not_false_eq_true, true_and]
    cases p.occEntry? o with
    | none => simp
    | some entry =>
      have looked : scopeFindings s o entry = [] ↔
          (env family entry.var).map (recursivityIn (opened path)) = some entry.recursivity := by
        have same (group : Option ExprId) :
            recursivityIn s.openGroups group = recursivityIn (opened path) group := by
          cases group <;> simp [recursivityIn, knows.groups]
        rw [scopeFindings, knows.scope]
        cases env family entry.var with
        | none =>
          dsimp only
          split <;> simp
        | some group => simp [same, eq_comm]
      cases live : p.varEntry? entry.var with
      | none => simp [Lists, live]
      | some var => simp [Lists, live, looked]

/-! ## Quiet runs -/

/-- A run finds nothing just if what it meets is new and the condition holds, and then it ends as
described. -/
structure Quiet (p : Program) (s : Audit) (events : List Event) (condition : Prop)
    (last : Audit → Prop) : Prop where
  iff : p.findings s events = [] ↔ New s events ∧ condition
  after : p.findings s events = [] → last (events.foldl p.advance s)

namespace Quiet

variable {first second : List Event} {condition condition' : Prop} {mid last last' : Audit → Prop}

/-- Two quiet runs make one, if the first leaves what the second starts from. -/
theorem append (sited : Sited first) (one : Quiet p s first condition mid)
    (two : ∀ t, mid t → Quiet p t second condition' last) :
    Quiet p s (first ++ second) (condition ∧ condition') last := by
  constructor
  case iff =>
    rw [findings_append, List.append_eq_nil_iff, @new_append p s first second sited]
    constructor
    · rintro ⟨none, none'⟩
      obtain ⟨new, holds⟩ := one.iff.1 none
      obtain ⟨new', holds'⟩ := (two _ (one.after none)).iff.1 none'
      exact ⟨⟨new, new'⟩, holds, holds'⟩
    · rintro ⟨⟨new, new'⟩, holds, holds'⟩
      have none := one.iff.2 ⟨new, holds⟩
      exact ⟨none, (two _ (one.after none)).iff.2 ⟨new', holds'⟩⟩
  case after =>
    rw [findings_append, List.append_eq_nil_iff, List.foldl_append]
    rintro ⟨none, none'⟩
    exact (two _ (one.after none)).after none'

/-- The condition of a quiet run can be put into other words. -/
theorem congr (quiet : Quiet p s first condition last) (same : condition' ↔ condition) :
    Quiet p s first condition' last :=
  ⟨by rw [quiet.iff, same], quiet.after⟩

/-- A quiet run may be said to leave less. -/
theorem mono (quiet : Quiet p s first condition last) (weaken : ∀ t, last t → last' t) :
    Quiet p s first condition last' :=
  ⟨quiet.iff, fun none => weaken _ (quiet.after none)⟩

theorem nil (here : last s) : Quiet p s [] True last :=
  ⟨by simp [findings, new_nil], fun _ => here⟩

/-- One event that binds nothing and holds nothing. -/
theorem single {event : Event} (iff : p.finds s event = [] ↔ condition)
    (noBinder : event.binder? = none) (noUse : event.use? = none)
    (after : p.finds s event = [] → last (p.advance s event)) :
    Quiet p s [event] condition last := by
  have new : New s [event] := new_of_silent noBinder noUse
  exact ⟨by simp [findings, iff, new], by simpa [findings] using after⟩

end Quiet

/-! ## The phases of a script -/

/-- A step that at most meets an occurrence. -/
def IsUse : Step → Prop
  | .mark .value | .mark (.use _) => True
  | _ => False

/-- A step that binds a variable or breaks off. -/
def IsBind : Step → Prop
  | .mark (.bind _) | .broken _ => True
  | _ => False

/-- A step that at most goes down to a child. -/
def IsDescent : Step → Prop
  | .mark (.branch _) | .child _ => True
  | _ => False

/-- The three phases of a script are apart: uses bind nothing, binders hold nothing, and neither
descends. -/
theorem IsUse.no_binder {step : Step} (use : IsUse step) : step.binder? = none := by
  rcases step with m | _ | _
  · cases m <;> first | rfl | cases use
  all_goals rfl

theorem IsUse.no_child {step : Step} (use : IsUse step) : step.child? = none := by
  cases step <;> first | rfl | cases use

theorem IsBind.no_use {step : Step} (bind : IsBind step) : step.use? = none := by
  rcases step with m | _ | _
  · cases m <;> first | rfl | cases bind
  all_goals rfl

theorem IsBind.no_child {step : Step} (bind : IsBind step) : step.child? = none := by
  cases step <;> first | rfl | cases bind

theorem IsDescent.no_use {step : Step} (descent : IsDescent step) : step.use? = none := by
  rcases step with m | _ | _
  · cases m <;> first | rfl | cases descent
  all_goals rfl

theorem IsDescent.no_binder {step : Step} (descent : IsDescent step) : step.binder? = none := by
  rcases step with m | _ | _
  · cases m <;> first | rfl | cases descent
  all_goals rfl

/-- A node meets its occurrences before it binds and binds before it goes down. -/
theorem exists_phases (p : Program) (node : Node) : ∃ uses binds descents,
    p.scriptOf node = uses ++ (binds ++ descents) ∧ (∀ step ∈ uses, IsUse step) ∧
      (∀ step ∈ binds, IsBind step) ∧ ∀ step ∈ descents, IsDescent step := by
  have used {family : Family} (os : List (OccId family)) : ∀ step ∈ Step.uses os, IsUse step := by
    simp [Step.uses, IsUse]
  have branched (tag : Option Nat) (e : ExprId) : ∀ step ∈ Step.branch tag e, IsDescent step := by
    simp [Step.branch, IsDescent]
  cases node with
  | defn d =>
    cases read : p.definitionOf? d with
    | none => exact ⟨[], [], [], by simp [scriptOf_of_dead, hasNode_defn, read], by simp⟩
    | some definition =>
      rw [scriptOf_defn read]
      exact ⟨[], _, [.child (.expr definition.body)], rfl, by simp, by
        simp only [List.mem_append, List.mem_map]
        rintro step (⟨v, -, rfl⟩ | ⟨v, -, rfl⟩) <;> trivial, by simp [IsDescent]⟩
  | expr e =>
    cases read : p.shapeOf? e with
    | none => exact ⟨[], [], [], by simp [scriptOf_of_dead, hasNode_expr, read], by simp⟩
    | some shape =>
      rw [scriptOf_expr read]
      cases shape with
      | letIn v value body =>
        refine ⟨.mark .value :: Step.uses value.uses, [.mark (.bind v)], [.child (.expr body)],
          by simp [shapeScript], ?_, by simp [IsBind], by simp [IsDescent]⟩
        exact List.forall_mem_cons.2 ⟨trivial, used _⟩
      | group family members body =>
        refine ⟨[], members.flatMap (p.nameStep family),
          members.map (fun d => .child (.defn d)) ++ [.child (.expr body)],
          by simp [shapeScript], by simp, ?_, by simp [IsDescent, or_imp, forall_and]⟩
        intro step mem
        obtain ⟨d, -, mem⟩ := List.mem_flatMap.1 mem
        unfold nameStep at mem
        split at mem
        · obtain rfl := List.mem_singleton.1 mem
          trivial
        · split at mem
          · obtain rfl := List.mem_singleton.1 mem
            trivial
          · cases mem
      | caseOf scrutinee map otherwise =>
        refine ⟨Step.uses [scrutinee], [],
          map.branches.flatMap (fun branch => Step.branch (some branch.1) branch.2) ++
            otherwise.toList.flatMap (Step.branch none),
          by simp [shapeScript], used _, by simp, ?_⟩
        intro step mem
        rcases List.mem_append.1 mem with mem | mem
        · obtain ⟨branch, -, mem⟩ := List.mem_flatMap.1 mem
          exact branched _ _ step mem
        · obtain ⟨e, -, mem⟩ := List.mem_flatMap.1 mem
          exact branched _ _ step mem
      | primitive op arguments k =>
        exact ⟨_, [], [], (List.append_nil _).symm,
          List.forall_mem_append.2 ⟨used arguments, used [k]⟩, by simp⟩
      | apply f arguments k =>
        exact ⟨_, [], [], (List.append_nil _).symm,
          List.forall_mem_append.2 ⟨used (f :: arguments), used [k]⟩, by simp⟩
      | jump k arguments =>
        exact ⟨_, [], [], (List.append_nil _).symm,
          List.forall_mem_append.2 ⟨used [k], used arguments⟩, by simp⟩
      | unreachable => exact ⟨[], [], [], rfl, by simp⟩

/-- The occurrences of a node are those of the first phase, its binders those of the second and its
children those of the third. -/
theorem exists_parts (p : Program) (node : Node) : ∃ us bs cs,
    p.scriptOf node = us ++ (bs ++ cs) ∧ (∀ step ∈ us, IsUse step) ∧ (∀ step ∈ bs, IsBind step) ∧
      (∀ step ∈ cs, IsDescent step) ∧ p.usesOf node = us.filterMap Step.use? ∧
      p.bindersOf node = bs.filterMap Step.binder? ∧
      p.childrenOf node = cs.filterMap Step.child? := by
  obtain ⟨us, bs, cs, script, onlyUses, onlyBinds, onlyDescents⟩ := exists_phases p node
  refine ⟨us, bs, cs, script, onlyUses, onlyBinds, onlyDescents, ?_, ?_, ?_⟩
  · have second := List.filterMap_eq_nil_iff.2 fun step mem => (onlyBinds step mem).no_use
    have third := List.filterMap_eq_nil_iff.2 fun step mem => (onlyDescents step mem).no_use
    simp [usesOf, script, List.filterMap_append, second, third]
  · have first := List.filterMap_eq_nil_iff.2 fun step mem => (onlyUses step mem).no_binder
    have third := List.filterMap_eq_nil_iff.2 fun step mem => (onlyDescents step mem).no_binder
    simp [bindersOf, script, List.filterMap_append, first, third]
  · have first := List.filterMap_eq_nil_iff.2 fun step mem => (onlyUses step mem).no_child
    have second := List.filterMap_eq_nil_iff.2 fun step mem => (onlyBinds step mem).no_child
    simp [childrenOf, script, List.filterMap_append, first, second]

section Phases

variable {visit : Node → List Event} {steps : List Step}

/-- What a script expands to marks what stands in the script. -/
theorem sited_expand (visits : ∀ c, Sited (visit c))
    (inScript : ∀ step ∈ steps, step ∈ p.scriptOf node) :
    Sited (steps.flatMap (Step.expand visit node)) := by
  intro d family o mem
  obtain ⟨step, mem', here⟩ := List.mem_flatMap.1 mem
  cases step with
  | mark m =>
    obtain ⟨rfl, rfl⟩ : node = .defn d ∧ m = .use o := by
      simpa [Step.expand, eq_comm] using here
    have used : ⟨o⟩ ∈ p.usesOf (.defn d) := List.mem_filterMap.2 ⟨_, inScript _ mem', rfl⟩
    simp at used
  | broken fault => simp [Step.expand] at here
  | child c => exact visits c here

/-- Every mark of a walk is of something that its site binds or holds. -/
theorem sited_eventsBy (p : Program) (skip : Option ExprId) (depth : Nat) (node : Node) :
    Sited (p.eventsBy skip depth node) := by
  induction depth generalizing node with
  | zero => simp [Sited, eventsBy]
  | succ depth ih =>
    intro d family o mem
    rw [eventsBy] at mem
    split at mem
    · cases mem
    · split at mem
      · simp at mem
      · next script read =>
        have inner : .mark (.defn d) (.use o) ∈
            script.flatMap (Step.expand (p.eventsBy skip depth) node) := by simpa using mem
        have entering : p.scriptOf node = script := by simp [scriptOf, read]
        exact sited_expand (p := p) (fun c => ih c) (by rw [entering]; simp) inner

/-- Meeting the occurrences of a node. -/
theorem quiet_uses (knows : Knows path env hid s) (only : ∀ step ∈ steps, IsUse step)
    (inScript : ∀ step ∈ steps, step ∈ p.scriptOf node) :
    Quiet p s (steps.flatMap (Step.expand visit node))
      (∀ use ∈ steps.filterMap Step.use?, p.Fits env path node use.occurrence)
      (Knows path env hid) := by
  induction steps generalizing s with
  | nil => exact (Quiet.nil knows).congr (by simp)
  | cons step rest ih =>
    obtain ⟨head, tail⟩ := List.forall_mem_cons.1 only
    obtain ⟨here, later⟩ := List.forall_mem_cons.1 inScript
    rw [List.flatMap_cons]
    cases step with
    | mark m =>
      cases m with
      | value =>
        have one : Quiet p s [.mark node .value] True (Knows path env hid) := by
          refine .single ?_ rfl rfl ?_
          · cases node <;> simp [finds]
          · cases node <;> exact fun _ => knows
        refine (one.append ?_ fun t knows => ih knows tail later).congr ?_
        · simp [Sited]
        · simp [Step.use?]
      | @use family o =>
        cases node with
        | defn d =>
          have used : ⟨o⟩ ∈ p.usesOf (.defn d) := List.mem_filterMap.2 ⟨_, here, rfl⟩
          simp at used
        | expr e =>
          have one : Quiet p s [.mark (.expr e) (.use o)] (p.Fits env path (.expr e) o)
              (Knows path env hid) := by
            refine ⟨?_, fun _ => knows.use o⟩
            rw [new_use_iff]
            simp [findings, finds, useFindings_eq_nil_iff knows]
          refine (one.append ?_ fun t knows => ih knows tail later).congr ?_
          · simp [Sited]
          · simp [Step.use?]
      | _ => cases head
    | _ => cases head

/-- Binding the variables of a node. -/
theorem quiet_binds (knows : Knows path env hid s) (only : ∀ step ∈ steps, IsBind step) :
    Quiet p s (steps.flatMap (Step.expand visit node))
      (∀ binder ∈ steps.filterMap Step.binder?, (p.bindingOf? binder.var).map (·.site) = some node)
      (Knows path (envWith (p.groupOf node) (steps.filterMap Step.binder?) env) hid) := by
  induction steps generalizing s env with
  | nil => exact (Quiet.nil knows).congr (by simp)
  | cons step rest ih =>
    obtain ⟨head, tail⟩ := List.forall_mem_cons.1 only
    rw [List.flatMap_cons]
    cases step with
    | broken fault =>
      have one : Quiet p s [.broken fault] True (Knows path env hid) :=
        .single (by simp [finds]) rfl rfl fun _ => knows
      refine (one.append ?_ fun t knows => ih knows tail).congr ?_
      · simp [Sited]
      · simp [Step.binder?]
    | mark m =>
      cases m with
      | @bind family v =>
        have one : Quiet p s [.mark node (.bind v)] ((p.bindingOf? v).map (·.site) = some node)
            (Knows path (envWith (p.groupOf node) [⟨v⟩] env) hid) := by
          constructor
          case iff =>
            rw [new_bind_iff]
            simp [findings, finds, bindFindings_eq_nil_iff]
          case after =>
            intro none
            have bound : (p.bindingOf? v).map (·.site) = some node := by
              simp only [findings, finds, List.append_nil, bindFindings_eq_nil_iff] at none
              exact none.2
            exact knows.bind node (hasVariable_of_site bound)
        refine ((one.append ?_ fun t knows => ih knows tail).congr ?_).mono ?_
        · simp [Sited]
        · simp [Step.binder?]
        · intro t knows
          rwa [envWith_envWith] at knows
      | _ => cases head
    | child c => cases head

/-- Going down to the children of a node is quiet if the visit of each live one is: a dead child is
reported, since there is a node above it. -/
theorem quiet_descents (stands : Node → Prop) (knows : Knows (node :: above) env hid s)
    (only : ∀ step ∈ steps, IsDescent step) (sited : ∀ c, Sited (visit c))
    (dead : ∀ c, p.hasNode c = false → visit c = [.missing c])
    (visits : ∀ c t, p.hasNode c = true → Knows (node :: above) env hid t →
      Quiet p t (visit c) (p.enclosing c = .ok (some node) ∧
        ∀ n ∈ (visit c).filterMap Event.entered?, stands n) (Knows (node :: above) env hid)) :
    Quiet p s (steps.flatMap (Step.expand visit node))
      (∀ c ∈ steps.filterMap Step.child?, p.enclosing c = .ok (some node) ∧
        ∀ n ∈ (visit c).filterMap Event.entered?, stands n)
      (Knows (node :: above) env hid) := by
  induction steps generalizing s with
  | nil => exact (Quiet.nil knows).congr (by simp)
  | cons step rest ih =>
    obtain ⟨head, tail⟩ := List.forall_mem_cons.1 only
    rw [List.flatMap_cons]
    cases step with
    | broken fault => cases head
    | mark m =>
      cases m with
      | branch tag =>
        have one : Quiet p s [.mark node (.branch tag)] True (Knows (node :: above) env hid) := by
          refine .single ?_ rfl rfl ?_
          · cases node <;> simp [finds]
          · cases node <;> exact fun _ => knows
        refine (one.append ?_ fun t knows => ih knows tail).congr ?_
        · simp [Sited]
        · simp [Step.child?]
      | _ => cases head
    | child c =>
      have one : Quiet p s (visit c) (p.enclosing c = .ok (some node) ∧
          ∀ n ∈ (visit c).filterMap Event.entered?, stands n) (Knows (node :: above) env hid) := by
        cases live : p.hasNode c with
        | true => exact visits c s live knows
        | false =>
          rw [dead c live]
          refine .single ?_ rfl rfl fun _ => knows
          simp [finds, knows.place, enclosing_of_dead live]
      refine (one.append (sited c) fun t knows => ih knows tail).congr ?_
      simp [Step.child?]

end Phases

/-! ## The walk over a tree -/

/-- The occurrence is held where it says, its variable lists it, and it is in scope with the
recursivity of its place. -/
def UseStands (p : Program) (site : Node) (o : OccId family) : Prop :=
  ∃ entry above, p.occEntry? o = some entry ∧ .expr entry.holder = site ∧ p.Lists entry.var o ∧
    Lineage p.enclosing site above ∧ p.seenAlong entry.var site above = some entry.recursivity

/-- What the checker asks of a node that it enters, told without the checker's state. -/
structure Stands (p : Program) (node : Node) : Prop where
  rules : p.nodeViolations node = []
  children : ∀ c ∈ p.childrenOf node, p.enclosing c = .ok (some node)
  binders : ∀ binder ∈ p.bindersOf node, (p.bindingOf? binder.var).map (·.site) = some node
  uses : ∀ use ∈ p.usesOf node, p.UseStands node use.occurrence

/-- By what is known below a lineage, an occurrence fits just if it stands right in the tables. -/
theorem fits_iff {o : OccId family} (lin : Lineage p.enclosing node above) :
    p.Fits (p.envInside node (p.envOf above)) (node :: above) node o ↔ p.UseStands node o := by
  unfold Fits UseStands
  refine exists_congr fun entry => ?_
  have seen : .expr entry.holder = node →
      ((p.envInside node (p.envOf above) family entry.var).map
        (recursivityIn (opened (node :: above))) = p.seenAlong entry.var node above) := by
    rintro rfl
    rw [seenAlong_eq lin.nodup]
    simp [envInside, isBoundary, envOf]
  constructor
  · rintro ⟨found, site, lists, looked⟩
    exact ⟨above, found, site, lists, lin, (seen site).symm.trans looked⟩
  · rintro ⟨rest, found, site, lists, lin', looked⟩
    rw [lin'.unique lin] at looked
    exact ⟨found, site, lists, (seen site).trans looked⟩

/-- Everything that happens in a node, given the visits of its children. -/
theorem quiet_inside {visit : Node → List Event} (stands : Node → Prop)
    (live : p.hasNode node = true) (knows : Knows above (p.envOf above) hid s)
    (sited : ∀ c, Sited (visit c)) (dead : ∀ c, p.hasNode c = false → visit c = [.missing c])
    (visits : ∀ c t inner, p.hasNode c = true →
      Knows (node :: above) (p.envOf (node :: above)) inner t →
      Quiet p t (visit c) (p.enclosing c = .ok (some node) ∧
        ∀ n ∈ (visit c).filterMap Event.entered?, stands n)
        (Knows (node :: above) (p.envOf (node :: above)) inner)) :
    Quiet p (p.enterState s node) ((p.scriptOf node).flatMap (Step.expand visit node))
      ((∀ use ∈ p.usesOf node,
          p.Fits (p.envInside node (p.envOf above)) (node :: above) node use.occurrence) ∧
        (∀ binder ∈ p.bindersOf node, (p.bindingOf? binder.var).map (·.site) = some node) ∧
        ∀ c ∈ p.childrenOf node, p.enclosing c = .ok (some node) ∧
          ∀ n ∈ (visit c).filterMap Event.entered?, stands n)
      (Knows (node :: above) (p.envOf (node :: above)) (p.hiddenInside s node)) := by
  obtain ⟨us, bs, cs, script, onlyUses, onlyBinds, onlyDescents, uses, binders, children⟩ :=
    exists_parts p node
  have part (steps : List Step) (sub : steps ⊆ p.scriptOf node) :
      Sited (steps.flatMap (Step.expand visit node)) := sited_expand sited fun step mem => sub mem
  have first : Quiet p _ (us.flatMap (Step.expand visit node)) _ _ :=
    quiet_uses (knows.enter live) onlyUses
      fun step mem => by rw [script]; exact List.mem_append_left _ mem
  rw [script, List.flatMap_append, List.flatMap_append, uses, binders, children]
  refine first.append (part us (by simp [script])) fun t knows => ?_
  refine (quiet_binds knows onlyBinds).append (part bs (by simp [script])) fun t knows => ?_
  rw [← binders, ← envOf_cons live] at knows
  exact quiet_descents stands knows onlyDescents sited dead fun c t here knows => visits c t _ here knows

/-- A node whose link is to the head of a path has the path as its lineage. -/
theorem lineage_of_link (link : p.enclosing node = .ok above.head?)
    (chain : ∀ m rest, above = m :: rest → Lineage p.enclosing m rest) :
    Lineage p.enclosing node above := by
  cases above with
  | nil => exact .top link
  | cons m rest => exact .up link (chain m rest rfl)

/-- A run that ended inside a node whose binders were new can leave the node. -/
theorem Knows.after_leave {events : List Event} (knows : Knows above (p.envOf above) hid s)
    (inner : Knows (node :: above) (p.envOf (node :: above)) (p.hiddenInside s node)
      (events.foldl p.advance s)) (live : p.hasNode node = true) (sited : Sited events)
    (distinct : (node :: above).Nodup)
    (new : ∀ {family : Family} {v : VarId family}, ⟨v⟩ ∈ p.bindersOf node → p.envAt v above = none) :
    Knows above (p.envOf above) hid (p.leaveState (events.foldl p.advance s) node) := by
  rw [envOf_cons live] at inner
  refine inner.leave distinct new (by rw [hiddenInside, knows.hidden]; rfl)
    (fun _ v => knows.scope v) ?_
  intro family v found
  exact (noted_foldl p s sited).bound.2 (.inr (knows.bound found))

/-- A quiet visit of a node leaves the state as it was around the node, but for what was met. -/
theorem Quiet.leave {events : List Event} {condition : Prop}
    (quiet : Quiet p s events condition
      (Knows (node :: above) (p.envOf (node :: above)) (p.hiddenInside s node)))
    (live : p.hasNode node = true) (knows : Knows above (p.envOf above) hid s)
    (sited : Sited events) (distinct : condition → (node :: above).Nodup)
    (binds : ∀ binder ∈ p.bindersOf node, binder ∈ events.filterMap Event.binder?) :
    Quiet p s (events ++ [.leave node]) condition (Knows above (p.envOf above) hid) := by
  have silent (t : Audit) : p.findings t [.leave node] = [] := by simp [findings, finds]
  have fresh (t : Audit) : New t [.leave node] := new_of_silent rfl rfl
  constructor
  case iff =>
    rw [findings_append, silent, List.append_nil, quiet.iff, @new_append p s events _ sited]
    simp only [fresh, and_true]
  case after =>
    rw [findings_append, silent, List.append_nil, List.foldl_append]
    intro none
    obtain ⟨new, holds⟩ := quiet.iff.1 none
    refine knows.after_leave (quiet.after none) live sited (distinct holds) ?_
    intro family v mem
    by_contra found
    exact new.unbound (binds _ mem) (knows.bound found)

/-- The plain walk goes through the script of a live node. -/
theorem eventsBy_of_live (live : p.hasNode node = true) (depth : Nat) :
    p.eventsBy none (depth + 1) node = ([.enter node] ++
      (p.scriptOf node).flatMap (Step.expand (p.eventsBy none depth) node)) ++ [.leave node] := by
  obtain ⟨script, read⟩ := Option.isSome_iff_exists.1 (script?_isSome p node ▸ live)
  simp [eventsBy, scriptOf, read]

/-- Up to its end, the visit of a live node has marks of what its sites bind and hold. -/
theorem sited_inside (live : p.hasNode node = true) (depth : Nat) : Sited ([.enter node] ++
    (p.scriptOf node).flatMap (Step.expand (p.eventsBy none depth) node)) := by
  intro d family o mem
  exact sited_eventsBy p none (depth + 1) node
    (eventsBy_of_live live depth ▸ List.mem_append_left _ mem)

/-- Of a dead node the walk notes that it is missing. -/
theorem eventsBy_of_dead (dead : p.hasNode node = false) {depth : Nat} (deep : depth ≠ 0) :
    p.eventsBy none depth node = [.missing node] := by
  obtain ⟨k, rfl⟩ := Nat.exists_eq_succ_of_ne_zero deep
  have read : p.script? node = none := by
    rw [← Option.not_isSome_iff_eq_none, script?_isSome, dead]
    exact Bool.false_ne_true
  simp [eventsBy, read]

/-- The visit of a node meets what the node binds. -/
theorem mem_binders_expand (visit : Node → List Event) {binder : Binder}
    (mem : binder ∈ p.bindersOf node) : binder ∈ ([Event.enter node] ++
      (p.scriptOf node).flatMap (Step.expand visit node)).filterMap Event.binder? := by
  have perm := filterMap_expand_perm readsMarks_binder visit node (p.scriptOf node)
  rw [List.filterMap_append]
  exact List.mem_append_right _ (perm.mem_iff.2 (List.mem_append_left _ mem))

/-- A node stands with what is below it if its own rules, uses and binders are right and each child
records it and stands with what is below. -/
theorem stands_below_iff {below : Node → List Node}
    (chain : ∀ m rest, above = m :: rest → Lineage p.enclosing m rest) :
    (p.enclosing node = .ok above.head? ∧
      ∀ n ∈ node :: (p.childrenOf node).flatMap below, Stands p n) ↔
    (p.enclosing node = .ok above.head? ∧ p.nodeViolations node = []) ∧
      (∀ use ∈ p.usesOf node,
        p.Fits (p.envInside node (p.envOf above)) (node :: above) node use.occurrence) ∧
      (∀ binder ∈ p.bindersOf node, (p.bindingOf? binder.var).map (·.site) = some node) ∧
      ∀ c ∈ p.childrenOf node, p.enclosing c = .ok (some node) ∧ ∀ n ∈ below c, Stands p n := by
  simp only [List.forall_mem_cons, List.mem_flatMap, forall_exists_index, and_imp]
  constructor
  · rintro ⟨link, stands, inside⟩
    have lin := lineage_of_link link chain
    refine ⟨⟨link, stands.rules⟩, fun use mem => (fits_iff lin).2 (stands.uses use mem),
      stands.binders, fun c mem => ⟨stands.children c mem, fun n within => ?_⟩⟩
    exact inside n c mem within
  · rintro ⟨⟨link, rules⟩, uses, binders, children⟩
    have lin := lineage_of_link link chain
    refine ⟨link, ⟨rules, fun c mem => (children c mem).1, binders, fun use mem => ?_⟩, ?_⟩
    · exact (fits_iff lin).1 (uses use mem)
    · exact fun n c mem within => (children c mem).2 n within

/-- The plain walk over a tree finds nothing just if each of its nodes stands and nothing is met
twice, and then the environment is as before. -/
theorem quiet_eventsBy {depth : Nat} (live : p.hasNode node = true)
    (chain : ∀ m rest, above = m :: rest → Lineage p.enclosing m rest)
    (deep : p.nodeSlots < above.length + depth) (knows : Knows above (p.envOf above) hid s) :
    Quiet p s (p.eventsBy none depth node)
      (p.enclosing node = .ok above.head? ∧
        ∀ n ∈ (p.eventsBy none depth node).filterMap Event.entered?, Stands p n)
      (Knows above (p.envOf above) hid) := by
  induction depth generalizing node above hid s with
  | zero =>
    cases above with
    | nil => simp at deep
    | cons m rest =>
      have lin := chain m rest rfl
      have := length_le_nodeSlots lin.nodup (hasNode_of_lineage lin)
      omega
  | succ depth ih =>
    have entering := eventsBy_of_live live depth
    have head : Quiet p s [.enter node]
        (p.enclosing node = .ok above.head? ∧ p.nodeViolations node = [])
        (fun t => t = p.enterState s node ∧ Lineage p.enclosing node above) := by
      have iff := enterFindings_eq_nil_iff live knows.place
      exact .single iff rfl rfl fun none => ⟨rfl, lineage_of_link (iff.1 none).1 chain⟩
    have body := head.append (by simp [Sited]) (by
      rintro _ ⟨rfl, lin⟩
      have short := length_le_nodeSlots lin.nodup (hasNode_of_lineage lin)
      rw [List.length_cons] at short
      refine quiet_inside (Stands p) live knows (sited_eventsBy p none depth)
        (fun c dead => eventsBy_of_dead dead (by omega)) ?_
      intro c t inner here knows
      refine ih here ?_ (by rw [List.length_cons]; omega) knows
      rintro m rest ⟨⟩
      exact lin)
    have whole := body.leave live knows (sited_inside live depth)
      (fun holds => (lineage_of_link holds.1.1 chain).nodup) fun _ => mem_binders_expand _
    rw [entered_eventsBy_succ, if_neg (by simp [live]), entering]
    exact whole.congr (stands_below_iff chain)

end Program

end ContinuationIR
