import ContinuationIR.Proofs.Growth
import ContinuationIR.Proofs.Verdicts

/-!
# What accepted checks establish

A check that accepts says something about the program. Here this is said once for each check of the
building calls, in the terms in which growth asks for it: children are pending, binders are unbound,
mentioned variables are live, and values, tags and parameters fit the kinds.
-/

namespace ContinuationIR
set_option autoImplicit false

/-! ## Tags of a case -/

namespace CaseMap

/-- Sorted branches without a repeated tag have strictly rising tags. -/
theorem firstDescent_eq_none {branches : List (Nat × ExprId)}
    (sorted : branches.Pairwise fun a b => a.1 ≤ b.1) (distinct : firstRepeat branches = none) :
    Program.firstDescent (branches.map Prod.fst) = none := by
  induction branches with
  | nil => rfl
  | cons first rest ih =>
    cases rest with
    | nil => rfl
    | cons second rest =>
      obtain ⟨least, sorted⟩ := List.pairwise_cons.1 sorted
      have le := least second List.mem_cons_self
      simp only [firstRepeat] at distinct
      split at distinct
      · cases distinct
      · next differ =>
        have lt : first.1 < second.1 := by omega
        simpa [Program.firstDescent, lt] using ih sorted distinct

theorem sorted_mergeSort (branches : List (Nat × ExprId)) :
    (branches.mergeSort fun a b => a.1 ≤ b.1).Pairwise fun a b => a.1 ≤ b.1 := by
  have sorted := @List.pairwise_mergeSort _ (fun a b : Nat × ExprId => decide (a.1 ≤ b.1))
    (fun a b c => by simpa using Nat.le_trans) (fun a b => by simpa using Nat.le_total a.1 b.1)
    branches
  simpa using sorted

/-- The accepted branches are the given ones, with strictly ascending tags. -/
theorem ofBranches?_eq_ok {branches : List (Nat × ExprId)} {map : CaseMap}
    (ok : ofBranches? branches = .ok map) :
    map.branches.Perm branches ∧ Program.firstDescent map.tags = none := by
  simp only [ofBranches?] at ok
  split at ok
  · cases ok
  · next distinct =>
    cases ok
    exact ⟨List.mergeSort_perm _ _, firstDescent_eq_none (sorted_mergeSort branches) distinct⟩

end CaseMap

namespace Program

variable {family : Family} {p : Program}

/-! ## Mentions, binders, children -/

/-- Mentions are accepted just if the variables that they mention are live. -/
theorem checkMentions_eq_ok {mentions : List (Mention family)} :
    p.checkMentions mentions = .ok () ↔ ∀ m ∈ mentions, p.hasVariable m.var = true := by
  rw [checkMentions, forM_eq_ok]
  refine forall_congr' fun m => forall_congr' fun _ => ?_
  unfold checkVariable
  split <;> simp_all

/-- The search remembers the variables it has seen, so accepted ones are also distinct from
those. -/
theorem checkBindersFrom_eq_ok {seen binders : List Binder} :
    p.checkBindersFrom seen binders = .ok () →
      Bindable p binders ∧ ∀ b ∈ binders, b ∉ seen := by
  induction binders generalizing seen with
  | nil => exact fun _ => ⟨⟨by simp, by simp, List.nodup_nil⟩, by simp⟩
  | cons b rest ih =>
    obtain ⟨var⟩ := b
    intro ok
    rw [checkBindersFrom] at ok
    cases read : p.varEntry? var with
    | none => simp [read] at ok
    | some entry =>
      simp only [read] at ok
      split at ok
      · cases ok
      · next unbound =>
        split at ok
        · cases ok
        · next unseen =>
          obtain ⟨bindable, fresh⟩ := ih ok
          have known : p.hasVariable var = true := Slots.contains_iff.2 ⟨entry, read⟩
          have free : p.bindingOf? var = none := by simpa [bindingOf?, read] using unbound
          refine ⟨⟨?_, ?_, ?_⟩, ?_⟩
          · intro family v mem
            rcases List.mem_cons.1 mem with same | mem
            · cases same
              exact known
            · exact bindable.live mem
          · intro family v mem
            rcases List.mem_cons.1 mem with same | mem
            · cases same
              exact free
            · exact bindable.unbound mem
          · exact List.nodup_cons.2 ⟨fun mem => fresh _ mem List.mem_cons_self, bindable.distinct⟩
          · intro b mem
            rcases List.mem_cons.1 mem with rfl | mem
            · simpa using unseen
            · exact fun old => fresh b mem (List.mem_cons_of_mem _ old)

/-- Variables that are accepted as binders are live, unbound and distinct. -/
theorem bindable_of_checkBinders {binders : List Binder} (ok : p.checkBinders binders = .ok ()) :
    Bindable p binders :=
  (checkBindersFrom_eq_ok ok).1

/-- As for binders: accepted children are also distinct from those seen before. -/
theorem checkChildrenFrom_eq_ok {seen children : List Node} :
    p.checkChildrenFrom seen children = .ok () →
      Pending p children ∧ ∀ c ∈ children, c ∉ seen := by
  induction children generalizing seen with
  | nil => exact fun _ => ⟨⟨by simp, List.nodup_nil⟩, by simp⟩
  | cons c rest ih =>
    intro ok
    rw [checkChildrenFrom] at ok
    cases link : p.enclosing c with
    | error fault => simp [link] at ok
    | ok enclosing =>
      simp only [link] at ok
      split at ok
      · cases ok
      · next notRoot =>
        split at ok
        · cases ok
        · next pending =>
          split at ok
          · cases ok
          · next unseen =>
            obtain ⟨others, fresh⟩ := ih ok
            have top : p.enclosing c = .ok none := by
              cases enclosing with
              | none => exact link
              | some _ => simp at pending
            refine ⟨⟨?_, ?_⟩, ?_⟩
            · intro c' mem
              rcases List.mem_cons.1 mem with rfl | mem
              · exact ⟨top, by simpa using notRoot⟩
              · exact others.top c' mem
            · exact List.nodup_cons.2 ⟨fun mem => fresh _ mem List.mem_cons_self, others.apart⟩
            · intro c' mem
              rcases List.mem_cons.1 mem with rfl | mem
              · simpa using unseen
              · exact fun old => fresh c' mem (List.mem_cons_of_mem _ old)

/-- Nodes that are accepted as children are heads of pending trees and distinct. -/
theorem pending_of_checkChildren {children : List Node}
    (ok : p.checkChildren children = .ok ()) : Pending p children :=
  (checkChildrenFrom_eq_ok ok).1

/-! ## Kinds -/

theorem kindOf_eq_ok {v : VarId .value} {kind : Kind} :
    p.kindOf v = .ok kind ↔ p.kindOf? v = some kind := by
  unfold kindOf kindOf?
  cases p.varEntry? v <;> simp

/-- A value is accepted just if the variable has a kind that admits it. -/
theorem checkValue_eq_ok {v : VarId .value} {value : Value (Mention .value)} :
    p.checkValue v value = .ok () ↔
      ∃ kind, p.kindOf? v = some kind ∧ p.admits kind value = .ok true := by
  simp only [checkValue, bind_eq_ok, kindOf_eq_ok]
  refine exists_congr fun kind => and_congr_right fun _ => ?_
  constructor
  · rintro ⟨admitted, found, ok⟩
    cases admitted with
    | true => exact found
    | false => cases ok
  · exact fun found => ⟨true, found, rfl⟩

/-- Parameters are accepted only with the kinds that are declared for them. -/
theorem checkKinds_eq_ok {pairs : List (VarId .value × Kind)} (ok : p.checkKinds pairs = .ok ()) :
    ∀ v kind, (v, kind) ∈ pairs → p.kindOf? v = some kind := by
  induction pairs with
  | nil => simp
  | cons pair rest ih =>
    obtain ⟨v, kind⟩ := pair
    simp only [checkKinds, bind_eq_ok, kindOf_eq_ok] at ok
    obtain ⟨found, read, ok⟩ := ok
    split at ok
    · next same =>
      intro w expected mem
      rcases List.mem_cons.1 mem with eq | mem
      · cases eq
        exact same ▸ read
      · exact ih ok w expected mem
    · cases ok

/-- Parameters that fit the declared kinds fit the type. -/
theorem fitsType_of_checkParameters {definition : Definition}
    (ok : p.checkParameters definition.parameters definition.type.parameters = .ok ()) :
    p.fitsType definition = true := by
  unfold checkParameters at ok
  split at ok
  · next length =>
    refine fitsType_iff.2 ⟨length, fun v kind mem found read => ?_⟩
    rw [checkKinds_eq_ok ok v kind mem] at read
    exact (Option.some.inj read).symm
  · cases ok

/-- A type that is read off the parameters fits them. -/
theorem fitsType_of_mapM_kindOf {definition : Definition}
    (ok : definition.parameters.mapM p.kindOf = .ok definition.type.parameters) :
    p.fitsType definition = true := by
  have each := mapM_eq_ok ok
  refine fitsType_iff.2 ⟨each.length_eq, fun v kind mem found read => ?_⟩
  have known : p.kindOf? v = some kind := kindOf_eq_ok.1 (List.forall₂_iff_zip.1 each |>.2 mem)
  rw [known] at read
  exact (Option.some.inj read).symm

/-! ## Members of a group -/

/-- Functions alone have value names and continuations alone have continuation names. -/
theorem kind_of_name? {header : Header} {name : VarId family}
    (named : header.name? family = some name) : header.kind = family.memberKind := by
  cases family <;> cases header <;> simp_all [Header.name?, Header.kind, Family.memberKind]

/-- The names that are collected are those of the members, in their order. -/
theorem memberNames_eq_ok {members : List DefId} {names : List (VarId family)}
    (ok : p.memberNames family members = .ok names) :
    List.Forall₂ (fun d name => p.nameOf family d = some name) members names := by
  refine (mapM_eq_ok ok).imp fun d name found => ?_
  unfold nameOf definitionOf?
  cases read : p.definitions.get? d with
  | none => simp [read] at found
  | some entry =>
    simp only [read] at found
    split at found
    · next name' named =>
      cases found
      simpa using named
    · cases found

/-- An accepted group has members, each with a name of the family, and the names can be bound. -/
theorem groupNames_eq_ok {members : List DefId} {names : List (VarId family)}
    (ok : p.groupNames family members = .ok names) :
    members ≠ [] ∧ List.Forall₂ (fun d name => p.nameOf family d = some name) members names ∧
      Bindable p (names.map fun name => ⟨name⟩) := by
  unfold groupNames at ok
  split at ok
  · cases ok
  · next inhabited =>
    simp only [bind_eq_ok, pure_eq_ok] at ok
    obtain ⟨names', found, ⟨⟩, binders, rfl⟩ := ok
    refine ⟨by simpa using inhabited, memberNames_eq_ok found, bindable_of_checkBinders binders⟩

/-- The names that were found are what the group binds. -/
theorem shapeBinders_group {members : List DefId} {names : List (VarId family)} {body : ExprId}
    (named : List.Forall₂ (fun d name => p.nameOf family d = some name) members names) :
    p.shapeBinders (.group family members body) = names.map fun name => ⟨name⟩ := by
  rw [shapeBinders]
  induction named with
  | nil => rfl
  | cons name _ ih => simp [name, ih]

/-- A group of members of its own kind obeys the rule for groups. -/
theorem groupViolations_eq_nil {e : ExprId} {members : List DefId} {names : List (VarId family)}
    (named : List.Forall₂ (fun d name => p.nameOf family d = some name) members names) :
    p.groupViolations e family members = [] := by
  rw [groupViolations_eq]
  induction named with
  | nil => rfl
  | cons name _ ih =>
    obtain ⟨definition, read, named⟩ := Option.bind_eq_some_iff.1 name
    simp [read, kind_of_name? named, ih]

end Program

end ContinuationIR
