import ContinuationIR.Proofs.Editing

/-!
# How calls end

A call validates first: a sequence of checks accepts, is refused or breaks down. Then it writes. A
call keeps a program if its validation never breaks down and its writes, made after the validation
has accepted, run to a consistent program. A change ends with what it is meant to do done, whatever
else is known of the program.
-/

namespace ContinuationIR
set_option autoImplicit false

open Program

/-! ## Sequences of checks -/

section Except

variable {ε δ α β : Type}

theorem bind_eq_ok {x : Except ε α} {f : α → Except ε β} {b : β} :
    (x >>= f) = .ok b ↔ ∃ a, x = .ok a ∧ f a = .ok b := by
  cases x <;> simp [bind, Except.bind]

theorem pure_eq_ok {a b : α} : (pure a : Except ε α) = .ok b ↔ a = b := by
  simp [pure, Except.pure]

theorem forM_eq_ok {f : α → Except ε Unit} {l : List α} :
    l.forM f = .ok () ↔ ∀ a ∈ l, f a = .ok () := by
  induction l with
  | nil => simp [pure, Except.pure]
  | cons a l ih =>
    show (f a >>= fun _ => l.forM f) = .ok () ↔ _
    rw [bind_eq_ok, List.forall_mem_cons, ← ih]
    exact ⟨fun ⟨_, first, rest⟩ => ⟨first, rest⟩, fun ⟨first, rest⟩ => ⟨(), first, rest⟩⟩

/-- A traversal that succeeds has one result for each element, in order. -/
theorem mapM_eq_ok {f : α → Except ε β} {l : List α} {results : List β}
    (ok : l.mapM f = .ok results) : List.Forall₂ (fun a b => f a = .ok b) l results := by
  induction l generalizing results with
  | nil =>
    rw [List.mapM_nil, pure_eq_ok] at ok
    exact ok ▸ .nil
  | cons a l ih =>
    simp only [List.mapM_cons, bind_eq_ok, pure_eq_ok] at ok
    obtain ⟨b, first, bs, rest, rfl⟩ := ok
    exact .cons first (ih rest)

/-- A traversal succeeds if it does at each element. -/
theorem exists_mapM_eq_ok {f : α → Except ε β} {l : List α} (each : ∀ a ∈ l, ∃ b, f a = .ok b) :
    ∃ results, l.mapM f = .ok results := by
  induction l with
  | nil => exact ⟨[], rfl⟩
  | cons a l ih =>
    obtain ⟨b, first⟩ := each a List.mem_cons_self
    obtain ⟨bs, rest⟩ := ih fun a mem => each a (List.mem_cons_of_mem _ mem)
    refine ⟨b :: bs, ?_⟩
    simp only [List.mapM_cons, bind_eq_ok, pure_eq_ok]
    exact ⟨b, first, bs, rest, rfl⟩

theorem exists_of_mapM {f : α → Except ε β} {l : List α} {results : List β}
    (ok : l.mapM f = .ok results) {b : β} (mem : b ∈ results) : ∃ a ∈ l, f a = .ok b := by
  have each := mapM_eq_ok ok
  clear ok
  induction each with
  | nil => simp at mem
  | cons first _ ih =>
    rcases List.mem_cons.1 mem with rfl | mem
    · exact ⟨_, List.mem_cons_self, first⟩
    · obtain ⟨a, inside, found⟩ := ih mem
      exact ⟨a, List.mem_cons_of_mem _ inside, found⟩

theorem bind_eq_error {x : Except ε α} {f : α → Except ε β} {e : ε} :
    (x >>= f) = .error e ↔ x = .error e ∨ ∃ a, x = .ok a ∧ f a = .error e := by
  cases x <;> simp [bind, Except.bind]

/-- A traversal that fails has succeeded up to the element that it fails at. -/
theorem mapM_eq_error {f : α → Except ε β} {l : List α} {e : ε} (failed : l.mapM f = .error e) :
    ∃ front a back, l = front ++ a :: back ∧ (∀ b ∈ front, ∃ c, f b = .ok c) ∧ f a = .error e := by
  induction l with
  | nil => cases failed
  | cons a l ih =>
    rw [List.mapM_cons, bind_eq_error] at failed
    rcases failed with here | ⟨b, first, failed⟩
    · exact ⟨[], a, l, rfl, by simp, here⟩
    · rw [bind_eq_error] at failed
      rcases failed with later | ⟨_, _, impossible⟩
      · obtain ⟨front, c, back, rfl, passed, found⟩ := ih later
        refine ⟨a :: front, c, back, rfl, List.forall_mem_cons.2 ⟨⟨b, first⟩, passed⟩, found⟩
      · cases impossible

theorem require_eq_ok {condition : Bool} {reason : ε} :
    require condition reason = .ok () ↔ condition = true := by
  cases condition <;> simp [require]

theorem orFault_eq_ok {x : Except Fault α} {a : α} :
    (orFault x : Except (Failure ε) α) = .ok a ↔ x = .ok a := by
  cases x <;> simp [orFault]

theorem orRefuse_eq_ok {f : ε → δ} {x : Except ε α} {a : α} :
    orRefuse f x = .ok a ↔ x = .ok a := by
  cases x <;> simp [orRefuse]

theorem withReason_eq_ok {f : ε → δ} {x : Except (Failure ε) α} {a : α} :
    withReason f x = .ok a ↔ x = .ok a := by
  cases x <;> simp [withReason]

end Except

/-! ## Validations that do not break down -/

/-- The validation accepts or is refused, but does not break down. -/
def Decides {ε α : Type} (validation : Except (Failure ε) α) : Prop :=
  ∀ fault, validation ≠ .error (.faulted fault)

section Decides

variable {ε δ α β : Type}

theorem decides_pure (a : α) : Decides (pure a : Except (Failure ε) α) := by
  intro fault
  simp [pure, Except.pure]

theorem decides_refused (reason : ε) : Decides (.error (.refused reason) : Except (Failure ε) α) := by
  intro fault
  simp

theorem decides_require (condition : Bool) (reason : ε) : Decides (require condition reason) := by
  intro fault
  cases condition <;> simp [require]

theorem decides_orFault {x : Except Fault α} {a : α} (ok : x = .ok a) :
    Decides (orFault x : Except (Failure ε) α) := by
  intro fault
  simp [ok, orFault]

theorem decides_orRefuse (f : ε → δ) (x : Except ε α) : Decides (orRefuse f x) := by
  intro fault
  cases x <;> simp [orRefuse]

theorem decides_withReason (f : ε → δ) {x : Except (Failure ε) α} (decides : Decides x) :
    Decides (withReason f x) := by
  intro fault
  cases run : x with
  | ok a => simp [withReason]
  | error failure =>
    cases failure with
    | refused reason => simp [withReason, Failure.mapReason]
    | faulted fault => exact absurd run (decides fault)

/-- Checks in a row decide when each of them does. -/
theorem Decides.bind {x : Except (Failure ε) α} {f : α → Except (Failure ε) β}
    (first : Decides x) (second : ∀ a, x = .ok a → Decides (f a)) : Decides (x >>= f) := by
  intro fault
  cases run : x with
  | ok a => exact second a run fault
  | error failure =>
    cases failure with
    | refused reason => simp [Bind.bind, Except.bind]
    | faulted fault => exact absurd run (first fault)

theorem decides_forM {l : List α} {f : α → Except (Failure ε) Unit}
    (each : ∀ a ∈ l, Decides (f a)) : Decides (l.forM f) := by
  induction l with
  | nil => exact decides_pure ()
  | cons a l ih =>
    exact (each a List.mem_cons_self).bind fun _ _ =>
      ih fun b mem => each b (List.mem_cons_of_mem _ mem)

theorem decides_mapM {l : List α} {f : α → Except (Failure ε) β}
    (each : ∀ a ∈ l, Decides (f a)) : Decides (l.mapM f) := by
  induction l with
  | nil => exact decides_pure []
  | cons a l ih =>
    rw [List.mapM_cons]
    refine (each a List.mem_cons_self).bind fun _ _ => ?_
    exact (ih fun b mem => each b (List.mem_cons_of_mem _ mem)).bind fun _ _ => decides_pure _

end Decides

/-- The validation accepts or is refused for a reason of the kind. -/
def RefusedOnly {ε α : Type} (kind : ε → Prop) (validation : Except (Failure ε) α) : Prop :=
  ∀ failure, validation = .error failure → ∃ reason, failure = .refused reason ∧ kind reason

section RefusedOnly

variable {ε α β : Type} {kind : ε → Prop}

theorem RefusedOnly.decides {validation : Except (Failure ε) α}
    (only : RefusedOnly kind validation) : Decides validation := by
  intro fault failed
  obtain ⟨_, eq, -⟩ := only _ failed
  cases eq

theorem refusedOnly_of_ok {validation : Except (Failure ε) α} {a : α} (ok : validation = .ok a) :
    RefusedOnly kind validation := by
  intro failure failed
  rw [ok] at failed
  cases failed

theorem refusedOnly_refused {reason : ε} (holds : kind reason) :
    RefusedOnly kind (.error (.refused reason) : Except (Failure ε) α) := by
  rintro _ ⟨⟩
  exact ⟨reason, rfl, holds⟩

theorem refusedOnly_require (condition : Bool) {reason : ε} (holds : kind reason) :
    RefusedOnly kind (require condition reason) := by
  cases condition with
  | true => exact refusedOnly_of_ok rfl
  | false => exact refusedOnly_refused holds

/-- Checks in a row refuse only for reasons that one of them has. -/
theorem RefusedOnly.bind {x : Except (Failure ε) α} {f : α → Except (Failure ε) β}
    (first : RefusedOnly kind x) (second : ∀ a, x = .ok a → RefusedOnly kind (f a)) :
    RefusedOnly kind (x >>= f) := by
  intro failure failed
  rcases bind_eq_error.1 failed with here | ⟨a, ok, later⟩
  · exact first _ here
  · exact second a ok _ later

theorem refusedOnly_forM {l : List α} {f : α → Except (Failure ε) Unit}
    (each : ∀ a ∈ l, RefusedOnly kind (f a)) : RefusedOnly kind (l.forM f) := by
  induction l with
  | nil => exact refusedOnly_of_ok rfl
  | cons a l ih =>
    exact (each a List.mem_cons_self).bind fun _ _ =>
      ih fun b mem => each b (List.mem_cons_of_mem _ mem)

end RefusedOnly

/-- The place of the change is pending, or something still uses what would go. -/
def ChangeError.IsBlocked : ChangeError → Prop
  | .detached _ | .binderStillUsed .. => True
  | _ => False

/-! ## Calls that keep programs consistent -/

/-- How a call ends on a consistent program: it succeeds and the program is consistent after it, or
it is refused and the program is as it was. -/
inductive Outcome.Keeps {ε α : Type} (p : Program) : Outcome ε α → Prop where
  | done {a : α} {q : Program} {log : List LogEntry} (consistent : Consistent q)
      (verifying : q.verifying = p.verifying) : Keeps p ⟨.ok a, q, log⟩
  | refused {reason : ε} {log : List LogEntry} : Keeps p ⟨.error (.refused reason), p, log⟩

namespace Outcome

variable {ε δ α β : Type} {p : Program}

/-- A call keeps the program when its validation decides and each accepted write keeps it. -/
theorem keeps_commit {validation : Except (Failure ε) β} {write : β → Outcome ε α}
    (decides : Decides validation) (accepted : ∀ b, validation = .ok b → Keeps p (write b)) :
    Keeps p (commit p validation write) := by
  cases run : validation with
  | ok b => exact accepted b run
  | error failure =>
    cases failure with
    | refused reason => exact .refused
    | faulted fault => exact absurd run (decides fault)

theorem Keeps.map {reason : ε → δ} {answer : α → β} {outcome : Outcome ε α}
    (keeps : Keeps p outcome) : Keeps p (outcome.map reason answer) := by
  cases keeps with
  | done consistent verifying => exact .done consistent verifying
  | refused => exact .refused

end Outcome

/-! ## Changes -/

/-- How a change of a program ends: it is made, or it is refused and the program is as it was. If the
program is verifying, it may also be made and not stand up to the check after it. -/
inductive Outcome.Ends {ε α : Type} (p : Program) (made : Program → Prop) : Outcome ε α → Prop where
  | done {a : α} {q : Program} {log : List LogEntry} (holds : made q) : Ends p made ⟨.ok a, q, log⟩
  | refused {reason : ε} {log : List LogEntry} : Ends p made ⟨.error (.refused reason), p, log⟩
  | halted {fault : Fault} {q : Program} {log : List LogEntry} (checking : p.verifying = true) :
      Ends p made ⟨.error (.faulted fault), q, log⟩

namespace Outcome

variable {ε δ α β : Type} {p : Program} {made : Program → Prop}

/-- A call ends as its accepted writes do, when its validation decides. -/
theorem ends_commit {validation : Except (Failure ε) β} {write : β → Outcome ε α}
    (decides : Decides validation) (accepted : ∀ b, validation = .ok b → Ends p made (write b)) :
    Ends p made (commit p validation write) := by
  cases run : validation with
  | ok b => exact accepted b run
  | error failure =>
    cases failure with
    | refused reason => exact .refused
    | faulted fault => exact absurd run (decides fault)

theorem ends_after {edit : Edit β} {post : β → Program → Prop} {log : List LogEntry}
    {next : β → Program → Outcome ε α} (run : edit.Runs p post)
    (rest : ∀ b q, post b q → Ends p made (next b q)) : Ends p made (after p log edit next) := by
  obtain ⟨b, q, eq, holds⟩ := run
  simpa only [after, eq] using rest b q holds

/-- A change that is made stands, unless the program is verifying and the check fails. -/
theorem ends_verified {operation : Operation} {q : Program} {log : List LogEntry} {a : α}
    (holds : made q) (verifying : q.verifying = p.verifying) :
    Ends p made (verified operation q log a) := by
  unfold verified
  split
  · next checking =>
    split
    · exact .halted (verifying ▸ checking)
    · exact .done holds
    · exact .halted (verifying ▸ checking)
  · exact .done holds

theorem Ends.map {reason : ε → δ} {answer : α → β} {outcome : Outcome ε α}
    (ends : Ends p made outcome) : Ends p made (outcome.map reason answer) := by
  cases ends with
  | done holds => exact .done holds
  | refused => exact .refused
  | halted checking => exact .halted checking

theorem Ends.answer {b : β} {outcome : Outcome ε α} (ends : Ends p made outcome) :
    Ends p made (outcome.answer b) := by
  cases ends with
  | done holds => exact .done holds
  | refused => exact .refused
  | halted checking => exact .halted checking

theorem Ends.mono {made' : Program → Prop} {outcome : Outcome ε α} (ends : Ends p made outcome)
    (weaker : ∀ q, made q → made' q) : Ends p made' outcome := by
  cases ends with
  | done holds => exact .done (weaker _ holds)
  | refused => exact .refused
  | halted checking => exact .halted checking

theorem Ends.holds {outcome : Outcome ε α} (ends : Ends p made outcome) {a : α}
    (ok : outcome.result = .ok a) : made outcome.program := by
  cases ends with
  | done holds => exact holds
  | refused => cases ok
  | halted => cases ok

/-- What a change makes and the program has without it holds after the call in any case, unless it is
halted. -/
theorem Ends.program {outcome : Outcome ε α} (ends : Ends p made outcome)
    (quiet : p.verifying = false) (same : made p) : made outcome.program := by
  cases ends with
  | done holds => exact holds
  | refused => exact same
  | halted checking =>
    rw [quiet] at checking
    cases checking

/-- A call that fails leaves the program as it was. -/
theorem Ends.program_eq {outcome : Outcome ε α} (ends : Ends p made outcome)
    (quiet : p.verifying = false) {failure : Failure ε} (failed : outcome.result = .error failure) :
    outcome.program = p := by
  cases ends with
  | done => cases failed
  | refused => rfl
  | halted checking =>
    rw [quiet] at checking
    cases checking

/-- A change that keeps programs consistent does so unless it is halted. -/
theorem Ends.keeps {outcome : Outcome ε α} (ends : Ends p made outcome)
    (quiet : p.verifying = false)
    (consistent : ∀ q, made q → Consistent q ∧ q.verifying = p.verifying) : Keeps p outcome := by
  cases ends with
  | done holds => exact .done (consistent _ holds).1 (consistent _ holds).2
  | refused => exact .refused
  | halted checking =>
    rw [quiet] at checking
    cases checking

end Outcome

end ContinuationIR
