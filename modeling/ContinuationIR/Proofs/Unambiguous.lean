import ContinuationIR.Proofs.Tokens

/-!
# Program text is unambiguous

The word at the start of a line says what stands there, and what follows can be read off piece by
piece. Where a list of definitions or branches ends is told by the indentation alone: the line that
closes it starts further left. So two terms whose names are words have the same lines, with whatever
follows them, only if they are the same.
-/

namespace ContinuationIR
set_option autoImplicit false

open Text

/-! ## Lines -/

/-- The blanks at the start of a line. -/
def indent (level : Nat) : List Char := (String.join (List.replicate level "    ")).toList

theorem lineAt_toList (level : Nat) (text : String) :
    (lineAt level text).toList = indent level ++ (text.toList ++ ['\n']) := by
  simp [lineAt, indent]

theorem indent_succ (level : Nat) : indent (level + 1) = indent level ++ "    ".toList := by
  simp [indent, String.toList_join, List.replicate_succ']

/-- The text starts with a line that is not further right than the given level. -/
def Dedented (level : Nat) (text : List Char) : Prop :=
  ∃ line, text = indent level ++ line ∧ stops (· = ' ') line = true

theorem Dedented.ne_indent {level : Nat} {text rest : List Char} (dedented : Dedented level text) :
    text ≠ indent (level + 1) ++ rest := by
  obtain ⟨line, rfl, visible⟩ := dedented
  rw [indent_succ, List.append_assoc]
  intro eq
  rw [List.append_cancel_left eq] at visible
  cases visible

/-! ## The words that open lines -/

/-- The word that opens a term. -/
def Term.word : Term → String
  | .letIn .. => "let"
  | .group family _ _ => family.groupWord
  | .primitive operator _ _ => operator.name
  | .apply .. => "apply"
  | .jump .. => "continue"
  | .caseOf .. => "case"
  | .unreachable => "unreachable"

theorem Term.word_word (t : Term) : Word t.word := by
  cases t with
  | group family => cases family <;> simp only [word, Family.groupWord] <;> decide
  | primitive operator => cases operator <;> simp only [word, Primitive.name] <;> decide
  | _ => simp only [word]; decide

theorem Term.exists_layout (level : Nat) (t : Term) :
    ∃ tail, (t.layout bare level).toList = indent level ++ (t.word.toList ++ tail) ∧
      ∀ rest, stops isWord (tail ++ rest) = true := by
  cases t <;> simp only [layout, bare, lineAt_toList, String.toList_append, List.append_assoc] <;>
    exact ⟨_, rfl, fun _ => rfl⟩

/-- Terms with one text open with one word. -/
theorem Term.word_eq {level : Nat} {t t' : Term} {r s : List Char}
    (eq : (t.layout bare level).toList ++ r = (t'.layout bare level).toList ++ s) :
    t.word = t'.word := by
  obtain ⟨tail, text, stop⟩ := t.exists_layout level
  obtain ⟨tail', text', stop'⟩ := t'.exists_layout level
  rw [text, text'] at eq
  simp only [List.append_assoc, List.append_cancel_left_eq] at eq
  exact (delimits_word t.word_word t'.word_word (stop r) (stop' s) eq).1

/-- The form of the terms that a word opens, as the number of their constructor. -/
def formOf (word : String) : Nat :=
  if word = "let" then 0
  else if word = "letfun" ∨ word = "letcont" then 1
  else if word = "apply" then 3
  else if word = "continue" then 4
  else if word = "case" then 5
  else if word = "unreachable" then 6
  else 2

theorem Term.formOf_word (t : Term) : formOf t.word = t.ctorIdx := by
  cases t with
  | group family => cases family <;> rfl
  | primitive operator => cases operator <;> rfl
  | _ => rfl

/-- The first word tells the form of the term. -/
theorem Term.ctorIdx_eq {level : Nat} {t t' : Term} {r s : List Char}
    (eq : (t.layout bare level).toList ++ r = (t'.layout bare level).toList ++ s) :
    t.ctorIdx = t'.ctorIdx := by
  rw [← formOf_word, word_eq eq, formOf_word]

theorem Family.groupWord_injective {one two : Family} (eq : one.groupWord = two.groupWord) :
    one = two := by
  cases one <;> cases two
  · rfl
  · exact absurd eq (by decide)
  · exact absurd eq (by decide)
  · rfl

theorem Primitive.name_injective {one two : Primitive} (eq : one.name = two.name) : one = two := by
  have found := ofName?_name one
  rw [eq, ofName?_name] at found
  exact (Option.some.inj found).symm

theorem Clause.exists_layout (level : Nat) (c : Clause) :
    ∃ tail, (c.layout bare level).toList = indent level ++ tail := by
  cases c
  simp only [layout, lineAt_toList, String.toList_append, List.append_assoc]
  exact ⟨_, rfl⟩

/-- The word in front of a branch. -/
theorem delimits_tag : Delimits (fun tag : Option Nat => (tag.map toString).getD "_")
    (fun _ => True) (stops isWord) := by
  intro one two r s _ _ stop stop' eq
  have word (tag : Option Nat) : Word ((tag.map toString).getD "_") := by
    cases tag with
    | none => decide
    | some tag => exact word_toString tag
  obtain ⟨same, rest⟩ := delimits_word (word one) (word two) stop stop' eq
  refine ⟨?_, rest⟩
  have blank (n : Nat) : toString n ≠ "_" := by
    intro eq
    have digit := isDigit_of_mem_toString (n := n) (c := '_') (by rw [eq]; decide)
    cases digit
  cases one with
  | none =>
    cases two with
    | none => rfl
    | some m => exact absurd same.symm (blank m)
  | some n =>
    cases two with
    | none => exact absurd same (blank n)
    | some m => exact congrArg some (toString_injective same)

/-! ## Terms -/

/-- The lines of the term tell it from all others, whatever follows. -/
def Term.Told (t : Term) : Prop :=
  ∀ {t' : Term} {level : Nat} {r s : List Char},
    (∀ name ∈ t.names, Word name) → (∀ name ∈ t'.names, Word name) →
    (t.layout bare level).toList ++ r = (t'.layout bare level).toList ++ s → t = t' ∧ r = s

/-- The lines of the clause tell it from all others, whatever follows. -/
def Clause.Told (c : Clause) : Prop :=
  ∀ {c' : Clause} {level : Nat} {r s : List Char},
    (∀ name ∈ c.names, Word name) → (∀ name ∈ c'.names, Word name) →
    (c.layout bare level).toList ++ r = (c'.layout bare level).toList ++ s → c = c' ∧ r = s

/-- The lines of the definitions tell them from all others before a line further left. -/
def Members.Told (m : Members) : Prop :=
  ∀ {m' : Members} {level : Nat} {r s : List Char},
    (∀ name ∈ m.names, Word name) → (∀ name ∈ m'.names, Word name) →
    Dedented level r → Dedented level s →
    (m.layout bare (level + 1)).toList ++ r = (m'.layout bare (level + 1)).toList ++ s →
    m = m' ∧ r = s

/-- The lines of the branches tell them from all others before a line further left. -/
def Branches.Told (b : Branches) : Prop :=
  ∀ {b' : Branches} {level : Nat} {r s : List Char},
    (∀ name ∈ b.names, Word name) → (∀ name ∈ b'.names, Word name) →
    Dedented level r → Dedented level s →
    (b.layout bare (level + 1)).toList ++ r = (b'.layout bare (level + 1)).toList ++ s →
    b = b' ∧ r = s

section Told

variable {body : Term} {arguments : List (NamedUse .value)} {next : NamedUse .continuation}

theorem Term.told_letIn {var : NamedVar .value} {value : Value (NamedUse .value)} (below : body.Told) :
    (letIn var value body).Told := by
  intro t' level r s word word' eq
  have forms := ctorIdx_eq eq
  cases t' with
  | letIn var' value' body' =>
    simp only [names, List.forall_mem_append, List.forall_mem_cons] at word word'
    simp only [layout, bare, lineAt_toList, String.toList_append, List.append_assoc,
      List.append_cancel_left_eq] at eq
    obtain ⟨rfl, right⟩ := delimits_namedVar word.1.1 word'.1.1 rfl rfl eq
    obtain ⟨rfl, last⟩ := Value.delimits_layout word.1.2 word'.1.2 rfl rfl
      (List.append_cancel_left right)
    simp only [List.append_cancel_left_eq] at last
    obtain ⟨rfl, rest⟩ := below word.2 word'.2 last
    exact ⟨rfl, rest⟩
  | _ => cases forms

theorem Term.told_group {family : Family} {members : Members} (inside : members.Told)
    (below : body.Told) : (group family members body).Told := by
  intro t' level r s word word' eq
  have forms := ctorIdx_eq eq
  cases t' with
  | group family' members' body' =>
    obtain rfl := Family.groupWord_injective (word_eq eq)
    simp only [names, List.forall_mem_append] at word word'
    simp only [layout, bare, lineAt_toList, String.toList_append, List.append_assoc,
      List.append_cancel_left_eq] at eq
    obtain ⟨rfl, last⟩ := inside word.1 word'.1 ⟨_, rfl, rfl⟩ ⟨_, rfl, rfl⟩ eq
    simp only [List.append_cancel_left_eq] at last
    obtain ⟨rfl, rest⟩ := below word.2 word'.2 last
    exact ⟨rfl, rest⟩
  | _ => cases forms

theorem Term.told_primitive {operator : Primitive} : (primitive operator arguments next).Told := by
  intro t' level r s word word' eq
  have forms := ctorIdx_eq eq
  cases t' with
  | primitive operator' arguments' next' =>
    obtain rfl := Primitive.name_injective (word_eq eq)
    simp only [names, List.forall_mem_cons] at word word'
    simp only [layout, bare, lineAt_toList, String.toList_append, List.append_assoc,
      List.append_cancel_left_eq] at eq
    obtain ⟨rfl, last⟩ := namedUses_inj word.2 word'.2 eq
    obtain ⟨rfl, rest⟩ := delimits_namedUse word.1 word'.1 rfl rfl (List.append_cancel_left last)
    exact ⟨rfl, List.append_cancel_left rest⟩
  | _ => cases forms

theorem Term.told_apply {function : NamedUse .value} : (apply function arguments next).Told := by
  intro t' level r s word word' eq
  have forms := ctorIdx_eq eq
  cases t' with
  | apply function' arguments' next' =>
    simp only [names, List.forall_mem_cons] at word word'
    simp only [layout, bare, lineAt_toList, String.toList_append, List.append_assoc,
      List.append_cancel_left_eq] at eq
    obtain ⟨rfl, list⟩ := delimits_namedUse word.1 word'.1 rfl rfl eq
    obtain ⟨rfl, last⟩ := namedUses_inj word.2.2 word'.2.2 (List.append_cancel_left list)
    obtain ⟨rfl, rest⟩ := delimits_namedUse word.2.1 word'.2.1 rfl rfl (List.append_cancel_left last)
    exact ⟨rfl, List.append_cancel_left rest⟩
  | _ => cases forms

theorem Term.told_jump : (jump next arguments).Told := by
  intro t' level r s word word' eq
  have forms := ctorIdx_eq eq
  cases t' with
  | jump next' arguments' =>
    simp only [names, List.forall_mem_cons] at word word'
    simp only [layout, bare, lineAt_toList, String.toList_append, List.append_assoc,
      List.append_cancel_left_eq] at eq
    obtain ⟨rfl, list⟩ := delimits_namedUse word.1 word'.1 rfl rfl eq
    obtain ⟨rfl, rest⟩ := namedUses_inj word.2 word'.2 (List.append_cancel_left list)
    exact ⟨rfl, List.append_cancel_left rest⟩
  | _ => cases forms

theorem Term.told_caseOf {scrutinee : NamedUse .value} {branches : Branches}
    (inside : branches.Told) : (caseOf scrutinee branches).Told := by
  intro t' level r s word word' eq
  have forms := ctorIdx_eq eq
  cases t' with
  | caseOf scrutinee' branches' =>
    simp only [names, List.forall_mem_cons] at word word'
    simp only [layout, bare, lineAt_toList, String.toList_append, List.append_assoc,
      List.append_cancel_left_eq] at eq
    obtain ⟨rfl, lines⟩ := delimits_namedUse word.1 word'.1 rfl rfl eq
    simp only [List.append_cancel_left_eq] at lines
    obtain ⟨rfl, last⟩ := inside word.2 word'.2 ⟨_, rfl, rfl⟩ ⟨_, rfl, rfl⟩ lines
    simp only [List.append_cancel_left_eq] at last
    exact ⟨rfl, last⟩
  | _ => cases forms

theorem Term.told_unreachable : Term.unreachable.Told := by
  intro t' level r s _ _ eq
  have forms := ctorIdx_eq eq
  cases t' with
  | unreachable => exact ⟨rfl, List.append_cancel_left eq⟩
  | _ => cases forms

theorem Clause.told_mk {header : NamedHeader} {parameters : List (NamedVar .value)}
    (below : body.Told) : (mk header parameters body).Told := by
  rintro ⟨header', parameters', body'⟩ level r s word word' eq
  simp only [names, List.forall_mem_append] at word word'
  simp only [layout, lineAt_toList, String.toList_append, List.append_assoc,
    List.append_cancel_left_eq] at eq
  obtain ⟨same, lines⟩ := NamedHeader.delimits_layout (a := (header, parameters))
    (b := (header', parameters')) word.1 word'.1 rfl rfl eq
  cases same
  simp only [List.append_cancel_left_eq] at lines
  obtain ⟨rfl, last⟩ := below word.2 word'.2 lines
  simp only [List.append_cancel_left_eq] at last
  exact ⟨rfl, last⟩

/-- A definition starts further right than the line after the last one. -/
theorem Members.layout_ne {level : Nat} {first : Clause} {rest : Members} {r s : List Char}
    (dedented : Dedented level s) :
    ((cons first rest).layout bare (level + 1)).toList ++ r ≠ s := by
  obtain ⟨tail, text⟩ := first.exists_layout (level + 1)
  simp only [layout, String.toList_append, text, List.append_assoc]
  exact dedented.ne_indent.symm

theorem Members.told_nil : Members.nil.Told := by
  intro m' level r s _ _ dedented _ eq
  cases m' with
  | nil => exact ⟨rfl, eq⟩
  | cons first rest => exact absurd eq.symm (layout_ne dedented)

theorem Members.told_cons {first : Clause} {rest : Members} (here : first.Told) (later : rest.Told) :
    (cons first rest).Told := by
  intro m' level r s word word' dedented dedented' eq
  cases m' with
  | nil => exact absurd eq (layout_ne dedented')
  | cons first' rest' =>
    simp only [names, List.forall_mem_append] at word word'
    simp only [layout, String.toList_append, List.append_assoc] at eq
    obtain ⟨rfl, lines⟩ := here word.1 word'.1 eq
    obtain ⟨rfl, tails⟩ := later word.2 word'.2 dedented dedented' lines
    exact ⟨rfl, tails⟩

/-- A branch starts further right than the line after the last one. -/
theorem Branches.layout_ne {level : Nat} {tag : Option Nat} {rest : Branches} {r s : List Char}
    (dedented : Dedented level s) :
    ((cons tag body rest).layout bare (level + 1)).toList ++ r ≠ s := by
  simp only [layout, lineAt_toList, String.toList_append, List.append_assoc]
  exact dedented.ne_indent.symm

theorem Branches.told_nil : Branches.nil.Told := by
  intro b' level r s _ _ dedented _ eq
  cases b' with
  | nil => exact ⟨rfl, eq⟩
  | cons tag body rest => exact absurd eq.symm (layout_ne dedented)

theorem Branches.told_cons {tag : Option Nat} {rest : Branches} (below : body.Told)
    (later : rest.Told) : (cons tag body rest).Told := by
  intro b' level r s word word' dedented dedented' eq
  cases b' with
  | nil => exact absurd eq (layout_ne dedented')
  | cons tag' body' rest' =>
    simp only [names, List.forall_mem_append] at word word'
    simp only [layout, bare, lineAt_toList, String.toList_append, List.append_assoc,
      List.append_cancel_left_eq] at eq
    obtain ⟨rfl, lines⟩ := delimits_tag trivial trivial rfl rfl eq
    simp only [List.append_cancel_left_eq] at lines
    obtain ⟨rfl, next⟩ := below word.1 word'.1 lines
    obtain ⟨rfl, tails⟩ := later word.2 word'.2 dedented dedented' next
    exact ⟨rfl, tails⟩

end Told

mutual

/-- Every term can be read back from its text. -/
theorem Term.told : (t : Term) → t.Told
  | .letIn _ _ body => Term.told_letIn body.told
  | .group _ members body => Term.told_group members.told body.told
  | .primitive .. => Term.told_primitive
  | .apply .. => Term.told_apply
  | .jump .. => Term.told_jump
  | .caseOf _ branches => Term.told_caseOf branches.told
  | .unreachable => Term.told_unreachable

/-- Every clause can be read back from its text. -/
theorem Clause.told : (c : Clause) → c.Told
  | .mk _ _ body => Clause.told_mk body.told

/-- Every list of members can be read back from its text. -/
theorem Members.told : (m : Members) → m.Told
  | .nil => Members.told_nil
  | .cons first rest => Members.told_cons first.told rest.told

/-- Every list of branches can be read back from its text. -/
theorem Branches.told : (b : Branches) → b.Told
  | .nil => Branches.told_nil
  | .cons _ body rest => Branches.told_cons body.told rest.told

end

/-- Terms whose names are words have the same lines only if they are the same. -/
theorem Term.layout_injective {t t' : Term} {level : Nat} (word : ∀ name ∈ t.names, Word name)
    (word' : ∀ name ∈ t'.names, Word name) (eq : t.layout bare level = t'.layout bare level) :
    t = t' :=
  (t.told (r := []) (s := []) word word' (by rw [eq])).1

end ContinuationIR
