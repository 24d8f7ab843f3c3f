import ContinuationIR.Proofs.Likeness

/-!
# Text without colours

The plain text of a program is what a terminal leaves of the coloured one. Whatever calls led to the
program and whatever the terminal, as long as it does what is documented, this is the text that the
same layout gives with a brush that does not colour, for the installed tree and for every expression,
pending ones too. The names of the variables may have any
characters in them but control characters, and the quoted texts any characters at all.
-/

namespace ContinuationIR
set_option autoImplicit false

open Text

/-- The text has no control characters, neither up to U+001F nor from U+007F to U+009F. -/
def Text.Uncontrolled (text : String) : Prop := ∀ c ∈ text.toList, isControl c = false

instance (text : String) : Decidable (Uncontrolled text) :=
  decidable_of_iff (text.toList.all (fun c => !isControl c) = true)
    (by simp [Uncontrolled, List.all_eq_true])

theorem Text.Uncontrolled.visible {text : String} (clean : Uncontrolled text) : Visible text :=
  fun c mem => .inr (clean c mem)

namespace Program

variable {p : Program} {r : DefId}

/-- A root definition has no name that could be dead, so some clause spells the installed one. -/
theorem Consistent.exists_clause (c : Consistent p) (installed : p.root = some r) :
    ∃ clause : Clause, clause.Spells p r := by
  obtain ⟨definition, found, kind⟩ := c.rootKind r installed
  have live := hasNode_of_enclosing (c.root r installed)
  refine (c.exists_spells live).2 r rfl fun {family v} name => ?_
  rw [nameOf, found] at name
  have other := kind_of_name? name
  rw [kind] at other
  cases family <;> cases other

/-- The installed tree is laid out as the clause that spells it, with every brush. -/
theorem Consistent.layout_eq (c : Consistent p) (installed : p.root = some r) {clause : Clause}
    (spells : clause.Spells p r) (brush : Brush) :
    p.layout brush = .ok (clause.layout brush 0) := by
  have live := hasNode_of_enclosing (c.root r installed)
  have read : p.clause r = .ok clause :=
    clauseBy_of_spells clause spells (c.forest.enough_nodeSlots live)
  simp only [layout, installed, read]
  rfl

/-- Of the coloured text of the installed tree the text without colours is left. -/
theorem Consistent.plain_eq_layout (c : Consistent p) {terminal : Terminal}
    (lawful : terminal.Lawful) (names : p.AllNames Visible) :
    ∃ text, terminal.plain p = .ok text ∧ p.layout bare = .ok text := by
  cases installed : p.root with
  | none =>
    have empty (brush : Brush) : p.layout brush = .ok "" := by rw [layout, installed]
    refine ⟨"", ?_, empty bare⟩
    rw [Terminal.plain, Terminal.coloured, empty, ok_bind, lawful.strip_empty]
    rfl
  | some r =>
    obtain ⟨clause, spells⟩ := c.exists_clause installed
    have left := lawful.strip_eq
      (clause.shows_layout lawful 0 (names_of_clause names clause spells))
    refine ⟨_, ?_, c.layout_eq installed spells bare⟩
    rw [Terminal.plain, Terminal.coloured, c.layout_eq installed spells, ok_bind, left]
    rfl

/-- On every terminal that does what is documented, and whatever calls led to a program without control
characters in its names, its plain text and that of each of its expressions is the text that the layout
gives without colours. -/
theorem plain_text_is_uncoloured {terminal : Terminal} (lawful : terminal.Lawful)
    (reachable : Reachable p) (names : p.AllNames Uncontrolled) :
    (∃ text, terminal.plain p = .ok text ∧ p.layout bare = .ok text) ∧
    ∀ e, p.hasNode (.expr e) = true →
      ∃ text, terminal.plainExpression p e = .ok text ∧ p.layoutExpression bare e = .ok text := by
  obtain ⟨c, -⟩ := reachable.consistent
  have visible : p.AllNames Visible := fun read => (names read).visible
  refine ⟨c.plain_eq_layout lawful visible, fun e live => ?_⟩
  obtain ⟨t, spells⟩ := (c.exists_spells live).1 e rfl
  exact ⟨_, c.plainExpression_eq lawful visible live spells, c.layoutExpression_eq live spells bare⟩

/-- A program that prints a text which itself sets a colour. -/
def printsRed : Program :=
  run [.freshContinuation "k", .freshValue "rôle 1" .any,
    .primitive .print [⟨⟨0⟩, .nonRecursive⟩] ⟨⟨0⟩, .nonRecursive⟩,
    .letIn ⟨0⟩ (.constant (.string "\x1b[31m")) ⟨0⟩, .root ⟨0⟩ [] ⟨[], .any⟩ ⟨1⟩, .install ⟨0⟩]

/-- The escape character in the quoted text is written by its number and shown so. -/
theorem printsRed_plain_text : Terminal.ansi.Lawful ∧ Reachable printsRed ∧
    printsRed.AllNames Uncontrolled ∧
    Terminal.ansi.plain printsRed =
      .ok ("root() -> k/0 \x7b\n    let rôle 1/0 = \"\\u\x7b1b\x7d[31m\" in\n" ++
        "    print(rôle 1/0) -> k/0\n\x7d\n") ∧
    Terminal.ansi.plainExpression printsRed ⟨0⟩ = .ok "print(rôle 1/0) -> k/0\n" := by
  have reachable : Reachable printsRed := reachable_run _
  have names : printsRed.AllNames Uncontrolled := by
    rintro (_ | _) ⟨_ | n⟩ entry read <;> cases read <;> decide
  obtain ⟨⟨tree, shown, laid⟩, expressions⟩ :=
    plain_text_is_uncoloured Ansi.lawful reachable names
  obtain ⟨text, shown', laid'⟩ := expressions ⟨0⟩ rfl
  refine ⟨Ansi.lawful, reachable, names, ?_, ?_⟩
  · rw [shown, ← laid]
    decide +kernel
  · rw [shown', ← laid']
    decide +kernel

end Program

end ContinuationIR
