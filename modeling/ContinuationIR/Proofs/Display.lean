import ContinuationIR.Print.Layout

/-!
# What a terminal leaves of program text

The words of a program are put into colours one by one, and between them stand plain characters. The
terminal may be any that does what is documented: a painted word is the word between an escape sequence
and a reset, and of a text just the escape sequences are dropped. Then the words are left and what is
between them, and after each of them the text is read on as from its start, so the text without colours
is the layout with a brush that does not colour, provided that the names of the variables have no
control characters in them. Quoted texts have none, whatever they quote.
-/

namespace ContinuationIR
set_option autoImplicit false

namespace Text

/-- The brush that leaves words as they are. -/
def bare : Brush := fun _ word => word

/-- Whether a character is a control character, of U+0000 to U+001F or of U+007F to U+009F. -/
def isControl (c : Char) : Bool := c.toNat ≤ 0x1f || (0x7f ≤ c.toNat && c.toNat ≤ 0x9f)

/-- The text has no control characters but line ends. -/
def Visible (text : String) : Prop := ∀ c ∈ text.toList, c = '\n' ∨ isControl c = false

instance (text : String) : Decidable (Visible text) :=
  decidable_of_iff (text.toList.all (fun c => c = '\n' || !isControl c) = true)
    (by simp [Visible, List.all_eq_true])

/-- The text is the code of a rendition: numbers with semicolons between them. -/
def IsCode (code : String) : Prop := ∀ c ∈ code.toList, c.isDigit = true ∨ c = ';'

/-- What a terminal is relied on for. Nothing is said about words with escape characters of their own,
about other escape sequences and about control characters other than the line end. -/
structure Terminal.Lawful (terminal : Terminal) : Prop where
  /-- A word is painted by an escape sequence before it and a reset after it, and left as it is where
  colours are switched off. -/
  paint_eq : ∀ colour word, '\x1b' ∉ word.toList → terminal.paint colour word = word ∨
    ∃ code, IsCode code ∧ terminal.paint colour word = rendition code ++ word ++ reset
  /-- Nothing is left of nothing. -/
  strip_empty : terminal.strip "" = ""
  /-- A text without control characters is kept, line ends with it. -/
  strip_visible : ∀ text rest, Visible text → terminal.strip (text ++ rest) = text ++ terminal.strip rest
  /-- An escape sequence that sets a rendition is dropped. -/
  strip_rendition : ∀ code rest, IsCode code → terminal.strip (rendition code ++ rest) = terminal.strip rest

/-- The terminal leaves `shown` of the text and then reads on as from the start. -/
def Terminal.Shows (terminal : Terminal) (text shown : String) : Prop :=
  ∀ rest, terminal.strip (text ++ rest) = shown ++ terminal.strip rest

/-! ## Visible characters -/

theorem Visible.append {one two : String} (first : Visible one) (second : Visible two) :
    Visible (one ++ two) := by
  intro c mem
  rcases List.mem_append.1 (String.toList_append ▸ mem) with mem | mem
  · exact first c mem
  · exact second c mem

/-- The characters from the space to the tilde are no control characters. -/
theorem isControl_of_le {c : Char} (low : 0x20 ≤ c.toNat) (high : c.toNat ≤ 0x7e) :
    isControl c = false := by
  simp only [isControl, Bool.or_eq_false_iff, Bool.and_eq_false_iff, decide_eq_false_iff_not]
  omega

/-- A visible text has no escape character in it. -/
theorem Visible.escape_notMem {text : String} (visible : Visible text) : '\x1b' ∉ text.toList := by
  intro mem
  rcases visible _ mem with eq | eq <;> cases eq

/-! ## What is left of painted words -/

section
variable {terminal : Terminal} {one two shown shown' : String}

/-- What is left of two texts in a row is what is left of each. -/
theorem Terminal.Shows.append (first : terminal.Shows one shown) (second : terminal.Shows two shown') :
    terminal.Shows (one ++ two) (shown ++ shown') := by
  intro rest
  rw [String.append_assoc, first, second, String.append_assoc]

variable (lawful : terminal.Lawful)
include lawful

/-- What is left of a text is so also if nothing follows. -/
theorem Terminal.Lawful.strip_eq (shows : terminal.Shows one shown) : terminal.strip one = shown := by
  have all := shows ""
  rwa [String.append_empty, lawful.strip_empty, String.append_empty] at all

/-- A visible text is left as it is. -/
theorem Terminal.Lawful.shows (visible : Visible one) : terminal.Shows one one :=
  fun rest => lawful.strip_visible one rest visible

/-- Of a painted word the word is left, between two renditions that are dropped. -/
theorem Terminal.Lawful.shows_paint (visible : Visible one) (colour : Colour) :
    terminal.Shows (terminal.paint colour one) (bare colour one) := by
  intro rest
  rcases lawful.paint_eq colour one visible.escape_notMem with same | ⟨code, isCode, painted⟩
  · rw [same]
    exact lawful.strip_visible one rest visible
  · have zero : IsCode "0" := by
      intro c mem
      obtain rfl : c = '0' := by simpa using mem
      exact .inl rfl
    rw [painted, String.append_assoc, String.append_assoc, lawful.strip_rendition _ _ isCode,
      lawful.strip_visible _ _ visible, reset, lawful.strip_rendition _ _ zero]
    rfl

theorem Terminal.Shows.literal (first : terminal.Shows one shown) (visible : Visible two) :
    terminal.Shows (one ++ two) (shown ++ two) :=
  first.append (lawful.shows visible)

theorem Terminal.Shows.word (first : terminal.Shows one shown) {colour : Colour}
    (visible : Visible two) :
    terminal.Shows (one ++ terminal.paint colour two) (shown ++ bare colour two) :=
  first.append (lawful.shows_paint visible colour)

end

/-! ## The terminal of escape sequences -/

namespace Ansi

/-- A text without resets is not coloured again. -/
theorem afterResets_eq {start chars : List Char} (free : '\x1b' ∉ chars) :
    afterResets start chars = chars := by
  induction chars with
  | nil => rfl
  | cons c chars ih =>
    rw [List.mem_cons, not_or] at free
    rw [afterResets, ih free.2]
    rintro rest rfl
    exact absurd rfl free.1

/-- A visible character is shown, and the terminal is ready for the next one. -/
theorem shown_cons {c : Char} (visible : c = '\n' ∨ isControl c = false) (rest : List Char) :
    Reading.ground.shown (c :: rest) = c :: Reading.ground.shown rest := by
  rcases visible with rfl | plain
  · rfl
  · simp only [isControl, Bool.or_eq_false_iff, Bool.and_eq_false_iff, decide_eq_false_iff_not]
      at plain
    have shows : Reading.ground.shows c = true := by
      simp [Reading.shows, Reading.isControl, Reading.within]
      omega
    have other : c ≠ '\x1b' := by
      rintro rfl
      exact plain.1 (by decide)
    rw [Reading.shown, if_pos shows, Reading.next, if_neg other]
    split <;> rfl

/-- The characters of a code stand in a control sequence, which they do not end. -/
theorem next_control {c : Char} (digit : c.isDigit = true ∨ c = ';') :
    Reading.control.shows c = false ∧ Reading.control.next c = .control := by
  have bounds : 0x30 ≤ c.toNat ∧ c.toNat ≤ 0x3b := by
    rcases digit with digit | rfl
    · obtain ⟨low, high⟩ : '0' ≤ c ∧ c ≤ '9' :=
        (Bool.and_eq_true_iff.1 digit).imp of_decide_eq_true of_decide_eq_true
      exact ⟨low, Nat.le_trans high (by decide)⟩
    · decide
  have other (d : Char) (outside : d.toNat < 0x30) : c ≠ d := by
    rintro rfl
    omega
  have inside : Reading.within 0x40 0x7e c = false := by
    simp only [Reading.within, Bool.and_eq_false_iff, decide_eq_false_iff_not]
    omega
  constructor
  · exact decide_eq_false (other '\n' (by decide))
  · rw [Reading.next, if_neg (other _ (by decide)), if_neg]
    · simp [inside]
    · simp [Reading.cancels, other '\x18' (by decide), other '\x1a' (by decide)]

/-- The code of a rendition is read without a trace. -/
theorem shown_code {code : List Char} (isCode : ∀ c ∈ code, c.isDigit = true ∨ c = ';')
    (rest : List Char) : Reading.control.shown (code ++ rest) = Reading.control.shown rest := by
  induction code with
  | nil => rfl
  | cons c code ih =>
    obtain ⟨here, later⟩ := List.forall_mem_cons.1 isCode
    obtain ⟨hidden, stays⟩ := next_control here
    rw [List.cons_append, Reading.shown, stays, ih later, hidden]
    rfl

/-- Visible characters are shown one by one. -/
theorem shown_append {chars : List Char} (visible : ∀ c ∈ chars, c = '\n' ∨ isControl c = false)
    (rest : List Char) :
    Reading.ground.shown (chars ++ rest) = chars ++ Reading.ground.shown rest := by
  induction chars with
  | nil => rfl
  | cons c chars ih =>
    obtain ⟨here, later⟩ := List.forall_mem_cons.1 visible
    rw [List.cons_append, shown_cons here, ih later, List.cons_append]

theorem isCode_code (colour : Colour) : IsCode (code colour) := by
  cases colour <;> simp [IsCode, code]

/-- The terminal of escape sequences does what is relied on. -/
theorem lawful : Terminal.ansi.Lawful where
  paint_eq colour word free := by
    refine .inr ⟨code colour, isCode_code colour, ?_⟩
    simp only [Terminal.ansi, paint, afterResets_eq free, String.ofList_toList]
  strip_empty := rfl
  strip_visible text rest visible := by
    simp only [Terminal.ansi, strip, String.toList_append, shown_append visible, String.ofList_append,
      String.ofList_toList]
  strip_rendition code rest isCode := by
    have opened : (rendition code ++ rest).toList =
        '\x1b' :: '[' :: (code.toList ++ 'm' :: rest.toList) := by
      simp [rendition]
    have escaped (chars : List Char) : Reading.ground.shown ('\x1b' :: '[' :: chars) =
      Reading.control.shown chars := rfl
    have closed (chars : List Char) : Reading.control.shown ('m' :: chars) =
      Reading.ground.shown chars := rfl
    simp only [Terminal.ansi, strip, opened, escaped, shown_code isCode, closed]

end Ansi

/-! ## Words and quoted texts -/

/-- Whether a character is an ASCII letter, a digit or an underscore. -/
def isWord (c : Char) : Bool := c.isAlphanum || c = '_'

/-- The text is made of letters, digits and underscores. -/
def Word (text : String) : Prop := ∀ c ∈ text.toList, isWord c = true

instance (text : String) : Decidable (Word text) :=
  decidable_of_iff (text.toList.all isWord = true) List.all_eq_true

/-- Letters, digits and underscores are no control characters. -/
theorem Word.visible {text : String} (word : Word text) : Visible text := by
  intro c mem
  have bounds : 0x20 ≤ c.toNat ∧ c.toNat ≤ 0x7e := by
    have inWord : (((c.isUpper || c.isLower) || c.isDigit) || decide (c = '_')) = true := word c mem
    simp only [Bool.or_eq_true, decide_eq_true_eq] at inWord
    rcases inWord with ((upper | lower) | digit) | rfl
    · obtain ⟨low, high⟩ : 'A' ≤ c ∧ c ≤ 'Z' := of_decide_eq_true upper
      exact ⟨Nat.le_trans (by decide) low, Nat.le_trans high (by decide)⟩
    · obtain ⟨low, high⟩ : 'a' ≤ c ∧ c ≤ 'z' :=
        (Bool.and_eq_true_iff.1 lower).imp of_decide_eq_true of_decide_eq_true
      exact ⟨Nat.le_trans (by decide) low, Nat.le_trans high (by decide)⟩
    · obtain ⟨low, high⟩ : '0' ≤ c ∧ c ≤ '9' :=
        (Bool.and_eq_true_iff.1 digit).imp of_decide_eq_true of_decide_eq_true
      exact ⟨Nat.le_trans (by decide) low, Nat.le_trans high (by decide)⟩
    · decide
  exact .inr (isControl_of_le bounds.1 bounds.2)

theorem isDigit_of_mem_toString {n : Nat} {c : Char} (mem : c ∈ (toString n).toList) :
    c.isDigit = true := by
  rw [Nat.toString_eq_repr, Nat.repr_eq_ofList_toDigits, String.toList_ofList] at mem
  exact Nat.isDigit_of_mem_toDigits (by decide) (by decide) mem

/-- A number is written in digits. -/
theorem word_toString (n : Nat) : Word (toString n) := by
  intro c mem
  simp [isWord, Char.isAlphanum, isDigit_of_mem_toString mem]

theorem visible_toString_int (n : Int) : Visible (toString n) := by
  rw [Int.toString_eq_repr, Int.repr_eq_if]
  split
  · exact (word_toString _).visible
  · exact .append (by decide) (word_toString _).visible

/-- A number is written in digits and letters to the base of sixteen. -/
theorem isWord_of_mem_hex {n : Nat} {c : Char} (mem : c ∈ Nat.toDigits 16 n) : isWord c = true := by
  have digit : ∀ d < 16, isWord d.digitChar = true := by decide
  induction n using Nat.strongRecOn with
  | ind n ih =>
    rw [Nat.toDigits_eq_if (by decide)] at mem
    split at mem
    · next small =>
      rw [List.mem_singleton.1 mem]
      exact digit n small
    · next large =>
      rcases List.mem_append.1 mem with mem | mem
      · exact ih (n / 16) (by omega) mem
      · rw [List.mem_singleton.1 mem]
        exact digit (n % 16) (by omega)

/-- A character that is written by its number is visible. -/
theorem visible_numbered (c : Char) : Visible (numbered c) := by
  have hex : Word (String.ofList (Nat.toDigits 16 c.toNat)) := by
    intro d mem
    rw [String.toList_ofList] at mem
    exact isWord_of_mem_hex mem
  exact .append (.append (by decide) hex.visible) (by decide)

/-- Control characters are among those that are written by their number. -/
theorem isUnprintable_of_isControl {c : Char} (control : isControl c = true) :
    isUnprintable c = true := by
  simp only [isControl, Bool.or_eq_true, Bool.and_eq_true, decide_eq_true_eq] at control
  refine List.any_eq_true.2 ?_
  rcases control with high | ⟨low, high⟩
  · exact ⟨(0x0, 0x1f), .head _, by simp [high]⟩
  · refine ⟨(0x7f, 0xa0), .tail _ (.head _), ?_⟩
    simp only [Bool.and_eq_true, decide_eq_true_eq]
    omega

/-- Between quotes no control character is left. -/
theorem visible_escaped (c : Char) : Visible (escaped c) := by
  unfold escaped
  split
  case h_7 =>
    split
    · exact visible_numbered c
    · next printable =>
      intro d mem
      obtain rfl : d = c := by simpa using mem
      refine .inr (Bool.eq_false_iff.2 fun control => printable ?_)
      simp [isUnprintable_of_isControl control]
  all_goals decide

/-- A quoted text is visible, whatever it quotes. -/
theorem visible_quoted (text : String) : Visible (quoted text) := by
  refine .append (.append (by decide) ?_) (by decide)
  intro c mem
  rw [String.toList_join, List.flatMap_map, List.mem_flatMap] at mem
  obtain ⟨d, -, mem⟩ := mem
  exact visible_escaped d c mem

end Text

/-! ## Program text -/

open Text

/-- The names in a header. -/
def NamedHeader.names : NamedHeader → List String
  | .root returnTo => [returnTo.name]
  | .function name returnTo _ => [name.name, returnTo.name]
  | .continuation name => [name.name]

/-- The names of the variables that a list of uses refers to. -/
def namesOf {family : Family} (uses : List (NamedUse family)) : List String :=
  uses.map (·.var.name)

mutual

/-- The names in a term. -/
def Term.names : Term → List String
  | .letIn var value body => var.name :: namesOf value.uses ++ body.names
  | .group _ members body => members.names ++ body.names
  | .primitive _ arguments continuation => continuation.var.name :: namesOf arguments
  | .apply function arguments continuation =>
    function.var.name :: continuation.var.name :: namesOf arguments
  | .jump continuation arguments => continuation.var.name :: namesOf arguments
  | .caseOf scrutinee branches => scrutinee.var.name :: branches.names
  | .unreachable => []

/-- The names in a clause. -/
def Clause.names : Clause → List String
  | .mk header parameters body => header.names ++ parameters.map (·.name) ++ body.names

/-- The names in the definitions of a group. -/
def Members.names : Members → List String
  | .nil => []
  | .cons first rest => first.names ++ rest.names

/-- The names in the branches of a case. -/
def Branches.names : Branches → List String
  | .nil => []
  | .cons _ body rest => body.names ++ rest.names

end

theorem Visibility.visible_text (visibility : Visibility) : Visible visibility.text := by
  cases visibility <;> decide

theorem Family.visible_groupWord (family : Family) : Visible family.groupWord := by
  cases family <;> decide

theorem Primitive.visible_name (operator : Primitive) : Visible operator.name := by
  cases operator <;> decide

variable {family : Family} {terminal : Terminal} (lawful : terminal.Lawful)
include lawful

/-- A variable is one painted word. -/
theorem NamedVar.shows_layout {v : NamedVar family} (visible : Visible v.name) :
    terminal.Shows (v.layout terminal.paint) (v.layout bare) :=
  lawful.shows_paint ((visible.append (by decide)).append (word_toString _).visible) _

/-- A use is the variable, with a painted star if it is recursive. -/
theorem NamedUse.shows_layout {u : NamedUse family} (visible : Visible u.var.name) :
    terminal.Shows (u.layout terminal.paint) (u.layout bare) := by
  have var := NamedVar.shows_layout lawful visible
  unfold layout
  cases u.recursivity with
  | recursive => exact var.append (lawful.shows_paint (by decide) _)
  | nonRecursive => exact var

/-- A list is left with its commas, if each item is left. -/
theorem shows_commas {α : Type} {one two : α → String} {list : List α}
    (each : ∀ a ∈ list, terminal.Shows (one a) (two a)) :
    terminal.Shows (commas (list.map one)) (commas (list.map two)) := by
  induction list with
  | nil => exact lawful.shows (by decide : Visible "")
  | cons a rest ih =>
    obtain ⟨first, later⟩ := List.forall_mem_cons.1 each
    cases rest with
    | nil => simpa [commas] using first
    | cons b rest =>
      simp only [List.map_cons, commas, String.intercalate_cons_cons] at ih ⊢
      exact (first.append (lawful.shows (by decide))).append (ih later)

theorem NamedUse.shows_commas {uses : List (NamedUse family)}
    (visible : ∀ name ∈ namesOf uses, Visible name) :
    terminal.Shows (commas (uses.map (·.layout terminal.paint))) (commas (uses.map (·.layout bare))) :=
  ContinuationIR.shows_commas lawful fun _ mem =>
    shows_layout lawful (visible _ (List.mem_map_of_mem mem))

/-- A literal is one painted word. -/
theorem Constant.shows_layout (literal : Constant) :
    terminal.Shows (literal.layout terminal.paint) (literal.layout bare) := by
  cases literal with
  | unit => exact lawful.shows_paint (by decide) _
  | int n => exact lawful.shows_paint (visible_toString_int _) _
  | bool b => cases b <;> exact lawful.shows_paint (by decide) _
  | string s => exact lawful.shows_paint (visible_quoted s) _

theorem Value.shows_layout {value : Value (NamedUse .value)}
    (visible : ∀ name ∈ namesOf value.uses, Visible name) :
    terminal.Shows (value.layout terminal.paint) (value.layout bare) := by
  cases value with
  | constant literal => exact literal.shows_layout lawful
  | «alias» source => exact NamedUse.shows_layout lawful (visible _ (by simp [namesOf, uses]))
  | block tag fields =>
    have commas := NamedUse.shows_commas lawful visible
    exact (lawful.shows_paint (by decide) _).literal lawful (by decide)
      |>.word lawful (word_toString tag).visible
      |>.literal lawful (by decide) |>.append commas |>.literal lawful (by decide)

/-- The first line of a definition is made of painted words, names and plain characters. -/
theorem NamedHeader.shows_layout {header : NamedHeader} {parameters : List (NamedVar .value)}
    (visible : ∀ name ∈ header.names, Visible name)
    (visible' : ∀ name ∈ parameters.map (·.name), Visible name) :
    terminal.Shows (header.layout terminal.paint parameters) (header.layout bare parameters) := by
  have commas : terminal.Shows (commas (parameters.map (·.layout terminal.paint)))
      (commas (parameters.map (·.layout bare))) :=
    shows_commas lawful fun v mem => NamedVar.shows_layout lawful (visible' _ (List.mem_map_of_mem mem))
  cases header with
  | root returnTo =>
    have answer := NamedVar.shows_layout lawful (visible returnTo.name (by simp [names]))
    exact (lawful.shows_paint (by decide) _).literal lawful (by decide) |>.append commas
      |>.literal lawful (by decide) |>.append answer |>.literal lawful (by decide)
  | function name returnTo visibility =>
    have own := NamedVar.shows_layout lawful (visible name.name (by simp [names]))
    have answer := NamedVar.shows_layout lawful (visible returnTo.name (by simp [names]))
    exact (lawful.shows_paint (by decide) _).literal lawful (by decide) |>.append own
      |>.literal lawful (by decide) |>.append commas |>.literal lawful (by decide) |>.append answer
      |>.literal lawful (by decide) |>.literal lawful visibility.visible_text
      |>.literal lawful (by decide)
  | continuation name =>
    have own := NamedVar.shows_layout lawful (visible name.name (by simp [names]))
    exact (lawful.shows_paint (by decide) _).literal lawful (by decide) |>.append own
      |>.literal lawful (by decide) |>.append commas |>.literal lawful (by decide)

/-- The indentation and the line end are left. -/
theorem shows_lineAt {text shown : String} (shows : terminal.Shows text shown) (level : Nat) :
    terminal.Shows (lineAt level text) (lineAt level shown) := by
  have indent : Visible (String.join (List.replicate level "    ")) := by
    intro c mem
    rw [String.toList_join, List.mem_flatMap] at mem
    obtain ⟨spaces, inside, mem⟩ := mem
    obtain rfl := List.eq_of_mem_replicate inside
    exact (by decide : Visible "    ") c mem
  exact ((lawful.shows indent).append shows).literal lawful (by decide)

mutual

/-- Of the coloured lines of a term the lines without colours are shown. -/
theorem Term.shows_layout (level : Nat) : (t : Term) → (∀ name ∈ t.names, Visible name) →
    terminal.Shows (t.layout terminal.paint level) (t.layout bare level)
  | .letIn var value body, visible => by
    simp only [Term.names, List.forall_mem_append, List.forall_mem_cons] at visible
    obtain ⟨⟨name, uses⟩, below⟩ := visible
    refine (shows_lineAt lawful ?_ level).append (body.shows_layout level below)
    exact (lawful.shows_paint (by decide) _).literal lawful (by decide)
      |>.append (NamedVar.shows_layout lawful name) |>.literal lawful (by decide)
      |>.append (Value.shows_layout lawful uses) |>.literal lawful (by decide) |>.word lawful (by decide)
  | .group family members body, visible => by
    simp only [Term.names, List.forall_mem_append] at visible
    exact (shows_lineAt lawful (lawful.shows_paint family.visible_groupWord _) level)
      |>.append (members.shows_layout (level + 1) visible.1)
      |>.append (shows_lineAt lawful (lawful.shows_paint (by decide) _) level)
      |>.append (body.shows_layout level visible.2)
  | .primitive operator arguments continuation, visible => by
    simp only [Term.names, List.forall_mem_cons] at visible
    exact shows_lineAt lawful ((lawful.shows_paint operator.visible_name _).literal lawful (by decide)
      |>.append (NamedUse.shows_commas lawful visible.2) |>.literal lawful (by decide)
      |>.append (NamedUse.shows_layout lawful visible.1)) level
  | .apply function arguments continuation, visible => by
    simp only [Term.names, List.forall_mem_cons] at visible
    obtain ⟨callee, next, uses⟩ := visible
    exact shows_lineAt lawful ((lawful.shows_paint (by decide) _).literal lawful (by decide)
      |>.append (NamedUse.shows_layout lawful callee) |>.literal lawful (by decide)
      |>.append (NamedUse.shows_commas lawful uses) |>.literal lawful (by decide)
      |>.append (NamedUse.shows_layout lawful next)) level
  | .jump continuation arguments, visible => by
    simp only [Term.names, List.forall_mem_cons] at visible
    exact shows_lineAt lawful ((lawful.shows_paint (by decide) _).literal lawful (by decide)
      |>.append (NamedUse.shows_layout lawful visible.1) |>.literal lawful (by decide)
      |>.append (NamedUse.shows_commas lawful visible.2) |>.literal lawful (by decide)) level
  | .caseOf scrutinee branches, visible => by
    simp only [Term.names, List.forall_mem_cons] at visible
    refine (shows_lineAt lawful ?_ level).append (branches.shows_layout (level + 1) visible.2)
      |>.append (shows_lineAt lawful (lawful.shows (by decide)) level)
    exact (lawful.shows_paint (by decide) _).literal lawful (by decide)
      |>.append (NamedUse.shows_layout lawful visible.1) |>.literal lawful (by decide)
  | .unreachable, _ => shows_lineAt lawful (lawful.shows_paint (by decide) _) level

theorem Clause.shows_layout (level : Nat) : (c : Clause) → (∀ name ∈ c.names, Visible name) →
    terminal.Shows (c.layout terminal.paint level) (c.layout bare level)
  | .mk header parameters body, visible => by
    simp only [Clause.names, List.forall_mem_append] at visible
    obtain ⟨⟨own, bound⟩, below⟩ := visible
    exact (shows_lineAt lawful (NamedHeader.shows_layout lawful own bound) level)
      |>.append (body.shows_layout (level + 1) below)
      |>.append (shows_lineAt lawful (lawful.shows (by decide)) level)

theorem Members.shows_layout (level : Nat) : (m : Members) → (∀ name ∈ m.names, Visible name) →
    terminal.Shows (m.layout terminal.paint level) (m.layout bare level)
  | .nil, _ => lawful.shows (by decide : Visible "")
  | .cons first rest, visible => by
    simp only [Members.names, List.forall_mem_append] at visible
    exact (first.shows_layout level visible.1).append (rest.shows_layout level visible.2)

theorem Branches.shows_layout (level : Nat) : (b : Branches) → (∀ name ∈ b.names, Visible name) →
    terminal.Shows (b.layout terminal.paint level) (b.layout bare level)
  | .nil, _ => lawful.shows (by decide : Visible "")
  | .cons tag body rest, visible => by
    simp only [Branches.names, List.forall_mem_append] at visible
    have word : Visible ((tag.map toString).getD "_") := by
      cases tag with
      | none => decide
      | some tag => exact (word_toString tag).visible
    exact (shows_lineAt lawful ((lawful.shows_paint word _).literal lawful (by decide)) level)
      |>.append (body.shows_layout (level + 1) visible.1)
      |>.append (rest.shows_layout level visible.2)

end

end ContinuationIR
