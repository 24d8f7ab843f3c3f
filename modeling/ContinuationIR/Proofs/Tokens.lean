import ContinuationIR.Proofs.Display

/-!
# Texts that say where they end

A printer delimits its texts if from a text with something after it both the printed thing and what
follows can be told, for all that may follow. Words and numbers do so before anything that is not of a
word, uses of variables before anything but a star besides, and lists in parentheses, quoted texts and
the first lines of definitions before anything at all.
-/

namespace ContinuationIR
set_option autoImplicit false

namespace Text

/-- Whether what follows does not go on with the given characters. -/
def stops (runs : Char → Bool) (rest : List Char) : Bool := rest.head?.all (!runs ·)

/-- Two runs of the same characters end at the same place. -/
theorem span_inj {runs : Char → Bool} {u v r s : List Char} (inU : ∀ c ∈ u, runs c = true)
    (inV : ∀ c ∈ v, runs c = true) (afterU : stops runs r = true) (afterV : stops runs s = true)
    (eq : u ++ r = v ++ s) : u = v ∧ r = s := by
  induction u generalizing v with
  | nil =>
    cases v with
    | nil => exact ⟨rfl, eq⟩
    | cons d v =>
      obtain rfl : r = d :: (v ++ s) := eq
      simp [stops, inV d List.mem_cons_self] at afterU
  | cons c u ih =>
    cases v with
    | nil =>
      obtain rfl : c :: (u ++ r) = s := eq
      simp [stops, inU c List.mem_cons_self] at afterV
    | cons d v =>
      obtain ⟨rfl, tails⟩ := List.cons.inj eq
      obtain ⟨rfl, same⟩ := ih (List.forall_mem_cons.1 inU).2 (List.forall_mem_cons.1 inV).2 tails
      exact ⟨rfl, same⟩

/-- From the text of a thing that fits the printer, with something allowed after it, both can be
told. -/
def Delimits {α : Type} (print : α → String) (fits : α → Prop) (stop : List Char → Bool) : Prop :=
  ∀ {a b : α} {r s : List Char}, fits a → fits b → stop r = true → stop s = true →
    (print a).toList ++ r = (print b).toList ++ s → a = b ∧ r = s

/-- Things one after the other, up to a character with which none of them starts, can be told from
the text. -/
theorem Delimits.sequence {α : Type} {print : α → String} {fits : α → Prop}
    {stop : List Char → Bool} {close : Char} (each : Delimits print fits stop)
    (closes : ∀ rest, stop (close :: rest) = true)
    (goesOn : ∀ {a}, fits a → ∀ rest, stop ((print a).toList ++ rest) = true)
    (opens : ∀ {a r s}, fits a → (print a).toList ++ r ≠ close :: s) {u v : List α} {r s : List Char}
    (fitU : ∀ a ∈ u, fits a) (fitV : ∀ a ∈ v, fits a)
    (eq : u.flatMap (fun a => (print a).toList) ++ close :: r =
      v.flatMap (fun a => (print a).toList) ++ close :: s) : u = v ∧ r = s := by
  have next {list : List α} (fit : ∀ a ∈ list, fits a) (rest : List Char) :
      stop (list.flatMap (fun a => (print a).toList) ++ close :: rest) = true := by
    cases list with
    | nil => exact closes rest
    | cons a list =>
      rw [List.flatMap_cons, List.append_assoc]
      exact goesOn (fit a List.mem_cons_self) _
  induction u generalizing v with
  | nil =>
    cases v with
    | nil => exact ⟨rfl, (List.cons.inj eq).2⟩
    | cons b v =>
      rw [List.flatMap_cons, List.append_assoc] at eq
      exact absurd eq.symm (opens (fitV b List.mem_cons_self))
  | cons a u ih =>
    obtain ⟨fitA, laterU⟩ := List.forall_mem_cons.1 fitU
    cases v with
    | nil =>
      rw [List.flatMap_cons, List.append_assoc] at eq
      exact absurd eq (opens fitA)
    | cons b v =>
      obtain ⟨fitB, laterV⟩ := List.forall_mem_cons.1 fitV
      rw [List.flatMap_cons, List.flatMap_cons, List.append_assoc, List.append_assoc] at eq
      obtain ⟨rfl, tails⟩ := each fitA fitB (next laterU r) (next laterV s) eq
      obtain ⟨rfl, rest⟩ := ih laterU laterV tails
      exact ⟨rfl, rest⟩

/-- A word ends where the first character that is not of a word stands. -/
theorem delimits_word : Delimits id Word (stops isWord) := by
  intro a b r s fits fits' stop stop' eq
  obtain ⟨same, rest⟩ := span_inj fits fits' stop stop' eq
  exact ⟨String.toList_inj.1 same, rest⟩

/-- In a base that has enough digits a number is told by its digits. -/
theorem toDigits_injective {base : Nat} (low : 1 < base) (high : base ≤ 16) {n m : Nat}
    (eq : Nat.toDigits base n = Nat.toDigits base m) : n = m := by
  have digit : ∀ d < 16, ∀ d' < 16, d.digitChar = d'.digitChar → d = d' := by decide
  induction n using Nat.strongRecOn generalizing m with
  | ind n ih =>
    rw [Nat.toDigits_eq_if low, Nat.toDigits_eq_if (n := m) low] at eq
    split at eq <;> split at eq
    · exact digit n (by omega) m (by omega) (List.cons.inj eq).1
    · have empty := (List.append_eq_singleton_iff.1 eq.symm).resolve_right (by simp)
      exact absurd empty.1 Nat.toDigits_ne_nil
    · have empty := (List.append_eq_singleton_iff.1 eq).resolve_right (by simp)
      exact absurd empty.1 Nat.toDigits_ne_nil
    · next large _ =>
      obtain ⟨front, last⟩ := List.append_inj' eq rfl
      have quotient := ih (n / base) (Nat.div_lt_self (by omega) low) front
      have remainder := digit (n % base) (by have := Nat.mod_lt n (by omega : base > 0); omega)
        (m % base) (by have := Nat.mod_lt m (by omega : base > 0); omega) (List.cons.inj last).1
      rw [← Nat.div_add_mod n base, ← Nat.div_add_mod m base, quotient, remainder]

theorem toString_injective {n m : Nat} (eq : toString n = toString m) : n = m := by
  rw [Nat.toString_eq_ofList_toDigits, Nat.toString_eq_ofList_toDigits] at eq
  exact toDigits_injective (by decide) (by decide) (String.ofList_injective eq)

theorem delimits_nat : Delimits (toString : Nat → String) (fun _ => True) (stops isWord) := by
  intro a b r s _ _ stop stop' eq
  obtain ⟨same, rest⟩ := delimits_word (word_toString a) (word_toString b) stop stop' eq
  exact ⟨toString_injective same, rest⟩

/-- Whether a character may stand in an integer. -/
def isSigned (c : Char) : Bool := isWord c || c = '-'

theorem mem_toString_int {n : Int} {c : Char} (mem : c ∈ (toString n).toList) :
    c.isDigit = true ∨ c = '-' := by
  rw [Int.toString_eq_repr, Int.repr_eq_if] at mem
  split at mem
  · exact .inl (isDigit_of_mem_toString mem)
  · rw [String.toList_append, List.mem_append] at mem
    rcases mem with mem | mem
    · exact .inr (by simpa using mem)
    · exact .inl (isDigit_of_mem_toString mem)

theorem isSigned_of_mem_toString {n : Int} {c : Char} (mem : c ∈ (toString n).toList) :
    isSigned c = true := by
  rcases mem_toString_int mem with digit | rfl
  · simp [isSigned, isWord, Char.isAlphanum, digit]
  · rfl

/-- The sign is no digit. -/
theorem toString_ne_signed (n : Nat) (text : String) : toString n ≠ "-" ++ text := by
  intro eq
  have digit : '-'.isDigit = true :=
    isDigit_of_mem_toString (n := n) (by rw [eq, String.toList_append]; exact List.mem_cons_self)
  cases digit

theorem toString_int_injective {n m : Int} (eq : toString n = toString m) : n = m := by
  rw [Int.toString_eq_repr, Int.toString_eq_repr, Int.repr_eq_if, Int.repr_eq_if] at eq
  split at eq <;> split at eq
  · have same : n.toNat = m.toNat := toString_injective eq
    omega
  · exact absurd eq (toString_ne_signed _ _)
  · exact absurd eq.symm (toString_ne_signed _ _)
  · have same : (-n).toNat = (-m).toNat :=
      toString_injective (String.append_right_inj _ |>.1 eq)
    omega

theorem delimits_int : Delimits (toString : Int → String) (fun _ => True) (stops isSigned) := by
  intro a b r s _ _ stop stop' eq
  obtain ⟨same, rest⟩ := span_inj (fun _ => isSigned_of_mem_toString)
    (fun _ => isSigned_of_mem_toString) stop stop' eq
  exact ⟨toString_int_injective (String.toList_inj.1 same), rest⟩

/-! ## Quoted texts -/

/-- The letter that stands for a character after a backslash. -/
def letter? : Char → Option Char
  | '\x00' => some '0'
  | '\t' => some 't'
  | '\r' => some 'r'
  | '\n' => some 'n'
  | '"' => some '"'
  | '\\' => some '\\'
  | _ => none

/-- The character for which a letter after a backslash stands. -/
def ofLetter : Char → Char
  | '0' => '\x00'
  | 't' => '\t'
  | 'r' => '\r'
  | 'n' => '\n'
  | l => l

theorem ofLetter_of_letter {c l : Char} (short : letter? c = some l) : ofLetter l = c := by
  unfold letter? at short
  split at short <;> cases short <;> rfl

theorem ne_u_of_letter {c l : Char} (short : letter? c = some l) : l ≠ 'u' := by
  unfold letter? at short
  split at short <;> cases short <;> decide

theorem escaped_of_letter {c l : Char} (short : letter? c = some l) :
    (escaped c).toList = ['\\', l] := by
  unfold letter? at short
  split at short <;> cases short <;> rfl

theorem numbered_toList (c : Char) :
    (numbered c).toList = '\\' :: 'u' :: '\x7b' :: (Nat.toDigits 16 c.toNat ++ ['\x7d']) := by
  simp [numbered]

/-- A character is written with a letter, by its number or as it is. -/
theorem escaped_forms (c : Char) :
    (∃ l, letter? c = some l ∧ (escaped c).toList = ['\\', l]) ∨
      (escaped c).toList = (numbered c).toList ∨
      (escaped c).toList = [c] ∧ c ≠ '\\' ∧ c ≠ '"' := by
  cases short : letter? c with
  | some l => exact .inl ⟨l, rfl, escaped_of_letter short⟩
  | none =>
    refine .inr ?_
    unfold escaped
    split
    case h_7 =>
      split
      · exact .inl rfl
      · exact .inr ⟨by simp, ‹_›, ‹_›⟩
    all_goals cases short

/-- A numbered escape tells its character, and ends at its brace. -/
theorem numbered_inj {c d : Char} {r s : List Char}
    (eq : (numbered c).toList ++ r = (numbered d).toList ++ s) : c = d ∧ r = s := by
  have tails : Nat.toDigits 16 c.toNat ++ '\x7d' :: r = Nat.toDigits 16 d.toNat ++ '\x7d' :: s := by
    simpa [numbered_toList] using eq
  obtain ⟨digits, rest⟩ :=
    span_inj (fun _ => isWord_of_mem_hex) (fun _ => isWord_of_mem_hex) rfl rfl tails
  exact ⟨Char.toNat_inj.1 (toDigits_injective (by decide) (by decide) digits), (List.cons.inj rest).2⟩

/-- The written form of a character says where it ends: a backslash tells the characters that stand
for themselves from the others, a `u` after it those that are written by their number. -/
theorem delimits_escaped : Delimits escaped (fun _ => True) (fun _ => true) := by
  intro c d r s _ _ _ _ eq
  rcases escaped_forms c with ⟨l, short, form⟩ | form | ⟨form, plain, -⟩ <;>
    rcases escaped_forms d with ⟨l', short', form'⟩ | form' | ⟨form', plain', -⟩ <;>
    rw [form, form'] at eq
  · obtain ⟨rfl, rest⟩ : l = l' ∧ r = s := by simpa using eq
    exact ⟨(ofLetter_of_letter short).symm.trans (ofLetter_of_letter short'), rest⟩
  · rw [numbered_toList] at eq
    exact absurd (List.cons.inj (List.cons.inj eq).2).1 (ne_u_of_letter short)
  · exact absurd (List.cons.inj eq).1.symm plain'
  · rw [numbered_toList] at eq
    exact absurd (List.cons.inj (List.cons.inj eq).2).1.symm (ne_u_of_letter short')
  · exact numbered_inj eq
  · rw [numbered_toList] at eq
    exact absurd (List.cons.inj eq).1.symm plain'
  · exact absurd (List.cons.inj eq).1 plain
  · rw [numbered_toList] at eq
    exact absurd (List.cons.inj eq).1 plain
  · exact List.cons.inj eq

/-- No character is written with a quote in front. -/
theorem escaped_ne_quote {c : Char} {r s : List Char} : (escaped c).toList ++ r ≠ '"' :: s := by
  intro eq
  rcases escaped_forms c with ⟨l, -, form⟩ | form | ⟨form, -, plain⟩
  · rw [form] at eq
    cases eq
  · rw [form, numbered_toList] at eq
    cases eq
  · rw [form] at eq
    exact plain (List.cons.inj eq).1

theorem quoted_toList (text : String) : (quoted text).toList =
    '"' :: (text.toList.flatMap (fun c => (escaped c).toList) ++ ['"']) := by
  simp [quoted, String.toList_join, List.flatMap_map]

/-- A quoted text ends at its closing quote, whatever follows. -/
theorem delimits_quoted : Delimits quoted (fun _ => True) (fun _ => true) := by
  intro a b r s _ _ _ _ eq
  rw [quoted_toList, quoted_toList] at eq
  have tails : a.toList.flatMap (fun c => (escaped c).toList) ++ '"' :: r =
      b.toList.flatMap (fun c => (escaped c).toList) ++ '"' :: s := by
    simpa using eq
  obtain ⟨same, rest⟩ := delimits_escaped.sequence (fun _ => rfl) (fun _ _ => rfl)
    (fun _ => escaped_ne_quote) (fun _ _ => trivial) (fun _ _ => trivial) tails
  exact ⟨String.toList_inj.1 same, rest⟩

end Text

open Text

/-! ## Variables -/

variable {family : Family}

theorem NamedVar.layout_toList (v : NamedVar family) :
    (v.layout bare).toList = v.name.toList ++ ('/' :: (toString v.number).toList) := by
  simp [layout, bare]

theorem delimits_namedVar :
    Delimits (fun v : NamedVar family => v.layout bare) (fun v => Word v.name) (stops isWord) := by
  intro v w r s word word' stop stop' eq
  simp only [NamedVar.layout_toList, List.append_assoc] at eq
  obtain ⟨names, tails⟩ := span_inj word word' rfl rfl eq
  obtain ⟨numbers, rest⟩ := delimits_nat trivial trivial stop stop' (List.cons.inj tails).2
  have same : v = w := by
    cases v
    cases w
    simp_all [String.toList_inj]
  exact ⟨same, rest⟩

/-- Whether a character may stand in a use of a variable. -/
def isUse (c : Char) : Bool := isWord c || c = '*'

theorem stops_isWord {rest : List Char} (stop : stops isUse rest = true) :
    stops isWord rest = true := by
  cases rest with
  | nil => rfl
  | cons c rest => simp_all [stops, isUse]

theorem delimits_namedUse :
    Delimits (fun u : NamedUse family => u.layout bare) (fun u => Word u.var.name) (stops isUse) := by
  rintro ⟨v, one⟩ ⟨w, two⟩ r s word word' stop stop' eq
  have starred (rest : List Char) : ('*' :: rest) ≠ r ∧ ('*' :: rest) ≠ s := by
    constructor <;> rintro rfl
    · cases stop
    · cases stop'
  have before := stops_isWord stop
  have before' := stops_isWord stop'
  cases one <;> cases two <;>
    simp only [NamedUse.layout, bare, String.toList_append, List.append_assoc] at eq
  · obtain ⟨rfl, tails⟩ := delimits_namedVar word word' rfl rfl eq
    exact ⟨rfl, (List.cons.inj tails).2⟩
  · obtain ⟨-, tails⟩ := delimits_namedVar word word' rfl before' eq
    exact absurd tails (starred _).2
  · obtain ⟨-, tails⟩ := delimits_namedVar word word' before rfl eq
    exact absurd tails.symm (starred _).1
  · obtain ⟨rfl, rest⟩ := delimits_namedVar word word' before before' eq
    exact ⟨rfl, rest⟩

/-! ## Lists -/

theorem commas_toList {α : Type} (print : α → String) (first : α) (list : List α) :
    (commas ((first :: list).map print)).toList =
      (print first).toList ++ list.flatMap fun a => (", " ++ print a).toList := by
  induction list generalizing first with
  | nil => simp [commas]
  | cons a list ih =>
    have tail := ih a
    simp only [commas, List.map_cons, String.intercalate_cons_cons, String.toList_append] at tail ⊢
    rw [tail, List.flatMap_cons, List.append_assoc, List.append_assoc]

/-- Lists in parentheses can be told from the text. -/
theorem Text.Delimits.commas {α : Type} {print : α → String} {fits : α → Prop}
    (each : Delimits print fits (stops isUse))
    (opens : ∀ {a r s}, fits a → (print a).toList ++ r ≠ ')' :: s) {u v : List α} {r s : List Char}
    (fitU : ∀ a ∈ u, fits a) (fitV : ∀ a ∈ v, fits a)
    (eq : (commas (u.map print)).toList ++ ')' :: r = (commas (v.map print)).toList ++ ')' :: s) :
    u = v ∧ r = s := by
  have later : Delimits (fun a => ", " ++ print a) fits (stops isUse) := by
    intro a b r s fit fit' stop stop' eq
    simp only [String.toList_append, List.append_assoc] at eq
    exact each fit fit' stop stop' (List.append_cancel_left eq)
  have next (list : List α) (rest : List Char) :
      stops isUse (list.flatMap (fun a => (", " ++ print a).toList) ++ ')' :: rest) = true := by
    cases list with
    | nil => rfl
    | cons a list => simp [stops, isUse, isWord]
  cases u with
  | nil =>
    cases v with
    | nil => exact ⟨rfl, (List.cons.inj eq).2⟩
    | cons b v =>
      rw [commas_toList, List.append_assoc] at eq
      exact absurd eq.symm (opens (fitV b List.mem_cons_self))
  | cons a u =>
    obtain ⟨fitA, laterU⟩ := List.forall_mem_cons.1 fitU
    cases v with
    | nil =>
      rw [commas_toList, List.append_assoc] at eq
      exact absurd eq (opens fitA)
    | cons b v =>
      obtain ⟨fitB, laterV⟩ := List.forall_mem_cons.1 fitV
      rw [commas_toList, commas_toList, List.append_assoc, List.append_assoc] at eq
      obtain ⟨rfl, tails⟩ := each fitA fitB (next u r) (next v s) eq
      obtain ⟨rfl, rest⟩ := later.sequence (fun _ => rfl) (fun _ _ => by simp [stops, isUse, isWord])
        (fun _ => by simp) laterU laterV tails
      exact ⟨rfl, rest⟩

theorem NamedVar.layout_ne_close {v : NamedVar family} {r s : List Char} (word : Word v.name) :
    (v.layout bare).toList ++ r ≠ ')' :: s := by
  intro eq
  rw [layout_toList, List.append_assoc] at eq
  obtain ⟨-, tails⟩ := span_inj word (v := []) (fun _ mem => by cases mem) rfl rfl eq
  cases tails

theorem NamedUse.exists_layout (u : NamedUse family) :
    ∃ tail, (u.layout bare).toList = u.var.name.toList ++ '/' :: tail := by
  obtain ⟨v, recursivity⟩ := u
  cases recursivity with
  | recursive =>
    rw [layout, String.toList_append, NamedVar.layout_toList, List.append_assoc]
    exact ⟨_, rfl⟩
  | nonRecursive => exact ⟨_, v.layout_toList⟩

theorem NamedUse.layout_ne_close {u : NamedUse family} {r s : List Char} (word : Word u.var.name) :
    (u.layout bare).toList ++ r ≠ ')' :: s := by
  intro eq
  obtain ⟨tail, layout⟩ := u.exists_layout
  rw [layout, List.append_assoc] at eq
  obtain ⟨-, tails⟩ := span_inj word (v := []) (fun _ mem => by cases mem) rfl rfl eq
  cases tails

/-- A list of parameters and its closing bracket tell the variables. -/
theorem namedVars_inj {u v : List (NamedVar family)} {r s : List Char}
    (fitU : ∀ name ∈ u.map (·.name), Word name) (fitV : ∀ name ∈ v.map (·.name), Word name)
    (eq : (commas (u.map (·.layout bare))).toList ++ ')' :: r =
      (commas (v.map (·.layout bare))).toList ++ ')' :: s) : u = v ∧ r = s := by
  have each : Delimits (fun v : NamedVar family => v.layout bare) (fun v => Word v.name)
      (stops isUse) :=
    fun fit fit' stop stop' => delimits_namedVar fit fit' (stops_isWord stop) (stops_isWord stop')
  exact each.commas NamedVar.layout_ne_close (List.forall_mem_map.1 fitU)
    (List.forall_mem_map.1 fitV) eq

/-- A list of arguments and its closing bracket tell the uses. -/
theorem namedUses_inj {u v : List (NamedUse family)} {r s : List Char}
    (fitU : ∀ name ∈ namesOf u, Word name) (fitV : ∀ name ∈ namesOf v, Word name)
    (eq : (commas (u.map (·.layout bare))).toList ++ ')' :: r =
      (commas (v.map (·.layout bare))).toList ++ ')' :: s) : u = v ∧ r = s :=
  delimits_namedUse.commas NamedUse.layout_ne_close (List.forall_mem_map.1 fitU)
    (List.forall_mem_map.1 fitV) eq

/-! ## Values -/

namespace Text

/-- The run of letters, digits, underscores and signs at the front of a text, and what follows it. -/
def lead (text : List Char) : List Char × Option Char :=
  (text.takeWhile isSigned, (text.dropWhile isSigned).head?)

theorem lead_append {u r : List Char} (run : ∀ c ∈ u, isSigned c = true)
    (stop : stops isSigned r = true) : lead (u ++ r) = (u, r.head?) := by
  have none : r.takeWhile isSigned = [] ∧ r.dropWhile isSigned = r := by
    cases r with
    | nil => exact ⟨rfl, rfl⟩
    | cons c r => simp_all [stops]
  rw [lead, List.takeWhile_append_of_pos run, List.dropWhile_append_of_pos run, none.1, none.2,
    List.append_nil]

theorem Word.isSigned {word : String} (fits : Word word) : ∀ c ∈ word.toList, isSigned c = true := by
  intro c mem
  simp [Text.isSigned, fits c mem]

/-- Whether a blank follows. -/
def spaced (rest : List Char) : Bool := rest.head? = some ' '

theorem stops_of_spaced {runs : Char → Bool} {rest : List Char} (blank : runs ' ' = false)
    (space : spaced rest = true) : stops runs rest = true := by
  simp only [spaced, decide_eq_true_eq] at space
  simp [stops, space, blank]

end Text

/-- How the text of a literal starts, before a blank. -/
def Constant.lead : Constant → List Char × Option Char
  | .unit => ([], some '(')
  | .int n => ((toString n.toInt).toList, some ' ')
  | .bool b => ((toString b).toList, some ' ')
  | .string _ => ([], some '"')

/-- How the text of a value starts, before a blank. -/
def Value.lead : Value (NamedUse .value) → List Char × Option Char
  | .constant literal => literal.lead
  | .alias source => (source.var.name.toList, some '/')
  | .block _ _ => ("block".toList, some ' ')

theorem Constant.lead_layout (literal : Constant) {rest : List Char} (space : spaced rest = true) :
    Text.lead ((literal.layout bare).toList ++ rest) = literal.lead := by
  have stop : stops isSigned rest = true := stops_of_spaced rfl space
  have blank : rest.head? = some ' ' := by simpa [spaced] using space
  cases literal with
  | unit => rfl
  | int n => rw [layout, bare, lead_append (fun _ => isSigned_of_mem_toString) stop, blank, lead]
  | bool b =>
    have word : Word (toString b) := by cases b <;> decide
    rw [layout, bare, lead_append word.isSigned stop, blank, lead]
  | string text => rw [layout, bare, quoted_toList]; rfl

theorem Value.lead_layout {value : Value (NamedUse .value)} {rest : List Char}
    (word : ∀ name ∈ namesOf value.uses, Word name) (space : spaced rest = true) :
    Text.lead ((value.layout bare).toList ++ rest) = value.lead := by
  cases value with
  | constant literal => exact literal.lead_layout space
  | «alias» source =>
    obtain ⟨tail, text⟩ := source.exists_layout
    have name : Word source.var.name := word _ (by simp [namesOf, uses])
    rw [layout, text, List.append_assoc, lead_append name.isSigned rfl]
    rfl
  | block tag fields =>
    simp only [layout, bare, String.toList_append, List.append_assoc]
    have word : Word "block" := by decide
    exact lead_append word.isSigned rfl

/-- Numbers have no letters in them. -/
theorem toString_int_ne {n : Int} {c : Char} {word : List Char} (letter : c.isDigit = false)
    (sign : c ≠ '-') : (toString n).toList ≠ c :: word := by
  intro same
  rcases mem_toString_int (same ▸ List.mem_cons_self) with digit | rfl
  · rw [letter] at digit
    cases digit
  · exact sign rfl

/-- A constant can be read back up to the blank after it. -/
theorem Constant.delimits_layout : Delimits (Constant.layout bare) (fun _ => True) spaced := by
  intro one two r s _ _ space space' eq
  have leads : one.lead = two.lead := by rw [← one.lead_layout space, eq, two.lead_layout space']
  cases one with
  | unit =>
    cases two with
    | unit => exact ⟨rfl, List.append_cancel_left eq⟩
    | _ => simp [lead] at leads
  | int n =>
    cases two with
    | int m =>
      obtain ⟨same, rest⟩ := delimits_int trivial trivial (stops_of_spaced rfl space)
        (stops_of_spaced rfl space') eq
      rw [Int64.toInt_inj.1 same]
      exact ⟨rfl, rest⟩
    | bool b => cases b <;> exact absurd (Prod.mk.inj leads).1 (toString_int_ne rfl (by decide))
    | _ => simp [lead] at leads
  | bool b =>
    cases two with
    | int m => cases b <;> exact absurd (Prod.mk.inj leads).1.symm (toString_int_ne rfl (by decide))
    | bool b' =>
      have words : ∀ b b' : Bool, (toString b).toList = (toString b').toList → b = b' := by decide
      obtain rfl := words b b' (Prod.mk.inj leads).1
      exact ⟨rfl, List.append_cancel_left eq⟩
    | _ => simp [lead] at leads
  | string text =>
    cases two with
    | string text' =>
      obtain ⟨rfl, rest⟩ := delimits_quoted trivial trivial rfl rfl eq
      exact ⟨rfl, rest⟩
    | _ => simp [lead] at leads

theorem Constant.lead_ne_block (literal : Constant) : literal.lead ≠ ("block".toList, some ' ') := by
  intro same
  cases literal with
  | int n => exact absurd (Prod.mk.inj same).1 (toString_int_ne rfl (by decide))
  | bool b => cases b <;> exact absurd (Prod.mk.inj same).1 (by decide)
  | _ => simp [lead] at same

theorem Constant.lead_ne_name (literal : Constant) (name : List Char) :
    literal.lead ≠ (name, some '/') := by
  cases literal <;> simp [lead]

/-- A bound value can be read back up to the blank after it. -/
theorem Value.delimits_layout :
    Delimits (Value.layout bare) (fun value => ∀ name ∈ namesOf value.uses, Word name) spaced := by
  intro one two r s word word' space space' eq
  have leads : one.lead = two.lead := by rw [← lead_layout word space, eq, lead_layout word' space']
  cases one with
  | constant literal =>
    cases two with
    | constant literal' =>
      obtain ⟨rfl, rest⟩ := Constant.delimits_layout trivial trivial space space' eq
      exact ⟨rfl, rest⟩
    | «alias» source => exact absurd leads (literal.lead_ne_name _)
    | block tag fields => exact absurd leads literal.lead_ne_block
  | «alias» source =>
    cases two with
    | constant literal => exact absurd leads.symm (literal.lead_ne_name _)
    | «alias» source' =>
      obtain ⟨rfl, rest⟩ := delimits_namedUse (word _ (by simp [namesOf, uses]))
        (word' _ (by simp [namesOf, uses])) (stops_of_spaced rfl space) (stops_of_spaced rfl space') eq
      exact ⟨rfl, rest⟩
    | block tag fields => simp [lead] at leads
  | block tag fields =>
    cases two with
    | constant literal => exact absurd leads.symm literal.lead_ne_block
    | «alias» source => simp [lead] at leads
    | block tag' fields' =>
      simp only [layout, bare, String.toList_append, List.append_assoc,
        List.append_cancel_left_eq] at eq
      obtain ⟨rfl, tails⟩ := delimits_nat trivial trivial rfl rfl eq
      obtain ⟨rfl, rest⟩ := namedUses_inj word word' (List.append_cancel_left tails)
      exact ⟨rfl, rest⟩

/-! ## First lines -/

theorem delimits_visibility : Delimits Visibility.text (fun _ => True) (stops isWord) := by
  intro one two r s _ _ stop stop' eq
  have word (visibility : Visibility) : Word visibility.text := by cases visibility <;> decide
  obtain ⟨same, rest⟩ := delimits_word (word one) (word two) stop stop' eq
  refine ⟨?_, rest⟩
  cases one <;> cases two <;> simp_all [Visibility.text]

/-- The word that opens a definition. -/
def NamedHeader.word : NamedHeader → String
  | .root _ => "root"
  | .function .. => "fun"
  | .continuation _ => "cont"

theorem NamedHeader.word_word (header : NamedHeader) : Word header.word := by
  cases header <;> simp only [word] <;> decide

theorem NamedHeader.exists_layout (header : NamedHeader) (parameters : List (NamedVar .value)) :
    ∃ tail, (header.layout bare parameters).toList = header.word.toList ++ tail ∧
      ∀ rest, stops isWord (tail ++ rest) = true := by
  cases header <;> simp only [layout, bare, String.toList_append, List.append_assoc] <;>
    exact ⟨_, rfl, fun _ => rfl⟩

/-- The first line of a definition tells its header and its parameters. -/
theorem NamedHeader.delimits_layout :
    Delimits (fun line : NamedHeader × List (NamedVar .value) => line.1.layout bare line.2)
      (fun line => (∀ name ∈ line.1.names, Word name) ∧ ∀ name ∈ line.2.map (·.name), Word name)
      (fun _ => true) := by
  rintro ⟨one, parameters⟩ ⟨two, parameters'⟩ r s ⟨own, word⟩ ⟨own', word'⟩ _ _ eq
  have words : one.word = two.word := by
    obtain ⟨tail, text, stop⟩ := one.exists_layout parameters
    obtain ⟨tail', text', stop'⟩ := two.exists_layout parameters'
    simp only [text, text', List.append_assoc] at eq
    exact (delimits_word one.word_word two.word_word (stop r) (stop' s) eq).1
  cases one with
  | root returnTo =>
    cases two with
    | root returnTo' =>
      simp only [names, List.forall_mem_singleton] at own own'
      simp only [layout, bare, String.toList_append, List.append_assoc,
        List.append_cancel_left_eq] at eq
      obtain ⟨rfl, tails⟩ := namedVars_inj word word' eq
      obtain ⟨rfl, rest⟩ := delimits_namedVar own own' rfl rfl (List.append_cancel_left tails)
      exact ⟨rfl, List.append_cancel_left rest⟩
    | _ => simp [NamedHeader.word] at words
  | function name returnTo visibility =>
    cases two with
    | function name' returnTo' visibility' =>
      simp only [names, List.forall_mem_cons] at own own'
      simp only [layout, bare, String.toList_append, List.append_assoc,
        List.append_cancel_left_eq] at eq
      obtain ⟨rfl, list⟩ := delimits_namedVar own.1 own'.1 rfl rfl eq
      obtain ⟨rfl, answer⟩ := namedVars_inj word word' (List.append_cancel_left list)
      obtain ⟨rfl, last⟩ := delimits_namedVar own.2.1 own'.2.1 rfl rfl (List.append_cancel_left answer)
      obtain ⟨rfl, rest⟩ := delimits_visibility trivial trivial rfl rfl (List.append_cancel_left last)
      exact ⟨rfl, List.append_cancel_left rest⟩
    | _ => simp [NamedHeader.word] at words
  | continuation name =>
    cases two with
    | continuation name' =>
      simp only [names, List.forall_mem_singleton] at own own'
      simp only [layout, bare, String.toList_append, List.append_assoc,
        List.append_cancel_left_eq] at eq
      obtain ⟨rfl, tails⟩ := delimits_namedVar own own' rfl rfl eq
      obtain ⟨rfl, rest⟩ := namedVars_inj word word' (List.append_cancel_left tails)
      exact ⟨rfl, List.append_cancel_left rest⟩
    | _ => simp [NamedHeader.word] at words

end ContinuationIR
