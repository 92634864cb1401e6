import Mathlib.Tactic.IntervalCases
import VectorMemory.Json.Printer
import VectorMemory.Json.Reader

/-! The text of a document determines the document: reading gives back what was
printed. The exceptions are numbers that are no literals, and strings that denote no
text. -/
namespace VectorMemory

namespace Json

/-! ### Strings -/

/-- What is read for a character of a printed string. Only the control characters
without a short form are read as units. -/
def piece (c : Char) : Piece :=
  if c.toNat < 0x20 ∧ c ∉ ['\x08', '\x0c', '\n', '\r', '\t'] then .unit c.toNat else .plain c

theorem unitValue?_hexPair : ∀ n < 0x20,
    unitValue? '0' '0' (Nat.digitChar (n / 16)) (Nat.digitChar (n % 16)) = some n := by
  decide

theorem readPieces_short {mark c : Char} (rest : List Char) (short : unescape? mark = some c) :
    readPieces ('\\' :: mark :: rest) =
      (readPieces rest).map fun (pieces, after) => (.plain c :: pieces, after) := by
  rw [readPieces]
  · rw [short]
    cases readPieces rest <;> rfl
  · rintro a b d e tail rfl -
    cases short

theorem readPieces_plain {c : Char} (rest : List Char) (printable : 0x20 ≤ c.toNat)
    (quote : c ≠ '"') (backslash : c ≠ '\\') :
    readPieces (c :: rest) =
      (readPieces rest).map fun (pieces, after) => (.plain c :: pieces, after) := by
  rw [readPieces]
  · rw [if_neg (by simp [backslash, printable])]
    cases readPieces rest <;> rfl
  · exact quote
  · exact fun _ _ _ _ _ same _ => backslash same
  · exact fun _ _ same _ => backslash same

theorem readPieces_unit {a b : Char} {value : Nat} (rest : List Char)
    (unit : unitValue? '0' '0' a b = some value) :
    readPieces ('\\' :: 'u' :: '0' :: '0' :: a :: b :: rest) =
      (readPieces rest).map fun (pieces, after) => (.unit value :: pieces, after) := by
  rw [readPieces, unit]
  cases readPieces rest <;> rfl

theorem readPieces_escape (c : Char) (rest : List Char) :
    readPieces (escape c ++ rest) =
      (readPieces rest).map fun (pieces, after) => (piece c :: pieces, after) := by
  by_cases short : c ∈ ['"', '\\', '\x08', '\x0c', '\n', '\r', '\t']
  · simp only [List.mem_cons, List.not_mem_nil, or_false] at short
    rcases short with rfl | rfl | rfl | rfl | rfl | rfl | rfl <;> exact readPieces_short rest rfl
  · simp only [List.mem_cons, List.not_mem_nil, or_false, not_or] at short
    obtain ⟨quote, backslash, b, f, n, r, t⟩ := short
    by_cases control : c.toNat < 0x20
    · have escaped : escape c = '\\' :: 'u' :: '0' :: '0' :: hexPair c.toNat := by
        simp [escape, quote, backslash, b, f, n, r, t, control]
      have read : piece c = .unit c.toNat := if_pos ⟨control, by simp [b, f, n, r, t]⟩
      rw [escaped, read]
      exact readPieces_unit rest (unitValue?_hexPair c.toNat control)
    · have escaped : escape c = [c] := by
        simp [escape, quote, backslash, b, f, n, r, t, control]
      have read : piece c = .plain c := if_neg fun h => control h.1
      rw [escaped, read]
      exact readPieces_plain rest (Nat.le_of_not_lt control) quote backslash

theorem assemble_piece (c : Char) (pieces : List Piece) :
    assemble (piece c :: pieces) = (assemble pieces).map (c :: ·) := by
  unfold piece
  split
  next control =>
    have high : isHighUnit c.toNat = false := by
      simp only [isHighUnit, Bool.and_eq_false_iff, decide_eq_false_iff_not]
      omega
    have low : isLowUnit c.toNat = false := by
      simp only [isLowUnit, Bool.and_eq_false_iff, decide_eq_false_iff_not]
      omega
    rcases pieces with _ | ⟨_ | _, _⟩ <;> simp [assemble, high, low, Char.ofNat_toNat]
  next => rfl

theorem readPieces_print (text rest : List Char) :
    readPieces (text.flatMap escape ++ '"' :: rest) = some (text.map piece, rest) := by
  induction text with
  | nil => rfl
  | cons c text ih =>
    rw [List.flatMap_cons, List.append_assoc, readPieces_escape, ih]
    rfl

theorem assemble_map_piece (text : List Char) : assemble (text.map piece) = some text := by
  induction text with
  | nil => rfl
  | cons c text ih => rw [List.map_cons, assemble_piece, ih, Option.map_some]

theorem readString_print (text : String) (rest : List Char) :
    readString (text.toList.flatMap escape ++ '"' :: rest) = some (some text, rest) := by
  rw [readString, readPieces_print]
  simp [assemble_map_piece]

/-! ### Numbers -/

structure Digits (digits : List Char) : Prop where
  nonempty : digits ≠ []
  isDigit : ∀ c ∈ digits, c.isDigit = true

end Json

/-- A literal of the grammar: no part of it lacks digits, and a zero stands alone
before the point. -/
structure Numeral.Proper (n : Numeral) : Prop where
  whole : Json.Digits n.whole
  zero : n.whole.head? = some '0' → n.whole = ['0']
  fraction : ∀ digits ∈ n.fraction, Json.Digits digits
  exponent : ∀ part ∈ n.exponent, Json.Digits part.2

namespace Json

/-- No number goes on in what follows. -/
def Closes (rest : List Char) : Prop :=
  ∀ c ∈ rest.head?, c.isDigit = false ∧ c ≠ '.' ∧ c ≠ 'e' ∧ c ≠ 'E'

theorem closes_cons {c : Char} {rest : List Char}
    (other : c.isDigit = false ∧ c ≠ '.' ∧ c ≠ 'e' ∧ c ≠ 'E') : Closes (c :: rest) := by
  rintro _ ⟨⟩
  exact other

theorem readDigits_append {digits rest : List Char} (proper : Digits digits)
    (stop : ∀ c ∈ rest.head?, c.isDigit = false) :
    readDigits (digits ++ rest) = some (digits, rest) := by
  have none : rest.takeWhile Char.isDigit = [] ∧ rest.dropWhile Char.isDigit = rest := by
    cases rest with
    | nil => exact ⟨rfl, rfl⟩
    | cons c rest => simp [stop c rfl]
  rw [readDigits, List.takeWhile_append_of_pos proper.isDigit, none.1, List.append_nil,
    List.dropWhile_append_of_pos proper.isDigit, none.2]
  cases digits with
  | nil => exact absurd rfl proper.nonempty
  | cons => rfl

theorem readWhole_append {digits rest : List Char} (proper : Digits digits)
    (zero : digits.head? = some '0' → digits = ['0'])
    (stop : ∀ c ∈ rest.head?, c.isDigit = false) :
    readWhole (digits ++ rest) = some (digits, rest) := by
  obtain ⟨c, tail, rfl⟩ := List.exists_cons_of_ne_nil proper.nonempty
  by_cases first : c = '0'
  · subst first
    obtain ⟨-, rfl⟩ := List.cons.inj (zero rfl)
    cases rest with
    | nil => rfl
    | cons d rest => simp [readWhole, stop d rfl]
  · rw [← readDigits_append proper stop, List.cons_append, readWhole]
    exact fun _ same => first (List.cons.inj same).1

def printFraction : Option (List Char) → List Char
  | none => []
  | some digits => '.' :: digits

def printExponent : Option (Sign × List Char) → List Char
  | none => []
  | some (sign, digits) => 'e' :: (printSign sign ++ digits)

def printMagnitude (n : Numeral) : List Char :=
  n.whole ++ (printFraction n.fraction ++ printExponent n.exponent)

theorem printNumeral_eq (n : Numeral) :
    printNumeral n = (if n.negative then ['-'] else []) ++ printMagnitude n := by
  obtain ⟨negative, whole, _ | fraction, _ | exponent⟩ := n <;>
    simp [printNumeral, printMagnitude, printFraction, printExponent]

theorem readFraction_print {fraction : Option (List Char)} {rest : List Char}
    (proper : ∀ digits ∈ fraction, Digits digits)
    (stop : ∀ c ∈ rest.head?, c.isDigit = false ∧ c ≠ '.') :
    readFraction (printFraction fraction ++ rest) = some (fraction, rest) := by
  cases fraction with
  | none =>
    rw [printFraction, List.nil_append, readFraction]
    rintro tail rfl
    exact (stop '.' rfl).2 rfl
  | some digits =>
    rw [printFraction, List.cons_append, readFraction,
      readDigits_append (proper digits rfl) fun c first => (stop c first).1]
    rfl

theorem readSign_print (sign : Sign) {c : Char} (rest : List Char) (digit : c.isDigit = true) :
    readSign (printSign sign ++ c :: rest) = (sign, c :: rest) := by
  cases sign with
  | plus | minus => rfl
  | none =>
    rw [printSign, List.nil_append, readSign]
    all_goals
      rintro _ ⟨⟩
      cases digit

theorem readExponent_print {exponent : Option (Sign × List Char)} {rest : List Char}
    (proper : ∀ part ∈ exponent, Digits part.2) (closes : Closes rest) :
    readExponent (printExponent exponent ++ rest) = some (exponent, rest) := by
  cases exponent with
  | none =>
    rw [printExponent, List.nil_append]
    cases rest with
    | nil => rfl
    | cons c rest =>
      obtain ⟨-, -, lower, upper⟩ := closes c rfl
      simp [readExponent, lower, upper]
  | some part =>
    obtain ⟨sign, digits⟩ := part
    have some : Digits digits := proper _ rfl
    have read := readDigits_append some fun c first => (closes c first).1
    obtain ⟨c, tail, rfl⟩ := List.exists_cons_of_ne_nil some.nonempty
    have signed := readSign_print sign (tail ++ rest) (some.isDigit c List.mem_cons_self)
    simp only [printExponent, List.cons_append, List.append_assoc, readExponent, signed]
    rw [← List.cons_append, read]
    rfl

theorem readMagnitude_print {n : Numeral} {rest : List Char} (proper : n.Proper)
    (closes : Closes rest) :
    readMagnitude n.negative (printMagnitude n ++ rest) = some (n, rest) := by
  have exponent : ∀ c ∈ (printExponent n.exponent ++ rest).head?, c.isDigit = false ∧ c ≠ '.' := by
    cases n.exponent with
    | none => exact fun c first => ⟨(closes c first).1, (closes c first).2.1⟩
    | some part =>
      rintro _ ⟨⟩
      decide
  have fraction : ∀ c ∈ (printFraction n.fraction ++ (printExponent n.exponent ++ rest)).head?,
      c.isDigit = false := by
    cases n.fraction with
    | none => exact fun c first => (exponent c first).1
    | some digits =>
      rintro _ ⟨⟩
      decide
  rw [readMagnitude, printMagnitude, List.append_assoc, List.append_assoc,
    readWhole_append proper.whole proper.zero fraction]
  simp only [Option.bind_eq_bind, Option.bind_some, readFraction_print proper.fraction exponent,
    readExponent_print proper.exponent closes]
  rfl

/-! ### Values -/

end Json

/-- A document whose numbers are literals and whose strings denote texts. -/
inductive Json.Proper : Json → Prop where
  | null : Proper .null
  | bool (value : Bool) : Proper (.bool value)
  | number {literal : Numeral} : literal.Proper → Proper (.number literal)
  | string (text : String) : Proper (.string text)
  | array {items : List Json} : (∀ j ∈ items, Proper j) → Proper (.array items)
  | object {members : List (String × Json)} : (∀ m ∈ members, Proper m.2) → Proper (.object members)

namespace Json

def Legible (j : Json) : Prop :=
  ∀ fuel rest, j.print.length ≤ fuel → Closes rest → readValue fuel (j.print ++ rest) = some (j, rest)

theorem digit_cases {c : Char} (digit : c.isDigit = true) :
    c ∈ ['0', '1', '2', '3', '4', '5', '6', '7', '8', '9'] := by
  have bounds : 48 ≤ c.toNat ∧ c.toNat ≤ 57 := by
    simpa [Char.isDigit, UInt32.le_iff_toNat_le] using digit
  rw [← Char.ofNat_toNat c]
  generalize c.toNat = n at bounds
  obtain ⟨least, greatest⟩ := bounds
  interval_cases n <;> decide

theorem readValue_digit {c : Char} (digit : c.isDigit = true) (fuel : Nat) (cs : List Char) :
    readValue (fuel + 1) (c :: cs) =
      (readMagnitude false (c :: cs)).map fun (literal, after) => (.number literal, after) := by
  have tens := digit_cases digit
  simp only [List.mem_cons, List.not_mem_nil, or_false] at tens
  rcases tens with rfl | rfl | rfl | rfl | rfl | rfl | rfl | rfl | rfl | rfl <;> rfl

theorem printMagnitude_head {n : Numeral} (proper : n.Proper) :
    ∃ c cs, printMagnitude n = c :: cs ∧ c.isDigit = true := by
  obtain ⟨c, cs, whole⟩ := List.exists_cons_of_ne_nil proper.whole.nonempty
  have digit : c.isDigit = true := proper.whole.isDigit c (whole ▸ List.mem_cons_self)
  rw [printMagnitude, whole]
  exact ⟨c, _, rfl, digit⟩

/-- The first character of a value is neither blank nor the end of an array. -/
theorem print_head {j : Json} (proper : j.Proper) :
    ∃ c cs, j.print = c :: cs ∧ isBlank c = false ∧ c ≠ ']' := by
  cases proper with
  | null => exact ⟨_, _, rfl, rfl, by decide⟩
  | bool value => cases value <;> exact ⟨_, _, rfl, rfl, by decide⟩
  | string text => exact ⟨_, _, rfl, rfl, by decide⟩
  | @array items => cases items <;> exact ⟨_, _, rfl, rfl, by decide⟩
  | @object members => cases members <;> exact ⟨_, _, rfl, rfl, by decide⟩
  | @number literal proper =>
    obtain ⟨c, cs, magnitude, digit⟩ := printMagnitude_head proper
    rw [print, printNumeral_eq, magnitude]
    cases literal.negative with
    | true => exact ⟨_, _, rfl, rfl, by decide⟩
    | false =>
      have other : ∀ d ∈ ['0', '1', '2', '3', '4', '5', '6', '7', '8', '9'],
          isBlank d = false ∧ d ≠ ']' := by simp [isBlank]
      exact ⟨c, cs, rfl, other c (digit_cases digit)⟩

theorem legible_of_succ {j : Json} (proper : j.Proper)
    (read : ∀ fuel rest, j.print.length ≤ fuel + 1 → Closes rest →
      readValue (fuel + 1) (j.print ++ rest) = some (j, rest)) : j.Legible := by
  intro fuel rest enough
  obtain ⟨c, cs, head, -⟩ := print_head proper
  cases fuel with
  | zero =>
    rw [head] at enough
    cases enough
  | succ fuel => exact read fuel rest enough

theorem readValue_number {literal : Numeral} (proper : literal.Proper) {rest : List Char}
    (closes : Closes rest) (fuel : Nat) :
    readValue (fuel + 1) (printNumeral literal ++ rest) = some (.number literal, rest) := by
  have read := readMagnitude_print proper closes
  rw [printNumeral_eq]
  cases negative : literal.negative with
  | true =>
    rw [negative] at read
    exact congrArg (Option.map _) read
  | false =>
    obtain ⟨c, cs, magnitude, digit⟩ := printMagnitude_head proper
    rw [negative, magnitude, List.cons_append] at read
    rw [magnitude, if_neg Bool.false_ne_true, List.nil_append, List.cons_append,
      readValue_digit digit, read]
    rfl

theorem readValue_string (text : String) (rest : List Char) (fuel : Nat) :
    readValue (fuel + 1) (printString text ++ rest) = some (.string text, rest) := by
  have read := readString_print text rest
  rw [printString, List.cons_append, List.append_assoc]
  exact congrArg (Option.bind · _) read

theorem readItems_print {first : Json} {items : List Json} {rest : List Char} {fuel : Nat}
    (legible : ∀ j ∈ first :: items, j.Legible)
    (enough : (first.print ++ printItems items).length ≤ fuel) :
    readItems fuel (first.print ++ (printItems items ++ rest)) = some (first :: items, rest) := by
  rw [List.length_append] at enough
  induction items generalizing first fuel with
  | nil =>
    rw [printItems, List.length_singleton] at enough
    cases fuel with
    | zero => cases enough
    | succ fuel =>
      have read := legible first List.mem_cons_self fuel (']' :: rest)
        (Nat.le_of_succ_le_succ enough) (closes_cons (by decide))
      rw [printItems, List.singleton_append, readItems, read]
      rfl
  | cons item items ih =>
    rw [printItems, List.length_cons, List.length_append] at enough
    cases fuel with
    | zero => cases enough
    | succ fuel =>
      have read := legible first List.mem_cons_self fuel
        (',' :: (item.print ++ (printItems items ++ rest))) (by omega) (closes_cons (by decide))
      have later : readItems fuel (item.print ++ (printItems items ++ rest)) =
          some (item :: items, rest) := ih (fun j member => legible j (.tail _ member)) (by omega)
      rw [printItems, List.cons_append, List.append_assoc, readItems, read]
      exact congrArg (Option.bind · _) later

theorem readValue_bracket {c : Char} (visible : isBlank c = false) (other : c ≠ ']') (fuel : Nat)
    (cs : List Char) :
    readValue (fuel + 1) ('[' :: c :: cs) =
      (readItems fuel (c :: cs)).map fun (items, after) => (.array items, after) := by
  have start : skipBlanks (c :: cs) = c :: cs := by
    rw [skipBlanks, List.dropWhile_cons_of_neg]
    rw [visible]
    decide
  have bracket : skipBlanks ('[' :: c :: cs) = '[' :: c :: cs := rfl
  simp [readValue, bracket, start, other]

theorem readValue_array {items : List Json} {rest : List Char} {fuel : Nat}
    (proper : ∀ j ∈ items, j.Proper) (legible : ∀ j ∈ items, j.Legible)
    (enough : (print (.array items)).length ≤ fuel + 1) :
    readValue (fuel + 1) (print (.array items) ++ rest) = some (.array items, rest) := by
  cases items with
  | nil => rfl
  | cons first items =>
    rw [print, List.length_cons] at enough
    have read : readItems fuel (first.print ++ (printItems items ++ rest)) =
        some (first :: items, rest) := readItems_print legible (Nat.le_of_succ_le_succ enough)
    obtain ⟨c, cs, head, visible, other⟩ := print_head (proper first List.mem_cons_self)
    rw [head, List.cons_append] at read
    rw [print, List.cons_append, List.append_assoc, head, List.cons_append,
      readValue_bracket visible other, read]
    rfl

def keyed (members : List (String × Json)) : List (Option String × Json) :=
  members.map fun (key, value) => (some key, value)

theorem readMembers_print {key : String} {value : Json} {members : List (String × Json)}
    {rest : List Char} {fuel : Nat} (legible : ∀ m ∈ (key, value) :: members, m.2.Legible)
    (enough : (printString key ++ ':' :: (value.print ++ printMembers members)).length ≤ fuel) :
    readMembers fuel (printString key ++ ':' :: (value.print ++ (printMembers members ++ rest))) =
      some (keyed ((key, value) :: members), rest) := by
  rw [List.length_append, List.length_cons, List.length_append] at enough
  induction members generalizing key value fuel with
  | nil =>
    rw [printMembers, List.length_singleton] at enough
    cases fuel with
    | zero => cases enough
    | succ fuel =>
      have name := readString_print key (':' :: (value.print ++ '}' :: rest))
      have read := legible _ List.mem_cons_self fuel ('}' :: rest) (by dsimp only; omega)
        (closes_cons (by decide))
      rw [printString, printMembers, List.cons_append, List.append_assoc]
      refine (congrArg (Option.bind · _) name).trans ?_
      exact congrArg (Option.bind · _) read
  | cons member members ih =>
    obtain ⟨key', value'⟩ := member
    rw [printMembers, List.length_cons, List.length_append, List.length_cons, List.length_append]
      at enough
    cases fuel with
    | zero => cases enough
    | succ fuel =>
      let behind := printString key' ++ ':' :: (value'.print ++ (printMembers members ++ rest))
      have name := readString_print key (':' :: (value.print ++ ',' :: behind))
      have read := legible _ List.mem_cons_self fuel (',' :: behind) (by dsimp only; omega)
        (closes_cons (by decide))
      have later : readMembers fuel behind = some (keyed ((key', value') :: members), rest) :=
        ih (fun m member => legible m (.tail _ member)) (by omega)
      have text : printMembers ((key', value') :: members) ++ rest = ',' :: behind := by
        simp [printMembers, behind]
      rw [text, printString, List.cons_append, List.append_assoc]
      refine (congrArg (Option.bind · _) name).trans ?_
      refine (congrArg (Option.bind · _) read).trans ?_
      exact congrArg (Option.bind · _) later

theorem ofMembers_keyed (members : List (String × Json)) :
    ofMembers (keyed members) = .object members := by
  have all : (keyed members).mapM (fun member => member.1.map (·, member.2)) = some members := by
    induction members with
    | nil => rfl
    | cons member members ih =>
      rw [keyed, List.map_cons, List.mapM_cons, ← keyed, ih]
      rfl
  unfold ofMembers
  split
  next found same => exact congrArg Json.object (Option.some.inj (same.symm.trans all))
  next missing => cases missing.symm.trans all

theorem readValue_object {members : List (String × Json)} {rest : List Char} {fuel : Nat}
    (legible : ∀ m ∈ members, m.2.Legible)
    (enough : (print (.object members)).length ≤ fuel + 1) :
    readValue (fuel + 1) (print (.object members) ++ rest) = some (.object members, rest) := by
  cases members with
  | nil => rfl
  | cons first members =>
    obtain ⟨key, value⟩ := first
    rw [print, List.length_cons] at enough
    have read : readMembers fuel (printString key ++ ':' ::
        (value.print ++ (printMembers members ++ rest))) =
          some (keyed ((key, value) :: members), rest) :=
      readMembers_print legible (Nat.le_of_succ_le_succ enough)
    have text : print (.object ((key, value) :: members)) ++ rest =
        '{' :: (printString key ++ ':' :: (value.print ++ (printMembers members ++ rest))) := by
      simp [print]
    rw [text]
    refine (congrArg (Option.map _) read).trans ?_
    exact congrArg (fun j => some (j, rest)) (ofMembers_keyed _)

theorem Proper.legible {j : Json} (proper : j.Proper) : j.Legible := by
  induction proper with
  | null => exact legible_of_succ .null fun _ _ _ _ => rfl
  | bool value => cases value <;> exact legible_of_succ (.bool _) fun _ _ _ _ => rfl
  | number literal =>
    exact legible_of_succ (.number literal) fun fuel _ _ closes => readValue_number literal closes fuel
  | string text =>
    exact legible_of_succ (.string text) fun fuel rest _ _ => readValue_string text rest fuel
  | array proper ih =>
    exact legible_of_succ (.array proper) fun _ _ enough _ => readValue_array proper ih enough
  | object proper ih =>
    exact legible_of_succ (.object proper) fun _ _ enough _ => readValue_object ih enough

/-- Proper documents with the same text are the same. -/
theorem Proper.print_injective {a b : Json} (proper : a.Proper) (proper' : b.Proper)
    (same : a.print = b.print) : a = b := by
  have closed : Closes [] := by rintro _ ⟨⟩
  have read := proper.legible a.print.length [] (Nat.le_refl _) closed
  have read' := proper'.legible b.print.length [] (Nat.le_refl _) closed
  rw [same, read'] at read
  exact (congrArg Prod.fst (Option.some.inj read)).symm

end Json

end VectorMemory
