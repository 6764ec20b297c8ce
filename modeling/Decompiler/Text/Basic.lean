/-!
Texts as lists of characters: blanks, lines, parts, numerals and identifiers.
-/

namespace Decompiler.Text

/-! ### Blanks

A blank is a character with the Unicode property White_Space. Trimming a text drops the blanks at its
two ends and keeps those inside it. -/

def blankRanges : List (Nat × Nat) :=
  [(0x9, 0xD), (0x20, 0x20), (0x85, 0x85), (0xA0, 0xA0), (0x1680, 0x1680), (0x2000, 0x200A),
    (0x2028, 0x2029), (0x202F, 0x202F), (0x205F, 0x205F), (0x3000, 0x3000)]

def isBlank (c : Char) : Bool :=
  blankRanges.any fun range => range.1 ≤ c.toNat && c.toNat ≤ range.2

/-- A text without the longest run at its end whose characters all pass the test. -/
def dropEndWhile (test : Char → Bool) (text : List Char) : List Char :=
  (text.reverse.dropWhile test).reverse

def trimStart (text : List Char) : List Char := text.dropWhile isBlank

def trimEnd (text : List Char) : List Char := dropEndWhile isBlank text

def trim (text : List Char) : List Char := trimEnd (trimStart text)

@[simp] theorem trim_nil : trim [] = [] := rfl

/-- A text that starts and ends with other characters is its own trimming. -/
theorem trim_eq_self {text : List Char} (first : ∀ c ∈ text.head?, isBlank c = false)
    (last : ∀ c ∈ text.getLast?, isBlank c = false) : trim text = text := by
  have start : trimStart text = text := by
    cases text with
    | nil => rfl
    | cons c rest => simp [trimStart, first c (by simp)]
  rw [trim, start, trimEnd, dropEndWhile]
  cases h : text.reverse with
  | nil => simp_all
  | cons c rest =>
      have hc : isBlank c = false := last c (by rw [List.getLast?_eq_head?_reverse, h]; simp)
      rw [List.dropWhile_cons, hc, if_neg (by simp), ← h, List.reverse_reverse]

/-! ### Lines

A text is cut after each of its line feeds; the pieces joined together are the text again. A line is a
piece without its line ending, which is the line feed and one carriage return before it. -/

/-- The pieces of a text, each but the last closed by a line feed. -/
def pieces : List Char → List (List Char)
  | [] => []
  | c :: rest =>
      if c = '\n' then [c] :: pieces rest
      else
        match pieces rest with
        | [] => [[c]]
        | piece :: more => (c :: piece) :: more

/-- A piece without its line ending. A carriage return that no line feed follows stays. -/
def chomp (piece : List Char) : List Char :=
  match piece.reverse with
  | '\n' :: '\r' :: rest => rest.reverse
  | '\n' :: rest => rest.reverse
  | _ => piece

def lines (text : List Char) : List (List Char) := (pieces text).map chomp

/-- No character is lost between the pieces. -/
theorem flatten_pieces (text : List Char) : (pieces text).flatten = text := by
  induction text with
  | nil => rfl
  | cons c rest ih =>
      unfold pieces
      split
      · simp [ih]
      · split <;> simp_all

/-! ### Cutting

At every character of a kind, at the first occurrence of a mark, at the last occurrence of a character. -/

/-- The parts between the characters that pass the test, one more than there are such characters. -/
def split (test : Char → Bool) : List Char → List (List Char)
  | [] => [[]]
  | c :: rest =>
      if test c then [] :: split test rest
      else
        match split test rest with
        | [] => [[c]]
        | part :: more => (c :: part) :: more

/-- What stands before and after the first occurrence of a mark. -/
def cut (mark : List Char) : List Char → Option (List Char × List Char)
  | [] => (mark.isPrefixOf? []).map fun after => ([], after)
  | c :: rest =>
      match mark.isPrefixOf? (c :: rest) with
      | some after => some ([], after)
      | none => (cut mark rest).map fun (before, after) => (c :: before, after)

/-- What stands before the last occurrence of a character. -/
def beforeLast (mark : Char) (text : List Char) : Option (List Char) :=
  match text.reverse.dropWhile (· != mark) with
  | [] => none
  | _ :: before => some before.reverse

/-- What stands between two marks that open and close a text, without overlapping. -/
def between (opening closing text : List Char) : Option (List Char) :=
  (opening.isPrefixOf? text).bind fun rest => closing.isSuffixOf? rest

theorem split_ne_nil (test : Char → Bool) (text : List Char) : split test text ≠ [] := by
  cases text with
  | nil => simp [split]
  | cons c rest =>
      unfold split
      split
      · simp
      · split <;> simp

/-! ### Numerals

A numeral is a non-empty run of ASCII digits, leading zeros allowed. Each reader takes the bound that
its value must stay under, and refuses what does not fit. -/

def isNumeral (text : List Char) : Bool := !text.isEmpty && text.all Char.isDigit

def numeral? (bound : Nat) (text : List Char) : Option Nat :=
  if isNumeral text then
    let value := Nat.ofDigitChars 10 text 0
    if value < bound then some value else none
  else none

/-- A numeral that may carry a plus sign. -/
def natural? (bound : Nat) : List Char → Option Nat
  | '+' :: digits => numeral? bound digits
  | digits => numeral? bound digits

/-- A numeral that may carry either sign, with a value from `-bound` to `bound - 1`. -/
def integer? (bound : Nat) : List Char → Option Int
  | '-' :: digits => (numeral? (bound + 1) digits).map fun n => -(n : Int)
  | digits => (natural? bound digits).map fun n => (n : Int)

def digits (n : Nat) : List Char := Nat.toDigits 10 n

theorem isNumeral_digits (n : Nat) : isNumeral (digits n) := by
  have h : ∀ c ∈ Nat.toDigits 10 n, c.isDigit = true := fun c hc =>
    Nat.isDigit_of_mem_toDigits (by decide) (by decide) hc
  simpa [isNumeral, digits, List.isEmpty_iff] using h

/-- A number below the bound is read back from its digits. -/
theorem numeral?_digits {bound n : Nat} (h : n < bound) : numeral? bound (digits n) = some n := by
  have hn : Nat.ofDigitChars 10 (digits n) 0 = n := Nat.ofDigitChars_ten_toDigits
  simp [numeral?, isNumeral_digits, hn, h]

/-! ### Identifiers

An identifier is a letter or an underscore followed by letters, digits and underscores, all of ASCII: a
letter outside ASCII makes a name that is no identifier here. -/

def isIdentifierStart (c : Char) : Bool := c = '_' || c.isAlpha

def isIdentifierPart (c : Char) : Bool := c = '_' || c.isAlphanum

def isIdentifier : List Char → Bool
  | [] => false
  | c :: rest => isIdentifierStart c && rest.all isIdentifierPart

/-- An underscore in place of each character that an identifier cannot have there, and then no
underscores at either end; a lone underscore if nothing is left. -/
def sanitize (text : List Char) : List Char :=
  let keep (test : Char → Bool) (c : Char) : Char := if test c then c else '_'
  let replaced :=
    match text with
    | [] => []
    | c :: rest => keep isIdentifierStart c :: rest.map (keep isIdentifierPart)
  match dropEndWhile (· = '_') (replaced.dropWhile (· = '_')) with
  | [] => ['_']
  | name => name

end Decompiler.Text
