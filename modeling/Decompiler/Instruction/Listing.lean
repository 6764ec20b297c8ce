import Decompiler.Instruction.Basic
import Decompiler.Text.Basic

/-!
Listings. A line of a listing holds an instruction if one of its words is a number and the next is
a mnemonic; whatever stands before the number is decoration, except for a line number in the first
place. All other lines are passed over. A line number holds until the next one, and an
`EXTENDED_ARG` lends the high bytes of its argument to the instruction that follows it.
-/

namespace Decompiler.Listing

/-- The places in a text where a word begins, each given by the text from there on. -/
def wordStarts (afterBlank : Bool) : List Char → List (List Char)
  | [] => []
  | c :: rest =>
      if Text.isBlank c then wordStarts true rest
      else if afterBlank then (c :: rest) :: wordStarts false rest
      else wordStarts false rest

def word (text : List Char) : List Char := text.takeWhile fun c => !Text.isBlank c

def afterWord (text : List Char) : List Char := text.dropWhile fun c => !Text.isBlank c

def isMnemonic : List Char → Bool
  | [] => false
  | c :: rest => c.isUpper && rest.all fun d => d.isUpper || d = '_'

/-- The words of a line that holds an instruction, each with the text after it. -/
structure Columns where
  leading : List (List Char)
  offset : List Char
  opname : List Char
  operands : List (List Char)

/-- The first number that a mnemonic follows is the offset. -/
def columns? : List (List Char) → Option Columns
  | offset :: opname :: operands =>
      if Text.isNumeral (word offset) && isMnemonic (word opname) then
        some ⟨[], offset, opname, operands⟩
      else
        (columns? (opname :: operands)).map fun columns =>
          { columns with leading := offset :: columns.leading }
  | _ => none

/-- What an argument stands for: the text from a parenthesis that follows it to the last one of
the line, if there is anything between the two. -/
def meaning? (text : List Char) : Option String :=
  match Text.trim text with
  | '(' :: rest =>
      match Text.beforeLast ')' rest with
      | some (c :: inner) => some (String.ofList (c :: inner))
      | _ => none
  | _ => none

/-- The instruction that a line holds, with the line number only if this line names it. A mnemonic
has an argument only if a number follows it. -/
def readLine? (line : List Char) : Option Instruction :=
  (columns? (wordStarts true line)).bind fun columns =>
    (Text.numeral? Instruction.offsetBound (word columns.offset)).map fun offset =>
      let lineNum := columns.leading.head?.bind fun first =>
        Text.numeral? Instruction.wordBound (word first)
      let bare : Instruction := { lineNum, offset, opname := String.ofList (word columns.opname) }
      match columns.operands with
      | operand :: _ =>
          if Text.isNumeral (word operand) then
            { bare with
              arg := Text.numeral? Instruction.wordBound (word operand)
              argval := meaning? (afterWord operand) }
          else bare
      | [] => bare

def extendedArg : String := "EXTENDED_ARG"

/-- An argument under the high bytes that an `EXTENDED_ARG` gives it, cut to a word. -/
def widen (high arg : Option Nat) : Option Nat :=
  match high, arg with
  | some high, some low => some (low ||| (high <<< 8) % Instruction.wordBound)
  | _, arg => arg

/-- The records of the lines in order, without `EXTENDED_ARG`, given the latest line number and the
high bytes that wait for an instruction. -/
def fold : Option Nat → Option Nat → List Instruction → List Instruction
  | _, _, [] => []
  | lineNum, high, row :: rows =>
      let lineNum := row.lineNum.or lineNum
      if row.opname = extendedArg then fold lineNum row.arg rows
      else { row with lineNum, arg := widen high row.arg } :: fold lineNum none rows

def parse (text : List Char) : List Instruction :=
  fold none none ((Text.lines text).filterMap readLine?)

end Decompiler.Listing
