import Decompiler.Opcode
import Decompiler.Text.Basic

/-!
Instructions: one record for each line of a listing, the facts that follow from its fields alone,
and the fixed-width line that shows a record.
-/

namespace Decompiler

/-- The ways in which a reconstruction can fail. Each error carries the offset, and most the mnemonic, of
the instruction at fault. -/
inductive Error where
  /-- An instruction takes more operands than are there. -/
  | stackUnderflow (offset : Nat) (opname : String)
  /-- An instruction needs a successor and is the last one. -/
  | unexpectedEnd (offset : Nat) (opname : String)
  | missingArgument (offset : Nat) (opname : String)
  /-- The target of a jump cannot be read. -/
  | invalidJumpTarget (offset : Nat) (opname : String)
  /-- An extended unpacking is not followed by the stores that it announces. -/
  | malformedUnpack (offset expected : Nat)
  deriving DecidableEq, Repr, Inhabited

def Error.message : Error → String
  | stackUnderflow offset opname => s!"stack underflow at offset {offset} ({opname})"
  | unexpectedEnd offset opname =>
      s!"unexpected end of instructions after offset {offset} ({opname})"
  | missingArgument offset opname => s!"missing argument at offset {offset} ({opname})"
  | invalidJumpTarget offset opname => s!"invalid jump target at offset {offset} ({opname})"
  | malformedUnpack offset expected =>
      s!"malformed unpack at offset {offset} (expected {expected} stores)"

structure Instruction where
  /-- The source line, known once the listing has named one. -/
  lineNum : Option Nat := none
  offset : Nat
  opname : String
  arg : Option Nat := none
  /-- What the argument stands for, as the listing writes it between parentheses. -/
  argval : Option String := none
  deriving DecidableEq, Repr, Inhabited

namespace Instruction

/-- Arguments and line numbers are words of 32 bits. -/
def wordBound : Nat := 0x100000000

/-- Offsets are words of 64 bits. -/
def offsetBound : Nat := 0x10000000000000000

def opcode? (ins : Instruction) : Option Opcode := Opcode.ofName? ins.opname

def is (ins : Instruction) (op : Opcode) : Bool := ins.opcode? = some op

def isStore (ins : Instruction) : Bool := ins.is .store

def storedName? (ins : Instruction) : Option String :=
  if ins.isStore then ins.argval else none

def isConditionalJump (ins : Instruction) : Bool :=
  ins.is (.popJumpIf true) || ins.is (.popJumpIf false)

/-- Where a jump goes. A relative jump is listed with `to N`, and then `N` counts even if it cannot
be read; for an absolute jump the argument itself is the target. -/
def jumpTarget? (ins : Instruction) : Option Nat :=
  match ins.argval.bind fun text => "to ".toList.isPrefixOf? text.toList with
  | some rest => Text.natural? offsetBound (Text.trim rest)
  | none => ins.arg

def requireArg (ins : Instruction) : Except Error Nat :=
  match ins.arg with
  | some arg => .ok arg
  | none => .error (.missingArgument ins.offset ins.opname)

def requireName (ins : Instruction) : Except Error String :=
  match ins.argval with
  | some name => .ok name
  | none => .error (.missingArgument ins.offset ins.opname)

def requireTarget (ins : Instruction) : Except Error Nat :=
  match ins.jumpTarget? with
  | some target => .ok target
  | none => .error (.invalidJumpTarget ins.offset ins.opname)

/-- A line of five columns: the line number right-aligned, the offset in five digits, the mnemonic
left-aligned, and then the argument and its meaning where there are any. -/
def render (ins : Instruction) : String :=
  let line :=
    match ins.lineNum with
    | some n => (Text.digits n).leftpad 5 ' ' ++ [' ']
    | none => List.replicate 6 ' '
  let arg :=
    match ins.arg with
    | some n => ' ' :: Text.digits n
    | none => []
  let argval :=
    match ins.argval with
    | some text => [' ', '('] ++ text.toList ++ [')']
    | none => []
  String.ofList (line ++ (Text.digits ins.offset).leftpad 5 '0' ++ [' '] ++
    ins.opname.toList.rightpad 20 ' ' ++ arg ++ argval)

end Instruction

end Decompiler
