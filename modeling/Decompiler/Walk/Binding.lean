import Decompiler.Options
import Decompiler.Target
import Decompiler.Walk.Basic

/-!
Loads, stores and unpackings. An unpacking and an operation in place are one statement together
with the stores that follow them.
-/

namespace Decompiler.Walk

/-- The iterator that is passed to a comprehension or a generator has no name that could be
written, such as `.0`; there the point becomes two underscores. -/
def loadedName (flags : Flags) (text : String) : String :=
  match text.toList with
  | '.' :: rest =>
      if flags.comprehension || flags.generatorExpression then String.ofList ('_' :: '_' :: rest)
      else text
  | _ => text

def load (flags : Flags) (ins : Instruction) (global : Bool) : Effect :=
  match ins.argval with
  | none => .placeholder ins
  | some text =>
      let name := loadedName flags text
      { Effect.push1 (.atom name) with mentions := [.load global name] }

def store (ins : Instruction) (state : State) : Except Error Effect := do
  let name ← ins.requireName
  let value ← operand ins state.stack
  return { Effect.replace 1 (.assign (.atom name) value) with mentions := [.store name] }

/-- The target is the name that the next instruction stores; the node that stands for it among the
operands is dropped. -/
def inplace (ins : Instruction) (op : BinaryOperator) (ahead : Code) (state : State) :
    Except Error Effect :=
  match ahead.head?.bind Instruction.storedName? with
  | none => .ok (.placeholder ins)
  | some target => do
      let (_, value) ← operands2 ins state.stack
      return { Effect.replace 2 (.inplace op target value) with
        mentions := [.store target]
        swallows := 1 }

/-- An unpacking without targets leaves the value spread out. -/
def unpackSequence (ins : Instruction) (ahead : Code) (state : State) : Except Error Effect := do
  let value ← operand ins state.stack
  match Target.read? (ins :: ahead) with
  | none => return .replace 1 (.splat value)
  | some target =>
      return { Effect.replace 1 (.assign target.node value) with
        mentions := target.names.map .store
        swallows := target.size - 1 }

def starred (position : Nat) (names : List String) : List Node :=
  names.mapIdx fun k name => .atom (if k = position then "*" ++ name else name)

/-- The low byte of the argument counts the names before the starred one, and the next byte those
after it. -/
def unpackEx (ins : Instruction) (ahead : Code) (state : State) : Except Error Effect := do
  let arg ← ins.requireArg
  let before := arg % 256
  let total := before + 1 + arg / 256 % 256
  match Target.storedNames? ahead total with
  | none => throw (.malformedUnpack ins.offset total)
  | some names => do
      let value ← operand ins state.stack
      return { Effect.replace 1 (.assign (Node.tuple (starred before names)) value) with
        mentions := names.map .store
        swallows := total }

end Decompiler.Walk
