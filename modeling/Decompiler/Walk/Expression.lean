import Decompiler.Options
import Decompiler.Walk.Basic

/-!
Expressions and simple statements: each takes its operands off the stack and leaves one node.
-/

namespace Decompiler.Walk

def wrap (ins : Instruction) (state : State) (node : Node → Node) : Except Error Effect := do
  let value ← operand ins state.stack
  return .replace 1 (node value)

def combine (ins : Instruction) (state : State) (node : Node → Node → Node) :
    Except Error Effect := do
  let (left, right) ← operands2 ins state.stack
  return .replace 2 (node left right)

def attributeOf (ins : Instruction) (state : State) : Except Error Effect :=
  match ins.argval with
  | none => .ok (.placeholder ins)
  | some name => wrap ins state (.attribute · name)

def build (ins : Instruction) (kind : Container) (state : State) : Except Error Effect := do
  let count ← ins.requireArg
  let items ← operands ins count state.stack
  return .replace count (.display kind items)

def buildMap (ins : Instruction) (state : State) : Except Error Effect := do
  let count ← ins.requireArg
  let items ← operands ins (2 * count) state.stack
  return .replace (2 * count) (.dict items)

def buildSlice (ins : Instruction) (state : State) : Except Error Effect := do
  let count ← ins.requireArg
  if count = 3 then do
    let (start, stop, step) ← operands3 ins state.stack
    return .replace 3 (.sliceOf start stop (some step))
  else combine ins state fun start stop => .sliceOf start stop none

def compareOp (ins : Instruction) (state : State) : Except Error Effect :=
  match ins.argval with
  | none => .ok (.placeholder ins)
  | some op => combine ins state (.comparison op)

def compareWith (ins : Instruction) (plain negated : String) (state : State) :
    Except Error Effect := do
  let arg ← ins.requireArg
  combine ins state (.comparison (if arg = 0 then plain else negated))

/-- A subscript; a slice between the brackets is written with colons. -/
def subscripted (value : Node) : Node → Node
  | .slice start stop step => .sliced value start stop step
  | index => .subscript value index

def storeSubscript (ins : Instruction) (state : State) : Except Error Effect := do
  let (value, container, key) ← operands3 ins state.stack
  return .replace 3 (.itemAssign container key value)

def raiseVarargs (ins : Instruction) (state : State) : Except Error Effect := do
  match ← ins.requireArg with
  | 0 => return .push1 (.raiseStmt none none)
  | 1 => wrap ins state fun exception => .raiseStmt (some exception) none
  | 2 => combine ins state fun exception cause => .raiseStmt (some exception) (some cause)
  | _ => return .placeholder ins

/-- A comprehension returns what it has collected and takes nothing off the stack. -/
def returnValue (flags : Flags) (ins : Instruction) (state : State) : Except Error Effect :=
  if flags.comprehension then .ok (.push1 (.returnStmt .accumulator))
  else wrap ins state .returnStmt

def accumulate (flags : Flags) (ins : Instruction) (method : String) (state : State) :
    Except Error Effect :=
  if flags.comprehension then
    wrap ins state fun value => .call (.attribute .accumulator method) [value] []
  else .ok (.placeholder ins)

def accumulateEntry (flags : Flags) (ins : Instruction) (state : State) : Except Error Effect :=
  if flags.comprehension then combine ins state fun key value => .itemAssign .accumulator key value
  else .ok (.placeholder ins)

end Decompiler.Walk
