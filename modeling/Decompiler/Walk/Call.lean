import Decompiler.Segment
import Decompiler.Walk.Basic

/-!
Calls, and functions made from code objects.
-/

namespace Decompiler.Walk

def call (ins : Instruction) (state : State) : Except Error Effect := do
  let argc ← ins.requireArg
  let args ← operands ins argc state.stack
  let func ← operand ins (state.stack.drop argc)
  return .replace (argc + 1) (.call func args [])

def unquoted? (text : List Char) : Option String :=
  ((Text.between ['\''] ['\''] text).or (Text.between ['"'] ['"'] text)).map String.ofList

/-- The names in a constant tuple of strings such as `('sep', 'end')`. -/
def nameTuple? (literal : String) : Option (List String) :=
  (Text.between ['('] [')'] (Text.trim literal.toList)).bind fun inner =>
    let items := (Text.split (· = ',') inner).map Text.trim
    (items.filter fun item => !item.isEmpty).mapM unquoted?

/-- The names of the keywords are on top of the stack, their values below and the positional
arguments further below. -/
def callKeywords (ins : Instruction) (state : State) : Except Error Effect := do
  let argc ← ins.requireArg
  match state.stack with
  | ⟨_, .atom literal, _⟩ :: below =>
      match nameTuple? literal with
      | none => return .placeholder ins
      | some names => do
          let positional := argc - names.length
          let values ← operands ins names.length below
          let args ← operands ins positional (below.drop names.length)
          let func ← operand ins (below.drop (names.length + positional))
          return .replace (1 + names.length + positional + 1) (.call func args (names.zip values))
  | _ => return .placeholder ins

/-- An odd argument says that there is a mapping with keyword arguments. -/
def callSpread (ins : Instruction) (state : State) : Except Error Effect := do
  let arg ← ins.requireArg
  if arg % 2 = 1 then do
    let (func, args, kwargs) ← operands3 ins state.stack
    return .replace 3 (.call func [.splat args, .doubleSplat kwargs] [])
  else do
    let (func, args) ← operands2 ins state.stack
    return .replace 2 (.call func [.splat args] [])

def capturedNames : Node → List String
  | .display _ items => items.map Node.render
  | node => [node.render]

def codeName? : Node → Option String
  | .atom descriptor => Segment.codeObjectName? descriptor
  | _ => none

/-- A function is made from a name and a code object, and below them, as the bits of the argument
say, from the captured variables, annotations, keyword defaults and defaults. -/
def makeFunction (ins : Instruction) (state : State) : Except Error Effect := do
  let arg ← ins.requireArg
  let (code, _) ← operands2 ins state.stack
  let extras := ([0, 1, 2, 3].filter arg.testBit).length
  let _ ← operands ins extras (state.stack.drop 2)
  let captured :=
    if arg.testBit 3 then (state.stack[2]?).map fun top => capturedNames top.node else none
  let made : Effect :=
    match codeName? code, captured with
    | none, _ => .placeholder ins
    | some target, some names => .push1 (.closure target names)
    | some target, none => .push1 (.atom target)
  return { made with pops := 2 + extras }

end Decompiler.Walk
