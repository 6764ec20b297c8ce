import Decompiler.Code
import Decompiler.Options
import Decompiler.Target
import Decompiler.Walk.Basic

/-!
Jumps. Loops and branches are recovered from the targets of jumps. A test opens a block that ends
where the test jumps to. A jump forward closes a branch and opens its `else`. An absolute jump to
the head of a loop is the end of its body or a `continue`, and one to its end is a `break`.
-/

namespace Decompiler.Walk

/-- The end of the `else` on top of the stack, if a branch up to `target` is its whole body. -/
def elseEnd? (code : Code) (indent : Int) (stack : List Statement) (target : Nat) : Option Nat :=
  match stack with
  | ⟨level, .elseHead, offset⟩ :: _ =>
      if (level : Int) = indent - 1 then
        ((code.atOffset? offset).bind Instruction.jumpTarget?).filter (code.fillsElse target)
      else none
  | _ => none

/-- The block that a test opens, given the condition under which its body runs. A test that jumps
back stands last in the body of a loop, and its block ends with that body. -/
def branch (code : Code) (ins : Instruction) (condition : Node) (target : Nat) (state : State) :
    Effect :=
  if ins.offset < target then
    if code.headsWhile ins.offset target then .block 1 (.whileHead condition) (some target)
    else
      match elseEnd? code state.indent (state.stack.drop 1) target with
      | some stop =>
          { Effect.replace 2 (.elifHead condition) with
            shift := -1
            closes := some target
            cancels := some stop }
      | none => .block 1 (.ifHead condition) (some target)
  else .block 1 (.ifHead condition) (code.loopEnd? ins.offset target)

/-- A test jumps if its operand has the truth value `onTrue`; otherwise the body runs. -/
def conditionalJump (flags : Flags) (code : Code) (ins : Instruction) (onTrue : Bool)
    (state : State) : Except Error Effect := do
  let test ← operand ins state.stack
  let target ← ins.requireTarget
  let whenTrue (wanted : Bool) : Node := if wanted then test else .negation test
  if flags.rawJumps then
    return .replace 1 (.goto target (some (whenTrue onTrue)))
  else
    return branch code ins (whenTrue !onTrue) target state

def isBreak : List Statement → Bool
  | ⟨_, .breakStmt, _⟩ :: _ => true
  | _ => false

/-- A jump to an offset without an instruction is nothing, and no `continue` follows a `break`. -/
def absoluteJump (flags : Flags) (code : Code) (ins : Instruction) (state : State) :
    Except Error Effect := do
  let target ← ins.requireTarget
  if flags.rawJumps then
    return .push1 (.goto target none)
  else
    match code.atOffset? target with
    | none => return {}
    | some destination =>
        if destination.is .forIter then
          if code.closesFor destination ins.offset || isBreak state.stack then return {}
          else return .push1 .continueStmt
        else if ins.offset < target then
          if code.isLoopExit target then return .push1 .breakStmt else return {}
        else if code.jumpsBackAfter ins.offset target && !isBreak state.stack then
          return .push1 .continueStmt
        else return {}

def forwardJump (flags : Flags) (ins : Instruction) : Except Error Effect := do
  let target ← ins.requireTarget
  if flags.rawJumps then
    return .push1 (.goto target none)
  else
    return { Effect.block 0 .elseHead (some target) with shift := -1 }

/-- What a loop runs over, without the call that makes an iterator of it. -/
def iterated : Node → Node
  | .iter value => value
  | node => node

/-- The target of a loop is the code that follows. Without one the loop is not recovered. -/
def forLoop (ins : Instruction) (ahead : Code) (state : State) : Except Error Effect := do
  let stop ← ins.requireTarget
  match ahead with
  | [] => throw (.unexpectedEnd ins.offset ins.opname)
  | _ :: _ =>
      match Target.read? ahead with
      | none => return .placeholder ins
      | some target => do
          let iterator ← operand ins state.stack
          return { Effect.block 1 (.forHead target.node (iterated iterator)) (some stop) with
            mentions := target.names.map .store
            swallows := target.size }

end Decompiler.Walk
