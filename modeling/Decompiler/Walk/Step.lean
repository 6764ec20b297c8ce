import Decompiler.Walk.Binding
import Decompiler.Walk.Call
import Decompiler.Walk.Expression
import Decompiler.Walk.Import
import Decompiler.Walk.Jump

/-!
The walk: one step for each instruction that no earlier step has taken in.
-/

namespace Decompiler

namespace Walk

def opcodeEffect (flags : Flags) (code : Code) (ins : Instruction) (ahead : Code) (state : State) :
    Opcode → Except Error Effect
  | .loadAttr => attributeOf ins state
  | .load global => .ok (load flags ins global)
  | .store => store ins state
  | .returnValue => returnValue flags ins state
  | .yieldValue => wrap ins state .yieldStmt
  | .build kind => build ins kind state
  | .buildMap => buildMap ins state
  | .buildSlice => buildSlice ins state
  | .getIter => wrap ins state .iter
  | .forIter => forLoop ins ahead state
  | .popJumpIf onTrue => conditionalJump flags code ins onTrue state
  | .jumpAbsolute => absoluteJump flags code ins state
  | .jumpForward => forwardJump flags ins
  | .importName => importName ins ahead state
  | .raiseVarargs => raiseVarargs ins state
  | .callFunction => call ins state
  | .callFunctionKw => callKeywords ins state
  | .callFunctionEx => callSpread ins state
  | .makeFunction => makeFunction ins state
  | .listAppend => accumulate flags ins "append" state
  | .setAdd => accumulate flags ins "add" state
  | .mapAdd => accumulateEntry flags ins state
  | .unpackSequence => unpackSequence ins ahead state
  | .unpackEx => unpackEx ins ahead state
  | .compareOp => compareOp ins state
  | .isOp => compareWith ins "is" "is not" state
  | .containsOp => compareWith ins "in" "not in" state
  | .binarySubscr => combine ins state subscripted
  | .storeSubscr => storeSubscript ins state
  | .unary op => wrap ins state (.unary op)
  | .binary op => combine ins state (.binary op)
  | .inplace op => inplace ins op ahead state
  | .importFrom | .importStar => .ok (.placeholder ins)
  | .nop | .popTop => .ok {}

/-- An instruction that is not recognised stands for itself. -/
def effect (flags : Flags) (code : Code) (ins : Instruction) (ahead : Code) (state : State) :
    Except Error Effect :=
  match ins.opcode? with
  | none => .ok (.placeholder ins)
  | some op => opcodeEffect flags code ins ahead state op

/-- The state after an instruction, and how many of the instructions ahead it has taken in. -/
def step (flags : Flags) (code : Code) (ins : Instruction) (ahead : Code) (state : State) :
    Except Error (State × Nat) := do
  let settled := state.settle ins.offset
  let effect ← effect flags code ins ahead settled
  return (settled.apply ins.offset effect, effect.swallows)

/-- Walks over the rest of the code, except for as many instructions as the last step took in. -/
def walk (flags : Flags) (code : Code) : Nat → Code → State → Except Error State
  | _, [], state => .ok state
  | skip + 1, _ :: ahead, state => walk flags code skip ahead state
  | 0, ins :: ahead, state => do
      let (next, skip) ← step flags code ins ahead state
      walk flags code skip ahead next

def run (flags : Flags) (code : Code) : Except Error State :=
  match code with
  | [] => .ok {}
  | ins :: ahead => do
      let (next, skip) ← step flags code ins ahead {}
      walk flags code skip ahead (if flags.comprehension then next.collect ins.offset else next)

theorem walk_eq_walk_drop (flags : Flags) (code : Code) (skip : Nat) (ahead : Code)
    (state : State) :
    walk flags code skip ahead state = walk flags code 0 (ahead.drop skip) state := by
  induction ahead generalizing skip with
  | nil => simp [walk]
  | cons ins rest ih =>
      cases skip with
      | zero => rfl
      | succ n => rw [walk, ih, List.drop_succ_cons]

end Walk

/-- The statements that the instructions of one code object stand for, in order, and the names of its
parameters. -/
structure Reconstruction where
  statements : List Statement := []
  args : List String := []
  deriving Repr, Inhabited

def reconstruct (flags : Flags) (code : Code) : Except Error Reconstruction :=
  (Walk.run flags code).map fun state =>
    { statements := state.stack.reverse, args := state.signature.args }

end Decompiler
