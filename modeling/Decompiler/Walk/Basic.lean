import Decompiler.Instruction.Basic
import Decompiler.Node.Render
import Decompiler.Signature

/-!
What is known between two steps of a walk over instructions: the level of indentation, the nodes
that nothing has consumed yet, the changes of level that wait for an offset, and the names met.
-/

namespace Decompiler.Walk

/-- A change of level that takes place when the walk comes to an offset. -/
structure IndentChange where
  target : Nat
  delta : Int
  deriving DecidableEq, Repr, Inhabited

structure State where
  indent : Int := 0
  /-- The statements so far, the last one first. -/
  stack : List Statement := []
  /-- The changes to come, the latest one first. -/
  pending : List IndentChange := []
  signature : Signature := {}
  deriving Repr, Inhabited

namespace State

def settle (state : State) (offset : Nat) : State :=
  let (due, later) := state.pending.partition fun change => change.target = offset
  { state with
    indent := due.foldl (fun level change => level + change.delta) state.indent
    pending := later }

/-- In a comprehension what the first instruction produces is the container of the results, and it
is bound to the accumulator. -/
def collect (state : State) (offset : Nat) : State :=
  match state.stack with
  | [] => state
  | top :: below =>
      { state with
        stack := ⟨state.indent.toNat, .assign .accumulator top.node, offset⟩ :: below }

end State

/-! ### Operands

The nodes on top of the stack are looked at here and taken off by an effect. An instruction that wants
more of them than there are is at fault. -/

def underflow (ins : Instruction) : Error := .stackUnderflow ins.offset ins.opname

def operand (ins : Instruction) : List Statement → Except Error Node
  | a :: _ => .ok a.node
  | [] => .error (underflow ins)

/-- The two top nodes, the deeper one first. -/
def operands2 (ins : Instruction) : List Statement → Except Error (Node × Node)
  | b :: a :: _ => .ok (a.node, b.node)
  | _ => .error (underflow ins)

/-- The three top nodes, the deepest one first. -/
def operands3 (ins : Instruction) : List Statement → Except Error (Node × Node × Node)
  | c :: b :: a :: _ => .ok (a.node, b.node, c.node)
  | _ => .error (underflow ins)

/-- The top nodes of a given number, the deepest one first. -/
def operands (ins : Instruction) (n : Nat) (stack : List Statement) : Except Error (List Node) :=
  if n ≤ stack.length then .ok ((stack.take n).reverse.map Statement.node)
  else .error (underflow ins)

/-! ### Effects

What an instruction does is decided first and then carried out: how many nodes it takes off the stack,
the node it puts there, how the level changes, which dedents it schedules or calls off, which names it
mentions, and how many of the following instructions it takes in. -/

structure Effect where
  pops : Nat := 0
  push : Option Node := none
  /-- Where the pushed node stands, relative to the level before it. -/
  shift : Int := 0
  /-- The change of the level. -/
  level : Int := 0
  /-- The offset at which the level goes back by one. -/
  closes : Option Nat := none
  /-- The offset of a dedent that is called off. -/
  cancels : Option Nat := none
  mentions : List Mention := []
  swallows : Nat := 0
  deriving Repr, Inhabited

namespace Effect

/-- A node in place of a number of operands. -/
def replace (pops : Nat) (node : Node) : Effect := { pops, push := some node }

def push1 (node : Node) : Effect := replace 0 node

/-- The head of a block that ends at an offset, if it is known where. -/
def block (pops : Nat) (head : Node) (closes : Option Nat) : Effect :=
  { pops, push := some head, level := 1, closes }

def placeholder (ins : Instruction) : Effect :=
  push1 (.placeholder ins.opname ins.arg ins.argval)

end Effect

def IndentChange.dedent (target : Nat) : IndentChange := ⟨target, -1⟩

/-- Carries out the effect of the instruction at an offset. A statement stands at the margin if the
level is below it. -/
def State.apply (state : State) (offset : Nat) (effect : Effect) : State :=
  let pushed := effect.push.map fun node =>
    Statement.mk (state.indent + effect.shift).toNat node offset
  let scheduled := (effect.closes.map IndentChange.dedent).toList ++ state.pending
  { indent := state.indent + effect.level
    stack := pushed.toList ++ state.stack.drop effect.pops
    pending :=
      match effect.cancels with
      | some target => scheduled.erase (.dedent target)
      | none => scheduled
    signature := effect.mentions.foldl Signature.mention state.signature }

end Decompiler.Walk
