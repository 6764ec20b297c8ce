import Decompiler.Proofs.Source.Program

/-!
Goto programs. An item is a statement without a body, a jump, or a test that jumps. Items are compiled
one after the other, and the jumps among them go to the offsets at which items start.
-/

namespace Decompiler

structure Binding where
  store : Store
  name : String

namespace Binding

def op (binding : Binding) : Operation := .named binding.store.mnemonic binding.name

def node (binding : Binding) : Node := .atom binding.name

end Binding

/-- The target of a jump is listed as the argument, or after it in words. -/
def Operation.jump (words : Bool) (opname : String) (target : Nat) : Operation :=
  if words then .relative opname target else .absolute opname target

inductive Item where
  | simple (s : Simple)
  /-- A `raise` of what is handled already. -/
  | reraise
  | raiseFrom (exception cause : Expr)
  | unpack (first : Pattern) (rest : List Pattern) (value : Expr)
  /-- A target with a starred name. The names on each side of it are counted by a byte. -/
  | unpackStarred (before : List Binding) (star : Binding) (after : List Binding) (value : Expr)
      (hbefore : before.length < 256) (hafter : after.length < 256)
  | jump (forward words : Bool) (target : Nat)
  | branch (onTrue words : Bool) (test : Expr) (target : Nat)

namespace Item

def ops : Item → List Operation
  | simple s => s.ops
  | reraise => [.counted "RAISE_VARARGS" 0]
  | raiseFrom exception cause => exception.ops ++ cause.ops ++ [.counted "RAISE_VARARGS" 2]
  | unpack first rest value => value.ops ++ (Pattern.tuple first rest).ops
  | unpackStarred before star after value _ _ =>
      value.ops ++ ([.counted "UNPACK_EX" (before.length + 256 * after.length)] ++
        (before ++ star :: after).map Binding.op)
  | jump forward words target =>
      [.jump words (if forward then "JUMP_FORWARD" else "JUMP_ABSOLUTE") target]
  | branch onTrue words test target =>
      test.ops ++ [.jump words (if onTrue then "POP_JUMP_IF_TRUE" else "POP_JUMP_IF_FALSE") target]

def target? : Item → Option Nat
  | jump _ _ target | branch _ _ _ target => some target
  | _ => none

def tree (r : Reading) : Item → Node
  | simple s => s.tree r
  | reraise => .raiseStmt none none
  | raiseFrom exception cause => .raiseStmt (some (exception.tree r)) (some (cause.tree r))
  | unpack first rest value => .assign (Pattern.tuple first rest).target.node (value.tree r)
  | unpackStarred before star after value _ _ =>
      .assign (Node.tuple (before.map Binding.node ++
        .atom ("*" ++ star.name) :: after.map Binding.node)) (value.tree r)
  | jump _ _ target => .goto target none
  | branch onTrue _ test target =>
      .goto target (some (if onTrue then test.tree r else .negation (test.tree r)))

/-- The position at which the code of an item starts. -/
def start (items : List Item) (k : Nat) : Nat := ((items.take k).flatMap ops).length

/-- The offset at which an item starts, if there is such an item. -/
def startOffset? (items : List Item) (code : Code) (k : Nat) : Option Nat :=
  (code[start items k]?).map Instruction.offset

end Item

end Decompiler
