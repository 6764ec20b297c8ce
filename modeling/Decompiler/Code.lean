import Decompiler.Instruction.Basic

/-!
Code: the instructions of one code object in the order of their offsets, and the places in it that
jumps speak of. Offsets do not decrease; where several instructions share one, it means the first.
-/

namespace Decompiler

abbrev Code := List Instruction

namespace Code

def atOffset? (code : Code) (offset : Nat) : Option Instruction :=
  (code.dropWhile fun ins => ins.offset < offset).head?.filter fun ins => ins.offset = offset

def beforeOffset? (code : Code) (offset : Nat) : Option Instruction :=
  (code.takeWhile fun ins => ins.offset < offset).getLast?

end Code

namespace Instruction

def jumpsBackTo (ins : Instruction) (target : Nat) : Bool :=
  ins.is .jumpAbsolute && ins.jumpTarget? = some target

/-- Loops are headed by these instructions, and they leave the loop at their target. -/
def isTest (ins : Instruction) : Bool := ins.is .forIter || ins.isConditionalJump

end Instruction

namespace Code

/-- A test that jumps forward from `origin` heads a while loop if what stands right before its
target jumps back to a place before `origin`, and no other test stands between that place and
`origin`. -/
def headsWhile (code : Code) (origin target : Nat) : Bool :=
  (code.beforeOffset? target).any fun back =>
    back.is .jumpAbsolute && back.jumpTarget?.any fun start =>
      start < origin &&
        !code.any fun ins => start ≤ ins.offset && ins.offset < origin && ins.isTest

/-- A branch that ends at `target` fills an `else` that ends at `stop` if it ends there too, or if
what stands right before `target` jumps forward to `stop`. -/
def fillsElse (code : Code) (target stop : Nat) : Bool :=
  target = stop || (code.beforeOffset? target).any fun last =>
    last.is .jumpForward && last.jumpTarget? = some stop

/-- The offset at which a loop with its head at `target` is over, seen from `origin` inside it: that
of the instruction after the first jump back to the head. -/
def loopEnd? (code : Code) (origin target : Nat) : Option Nat :=
  match code.dropWhile fun ins => !(origin < ins.offset && ins.jumpsBackTo target) with
  | _ :: next :: _ => some next.offset
  | _ => none

def isLoopExit (code : Code) (target : Nat) : Bool :=
  code.any fun ins => ins.isTest && ins.jumpTarget? = some target

def jumpsBackAfter (code : Code) (origin target : Nat) : Bool :=
  code.any fun ins => origin < ins.offset && ins.jumpsBackTo target

/-- Whether the jump at `origin` is the one that closes the for loop headed by `head`. -/
def closesFor (code : Code) (head : Instruction) (origin : Nat) : Bool :=
  (head.jumpTarget?.bind code.beforeOffset?).any fun last => last.offset = origin

end Code

end Decompiler
