import Decompiler.Code
import Decompiler.Node.Basic

/-!
Targets of unpackings. A target is a name or a tuple of targets. Its code lists the tree in
preorder: a store for a name, and for a tuple of `k` targets `UNPACK_SEQUENCE k` before their codes.
-/

namespace Decompiler

inductive Target where
  | name (text : String)
  | tuple (items : List Target)
  deriving Repr, Inhabited

namespace Target

mutual

def node : Target → Node
  | .name text => .atom text
  | .tuple items => Node.tuple (nodes items)

def nodes : List Target → List Node
  | [] => []
  | target :: rest => target.node :: nodes rest

end

mutual

def names : Target → List String
  | .name text => [text]
  | .tuple items => allNames items

def allNames : List Target → List String
  | [] => []
  | target :: rest => target.names ++ allNames rest

end

mutual

def size : Target → Nat
  | .name _ => 1
  | .tuple items => totalSize items + 1

def totalSize : List Target → Nat
  | [] => 0
  | target :: rest => target.size + totalSize rest

end

/-- Reads the codes of a number of targets, one after the other. The targets inside a tuple are read
together with those that follow the tuple, and then parted from them. -/
def readMany? : List Instruction → Nat → Option (List Target)
  | _, 0 => some []
  | [], _ + 1 => none
  | ins :: ahead, n + 1 =>
      if ins.isStore then
        ins.storedName?.bind fun text => (readMany? ahead n).map (.name text :: ·)
      else if ins.is .unpackSequence then
        match ins.arg with
        | some (k + 1) =>
            (readMany? ahead (k + 1 + n)).map fun targets =>
              .tuple (targets.take (k + 1)) :: targets.drop (k + 1)
        | _ => none
      else none

def read? (ahead : List Instruction) : Option Target :=
  (readMany? ahead 1).bind List.head?

def storedNames? : List Instruction → Nat → Option (List String)
  | _, 0 => some []
  | [], _ + 1 => none
  | ins :: ahead, n + 1 =>
      ins.storedName?.bind fun text => (storedNames? ahead n).map (text :: ·)

@[simp] theorem nodes_eq (items : List Target) : nodes items = items.map node := by
  induction items with
  | nil => rfl
  | cons target rest ih => simp [nodes, ih]

end Target

end Decompiler
