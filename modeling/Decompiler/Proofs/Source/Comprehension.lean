import Decompiler.Proofs.Source.Expression
import Decompiler.Proofs.Source.Pattern

/-!
Comprehensions and generator expressions, the operations they are compiled to, and the lines that are
written for them. They are loops inside loops: the loop of a clause runs the clauses after it, and the
last one the result. A condition that does not hold jumps back to the step of its loop. The first
iterator is passed as an argument that is called `.0`.
-/

namespace Decompiler

/-- A condition of a clause; a negated one goes on if its test does not hold. -/
structure Condition where
  negated : Bool
  test : Expr

/-- A clause after the first. -/
structure Clause where
  pattern : Pattern
  iterable : Expr
  conditions : List Condition

/-- What is collected, or what a generator yields. -/
inductive Collected where
  | list (value : Expr)
  | set (value : Expr)
  | dict (key value : Expr)
  | generator (value : Expr)

structure Comprehension where
  pattern : Pattern
  conditions : List Condition
  clauses : List Clause
  result : Collected

namespace Condition

def mnemonic (c : Condition) : String :=
  if c.negated then "POP_JUMP_IF_TRUE" else "POP_JUMP_IF_FALSE"

def ops (target : Nat) (c : Condition) : List Operation :=
  c.test.ops ++ [.absolute c.mnemonic target]

def node (r : Reading) (c : Condition) : Node :=
  if c.negated then .negation (c.test.tree r) else c.test.tree r

theorem ofName?_mnemonic (c : Condition) :
    Opcode.ofName? c.mnemonic = some (.popJumpIf c.negated) := by
  unfold mnemonic
  cases c.negated <;> rfl

end Condition

namespace Collected

def flags : Collected → Flags
  | generator _ => { generatorExpression := true }
  | _ => { comprehension := true }

/-- The empty container with which the results are collected, and its node. -/
def container? : Collected → Option (Operation × Node)
  | list _ => some (.counted "BUILD_LIST" 0, .display .list [])
  | set _ => some (.counted "BUILD_SET" 0, .display .set [])
  | dict _ _ => some (.counted "BUILD_MAP" 0, .dict [])
  | generator _ => none

def opening : Collected → Option String
  | list _ => some "__temp=[]"
  | set _ => some "__temp=set()"
  | dict _ _ => some "__temp=\x7b\x7d"
  | generator _ => none

/-- Results are collected in a comprehension only. -/
theorem comprehension_flags (result : Collected) :
    result.flags.comprehension = result.container?.isSome := by
  cases result <;> rfl

def ops : Collected → List Operation
  | list value => value.ops ++ [.bare "LIST_APPEND"]
  | set value => value.ops ++ [.bare "SET_ADD"]
  | dict key value => key.ops ++ value.ops ++ [.bare "MAP_ADD"]
  | generator value => value.ops ++ [.bare "YIELD_VALUE"] ++ [.bare "POP_TOP"]

def node (r : Reading) : Collected → Node
  | list value => .call (.attribute .accumulator "append") [value.tree r] []
  | set value => .call (.attribute .accumulator "add") [value.tree r] []
  | dict key value => .itemAssign .accumulator (key.tree r) (value.tree r)
  | generator value => .yieldStmt (value.tree r)

theorem node_ne_elseHead (r : Reading) (result : Collected) :
    result.node r ≠ .elseHead := by
  cases result <;> nofun

def closing : Collected → List Operation
  | generator _ => [.named "LOAD_CONST" "None", .bare "RETURN_VALUE"]
  | _ => [.bare "RETURN_VALUE"]

def returned : Collected → Node
  | generator _ => .atom "None"
  | _ => .accumulator

end Collected

/-! ### Code -/

def conditionOps (target : Nat) (conditions : List Condition) : List Operation :=
  conditions.flatMap (Condition.ops target)

def conditionSize : List Condition → Nat
  | [] => 0
  | c :: rest => c.test.ops.length + 1 + conditionSize rest

/-- The loop with its head at a position, around the code that it runs. -/
def loopOps (place : Nat → Nat) (head : Nat) (pattern : Pattern) (conditions : List Condition)
    (inner : List Operation) : List Operation :=
  let last := head + 1 + pattern.ops.length + conditionSize conditions + inner.length
  [.relative "FOR_ITER" (place (last + 1))] ++ pattern.ops ++
    conditionOps (place head) conditions ++ inner ++ [.absolute "JUMP_ABSOLUTE" (place head)]

/-- The code from a position on that all loops around it run. -/
def bodyOps (place : Nat → Nat) (result : Collected) : Nat → List Clause → List Operation
  | _, [] => result.ops
  | start, clause :: rest =>
      let head := start + clause.iterable.ops.length + 1
      let inner := head + 1 + clause.pattern.ops.length + conditionSize clause.conditions
      clause.iterable.ops ++ [.bare "GET_ITER"] ++
        loopOps place head clause.pattern clause.conditions (bodyOps place result inner rest)

/-- The code from the load of the iterator on. -/
def Comprehension.loop (place : Nat → Nat) (start : Nat) (c : Comprehension) : List Operation :=
  let head := start + 1
  let inner := head + 1 + c.pattern.ops.length + conditionSize c.conditions
  [.named "LOAD_FAST" ".0"] ++
    loopOps place head c.pattern c.conditions (bodyOps place c.result inner c.clauses) ++
    c.result.closing

def Comprehension.ops (place : Nat → Nat) (c : Comprehension) : List Operation :=
  match c.result.container? with
  | some (operation, _) => operation :: c.loop place 1
  | none => c.loop place 0

/-! ### Lines -/

/-- Each condition stands one level deeper than the one before. -/
def conditionLines (r : Reading) : Nat → List Condition → List (Nat × Node)
  | _, [] => []
  | depth, c :: rest => (depth, .ifHead (c.node r)) :: conditionLines r (depth + 1) rest

def loopLines (r : Reading) (depth : Nat) (pattern : Pattern) (iterator : Node)
    (conditions : List Condition) (inner : List (Nat × Node)) : List (Nat × Node) :=
  (depth, .forHead pattern.target.node iterator) ::
    (conditionLines r (depth + 1) conditions ++ inner)

def bodyLines (r : Reading) (result : Collected) :
    Nat → List Clause → List (Nat × Node)
  | depth, [] => [(depth, result.node r)]
  | depth, clause :: rest =>
      loopLines r depth clause.pattern (clause.iterable.tree r) clause.conditions
        (bodyLines r result (depth + 1 + clause.conditions.length) rest)

/-- The iterator that is passed is called `__0` under the flags. -/
def Comprehension.lines (r : Reading) (c : Comprehension) : List (Nat × Node) :=
  (c.result.container?.map fun (_, node) => (0, Node.assign .accumulator node)).toList ++
    loopLines r 0 c.pattern (.atom "__0") c.conditions
      (bodyLines r c.result (1 + c.conditions.length) c.clauses) ++
    [(0, .returnStmt c.result.returned)]

/-! ### What holds of compiled loops -/

theorem length_conditionOps (target : Nat) (conditions : List Condition) :
    (conditionOps target conditions).length = conditionSize conditions := by
  induction conditions with
  | nil => rfl
  | cons c rest ih =>
      rw [conditionOps] at ih ⊢
      rw [List.flatMap_cons, List.length_append, ih, conditionSize, Condition.ops,
        List.length_append, List.length_singleton]

theorem length_loopOps (place : Nat → Nat) (head : Nat) (pattern : Pattern)
    (conditions : List Condition) (inner : List Operation) :
    (loopOps place head pattern conditions inner).length =
      1 + pattern.ops.length + conditionSize conditions + inner.length + 1 := by
  simp only [loopOps, List.length_append, List.length_singleton, length_conditionOps]

theorem jumpsWithin_conditionOps {place : Nat → Nat} {start stop : Nat} (target : Nat)
    (conditions : List Condition) :
    JumpsWithin place start stop (conditionOps target conditions) := by
  induction conditions with
  | nil => exact nofun
  | cons c rest ih =>
      have hjump : (Operation.absolute c.mnemonic target).opcode? = some (.popJumpIf c.negated) :=
        c.ofName?_mnemonic
      exact ((JumpsWithin.of_jumpFree c.test.jumpFree_ops).append
        (.of_opcode (.popJumpIf c.negated) hjump nofun)).append ih

theorem Collected.jumpFree_ops (result : Collected) : JumpFree result.ops := by
  cases result with
  | list value => exact value.jumpFree_ops.snoc rfl
  | set value => exact value.jumpFree_ops.snoc rfl
  | dict key value => exact (key.jumpFree_ops.append value.jumpFree_ops).snoc rfl
  | generator value => exact (value.jumpFree_ops.snoc rfl).snoc rfl

/-- The loops jump back to nowhere but to their own heads. -/
theorem jumpsWithin_bodyOps (place : Nat → Nat) (result : Collected) (start : Nat)
    (clauses : List Clause) :
    JumpsWithin place start (start + (bodyOps place result start clauses).length)
      (bodyOps place result start clauses) := by
  induction clauses generalizing start with
  | nil => exact .of_jumpFree result.jumpFree_ops
  | cons clause rest ih =>
      rw [bodyOps, List.length_append, length_loopOps, List.length_append, List.length_singleton]
      refine ((JumpsWithin.of_jumpFree clause.iterable.jumpFree_ops).append
        (.of_opcode .getIter rfl nofun)).append ?_
      refine ((((JumpsWithin.of_opcode .forIter rfl nofun).append
        (.of_jumpFree clause.pattern.jumpFree_ops)).append
          (jumpsWithin_conditionOps _ _)).append ?_).append (.back (by omega) (by omega))
      exact (ih _).mono (by omega) (by omega)

end Decompiler
