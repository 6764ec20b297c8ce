import Decompiler.Operator

/-!
Nodes: the expressions and statements that are recovered from instructions, in one type, because an
expression that nothing consumes is a statement.
-/

namespace Decompiler

/-- A name that an import binds, under another name if it has an `asName`. -/
structure ImportedName where
  name : String
  asName : Option String := none
  deriving DecidableEq, Repr, Inhabited

def ImportedName.bound (imported : ImportedName) : String := imported.asName.getD imported.name

inductive Node where
  /-- A name or a constant, as it is written. -/
  | atom (text : String)
  | attribute (object : Node) (name : String)
  | assign (target value : Node)
  | itemAssign (container key value : Node)
  | returnStmt (value : Node)
  | yieldStmt (value : Node)
  | forHead (target iterator : Node)
  | whileHead (condition : Node)
  | ifHead (condition : Node)
  | elifHead (condition : Node)
  | elseHead
  | breakStmt
  | continueStmt
  | importStmt (module : String) (asName : Option String)
  | fromImport (module : String) (names : List ImportedName)
  | raiseStmt (exception cause : Option Node)
  /-- A jump that is left as it is. -/
  | goto (target : Nat) (condition : Option Node)
  | display (kind : Container) (items : List Node)
  /-- The values and keys of a dictionary display by turns, each value before its key. -/
  | dict (items : List Node)
  | call (func : Node) (args : List Node) (kwargs : List (String × Node))
  /-- A nested function that captures variables: a function that passes them on. -/
  | closure (target : String) (captured : List String)
  | iter (value : Node)
  | splat (value : Node)
  | doubleSplat (value : Node)
  | slice (start stop step : Option Node)
  | sliced (value : Node) (start stop step : Option Node)
  | subscript (value index : Node)
  | comparison (op : String) (left right : Node)
  | unary (op : UnaryOperator) (operand : Node)
  | binary (op : BinaryOperator) (left right : Node)
  | inplace (op : BinaryOperator) (target : String) (value : Node)
  /-- An instruction that could not be read as anything else. -/
  | placeholder (opname : String) (arg : Option Nat) (argval : Option String)
  deriving BEq, Repr, Inhabited

namespace Node

def tuple (items : List Node) : Node := .display .tuple items

def negation (condition : Node) : Node := .unary .not condition

/-- The variable that collects the results of a comprehension. -/
def accumulator : Node := .atom "__temp"

/-- A bound of a slice; the constant `None` is a bound left out. -/
def bound? : Node → Option Node
  | .atom text => if text = "None" then none else some (.atom text)
  | node => some node

def sliceOf (start stop : Node) (step : Option Node) : Node :=
  .slice start.bound? stop.bound? (step.bind bound?)

/-- A leaf is an operand that needs no parentheses. -/
def isLeaf : Node → Bool
  | .atom _ | .attribute _ _ | .subscript _ _ | .sliced _ _ _ _ | .call _ _ _ => true
  | _ => false

end Node

end Decompiler
