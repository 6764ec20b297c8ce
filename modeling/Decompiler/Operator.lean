/-!
Operators and displays of Python expressions: the brackets and symbols they are written with, and
the snake-case names under which mnemonics mention them.
-/

namespace Decompiler

inductive Container where
  | list
  | tuple
  | set
  deriving DecidableEq, Repr, Inhabited

inductive UnaryOperator where
  | positive
  | negative
  | not
  | invert
  deriving DecidableEq, Repr, Inhabited

inductive BinaryOperator where
  | power
  | multiply
  | matrixMultiply
  | floorDivide
  | trueDivide
  | modulo
  | add
  | subtract
  | leftShift
  | rightShift
  | and
  | xor
  | or
  deriving DecidableEq, Repr, Inhabited

namespace Container

def all : List Container := [list, tuple, set]

def name : Container → String
  | list => "list"
  | tuple => "tuple"
  | set => "set"

def opening : Container → Char
  | list => '['
  | tuple => '('
  | set => '{'

def closing : Container → Char
  | list => ']'
  | tuple => ')'
  | set => '}'

end Container

namespace UnaryOperator

def all : List UnaryOperator := [positive, negative, not, invert]

def name : UnaryOperator → String
  | positive => "positive"
  | negative => "negative"
  | not => "not"
  | invert => "invert"

/-- A word needs the blank that parts it from its operand; it belongs to the symbol. -/
def symbol : UnaryOperator → String
  | positive => "+"
  | negative => "-"
  | not => "not "
  | invert => "~"

end UnaryOperator

namespace BinaryOperator

def all : List BinaryOperator :=
  [power, multiply, matrixMultiply, floorDivide, trueDivide, modulo, add, subtract, leftShift,
    rightShift, and, xor, or]

def name : BinaryOperator → String
  | power => "power"
  | multiply => "multiply"
  | matrixMultiply => "matrix_multiply"
  | floorDivide => "floor_divide"
  | trueDivide => "true_divide"
  | modulo => "modulo"
  | add => "add"
  | subtract => "subtract"
  | leftShift => "lshift"
  | rightShift => "rshift"
  | and => "and"
  | xor => "xor"
  | or => "or"

def symbol : BinaryOperator → String
  | power => "**"
  | multiply => "*"
  | matrixMultiply => "@"
  | floorDivide => "//"
  | trueDivide => "/"
  | modulo => "%"
  | add => "+"
  | subtract => "-"
  | leftShift => "<<"
  | rightShift => ">>"
  | and => "&"
  | xor => "^"
  | or => "|"

end BinaryOperator

theorem UnaryOperator.mem_all (op : UnaryOperator) : op ∈ UnaryOperator.all := by
  cases op <;> decide

theorem BinaryOperator.mem_all (op : BinaryOperator) : op ∈ BinaryOperator.all := by
  cases op <;> decide

end Decompiler
