import Decompiler.Node.Basic
import Decompiler.Text.Basic

/-!
The text of a node, and the lines that show statements. The text of a node depends on it alone. An operand of an operator is put in parentheses
unless it is a leaf; bases of attributes, calls and subscripts never are.
-/

namespace Decompiler

namespace Form

def commas (items : List (List Char)) : List Char := [','].intercalate items

/-- The texts of the entries of a dictionary display; a value without a key is left out. -/
def entries : List (List Char) → List (List Char)
  | value :: key :: rest => (key ++ ':' :: value) :: entries rest
  | _ => []

def operand (leaf : Bool) (text : List Char) : List Char :=
  if leaf then text else '(' :: text ++ [')']

/-- A comparison spelled with letters has blanks around it. -/
def comparison (op : List Char) : List Char :=
  if op.head?.any Char.isAlpha then ' ' :: op ++ [' '] else op

/-- The empty set has no display, and a tuple of one item keeps a comma after it. -/
def display : Container → List (List Char) → List Char
  | .set, [] => "set()".toList
  | .tuple, [item] => '(' :: item ++ [',', ')']
  | kind, items => kind.opening :: commas items ++ [kind.closing]

def raising : Option (List Char) → Option (List Char) → List Char
  | some exception, some cause => "raise ".toList ++ exception ++ " from ".toList ++ cause
  | some exception, none => "raise ".toList ++ exception
  | none, _ => "raise".toList

def goto (target : Nat) : Option (List Char) → List Char
  | some condition => "if ".toList ++ condition ++ ": goto ".toList ++ Text.digits target
  | none => "goto ".toList ++ Text.digits target

def renamed (name : List Char) : Option String → List Char
  | some asName => name ++ " as ".toList ++ asName.toList
  | none => name

def closure (target : String) (captured : List String) : List Char :=
  "(lambda *args,**kwargs:".toList ++ target.toList ++ '(' ::
    (captured.flatMap fun name => name.toList ++ [',']) ++ "*args,**kwargs))".toList

/-- The step of a slice after the mark that parts it from the bounds. -/
def step (mark : Char) : Option (List Char) → List Char
  | some text => mark :: text
  | none => []

def placeholder (opname : String) (arg : Option Nat) (argval : Option String) : List Char :=
  '<' :: opname.toList ++ '(' :: (arg.map Text.digits).getD "None".toList ++ ',' ::
    (argval.map String.toList).getD "None".toList ++ [')', '>']

end Form

def ImportedName.chars (imported : ImportedName) : List Char :=
  Form.renamed imported.name.toList imported.asName

namespace Node

mutual

def chars : Node → List Char
  | .atom text => text.toList
  | .attribute object name => object.chars ++ '.' :: name.toList
  | .assign target value => target.chars ++ '=' :: value.chars
  | .itemAssign container key value =>
      container.chars ++ '[' :: key.chars ++ [']', '='] ++ value.chars
  | .returnStmt value => "return ".toList ++ value.chars
  | .yieldStmt value => "yield ".toList ++ value.chars
  | .forHead target iterator =>
      "for ".toList ++ target.chars ++ " in ".toList ++ iterator.chars ++ [':']
  | .whileHead condition => "while ".toList ++ condition.chars ++ [':']
  | .ifHead condition => "if ".toList ++ condition.chars ++ [':']
  | .elifHead condition => "elif ".toList ++ condition.chars ++ [':']
  | .elseHead => "else:".toList
  | .breakStmt => "break".toList
  | .continueStmt => "continue".toList
  | .importStmt module asName => "import ".toList ++ Form.renamed module.toList asName
  | .fromImport module names =>
      "from ".toList ++ module.toList ++ " import ".toList ++
        Form.commas (names.map ImportedName.chars)
  | .raiseStmt exception cause => Form.raising (optionChars exception) (optionChars cause)
  | .goto target condition => Form.goto target (optionChars condition)
  | .display kind items => Form.display kind (listChars items)
  | .dict items => '{' :: Form.commas (Form.entries (listChars items)) ++ ['}']
  | .call func args kwargs =>
      func.chars ++ '(' :: Form.commas (listChars args ++ keywordChars kwargs) ++ [')']
  | .closure target captured => Form.closure target captured
  | .iter value => "iter(".toList ++ value.chars ++ [')']
  | .splat value => '*' :: value.chars
  | .doubleSplat value => '*' :: '*' :: value.chars
  | .slice start stop step =>
      "slice(".toList ++ (optionChars start).getD "None".toList ++ ',' ::
        (optionChars stop).getD "None".toList ++ Form.step ',' (optionChars step) ++ [')']
  | .sliced value start stop step =>
      value.chars ++ '[' :: (optionChars start).getD [] ++ ':' ::
        (optionChars stop).getD [] ++ Form.step ':' (optionChars step) ++ [']']
  | .subscript value index => value.chars ++ '[' :: index.chars ++ [']']
  | .comparison op left right =>
      Form.operand left.isLeaf left.chars ++ Form.comparison op.toList ++
        Form.operand right.isLeaf right.chars
  | .unary op operand => op.symbol.toList ++ Form.operand operand.isLeaf operand.chars
  | .binary op left right =>
      Form.operand left.isLeaf left.chars ++ op.symbol.toList ++
        Form.operand right.isLeaf right.chars
  | .inplace op target value => target.toList ++ op.symbol.toList ++ '=' :: value.chars
  | .placeholder opname arg argval => Form.placeholder opname arg argval

def optionChars : Option Node → Option (List Char)
  | some node => some node.chars
  | none => none

def listChars : List Node → List (List Char)
  | [] => []
  | node :: rest => node.chars :: listChars rest

def keywordChars : List (String × Node) → List (List Char)
  | [] => []
  | keyword :: rest => argumentChars keyword :: keywordChars rest

def argumentChars : String × Node → List Char
  | (name, node) => name.toList ++ '=' :: node.chars

end

def render (node : Node) : String := String.ofList node.chars

@[simp] theorem optionChars_eq (node : Option Node) : optionChars node = node.map chars := by
  cases node <;> rfl

@[simp] theorem listChars_eq (nodes : List Node) : listChars nodes = nodes.map chars := by
  induction nodes with
  | nil => rfl
  | cons node rest ih => simp [listChars, ih]

@[simp] theorem argumentChars_mk (name : String) (node : Node) :
    argumentChars (name, node) = name.toList ++ '=' :: node.chars := rfl

@[simp] theorem keywordChars_eq (keywords : List (String × Node)) :
    keywordChars keywords = keywords.map argumentChars := by
  induction keywords with
  | nil => rfl
  | cons keyword rest ih => simp [keywordChars, ih]

end Node

/-- A node with the level it stands at and the offset of the instruction that produced it. -/
structure Statement where
  indent : Nat
  node : Node
  offset : Nat
  deriving BEq, Repr, Inhabited

namespace Statement

def chars (unit : List Char) (showOffset : Bool) (s : Statement) : List Char :=
  (List.replicate s.indent unit).flatten ++ s.node.chars ++
    if showOffset then "  # ".toList ++ Text.digits s.offset else []

def renderAll (unit : List Char) (showOffsets : Bool) (statements : List Statement) : List Char :=
  ['\n'].intercalate (statements.map (chars unit showOffsets))

end Statement

end Decompiler
