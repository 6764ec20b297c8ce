import Decompiler.Operator

/-!
Opcodes. Mnemonics that act alike are gathered into one opcode. A mnemonic is looked up in a table
first; one that is not there may still belong to a family, such as `BINARY_` with the name of a
binary operator. What is neither is not recognised.
-/

namespace Decompiler

inductive Opcode where
  | loadAttr
  /-- A load by name or of a constant; the names of globals are never parameters. -/
  | load (global : Bool)
  | store
  | returnValue
  | yieldValue
  | build (kind : Container)
  | buildMap
  | buildSlice
  | getIter
  | forIter
  | popJumpIf (onTrue : Bool)
  | jumpAbsolute
  | jumpForward
  | importName
  | importFrom
  | importStar
  | raiseVarargs
  | callFunction
  | callFunctionKw
  | callFunctionEx
  | makeFunction
  | listAppend
  | setAdd
  | mapAdd
  | unpackSequence
  | unpackEx
  | compareOp
  | isOp
  | containsOp
  | binarySubscr
  | storeSubscr
  | unary (op : UnaryOperator)
  | binary (op : BinaryOperator)
  | inplace (op : BinaryOperator)
  | nop
  | popTop
  deriving DecidableEq, Repr, Inhabited

namespace Opcode

def mnemonics : List (String × Opcode) :=
  [("LOAD_METHOD", loadAttr), ("LOAD_ATTR", loadAttr),
    ("LOAD_GLOBAL", load true),
    ("LOAD_FAST", load false), ("LOAD_NAME", load false), ("LOAD_CONST", load false),
    ("LOAD_DEREF", load false), ("LOAD_CLOSURE", load false), ("LOAD_CLASSDEREF", load false),
    ("STORE_FAST", store), ("STORE_NAME", store), ("STORE_GLOBAL", store), ("STORE_DEREF", store),
    ("RETURN_VALUE", returnValue), ("YIELD_VALUE", yieldValue),
    ("BUILD_MAP", buildMap), ("BUILD_SLICE", buildSlice),
    ("GET_ITER", getIter), ("FOR_ITER", forIter),
    ("POP_JUMP_IF_FALSE", popJumpIf false), ("POP_JUMP_IF_TRUE", popJumpIf true),
    ("JUMP_ABSOLUTE", jumpAbsolute), ("JUMP_FORWARD", jumpForward),
    ("IMPORT_NAME", importName), ("IMPORT_FROM", importFrom), ("IMPORT_STAR", importStar),
    ("RAISE_VARARGS", raiseVarargs),
    ("CALL_FUNCTION", callFunction), ("CALL_METHOD", callFunction),
    ("CALL_FUNCTION_KW", callFunctionKw), ("CALL_FUNCTION_EX", callFunctionEx),
    ("MAKE_FUNCTION", makeFunction),
    ("LIST_APPEND", listAppend), ("SET_ADD", setAdd), ("MAP_ADD", mapAdd),
    ("UNPACK_SEQUENCE", unpackSequence), ("UNPACK_EX", unpackEx),
    ("COMPARE_OP", compareOp), ("IS_OP", isOp), ("CONTAINS_OP", containsOp),
    ("BINARY_SUBSCR", binarySubscr), ("STORE_SUBSCR", storeSubscr),
    ("NOP", nop), ("POP_TOP", popTop)]

/-- The value whose name a text spells, capital and small ASCII letters alike. -/
def spelled? {α : Type} (values : List α) (name : α → String) (text : List Char) : Option α :=
  values.find? fun value => (name value).toList = text.map Char.toLower

/-- The members of a family: a stem and then the name of a display or of an operator. -/
def ofFamily? (mnemonic : List Char) : Option Opcode :=
  let member {α : Type} (stem : String) (values : List α) (name : α → String) : Option α :=
    (stem.toList.isPrefixOf? mnemonic).bind (spelled? values name)
  ((member "BUILD_" Container.all Container.name).map build).or <|
    ((member "UNARY_" UnaryOperator.all UnaryOperator.name).map unary).or <|
      ((member "BINARY_" BinaryOperator.all BinaryOperator.name).map binary).or <|
        (member "INPLACE_" BinaryOperator.all BinaryOperator.name).map inplace

def ofName? (mnemonic : String) : Option Opcode :=
  (mnemonics.lookup mnemonic).or (ofFamily? mnemonic.toList)

end Opcode

end Decompiler
