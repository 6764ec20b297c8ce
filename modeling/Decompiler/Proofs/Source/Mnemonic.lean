import Decompiler.Opcode

/-!
Mnemonics that compiled sources are made of, and the opcodes that they are read as.
-/

namespace Decompiler

namespace Opcode

theorem ofName?_of_mem {mnemonic : String} {op : Opcode} (h : (mnemonic, op) ∈ mnemonics) :
    ofName? mnemonic = some op := by
  have hall : ∀ entry ∈ mnemonics, ofName? entry.1 = some entry.2 := by decide
  exact hall _ h

def isJump : Opcode → Bool
  | forIter | popJumpIf _ | jumpAbsolute | jumpForward => true
  | _ => false

/-- Only displays and operators have mnemonics that are not in the table. -/
theorem mem_mnemonics_of_ofName? {mnemonic : String} {op : Opcode} (h : ofName? mnemonic = some op)
    (hbuild : ∀ kind, op ≠ .build kind) (hunary : ∀ o, op ≠ .unary o)
    (hbinary : ∀ o, op ≠ .binary o) (hinplace : ∀ o, op ≠ .inplace o) :
    (mnemonic, op) ∈ mnemonics := by
  rw [ofName?, Option.or_eq_some_iff] at h
  rcases h with h | ⟨-, h⟩
  · obtain ⟨before, after, hsplit, -⟩ := List.lookup_eq_some_iff.mp h
    rw [hsplit]
    simp
  · simp only [ofFamily?, Option.or_eq_some_iff, Option.map_eq_some_iff] at h
    rcases h with
      ⟨kind, -, rfl⟩ | ⟨-, ⟨o, -, rfl⟩ | ⟨-, ⟨o, -, rfl⟩ | ⟨-, o, -, rfl⟩⟩⟩
    · exact absurd rfl (hbuild kind)
    · exact absurd rfl (hunary o)
    · exact absurd rfl (hbinary o)
    · exact absurd rfl (hinplace o)

end Opcode

/-- The loads by the kind of variable; a constant is loaded like a local one. -/
inductive Load where
  | fast
  | name
  | global
  | const
  | deref
  | closure
  | classDeref
  deriving DecidableEq, Repr

inductive Store where
  | fast
  | name
  | global
  | deref
  deriving DecidableEq, Repr

namespace Load

def mnemonic : Load → String
  | fast => "LOAD_FAST"
  | name => "LOAD_NAME"
  | global => "LOAD_GLOBAL"
  | const => "LOAD_CONST"
  | deref => "LOAD_DEREF"
  | closure => "LOAD_CLOSURE"
  | classDeref => "LOAD_CLASSDEREF"

def isGlobal (load : Load) : Bool := load = global

@[simp] theorem ofName?_mnemonic (load : Load) :
    Opcode.ofName? load.mnemonic = some (.load load.isGlobal) := by
  cases load <;> exact Opcode.ofName?_of_mem (by decide)

end Load

namespace Store

def mnemonic : Store → String
  | fast => "STORE_FAST"
  | name => "STORE_NAME"
  | global => "STORE_GLOBAL"
  | deref => "STORE_DEREF"

@[simp] theorem ofName?_mnemonic (store : Store) :
    Opcode.ofName? store.mnemonic = some .store := by
  cases store <;> exact Opcode.ofName?_of_mem (by decide)

end Store

namespace Container

def mnemonic : Container → String
  | list => "BUILD_LIST"
  | tuple => "BUILD_TUPLE"
  | set => "BUILD_SET"

@[simp] theorem ofName?_mnemonic (kind : Container) :
    Opcode.ofName? kind.mnemonic = some (.build kind) := by
  cases kind <;> decide

end Container

namespace UnaryOperator

def mnemonic : UnaryOperator → String
  | positive => "UNARY_POSITIVE"
  | negative => "UNARY_NEGATIVE"
  | not => "UNARY_NOT"
  | invert => "UNARY_INVERT"

@[simp] theorem ofName?_mnemonic (op : UnaryOperator) :
    Opcode.ofName? op.mnemonic = some (.unary op) := by
  cases op <;> decide

end UnaryOperator

namespace BinaryOperator

def mnemonic : BinaryOperator → String
  | power => "BINARY_POWER"
  | multiply => "BINARY_MULTIPLY"
  | matrixMultiply => "BINARY_MATRIX_MULTIPLY"
  | floorDivide => "BINARY_FLOOR_DIVIDE"
  | trueDivide => "BINARY_TRUE_DIVIDE"
  | modulo => "BINARY_MODULO"
  | add => "BINARY_ADD"
  | subtract => "BINARY_SUBTRACT"
  | leftShift => "BINARY_LSHIFT"
  | rightShift => "BINARY_RSHIFT"
  | and => "BINARY_AND"
  | xor => "BINARY_XOR"
  | or => "BINARY_OR"

def inplaceMnemonic : BinaryOperator → String
  | power => "INPLACE_POWER"
  | multiply => "INPLACE_MULTIPLY"
  | matrixMultiply => "INPLACE_MATRIX_MULTIPLY"
  | floorDivide => "INPLACE_FLOOR_DIVIDE"
  | trueDivide => "INPLACE_TRUE_DIVIDE"
  | modulo => "INPLACE_MODULO"
  | add => "INPLACE_ADD"
  | subtract => "INPLACE_SUBTRACT"
  | leftShift => "INPLACE_LSHIFT"
  | rightShift => "INPLACE_RSHIFT"
  | and => "INPLACE_AND"
  | xor => "INPLACE_XOR"
  | or => "INPLACE_OR"

@[simp] theorem ofName?_mnemonic (op : BinaryOperator) :
    Opcode.ofName? op.mnemonic = some (.binary op) := by
  cases op <;> decide

@[simp] theorem ofName?_inplaceMnemonic (op : BinaryOperator) :
    Opcode.ofName? op.inplaceMnemonic = some (.inplace op) := by
  cases op <;> decide

end BinaryOperator

end Decompiler
