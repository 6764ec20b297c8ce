import Mathlib.Data.List.Forall2
import Decompiler.Code
import Decompiler.Proofs.Source.Mnemonic
import Decompiler.Proofs.Text.Reading

/-!
Operations: instructions as a compiler means them, before they have a place. An operation fixes a
mnemonic and those operands that matter; the index of a name, the line number and what the listing
adds in parentheses are free. Where a stretch of code fits a list of operations, it is that list
compiled.
-/

namespace Decompiler

inductive Operation where
  | bare (opname : String)
  /-- The argument stands for a name, a constant or a symbol. -/
  | named (opname text : String)
  /-- The argument is a number. -/
  | counted (opname : String) (n : Nat)
  /-- The argument is the target itself. -/
  | absolute (opname : String) (target : Nat)
  /-- The target is listed after the argument, as in `(to 14)`. -/
  | relative (opname : String) (target : Nat)
  deriving DecidableEq, Repr

namespace Operation

def opname : Operation → String
  | bare opname | named opname _ | counted opname _ | absolute opname _ | relative opname _ =>
      opname

def opcode? (op : Operation) : Option Opcode := Opcode.ofName? op.opname

def isJump (op : Operation) : Bool := op.opcode?.any Opcode.isJump

def target? : Operation → Option Nat
  | absolute _ target | relative _ target => some target
  | _ => none

def listedTarget (target : Nat) : String := String.ofList ("to ".toList ++ Text.digits target)

def OperandsFit (ins : Instruction) : Operation → Prop
  | bare _ => True
  | named _ text => ins.argval = some text
  | counted _ n => ins.arg = some n
  | absolute _ target => ins.arg = some target ∧ ins.argval = none
  | relative _ target => ins.argval = some (listedTarget target)

instance (ins : Instruction) : (op : Operation) → Decidable (op.OperandsFit ins)
  | bare _ => inferInstanceAs (Decidable True)
  | named _ text => inferInstanceAs (Decidable (ins.argval = some text))
  | counted _ n => inferInstanceAs (Decidable (ins.arg = some n))
  | absolute _ target => inferInstanceAs (Decidable (ins.arg = some target ∧ ins.argval = none))
  | relative _ target => inferInstanceAs (Decidable (ins.argval = some (listedTarget target)))

structure Fits (op : Operation) (ins : Instruction) : Prop where
  opname : ins.opname = op.opname
  operands : op.OperandsFit ins

instance (op : Operation) (ins : Instruction) : Decidable (op.Fits ins) :=
  decidable_of_iff (ins.opname = op.opname ∧ op.OperandsFit ins)
    ⟨fun h => ⟨h.1, h.2⟩, fun h => ⟨h.opname, h.operands⟩⟩

theorem Fits.opcode? {op : Operation} {ins : Instruction} (h : op.Fits ins) :
    ins.opcode? = op.opcode? := by
  rw [Instruction.opcode?, h.opname, Operation.opcode?]

theorem isJump_eq_false {op : Operation} {opcode : Opcode} (hop : op.opcode? = some opcode)
    (hjump : opcode.isJump = false) : op.isJump = false := by
  rw [isJump, hop, Option.any_some, hjump]

theorem Fits.is_eq {op : Operation} {ins : Instruction} (h : op.Fits ins) (opcode : Opcode) :
    ins.is opcode = decide (op.opcode? = some opcode) := by
  rw [Instruction.is, h.opcode?]

theorem Fits.is_eq_true {op : Operation} {ins : Instruction} (h : op.Fits ins) {opcode : Opcode}
    (hop : op.opcode? = some opcode) : ins.is opcode = true := by
  rw [h.is_eq, decide_eq_true hop]

theorem Fits.is_eq_false {op : Operation} {ins : Instruction} (h : op.Fits ins)
    (hop : op.isJump = false) {opcode : Opcode} (hjump : opcode.isJump = true) :
    ins.is opcode = false := by
  rw [h.is_eq, decide_eq_false_iff_not]
  intro heq
  simp [isJump, heq, hjump] at hop

theorem jumpTarget?_relative {ins : Instruction} {target : Nat}
    (h : ins.argval = some (listedTarget target)) (hbound : target < Instruction.offsetBound) :
    ins.jumpTarget? = some target := by
  have hlisted : (listedTarget target).toList = "to ".toList ++ Text.digits target :=
    String.toList_ofList
  have hrest : "to ".toList.isPrefixOf? (listedTarget target).toList = some (Text.digits target) :=
    List.isPrefixOf?_eq_some_iff_append_eq.mpr hlisted.symm
  simp only [Instruction.jumpTarget?, h, Option.bind_some, hrest]
  rw [Text.trim_digits]
  exact Text.natural?_digits hbound

theorem jumpTarget?_absolute {opname : String} {ins : Instruction} {target : Nat}
    (h : (absolute opname target).Fits ins) : ins.jumpTarget? = some target := by
  obtain ⟨harg, hargval⟩ := h.operands
  simp [Instruction.jumpTarget?, hargval, harg]

/-- The target of a jump is read back from the instruction, if it is small enough for an offset. -/
theorem Fits.jumpTarget? {op : Operation} {ins : Instruction} {target : Nat} (h : op.Fits ins)
    (htarget : op.target? = some target) (hbound : target < Instruction.offsetBound) :
    ins.jumpTarget? = some target := by
  cases op with
  | bare _ => cases htarget
  | named _ _ => cases htarget
  | counted _ _ => cases htarget
  | absolute _ _ =>
      cases htarget
      exact jumpTarget?_absolute h
  | relative _ _ =>
      cases htarget
      exact jumpTarget?_relative h.operands hbound

end Operation

/-- The instructions of code from a position on fit a list of operations. -/
def FitsAt (code : Code) (start : Nat) (ops : List Operation) : Prop :=
  ∀ k op, ops[k]? = some op → ∃ ins, code[start + k]? = some ins ∧ op.Fits ins

namespace FitsAt

variable {code : Code} {start : Nat} {op : Operation} {ops more : List Operation}

theorem of_forall₂ (h : List.Forall₂ Operation.Fits ops ((code.drop start).take ops.length)) :
    FitsAt code start ops := by
  intro k op hk
  obtain ⟨hop, rfl⟩ := List.getElem?_eq_some_iff.mp hk
  have hins : k < ((code.drop start).take ops.length).length := h.length_eq ▸ hop
  have hfits := h.get hop hins
  rw [List.get_eq_getElem, List.get_eq_getElem, List.getElem_take, List.getElem_drop] at hfits
  exact ⟨_, List.getElem?_eq_getElem _, hfits⟩

theorem of_compiled (h : List.Forall₂ Operation.Fits ops code) : FitsAt code 0 ops := by
  refine of_forall₂ ?_
  rwa [List.drop_zero, h.length_eq, List.take_length]

theorem fits_of_getElem? {ins : Instruction} {k : Nat} (h : FitsAt code start ops)
    (hins : code[start + k]? = some ins) (hop : ops[k]? = some op) : op.Fits ins := by
  obtain ⟨other, hother, hfits⟩ := h k op hop
  rw [hins, Option.some.injEq] at hother
  exact hother ▸ hfits

theorem exists_mem {ins : Instruction} {k : Nat} (h : FitsAt code start ops)
    (hins : code[k]? = some ins) (hk : start ≤ k) (hk' : k < start + ops.length) :
    ∃ op ∈ ops, op.Fits ins := by
  have hlt : k - start < ops.length := by omega
  refine ⟨ops[k - start], List.getElem_mem hlt, ?_⟩
  exact h.fits_of_getElem? (by rwa [Nat.add_sub_of_le hk]) (List.getElem?_eq_getElem hlt)

/-- The last instruction of the stretch. -/
theorem getLast {ins : Instruction} (h : FitsAt code start ops)
    (hins : code[start + ops.length - 1]? = some ins) (hops : ops ≠ []) :
    ∃ op ∈ ops.getLast?, op.Fits ins := by
  have hpos : 0 < ops.length := List.length_pos_iff.mpr hops
  have hlast : ops[ops.length - 1]? = ops.getLast? := List.getLast?_eq_getElem?.symm
  refine ⟨ops.getLast hops, List.getLast?_eq_some_getLast hops, ?_⟩
  refine h.fits_of_getElem? ?_ (hlast.trans (List.getLast?_eq_some_getLast hops))
  rwa [← Nat.add_sub_assoc (by omega)]

theorem cast {start' : Nat} (h : FitsAt code start ops) (heq : start = start') :
    FitsAt code start' ops := heq ▸ h

theorem append_left (h : FitsAt code start (ops ++ more)) : FitsAt code start ops := by
  intro k op hk
  refine h k op ?_
  rw [List.getElem?_append_left (List.getElem?_eq_some_iff.mp hk).1]
  exact hk

theorem append_right (h : FitsAt code start (ops ++ more)) :
    FitsAt code (start + ops.length) more := by
  intro k op hk
  rw [Nat.add_assoc]
  refine h (ops.length + k) op ?_
  rw [List.getElem?_append_right (Nat.le_add_right ..), Nat.add_sub_cancel_left]
  exact hk

theorem head (h : FitsAt code start (op :: ops)) : ∃ ins, code[start]? = some ins ∧ op.Fits ins :=
  h 0 op rfl

theorem tail (h : FitsAt code start (op :: ops)) : FitsAt code (start + 1) ops := by
  intro k op hk
  rw [Nat.add_assoc, Nat.add_comm 1 k]
  exact h (k + 1) op hk

end FitsAt

def JumpFree (ops : List Operation) : Prop := ∀ op ∈ ops, op.isJump = false

namespace JumpFree

variable {op : Operation} {ops more : List Operation}

theorem append (h : JumpFree ops) (h' : JumpFree more) : JumpFree (ops ++ more) :=
  List.forall_mem_append.mpr ⟨h, h'⟩

theorem snoc (h : JumpFree ops) (hop : op.isJump = false) : JumpFree (ops ++ [op]) :=
  h.append (List.forall_mem_singleton.mpr hop)

theorem flatMap {α : Type} {items : List α} {compile : α → List Operation}
    (h : ∀ item ∈ items, JumpFree (compile item)) : JumpFree (items.flatMap compile) := by
  intro op hop
  obtain ⟨item, hitem, hop⟩ := List.mem_flatMap.mp hop
  exact h item hitem op hop

end JumpFree

/-- No dictionary display among the operations has entries. -/
def EntryFree (ops : List Operation) : Prop :=
  ∀ op ∈ ops, op.opname = "BUILD_MAP" → op = .counted "BUILD_MAP" 0

namespace EntryFree

variable {op : Operation} {ops more : List Operation}

instance (ops : List Operation) : Decidable (EntryFree ops) :=
  inferInstanceAs (Decidable (∀ op ∈ ops, op.opname = "BUILD_MAP" → op = .counted "BUILD_MAP" 0))

@[simp] theorem append_iff : EntryFree (ops ++ more) ↔ EntryFree ops ∧ EntryFree more :=
  List.forall_mem_append

@[simp] theorem cons_iff :
    EntryFree (op :: ops) ↔
      (op.opname = "BUILD_MAP" → op = .counted "BUILD_MAP" 0) ∧ EntryFree ops :=
  List.forall_mem_cons

@[simp] theorem flatMap_iff {α : Type} {items : List α} {compile : α → List Operation} :
    EntryFree (items.flatMap compile) ↔ ∀ item ∈ items, EntryFree (compile item) :=
  List.forall_mem_flatMap

end EntryFree

/-- The absolute jumps among the operations go to positions from `start` on and before `stop`. -/
def JumpsWithin (place : Nat → Nat) (start stop : Nat) (ops : List Operation) : Prop :=
  ∀ op ∈ ops, op.opcode? = some .jumpAbsolute →
    ∃ p, start ≤ p ∧ p < stop ∧ op = .absolute "JUMP_ABSOLUTE" (place p)

namespace JumpsWithin

variable {place : Nat → Nat} {start stop : Nat} {op : Operation} {ops more : List Operation}

theorem of_jumpFree (h : JumpFree ops) : JumpsWithin place start stop ops := by
  intro op hop hopcode
  have hfree := h op hop
  rw [Operation.isJump, hopcode] at hfree
  cases hfree

theorem of_opcode (opcode : Opcode) (hop : op.opcode? = some opcode)
    (hne : opcode ≠ .jumpAbsolute) : JumpsWithin place start stop [op] := by
  refine List.forall_mem_singleton.mpr fun hjump => ?_
  rw [hop, Option.some.injEq] at hjump
  exact absurd hjump hne

theorem back {p : Nat} (hstart : start ≤ p) (hstop : p < stop) :
    JumpsWithin place start stop [.absolute "JUMP_ABSOLUTE" (place p)] :=
  List.forall_mem_singleton.mpr fun _ => ⟨p, hstart, hstop, rfl⟩

theorem append (h : JumpsWithin place start stop ops) (h' : JumpsWithin place start stop more) :
    JumpsWithin place start stop (ops ++ more) :=
  List.forall_mem_append.mpr ⟨h, h'⟩

theorem mono {start' stop' : Nat} (h : JumpsWithin place start' stop' ops) (hstart : start ≤ start')
    (hstop : stop' ≤ stop) : JumpsWithin place start stop ops := by
  intro op hop hopcode
  obtain ⟨p, hp, hp', heq⟩ := h op hop hopcode
  exact ⟨p, by omega, by omega, heq⟩

end JumpsWithin

end Decompiler
