import Decompiler.Instruction.Basic
import Decompiler.Options

/-!
Options, modes, flags and instructions as JSON values. A record is read from an object that has its
fields, others are passed over, or from an array of just its fields in order. No value stands in for
one of another type. Integers are kept apart from numbers that are written with a fraction or an
exponent, because only the former stand for counts and offsets.
-/

namespace Decompiler

inductive Json where
  | null
  | bool (b : Bool)
  | int (n : Int)
  /-- A number that is not written as an integer. -/
  | decimal (text : String)
  | string (s : String)
  | array (items : List Json)
  /-- Fields in order; of several with one name the last one counts. -/
  | object (fields : List (String × Json))
  deriving Repr, Inhabited

namespace Json

def field? (fields : List (String × Json)) (name : String) : Option Json :=
  fields.reverse.lookup name

def asBool? : Json → Option Bool
  | bool b => some b
  | _ => none

def asString? : Json → Option String
  | string s => some s
  | _ => none

def asNat? (bound : Nat) : Json → Option Nat
  | int n => if 0 ≤ n ∧ n.toNat < bound then some n.toNat else none
  | _ => none

def asOption? {α : Type} (read : Json → Option α) : Json → Option (Option α)
  | null => some none
  | value => (read value).map some

def ofNat (n : Nat) : Json := int n

def ofOption {α : Type} (write : α → Json) : Option α → Json
  | none => null
  | some value => write value

/-- A field of a record: its name, and what an object without it means, if that is anything. -/
structure Field where
  name : String
  absent : Option Json := none

def record? (fields : List Field) : Json → Option (List Json)
  | .array items => if items.length = fields.length then some items else none
  | .object found => fields.mapM fun field => (field? found field.name).or field.absent
  | _ => none

end Json

open Json

namespace Mode

def name : Mode → String
  | pseudo => "Pseudo"
  | instructions => "Instructions"

def ofName? (text : String) : Option Mode :=
  [pseudo, instructions].find? fun mode => mode.name = text

def toJson (mode : Mode) : Json := .string mode.name

/-- A mode is its name, alone or as the one field of an object, with nothing as its value. -/
def ofJson? : Json → Option Mode
  | .string text => ofName? text
  | .object [(text, .null)] => ofName? text
  | _ => none

theorem ofJson?_toJson (mode : Mode) : ofJson? mode.toJson = some mode := by
  cases mode <;> decide

end Mode

namespace Flags

def fields : List Field :=
  [{ name := "comprehension" }, { name := "generator_expression" }, { name := "raw_jumps" }]

def toJson (flags : Flags) : Json :=
  .object [("comprehension", .bool flags.comprehension),
    ("generator_expression", .bool flags.generatorExpression), ("raw_jumps", .bool flags.rawJumps)]

def ofValues? : List Json → Option Flags
  | [comprehension, generatorExpression, rawJumps] => do
      let comprehension ← comprehension.asBool?
      let generatorExpression ← generatorExpression.asBool?
      let rawJumps ← rawJumps.asBool?
      return { comprehension, generatorExpression, rawJumps }
  | _ => none

def ofJson? (value : Json) : Option Flags := (record? fields value).bind ofValues?

theorem ofJson?_toJson (flags : Flags) : ofJson? flags.toJson = some flags := rfl

end Flags

namespace Options

def fields : List Field := [{ name := "mode" }, { name := "indent" }] ++ Flags.fields

def toJson (options : Options) : Json :=
  .object [("mode", options.mode.toJson), ("indent", .string options.indent),
    ("comprehension", .bool options.flags.comprehension),
    ("generator_expression", .bool options.flags.generatorExpression),
    ("raw_jumps", .bool options.flags.rawJumps)]

def ofValues? : List Json → Option Options
  | mode :: indent :: flags => do
      let mode ← Mode.ofJson? mode
      let indent ← indent.asString?
      let flags ← Flags.ofValues? flags
      return { mode, indent, flags }
  | _ => none

def ofJson? (value : Json) : Option Options := (record? fields value).bind ofValues?

theorem ofJson?_toJson (options : Options) : ofJson? options.toJson = some options := by
  obtain ⟨mode, indent, flags⟩ := options
  cases mode <;> rfl

end Options

namespace Instruction

def fields : List Field :=
  [{ name := "line_num", absent := some .null }, { name := "offset" }, { name := "opname" },
    { name := "arg", absent := some .null }, { name := "argval", absent := some .null }]

def toJson (ins : Instruction) : Json :=
  .object [("line_num", .ofOption .ofNat ins.lineNum), ("offset", .ofNat ins.offset),
    ("opname", .string ins.opname), ("arg", .ofOption .ofNat ins.arg),
    ("argval", .ofOption .string ins.argval)]

def ofValues? : List Json → Option Instruction
  | [lineNum, offset, opname, arg, argval] => do
      let lineNum ← lineNum.asOption? (asNat? wordBound)
      let offset ← offset.asNat? offsetBound
      let opname ← opname.asString?
      let arg ← arg.asOption? (asNat? wordBound)
      let argval ← argval.asOption? asString?
      return { lineNum, offset, opname, arg, argval }
  | _ => none

def ofJson? (value : Json) : Option Instruction := (record? fields value).bind ofValues?

end Instruction

end Decompiler
