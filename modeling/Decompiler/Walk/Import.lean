import Decompiler.Code
import Decompiler.Text.Basic
import Decompiler.Walk.Basic

/-!
Imports. An import is one statement together with the instructions that bind its names: one store
for a module, a walk down the dotted path and a store for a submodule under a name of its own,
pairs of `IMPORT_FROM` and a store for names out of a module.
-/

namespace Decompiler.Walk

def components (path : String) : List String :=
  (Text.split (· = '.') path.toList).map String.ofList

/-- The name under which a submodule is bound. Each component after the first is taken out of the
module before it, which is then dropped. -/
def submoduleName? : List String → List Instruction → Option String
  | [], store :: _ => store.storedName?
  | component :: deeper, source :: swap :: drop :: ahead =>
      if source.is .importFrom && source.argval = some component && swap.opname = "ROT_TWO" &&
          drop.opname = "POP_TOP" then
        submoduleName? deeper ahead
      else none
  | _, _ => none

/-- The names that are imported from a module, up to the first pair that is not complete. -/
def importedNames (origin : Instruction) : List Instruction → Except Error (List ImportedName)
  | source :: store :: ahead =>
      if source.is .importFrom && store.isStore then do
        let name ← source.requireName
        let bound ← store.requireName
        let rest ← importedNames origin ahead
        return { name, asName := if bound = name then none else some bound } :: rest
      else .ok []
  | [source] =>
      if source.is .importFrom then .error (.unexpectedEnd origin.offset origin.opname)
      else .ok []
  | [] => .ok []

/-- An import of a module binds its first component, unless it is stored under another name. -/
def importModule (module stored : String) : Node :=
  .importStmt module
    (if stored = module || (components module).head? = some stored then none else some stored)

def importForm (ins : Instruction) (module : String) : Code → Except Error Effect
  | [] => .error (.unexpectedEnd ins.offset ins.opname)
  | next :: ahead =>
      match next.opcode? with
      | some .store => do
          let stored ← next.requireName
          return { Effect.replace 2 (importModule module stored) with
            mentions := [.store stored]
            swallows := 1 }
      | some .importFrom =>
          let deeper := (components module).drop 1
          match submoduleName? deeper (next :: ahead) with
          | some name =>
              .ok { Effect.replace 2 (.importStmt module (some name)) with
                mentions := [.store name]
                swallows := 3 * deeper.length + 1 }
          | none => do
              match ← importedNames ins (next :: ahead) with
              | [] => return { Effect.placeholder ins with pops := 2 }
              | names =>
                  return { Effect.replace 2 (.fromImport module names) with
                    mentions := names.map fun imported => .store imported.bound
                    swallows := 2 * names.length }
      | some .importStar =>
          .ok { Effect.replace 2 (.fromImport module [{ name := "*" }]) with swallows := 1 }
      | _ => .ok { Effect.placeholder ins with pops := 2 }

/-- Levels are words of 64 bits with a sign. -/
def levelBound : Nat := 0x8000000000000000

def isAbsoluteLevel : Node → Bool
  | .atom text => Text.integer? levelBound text.toList = some 0
  | _ => false

/-- An import takes its level and its list of names off the stack; a relative one stays as it is. -/
def importName (ins : Instruction) (ahead : Code) (state : State) : Except Error Effect := do
  let module ← ins.requireName
  let (level, _) ← operands2 ins state.stack
  if isAbsoluteLevel level then importForm ins module ahead
  else return { Effect.placeholder ins with pops := 2 }

end Decompiler.Walk
