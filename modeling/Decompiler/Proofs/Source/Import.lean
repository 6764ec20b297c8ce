import Decompiler.Proofs.Source.Goto

/-!
Absolute imports: their forms, the code they are compiled to, and their nodes. The level and the list
of names come first, then the import itself, and then what binds the names.
-/

namespace Decompiler

/-- A name without a dot. Modules are found along such names. -/
structure Component where
  text : String
  no_dot : '.' ∉ text.toList

/-- The dotted path of a module, which may be a single name. -/
structure ModulePath where
  first : Component
  deeper : List Component

namespace ModulePath

def dotted : Component → List Component → List Char
  | first, [] => first.text.toList
  | first, next :: deeper => first.text.toList ++ '.' :: dotted next deeper

def text (path : ModulePath) : String := String.ofList (dotted path.first path.deeper)

end ModulePath

/-- A name out of a module, and what binds it. -/
structure ImportedBinding where
  name : Keyword
  binding : Binding

def alias? (name bound : String) : Option String := if bound = name then none else some bound

namespace ImportedBinding

def ops (imported : ImportedBinding) : List Operation :=
  [.named "IMPORT_FROM" imported.name.text, imported.binding.op]

def node (imported : ImportedBinding) : ImportedName :=
  { name := imported.name.text, asName := alias? imported.name.text imported.binding.name }

end ImportedBinding

inductive Import where
  /-- As in `import a.b`, which binds the first name of the path. -/
  | module (path : ModulePath) (store : Store)
  /-- As in `import a as b` and `import a.b.c as d`. -/
  | aliased (path : ModulePath) (store : Store) (name : Component)
  /-- As in `from a.b import c, d as e`. -/
  | names (path : ModulePath) (first : ImportedBinding) (rest : List ImportedBinding)
  /-- As in `from a.b import *`. -/
  | star (path : ModulePath)

namespace Import

/-- The import of a module, with the level of an absolute path. -/
def header (path : ModulePath) (listed : String) : List Operation :=
  [.named Load.const.mnemonic "0", .named Load.const.mnemonic listed,
    .named "IMPORT_NAME" path.text]

/-- Each name after the first is taken out of the module before it, which is then dropped. -/
def descent (deeper : List Component) : List Operation :=
  deeper.flatMap fun component =>
    [.named "IMPORT_FROM" component.text, .bare "ROT_TWO", .bare "POP_TOP"]

theorem opcode?_from (name : String) :
    (Operation.named "IMPORT_FROM" name).opcode? = some .importFrom := rfl

theorem length_descent (deeper : List Component) :
    (descent deeper).length = 3 * deeper.length := by
  simp [descent, Nat.mul_comm]

theorem length_bindingOps (imports : List ImportedBinding) :
    (imports.flatMap ImportedBinding.ops).length = 2 * imports.length := by
  simp [ImportedBinding.ops, Nat.mul_comm]

def ops : Import → List Operation
  | module path store => header path "None" ++ [.named store.mnemonic path.first.text]
  | aliased path store name =>
      header path "None" ++ (descent path.deeper ++ [.named store.mnemonic name.text])
  | names path first rest =>
      header path (Expr.listedNames ((first :: rest).map ImportedBinding.name)) ++
        ((first :: rest).flatMap ImportedBinding.ops ++ [.bare "POP_TOP"])
  | star path => header path "('*',)" ++ [.bare "IMPORT_STAR"]

def node : Import → Node
  | module path _ => .importStmt path.text none
  | aliased path _ name => .importStmt path.text (alias? path.text name.text)
  | names path first rest => .fromImport path.text ((first :: rest).map ImportedBinding.node)
  | star path => .fromImport path.text [{ name := "*" }]

end Import

end Decompiler
