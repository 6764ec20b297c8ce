/-!
Flags and options. Flags say how the body of a code object is read: as a comprehension, whose results go
into an accumulator, as a generator expression, or with its jumps left as they are. Those that the
options of a decompilation set hold for every segment, besides those that its name implies.
-/

namespace Decompiler

structure Flags where
  comprehension : Bool := false
  generatorExpression : Bool := false
  /-- Jumps are written as gotos, and no loop or branch is recovered from them. -/
  rawJumps : Bool := false
  deriving DecidableEq, Repr, Inhabited

namespace Flags

def comprehensionMarkers : List String := ["listcomp", "setcomp", "dictcomp"]

def generatorMarker : String := "genexpr"

/-- The flags that the name of a segment implies. Angle brackets and underscores that lead the name
do not count. -/
def ofName (name : String) : Flags :=
  let bare := name.toList.dropWhile fun c => c = '<' || c = '_'
  let marked (marker : String) : Bool := marker.toList.isPrefixOf bare
  { comprehension := comprehensionMarkers.any marked
    generatorExpression := marked generatorMarker }

def union (a b : Flags) : Flags :=
  { comprehension := a.comprehension || b.comprehension
    generatorExpression := a.generatorExpression || b.generatorExpression
    rawJumps := a.rawJumps || b.rawJumps }

@[simp] theorem union_default (a : Flags) : a.union {} = a := by
  cases a; simp [union]

end Flags

inductive Mode where
  /-- Statements that are written like Python. -/
  | pseudo
  /-- The records that the listing was read as. -/
  | instructions
  deriving DecidableEq, Repr, Inhabited

structure Options where
  mode : Mode := .pseudo
  /-- One level of indentation. -/
  indent : String := "\t"
  flags : Flags := {}
  deriving DecidableEq, Repr, Inhabited

end Decompiler
