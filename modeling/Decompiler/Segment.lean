import Decompiler.Text.Basic

/-!
Segments. A dump holds the listings of several code objects, each under a header line
`Disassembly of X:`. What stands before the first header is the listing of the module itself, and it
is no segment if it is blank. A code object is described as `<code object NAME at ADDRESS, …>`, and named
`NAME_ADDRESS`, without the angle brackets that a name such as `<lambda>` has itself.
-/

namespace Decompiler

structure Segment where
  name : String
  body : String
  deriving DecidableEq, Repr, Inhabited

namespace Segment

def codeObjectName? (descriptor : String) : Option String :=
  let described := "<code object ".toList.isPrefixOf? (Text.trim descriptor.toList)
  (described.bind (Text.cut " at ".toList)).bind fun (name, location) =>
    match location.takeWhile fun c => !(c = ',' || c = '>' || c = ' ') with
    | [] => none
    | address =>
        let bare := Text.dropEndWhile (· = '>') (name.dropWhile (· = '<'))
        some (String.ofList (bare ++ '_' :: address))

/-- The name of a segment, given what its header describes: that of a code object, or of anything
else as it stands, unless it is put in angle brackets. -/
def nameOf (described : List Char) : String :=
  match described with
  | '<' :: _ =>
      (codeObjectName? (String.ofList described)).getD (String.ofList (Text.sanitize described))
  | _ => String.ofList described

def mainName : String := "main"

def header? (line : List Char) : Option String :=
  (Text.between "Disassembly of ".toList [':'] (Text.trim line)).map nameOf

/-- The pieces of a text up to its first header, and for each header its name with the pieces up to
the next one. -/
def gather : List (List Char) → List (List Char) × List (String × List (List Char))
  | [] => ([], [])
  | piece :: rest =>
      let (body, later) := gather rest
      match header? piece with
      | some name => ([], (name, body) :: later)
      | none => (piece :: body, later)

/-- A segment that is passed over as long as no other has come before it. -/
def isBlankMain (segment : Segment) : Bool :=
  segment.name = mainName && segment.body.toList.all Text.isBlank

def split (dump : List Char) : List Segment :=
  let (body, later) := gather (Text.pieces dump)
  let segments := ((mainName, body) :: later).map fun (name, pieces) =>
    Segment.mk name (String.ofList pieces.flatten)
  segments.dropWhile isBlankMain

end Segment

end Decompiler
