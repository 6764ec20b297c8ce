import Decompiler.Instruction.Listing
import Decompiler.Options
import Decompiler.Segment
import Decompiler.Walk.Step

/-!
The text of a dump. That of a segment is a function definition with its statements, or a table of its
instructions. Comment lines of a dump are dropped and the blanks at both ends; the text of what is left
is that of its segments in order, with an empty line between two of them.
-/

namespace Decompiler

namespace Segment

def line (text : List Char) : List Char := text ++ ['\n']

/-- A function with its statements one level inside, or `pass` if there are none. -/
def definition (name : String) (indent : List Char) (showOffsets : Bool) (found : Reconstruction) :
    List Char :=
  let args := [','].intercalate (found.args.map String.toList)
  let head := line ("def ".toList ++ name.toList ++ '(' :: args ++ [')', ':'])
  let body :=
    match found.statements with
    | [] => ["pass".toList]
    | statements => Text.lines (Statement.renderAll indent showOffsets statements)
  head ++ body.flatMap fun text => line (indent ++ text)

def table (name : String) (code : Code) : List Char :=
  line ("segment ".toList ++ name.toList ++ " (instructions=".toList ++
      Text.digits code.length ++ [')']) ++
    code.flatMap fun ins => line ins.render.toList

def flags (segment : Segment) (options : Options) : Flags :=
  (Flags.ofName segment.name).union options.flags

def chars (segment : Segment) (options : Options) : Except Error (List Char) :=
  let code := Listing.parse segment.body.toList
  let flags := segment.flags options
  match options.mode with
  | .pseudo =>
      (reconstruct flags code).map (definition segment.name options.indent.toList flags.rawJumps)
  | .instructions => .ok (table segment.name code)

def decompile (segment : Segment) (options : Options) : Except Error String :=
  (segment.chars options).map String.ofList

end Segment

namespace Dump

def isComment (line : List Char) : Bool := (Text.trimStart line).head? = some '#'

def stripComments (dump : List Char) : List Char :=
  Text.trim (['\n'].intercalate ((Text.lines dump).filter fun line => !isComment line))

/-- The text of a dump, or the error of the first segment that has one. -/
def decompile (dump : String) (options : Options) : Except Error String :=
  let segments := Segment.split (stripComments dump.toList)
  (segments.mapM (Segment.chars · options)).map fun texts =>
    String.ofList (['\n'].intercalate texts)

end Dump

end Decompiler
