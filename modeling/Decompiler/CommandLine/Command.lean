import Decompiler.Options
import Decompiler.Text.Basic

/-!
What a command line asks for. Options may stand before and after the path, each at most once, with
their value as the next argument or after an equals sign; all that follows `--` is no option.
-/

namespace Decompiler.CommandLine

inductive Command where
  | help
  | version
  | decompile (path : String) (options : Options)
  deriving DecidableEq, Repr

structure Request where
  path : Option String := none
  mode : Option Mode := none
  indentWidth : Option Nat := none
  flags : Flags := {}

namespace Request

/-- There is one path, and it is not empty. -/
def withPath? (request : Request) (path : String) : Option Request :=
  if request.path.isSome || path.isEmpty then none else some { request with path := some path }

/-- A width is a word of 64 bits. -/
def widthBound : Nat := 0x10000000000000000

def modes : List (String × Mode) := [("pseudo", .pseudo), ("instructions", .instructions)]

def withValue? (request : Request) (option value : String) : Option Request :=
  match option with
  | "--mode" =>
      if request.mode.isSome then none
      else (modes.lookup value).map fun mode => { request with mode := some mode }
  | "--indent-width" =>
      if request.indentWidth.isSome then none
      else (Text.natural? widthBound value.toList).map fun width =>
        { request with indentWidth := some width }
  | _ => none

def takesValue (option : String) : Bool := ["--mode", "--indent-width"].contains option

def withFlag? (request : Request) (option : String) : Option Request :=
  let flags := request.flags
  match option with
  | "--comprehension" =>
      if flags.comprehension then none
      else some { request with flags := { flags with comprehension := true } }
  | "--genexpr" =>
      if flags.generatorExpression then none
      else some { request with flags := { flags with generatorExpression := true } }
  | "--raw-jumps" =>
      if flags.rawJumps then none
      else some { request with flags := { flags with rawJumps := true } }
  | _ => none

/-- A width of indentation stands for so many spaces; without one a level is a tab. -/
def command? (request : Request) : Option Command :=
  request.path.map fun path =>
    let default : Options := {}
    .decompile path
      { mode := request.mode.getD default.mode
        indent :=
          match request.indentWidth with
          | some width => String.ofList (List.replicate width ' ')
          | none => default.indent
        flags := request.flags }

end Request

def isHelp (arg : String) : Bool := arg = "-h" || arg = "--help"

/-- A lone hyphen is a path. -/
def isOption (arg : String) : Bool := arg ≠ "-" && ['-'].isPrefixOf arg.toList

def attached? (arg : String) : Option (String × String) :=
  match arg.toList.span (· ≠ '=') with
  | (option, _ :: value) => some (String.ofList option, String.ofList value)
  | _ => none

def readRequest? (request : Request) : List String → Option Command
  | [] => request.command?
  | arg :: rest =>
      if arg = "--" then (rest.foldlM Request.withPath? request).bind Request.command?
      else if isHelp arg then some .help
      else if isOption arg then
        match attached? arg with
        | some (option, value) =>
            (request.withValue? option value).bind fun request => readRequest? request rest
        | none =>
            if Request.takesValue arg then
              match rest with
              | [] => none
              | value :: rest =>
                  (request.withValue? arg value).bind fun request => readRequest? request rest
            else (request.withFlag? arg).bind fun request => readRequest? request rest
      else (request.withPath? arg).bind fun request => readRequest? request rest

/-- The command of a command line; a line that means none is used wrongly. -/
def Command.parse? : List String → Option Command
  | [] | ["--"] | ["help"] => some .help
  | "decompile" :: "file" :: rest => readRequest? {} rest
  | "decompile" :: arg :: _ => if isHelp arg then some .help else none
  | arg :: _ =>
      if isHelp arg then some .help
      else if arg = "--version" || ['-', 'V'].isPrefixOf arg.toList then some .version
      else none

end Decompiler.CommandLine
