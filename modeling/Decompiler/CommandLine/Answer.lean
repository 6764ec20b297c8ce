import Decompiler.CommandLine.Command
import Decompiler.Dump
import Decompiler.Text.Quoted

/-!
What the program answers to a command line: an exit code and what is written to the two outputs.
Nothing is written to the first output unless the exit code is zero.
-/

namespace Decompiler.CommandLine

inductive ReadFailure where
  | notFound
  | isDirectory
  | notDirectory
  | denied
  /-- The bytes are no text in UTF-8. -/
  | notText
  | other (reason : String)
  deriving DecidableEq, Repr

def ReadFailure.reason : ReadFailure → String
  | notFound => "No such file or directory (os error 2)"
  | denied => "Permission denied (os error 13)"
  | notDirectory => "Not a directory (os error 20)"
  | isDirectory => "Is a directory (os error 21)"
  | notText => "stream did not contain valid UTF-8"
  | other reason => reason

def decode (bytes : ByteArray) : Except ReadFailure String :=
  match String.fromUTF8? bytes with
  | some text => .ok text
  | none => .error .notText

structure Answer where
  exit : Nat := 0
  stdout : String := ""
  stderr : String := ""
  deriving DecidableEq, Repr

def usage : String :=
  "Python disassembly decompiler CLI\n\n" ++
  "Usage: dedis_cli [COMMAND]\n\n" ++
  "Commands:\n" ++
  "  decompile   Decompiles `dis` output back into Python-like source\n" ++
  "  completion  Generate shell completion\n" ++
  "  help        Print this message or the help of the given subcommand(s)\n\n" ++
  "Options:\n" ++
  "  -h, --help     Print help\n" ++
  "  -V, --version  Print version\n"

def version : String := "dedis_cli 0.1.0\n"

/-- The path that stands for the standard input. -/
def standardInput : String := "-"

def failedRead (path : String) (failure : ReadFailure) : Answer :=
  let shown := String.ofList (Text.quoted path.toList)
  { exit := 1, stderr := s!"failed to read {shown}: {failure.reason}\n" }

def decompiled (dump : String) (options : Options) : Answer :=
  match Dump.decompile dump options with
  | .ok text => { stdout := text }
  | .error error => { exit := 1, stderr := s!"decompile error: {error.message}\n" }

def misused : Answer := { exit := 2, stderr := usage }

def respond {m : Type → Type} [Monad m] (read : String → m (Except ReadFailure ByteArray))
    (args : List String) : m Answer :=
  match Command.parse? args with
  | none => pure misused
  | some .help => pure { stdout := usage }
  | some .version => pure { stdout := version }
  | some (.decompile path options) => do
      match (← read path).bind decode with
      | .ok dump => pure (decompiled dump options)
      | .error failure => pure (failedRead path failure)

end Decompiler.CommandLine
