import Decompiler.Text.Basic

/-!
Signatures. The parameters of a function are the names that its body loads before it ever stores
them, in the order of their first loads.
-/

namespace Decompiler

/-- What an instruction does with a name. -/
inductive Mention where
  | load (global : Bool) (name : String)
  | store (name : String)
  deriving DecidableEq, Repr

structure Signature where
  args : List String := []
  seen : List String := []
  deriving DecidableEq, Repr, Inhabited

namespace Signature

def constants : List String := ["True", "False", "None"]

/-- A load may also be of a constant, which is no name. -/
def isName (text : String) : Bool :=
  Text.isIdentifier text.toList && !constants.contains text

def mention (signature : Signature) : Mention → Signature
  | .load global name =>
      if isName name then
        { args :=
            if global || signature.seen.contains name then signature.args
            else signature.args ++ [name]
          seen := name :: signature.seen }
      else signature
  | .store name => { signature with seen := name :: signature.seen }

end Signature

end Decompiler
