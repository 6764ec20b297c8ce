import Decompiler.Json.Record
import Decompiler.Main
import Decompiler.Proofs.Parameters
import Decompiler.Proofs.Source.Expression
import Decompiler.Proofs.Walk.Pushing
import Decompiler.Proofs.Recovery.Keywords
import Decompiler.Proofs.Recovery.Expression
import Decompiler.Proofs.Source.Pattern
import Decompiler.Proofs.Walk.Layout
import Decompiler.Proofs.Walk.Blocks
import Decompiler.Proofs.Source.Program
import Decompiler.Proofs.Walk.Heads
import Decompiler.Proofs.Recovery.Branch
import Decompiler.Proofs.Recovery.Simple
import Decompiler.Proofs.Recovery.Loop
import Decompiler.Proofs.Recovery.Program
import Decompiler.Proofs.Source.Comprehension
import Decompiler.Proofs.Recovery.Comprehension
import Decompiler.Proofs.Walk.Order
import Decompiler.Proofs.Indentation.Balance
import Decompiler.Proofs.Indentation.Ends
import Decompiler.Proofs.Indentation.Layout
import Decompiler.Proofs.Loops.Innermost
import Decompiler.Proofs.Loops.Tests
import Decompiler.Proofs.Dump.Meaningful
import Decompiler.Proofs.Listing.Printed
import Decompiler.Proofs.Operands.Conservation
import Decompiler.Proofs.Recovery.Goto
import Decompiler.Proofs.Function.Link
import Decompiler.Proofs.Dump.Joined
import Decompiler.Proofs.Rendering.Unambiguous
import Decompiler.Proofs.Listing.Table
import Decompiler.Proofs.Recovery.TailLoop
import Decompiler.Proofs.Rendering.Bases
import Decompiler.Proofs.Statements.Order
import Decompiler.Proofs.Unpacking.Binding
import Decompiler.Proofs.Walk.Failures
import Decompiler.Proofs.Recovery.Import
import Decompiler.Proofs.Dump.Stretches
import Decompiler.Proofs.Dump.Headers
import Decompiler.Proofs.Recovery.Dict
import Decompiler.Proofs.Statements.Lines
import Decompiler.Proofs.Statements.Accumulator
import Decompiler.Proofs.Listing.Prefixes
import Decompiler.Proofs.Function.Mode
import Decompiler.Proofs.Walk.Partition
import Decompiler.Proofs.Function.Sanitized
