import Decompiler.Proofs.Source.Program

/-!
Loops whose body ends with a branch, the operations they are compiled to, and the lines that are
written for them. The test of such a branch jumps straight back to the step of the iterator. The
branch may go on with the loop early: `if test: continue` jumps there too, if its test holds. The end
of the branch is taken to be where the first of these jumps has been passed, so what comes after the
first `continue` is not written inside the branch.
-/

namespace Decompiler

/-- The nodes that a simple statement is written as under flags. What a comprehension returns is not
the value that the code has put, so that value is left as a statement. -/
def Simple.nodes (flags : Flags) (r : Reading) : Simple → List Node
  | .ret value =>
      if flags.comprehension then [value.tree r, .returnStmt .accumulator]
      else [.returnStmt (value.tree r)]
  | s => [s.tree r]

def Simple.lines (flags : Flags) (r : Reading) (depth : Nat) (s : Simple) : List (Nat × Node) :=
  (s.nodes flags r).map fun node => (depth, node)

/-- A part of the branch before its last statement. -/
inductive Piece where
  | simple (s : Simple)
  /-- `if test: continue` -/
  | skip (test : Expr)

/-- A loop with simple statements and then a branch as its body. -/
structure TailLoop where
  pattern : Pattern
  iterable : Expr
  front : List Simple
  test : Expr
  pieces : List Piece
  last : Simple

/-! ### Code -/

namespace Piece

def size : Piece → Nat
  | simple s => s.ops.length
  | skip test => test.ops.length + 2

/-- The code at a position in a loop with its head at another. -/
def ops (place : Nat → Nat) (head start : Nat) : Piece → List Operation
  | simple s => s.ops
  | skip test =>
      test.ops ++ [.absolute "POP_JUMP_IF_FALSE" (place (start + test.ops.length + 2))] ++
        [.absolute "JUMP_ABSOLUTE" (place head)]

def lines (flags : Flags) (r : Reading) (depth : Nat) : Piece → List (Nat × Node)
  | simple s => s.lines flags r depth
  | skip test =>
      [(depth, .ifHead (test.tree r)), (depth + 1, .continueStmt)]

def isSimple : Piece → Bool
  | simple _ => true
  | skip _ => false

def total : List Piece → Nat
  | [] => 0
  | piece :: rest => piece.size + total rest

def allOps (place : Nat → Nat) (head : Nat) : Nat → List Piece → List Operation
  | _, [] => []
  | start, piece :: rest =>
      piece.ops place head start ++ allOps place head (start + piece.size) rest

@[simp] theorem length_ops (place : Nat → Nat) (head start : Nat) (piece : Piece) :
    (piece.ops place head start).length = piece.size := by
  cases piece with
  | simple s => rfl
  | skip test => simp [ops, size]

theorem size_pos (piece : Piece) : 0 < piece.size := by
  cases piece with
  | simple s => exact s.length_ops_pos
  | skip test => exact Nat.succ_pos _

theorem total_append (pieces more : List Piece) :
    total (pieces ++ more) = total pieces + total more := by
  induction pieces with
  | nil => rw [List.nil_append, total, Nat.zero_add]
  | cons piece rest ih => rw [List.cons_append, total, total, ih, Nat.add_assoc]

@[simp] theorem length_allOps (place : Nat → Nat) (head start : Nat) (pieces : List Piece) :
    (allOps place head start pieces).length = total pieces := by
  induction pieces generalizing start with
  | nil => rfl
  | cons piece rest ih => simp [allOps, total, ih]

theorem allOps_append (place : Nat → Nat) (head start : Nat) (pieces more : List Piece) :
    allOps place head start (pieces ++ more) =
      allOps place head start pieces ++ allOps place head (start + total pieces) more := by
  induction pieces generalizing start with
  | nil => simp [allOps, total]
  | cons piece rest ih => simp [allOps, total, ih, Nat.add_assoc]

end Piece

namespace TailLoop

def toHead (t : TailLoop) : Nat := t.iterable.ops.length + 1

def branch (t : TailLoop) : List Piece := t.pieces ++ [.simple t.last]

/-- The position of the branch behind its test, seen from the start. -/
def toBranch (t : TailLoop) : Nat :=
  t.toHead + 1 + t.pattern.ops.length + (Piece.total (t.front.map .simple)) +
    t.test.ops.length + 1

def size (t : TailLoop) : Nat := t.toBranch + Piece.total t.branch + 1

def ops (place : Nat → Nat) (start : Nat) (t : TailLoop) : List Operation :=
  let head := start + t.toHead
  t.iterable.ops ++ [.bare "GET_ITER"] ++
    ([.relative "FOR_ITER" (place (start + t.size))] ++ t.pattern.ops) ++
    t.front.flatMap Simple.ops ++
    (t.test.ops ++ [.absolute "POP_JUMP_IF_FALSE" (place head)] ++
      Piece.allOps place head (start + t.toBranch) t.branch) ++
    [.absolute "JUMP_ABSOLUTE" (place head)]

end TailLoop

/-! ### Lines -/

namespace Piece

/-- The pieces up to the first `if test: continue`. -/
def throughSkip : List Piece → List Piece
  | [] => []
  | simple s :: rest => simple s :: throughSkip rest
  | skip test :: _ => [skip test]

/-- The pieces behind the first `if test: continue`. -/
def afterSkip : List Piece → List Piece
  | [] => []
  | simple _ :: rest => afterSkip rest
  | skip _ :: rest => rest

def allLines (flags : Flags) (r : Reading) (depth : Nat) (pieces : List Piece) : List (Nat × Node) :=
  pieces.flatMap (lines flags r depth)

@[simp] theorem allLines_nil (flags : Flags) (r : Reading) (depth : Nat) : allLines flags r depth [] = [] := rfl

theorem throughSkip_append_afterSkip (pieces : List Piece) :
    throughSkip pieces ++ afterSkip pieces = pieces := by
  induction pieces with
  | nil => rfl
  | cons piece rest ih =>
      cases piece with
      | simple s => rw [throughSkip, afterSkip, List.cons_append, ih]
      | skip test => rfl

theorem allOps_map_simple (place : Nat → Nat) (head start : Nat) (statements : List Simple) :
    allOps place head start (statements.map simple) = statements.flatMap Simple.ops := by
  induction statements generalizing start with
  | nil => rfl
  | cons s rest ih => rw [List.map_cons, allOps, ih, ops, List.flatMap_cons]

theorem allLines_map_simple (flags : Flags) (r : Reading) (depth : Nat) (statements : List Simple) :
    allLines flags r depth (statements.map simple) =
      statements.flatMap (Simple.lines flags r depth) :=
  List.flatMap_map _ _ _

theorem jumpsWithin_allOps {place : Nat → Nat} {head low high : Nat} (start : Nat)
    {pieces : List Piece} (h : ∀ piece ∈ pieces, piece.isSimple = true) :
    JumpsWithin place low high (allOps place head start pieces) := by
  induction pieces generalizing start with
  | nil => exact nofun
  | cons piece rest ih =>
      obtain ⟨hpiece, hrest⟩ := List.forall_mem_cons.mp h
      cases piece with
      | simple s => exact (JumpsWithin.of_jumpFree s.jumpFree_ops).append (ih _ hrest)
      | skip test => cases hpiece

/-- Either there is no `continue`, or the first one ends what comes up to it. -/
theorem exists_skip (pieces : List Piece) :
    (∀ piece ∈ pieces, piece.isSimple = true) ∧ throughSkip pieces = pieces ∧
        afterSkip pieces = [] ∨
      ∃ front test, (∀ piece ∈ front, piece.isSimple = true) ∧
        throughSkip pieces = front ++ [skip test] := by
  induction pieces with
  | nil => exact .inl ⟨nofun, rfl, rfl⟩
  | cons piece rest ih =>
      cases piece with
      | skip test => exact .inr ⟨[], test, nofun, rfl⟩
      | simple s =>
          rcases ih with ⟨hall, hthrough, hafter⟩ | ⟨front, test, hall, hthrough⟩
          · exact .inl ⟨List.forall_mem_cons.mpr ⟨rfl, hall⟩, by rw [throughSkip, hthrough],
              by rw [afterSkip, hafter]⟩
          · exact .inr ⟨simple s :: front, test, List.forall_mem_cons.mpr ⟨rfl, hall⟩,
              by rw [throughSkip, hthrough, List.cons_append]⟩

theorem exists_lines_eq_cons (flags : Flags) (r : Reading) (depth : Nat) (piece : Piece) :
    ∃ node more, piece.lines flags r depth = (depth, node) :: more := by
  cases piece with
  | skip test => exact ⟨_, _, rfl⟩
  | simple s =>
      cases s with
      | ret value =>
          rw [lines, Simple.lines, Simple.nodes]
          split
          · exact ⟨_, _, rfl⟩
          · exact ⟨_, _, rfl⟩
      | _ => exact ⟨_, _, rfl⟩

/-- The lines of some pieces tell the depth they stand at, if there are any. -/
theorem allLines_eq_iff (flags : Flags) (r : Reading) (depth other : Nat) (pieces : List Piece) :
    allLines flags r depth pieces = allLines flags r other pieces ↔ depth = other ∨ pieces = [] := by
  constructor
  · intro h
    cases pieces with
    | nil => exact .inr rfl
    | cons piece rest =>
        obtain ⟨node, more, hlines⟩ := piece.exists_lines_eq_cons flags r depth
        obtain ⟨node', more', hlines'⟩ := piece.exists_lines_eq_cons flags r other
        rw [allLines, allLines, List.flatMap_cons, List.flatMap_cons, hlines, hlines'] at h
        exact .inl (Prod.mk.inj (List.cons.inj h).1).1
  · rintro (rfl | rfl) <;> rfl

theorem afterSkip_append_simple (pieces : List Piece) (s : Simple) :
    afterSkip (pieces ++ [simple s]) = [] ↔ ∀ piece ∈ pieces, piece.isSimple = true := by
  induction pieces with
  | nil => simp [afterSkip]
  | cons piece rest ih =>
      cases piece with
      | simple s => simp [afterSkip, isSimple, ih]
      | skip test => simp [afterSkip, isSimple]

end Piece

namespace TailLoop

/-- The lines of the loop up to the branch, and the head of the branch. -/
def headLines (flags : Flags) (r : Reading) (depth : Nat) (t : TailLoop) : List (Nat × Node) :=
  (depth, .forHead t.pattern.target.node (t.iterable.tree r)) ::
    t.front.flatMap (Simple.lines flags r (depth + 1)) ++ [(depth + 1, .ifHead (t.test.tree r))]

/-- The lines of the loop as it is nested. -/
def nestedLines (flags : Flags) (r : Reading) (depth : Nat) (t : TailLoop) : List (Nat × Node) :=
  t.headLines flags r depth ++ Piece.allLines flags r (depth + 2) t.branch

/-- The lines that are written: what comes after the first `continue` of the branch stands where the
branch does. -/
def lines (flags : Flags) (r : Reading) (depth : Nat) (t : TailLoop) : List (Nat × Node) :=
  t.headLines flags r depth ++ Piece.allLines flags r (depth + 2) (Piece.throughSkip t.branch) ++
    Piece.allLines flags r (depth + 1) (Piece.afterSkip t.branch)

/-- Only a branch without `continue` is written as it is nested. -/
theorem lines_eq_nestedLines_iff (flags : Flags) (r : Reading) (depth : Nat) (t : TailLoop) :
    t.lines flags r depth = t.nestedLines flags r depth ↔
      ∀ piece ∈ t.pieces, piece.isSimple = true := by
  have hbranch : Piece.allLines flags r (depth + 2) t.branch =
      Piece.allLines flags r (depth + 2) (Piece.throughSkip t.branch) ++
        Piece.allLines flags r (depth + 2) (Piece.afterSkip t.branch) := by
    rw [Piece.allLines, Piece.allLines, Piece.allLines, ← List.flatMap_append,
      Piece.throughSkip_append_afterSkip]
  have hdepth : depth + 1 ≠ depth + 2 := by omega
  rw [lines, nestedLines, hbranch, ← List.append_assoc, List.append_cancel_left_eq,
    Piece.allLines_eq_iff, or_iff_right hdepth, branch, Piece.afterSkip_append_simple]

end TailLoop

end Decompiler
