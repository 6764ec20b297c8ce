import Decompiler.Proofs.Source.Expression
import Decompiler.Proofs.Source.Pattern

/-!
Programs, the operations they are compiled to, and the lines that are written for them. A program is
compiled at the position at which its code starts; `place` tells the offset of a position, and jumps
go to offsets. A branch jumps over its `else`, and a loop jumps back to its test or to the step of its
iterator.
-/

namespace Decompiler

inductive Simple where
  | assign (store : Store) (name : String) (value : Expr)
  /-- An operation in place, as in `x += 1`. -/
  | augment (load : Load) (store : Store) (name : String) (op : BinaryOperator) (value : Expr)
  | setItem (container index value : Expr)
  | eval (e : Expr)
  | ret (value : Expr)
  | raise (exception : Expr)

mutual

inductive Stmt where
  | simple (s : Simple)
  | ifThen (test : Expr) (body : Block)
  | ifElse (test : Expr) (body other : Block)
  | whileLoop (test : Expr) (body : Block)
  | forLoop (pattern : Pattern) (iterable : Expr) (body : Block)

/-- Bodies, which have at least one statement. -/
inductive Block where
  | single (s : Stmt)
  | seq (s : Stmt) (rest : Block)

end

namespace Simple

def ops : Simple → List Operation
  | assign store name value => value.ops ++ [.named store.mnemonic name]
  | augment load store name op value =>
      [.named load.mnemonic name] ++ value.ops ++
        [.bare op.inplaceMnemonic, .named store.mnemonic name]
  | setItem container index value =>
      value.ops ++ container.ops ++ index.ops ++ [.bare "STORE_SUBSCR"]
  | eval e => e.ops ++ [.bare "POP_TOP"]
  | ret value => value.ops ++ [.bare "RETURN_VALUE"]
  | raise exception => exception.ops ++ [.counted "RAISE_VARARGS" 1]

def tree (r : Reading) : Simple → Node
  | assign _ name value => .assign (.atom name) (value.tree r)
  | augment _ _ name op value => .inplace op name (value.tree r)
  | setItem container index value => .itemAssign (container.tree r) (index.tree r) (value.tree r)
  | eval e => e.tree r
  | ret value => .returnStmt (value.tree r)
  | raise exception => .raiseStmt (some (exception.tree r)) none

theorem tree_ne_elseHead (r : Reading) (s : Simple) : s.tree r ≠ .elseHead := by
  cases s with
  | eval e => exact e.tree_ne_elseHead r
  | _ => nofun

theorem length_ops_pos (s : Simple) : 0 < s.ops.length := by
  cases s <;> simp only [ops, List.length_append, List.length_cons] <;> omega

theorem jumpFree_ops (s : Simple) : JumpFree s.ops := by
  cases s with
  | assign store name value =>
      exact value.jumpFree_ops.snoc (Operation.isJump_eq_false (Store.ofName?_mnemonic store) rfl)
  | augment load store name op value =>
      have hload : JumpFree [.named load.mnemonic name] :=
        List.forall_mem_singleton.mpr
          (Operation.isJump_eq_false (Load.ofName?_mnemonic load) rfl)
      have hinplace : Operation.isJump (.bare op.inplaceMnemonic) = false :=
        Operation.isJump_eq_false (BinaryOperator.ofName?_inplaceMnemonic op) rfl
      have hstore : Operation.isJump (.named store.mnemonic name) = false :=
        Operation.isJump_eq_false (Store.ofName?_mnemonic store) rfl
      exact (hload.append value.jumpFree_ops).append
        (List.forall_mem_cons.mpr ⟨hinplace, List.forall_mem_singleton.mpr hstore⟩)
  | setItem container index value =>
      exact ((value.jumpFree_ops.append container.jumpFree_ops).append index.jumpFree_ops).snoc rfl
  | eval e => exact e.jumpFree_ops.snoc rfl
  | ret value => exact value.jumpFree_ops.snoc rfl
  | raise exception => exact exception.jumpFree_ops.snoc rfl

end Simple

mutual

def Stmt.size : Stmt → Nat
  | .simple s => s.ops.length
  | .ifThen test body => test.ops.length + 1 + body.size
  | .ifElse test body other => test.ops.length + 1 + body.size + 1 + other.size
  | .whileLoop test body => test.ops.length + 1 + body.size + 1
  | .forLoop pattern iterable body =>
      iterable.ops.length + 1 + 1 + pattern.ops.length + body.size + 1

def Block.size : Block → Nat
  | .single s => s.size
  | .seq s rest => s.size + rest.size

end

mutual

def Stmt.ops (place : Nat → Nat) : Nat → Stmt → List Operation
  | _, .simple s => s.ops
  | start, .ifThen test body =>
      let inner := start + test.ops.length + 1
      test.ops ++ [.absolute "POP_JUMP_IF_FALSE" (place (inner + body.size))] ++
        body.ops place inner
  | start, .ifElse test body other =>
      let inner := start + test.ops.length + 1
      let middle := inner + body.size + 1
      test.ops ++ [.absolute "POP_JUMP_IF_FALSE" (place middle)] ++ body.ops place inner ++
        [.relative "JUMP_FORWARD" (place (middle + other.size))] ++ other.ops place middle
  | start, .whileLoop test body =>
      let inner := start + test.ops.length + 1
      test.ops ++ [.absolute "POP_JUMP_IF_FALSE" (place (inner + body.size + 1))] ++
        body.ops place inner ++ [.absolute "JUMP_ABSOLUTE" (place start)]
  | start, .forLoop pattern iterable body =>
      let head := start + iterable.ops.length + 1
      let inner := head + 1 + pattern.ops.length
      iterable.ops ++ [.bare "GET_ITER"] ++
        ([.relative "FOR_ITER" (place (inner + body.size + 1))] ++ pattern.ops) ++
        body.ops place inner ++ [.absolute "JUMP_ABSOLUTE" (place head)]

def Block.ops (place : Nat → Nat) : Nat → Block → List Operation
  | start, .single s => s.ops place start
  | start, .seq s rest => s.ops place start ++ rest.ops place (start + s.size)

end

def Stmt.isIf : Stmt → Bool
  | .ifThen _ _ | .ifElse _ _ _ => true
  | _ => false

/-- The head of a branch, which is an `elif` where the branch is all that an `else` has in it. -/
def branchHead (elif : Bool) (test : Node) : Node := if elif then .elifHead test else .ifHead test

mutual

/-- The lines of a statement, each with the depth it is nested to. -/
def Stmt.lines (r : Reading) (elif : Bool) (depth : Nat) : Stmt → List (Nat × Node)
  | .simple s => [(depth, s.tree r)]
  | .ifThen test body => (depth, branchHead elif (test.tree r)) :: body.lines r (depth + 1)
  | .ifElse test body other =>
      (depth, branchHead elif (test.tree r)) :: body.lines r (depth + 1) ++ other.elseLines r depth
  | .whileLoop test body => (depth, .whileHead (test.tree r)) :: body.lines r (depth + 1)
  | .forLoop pattern iterable body =>
      (depth, .forHead pattern.target.node (iterable.tree r)) :: body.lines r (depth + 1)

def Block.lines (r : Reading) (depth : Nat) : Block → List (Nat × Node)
  | .single s => s.lines r false depth
  | .seq s rest => s.lines r false depth ++ rest.lines r depth

/-- The lines of the body of an `else` together with its head. -/
def Block.elseLines (r : Reading) (depth : Nat) : Block → List (Nat × Node)
  | .single s =>
      if s.isIf then s.lines r true depth else (depth, .elseHead) :: s.lines r false (depth + 1)
  | .seq s rest =>
      (depth, .elseHead) :: (s.lines r false (depth + 1) ++ rest.lines r (depth + 1))

end

/-! ### What holds of compiled statements -/

theorem Stmt.induction {motive : Stmt → Prop} {p : Block → Prop}
    (simple : ∀ s, motive (.simple s))
    (ifThen : ∀ test body, p body → motive (.ifThen test body))
    (ifElse : ∀ test body other, p body → p other → motive (.ifElse test body other))
    (whileLoop : ∀ test body, p body → motive (.whileLoop test body))
    (forLoop : ∀ pattern iterable body, p body → motive (.forLoop pattern iterable body))
    (single : ∀ s, motive s → p (.single s))
    (seq : ∀ s rest, motive s → p rest → p (.seq s rest)) :
    (∀ s, motive s) ∧ ∀ body, p body :=
  ⟨@Stmt.rec motive p simple ifThen ifElse whileLoop forLoop single seq,
    @Block.rec motive p simple ifThen ifElse whileLoop forLoop single seq⟩

/-- The operations of a statement or a body jump back to nowhere but among themselves, and the last of
them does not jump over an `else`. -/
structure Contained (place : Nat → Nat) (start size : Nat) (ops : List Operation) : Prop where
  length : ops.length = size
  pos : 0 < size
  within : JumpsWithin place start (start + size) ops
  last : ∀ op ∈ ops.getLast?, op.opcode? ≠ some .jumpForward

namespace Contained

variable {place : Nat → Nat} {start size : Nat} {op : Operation} {ops more : List Operation}

theorem of_jumpFree (h : JumpFree ops) (hpos : 0 < ops.length) :
    Contained place start ops.length ops where
  length := rfl
  pos := hpos
  within := .of_jumpFree h
  last := by
    intro op hop hopcode
    have hfree := h op (List.mem_of_mem_getLast? hop)
    rw [Operation.isJump, hopcode] at hfree
    cases hfree

/-- Operations put in front of others do not change where they end. -/
theorem prepend {start' size' : Nat} (h : Contained place start' size' more)
    (hops : JumpsWithin place start (start + size) ops) (hstart : start' = start + ops.length)
    (hsize : size = ops.length + size') : Contained place start size (ops ++ more) where
  length := by rw [List.length_append, h.length, hsize]
  pos := by have := h.pos; omega
  within := hops.append (h.within.mono (by omega) (by omega))
  last := by
    have hmore : more ≠ [] := List.ne_nil_of_length_pos (h.length ▸ h.pos)
    rw [List.getLast?_append_of_ne_nil _ hmore]
    exact h.last

/-- A jump back at the end. -/
theorem close (hops : JumpsWithin place start (start + size) ops) (hsize : size = ops.length + 1)
    {p : Nat} (hp : start ≤ p) (hp' : p < start + size) :
    Contained place start size (ops ++ [.absolute "JUMP_ABSOLUTE" (place p)]) where
  length := by rw [List.length_append, hsize]; rfl
  pos := by omega
  within := hops.append (.back hp hp')
  last := by
    intro op hop
    rw [List.getLast?_append_of_ne_nil _ (by simp)] at hop
    have hjump : (Operation.absolute "JUMP_ABSOLUTE" (place p)).opcode? = some .jumpAbsolute := rfl
    cases hop
    rw [List.getLast_singleton, hjump]
    decide

end Contained

theorem jumpsWithin_test {place : Nat → Nat} {start stop : Nat} (test : Expr) (target : Nat) :
    JumpsWithin place start stop (test.ops ++ [.absolute "POP_JUMP_IF_FALSE" target]) :=
  (JumpsWithin.of_jumpFree test.jumpFree_ops).append (.of_opcode (.popJumpIf false) rfl nofun)

theorem jumpsWithin_iteration {place : Nat → Nat} {start stop : Nat} (pattern : Pattern)
    (iterable : Expr) (target : Nat) :
    JumpsWithin place start stop
      (iterable.ops ++ [.bare "GET_ITER"] ++ ([.relative "FOR_ITER" target] ++ pattern.ops)) :=
  ((JumpsWithin.of_jumpFree iterable.jumpFree_ops).append (.of_opcode .getIter rfl nofun)).append
    ((JumpsWithin.of_opcode .forIter rfl nofun).append (.of_jumpFree pattern.jumpFree_ops))

theorem contained_ops (place : Nat → Nat) :
    (∀ (s : Stmt) start, Contained place start s.size (s.ops place start)) ∧
      ∀ (body : Block) start, Contained place start body.size (body.ops place start) := by
  apply Stmt.induction
  case simple =>
    intro s start
    exact .of_jumpFree s.jumpFree_ops s.length_ops_pos
  case ifThen =>
    intro test body hbody start
    rw [Stmt.ops]
    refine (hbody _).prepend (jumpsWithin_test test _) ?_ ?_
    · simp [Nat.add_assoc]
    · simp [Stmt.size]
  case ifElse =>
    intro test body other hbody hother start
    rw [Stmt.ops]
    refine (hother _).prepend
      (((jumpsWithin_test test _).append ?_).append (.of_opcode .jumpForward rfl nofun)) ?_ ?_
    · refine (hbody _).within.mono (by omega) ?_
      rw [Stmt.size]
      omega
    · simp [(hbody _).length]
      omega
    · simp [(hbody _).length, Stmt.size]
      omega
  case whileLoop =>
    intro test body hbody start
    rw [Stmt.ops]
    refine .close ((jumpsWithin_test test _).append ?_) ?_ (Nat.le_refl start) ?_
    · refine (hbody _).within.mono (by omega) ?_
      rw [Stmt.size]
      omega
    · simp [(hbody _).length, Stmt.size]
      omega
    · rw [Stmt.size]
      omega
  case forLoop =>
    intro pattern iterable body hbody start
    rw [Stmt.ops]
    refine .close ((jumpsWithin_iteration pattern iterable _).append ?_) ?_ ?_ ?_
    · refine (hbody _).within.mono (by omega) ?_
      rw [Stmt.size]
      omega
    · simp [(hbody _).length, Stmt.size]
      omega
    · omega
    · rw [Stmt.size]
      omega
  case single => exact fun s hs start => hs start
  case seq =>
    intro s rest hs hrest start
    rw [Block.ops]
    refine (hrest _).prepend ((hs start).within.mono (Nat.le_refl start) ?_) ?_ ?_
    · rw [Block.size]
      omega
    · rw [(hs start).length]
    · rw [(hs start).length, Block.size]

end Decompiler
