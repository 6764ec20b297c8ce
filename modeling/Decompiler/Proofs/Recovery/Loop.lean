import Decompiler.Proofs.Recovery.Expression
import Decompiler.Proofs.Walk.Heads

/-!
Loops with a test are recovered: what stands before the target of the test jumps back to its start, and
nothing after the loop does. Loops over an iterator begin with the iterator, which is left on the stack.
-/

namespace Decompiler

open Walk

variable {code : Code} {place : Nat → Nat} {ins back : Instruction} {start last : Nat} {test : Expr}

/-! ### Loops with a test -/

theorem headsWhile_of_back (hlaid : LaidOut place code) (hfits : FitsAt code start test.ops)
    (hback : code[last]? = some back)
    (hjump : (Operation.absolute "JUMP_ABSOLUTE" (place start)).Fits back) :
    code.headsWhile (place (start + test.ops.length)) (place (last + 1)) = true := by
  -- nothing in the test of the loop is a test of its own
  have htest : ∀ ins ∈ code, place start ≤ ins.offset →
      ins.offset < place (start + test.ops.length) → ins.isTest = false := by
    intro ins hmem hstart hstop
    obtain ⟨k, hk⟩ := List.mem_iff_getElem?.mp hmem
    rw [hlaid.offset k ins hk] at hstart hstop
    obtain ⟨op, hop, hopfits⟩ := hfits.exists_mem hk (hlaid.increasing.le_iff_le.mp hstart)
      (hlaid.place_lt_iff.mp hstop)
    have hfree := test.jumpFree_ops op hop
    have his {opcode : Opcode} (hjump : opcode.isJump = true) : ins.is opcode = false :=
      hopfits.is_eq_false hfree hjump
    rw [Instruction.isTest, Instruction.isConditionalJump, his rfl, his rfl, his rfl]
    rfl
  have hbefore : place start < place (start + test.ops.length) := by
    have := test.length_ops_pos
    exact hlaid.place_lt_iff.mpr (by omega)
  have his : back.is .jumpAbsolute = true := hjump.is_eq_true rfl
  have hnone : code.any (fun ins => place start ≤ ins.offset &&
      ins.offset < place (start + test.ops.length) && ins.isTest) = false := by
    refine List.any_eq_false.mpr fun ins hmem h => ?_
    simp only [Bool.and_eq_true, decide_eq_true_eq] at h
    rw [htest ins hmem h.1.1 h.1.2] at h
    exact absurd h.2 (by decide)
  rw [Code.headsWhile, hlaid.beforeOffset?_place hback, Option.any_some, his,
    Operation.jumpTarget?_absolute hjump, Option.any_some, hnone]
  simpa using hbefore

/-- The test of a loop and the jump behind the loop leave the head of the loop. -/
theorem reaches_whileHead (state : State) (hlaid : LaidOut place code)
    (hfits : FitsAt code start (test.ops ++ [.absolute "POP_JUMP_IF_FALSE" (place (last + 1))]))
    (hback : code[last]? = some back)
    (hjump : (Operation.absolute "JUMP_ABSOLUTE" (place start)).Fits back)
    (hclear : Clear place start (last + 1) state.pending)
    (hlast : start + test.ops.length < last) :
    ∃ offset signature,
      Reaches {} code (start, state)
        (start + test.ops.length + 1,
          (state.pushed (.whileHead (test.tree (.built {}))) offset signature).opened 1 (place (last + 1))) := by
  obtain ⟨ins, offset, signature, hins, hop, hoffset, hquiet, htest⟩ :=
    reaches_test (test.pushes {}) state hlaid hfits hclear (by omega)
  have hforward : ins.offset < place (last + 1) := by
    rw [hoffset]
    exact hlaid.place_lt_iff.mpr (by omega)
  have hwhile : code.headsWhile ins.offset (place (last + 1)) = true := by
    rw [hoffset]
    exact headsWhile_of_back hlaid hfits.append_left hback hjump
  have heffect : effect {} code ins (code.drop (start + test.ops.length + 1))
      (state.pushed (test.tree (.built {})) offset signature) =
        .ok (.block 1 (.whileHead (test.tree (.built {}))) (some (place (last + 1)))) := by
    rw [effect_test rfl hop.opcode? (Operation.jumpTarget?_absolute hop), branch, if_pos hforward,
      if_pos hwhile]
    rfl
  exact ⟨_, _, htest.trans (reaches_head state hins hquiet heffect)⟩

/-- The jump at the end of the loop does nothing. -/
theorem effect_endWhile (hlaid : LaidOut place code) (hfits : FitsAt code start test.ops)
    (hins : code[last]? = some ins)
    (hjump : (Operation.absolute "JUMP_ABSOLUTE" (place start)).Fits ins)
    (hreturn : NoReturn code place start (last + 1)) (hlast : start ≤ last)
    (ahead : Code) (state : State) : effect {} code ins ahead state = .ok {} := by
  have hopcode : ins.opcode? = some .jumpAbsolute := hjump.opcode?
  have htarget : ins.jumpTarget? = some (place start) := Operation.jumpTarget?_absolute hjump
  have hoffset : ins.offset = place last := hlaid.offset last ins hins
  obtain ⟨op, ops, hops⟩ := List.exists_cons_of_ne_nil test.ops_ne_nil
  obtain ⟨first, hfirst, hopfits⟩ := (hops ▸ hfits).head
  have hfree : op.isJump = false := test.jumpFree_ops op (by simp [hops])
  have hiter : first.is .forIter = false := hopfits.is_eq_false hfree rfl
  have hback : ¬ ins.offset < place start := by
    rw [hoffset, hlaid.place_lt_iff]
    omega
  have hafter : code.jumpsBackAfter ins.offset (place start) = false := by
    refine List.any_eq_false.mpr fun other hmem h => ?_
    obtain ⟨k, hk⟩ := List.mem_iff_getElem?.mp hmem
    rw [Bool.and_eq_true, decide_eq_true_eq, hoffset, hlaid.offset k other hk,
      hlaid.place_lt_iff] at h
    rw [hreturn k other start (by omega) hk (Nat.le_refl start) (by omega)] at h
    exact absurd h.2 (by decide)
  rw [effect, hopcode]
  dsimp only [opcodeEffect]
  rw [absoluteJump, Instruction.requireTarget_eq_ok.mpr htarget, ok_bind, if_neg (by simp),
    hlaid.atOffset?_place, hfirst]
  dsimp only
  rw [hiter, if_neg (by simp), if_neg hback, hafter]
  rfl

/-! ### Iterators -/

/-- The code of an iterable and the request for its iterator leave the iterator. -/
theorem reaches_iter {flags : Flags} {ops : List Operation} {node : Node}
    (h : Pushes flags ops node) (state : State) (hlaid : LaidOut place code)
    (hfits : FitsAt code start (ops ++ [.bare "GET_ITER"]))
    (hclear : Clear place start (start + ops.length + 1) state.pending) :
    ∃ offset signature,
      Reaches flags code (start, state)
        (start + ops.length + 1, state.pushed (.iter node) offset signature) := by
  have hiter : Pushes flags (ops ++ [.bare "GET_ITER"]) (.iter node) := by
    refine pushes_wrap .iter h fun code ins ahead state hop => ?_
    have hopcode : (Operation.bare "GET_ITER").opcode? = some .getIter := rfl
    rw [effect_of_fits hop hopcode, opcodeEffect]
  have hlength : (ops ++ [Operation.bare "GET_ITER"]).length = ops.length + 1 := by
    rw [List.length_append, List.length_singleton]
  obtain ⟨offset, signature, hreaches⟩ := hiter.pushed state hfits
    (hlength ▸ (hclear.quiet hlaid : Quiet code start (ops.length + 1) state.pending))
  rw [hlength, ← Nat.add_assoc] at hreaches
  exact ⟨offset, signature, hreaches⟩

/-- The code up to the body of a loop over an iterator leaves the head of the loop. -/
theorem reaches_forLoop {flags : Flags} {ops : List Operation} {node : Node} {stop : Nat}
    (h : Pushes flags ops node) (state : State) (hlaid : LaidOut place code) (pattern : Pattern)
    (hfits : FitsAt code start (ops ++ [.bare "GET_ITER"] ++
      ([.relative "FOR_ITER" (place stop)] ++ pattern.ops)))
    (hstop : stop ≤ code.length) (hclear : Clear place start (start + ops.length + 2) state.pending) :
    ∃ offset signature,
      Reaches flags code (start, state)
        (start + ops.length + 1 + 1 + pattern.ops.length,
          (state.pushed (.forHead pattern.target.node node) offset signature).opened 1
            (place stop)) := by
  have hhead : FitsAt code (start + ops.length + 1) _ :=
    hfits.append_right.cast (by rw [List.length_append, List.length_singleton, Nat.add_assoc])
  obtain ⟨next, hnext, -⟩ := hhead.append_left.head
  obtain ⟨offset, signature, hiterator⟩ := reaches_iter h state hlaid hfits.append_left
    (hclear.sub (Nat.le_refl start) (by omega))
  have hquiet : ∀ change ∈ state.pending, change.target ≠ next.offset := by
    rw [hlaid.offset _ next hnext]
    exact fun change hchange => hclear change hchange _ (by omega) (by omega)
  obtain ⟨offset', signature', hstep⟩ :=
    reaches_forHead state pattern (hlaid.place_lt_offsetBound hstop) hhead hnext hquiet
  exact ⟨offset', signature', hiterator.trans hstep⟩

end Decompiler
