import Mathlib.Logic.Relation
import Decompiler.Proofs.Walk.Mentions
import Decompiler.Walk.Step

/-!
Positions on a walk. A walk is told here as moves of a cursor: it stands before an instruction of the
code in some state, and one step takes it behind the last instruction that the step takes in. What is
proved of single moves composes along the way from one position to another.
-/

namespace Decompiler

namespace Walk

def Moves (flags : Flags) (code : Code) (here there : Nat × State) : Prop :=
  ∃ ins skip, code[here.1]? = some ins ∧
    step flags code ins (code.drop (here.1 + 1)) here.2 = .ok (there.2, skip) ∧
    there.1 = here.1 + 1 + skip

/-- Any number of steps, none of which fails. -/
def Reaches (flags : Flags) (code : Code) : Nat × State → Nat × State → Prop :=
  Relation.ReflTransGen (Moves flags code)

variable {flags : Flags} {code : Code} {ins : Instruction} {n m : Nat} {state : State}

theorem Moves.signature {a b : Nat × State} (h : Moves flags code a b) :
    ∃ k, b.1 = a.1 + k ∧
      b.2.signature = a.2.signature.read flags ((code.drop a.1).take k) := by
  obtain ⟨ins, skip, hins, hstep, hthere⟩ := h
  refine ⟨skip + 1, by omega, ?_⟩
  rw [signature_step hstep, Code.drop_eq_cons hins, List.take_succ_cons]

namespace Reaches

variable {a b c : Nat × State}

theorem refl (flags : Flags) (code : Code) (a : Nat × State) : Reaches flags code a a :=
  Relation.ReflTransGen.refl

theorem trans (first : Reaches flags code a b) (last : Reaches flags code b c) :
    Reaches flags code a c := Relation.ReflTransGen.trans first last

theorem of_moves (h : Moves flags code a b) : Reaches flags code a b :=
  Relation.ReflTransGen.single h

/-- The rest of the walk is the same from a position that is reached. -/
theorem walk_eq (h : Reaches flags code a b) :
    walk flags code 0 (code.drop a.1) a.2 = walk flags code 0 (code.drop b.1) b.2 := by
  induction h using Relation.ReflTransGen.head_induction_on with
  | refl => rfl
  | head hmoves _ ih =>
      obtain ⟨ins, skip, hins, hstep, hthere⟩ := hmoves
      rw [Code.drop_eq_cons hins, walk, hstep, ok_bind, ← ih, hthere]
      dsimp only
      rw [walk_eq_walk_drop, List.drop_drop]

/-- The names met on the way are those of the instructions between the two positions. -/
theorem signature (h : Reaches flags code a b) :
    ∃ k, b.1 = a.1 + k ∧
      b.2.signature = a.2.signature.read flags ((code.drop a.1).take k) := by
  induction h using Relation.ReflTransGen.head_induction_on with
  | refl => exact ⟨0, rfl, by simp⟩
  | head hmoves _ ih =>
      obtain ⟨k, hk, hsignature⟩ := Moves.signature hmoves
      obtain ⟨l, hl, hrest⟩ := ih
      refine ⟨k + l, by omega, ?_⟩
      rw [hrest, hsignature, ← Signature.read_append, List.take_add, List.drop_drop, hk]

end Reaches

/-- Outside of a comprehension the first step is like all others. -/
theorem run_eq_walk (hflags : flags.comprehension = false) :
    run flags code = walk flags code 0 code {} := by
  cases code with
  | nil => rfl
  | cons ins ahead => simp [run, walk, hflags]

end Walk

open Walk

variable {flags : Flags} {code : Code} {state : State}

theorem reconstruct_of_reaches (hflags : flags.comprehension = false)
    (h : Reaches flags code (0, {}) (code.length, state)) :
    reconstruct flags code =
      .ok { statements := state.stack.reverse, args := state.signature.args } := by
  have hwalk := h.walk_eq
  rw [List.drop_zero, List.drop_length, walk] at hwalk
  rw [reconstruct, run_eq_walk hflags, hwalk]
  rfl

/-- In a comprehension the walk goes on from what the first instruction has made. -/
theorem reconstruct_of_collect {ins : Instruction} {ahead : Code} {next : State}
    (hflags : flags.comprehension = true)
    (hstep : step flags (ins :: ahead) ins ahead {} = .ok (next, 0))
    (h : Reaches flags (ins :: ahead) (1, next.collect ins.offset)
      ((ins :: ahead).length, state)) :
    reconstruct flags (ins :: ahead) =
      .ok { statements := state.stack.reverse, args := state.signature.args } := by
  have hwalk := h.walk_eq
  rw [List.drop_succ_cons, List.drop_zero, List.drop_length, walk] at hwalk
  rw [reconstruct, run, hstep, ok_bind]
  dsimp only
  rw [hflags, if_pos rfl, hwalk]
  rfl

end Decompiler
