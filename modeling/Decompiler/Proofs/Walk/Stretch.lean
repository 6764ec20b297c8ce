import Decompiler.Proofs.Walk.Blocks
import Decompiler.Proofs.Walk.Course

/-!
Stretches of code. Whatever the walk over a stretch does, the statements that it adds have the offsets
of instructions in it, and they stand on what it leaves of those before.
-/

namespace Decompiler

/-- The offset of an instruction from the position `start` on and before `stop`. -/
def Code.Within (code : Code) (start stop offset : Nat) : Prop :=
  ∃ k ins, start ≤ k ∧ k < stop ∧ code[k]? = some ins ∧ ins.offset = offset

theorem Code.Within.sub {code : Code} {start stop start' stop' offset : Nat}
    (h : code.Within start stop offset) (hstart : start' ≤ start) (hstop : stop ≤ stop') :
    code.Within start' stop' offset := by
  obtain ⟨k, ins, hk, hk', hins, hoffset⟩ := h
  exact ⟨k, ins, by omega, by omega, hins, hoffset⟩

namespace Walk

variable {flags : Flags} {code : Code} {a b : Nat × State}

/-! ### Statements added -/

/-- Statements are added to what is left of those of a state, each by an instruction between two
positions. -/
def Tops (code : Code) (a b : Nat × State) : Prop :=
  ∃ fresh kept, b.2.stack = fresh ++ a.2.stack.drop kept ∧
    ∀ s ∈ fresh, code.Within a.1 b.1 s.offset

theorem Moves.lt (h : Moves flags code a b) : a.1 < b.1 := by
  obtain ⟨ins, skip, -, -, hthere⟩ := h
  omega

theorem Moves.tops (h : Moves flags code a b) : Tops code a b := by
  obtain ⟨ins, skip, hins, hstep, hthere⟩ := h
  obtain ⟨effect, -, hnext, -⟩ := step_eq_ok.mp hstep
  refine ⟨_, effect.pops, by rw [hnext]; rfl, fun s hs => ?_⟩
  obtain ⟨node, -, rfl⟩ := Option.map_eq_some_iff.mp (Option.mem_toList.mp hs)
  exact ⟨a.1, ins, Nat.le_refl _, by omega, hins, rfl⟩

theorem Reaches.le (h : Reaches flags code a b) : a.1 ≤ b.1 := by
  induction h with
  | refl => exact Nat.le_refl _
  | tail _ hmoves ih => exact ih.trans hmoves.lt.le

theorem Reaches.tops (h : Reaches flags code a b) : Tops code a b := by
  induction h with
  | refl => exact ⟨[], 0, rfl, List.forall_mem_nil _⟩
  | tail hreaches hmoves ih =>
      obtain ⟨fresh, kept, hstack, hfresh⟩ := ih
      obtain ⟨newer, kept', hstack', hnewer⟩ := hmoves.tops
      have hstart := Reaches.le hreaches
      have hstop := hmoves.lt
      rw [hstack, List.drop_append, List.drop_drop, ← List.append_assoc] at hstack'
      refine ⟨_, _, hstack', fun s hs => ?_⟩
      rcases List.mem_append.mp hs with hs | hs
      · exact (hnewer s hs).sub hstart (Nat.le_refl _)
      · exact (hfresh s (List.mem_of_mem_drop hs)).sub (Nat.le_refl _) hstop.le

/-- A statement that a stretch puts on top has the offset of an instruction in it. -/
theorem Reaches.within_of_pushed {n m : Nat} {state : State} {node : Node} {offset : Nat}
    {signature : Signature}
    (h : Reaches flags code (n, state) (m, state.pushed node offset signature)) :
    code.Within n m offset := by
  obtain ⟨fresh, kept, hstack, hfresh⟩ := h.tops
  have hlength := congrArg List.length hstack
  simp only [State.pushed, List.length_cons, List.length_append, List.length_drop] at hlength
  -- more statements are there than before, so the top is one of those that have been added
  cases fresh with
  | nil =>
      rw [List.length_nil] at hlength
      omega
  | cons top fresh =>
      rw [State.pushed, List.cons_append] at hstack
      have hwithin := hfresh top (List.mem_cons_self ..)
      rwa [← (List.cons.inj hstack).1] at hwithin

end Walk

end Decompiler
