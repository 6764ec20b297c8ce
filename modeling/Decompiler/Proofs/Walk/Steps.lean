import Decompiler.Proofs.Walk.Course

/-!
The steps of a run as a list. What is asked of every step of a run can be decided on it, for code
that is given. The list is told here by the positions at which the run arrives.
-/

namespace Decompiler.Walk

/-- A step: its instruction, the state once the changes of level that wait for the instruction have
taken place, and its effect. -/
structure Made where
  ins : Instruction
  settled : State
  effect : Effect

/-- The steps from a position on, up to the first that fails. -/
def stepsFrom (flags : Flags) (code : Code) : Nat → Nat → Code → State → List Made
  | _, _, [], _ => []
  | n, skip + 1, _ :: ahead, state => stepsFrom flags code (n + 1) skip ahead state
  | n, 0, ins :: ahead, state =>
      let settled := state.settle ins.offset
      match effect flags code ins ahead settled with
      | .error _ => []
      | .ok effect =>
          ⟨ins, settled, effect⟩ :: stepsFrom flags code (n + 1) effect.swallows ahead
            ((settled.apply ins.offset effect).leave flags n ins.offset)

def steps (flags : Flags) (code : Code) : List Made := stepsFrom flags code 0 0 code {}

variable {flags : Flags} {code : Code} {ins : Instruction} {ahead : Code} {n skip : Nat}
  {state last : State} {past : List Instruction} {effect : Effect} {made : Made}

theorem stepsFrom_skip (n skip : Nat) (ahead : Code) (state : State) :
    stepsFrom flags code n skip ahead state =
      stepsFrom flags code (n + skip) 0 (ahead.drop skip) state := by
  induction ahead generalizing n skip with
  | nil => simp [stepsFrom]
  | cons ins rest ih =>
      cases skip with
      | zero => rfl
      | succ k => rw [stepsFrom, ih, List.drop_succ_cons, Nat.add_right_comm, Nat.add_assoc]

theorem stepsFrom_of_effect (hins : code[n]? = some ins)
    (heffect : Walk.effect flags code ins (code.drop (n + 1)) (state.settle ins.offset) =
      .ok effect) :
    stepsFrom flags code n 0 (code.drop n) state =
      ⟨ins, state.settle ins.offset, effect⟩ ::
        stepsFrom flags code (n + 1 + effect.swallows) 0 (code.drop (n + 1 + effect.swallows))
          (((state.settle ins.offset).apply ins.offset effect).leave flags n ins.offset) := by
  rw [Code.drop_eq_cons hins, stepsFrom]
  simp only [heffect]
  rw [stepsFrom_skip, List.drop_drop]

theorem mem_of_mem_stepsFrom (h : made ∈ stepsFrom flags code n skip ahead state) :
    made.ins ∈ ahead := by
  induction ahead generalizing n skip state with
  | nil => cases h
  | cons ins rest ih =>
      cases skip with
      | succ k => exact List.mem_cons_of_mem _ (ih h)
      | zero =>
          rw [stepsFrom] at h
          split at h
          · cases h
          · rcases List.mem_cons.mp h with rfl | h
            · exact List.mem_cons_self ..
            · exact List.mem_cons_of_mem _ (ih h)

namespace Arrives

/-- The steps behind a position, and the steps from there on. -/
theorem exists_steps (h : Arrives flags code n state past) :
    ∃ before, steps flags code = before ++ stepsFrom flags code n 0 (code.drop n) state ∧
      before.map Made.ins = past.reverse := by
  induction h with
  | start => exact ⟨[], by rw [List.drop_zero, steps, List.nil_append], rfl⟩
  | step h hins hstep ih =>
      rename_i n skip state next ins past
      obtain ⟨before, hsteps, hbefore⟩ := ih
      obtain ⟨effect, heffect, rfl, rfl⟩ := step_eq_ok.mp hstep
      refine ⟨before ++ [⟨ins, state.settle ins.offset, effect⟩], ?_, by simp [hbefore]⟩
      rw [hsteps, stepsFrom_of_effect hins heffect, List.append_assoc, List.singleton_append]

/-- The step at a position where the run arrives is one of its steps. -/
theorem mem_steps (h : Arrives flags code n state past) (hins : code[n]? = some ins)
    (heffect : Walk.effect flags code ins (code.drop (n + 1)) (state.settle ins.offset) =
      .ok effect) :
    ⟨ins, state.settle ins.offset, effect⟩ ∈ steps flags code := by
  obtain ⟨before, hsteps, -⟩ := h.exists_steps
  rw [hsteps, stepsFrom_of_effect hins heffect]
  exact List.mem_append_right _ (List.mem_cons_self ..)

theorem head?_steps (h : Arrives flags code 0 state past) (hins : code[0]? = some ins)
    (heffect : Walk.effect flags code ins (code.drop 1) (state.settle ins.offset) = .ok effect) :
    (steps flags code).head? = some ⟨ins, state.settle ins.offset, effect⟩ := by
  obtain ⟨-, rfl, -⟩ | hpos := h.eq_start_or_pos
  · have hsteps := stepsFrom_of_effect hins heffect
    rw [List.drop_zero] at hsteps
    rw [steps, hsteps, List.head?_cons]
  · exact absurd hpos (Nat.lt_irrefl 0)

/-- A step at a smaller offset lies behind. -/
theorem mem_past_of_offset_lt (h : Arrives flags code n state past) (hcode : code.Increasing)
    (hins : code[n]? = some ins) (hmade : made ∈ steps flags code)
    (hlt : made.ins.offset < ins.offset) : made.ins ∈ past := by
  obtain ⟨before, hsteps, hbefore⟩ := h.exists_steps
  rw [hsteps] at hmade
  rcases List.mem_append.mp hmade with hmade | hmade
  · rw [← List.mem_reverse, ← hbefore]
    exact List.mem_map_of_mem hmade
  · obtain ⟨k, hk⟩ := List.mem_iff_getElem?.mp (mem_of_mem_stepsFrom hmade)
    rw [List.getElem?_drop] at hk
    have hle := (hcode.offset_le_iff hins hk).mpr (Nat.le_add_right n k)
    omega

end Arrives

end Decompiler.Walk
