import Decompiler.Proofs.Walk.Steps

/-!
Statements in the order of the code. A step puts at most one node on the stack, with the offset of its
own instruction, and whatever was there before has the offset of an earlier step. So the offsets on the
stack rise from the bottom to the top, also where an `elif` takes the place of an `else` or the
accumulator that of its first value, and there are no more statements than steps.
-/

namespace Decompiler.Walk

namespace State

def offsets (state : State) : List Nat := state.stack.map Statement.offset

variable (state : State) (offset : Nat)

@[simp] theorem length_offsets : state.offsets.length = state.stack.length := by simp [offsets]

theorem offsets_apply (effect : Effect) :
    (state.apply offset effect).offsets =
      (effect.push.map fun _ => offset).toList ++ state.offsets.drop effect.pops := by
  cases hpush : effect.push <;> simp [offsets, apply, hpush, List.map_drop]

theorem offsets_collect (h : ∀ top ∈ state.offsets.head?, top = offset) :
    (state.collect offset).offsets = state.offsets := by
  cases hstack : state.stack with
  | nil => simp [collect, hstack]
  | cons top below =>
      have htop : top.offset = offset := h top.offset (by simp [offsets, hstack])
      simp [offsets, collect, hstack, htop]

end State

variable {flags : Flags} {code : Code} {ins : Instruction} {n : Nat} {state : State}
  {past : List Instruction} {offsets : List Nat} {offset : Nat} {effect : Effect}

/-- The accumulator that the first step leaves is still its only statement. -/
theorem Arrives.offsets_leave (h : Arrives flags code n state past) :
    (((state.settle offset).apply offset effect).leave flags n offset).offsets =
      ((state.settle offset).apply offset effect).offsets := by
  obtain ⟨rfl, rfl, -⟩ | hpos := h.eq_start_or_pos
  · have htop : ∀ top ∈ ((State.settle {} offset).apply offset effect).offsets.head?,
        top = offset := by
      rw [State.offsets_apply]
      cases effect.push <;> simp [State.offsets]
    unfold State.leave
    split
    · exact State.offsets_collect _ _ htop
    · rfl
  · rw [State.leave_of_pos _ _ _ _ hpos]

/-- The offsets on a stack decrease from the top down, and each is that of a step of its own. -/
structure Traced (past : List Instruction) (offsets : List Nat) : Prop where
  descending : offsets.Pairwise fun later earlier => earlier < later
  started : ∀ offset ∈ offsets, ∃ ins ∈ past, ins.offset = offset
  length_le : offsets.length ≤ past.length

namespace Traced

theorem drop (h : Traced past offsets) (pops : Nat) : Traced past (offsets.drop pops) where
  descending := h.descending.sublist (List.drop_sublist pops offsets)
  started := fun offset hoffset => h.started offset (List.mem_of_mem_drop hoffset)
  length_le := by
    have := h.length_le
    simp only [List.length_drop]
    omega

theorem later (h : Traced past offsets) (ins : Instruction) : Traced (ins :: past) offsets where
  descending := h.descending
  started := fun offset hoffset =>
    let ⟨started, hstarted, heq⟩ := h.started offset hoffset
    ⟨started, List.mem_cons_of_mem _ hstarted, heq⟩
  length_le := h.length_le.trans (Nat.le_succ _)

theorem push (h : Traced past offsets) (hpast : ∀ started ∈ past, started.offset < ins.offset) :
    Traced (ins :: past) (ins.offset :: offsets) where
  descending := by
    refine List.pairwise_cons.mpr ⟨fun offset hoffset => ?_, h.descending⟩
    obtain ⟨started, hstarted, rfl⟩ := h.started offset hoffset
    exact hpast started hstarted
  started := List.forall_mem_cons.mpr
    ⟨⟨ins, List.mem_cons_self .., rfl⟩, (h.later ins).started⟩
  length_le := Nat.succ_le_succ h.length_le

theorem apply (h : Traced past state.offsets)
    (hpast : ∀ started ∈ past, started.offset < ins.offset) (effect : Effect) :
    Traced (ins :: past) (state.apply ins.offset effect).offsets := by
  rw [State.offsets_apply]
  cases effect.push with
  | none => exact (h.drop effect.pops).later ins
  | some node => exact (h.drop effect.pops).push hpast

end Traced

namespace Arrives

theorem traced (h : Arrives flags code n state past) (hcode : code.Increasing) :
    Traced past state.offsets := by
  induction h with
  | start => exact ⟨.nil, nofun, Nat.le_refl 0⟩
  | step h hins hstep ih =>
      rename_i n skip state next ins past
      obtain ⟨effect, -, rfl, -⟩ := step_eq_ok.mp hstep
      have hsettled : Traced past (state.settle ins.offset).offsets := ih
      rw [h.offsets_leave]
      exact hsettled.apply (h.offset_lt hcode hins) effect

/-- Steps are made at different positions of the code. -/
theorem length_past_le (h : Arrives flags code n state past) :
    past.length ≤ n ∧ past.length ≤ code.length := by
  induction h with
  | start => exact ⟨Nat.le_refl 0, Nat.zero_le _⟩
  | step h hins hstep ih =>
      have hlt := (List.getElem?_eq_some_iff.mp hins).1
      rw [List.length_cons]
      omega

end Arrives

/-- Wherever a run arrives, the statements from the first to the last have rising offsets, each that
of an instruction at which a step has been made. A step adds one statement at most, and what is done
to the first one of a comprehension changes no offset. So it is with the result, which has no more
statements than there are instructions. -/
theorem statements_in_order (flags : Flags) (hcode : code.Increasing) :
    (∀ n state past, Arrives flags code n state past →
      state.stack.reverse.Pairwise (fun s t => s.offset < t.offset) ∧
        (∀ s ∈ state.stack, ∃ ins ∈ past, ins ∈ code ∧ s.offset = ins.offset) ∧
        state.stack.length ≤ past.length ∧ past.length ≤ code.length ∧
        ∀ ins next skip, code[n]? = some ins →
          step flags code ins (code.drop (n + 1)) state = .ok (next, skip) →
            next.stack.length ≤ state.stack.length + 1 ∧
              (next.leave flags n ins.offset).offsets = next.offsets) ∧
      ∀ result, reconstruct flags code = .ok result →
        result.statements.Pairwise (fun s t => s.offset < t.offset) ∧
          (∀ s ∈ result.statements, ∃ made ∈ steps flags code, s.offset = made.ins.offset) ∧
          result.statements.length ≤ code.length := by
  have hstack {n state past} (h : Arrives flags code n state past) :
      state.stack.reverse.Pairwise fun s t => s.offset < t.offset :=
    List.pairwise_reverse.mpr (List.pairwise_map.mp (h.traced hcode).descending)
  have hstarted {n state past} (h : Arrives flags code n state past) :
      ∀ s ∈ state.stack, ∃ ins ∈ past, s.offset = ins.offset := by
    intro s hs
    obtain ⟨ins, hins, heq⟩ := (h.traced hcode).started s.offset (List.mem_map_of_mem hs)
    exact ⟨ins, hins, heq.symm⟩
  have hlength {n state past} (h : Arrives flags code n state past) :
      state.stack.length ≤ past.length := state.length_offsets ▸ (h.traced hcode).length_le
  constructor
  · intro n state past h
    refine ⟨hstack h, fun s hs => ?_, hlength h, h.length_past_le.2,
      fun ins next skip hins hstep => ?_⟩
    · obtain ⟨ins, hins, heq⟩ := hstarted h s hs
      obtain ⟨k, -, hk⟩ := h.exists_lt_of_mem hins
      exact ⟨ins, hins, List.mem_of_getElem? hk, heq⟩
    · obtain ⟨effect, -, rfl, -⟩ := step_eq_ok.mp hstep
      refine ⟨?_, h.offsets_leave⟩
      rw [← State.length_offsets, State.offsets_apply]
      cases effect.push with
      | none => simp; omega
      | some node => simp
  · intro result hresult
    obtain ⟨last, hrun, hstatements⟩ := exists_last hresult
    obtain ⟨n, past, h⟩ := exists_arrives_last hrun
    rw [hstatements]
    refine ⟨hstack h, fun s hs => ?_, ?_⟩
    · obtain ⟨ins, hins, heq⟩ := hstarted h s (List.mem_reverse.mp hs)
      obtain ⟨before, hsteps, hbefore⟩ := h.exists_steps
      rw [← List.mem_reverse, ← hbefore] at hins
      obtain ⟨made, hmade, rfl⟩ := List.mem_map.mp hins
      exact ⟨made, hsteps ▸ List.mem_append_left _ hmade, heq⟩
    · rw [List.length_reverse]
      exact (hlength h).trans h.length_past_le.2

/-- A comprehension in which a branch has a second one for its `else`. -/
def branchesInComprehension : Code :=
  [{ offset := 0, opname := "BUILD_LIST", arg := some 0 },
    { offset := 2, opname := "LOAD_NAME", argval := some "a" },
    { offset := 4, opname := "POP_JUMP_IF_FALSE", arg := some 10 },
    { offset := 6, opname := "LOAD_NAME", argval := some "b" },
    { offset := 8, opname := "JUMP_FORWARD", arg := some 6, argval := some "to 16" },
    { offset := 10, opname := "LOAD_NAME", argval := some "c" },
    { offset := 12, opname := "POP_JUMP_IF_FALSE", arg := some 16 },
    { offset := 14, opname := "LOAD_NAME", argval := some "d" },
    { offset := 16, opname := "RETURN_VALUE" }]

/-- The first statement is wrapped, and the `elif` has taken the place of an `else` with the offset
8. -/
theorem statements_in_order_elif :
    branchesInComprehension.Increasing ∧
      ∃ result, reconstruct { comprehension := true } branchesInComprehension = .ok result ∧
        result.statements =
          [⟨0, .assign .accumulator (.display .list []), 0⟩, ⟨0, .ifHead (.atom "a"), 4⟩,
            ⟨1, .atom "b", 6⟩, ⟨0, .elifHead (.atom "c"), 12⟩, ⟨1, .atom "d", 14⟩,
            ⟨0, .returnStmt .accumulator, 16⟩] ∧
        result.statements.Pairwise (fun s t => s.offset < t.offset) ∧
        result.statements.length ≤ branchesInComprehension.length := by
  have hcode : branchesInComprehension.Increasing := by decide
  have hresult : reconstruct { comprehension := true } branchesInComprehension = .ok _ := rfl
  obtain ⟨horder, -, hlength⟩ := (statements_in_order _ hcode).2 _ hresult
  exact ⟨hcode, _, hresult, rfl, horder, hlength⟩

end Decompiler.Walk
