import Decompiler.Proofs.Loops.Tests
import Decompiler.Proofs.Loops.Top

/-!
Which jumps back to the head of a for loop become `continue`. Such a jump is left out where a
`break` stands on top of the stack, whether control can come past the `break` or not. A `break`
stands there exactly where a jump that goes out lies behind, and nothing has come since but
instructions that may put nothing.
-/

namespace Decompiler

namespace Code

/-- A jump at position `m` becomes a `break`, and all instructions from there to position `n` may
put nothing on the stack. -/
def ExitBehind (code : Code) (m n : Nat) : Prop :=
  m < n ∧ (∃ jump, code[m]? = some jump ∧ code.IsExit jump) ∧
    ∀ k ins, m < k → k < n → code[k]? = some ins → ins.isIdle = true

variable {code : Code} {ins : Instruction} {m n : Nat}

theorem exitBehind_succ (hins : code[n]? = some ins) :
    code.ExitBehind m (n + 1) ↔
      m = n ∧ code.IsExit ins ∨ ins.isIdle = true ∧ code.ExitBehind m n := by
  constructor
  · rintro ⟨hm, ⟨jump, hjump, hexit⟩, hidle⟩
    rcases Nat.lt_or_eq_of_le (Nat.le_of_lt_succ hm) with hlt | rfl
    · exact .inr ⟨hidle n ins hlt (Nat.lt_succ_self n) hins, hlt, ⟨jump, hjump, hexit⟩,
        fun k other hmk hkn => hidle k other hmk (Nat.lt_succ_of_lt hkn)⟩
    · rw [hins, Option.some.injEq] at hjump
      exact .inl ⟨rfl, hjump ▸ hexit⟩
  · rintro (⟨rfl, hexit⟩ | ⟨hins', hm, hjump, hidle⟩)
    · exact ⟨Nat.lt_succ_self m, ⟨ins, hins, hexit⟩, fun k other hmk hkm => by omega⟩
    · refine ⟨Nat.lt_succ_of_lt hm, hjump, fun k other hmk hkn hother => ?_⟩
      rcases Nat.lt_or_eq_of_le (Nat.le_of_lt_succ hkn) with hlt | rfl
      · exact hidle k other hmk hlt hother
      · rw [hins, Option.some.injEq] at hother
        exact hother ▸ hins'

/-- What is not idle hides all exits behind it. -/
theorem ExitBehind.lt_of_not_isIdle {k : Nat} (h : code.ExitBehind m n) (hk : k < n)
    (hins : code[k]? = some ins) (hidle : ins.isIdle = false) : k < m := by
  obtain ⟨-, ⟨jump, hjump, hexit⟩, hbetween⟩ := h
  rcases Nat.lt_trichotomy k m with hlt | rfl | hgt
  · exact hlt
  · rw [hins, Option.some.injEq] at hjump
    rw [hjump, hexit.isIdle] at hidle
    cases hidle
  · rw [hbetween k ins hgt hk hins] at hidle
    cases hidle

end Code

namespace Walk

variable {flags : Flags} {code : Code} {n : Nat} {state : State} {past : List Instruction}

/-- Wherever a run arrives, a `break` stands on top of the stack if a jump that becomes one lies
behind and nothing has covered it. -/
theorem Arrives.isBreak_iff (h : Arrives flags code n state past) (hraw : flags.rawJumps = false)
    (hcode : code.Increasing) :
    isBreak state.stack = true ↔
      ∃ m, (m = 0 → flags.comprehension = false) ∧ code.ExitBehind m n := by
  induction h with
  | start =>
      constructor
      · nofun
      · rintro ⟨m, -, hm, -⟩
        exact absurd hm (Nat.not_lt_zero m)
  | step h hins hstep ih =>
      rename_i n skip state next ins past
      rw [isBreak_leave hraw hcode hins hstep, ih]
      cases hidle : ins.isIdle with
      | true =>
          obtain ⟨effect, heffect, -, rfl⟩ := step_eq_ok.mp hstep
          rw [(idle_effect hidle effect heffect).2]
          simp only [Nat.add_zero, Code.exitBehind_succ hins, hidle, true_and]
          constructor
          · rintro ⟨hfirst, hexit | ⟨m, hm, hbehind⟩⟩
            · exact ⟨n, hfirst, .inl ⟨rfl, hexit⟩⟩
            · exact ⟨m, hm, .inr hbehind⟩
          · rintro ⟨m, hm, ⟨rfl, hexit⟩ | hbehind⟩
            · exact ⟨hm, .inl hexit⟩
            · have hlt := hbehind.1
              exact ⟨fun hn => by omega, .inr ⟨m, hm, hbehind⟩⟩
      | false =>
          have hexit : ¬code.IsExit ins := fun hexit => by
            rw [hexit.isIdle] at hidle
            cases hidle
          simp only [hexit, Bool.false_eq_true, false_and, or_false, and_false, false_iff]
          rintro ⟨m, -, hbehind⟩
          -- the exit would stand among the instructions that the step has taken in
          have hnm := hbehind.lt_of_not_isIdle (by omega) hins hidle
          obtain ⟨hlt, ⟨jump, hjump, hop, -⟩, -⟩ := hbehind
          have hle := le_of_not_isFollower hstep hnm hjump
            (Instruction.not_isFollower_of_jump hop (.inl rfl))
          omega

/-! ### Jumps back to a for loop -/

variable {result : Reconstruction} {jump head : Instruction}

/-- The step at a jump back to a for loop is made. If the jump does not close the loop, it becomes a
`continue` unless a `break` lies right behind it, with nothing between the two but instructions that
may put nothing. -/
theorem pushes_continue_iff (hraw : flags.rawJumps = false) (hcode : code.Increasing)
    (hresult : reconstruct flags code = .ok result) (hjump : code[n]? = some jump)
    (hop : jump.opcode? = some .jumpAbsolute) (hhead : head ∈ code)
    (hfor : head.opcode? = some .forIter) (htarget : jump.jumpTarget? = some head.offset)
    (hback : head.offset < jump.offset)
    (hopen : ∀ stop, head.jumpTarget? = some stop → ¬code.LastBefore stop jump) :
    (∃ state past, Arrives flags code n state past) ∧
      ∀ state past, Arrives flags code n state past →
        ∃ effect, Walk.effect flags code jump (code.drop (n + 1)) (state.settle jump.offset) =
            .ok effect ∧
          (effect.push = none ∨ effect.push = some .continueStmt) ∧
          (effect.push = some .continueStmt ↔ ¬∃ m, code.ExitBehind m n) := by
  obtain ⟨last, hrun⟩ := exists_run hresult
  refine ⟨exists_arrives hrun hjump (Instruction.not_isFollower_of_jump hop (.inl rfl)),
    fun state past h => ?_⟩
  obtain ⟨effect, heffect, hpush, hcontinue, hbreak⟩ := push_absoluteJump
    (state.settle jump.offset) hraw hcode (List.mem_of_getElem? hjump) htarget
  -- the head of the loop puts a node, so nothing before it is on top any more
  obtain ⟨k, hk⟩ := List.mem_iff_getElem?.mp hhead
  have hkn : k < n := (hcode.offset_lt_iff hk hjump).mp hback
  have hidle : head.isIdle = false := by
    rw [Instruction.isIdle, hfor]
    rfl
  have htop : isBreak state.stack = true ↔ ∃ m, code.ExitBehind m n := by
    rw [h.isBreak_iff hraw hcode]
    refine exists_congr fun m => and_iff_right_of_imp fun hbehind hm => ?_
    have hkm := hbehind.lt_of_not_isIdle hkn hk hidle
    omega
  have hgoes : code.GoesOn jump head.offset :=
    ⟨head, hhead, rfl, .inl ⟨by simp [Instruction.is, hfor], hopen⟩⟩
  refine ⟨effect, by rw [effect_absoluteJump hop, heffect], ?_, ?_⟩
  · rcases hpush with hpush | hpush | hpush
    · exact .inl hpush
    · exact .inr hpush
    · have hlt := (hbreak.mp hpush).1
      omega
  · rw [hcontinue, State.settle_stack, ← htop, Bool.not_eq_true]
    exact and_iff_left hgoes

/-- A loop with a `break` and a `continue`, each in a branch of its own. -/
def breakThenContinue : Code :=
  [{ offset := 0, opname := "LOAD_NAME", argval := some "xs" },
    { offset := 2, opname := "GET_ITER" },
    { offset := 4, opname := "FOR_ITER", arg := some 22, argval := some "to 28" },
    { offset := 6, opname := "STORE_NAME", argval := some "x" },
    { offset := 8, opname := "LOAD_NAME", argval := some "a" },
    { offset := 10, opname := "POP_JUMP_IF_FALSE", arg := some 14 },
    { offset := 12, opname := "JUMP_ABSOLUTE", arg := some 28 },
    { offset := 14, opname := "LOAD_NAME", argval := some "b" },
    { offset := 16, opname := "POP_JUMP_IF_FALSE", arg := some 22 },
    { offset := 18, opname := "NOP" },
    { offset := 20, opname := "JUMP_ABSOLUTE", arg := some 4 },
    { offset := 22, opname := "LOAD_NAME", argval := some "y" },
    { offset := 24, opname := "POP_TOP" },
    { offset := 26, opname := "JUMP_ABSOLUTE", arg := some 4 },
    { offset := 28, opname := "LOAD_CONST", argval := some "None" },
    { offset := 30, opname := "RETURN_VALUE" }]

/-- A loop with a `break` in a branch, and a jump back right behind the branch. -/
def breakOrContinue : Code :=
  [{ offset := 0, opname := "LOAD_NAME", argval := some "xs" },
    { offset := 2, opname := "GET_ITER" },
    { offset := 4, opname := "FOR_ITER", arg := some 18, argval := some "to 24" },
    { offset := 6, opname := "STORE_NAME", argval := some "x" },
    { offset := 8, opname := "LOAD_NAME", argval := some "x" },
    { offset := 10, opname := "POP_JUMP_IF_FALSE", arg := some 16 },
    { offset := 12, opname := "POP_TOP" },
    { offset := 14, opname := "JUMP_ABSOLUTE", arg := some 24 },
    { offset := 16, opname := "JUMP_ABSOLUTE", arg := some 4 },
    { offset := 18, opname := "LOAD_NAME", argval := some "y" },
    { offset := 20, opname := "POP_TOP" },
    { offset := 22, opname := "JUMP_ABSOLUTE", arg := some 4 },
    { offset := 24, opname := "LOAD_CONST", argval := some "None" },
    { offset := 26, opname := "RETURN_VALUE" }]

/-- The jump at 12 becomes a `break`, and the test at 16 covers it. -/
theorem pushes_continue_iff_breakThenContinue :
    let head : Instruction :=
      { offset := 4, opname := "FOR_ITER", arg := some 22, argval := some "to 28" }
    let jump : Instruction := { offset := 20, opname := "JUMP_ABSOLUTE", arg := some 4 }
    breakThenContinue.Increasing ∧ (∃ result, reconstruct {} breakThenContinue = .ok result) ∧
      breakThenContinue[10]? = some jump ∧ head ∈ breakThenContinue ∧
      head.jumpTarget? = some 28 ∧ ¬breakThenContinue.LastBefore 28 jump ∧
      (∃ m, breakThenContinue.ExitBehind m 7) ∧
      ∃ state past effect, Arrives {} breakThenContinue 10 state past ∧
        Walk.effect {} breakThenContinue jump (breakThenContinue.drop 11) (state.settle 20) =
          .ok effect ∧ effect.push = some .continueStmt := by
  intro head jump
  have hcode : breakThenContinue.Increasing := by decide
  have hresult : reconstruct {} breakThenContinue = .ok _ := rfl
  have hhead : head ∈ breakThenContinue := by decide
  have hstop : head.jumpTarget? = some 28 := rfl
  have hlast : ¬breakThenContinue.LastBefore 28 jump := by decide
  have hopen : ∀ stop, head.jumpTarget? = some stop → ¬breakThenContinue.LastBefore stop jump := by
    intro stop hother
    rw [hstop, Option.some.injEq] at hother
    exact hother ▸ hlast
  have hgoes : breakThenContinue.GoesOut { offset := 12, opname := "JUMP_ABSOLUTE", arg := some 28 }
      28 := by
    unfold Code.GoesOut
    decide
  have hexit : breakThenContinue.ExitBehind 6 7 :=
    ⟨by decide, ⟨_, rfl, rfl, 28, rfl, hgoes⟩, fun k ins h6 h7 => by omega⟩
  have hnone : ¬∃ m, breakThenContinue.ExitBehind m 10 := by
    rintro ⟨m, h⟩
    have htest := h.lt_of_not_isIdle (by decide : 8 < 10) rfl (by decide)
    obtain ⟨hm, ⟨jump, hjump, hop, -⟩, -⟩ := h
    obtain rfl : m = 9 := by omega
    cases hjump
    cases hop
  have hjump : breakThenContinue[10]? = some jump := rfl
  obtain ⟨⟨state, past, h⟩, hall⟩ :=
    pushes_continue_iff rfl hcode hresult hjump rfl hhead rfl rfl (by decide) hopen
  obtain ⟨effect, heffect, -, hcontinue⟩ := hall state past h
  exact ⟨hcode, ⟨_, hresult⟩, hjump, hhead, hstop, hlast, ⟨6, hexit⟩, state, past, effect, h,
    heffect, hcontinue.mpr hnone⟩

/-- Control comes to the jump at 16 from the test at 10, past the `break`, and yet nothing is put. -/
theorem exists_dropped_continue :
    let head : Instruction :=
      { offset := 4, opname := "FOR_ITER", arg := some 18, argval := some "to 24" }
    let jump : Instruction := { offset := 16, opname := "JUMP_ABSOLUTE", arg := some 4 }
    let test : Instruction := { offset := 10, opname := "POP_JUMP_IF_FALSE", arg := some 16 }
    breakOrContinue.Increasing ∧ (∃ result, reconstruct {} breakOrContinue = .ok result) ∧
      breakOrContinue[8]? = some jump ∧ head ∈ breakOrContinue ∧
      head.jumpTarget? = some 24 ∧ ¬breakOrContinue.LastBefore 24 jump ∧
      test ∈ breakOrContinue ∧ test.isConditionalJump = true ∧ test.jumpTarget? = some 16 ∧
      ∃ state past effect, Arrives {} breakOrContinue 8 state past ∧
        Walk.effect {} breakOrContinue jump (breakOrContinue.drop 9) (state.settle 16) =
          .ok effect ∧ effect.push = none := by
  have h₀ : Arrives {} breakOrContinue 0 {} [] := .start
  have h₄ := ((h₀.step rfl rfl).step rfl rfl).step rfl rfl
  have h₈ := (((h₄.step rfl rfl).step rfl rfl).step rfl rfl).step rfl rfl
  exact ⟨by decide, ⟨_, rfl⟩, rfl, by decide, rfl, by decide, by decide, by decide, rfl, _, _, _,
    h₈, rfl, rfl⟩

end Walk

end Decompiler
