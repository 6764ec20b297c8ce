import Decompiler.Proofs.Walk.Course

/-!
Which tests head while loops. A jump back whose code has a test makes a loop, and the test is met by
a step of its own. It heads the loop if the jump back is the last instruction before its target. A
test that leaves the loop for another place, be it back to an outer loop or forward past other code,
is taken for a branch.
-/

namespace Decompiler

namespace Code

/-- The first test of the code from `start` to a jump back there is a conditional jump behind the
start, and leaves that code. -/
structure TestedLoop (code : Code) (start : Nat) (test back : Instruction) (target : Nat) :
    Prop where
  back_mem : back ∈ code
  jumpsBack : back.jumpsBackTo start = true
  behind : start < test.offset
  before : test.offset < back.offset
  isConditionalJump : test.isConditionalJump = true
  jumpTarget : test.jumpTarget? = some target
  first : ∀ other ∈ code, other.isTest = true → start ≤ other.offset → test.offset ≤ other.offset
  leaves : target < start ∨ back.offset < target

variable {code : Code} {start target : Nat} {test back : Instruction}

instance : Decidable (code.TestedLoop start test back target) :=
  decidable_of_iff
    ((back ∈ code ∧ back.jumpsBackTo start = true) ∧
      (start < test.offset ∧ test.offset < back.offset) ∧
      (test.isConditionalJump = true ∧ test.jumpTarget? = some target) ∧
      (∀ other ∈ code, other.isTest = true → start ≤ other.offset → test.offset ≤ other.offset) ∧
      (target < start ∨ back.offset < target))
    ⟨fun ⟨hback, hinside, htest, hfirst, hleaves⟩ =>
      ⟨hback.1, hback.2, hinside.1, hinside.2, htest.1, htest.2, hfirst, hleaves⟩,
    fun h => ⟨⟨h.back_mem, h.jumpsBack⟩, ⟨h.behind, h.before⟩, ⟨h.isConditionalJump, h.jumpTarget⟩,
      h.first, h.leaves⟩⟩

theorem TestedLoop.headsWhile (h : code.TestedLoop start test back target) (hcode : code.Increasing)
    (hlast : code.LastBefore target back) : code.headsWhile test.offset target = true :=
  hcode.headsWhile_iff.mpr ⟨back, start, hlast, h.jumpsBack, h.behind, h.first⟩

end Code

namespace Walk

variable {flags : Flags} {code : Code} {test back : Instruction} {state : State} {effect : Effect}
  {n start target : Nat} {result : Reconstruction}

theorem head_of_form (hform : effect.Form flags code test state) (hraw : flags.rawJumps = false)
    (htest : test.isConditionalJump = true) (htarget : test.jumpTarget? = some target) :
    ∃ condition,
      effect.push = some (.whileHead condition) ∧ test.offset < target ∧
          code.headsWhile test.offset target = true ∨
        (effect.push = some (.ifHead condition) ∨
            effect.push = some (.elifHead condition) ∧ test.offset < target) ∧
          ¬(test.offset < target ∧ code.headsWhile test.offset target = true) := by
  have same {other : Nat} (hother : test.jumpTarget? = some other) : other = target :=
    Option.some.inj (hother.symm.trans htarget)
  cases hform with
  | flat hflat hop =>
      rw [hop hraw] at htest
      cases htest
  | forLoop node iterator stop mentions swallows hop hstop =>
      rw [Instruction.isConditionalJump_eq_false hop nofun] at htest
      cases htest
  | whileLoop onTrue condition other hraw' hop hother hforward hwhile =>
      obtain rfl := same hother
      exact ⟨condition, .inl ⟨rfl, hforward, hwhile⟩⟩
  | elifBranch onTrue condition other stop hraw' hop hother hforward hwhile hstop =>
      obtain rfl := same hother
      refine ⟨condition, .inr ⟨.inr ⟨rfl, hforward⟩, fun h => ?_⟩⟩
      rw [h.2] at hwhile
      cases hwhile
  | ifBranch onTrue condition other hraw' hop hother hforward hwhile =>
      obtain rfl := same hother
      refine ⟨condition, .inr ⟨.inl rfl, fun h => ?_⟩⟩
      rw [h.2] at hwhile
      cases hwhile
  | lastBranch onTrue condition other hraw' hop hother hback =>
      obtain rfl := same hother
      exact ⟨condition, .inr ⟨.inl rfl, fun h => Nat.not_le.mpr h.1 hback⟩⟩
  | elseBranch other hraw' hop hother =>
      rw [Instruction.isConditionalJump_eq_false hop nofun] at htest
      cases htest

/-- The step at the test of a loop is made. It puts the head of a while loop if nothing stands
between the jump back and the target of the test, and otherwise only if another jump back stands
right before that target, to a place from which no test comes before this one. If it puts no such
head, it puts that of a branch, and that of an `if` where the test leads back before the loop. -/
theorem tested_loops (hraw : flags.rawJumps = false) (hcode : code.Increasing)
    (hresult : reconstruct flags code = .ok result)
    (hloop : code.TestedLoop start test back target) (htest : code[n]? = some test) :
    (∃ state past, Arrives flags code n state past) ∧
      ∀ state past, Arrives flags code n state past →
        ∃ effect condition, Walk.effect flags code test (code.drop (n + 1))
            (state.settle test.offset) = .ok effect ∧
          (effect.push = some (.whileHead condition) ∨ effect.push = some (.ifHead condition) ∨
            effect.push = some (.elifHead condition)) ∧
          (code.LastBefore target back → effect.push = some (.whileHead condition)) ∧
          (target < start → effect.push = some (.ifHead condition)) ∧
          (effect.push = some (.whileHead condition) ↔ test.offset < target ∧
            ∃ last origin, code.LastBefore target last ∧ last.jumpsBackTo origin = true ∧
              origin < test.offset ∧ ∀ other ∈ code, other.isTest = true →
                origin ≤ other.offset → test.offset ≤ other.offset) := by
  obtain ⟨last, hrun⟩ := exists_run hresult
  obtain ⟨onTrue, hop⟩ := Instruction.isConditionalJump_eq_true.mp hloop.isConditionalJump
  have hnot := Instruction.not_isFollower_of_jump hop (.inr ⟨onTrue, rfl⟩)
  refine ⟨exists_arrives hrun htest hnot, fun state past h => ?_⟩
  obtain ⟨next, skip, hstep⟩ := h.exists_step hrun htest
  obtain ⟨effect, heffect, -, -⟩ := step_eq_ok.mp hstep
  obtain ⟨condition, hhead⟩ :=
    head_of_form (form_effect effect heffect) hraw hloop.isConditionalJump hloop.jumpTarget
  rw [← hcode.headsWhile_iff]
  have hlast (h : code.LastBefore target back) :
      test.offset < target ∧ code.headsWhile test.offset target = true :=
    ⟨hloop.before.trans h.2.1, hloop.headsWhile hcode h⟩
  have hback (h : target < start) : ¬test.offset < target :=
    Nat.not_lt.mpr (h.trans hloop.behind).le
  refine ⟨effect, condition, heffect, ?_⟩
  rcases hhead with ⟨hpush, hwhile⟩ | ⟨hpush | ⟨hpush, hforward⟩, hbranch⟩
  · exact ⟨.inl hpush, fun _ => hpush, fun h => absurd hwhile.1 (hback h), fun _ => hwhile,
      fun _ => hpush⟩
  · refine ⟨.inr (.inl hpush), fun h => absurd (hlast h) hbranch, fun _ => hpush, fun h => ?_,
      fun h => absurd h hbranch⟩
    rw [h] at hpush
    cases hpush
  · refine ⟨.inr (.inr hpush), fun h => absurd (hlast h) hbranch,
      fun h => absurd hforward (hback h), fun h => ?_, fun h => absurd h hbranch⟩
    rw [h] at hpush
    cases hpush

/-- A loop at the end of a loop. The test at 6 leads past the jump at 14 to the head of the outer
loop. -/
def threadedLoop : Code :=
  [{ offset := 0, opname := "LOAD_NAME", argval := some "a" },
    { offset := 2, opname := "POP_JUMP_IF_FALSE", arg := some 16 },
    { offset := 4, opname := "LOAD_NAME", argval := some "b" },
    { offset := 6, opname := "POP_JUMP_IF_FALSE", arg := some 0 },
    { offset := 8, opname := "LOAD_NAME", argval := some "c" },
    { offset := 10, opname := "POP_TOP" },
    { offset := 12, opname := "JUMP_ABSOLUTE", arg := some 4 },
    { offset := 14, opname := "JUMP_ABSOLUTE", arg := some 0 },
    { offset := 16, opname := "LOAD_CONST", argval := some "None" },
    { offset := 18, opname := "RETURN_VALUE" }]

/-- A loop at the end of a branch with an `else`. The test at 6 leads past the jump at 14 to the end
of both branches. -/
def threadedExit : Code :=
  [{ offset := 0, opname := "LOAD_NAME", argval := some "a" },
    { offset := 2, opname := "POP_JUMP_IF_FALSE", arg := some 16 },
    { offset := 4, opname := "LOAD_NAME", argval := some "b" },
    { offset := 6, opname := "POP_JUMP_IF_FALSE", arg := some 20 },
    { offset := 8, opname := "LOAD_NAME", argval := some "c" },
    { offset := 10, opname := "POP_TOP" },
    { offset := 12, opname := "JUMP_ABSOLUTE", arg := some 4 },
    { offset := 14, opname := "JUMP_FORWARD", arg := some 4, argval := some "to 20" },
    { offset := 16, opname := "LOAD_NAME", argval := some "d" },
    { offset := 18, opname := "POP_TOP" },
    { offset := 20, opname := "LOAD_CONST", argval := some "None" },
    { offset := 22, opname := "RETURN_VALUE" }]

/-- Nothing stands between the end of the outer loop and the target of its test. -/
theorem tested_loops_outer :
    let test : Instruction := { offset := 2, opname := "POP_JUMP_IF_FALSE", arg := some 16 }
    let back : Instruction := { offset := 14, opname := "JUMP_ABSOLUTE", arg := some 0 }
    threadedLoop.Increasing ∧ (∃ result, reconstruct {} threadedLoop = .ok result) ∧
      threadedLoop.TestedLoop 0 test back 16 ∧ threadedLoop.LastBefore 16 back ∧
      ∃ state past effect condition, Arrives {} threadedLoop 1 state past ∧
        Walk.effect {} threadedLoop test (threadedLoop.drop 2) (state.settle 2) = .ok effect ∧
        effect.push = some (.whileHead condition) := by
  intro test back
  have hcode : threadedLoop.Increasing := by decide
  have hloop : threadedLoop.TestedLoop 0 test back 16 := by decide
  have hlast : threadedLoop.LastBefore 16 back := by decide
  have hresult : reconstruct {} threadedLoop = .ok _ := rfl
  have htest : threadedLoop[1]? = some test := rfl
  obtain ⟨⟨state, past, h⟩, hall⟩ := tested_loops rfl hcode hresult hloop htest
  obtain ⟨effect, condition, heffect, -, hwhile, -⟩ := hall state past h
  exact ⟨hcode, ⟨_, rfl⟩, hloop, hlast, state, past, effect, condition, h, heffect, hwhile hlast⟩

/-- A test that leaves the loop for another place is taken for a branch. -/
theorem exists_lost_loops :
    (threadedLoop.Increasing ∧ (∃ result, reconstruct {} threadedLoop = .ok result) ∧
      threadedLoop.TestedLoop 4 { offset := 6, opname := "POP_JUMP_IF_FALSE", arg := some 0 }
        { offset := 12, opname := "JUMP_ABSOLUTE", arg := some 4 } 0 ∧
      ∃ state past effect, Arrives {} threadedLoop 3 state past ∧
        Walk.effect {} threadedLoop { offset := 6, opname := "POP_JUMP_IF_FALSE", arg := some 0 }
          (threadedLoop.drop 4) (state.settle 6) = .ok effect ∧
        effect.push = some (.ifHead (.atom "b"))) ∧
    threadedExit.Increasing ∧ (∃ result, reconstruct {} threadedExit = .ok result) ∧
      threadedExit.TestedLoop 4 { offset := 6, opname := "POP_JUMP_IF_FALSE", arg := some 20 }
        { offset := 12, opname := "JUMP_ABSOLUTE", arg := some 4 } 20 ∧
      ∃ state past effect, Arrives {} threadedExit 3 state past ∧
        Walk.effect {} threadedExit { offset := 6, opname := "POP_JUMP_IF_FALSE", arg := some 20 }
          (threadedExit.drop 4) (state.settle 6) = .ok effect ∧
        effect.push = some (.ifHead (.atom "b")) := by
  have h₀ : Arrives {} threadedLoop 0 {} [] := .start
  have h₃ := ((h₀.step rfl rfl).step rfl rfl).step rfl rfl
  have h₀' : Arrives {} threadedExit 0 {} [] := .start
  have h₃' := ((h₀'.step rfl rfl).step rfl rfl).step rfl rfl
  exact ⟨⟨by decide, ⟨_, rfl⟩, by decide, _, _, _, h₃, rfl, rfl⟩, by decide, ⟨_, rfl⟩, by decide,
    _, _, _, h₃', rfl, rfl⟩

end Walk

end Decompiler
