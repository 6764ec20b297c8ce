import Decompiler.Proofs.Loops.Continues

/-!
The loops around a jump, and which of them its keyword speaks of. A `continue` speaks of the loop that
starts at the target of the jump, and a `break` of one that ends there. Of the loops around a jump the
innermost starts last, so a `continue` is that of an outer loop where the jump leads back before that
start. A compiler makes such jumps of the `break` of an inner loop when what stands behind that loop is
itself a jump.
-/

namespace Decompiler

namespace Code

/-- The loop that a test heads reaches over an offset. -/
def LoopOver (code : Code) (head : Instruction) (offset : Nat) : Prop :=
  head ∈ code ∧ head.offset < offset ∧ ∃ stop ∈ head.jumpTarget?, offset < stop ∧
    (head.is .forIter = true ∨
      head.isConditionalJump = true ∧ code.headsWhile head.offset stop = true)

instance (code : Code) (head : Instruction) (offset : Nat) :
    Decidable (code.LoopOver head offset) := by
  unfold LoopOver
  infer_instance

theorem not_exists_loopOver {code : Code} {offset : Nat}
    (h : ∀ head ∈ code, ¬code.LoopOver head offset) : ¬∃ head, code.LoopOver head offset :=
  fun ⟨head, hover⟩ => h head hover.1 hover

/-- A loop is left by its head. A for loop goes on there as well, and a while loop at the place to which
the last jump before its end goes back, with no test between that place and the head. -/
inductive Loop (code : Code) (head : Instruction) : (start stop : Nat) → Prop
  | forLoop {stop : Nat} (hmem : head ∈ code) (hfor : head.is .forIter = true)
      (hstop : head.jumpTarget? = some stop) : Loop code head head.offset stop
  | whileLoop {start stop : Nat} {back : Instruction} (hmem : head ∈ code)
      (htest : head.isConditionalJump = true) (hstop : head.jumpTarget? = some stop)
      (hlast : code.LastBefore stop back) (hback : back.jumpsBackTo start = true)
      (hstart : start < head.offset)
      (hfirst : ∀ test ∈ code, test.isTest = true → start ≤ test.offset →
        head.offset ≤ test.offset) :
      Loop code head start stop

/-- A loop whose body an offset lies in. -/
structure Around (code : Code) (head : Instruction) (start stop offset : Nat) : Prop where
  loop : code.Loop head start stop
  headed : head.offset < offset
  ended : offset < stop

structure Innermost (code : Code) (head : Instruction) (start stop offset : Nat) : Prop where
  around : code.Around head start stop offset
  latest : ∀ other start' stop', code.Around other start' stop' offset →
    other.offset ≤ head.offset

variable {code : Code} {head head' jump : Instruction} {start start' stop stop' offset target : Nat}

namespace Loop

theorem mem (h : code.Loop head start stop) : head ∈ code := by
  cases h <;> assumption

theorem jumpTarget (h : code.Loop head start stop) : head.jumpTarget? = some stop := by
  cases h <;> assumption

theorem isTest (h : code.Loop head start stop) : head.isTest = true := by
  cases h with
  | forLoop _ hfor _ => rw [Instruction.isTest, hfor, Bool.true_or]
  | whileLoop _ htest _ _ _ _ _ => rw [Instruction.isTest, htest, Bool.or_true]

theorem start_le (h : code.Loop head start stop) : start ≤ head.offset := by
  cases h with
  | forLoop => exact Nat.le_refl _
  | whileLoop _ _ _ _ _ hstart _ => exact hstart.le

theorem head_le_of_isTest (h : code.Loop head start stop) {test : Instruction} (htest : test ∈ code)
    (his : test.isTest = true) (hle : start ≤ test.offset) : head.offset ≤ test.offset := by
  cases h with
  | forLoop => exact hle
  | whileLoop _ _ _ _ _ _ hfirst => exact hfirst test htest his hle

/-- Loops start in the order of their heads: no test stands between the start of a loop and its head. -/
theorem lt_start (h : code.Loop head start stop) (h' : code.Loop head' start' stop')
    (hlt : head.offset < head'.offset) : head.offset < start' := by
  by_contra hle
  exact Nat.not_le.mpr hlt (h'.head_le_of_isTest h.mem h.isTest (Nat.le_of_not_lt hle))

theorem start_of_forIter (h : code.Loop head start stop) (hfor : head.is .forIter = true) :
    start = head.offset := by
  cases h with
  | forLoop => rfl
  | whileLoop _ htest _ _ _ _ _ =>
      rw [Instruction.isConditionalJump_eq_false (of_decide_eq_true hfor) (fun _ => by simp)] at htest
      cases htest

theorem start_eq (hcode : code.Increasing) (h : code.Loop head start stop)
    (h' : code.Loop head start' stop') : start = start' := by
  have hstop : stop = stop' := Option.some.inj (h.jumpTarget.symm.trans h'.jumpTarget)
  subst hstop
  cases h with
  | forLoop _ hfor _ => exact (h'.start_of_forIter hfor).symm
  | whileLoop hmem htest hstop hlast hback hstart hfirst =>
      cases h' with
      | forLoop _ hfor _ =>
          exact (Loop.whileLoop hmem htest hstop hlast hback hstart hfirst).start_of_forIter hfor
      | whileLoop _ _ _ hlast' hback' _ _ =>
          -- both go on where the one jump before the end goes back
          have hle := hlast'.2.2 _ hlast.1 hlast.2.1
          have hge := hlast.2.2 _ hlast'.1 hlast'.2.1
          rw [hcode.eq_of_offset_eq hlast.1 hlast'.1 (Nat.le_antisymm hle hge)] at hback
          rw [Instruction.jumpsBackTo, Bool.and_eq_true, decide_eq_true_eq] at hback hback'
          exact Option.some.inj (hback.2.symm.trans hback'.2)

end Loop

theorem exists_around_iff (hcode : code.Increasing) :
    (∃ start stop, code.Around head start stop offset) ↔ code.LoopOver head offset := by
  constructor
  · rintro ⟨start, stop, hloop, hheaded, hended⟩
    refine ⟨hloop.mem, hheaded, stop, hloop.jumpTarget, hended, ?_⟩
    cases hloop with
    | forLoop _ hfor _ => exact .inl hfor
    | whileLoop _ htest _ hlast hback hstart hfirst =>
        exact .inr ⟨htest, hcode.headsWhile_iff.mpr ⟨_, _, hlast, hback, hstart, hfirst⟩⟩
  · rintro ⟨hmem, hheaded, stop, hstop, hended, hfor | ⟨htest, hwhile⟩⟩
    · exact ⟨_, stop, .forLoop hmem hfor hstop, hheaded, hended⟩
    · obtain ⟨back, start, hlast, hback, hstart, hfirst⟩ := hcode.headsWhile_iff.mp hwhile
      exact ⟨start, stop, .whileLoop hmem htest hstop hlast hback hstart hfirst, hheaded, hended⟩

/-! ### The innermost loop -/

/-- Of the loops around an offset one is the innermost: if a later one is around it, look for that. -/
theorem exists_innermost (h : code.Around head start stop offset) :
    ∃ head start stop, code.Innermost head start stop offset := by
  induction hgap : offset - head.offset using Nat.strong_induction_on
    generalizing head start stop with
  | _ gap ih =>
      by_cases hlater : ∃ other start' stop', code.Around other start' stop' offset ∧
          head.offset < other.offset
      · obtain ⟨other, start', stop', hother, hlt⟩ := hlater
        have hheaded := hother.headed
        exact ih (offset - other.offset) (by omega) hother rfl
      · exact ⟨head, start, stop, h, fun other start' stop' hother =>
          Nat.le_of_not_lt fun hlt => hlater ⟨other, start', stop', hother, hlt⟩⟩

/-- A loop around the same offset is the innermost itself, or is opened before that one starts. -/
theorem Innermost.eq_or_lt (h : code.Innermost head start stop offset) (hcode : code.Increasing)
    (h' : code.Around head' start' stop' offset) :
    start' = start ∧ stop' = stop ∨ head'.offset < start := by
  rcases Nat.lt_or_eq_of_le (h.latest _ _ _ h') with hlt | heq
  · exact .inr (h'.loop.lt_start h.around.loop hlt)
  · obtain rfl := hcode.eq_of_offset_eq h'.loop.mem h.around.loop.mem heq
    exact .inl ⟨h'.loop.start_eq hcode h.around.loop,
      Option.some.inj (h'.loop.jumpTarget.symm.trans h.around.loop.jumpTarget)⟩

/-! ### What a jump does to the loops around it -/

/-- A jump from outside of a for loop to its head. -/
def Enters (code : Code) (jump : Instruction) (target : Nat) : Prop :=
  ∃ head ∈ code, head.offset = target ∧ head.is .forIter = true ∧ ¬code.LoopOver head jump.offset

/-- Code that a later jump repeats, with the jump in it, although no test heads it. -/
def Untested (code : Code) (jump : Instruction) (target : Nat) : Prop :=
  target ≤ jump.offset ∧ (∃ back ∈ code, jump.offset < back.offset ∧ back.jumpsBackTo target = true) ∧
    ¬∃ head stop, code.Around head target stop jump.offset

/-- A jump to the start of a loop around it goes on with it, unless it closes the loop. -/
theorem Around.goesOn (h : code.Around head target stop jump.offset) (hcode : code.Increasing)
    (hjump : jump ∈ code) (hat : ∃ ins ∈ code, ins.offset = target)
    (hopen : ¬code.LastBefore stop jump) : code.GoesOn jump target := by
  obtain ⟨hloop, hheaded, hended⟩ := h
  have hstart := hloop.start_le
  have hfirst := @hloop.head_le_of_isTest
  cases hloop with
  | forLoop hmem hfor hstop =>
      refine ⟨head, hmem, rfl, .inl ⟨hfor, fun other hother => ?_⟩⟩
      rwa [← Option.some.inj (hstop.symm.trans hother)]
  | whileLoop hmem htest hstop hlast hback hlt _ =>
      obtain ⟨ins, hins, rfl⟩ := hat
      refine ⟨ins, hins, rfl, .inr ⟨?_, by omega, _, hlast.1, ?_, hback⟩⟩
      · -- a test at the start would stand before the head
        by_contra hfor
        have hle := hfirst hins (by rw [Instruction.isTest, eq_true_of_ne_false hfor]; rfl) le_rfl
        omega
      · refine Nat.lt_of_le_of_ne (hlast.2.2 jump hjump hended) fun heq => hopen ?_
        rwa [hcode.eq_of_offset_eq hjump hlast.1 heq]

/-- A jump to the end of a loop around it goes out. -/
theorem Around.goesOut (h : code.Around head start target jump.offset)
    (hat : ∃ ins ∈ code, ins.offset = target ∧ ins.is .forIter = false) :
    code.GoesOut jump target :=
  ⟨h.ended, hat, head, h.loop.mem, h.loop.isTest, h.loop.jumpTarget⟩

theorem GoesOn.around (h : code.GoesOn jump target) (hcode : code.Increasing) :
    (∃ head stop, code.Around head target stop jump.offset) ∨ code.Enters jump target ∨
      code.Untested jump target := by
  rw [or_iff_not_imp_left]
  intro hnone
  obtain ⟨head, hhead, rfl, ⟨hfor, -⟩ | ⟨-, hle, hback⟩⟩ := h
  · refine .inl ⟨head, hhead, rfl, hfor, fun hover => hnone ?_⟩
    obtain ⟨start, stop, haround⟩ := (exists_around_iff hcode).mpr hover
    rw [haround.loop.start_of_forIter hfor] at haround
    exact ⟨head, stop, haround⟩
  · exact .inr ⟨hle, hback, hnone⟩

/-- A jump goes out of a loop around it, or to where a branch ends or a later test leads. -/
theorem GoesOut.around (h : code.GoesOut jump target) (hcode : code.Increasing) (hjump : jump ∈ code)
    (hnot : jump.isTest = false) :
    (∃ head start, code.Around head start target jump.offset) ∨
      ∃ test ∈ code, test.jumpTarget? = some target ∧
        (test.isConditionalJump = true ∧ code.headsWhile test.offset target = false ∨
          test.isTest = true ∧ jump.offset < test.offset) := by
  obtain ⟨hlt, -, test, htest, his, hexit⟩ := h
  rcases Nat.lt_trichotomy jump.offset test.offset with hbehind | heq | hheaded
  · exact .inr ⟨test, htest, hexit, .inr ⟨his, hbehind⟩⟩
  · -- the jump itself is no test
    rw [hcode.eq_of_offset_eq hjump htest heq, his] at hnot
    cases hnot
  · rw [Instruction.isTest, Bool.or_eq_true] at his
    have hloop (hkind : test.is .forIter = true ∨
        test.isConditionalJump = true ∧ code.headsWhile test.offset target = true) :
        ∃ start, code.Around test start target jump.offset := by
      obtain ⟨start, stop, haround⟩ :=
        (exists_around_iff hcode).mpr ⟨htest, hheaded, target, hexit, hlt, hkind⟩
      obtain rfl : stop = target := Option.some.inj (haround.loop.jumpTarget.symm.trans hexit)
      exact ⟨start, haround⟩
    rcases his with hfor | hcond
    · exact .inl ⟨test, hloop (.inl hfor)⟩
    · cases hwhile : code.headsWhile test.offset target with
      | true => exact .inl ⟨test, hloop (.inr ⟨hcond, hwhile⟩)⟩
      | false => exact .inr ⟨test, htest, hexit, .inl ⟨hcond, hwhile⟩⟩

end Code

namespace Walk

variable {flags : Flags} {code : Code} {jump : Instruction} {state : State} {past : List Instruction}
  {n target : Nat} {push : Option Node}

/-- What the jump at position `n` puts, by the loops around it and by its target. -/
structure LoopKeyword (flags : Flags) (code : Code) (n : Nat) (jump : Instruction) (target : Nat)
    (push : Option Node) : Prop where
  kind : push = none ∨ push = some .continueStmt ∨ push = some .breakStmt
  continue_iff : push = some .continueStmt ↔ code.GoesOn jump target ∧
    ¬∃ m, (m = 0 → flags.comprehension = false) ∧ code.ExitBehind m n
  break_iff : push = some .breakStmt ↔ code.GoesOut jump target
  /-- A jump to the start of a loop around it is a `continue`, unless it closes the loop or a `break`
  stands right before it. -/
  to_start : ∀ head stop, code.Around head target stop jump.offset →
    (∃ ins ∈ code, ins.offset = target) → ¬code.LastBefore stop jump →
      push = some .continueStmt ∨
        push = none ∧ ∃ m, (m = 0 → flags.comprehension = false) ∧ code.ExitBehind m n
  /-- A jump to the end of a loop around it is a `break`. -/
  to_stop : ∀ head start, code.Around head start target jump.offset →
    (∃ ins ∈ code, ins.offset = target ∧ ins.is .forIter = false) → push = some .breakStmt
  /-- A `continue` is one of the innermost loop around it, or of one that is opened before. -/
  continues : push = some .continueStmt →
    (∃ head start stop, code.Innermost head start stop jump.offset ∧
      (target = start ∨ ∃ outer stop', code.Around outer target stop' jump.offset ∧
        outer.offset < start)) ∨
      code.Enters jump target ∨ code.Untested jump target
  /-- It is none of an outer loop, if it does not lead back before the start of the innermost. -/
  stays : push = some .continueStmt → ∀ head start stop,
    code.Innermost head start stop jump.offset → start ≤ target →
      (∀ loop ∈ code, loop.is .forIter = true → target < loop.offset →
        ¬code.LoopOver loop jump.offset) ∧
      (target = start ∨ code.Enters jump target ∨ code.Untested jump target)
  /-- A `break` is one of the innermost loop around it, or of one that is opened before. -/
  breaks : push = some .breakStmt →
    (∃ head start stop, code.Innermost head start stop jump.offset ∧
      (target = stop ∨ ∃ outer start', code.Around outer start' target jump.offset ∧
        outer.offset < start)) ∨
      ∃ test ∈ code, test.jumpTarget? = some target ∧
        (test.isConditionalJump = true ∧ code.headsWhile test.offset target = false ∨
          test.isTest = true ∧ jump.offset < test.offset)

/-- The keyword of every absolute jump that a run arrives at. -/
theorem loop_keywords (h : Arrives flags code n state past) (hraw : flags.rawJumps = false)
    (hcode : code.Increasing) (hjump : code[n]? = some jump)
    (hop : jump.opcode? = some .jumpAbsolute) (htarget : jump.jumpTarget? = some target) :
    ∃ effect, Walk.effect flags code jump (code.drop (n + 1)) (state.settle jump.offset) =
        .ok effect ∧
      LoopKeyword flags code n jump target effect.push := by
  have hmem := List.mem_of_getElem? hjump
  have hnot : jump.isTest = false := by
    simp [Instruction.isTest, Instruction.isConditionalJump, Instruction.is, hop]
  obtain ⟨effect, heffect, hkind, hcontinue, hbreak⟩ :=
    push_absoluteJump (state.settle jump.offset) hraw hcode hmem htarget
  rw [State.settle_stack, and_comm, ← Bool.not_eq_true, h.isBreak_iff hraw hcode] at hcontinue
  refine ⟨effect, by rw [effect_absoluteJump hop, heffect], hkind, hcontinue, hbreak,
    fun head stop haround hat hopen => ?to_start, fun head start haround hat => ?to_stop,
    fun hpush => ?continues, fun hpush head start stop hinner hle => ?stays, fun hpush => ?breaks⟩
  case to_start =>
    have hgoes := haround.goesOn hcode hmem hat hopen
    by_cases hbehind : ∃ m, (m = 0 → flags.comprehension = false) ∧ code.ExitBehind m n
    · rcases hkind with hpush | hpush | hpush
      · exact .inr ⟨hpush, hbehind⟩
      · exact absurd hbehind (hcontinue.mp hpush).2
      · have hlt := (hbreak.mp hpush).1
        have hle := haround.loop.start_le
        have hheaded := haround.headed
        omega
    · exact .inl (hcontinue.mpr ⟨hgoes, hbehind⟩)
  case to_stop => exact hbreak.mpr (haround.goesOut hat)
  case continues =>
    refine ((hcontinue.mp hpush).1.around hcode).imp_left ?_
    rintro ⟨outer, stop', haround⟩
    obtain ⟨head, start, stop, hinner⟩ := Code.exists_innermost haround
    refine ⟨head, start, stop, hinner, ?_⟩
    exact (hinner.eq_or_lt hcode haround).imp And.left fun hlt => ⟨outer, stop', haround, hlt⟩
  case stays =>
    refine ⟨fun loop hloop hfor hlt hover => ?_,
      ((hcontinue.mp hpush).1.around hcode).imp_left ?_⟩
    · obtain ⟨start', stop', haround⟩ := (Code.exists_around_iff hcode).mpr hover
      have hstart := haround.loop.start_of_forIter hfor
      rcases hinner.eq_or_lt hcode haround with ⟨heq, -⟩ | hbefore <;> omega
    · rintro ⟨other, stop', haround⟩
      have hbefore := haround.loop.start_le
      rcases hinner.eq_or_lt hcode haround with ⟨heq, -⟩ | hbefore <;> omega
  case breaks =>
    refine ((hbreak.mp hpush).around hcode hmem hnot).imp_left ?_
    rintro ⟨outer, start', haround⟩
    obtain ⟨head, start, stop, hinner⟩ := Code.exists_innermost haround
    refine ⟨head, start, stop, hinner, ?_⟩
    exact (hinner.eq_or_lt hcode haround).imp And.right fun hlt => ⟨outer, start', haround, hlt⟩

/-- A loop in a loop. The jump at 22 is a `break` of the inner loop; it leads past the jump at 26 to
the head of the outer loop. -/
def threadedBreak : Code :=
  [{ offset := 0, opname := "LOAD_NAME", argval := some "xs" },
    { offset := 2, opname := "GET_ITER" },
    { offset := 4, opname := "FOR_ITER", arg := some 22, argval := some "to 28" },
    { offset := 6, opname := "STORE_NAME", argval := some "x" },
    { offset := 8, opname := "LOAD_NAME", argval := some "ys" },
    { offset := 10, opname := "GET_ITER" },
    { offset := 12, opname := "FOR_ITER", arg := some 12, argval := some "to 26" },
    { offset := 14, opname := "STORE_NAME", argval := some "y" },
    { offset := 16, opname := "LOAD_NAME", argval := some "y" },
    { offset := 18, opname := "POP_JUMP_IF_FALSE", arg := some 12 },
    { offset := 20, opname := "POP_TOP" },
    { offset := 22, opname := "JUMP_ABSOLUTE", arg := some 4 },
    { offset := 24, opname := "JUMP_ABSOLUTE", arg := some 12 },
    { offset := 26, opname := "JUMP_ABSOLUTE", arg := some 4 },
    { offset := 28, opname := "LOAD_CONST", argval := some "None" },
    { offset := 30, opname := "RETURN_VALUE" }]

/-- Branches in a branch. The jump at 10 leads past the jump at 16 to the end of the outer branch.
-/
def threadedBranch : Code :=
  [{ offset := 0, opname := "LOAD_NAME", argval := some "a" },
    { offset := 2, opname := "POP_JUMP_IF_FALSE", arg := some 18 },
    { offset := 4, opname := "LOAD_NAME", argval := some "b" },
    { offset := 6, opname := "POP_JUMP_IF_FALSE", arg := some 12 },
    { offset := 8, opname := "LOAD_NAME", argval := some "p" },
    { offset := 10, opname := "JUMP_ABSOLUTE", arg := some 24 },
    { offset := 12, opname := "LOAD_NAME", argval := some "q" },
    { offset := 14, opname := "POP_TOP" },
    { offset := 16, opname := "JUMP_FORWARD", arg := some 6, argval := some "to 24" },
    { offset := 18, opname := "LOAD_NAME", argval := some "c" },
    { offset := 20, opname := "POP_JUMP_IF_FALSE", arg := some 24 },
    { offset := 22, opname := "LOAD_NAME", argval := some "r" },
    { offset := 24, opname := "LOAD_CONST", argval := some "None" },
    { offset := 26, opname := "RETURN_VALUE" }]

/-- A loop behind a branch in a branch. The jump at 10 leads past the jump at 16 to the end of the loop. -/
def threadedOver : Code :=
  [{ offset := 0, opname := "LOAD_NAME", argval := some "a" },
    { offset := 2, opname := "POP_JUMP_IF_FALSE", arg := some 18 },
    { offset := 4, opname := "LOAD_NAME", argval := some "b" },
    { offset := 6, opname := "POP_JUMP_IF_FALSE", arg := some 12 },
    { offset := 8, opname := "LOAD_NAME", argval := some "p" },
    { offset := 10, opname := "JUMP_ABSOLUTE", arg := some 28 },
    { offset := 12, opname := "LOAD_NAME", argval := some "q" },
    { offset := 14, opname := "POP_TOP" },
    { offset := 16, opname := "JUMP_FORWARD", arg := some 10, argval := some "to 28" },
    { offset := 18, opname := "LOAD_NAME", argval := some "xs" },
    { offset := 20, opname := "GET_ITER" },
    { offset := 22, opname := "FOR_ITER", arg := some 4, argval := some "to 28" },
    { offset := 24, opname := "STORE_NAME", argval := some "x" },
    { offset := 26, opname := "JUMP_ABSOLUTE", arg := some 22 },
    { offset := 28, opname := "LOAD_CONST", argval := some "None" },
    { offset := 30, opname := "RETURN_VALUE" }]

theorem arrives_threadedBreak :
    ∃ state past, Arrives {} threadedBreak 11 state past ∧
      Walk.effect {} threadedBreak { offset := 22, opname := "JUMP_ABSOLUTE", arg := some 4 }
        (threadedBreak.drop 12) (state.settle 22) = .ok (.push1 .continueStmt) := by
  have h₀ : Arrives {} threadedBreak 0 {} [] := .start
  have h₄ := ((h₀.step rfl rfl).step rfl rfl).step rfl rfl
  have h₈ := ((h₄.step rfl rfl).step rfl rfl).step rfl rfl
  have h₁₁ := ((h₈.step rfl rfl).step rfl rfl).step rfl rfl
  exact ⟨_, _, h₁₁, rfl⟩

theorem arrives_threadedBranch :
    ∃ state past, Arrives {} threadedBranch 5 state past ∧
      Walk.effect {} threadedBranch { offset := 10, opname := "JUMP_ABSOLUTE", arg := some 24 }
        (threadedBranch.drop 6) (state.settle 10) = .ok (.push1 .breakStmt) := by
  have h₀ : Arrives {} threadedBranch 0 {} [] := .start
  have h₂ := (h₀.step rfl rfl).step rfl rfl
  have h₅ := ((h₂.step rfl rfl).step rfl rfl).step rfl rfl
  exact ⟨_, _, h₅, rfl⟩

theorem arrives_threadedOver :
    ∃ state past, Arrives {} threadedOver 5 state past ∧
      Walk.effect {} threadedOver { offset := 10, opname := "JUMP_ABSOLUTE", arg := some 28 }
        (threadedOver.drop 6) (state.settle 10) = .ok (.push1 .breakStmt) := by
  have h₀ : Arrives {} threadedOver 0 {} [] := .start
  have h₂ := (h₀.step rfl rfl).step rfl rfl
  have h₅ := ((h₂.step rfl rfl).step rfl rfl).step rfl rfl
  exact ⟨_, _, h₅, rfl⟩

/-- The jump out of the inner loop goes on with the outer one. -/
theorem loop_keywords_threadedBreak :
    let jump : Instruction := { offset := 22, opname := "JUMP_ABSOLUTE", arg := some 4 }
    threadedBreak.Increasing ∧ threadedBreak[11]? = some jump ∧
      ∃ state past effect, Arrives {} threadedBreak 11 state past ∧
        Walk.effect {} threadedBreak jump (threadedBreak.drop 12) (state.settle 22) = .ok effect ∧
        effect.push = some .continueStmt ∧ LoopKeyword {} threadedBreak 11 jump 4 effect.push := by
  intro jump
  have hcode : threadedBreak.Increasing := by decide
  have hjump : threadedBreak[11]? = some jump := rfl
  obtain ⟨state, past, h, hput⟩ := arrives_threadedBreak
  obtain ⟨effect, heffect, hkeyword⟩ := loop_keywords h rfl hcode hjump rfl rfl
  have hpush : effect = .push1 .continueStmt := Except.ok.inj (heffect.symm.trans hput)
  exact ⟨hcode, hjump, state, past, effect, h, heffect, by rw [hpush]; rfl, hkeyword⟩

/-- A `continue` may stand in a for loop opened after its target, and a `break` in no loop at all: its
target may be the end of a branch, or that of a loop behind it. -/
theorem exists_threaded_keywords :
    (threadedBreak.Increasing ∧ ∃ state past, Arrives {} threadedBreak 11 state past ∧
      Walk.effect {} threadedBreak { offset := 22, opname := "JUMP_ABSOLUTE", arg := some 4 }
        (threadedBreak.drop 12) (state.settle 22) = .ok (.push1 .continueStmt) ∧
      ∃ loop ∈ threadedBreak, loop.is .forIter = true ∧ 4 < loop.offset ∧
        threadedBreak.LoopOver loop 22) ∧
    (threadedBranch.Increasing ∧ ∃ state past, Arrives {} threadedBranch 5 state past ∧
      Walk.effect {} threadedBranch { offset := 10, opname := "JUMP_ABSOLUTE", arg := some 24 }
        (threadedBranch.drop 6) (state.settle 10) = .ok (.push1 .breakStmt) ∧
      ¬∃ head, threadedBranch.LoopOver head 10) ∧
    threadedOver.Increasing ∧ ∃ state past, Arrives {} threadedOver 5 state past ∧
      Walk.effect {} threadedOver { offset := 10, opname := "JUMP_ABSOLUTE", arg := some 28 }
        (threadedOver.drop 6) (state.settle 10) = .ok (.push1 .breakStmt) ∧
      ¬∃ head, threadedOver.LoopOver head 10 := by
  obtain ⟨state, past, h, heffect⟩ := arrives_threadedBreak
  obtain ⟨state', past', h', heffect'⟩ := arrives_threadedBranch
  obtain ⟨state'', past'', h'', heffect''⟩ := arrives_threadedOver
  exact ⟨⟨by decide, state, past, h, heffect, by decide⟩,
    ⟨by decide, state', past', h', heffect', Code.not_exists_loopOver (by decide)⟩,
    by decide, state'', past'', h'', heffect'', Code.not_exists_loopOver (by decide)⟩

end Walk

end Decompiler
